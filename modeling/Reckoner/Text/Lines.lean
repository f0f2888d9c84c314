/-! Ways to part a text into lines. They differ in which characters end a line
and in whether the ends are kept. -/
namespace Reckoner.Text

/-- Puts a character before the first piece. -/
def extendFirst (c : Char) : List (List Char) → List (List Char)
  | [] => [[c]]
  | piece :: rest => (c :: piece) :: rest

/-- The pieces of a text between line feeds. There is always one. -/
def splitFeeds : List Char → List (List Char)
  | [] => [[]]
  | c :: rest => if c = '\n' then [] :: splitFeeds rest else extendFirst c (splitFeeds rest)

/-- The lines of an input that is read line by line. What follows the last line
feed is a line unless it is empty. -/
def inputLines (cs : List Char) : List (List Char) :=
  let pieces := splitFeeds cs
  if pieces.getLast? = some [] then pieces.dropLast else pieces

/-- Makes every end of a line a single line feed, whether it was a carriage
return, a line feed, or the two in this order. -/
def unifyFeeds : List Char → List Char
  | [] => []
  | '\r' :: '\n' :: rest => '\n' :: unifyFeeds rest
  | c :: rest => (if c = '\r' then '\n' else c) :: unifyFeeds rest

/-- Whether a character ends a line of a document: line feed to carriage return,
the separators of files, groups and records, and those of Unicode. -/
def endsLine (c : Char) : Bool :=
  let n := c.toNat
  (10 ≤ n && n ≤ 13) || (28 ≤ n && n ≤ 30) || n == 0x85 || n == 0x2028 || n == 0x2029

/-- The pieces of a document between the ends of its lines. -/
def splitDocument : List Char → List (List Char)
  | [] => [[]]
  | '\r' :: '\n' :: rest => [] :: splitDocument rest
  | c :: rest => if endsLine c then [] :: splitDocument rest else extendFirst c (splitDocument rest)

/-- The lines of a document, without their ends. What follows the last end is a
line unless it is empty. -/
def documentLines (cs : List Char) : List (List Char) :=
  let pieces := splitDocument cs
  if pieces.getLast? = some [] then pieces.dropLast else pieces

/-- The rows of a text, with their ends. A row ends with a carriage return, a
line feed, or the two in this order, and the last row is what follows the last
end, even if it is empty. -/
def rows : List Char → List (List Char)
  | [] => [[]]
  | '\r' :: '\n' :: rest => ['\r', '\n'] :: rows rest
  | c :: rest =>
    if c = '\r' ∨ c = '\n' then [c] :: rows rest else extendFirst c (rows rest)

end Reckoner.Text

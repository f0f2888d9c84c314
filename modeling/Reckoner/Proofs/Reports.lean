import Reckoner.Report
import Mathlib.Data.List.TakeWhile

/-! What reports say and how they look. White space, the rows of a text, the picture of a
place in it and the report of an error are described by themselves: by lists of
characters and by the ways a text can be taken apart. Cutting, parting and drawing are
then shown to give what is described, and nothing else fits the descriptions. -/
namespace Reckoner

namespace Text

/-- The code points of white space: tab to carriage return, the separators of files,
groups, records and units, the space, and those that Unicode adds. -/
def whiteSpace : List Nat :=
  [0x09, 0x0A, 0x0B, 0x0C, 0x0D, 0x1C, 0x1D, 0x1E, 0x1F, 0x20, 0x85, 0xA0, 0x1680,
   0x2000, 0x2001, 0x2002, 0x2003, 0x2004, 0x2005, 0x2006, 0x2007, 0x2008, 0x2009, 0x200A,
   0x2028, 0x2029, 0x202F, 0x205F, 0x3000]

def IsWhite (c : Char) : Prop := c.toNat ∈ whiteSpace

/-- The ranges that are tested hold the listed code points and no others. -/
theorem isBlank_iff {c : Char} : isBlank c = true ↔ IsWhite c := by
  simp only [isBlank, IsWhite, whiteSpace, Bool.or_eq_true, Bool.and_eq_true, decide_eq_true_eq,
    beq_iff_eq, List.mem_cons, List.not_mem_nil, or_false]
  omega

theorem isBlank_eq_false_iff {c : Char} : isBlank c = false ↔ ¬ IsWhite c := by
  rw [← isBlank_iff, Bool.not_eq_true]

/-- What is left of a text if the white space at its end is cut off. -/
structure TrimmedEnd (cs core : List Char) : Prop where
  after : ∃ right, cs = core ++ right ∧ ∀ c ∈ right, IsWhite c
  last : ∀ c ∈ core.getLast?, ¬ IsWhite c

/-- What is left of a text if the white space at both ends is cut off. -/
structure Trimmed (cs core : List Char) : Prop where
  around : ∃ left right, cs = left ++ core ++ right ∧
    (∀ c ∈ left, IsWhite c) ∧ ∀ c ∈ right, IsWhite c
  first : ∀ c ∈ core.head?, ¬ IsWhite c
  last : ∀ c ∈ core.getLast?, ¬ IsWhite c

/-- Dropping blanks stops at the first character that is none. -/
theorem eq_dropWhile_iff {cs core : List Char} :
    core = cs.dropWhile isBlank ↔
      (∃ left, cs = left ++ core ∧ ∀ c ∈ left, IsWhite c) ∧ ∀ c ∈ core.head?, ¬ IsWhite c := by
  constructor
  · rintro rfl
    refine ⟨⟨cs.takeWhile isBlank, List.takeWhile_append_dropWhile.symm, ?_⟩, ?_⟩
    · exact fun c hc => isBlank_iff.mp (List.mem_takeWhile_imp hc)
    · intro c hc
      have hHead := List.head?_dropWhile_not isBlank cs
      rw [Option.mem_def.mp hc] at hHead
      exact isBlank_eq_false_iff.mp hHead
  · rintro ⟨⟨left, rfl, hLeft⟩, hHead⟩
    rw [List.dropWhile_append_of_pos fun c hc => isBlank_iff.mpr (hLeft c hc)]
    cases core with
    | nil => rfl
    | cons c core =>
        rw [List.dropWhile_cons_of_neg]
        exact Bool.eq_false_iff.mp (isBlank_eq_false_iff.mpr (hHead c rfl))

/-- There is one way to cut the end, and it is to turn the text round, drop
blanks, and turn it back. -/
theorem trimmedEnd_iff {cs core : List Char} : TrimmedEnd cs core ↔ core = stripEnd cs := by
  rw [stripEnd, ← List.reverse_eq_iff, eq_dropWhile_iff]
  constructor
  · rintro ⟨⟨right, rfl, hRight⟩, hLast⟩
    refine ⟨⟨right.reverse, List.reverse_append, fun c hc => hRight c (List.mem_reverse.mp hc)⟩, ?_⟩
    rwa [List.head?_reverse]
  · rintro ⟨⟨left, hText, hLeft⟩, hHead⟩
    refine ⟨⟨left.reverse, ?_, fun c hc => hLeft c (List.mem_reverse.mp hc)⟩, ?_⟩
    · rw [← List.reverse_eq_iff.mpr hText.symm]
      simp
    · rwa [List.head?_reverse] at hHead

/-- There is one way to cut both ends. -/
theorem trimmed_iff {cs core : List Char} : Trimmed cs core ↔ core = strip cs := by
  rw [strip, ← trimmedEnd_iff]
  constructor
  · rintro ⟨⟨left, right, rfl, hLeft, hRight⟩, hFirst, hLast⟩
    cases core with
    | nil =>
        have hNothing : [] = (left ++ [] ++ right).dropWhile isBlank := by
          refine eq_dropWhile_iff.mpr ⟨⟨left ++ [] ++ right, (List.append_nil _).symm, ?_⟩, by simp⟩
          simpa [or_imp, forall_and] using ⟨hLeft, hRight⟩
        rw [← hNothing]
        exact ⟨⟨[], rfl, by simp⟩, hLast⟩
    | cons c core =>
        have hDropped : c :: core ++ right = (left ++ c :: core ++ right).dropWhile isBlank :=
          eq_dropWhile_iff.mpr ⟨⟨left, List.append_assoc .., hLeft⟩, hFirst⟩
        rw [← hDropped]
        exact ⟨⟨right, rfl, hRight⟩, hLast⟩
  · rintro ⟨⟨right, hRest, hRight⟩, hLast⟩
    obtain ⟨⟨left, hText, hLeft⟩, hHead⟩ := eq_dropWhile_iff.mp hRest.symm
    refine ⟨⟨left, right, by rw [hText, List.append_assoc], hLeft, hRight⟩, ?_, hLast⟩
    cases core with
    | nil => simp
    | cons c core => exact hHead

/-- A text of white space is one of which nothing is left. -/
theorem strip_eq_nil_iff {cs : List Char} : strip cs = [] ↔ ∀ c ∈ cs, IsWhite c := by
  constructor
  · intro hNothing
    obtain ⟨left, right, hText, hLeft, hRight⟩ := (trimmed_iff.mpr hNothing.symm).around
    rw [hText]
    simpa [or_imp, forall_and] using ⟨hLeft, hRight⟩
  · intro hWhite
    exact (trimmed_iff.mp ⟨⟨cs, [], by simp, hWhite, by simp⟩, by simp, by simp⟩).symm

/-- The end of a row before the rest of a text: a carriage return and a line feed, or one
of them. A carriage return does not end a row by itself if a line feed follows. -/
def IsFeed (feed rest : List Char) : Prop :=
  feed = ['\r', '\n'] ∨ feed = ['\n'] ∨ feed = ['\r'] ∧ rest.head? ≠ some '\n'

/-- A text and its rows. Each row but the last is closed by an end, which is part of it,
and there is none inside a row. -/
inductive AreRows : List Char → List (List Char) → Prop
  | last {row : List Char} (plain : ∀ c ∈ row, c ≠ '\r' ∧ c ≠ '\n') : AreRows row [row]
  | next {row feed rest : List Char} {rows : List (List Char)}
      (plain : ∀ c ∈ row, c ≠ '\r' ∧ c ≠ '\n') (ends : IsFeed feed rest)
      (others : AreRows rest rows) : AreRows (row ++ (feed ++ rest)) ((row ++ feed) :: rows)

/-- A character that ends no row belongs to the first one. -/
theorem rows_cons_plain {c : Char} (h : c ≠ '\r' ∧ c ≠ '\n') (cs : List Char) :
    rows (c :: cs) = extendFirst c (rows cs) := by
  rw [rows.eq_3 _ _ fun _ hReturn _ => h.1 hReturn, if_neg (by simp [h])]

/-- An end closes the row that it stands in. -/
theorem rows_feed {feed rest : List Char} (h : IsFeed feed rest) :
    rows (feed ++ rest) = feed :: rows rest := by
  rcases h with rfl | rfl | ⟨rfl, hNext⟩
  · rfl
  · exact rows.eq_3 _ _ fun _ hReturn _ => absurd hReturn (by decide)
  · refine rows.eq_3 _ _ fun rest' _ hRest => hNext ?_
    exact congrArg List.head? hRest

/-- Characters before the end of a row belong to it. -/
theorem rows_append_plain {row tail piece : List Char} {pieces : List (List Char)}
    (h : ∀ c ∈ row, c ≠ '\r' ∧ c ≠ '\n') (hTail : rows tail = piece :: pieces) :
    rows (row ++ tail) = (row ++ piece) :: pieces := by
  induction row with
  | nil => exact hTail
  | cons c row ih =>
      obtain ⟨hFirst, hOthers⟩ := List.forall_mem_cons.mp h
      rw [List.cons_append, rows_cons_plain hFirst, ih hOthers]
      rfl

/-- One more character that ends no row, in front of the first row. -/
theorem AreRows.cons {c : Char} {cs : List Char} {pieces : List (List Char)}
    (hc : c ≠ '\r' ∧ c ≠ '\n') (h : AreRows cs pieces) :
    AreRows (c :: cs) (extendFirst c pieces) := by
  cases h with
  | last plain => exact .last (List.forall_mem_cons.mpr ⟨hc, plain⟩)
  | next plain ends others => exact .next (List.forall_mem_cons.mpr ⟨hc, plain⟩) ends others

theorem AreRows.ne_nil {cs : List Char} {pieces : List (List Char)} (h : AreRows cs pieces) :
    pieces ≠ [] := by
  cases h <;> simp

/-- There is one way to part a text into rows. -/
theorem areRows_iff {cs : List Char} {pieces : List (List Char)} :
    AreRows cs pieces ↔ pieces = rows cs := by
  constructor
  · intro h
    induction h with
    | @last row plain =>
        have hRow := rows_append_plain plain (show rows [] = [[]] from rfl)
        rw [List.append_nil] at hRow
        exact hRow.symm
    | next plain ends others ih => rw [rows_append_plain plain (rows_feed ends), ih]
  · rintro rfl
    have hEmpty : ∀ c ∈ ([] : List Char), c ≠ '\r' ∧ c ≠ '\n' := by simp
    fun_induction rows cs with
    | case1 => exact .last hEmpty
    | case2 rest ih => exact .next hEmpty (.inl rfl) ih
    | case3 c rest hSingle hFeed ih =>
        have hEnds : IsFeed [c] rest := by
          rcases hFeed with rfl | rfl
          · refine .inr (.inr ⟨rfl, fun hNext => ?_⟩)
            obtain ⟨rest', rfl⟩ := List.head?_eq_some_iff.mp hNext
            exact hSingle rest' rfl rfl
          · exact .inr (.inl rfl)
        exact .next hEmpty hEnds ih
    | case4 c rest _ hPlain ih => exact ih.cons (not_or.mp hPlain)

end Text

namespace Excerpt

open Text

/-- What stands before the row with a number: the number in six columns and a bar. -/
def numbered (number : Nat) : List Char :=
  List.leftpad 6 ' ' (toString number).toList ++ [' ', '|']

/-- A row as it is shown, and below it carets from a column of the row on. What comes
before the carets is as wide as what stands above, with the same tabs. -/
def drawing (number : Nat) (line shown : List Char) (column carets : Nat) : List Char :=
  let before := numbered number ++ line.take column
  numbered number ++ shown ++ ['\n'] ++ before.map (fun c => if c = '\t' then '\t' else ' ') ++
    List.replicate carets '^' ++ [' ', 'h', 'e', 'r', 'e']

/-- The picture of the stretch from `start` to `stop`. The offset `start` lies in the row
`line`, with the rows `former` before it, or beyond the last row. The row is shown
without the white space at its end. There are as many carets as the stretch has
characters in this row, but at least one. -/
inductive Shows (text : String) (start stop : Nat) : String → Prop
  | row {former latter : List (List Char)} {line shown : List Char} {column : Nat}
      (rows : AreRows text.toList (former ++ line :: latter))
      (place : start = former.flatten.length + column)
      (within : column < line.length ∨ latter = []) (bare : TrimmedEnd line shown) :
      Shows text start stop (String.ofList (drawing (former.length + 1) line shown column
        (max 1 (min (stop - start) (line.length - column)))))

theorem numbered_eq_margin (number : Nat) : numbered number = margin number := by
  simp [numbered, margin, List.leftpad]

/-- Going through the rows and taking their lengths off the offset arrives at
the row that holds it. Induction over the rows before it. -/
theorem locate_eq {former latter : List (List Char)} {line : List Char} {column : Nat}
    (h : column < line.length ∨ latter = []) (number : Nat) :
    locate number (former ++ line :: latter) (former.flatten.length + column) =
      (number + former.length, line, column) := by
  induction former generalizing number with
  | nil =>
      cases latter with
      | nil => simp [locate]
      | cons other latter => simp_all [locate]
  | cons row former ih =>
      have hSome : former ++ line :: latter ≠ [] := by simp
      obtain ⟨other, others, hOthers⟩ := List.exists_cons_of_ne_nil hSome
      -- The offset lies beyond this row, and the search goes on with the rest of it.
      have hBeyond : ¬ (row :: former).flatten.length + column < row.length := by
        simp only [List.flatten_cons, List.length_append]
        omega
      have hRest : (row :: former).flatten.length + column - row.length =
          former.flatten.length + column := by
        simp only [List.flatten_cons, List.length_append]
        omega
      rw [List.cons_append, hOthers, locate, if_neg hBeyond, ← hOthers, hRest, ih,
        List.length_cons]
      · simp only [Prod.mk.injEq, and_true]
        omega
      · simp

/-- Every offset has its place. -/
theorem exists_place {pieces : List (List Char)} (h : pieces ≠ []) (offset : Nat) :
    ∃ former line latter column, pieces = former ++ line :: latter ∧
      offset = former.flatten.length + column ∧ (column < line.length ∨ latter = []) := by
  induction pieces generalizing offset with
  | nil => exact absurd rfl h
  | cons row rest ih =>
      by_cases hHere : offset < row.length ∨ rest = []
      · exact ⟨[], row, rest, offset, rfl, by simp, hHere⟩
      · obtain ⟨hBeyond, hMore⟩ := not_or.mp hHere
        obtain ⟨former, line, latter, column, rfl, hOffset, hWithin⟩ :=
          ih hMore (offset - row.length)
        refine ⟨row :: former, line, latter, column, rfl, ?_, hWithin⟩
        simp only [List.flatten_cons, List.length_append]
        omega

/-- The picture at a place that is known. -/
theorem render_eq {text : String} {former latter : List (List Char)} {line : List Char}
    {start column : Nat} (hRows : former ++ line :: latter = Text.rows text.toList)
    (hPlace : start = former.flatten.length + column)
    (hWithin : column < line.length ∨ latter = []) (stop : Nat) :
    render text start stop = String.ofList (drawing (former.length + 1) line (stripEnd line) column
      (max 1 (min (stop - start) (line.length - column)))) := by
  have hCarets : max 1 (min (max stop (start + 1) - start) (line.length - column)) =
      max 1 (min (stop - start) (line.length - column)) := by omega
  have hIndent (cs : List Char) : indent cs = cs.map fun c => if c = '\t' then '\t' else ' ' :=
    List.map_congr_left fun c _ => by split <;> simp_all
  have hLocated : locate 1 (Text.rows text.toList) start = (1 + former.length, line, column) := by
    rw [← hRows, hPlace, locate_eq hWithin]
  rw [render, hLocated]
  dsimp only
  rw [hCarets, hIndent, ← numbered_eq_margin, Nat.add_comm 1]
  simp [drawing]

/-- Every offset has one picture, the one that is drawn. -/
theorem shows_iff {text : String} {start stop : Nat} {picture : String} :
    Shows text start stop picture ↔ picture = render text start stop := by
  constructor
  · rintro ⟨hRows, hPlace, hWithin, hBare⟩
    rw [render_eq (areRows_iff.mp hRows) hPlace hWithin, trimmedEnd_iff.mp hBare]
  · rintro rfl
    have hSome : Text.rows text.toList ≠ [] := (areRows_iff.mpr rfl).ne_nil
    obtain ⟨former, line, latter, column, hRows, hPlace, hWithin⟩ := exists_place hSome start
    rw [render_eq hRows.symm hPlace hWithin]
    exact .row (areRows_iff.mpr hRows.symm) hPlace hWithin (trimmedEnd_iff.mpr rfl)

end Excerpt

namespace Report

open Text

/-- What a report says of an error about a text: the family of the error, a colon and the
message. If the text could not be read and reading stopped at a token, a picture of the
token follows on lines of its own, unless the text is blank. -/
inductive IsIssue (text : String) : Error → String → Prop
  | pictured {cause : ParseError.Cause} {token : Token} {picture : String}
      (inked : ∃ c ∈ text.toList, ¬ IsWhite c)
      (shows : Excerpt.Shows text token.start token.stop picture) :
      IsIssue text (.parse ⟨cause, some token⟩)
        ("SyntaxError: " ++ (ParseError.mk cause (some token)).message ++ "\n" ++ picture)
  | blank {cause : ParseError.Cause} {token : Token} (white : ∀ c ∈ text.toList, IsWhite c) :
      IsIssue text (.parse ⟨cause, some token⟩)
        ("SyntaxError: " ++ (ParseError.mk cause (some token)).message)
  | placeless (cause : ParseError.Cause) :
      IsIssue text (.parse ⟨cause, none⟩) ("SyntaxError: " ++ (ParseError.mk cause none).message)
  | eval (e : EvalError) : IsIssue text (.eval e) ("RuntimeError: " ++ e.message)
  | run (e : RunError) : IsIssue text (.run e) ("ExecutionError: " ++ e.message)
  | other (detail : Option String) :
      IsIssue text (.other detail) ("Error: " ++ detail.getD "InterpreterError")

/-- There is one report for each error about a text, and it is the one that
sessions write. -/
theorem isIssue_iff {text : String} {e : Error} {issue : String} :
    IsIssue text e issue ↔ issue = issueOf e text := by
  constructor
  · intro h
    cases h with
    | pictured inked shows =>
        obtain ⟨c, hc, hInk⟩ := inked
        have hText : (strip text.toList).isEmpty = false := by
          rw [List.isEmpty_eq_false_iff, ne_eq, strip_eq_nil_iff]
          exact fun hWhite => hInk (hWhite c hc)
        rw [issueOf, hText, Excerpt.shows_iff.mp shows]
        rfl
    | blank white =>
        have hText : (strip text.toList).isEmpty = true := by
          rwa [List.isEmpty_iff, strip_eq_nil_iff]
        rw [issueOf, hText]
        rfl
    | placeless cause => rfl
    | eval e => rfl
    | run e => rfl
    | other detail => rfl
  · rintro rfl
    cases e with
    | parse e =>
        obtain ⟨cause, _ | token⟩ := e
        · exact .placeless cause
        · unfold issueOf
          dsimp only
          split
          · next hText =>
              rw [List.isEmpty_iff, strip_eq_nil_iff] at hText
              exact .blank hText
          · next hText =>
              simp only [List.isEmpty_iff, strip_eq_nil_iff, not_forall, exists_prop] at hText
              exact .pictured hText (Excerpt.shows_iff.mpr rfl)
    | eval e => exact .eval e
    | run e => exact .run e
    | other detail => exact .other detail

end Report

end Reckoner

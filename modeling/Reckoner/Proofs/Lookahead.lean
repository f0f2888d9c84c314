import Reckoner.Proofs.RoundTrip

/-! Readers look one token ahead. What a reader makes of some tokens depends on
those that it takes and on the next one, whether it succeeds or rejects that
one. Where it rejects a token after it has taken others, the others could have
been followed by something better. Readers are put together from smaller ones,
and so is the proof that they are of this kind. -/
namespace Reckoner

namespace Token

/-- What readers look at in a token. Its offsets are only handed on. -/
def shape (t : Token) : Token.Kind × String := (t.kind, t.text)

def isA (t : Token) (kind : Token.Kind) (text : String) : Bool := t.kind == kind && t.text == text

variable {t t' : Token}

theorem kind_eq (h : t'.shape = t.shape) : t'.kind = t.kind := congrArg Prod.fst h

theorem text_eq (h : t'.shape = t.shape) : t'.text = t.text := congrArg Prod.snd h

theorem isFinish_eq (h : t'.shape = t.shape) : t'.isFinish = t.isFinish := by
  rw [isFinish, isFinish, kind_eq h]

/-- The tests of readers look at the shape of a token and at nothing else. -/
theorem isA_eq (h : t'.shape = t.shape) (kind : Token.Kind) (text : String) :
    t'.isA kind text = t.isA kind text := by
  rw [isA, isA, kind_eq h, text_eq h]

/-- A token that was asked for is not the mark of the end. -/
theorem not_finish_of_isA {kind : Token.Kind} {text : String} (h : t.isA kind text = true)
    (hKind : kind ≠ .finish) : t.isFinish = false := by
  simp only [isA, Bool.and_eq_true, beq_iff_eq] at h
  simpa [isFinish, h.1] using hKind

theorem isOperator_eq (h : t'.shape = t.shape) (text : String) :
    t'.isOperator text = t.isOperator text := by
  rw [isOperator, isOperator, kind_eq h, text_eq h]

theorem not_finish_of_isOperator {text : String} (h : t.isOperator text = true) :
    t.isFinish = false := by
  simp [isFinish, Reading.kind_of_isOperator h]

/-- No sign is the mark of the end. -/
theorem not_operator_of_isFinish (h : t.isFinish = true) (text : String) :
    t.isOperator text = false := by
  simp only [isFinish, beq_iff_eq] at h
  exact Reading.isOperator_of_kind h (by decide) text

/-- The token is one of some signs, or it marks the end. -/
def Among (texts : List String) (t : Token) : Prop :=
  t.isFinish = true ∨ ∃ text ∈ texts, t.isOperator text = true

namespace Among

variable {texts others : List String}

/-- More signs leave more freedom. -/
theorem mono (h : t.Among texts) (hSubset : texts ⊆ others) : t.Among others :=
  h.imp_right fun ⟨text, hText, hToken⟩ => ⟨text, hSubset hText, hToken⟩

/-- A sign that is not in the list is none of them, and the end is no sign. -/
theorem not_operator (h : t.Among texts) {text : String} (hText : text ∉ texts) :
    t.isOperator text = false := by
  rcases h with h | ⟨other, hOther, h⟩
  · exact not_operator_of_isFinish h text
  · rw [Bool.eq_false_iff]
    intro hToken
    have hSame : other = text :=
      (Reading.text_of_isOperator h).symm.trans (Reading.text_of_isOperator hToken)
    exact hText (hSame ▸ hOther)

/-- Whatever stops a reader is a sign or the end, never a name or a number. -/
theorem kind (h : t.Among texts) : t.kind = .finish ∨ t.kind = .operator := by
  rcases h with h | ⟨_, _, h⟩
  · exact .inl (by simpa [isFinish] using h)
  · exact .inr (Reading.kind_of_isOperator h)

end Among

/-- The signs after which an expression has ended, wherever it stands. -/
def closers : List String := [")", ";", "\x7b", "\x7d"]

/-- A closing sign joins no operands, so it parts an expression from what
follows. -/
theorem Among.parts (h : t.Among closers) : t.Parts where
  joint := by
    rcases h with h | ⟨text, hText, h⟩
    · simp only [isFinish, beq_iff_eq] at h
      rw [Reading.joint?, h]
    · have hGlyph : Operator.ofGlyph? text = none := by
        simp only [closers, List.mem_cons, List.not_mem_nil, or_false] at hText
        rcases hText with rfl | rfl | rfl | rfl <;> rfl
      rw [Reading.joint?, Reading.kind_of_isOperator h, Reading.text_of_isOperator h, hGlyph]
      rfl
  apart := h.not_operator (by decide)

/-- A closing sign cannot begin an operand. -/
theorem Among.not_startsOperand (h : t.Among closers) : Reading.startsOperand t = false := by
  have hOpening : t.isOperator "(" = false := h.not_operator (by decide)
  have hRoot : t.isOperator "√" = false := h.not_operator (by decide)
  rcases h.kind with hKind | hKind <;> simp [Reading.startsOperand, hKind, hOpening, hRoot]

end Token

/-- Tokens that readers cannot tell apart. -/
def SameShape (ts us : List Token) : Prop := ts.map Token.shape = us.map Token.shape

namespace SameShape

variable {ts us vs : List Token} {t : Token}

theorem refl (ts : List Token) : SameShape ts ts := rfl

theorem nil (h : SameShape us []) : us = [] := List.map_eq_nil_iff.mp h

/-- Tokens of one shape fall apart alike, first token and rest. -/
theorem cons (h : SameShape us (t :: ts)) :
    ∃ t' us', us = t' :: us' ∧ t'.shape = t.shape ∧ SameShape us' ts := by
  obtain ⟨t', us', rfl, hToken, hRest⟩ := List.map_eq_cons_iff.mp h
  exact ⟨t', us', rfl, hToken, hRest⟩

/-- Where one list is cut in two, any list of the same shape can be cut too. -/
theorem append (h : SameShape us (ts ++ vs)) :
    ∃ former latter, us = former ++ latter ∧ SameShape former ts ∧ SameShape latter vs := by
  rw [SameShape, List.map_append] at h
  obtain ⟨former, latter, rfl, hFormer, hLatter⟩ := List.map_eq_append_iff.mp h
  exact ⟨former, latter, rfl, hFormer, hLatter⟩

theorem length (h : SameShape us ts) : us.length = ts.length := by
  simpa using congrArg List.length h

end SameShape

/-- No token among these marks the end. -/
def Unfinished (ts : List Token) : Prop := ∀ t ∈ ts, t.isFinish = false

theorem unfinished_nil : Unfinished [] := fun _ ht => absurd ht List.not_mem_nil

theorem Unfinished.cons {t : Token} {ts : List Token} (ht : t.isFinish = false)
    (h : Unfinished ts) : Unfinished (t :: ts) :=
  fun u hu => (List.mem_cons.mp hu).elim (fun hSame => hSame ▸ ht) (h u)

/-- The end is marked in a whole list if it is marked in one part. -/
theorem Unfinished.append {ts us : List Token} (h : Unfinished ts) (h' : Unfinished us) :
    Unfinished (ts ++ us) :=
  fun t ht => (List.mem_append.mp ht).elim (h t) (h' t)

namespace Reading

variable {ts us rest rest' : List Token}

/-- The next token has the same shape on both sides, whether it is one of those
taken or the one after them. -/
theorem peek_shape (h : SameShape us ts) (hRest : (peek rest').shape = (peek rest).shape) :
    (peek (us ++ rest')).shape = (peek (ts ++ rest)).shape := by
  cases ts with
  | nil =>
      rw [h.nil]
      exact hRest
  | cons t ts =>
      obtain ⟨t', us', rfl, hToken, -⟩ := h.cons
      exact hToken

/-- What comes first does not depend on what follows it. -/
theorem peek_shape_of_ne (h : SameShape us ts) (hts : ts ≠ []) (rest rest' : List Token) :
    (peek (us ++ rest')).shape = (peek (ts ++ rest)).shape := by
  cases ts with
  | nil => exact absurd rfl hts
  | cons t ts =>
      obtain ⟨t', us', rfl, hToken, -⟩ := h.cons
      exact hToken

/-- A reader with a budget. -/
abbrev Reader (α : Type) := Nat → List Token → Except Failure (α × List Token)

/-- One reader after another. -/
def chain {α β : Type} (read : Reader α) (next : α → Reader β) : Reader β :=
  fun fuel ts => read fuel ts >>= fun r => next r.1 fuel r.2

/-- Gives what is at hand. -/
def given {α : Type} (a : α) : Reader α := fun _ ts => .ok (a, ts)

/-- Something is made of what a reader gives. -/
def mapped {α β : Type} (f : α → β) (read : Reader α) : Reader β :=
  chain read fun a => given (f a)

/-- Rejects the next token. -/
def rejecting {α : Type} (cause : ParseError.Cause) : Reader α :=
  fun _ ts => reject cause (peek ts)

/-- Takes a certain token and goes on in one way, or in another if it is not
there. -/
def ifNext {α : Type} (kind : Token.Kind) (text : String) (yes no : Reader α) : Reader α :=
  fun fuel ts => if (peek ts).isA kind text then yes fuel ts.tail else no fuel ts

/-- With four steps of the budget for each token, and some more, the reader gives
this result. -/
def Gives {α : Type} (cost : Nat) (read : Reader α) (ts : List Token)
    (result : Except Failure (α × List Token)) : Prop :=
  ∀ fuel, 4 * ts.length + cost ≤ fuel → read fuel ts = result

/-- How a reader deals with what comes after it: what may always stand there, and
what is left of it. -/
structure Manner where
  stop : List Token → Prop
  left : List Token → List Token

namespace Manner

/-- The reader comes to an end by itself. -/
def closed : Manner := ⟨fun _ => True, id⟩

/-- The reader reads an expression, or something that ends with one. -/
def expression : Manner := ⟨fun rest => (peek rest).Among Token.closers, id⟩

/-- The reader reads something that may be left out at the end of a statement. -/
def optional : Manner := ⟨fun rest => (peek rest).Among [";", "\x7d"], id⟩

/-- The reader reads a statement and takes the semicolons after it. Beyond them
nothing may go on with a conditional. -/
def statement : Manner where
  stop rest := optional.stop rest ∧ (peek (skipSemicolons rest)).isKeyword "else" = false
  left := skipSemicolons

/-- The reader reads up to the end. -/
def whole : Manner := ⟨fun rest => (peek rest).isFinish = true, fun _ => []⟩

/-- Whether a reader that stopped before the first tokens does the same before the
second ones. -/
def Allows (M : Manner) (rest rest' : List Token) : Prop :=
  (peek rest').shape = (peek rest).shape ∨ M.stop rest'

end Manner

variable {α β : Type} {L M N : Manner} {c d g n k : Nat}

/-- After whatever a reader in one manner has taken, a reader in another manner
can be given what it needs. -/
def Completes (M N : Manner) (c : Nat) (read : Reader α) : Prop :=
  ∃ more a, Unfinished more ∧ ∀ rest, N.stop rest →
    M.stop (more ++ rest) ∧ Gives c read (more ++ rest) (.ok (a, N.left rest))

/-- What a reader makes of some tokens is decided by those that it takes and by
the next one. If it rejects the next one, then the ones that it took can be
completed. -/
inductive Exact (M : Manner) (c n : Nat) (read : Reader α) (ts : List Token) : Prop where
  | ok (used rest : List Token) (a : α) (tokens : ts = used ++ rest) (takes : n ≤ used.length)
      (unfinished : Unfinished used)
      (same : ∀ used' rest', SameShape used' used → M.Allows rest rest' →
        Gives c read (used' ++ rest') (.ok (a, M.left rest')))
  | error (used rest : List Token) (cause : ParseError.Cause) (tokens : ts = used ++ rest)
      (unfinished : Unfinished used)
      (same : ∀ used' rest', SameShape used' used → (peek rest').shape = (peek rest).shape →
        Gives c read (used' ++ rest') (.error (.parse cause (peek rest'))))
      (viable : used ≠ [] → ∃ more a, Unfinished more ∧ ∀ rest', M.stop rest' →
        Gives c read (used ++ (more ++ rest')) (.ok (a, M.left rest')))

section Budgets

variable {read : Reader α} {next : α → Reader β} {r : Except Failure (α × List Token)}

/-- If the first reader takes `us`, then the second has a budget of four steps
less for each of them. The second starts from what the first left. -/
theorem Gives.chain_ok {a : α} {result : Except Failure (β × List Token)}
    (hRead : Gives d read (us ++ rest) (.ok (a, M.left rest)))
    (hLeft : ∀ a fuel us, next a fuel (M.left us) = next a fuel us)
    (hNext : Gives g (next a) rest result) (hd : d ≤ c) (hg : g ≤ c + 4 * us.length) :
    Gives c (chain read next) (us ++ rest) result := by
  intro fuel hFuel
  rw [chain, hRead fuel (by omega)]
  change next a fuel (M.left rest) = result
  rw [hLeft]
  rw [List.length_append] at hFuel
  exact hNext fuel (by omega)

/-- What the first reader rejects, both of them reject. -/
theorem Gives.chain_error {e : Failure} (hRead : Gives d read ts (.error e)) (hd : d ≤ c) :
    Gives c (chain read next) ts (.error e) := by
  intro fuel hFuel
  rw [chain, hRead fuel (by omega)]
  rfl

/-- The value changes, the tokens and the budget do not. -/
theorem Gives.mapped_ok {a : α} (f : α → β) (h : Gives c read ts (.ok (a, rest))) :
    Gives c (mapped f read) ts (.ok (f a, rest)) := by
  intro fuel hFuel
  rw [mapped, chain, h fuel hFuel]
  rfl

/-- The budget that a reader hands on is one less. -/
theorem Gives.step {inner : Reader α} (hRead : ∀ fuel us, read (fuel + 1) us = inner fuel us)
    (h : Gives c inner ts r) : Gives (c + 1) read ts r := by
  intro fuel hFuel
  obtain ⟨fuel, rfl⟩ := Nat.exists_eq_add_of_le' (Nat.le_trans (Nat.le_add_left 1 _) hFuel)
  rw [hRead]
  exact h fuel (by omega)

/-- More of a budget does no harm. -/
theorem Gives.raise (h : Gives d read ts r) (hd : d ≤ c) : Gives c read ts r :=
  fun fuel hFuel => h fuel (by omega)

/-- For a reader that sees to its budget itself. -/
theorem Gives.ofBudget (h : Gives c read ts r) (hc : c ≤ 4) :
    Gives 0 (fun _ us => read (budget us) us) ts r :=
  fun _ _ => h _ (by unfold budget; omega)

end Budgets

namespace Completes

variable {read : Reader α}

/-- Nothing is needed. -/
theorem nothing (a : α) (hStop : ∀ us, N.stop us → M.stop us)
    (hRead : ∀ us, N.stop us → Gives c read us (.ok (a, N.left us))) : Completes M N c read :=
  ⟨[], a, unfinished_nil, fun rest hRest => ⟨hStop rest hRest, hRead rest hRest⟩⟩

/-- A reader that takes nothing needs nothing. -/
theorem given (a : α) (hLeft : N.left = id) (hStop : ∀ us, N.stop us → M.stop us) :
    Completes M N c (Reading.given a) := by
  refine .nothing a hStop fun us _ fuel _ => ?_
  rw [hLeft]
  rfl

/-- What completes two readers is what completes the first and then what
completes the second. The latter has to be able to stand after the former. -/
theorem chain {next : α → Reader β} (hFirst : Completes L M d read)
    (hLeft : ∀ a fuel us, next a fuel (M.left us) = next a fuel us)
    (hNext : ∀ a, Completes M N g (next a)) (hd : d ≤ c) (hg : g ≤ c) :
    Completes L N c (Reading.chain read next) := by
  obtain ⟨former, a, hFormer, hRead⟩ := hFirst
  obtain ⟨latter, b, hLatter, hRest⟩ := hNext a
  refine ⟨former ++ latter, b, hFormer.append hLatter, fun rest hStop => ?_⟩
  obtain ⟨hMiddle, hGives⟩ := hRest rest hStop
  obtain ⟨hStart, hFirst⟩ := hRead (latter ++ rest) hMiddle
  rw [List.append_assoc]
  exact ⟨hStart, hFirst.chain_ok hLeft hGives hd (by omega)⟩

/-- What completes a reader still does so before fewer tokens. -/
theorem loosen (h : Completes L M c read) (hLeft : N.left = M.left)
    (hStop : ∀ us, N.stop us → M.stop us) : Completes L N c read := by
  obtain ⟨more, a, hMore, hRead⟩ := h
  refine ⟨more, a, hMore, fun rest hRest => ?_⟩
  rw [hLeft]
  exact hRead rest (hStop rest hRest)

/-- Completing does not look at the value that is read. -/
theorem mapped (f : α → β) (h : Completes M N c read) :
    Completes M N c (Reading.mapped f read) := by
  obtain ⟨more, a, hMore, hRead⟩ := h
  exact ⟨more, f a, hMore, fun rest hRest =>
    ⟨(hRead rest hRest).1, (hRead rest hRest).2.mapped_ok f⟩⟩

section IfNext

variable {kind : Token.Kind} {text : String} {yes no : Reader α}

/-- A token is needed before what comes next. -/
theorem ifNext (h : Completes .closed N d yes) (hKind : kind ≠ .finish)
    (hStop : ∀ us, M.stop (⟨kind, text, 0, 0⟩ :: us)) (hc : d ≤ c + 4) :
    Completes M N c (Reading.ifNext kind text yes no) := by
  obtain ⟨more, a, hMore, hGives⟩ := h
  have hNext : (⟨kind, text, 0, 0⟩ : Token).isA kind text = true := by simp [Token.isA]
  refine ⟨⟨kind, text, 0, 0⟩ :: more, a, hMore.cons (Token.not_finish_of_isA hNext hKind),
    fun rest hRest => ⟨hStop _, fun fuel hFuel => ?_⟩⟩
  rw [List.cons_append, List.length_cons] at hFuel
  exact (if_pos hNext).trans ((hGives rest hRest).2 fuel (by omega))

/-- The token need not be there. -/
theorem ifNext_given (a : α) (hLeft : N.left = id) (hStop : ∀ us, N.stop us → M.stop us)
    (hNext : ∀ us, N.stop us → (peek us).isA kind text = false) :
    Completes M N c (Reading.ifNext kind text yes (Reading.given a)) := by
  refine .nothing a hStop fun us hStop fuel _ => ?_
  rw [hLeft]
  exact if_neg (Bool.eq_false_iff.mp (hNext us hStop))

end IfNext

theorem step {inner : Reader α} (hRead : ∀ fuel us, read (fuel + 1) us = inner fuel us)
    (h : Completes M N c inner) : Completes M N (c + 1) read := by
  obtain ⟨more, a, hMore, hGives⟩ := h
  exact ⟨more, a, hMore, fun rest hRest =>
    ⟨(hGives rest hRest).1, (hGives rest hRest).2.step hRead⟩⟩

theorem raise (h : Completes M N d read) (hd : d ≤ c) : Completes M N c read := by
  obtain ⟨more, a, hMore, hGives⟩ := h
  exact ⟨more, a, hMore, fun rest hRest => ⟨(hGives rest hRest).1, (hGives rest hRest).2.raise hd⟩⟩

/-- A reader that sees to its own budget is completed by the same tokens. -/
theorem ofBudget (h : Completes M N c read) (hc : c ≤ 4) :
    Completes M N 0 (fun _ us => read (budget us) us) := by
  obtain ⟨more, a, hMore, hGives⟩ := h
  exact ⟨more, a, hMore, fun rest hRest =>
    ⟨(hGives rest hRest).1, (hGives rest hRest).2.ofBudget hc⟩⟩

end Completes

namespace Exact

variable {read : Reader α}

/-- A reader that takes many tokens takes a few. -/
theorem mono (h : Exact M c k read ts) (hLe : n ≤ k) : Exact M c n read ts := by
  cases h with
  | ok used rest a tokens takes unfinished same =>
      exact .ok used rest a tokens (Nat.le_trans hLe takes) unfinished same
  | error used rest cause tokens unfinished same viable =>
      exact .error used rest cause tokens unfinished same viable

/-- What stops the one reader stops the other. -/
theorem loosen (h : Exact M c n read ts) (hLeft : N.left = M.left)
    (hStop : ∀ us, N.stop us → M.stop us) : Exact N c n read ts := by
  cases h with
  | ok used rest a tokens takes unfinished same =>
      refine .ok used rest a tokens takes unfinished fun used' rest' hUsed hRest => ?_
      rw [hLeft]
      exact same used' rest' hUsed (hRest.imp id (hStop rest'))
  | error used rest cause tokens unfinished same viable =>
      refine .error used rest cause tokens unfinished same fun hUsed => ?_
      rw [hLeft]
      obtain ⟨more, a, hMore, hRead⟩ := viable hUsed
      exact ⟨more, a, hMore, fun rest' hRest => hRead rest' (hStop rest' hRest)⟩

/-- Looking one token ahead does not concern the value either. -/
theorem mapped (f : α → β) (h : Exact M c n read ts) : Exact M c n (Reading.mapped f read) ts := by
  cases h with
  | ok used rest a tokens takes unfinished same =>
      exact .ok used rest (f a) tokens takes unfinished fun used' rest' hUsed hRest =>
        (same used' rest' hUsed hRest).mapped_ok f
  | error used rest cause tokens unfinished same viable =>
      refine .error used rest cause tokens unfinished
        (fun used' rest' hUsed hRest => (same used' rest' hUsed hRest).chain_error (Nat.le_refl c))
        fun hUsed => ?_
      obtain ⟨more, a, hMore, hRead⟩ := viable hUsed
      exact ⟨more, f a, hMore, fun rest' hRest => (hRead rest' hRest).mapped_ok f⟩

/-- Succeeds without taking a token. -/
theorem stay (a : α) (hRead : ∀ us, M.Allows ts us → Gives c read us (.ok (a, M.left us))) :
    Exact M c 0 read ts := by
  refine .ok [] ts a rfl (Nat.le_refl 0) unfinished_nil ?_
  intro used' rest' hUsed hRest
  rw [hUsed.nil]
  exact hRead rest' hRest

/-- Taking no token, a reader leaves the next one to others and does not look at
it. -/
theorem given (a : α) (hLeft : M.left = id) : Exact M c 0 (Reading.given a) ts := by
  refine .stay a fun us _ fuel _ => ?_
  rw [hLeft]
  rfl

/-- A reader that rejects the first token has taken none, so nothing has to be
completed. -/
theorem reject (cause : ParseError.Cause) (hRead : ∀ us, (peek us).shape = (peek ts).shape →
    Gives c read us (Reading.reject cause (peek us))) : Exact M c n read ts := by
  refine .error [] ts cause rfl unfinished_nil ?_ fun hUsed => absurd rfl hUsed
  intro used' rest' hUsed hRest
  rw [hUsed.nil]
  exact hRead rest' hRest

/-- Both parts of the notion speak of results within a budget, and so move from
one reader to another that gives the same results. -/
theorem transfer {inner : Reader α} (h : Exact M c n inner ts)
    (hGives : ∀ us r, Gives c inner us r → Gives d read us r) : Exact M d n read ts := by
  cases h with
  | ok used rest a tokens takes unfinished same =>
      exact .ok used rest a tokens takes unfinished fun used' rest' hUsed hRest =>
        hGives _ _ (same used' rest' hUsed hRest)
  | error used rest cause tokens unfinished same viable =>
      refine .error used rest cause tokens unfinished
        (fun used' rest' hUsed hRest => hGives _ _ (same used' rest' hUsed hRest)) fun hUsed => ?_
      obtain ⟨more, a, hMore, hRead⟩ := viable hUsed
      exact ⟨more, a, hMore, fun rest' hRest => hGives _ _ (hRead rest' hRest)⟩

/-- Opening a reader costs one step of its budget. -/
theorem step {inner : Reader α} (hRead : ∀ fuel us, read (fuel + 1) us = inner fuel us)
    (h : Exact M c n inner ts) : Exact M (c + 1) n read ts :=
  h.transfer fun _ _ hGives => hGives.step hRead

/-- A greater budget leaves it as it is. -/
theorem raise (h : Exact M d n read ts) (hd : d ≤ c) : Exact M c n read ts :=
  h.transfer fun _ _ hGives => hGives.raise hd

theorem ofBudget (h : Exact M c n read ts) (hc : c ≤ 4) :
    Exact M 0 n (fun _ us => read (budget us) us) ts :=
  h.transfer fun _ _ hGives => hGives.ofBudget hc

/-- A reader that goes by the next token does what another does for this one. -/
theorem branch {inner : Reader α} (h : Exact M c (n + 1) inner ts)
    (hRead : ∀ fuel us, (peek us).shape = (peek ts).shape → read fuel us = inner fuel us) :
    Exact M c (n + 1) read ts := by
  have hGives {us : List Token} {r : Except Failure (α × List Token)}
      (hPeek : (peek us).shape = (peek ts).shape) (hInner : Gives c inner us r) :
      Gives c read us r :=
    fun fuel hFuel => (hRead fuel us hPeek).trans (hInner fuel hFuel)
  cases h with
  | ok used rest a tokens takes unfinished same =>
      subst tokens
      refine .ok used rest a rfl takes unfinished fun used' rest' hUsed hRest => ?_
      have hTaken : used ≠ [] :=
        List.ne_nil_of_length_pos (Nat.lt_of_lt_of_le (Nat.succ_pos n) takes)
      exact hGives (peek_shape_of_ne hUsed hTaken _ _) (same used' rest' hUsed hRest)
  | error used rest cause tokens unfinished same viable =>
      subst tokens
      refine .error used rest cause rfl unfinished (fun used' rest' hUsed hRest => ?_)
        fun hUsed => ?_
      · exact hGives (peek_shape hUsed hRest) (same used' rest' hUsed hRest)
      · obtain ⟨more, a, hMore, hInner⟩ := viable hUsed
        exact ⟨more, a, hMore, fun rest' hRest =>
          hGives (peek_shape_of_ne (.refl _) hUsed _ _) (hInner rest' hRest)⟩

/-- A token is taken, and another reader goes on. -/
theorem token {next : Reader α} {t : Token} (h : Exact M d n next us)
    (hFinish : t.isFinish = false)
    (hRead : ∀ fuel t' us', t'.shape = t.shape → read fuel (t' :: us') = next fuel us')
    (hMore : Completes .closed M d next) (hc : d ≤ c + 4) : Exact M c (n + 1) read (t :: us) := by
  have hGives {t' : Token} {us' : List Token} {r : Except Failure (α × List Token)}
      (hToken : t'.shape = t.shape) (hNext : Gives d next us' r) : Gives c read (t' :: us') r := by
    intro fuel hFuel
    rw [List.length_cons] at hFuel
    rw [hRead fuel t' us' hToken]
    exact hNext fuel (by omega)
  cases h with
  | ok used rest a tokens takes unfinished same =>
      refine .ok (t :: used) rest a (congrArg _ tokens) (Nat.succ_le_succ takes)
        (unfinished.cons hFinish) fun used' rest' hUsed hRest => ?_
      obtain ⟨t', used', rfl, hToken, hUsed⟩ := hUsed.cons
      exact hGives hToken (same used' rest' hUsed hRest)
  | error used rest cause tokens unfinished same viable =>
      refine .error (t :: used) rest cause (congrArg _ tokens) (unfinished.cons hFinish)
        (fun used' rest' hUsed hRest => ?_) fun _ => ?_
      · obtain ⟨t', used', rfl, hToken, hUsed⟩ := hUsed.cons
        exact hGives hToken (same used' rest' hUsed hRest)
      · cases used with
        | nil =>
            obtain ⟨more, a, hUnfinished, hNext⟩ := hMore
            exact ⟨more, a, hUnfinished, fun rest' hRest => hGives rfl (hNext rest' hRest).2⟩
        | cons first others =>
            obtain ⟨more, a, hUnfinished, hNext⟩ := viable (List.cons_ne_nil _ _)
            exact ⟨more, a, hUnfinished, fun rest' hRest => hGives rfl (hNext rest' hRest)⟩

section IfNext

variable {kind : Token.Kind} {text : String} {yes no : Reader α}

/-- The case that the token is there. -/
theorem ifNext (h : ∀ us, us.length + 1 ≤ ts.length → Exact M d n yes us)
    (hMore : Completes .closed M d yes) (hKind : kind ≠ .finish) (hc : d ≤ c + 4)
    (hNot : (peek ts).isA kind text = false →
      Exact M c k (Reading.ifNext kind text yes no) ts) (hLe : k ≤ n + 1) :
    Exact M c k (Reading.ifNext kind text yes no) ts := by
  cases hNext : (peek ts).isA kind text with
  | false => exact hNot hNext
  | true =>
      cases ts with
      | nil => exact absurd (Token.not_finish_of_isA hNext hKind) (by decide)
      | cons t us =>
          refine mono
            (token (h us (Nat.le_refl _)) (Token.not_finish_of_isA hNext hKind) ?_ hMore hc) hLe
          intro fuel t' us' hToken
          exact if_pos ((Token.isA_eq hToken kind text).trans hNext)

/-- The token may be missing, and then nothing is taken. What stops the reader
must not be that token, as it would be taken. -/
theorem ifNext_given (a : α) (hNext : (peek ts).isA kind text = false) (hLeft : M.left = id)
    (hStop : ∀ us, M.stop us → (peek us).isA kind text = false) :
    Exact M c 0 (Reading.ifNext kind text yes (Reading.given a)) ts := by
  refine .stay a fun us hAllows fuel _ => ?_
  have hNot : (peek us).isA kind text = false :=
    hAllows.elim (fun hPeek => (Token.isA_eq hPeek kind text).trans hNext) (hStop us)
  rw [hLeft]
  exact if_neg (Bool.eq_false_iff.mp hNot)

/-- The token has to be there. If it is not then the next token is rejected
before any is taken. -/
theorem ifNext_rejecting {cause : ParseError.Cause} (hNext : (peek ts).isA kind text = false) :
    Exact M c n (Reading.ifNext kind text yes (rejecting cause)) ts := by
  refine .reject cause fun us hPeek fuel _ => ?_
  have hNot : (peek us).isA kind text = false := (Token.isA_eq hPeek kind text).trans hNext
  exact if_neg (Bool.eq_false_iff.mp hNot)

/-- If the token is not there, the other reader decides. -/
theorem ifNext_not (hNext : (peek ts).isA kind text = false) (h : Exact M c (n + 1) no ts) :
    Exact M c (n + 1) (Reading.ifNext kind text yes no) ts := by
  refine h.branch fun fuel us hPeek => ?_
  have hNot : (peek us).isA kind text = false := (Token.isA_eq hPeek kind text).trans hNext
  exact if_neg (Bool.eq_false_iff.mp hNot)

end IfNext

/-- One reader after another. If the second may take nothing, then whatever stops
it has to stop the first as well. -/
theorem chain {next : α → Reader β} (hFirst : Exact M d n read ts)
    (hLeft : ∀ a fuel us, next a fuel (M.left us) = next a fuel us)
    (hNext : ∀ a us, us.length + n ≤ ts.length → Exact N g k (next a) us)
    (hStop : k = 0 → ∀ us, N.stop us → M.stop us) (hMore : ∀ a, Completes M N g (next a))
    (hCost : d ≤ c ∧ g ≤ c + 4 ∧ g ≤ c + 4 * n) :
    Exact N c (n + k) (Reading.chain read next) ts := by
  obtain ⟨hd, hg, hcn⟩ := hCost
  cases hFirst with
  | error used rest cause tokens unfinished same viable =>
      refine .error used rest cause tokens unfinished
        (fun used' rest' hUsed hRest => (same used' rest' hUsed hRest).chain_error hd)
        fun hUsed => ?_
      obtain ⟨former, a, hFormer, hRead⟩ := viable hUsed
      obtain ⟨latter, b, hLatter, hRest⟩ := hMore a
      refine ⟨former ++ latter, b, hFormer.append hLatter, fun rest' hStops => ?_⟩
      obtain ⟨hMiddle, hGives⟩ := hRest rest' hStops
      have hTaken : 0 < used.length := List.length_pos_iff.mpr hUsed
      have hFirst := hRead (latter ++ rest') hMiddle
      rw [← List.append_assoc] at hFirst
      rw [List.append_assoc, ← List.append_assoc used]
      exact hFirst.chain_ok hLeft hGives hd (by rw [List.length_append]; omega)
  | ok used rest a tokens takes unfinished same =>
      -- Wherever the first reader stops in the same way, the second one decides.
      have hGives {used' rest' : List Token} {r : Except Failure (β × List Token)}
          (hUsed : SameShape used' used) (hRest : M.Allows rest rest')
          (hGiven : Gives g (next a) rest' r) :
          Gives c (Reading.chain read next) (used' ++ rest') r :=
        (same used' rest' hUsed hRest).chain_ok hLeft hGiven hd (by rw [hUsed.length]; omega)
      subst tokens
      rw [List.length_append] at hNext
      cases hNext a rest (by omega) with
      | ok others last b tokens takes' unfinished' same' =>
          subst tokens
          refine .ok (used ++ others) last b (List.append_assoc ..).symm
            (by rw [List.length_append]; omega) (unfinished.append unfinished') ?_
          intro used' rest' hUsed hRest
          obtain ⟨former, latter, rfl, hFormer, hLatter⟩ := hUsed.append
          rw [List.append_assoc]
          refine hGives hFormer ?_ (same' latter rest' hLatter hRest)
          cases others with
          | nil =>
              rw [hLatter.nil]
              exact hRest.imp id (hStop (Nat.le_zero.mp takes') rest')
          | cons t others => exact .inl (peek_shape_of_ne hLatter (List.cons_ne_nil _ _) _ _)
      | error others last cause tokens unfinished' same' viable' =>
          subst tokens
          refine .error (used ++ others) last cause (List.append_assoc ..).symm
            (unfinished.append unfinished') (fun used' rest' hUsed hRest => ?_) fun _ => ?_
          · obtain ⟨former, latter, rfl, hFormer, hLatter⟩ := hUsed.append
            rw [List.append_assoc]
            exact hGives hFormer (.inl (peek_shape hLatter hRest))
              (same' latter rest' hLatter hRest)
          · cases others with
            | nil =>
                obtain ⟨more, b, hUnfinished, hRest⟩ := hMore a
                refine ⟨more, b, hUnfinished, fun rest' hStops => ?_⟩
                rw [List.append_nil]
                exact hGives (.refl used) (.inr (hRest rest' hStops).1) (hRest rest' hStops).2
            | cons t others =>
                obtain ⟨more, b, hUnfinished, hRest⟩ := viable' (List.cons_ne_nil _ _)
                refine ⟨more, b, hUnfinished, fun rest' hStops => ?_⟩
                rw [List.append_assoc]
                exact hGives (.refl used)
                  (.inl (peek_shape_of_ne (.refl _) (List.cons_ne_nil _ _) _ _))
                  (hRest rest' hStops)

end Exact

end Reading

end Reckoner

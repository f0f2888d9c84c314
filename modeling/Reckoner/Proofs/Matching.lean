import Reckoner.Proofs.Scanning

/-! Stepping through derivatives finds the texts that belong. A text belongs to
the derivative of a pattern if it belongs to the pattern with the character put
back in front, so the search for the longest match finds just that. -/
namespace Reckoner.Pattern

variable {c : Char} {p q : Pattern} {s : List Char}

theorem matches_empty : Matches .empty s ↔ s = [] := by
  constructor
  · rintro ⟨⟩
    rfl
  · rintro rfl
    exact .empty

theorem matches_char {accepts : Char → Bool} :
    Matches (.char accepts) s ↔ ∃ c, accepts c = true ∧ s = [c] := by
  constructor
  · rintro ⟨⟩
    next c h => exact ⟨c, h, rfl⟩
  · rintro ⟨c, h, rfl⟩
    exact .char h

/-- A text belongs to two patterns in a row if it can be cut so that its parts
do. -/
theorem matches_concat :
    Matches (.concat p q) s ↔ ∃ a b, s = a ++ b ∧ Matches p a ∧ Matches q b := by
  constructor
  · intro h
    cases h with
    | concat hp hq => exact ⟨_, _, rfl, hp, hq⟩
  · rintro ⟨a, b, rfl, hp, hq⟩
    exact .concat hp hq

theorem matches_either : Matches (.either p q) s ↔ Matches p s ∨ Matches q s := by
  constructor
  · intro h
    cases h with
    | left h => exact .inl h
    | right h => exact .inr h
  · rintro (h | h)
    · exact .left h
    · exact .right h

theorem not_matches_never : ¬ Matches .never s := by
  rintro ⟨⟩

/-- The first character of a text comes from the first part, or the first part
takes nothing. -/
theorem matches_concat_cons : Matches (.concat p q) (c :: s) ↔
    Matches p [] ∧ Matches q (c :: s) ∨
      ∃ a b, s = a ++ b ∧ Matches p (c :: a) ∧ Matches q b := by
  rw [matches_concat]
  constructor
  · rintro ⟨a, b, hSplit, hp, hq⟩
    rcases List.cons_eq_append_iff.mp hSplit with ⟨rfl, rfl⟩ | ⟨a, rfl, rfl⟩
    · exact .inl ⟨hp, hq⟩
    · exact .inr ⟨a, b, rfl, hp, hq⟩
  · rintro (⟨hp, hq⟩ | ⟨a, b, rfl, hp, hq⟩)
    · exact ⟨[], c :: s, rfl, hp, hq⟩
    · exact ⟨c :: a, b, rfl, hp, hq⟩

/-- The first character of a repetition comes from the first time that takes
anything. The induction is on how the text belongs: times that take nothing are
passed over. -/
theorem matches_many_cons : Matches (.many p) (c :: s) ↔
    ∃ a b, s = a ++ b ∧ Matches p (c :: a) ∧ Matches (.many p) b := by
  constructor
  · intro h
    generalize hMany : Pattern.many p = r at h
    generalize hText : c :: s = t at h
    induction h with
    | more hs ht _ ih =>
        cases hMany
        rcases List.cons_eq_append_iff.mp hText with ⟨rfl, rfl⟩ | ⟨a, rfl, rfl⟩
        · exact ih rfl rfl
        · exact ⟨a, _, rfl, hs, ht⟩
    | done => cases hText
    | _ => cases hMany
  · rintro ⟨a, b, rfl, hp, hMany⟩
    exact .more hp hMany

/-- Whether the empty text belongs can be read off the pattern. Induction over
it. -/
theorem nullable_iff : p.nullable = true ↔ Matches p [] := by
  induction p with
  | never => simp [nullable, not_matches_never]
  | empty => simp [nullable, matches_empty]
  | char accepts => simp [nullable, matches_char]
  | concat p q ihp ihq =>
      rw [nullable, Bool.and_eq_true, ihp, ihq, matches_concat]
      constructor
      · rintro ⟨hp, hq⟩
        exact ⟨[], [], rfl, hp, hq⟩
      · rintro ⟨a, b, hSplit, hp, hq⟩
        obtain ⟨rfl, rfl⟩ := List.append_eq_nil_iff.mp hSplit.symm
        exact ⟨hp, hq⟩
  | either p q ihp ihq => rw [nullable, Bool.or_eq_true, ihp, ihq, matches_either]
  | many p ih => simp [nullable, Matches.done]

/-- Leaving out what takes nothing changes no text that belongs. -/
theorem matches_seq : Matches (seq p q) s ↔ Matches (.concat p q) s := by
  cases p with
  | never => simp [seq, matches_concat, not_matches_never]
  | empty => simp [seq, matches_concat, matches_empty]
  | _ => rfl

/-- Leaving out an alternative that takes no text changes nothing. -/
theorem matches_alt : Matches (alt p q) s ↔ Matches p s ∨ Matches q s := by
  cases p <;> cases q <;> simp [alt, matches_either, not_matches_never]

/-- The meaning of derivatives: what belongs after a character. The induction is
on the pattern. -/
theorem matches_derivative : Matches (derivative c p) s ↔ Matches p (c :: s) := by
  induction p generalizing s with
  | never => simp [derivative, not_matches_never]
  | empty => simp [derivative, not_matches_never, matches_empty]
  | char accepts =>
      rw [derivative, matches_char]
      split
      · next h => simp [matches_empty, h]
      · next h => simp [not_matches_never, h]
  | concat p q ihp ihq =>
      have hFirst : Matches (seq (derivative c p) q) s ↔
          ∃ a b, s = a ++ b ∧ Matches p (c :: a) ∧ Matches q b := by
        simp only [matches_seq, matches_concat, ihp]
      rw [derivative, matches_concat_cons]
      split
      · next hNullable =>
          rw [matches_alt, hFirst, ihq, or_comm]
          simp [nullable_iff.mp hNullable]
      · next hNullable =>
          rw [hFirst]
          simp [mt nullable_iff.mpr hNullable]
  | either p q ihp ihq => rw [derivative, matches_alt, matches_either, ihp, ihq]
  | many p ih =>
      rw [derivative, matches_seq, matches_concat, matches_many_cons]
      simp only [ih]

theorem longest?_nil : p.longest? [] = if p.nullable then some 0 else none := by
  rw [longest?]

/-- The search goes on as far as it can and comes back to where it was last
successful. That it gives up early for `never` makes no difference. -/
theorem longest?_cons : p.longest? (c :: s) =
    (((derivative c p).longest? s).map (· + 1)).or (if p.nullable then some 0 else none) := by
  rw [longest?]
  split
  · next hNever =>
      cases p with
      | never => simp [derivative, longest?_never, nullable]
      | _ => cases hNever
  · cases (derivative c p).longest? s <;> rfl

/-- What the search finds belongs. -/
theorem matches_of_longest? {n : Nat} (h : p.longest? s = some n) : Matches p (s.take n) := by
  have hEmpty {p : Pattern} {n : Nat} (h : (if p.nullable then some 0 else none) = some n) :
      n = 0 ∧ Matches p [] := by
    split at h
    · next hNullable => exact ⟨(Option.some.inj h).symm, nullable_iff.mp hNullable⟩
    · cases h
  induction s generalizing p n with
  | nil =>
      rw [List.take_nil]
      exact (hEmpty (longest?_nil ▸ h)).2
  | cons c s ih =>
      rw [longest?_cons] at h
      cases hRest : (derivative c p).longest? s with
      | some k =>
          rw [hRest] at h
          cases h
          exact matches_derivative.mp (ih hRest)
      | none =>
          rw [hRest] at h
          obtain ⟨rfl, hMatches⟩ := hEmpty h
          exact hMatches

/-- The search finds what belongs, or something longer. -/
theorem exists_longest? {a : List Char} (h : Matches p a) (b : List Char) :
    ∃ n, p.longest? (a ++ b) = some n ∧ a.length ≤ n := by
  induction a generalizing p with
  | nil =>
      have hNullable := nullable_iff.mpr h
      cases b with
      | nil => exact ⟨0, by rw [List.append_nil, longest?_nil, if_pos hNullable], Nat.le_refl 0⟩
      | cons c b =>
          rw [List.nil_append, longest?_cons, if_pos hNullable]
          cases (derivative c p).longest? b with
          | some k => exact ⟨k + 1, rfl, Nat.zero_le _⟩
          | none => exact ⟨0, rfl, Nat.le_refl 0⟩
  | cons c a ih =>
      obtain ⟨n, hn, hLength⟩ := ih (matches_derivative.mpr h)
      exact ⟨n + 1, by rw [List.cons_append, longest?_cons, hn]; rfl, Nat.succ_le_succ hLength⟩

/-- A character that a pattern avoids is in no text that belongs. -/
theorem not_mem_of_avoids {d : Char} (h : p.Matches s) (hAvoids : p.avoids d = true) : d ∉ s := by
  induction h with
  | empty => exact List.not_mem_nil
  | char hAccepts =>
      rw [List.mem_singleton]
      rintro rfl
      simp [avoids, hAccepts] at hAvoids
  | concat _ _ ihp ihq =>
      simp only [avoids, Bool.and_eq_true] at hAvoids
      simpa using ⟨ihp hAvoids.1, ihq hAvoids.2⟩
  | left _ ih =>
      simp only [avoids, Bool.and_eq_true] at hAvoids
      exact ih hAvoids.1
  | right _ ih =>
      simp only [avoids, Bool.and_eq_true] at hAvoids
      exact ih hAvoids.2
  | done => exact List.not_mem_nil
  | more _ _ ihs iht => simpa using ⟨ihs hAvoids, iht hAvoids⟩

/-- A text that belongs begins with a character that the pattern starts with. -/
theorem starts_of_matches (h : p.Matches (c :: s)) : p.starts c = true := by
  by_contra hStarts
  have hRest := matches_derivative.mpr h
  rw [derivative_of_not_starts (Bool.eq_false_iff.mpr hStarts)] at hRest
  exact not_matches_never hRest

end Reckoner.Pattern

import Reckoner.Proofs.LongestMatch

/-! Where tokens stand. Every token was made of a stretch of the text that some
rule took, and its offsets are those of the stretch. What is skipped between two
tokens counts for both, so offsets never drift. -/
namespace Reckoner

/-- The part of a text from one offset up to another. -/
def stretch (text : String) (start stop : Nat) : String :=
  String.ofList ((text.toList.take stop).drop start)

/-- What a token says about the word that it was made of: it has the word as its
text, or it is a number that the word stands for. -/
inductive Token.Quotes (t : Token) : String → Prop where
  | verbatim : t.Quotes t.text
  | yes (kind : t.kind = .number) (text : t.text = "1") : t.Quotes "true"
  | no (kind : t.kind = .number) (text : t.text = "0") : t.Quotes "false"

/-- A lexeme is the stretch of the text between its offsets. -/
theorem stretch_append (before lexeme rest : List Char) {text : String}
    (h : text.toList = before ++ (lexeme ++ rest)) :
    stretch text before.length (before.length + lexeme.length) = String.ofList lexeme := by
  have hTaken : text.toList.take (before.length + lexeme.length) = before ++ lexeme := by
    rw [h, ← List.append_assoc, ← List.length_append, List.take_left]
  rw [stretch, hTaken, List.drop_left]

namespace Lexicon

variable {mode : Mode} {pos : Nat} {s : List Char} {ts : List Token} {t : Token}

/-- A token comes from a lexeme that the rules in force took, and its offsets are
those of the lexeme. -/
theorem Scans.origin (h : Scans mode pos s ts) (ht : t ∈ ts) :
    ∃ before lexeme rest mode' action, s = before ++ (lexeme ++ rest) ∧
      Munches (rules mode') lexeme rest action ∧
      Makes action (String.ofList lexeme) (some t.shape) ∧
      t.start = pos + before.length ∧ t.stop = t.start + lexeme.length := by
  induction h with
  | done => cases ht
  | @next mode pos lexeme rest action made ts taken makes later ih =>
      rcases List.mem_append.mp ht with hHere | hLater
      · obtain ⟨word, rfl, rfl⟩ := Option.map_eq_some_iff.mp (Option.mem_toList.mp hHere)
        exact ⟨[], lexeme, rest, mode, action, rfl, taken, makes, rfl, rfl⟩
      · obtain ⟨before, other, beyond, mode', action', rfl, hTaken, hMakes, hStart, hStop⟩ :=
          ih hLater
        refine ⟨lexeme ++ before, other, beyond, mode', action', (List.append_assoc ..).symm,
          hTaken, hMakes, ?_, hStop⟩
        rw [hStart, List.length_append, Nat.add_assoc]

/-- Tokens do not begin before the place where scanning did. -/
theorem Scans.start_ge (h : Scans mode pos s ts) (ht : t ∈ ts) : pos ≤ t.start := by
  obtain ⟨before, lexeme, rest, mode', action, -, -, -, hStart, -⟩ := h.origin ht
  omega

theorem Scans.stop_le (h : Scans mode pos s ts) (ht : t ∈ ts) : t.stop ≤ pos + s.length := by
  obtain ⟨before, lexeme, rest, mode', action, rfl, -, -, hStart, hStop⟩ := h.origin ht
  simp only [List.length_append]
  omega

/-- Of two tokens, the former ends before the latter begins. -/
theorem Scans.ordered (h : Scans mode pos s ts) :
    ts.Pairwise fun former latter => former.stop ≤ latter.start := by
  induction h with
  | done => exact List.Pairwise.nil
  | @next mode pos lexeme rest action made ts taken makes later ih =>
      cases made with
      | none => exact ih
      | some word => exact List.pairwise_cons.mpr ⟨fun t ht => later.start_ge ht, ih⟩

/-- A token has the text of its lexeme, unless this is a truth value. -/
theorem Makes.quotes {action : Action} {text : String} (h : Makes action text (some t.shape)) :
    t.Quotes text := by
  obtain ⟨kind, word, start, stop⟩ := t
  cases h with
  | emit => exact .verbatim
  | yes => exact .yes rfl rfl
  | no => exact .no rfl rfl
  | keyword => exact .verbatim
  | name => exact .verbatim

end Lexicon

open Lexicon

/-- The tokens of a text are in order and do not overlap. Each of them, except
the last one, is a stretch of the text that is not empty, and has that stretch as
its text, or is the number that the word there stands for. The last one, and no
other, marks the end and stands after the last character. -/
theorem offsets_faithful (text : String) :
    ∃ ts, tokenize text = ts ++ [⟨.finish, "", text.length, text.length⟩] ∧
      (∀ t ∈ ts, t.kind ≠ .finish ∧ t.start < t.stop ∧ t.stop ≤ text.length ∧
        t.Quotes (stretch text t.start t.stop)) ∧
      (tokenize text).Pairwise fun former latter => former.stop ≤ latter.start := by
  have hScans : Scans .code 0 text.toList (scan .code 0 0 text.toList) := scans_scan _ _ _
  have hLength : text.toList.length = text.length := String.length_toList
  have hStop {t : Token} (ht : t ∈ scan .code 0 0 text.toList) : t.stop ≤ text.length := by
    have hLe := hScans.stop_le ht
    omega
  refine ⟨scan .code 0 0 text.toList, rfl, fun t ht => ⟨?_, ?_, hStop ht, ?_⟩, ?_⟩
  · simpa [Token.isFinish] using scan_unfinished .code 0 0 text.toList t ht
  · obtain ⟨before, lexeme, rest, mode, action, -, hTaken, -, -, hEnd⟩ := hScans.origin ht
    have hPositive := List.length_pos_iff.mpr hTaken.ne_nil
    omega
  · obtain ⟨before, lexeme, rest, mode, action, hText, -, hMakes, hBegin, hEnd⟩ := hScans.origin ht
    rw [hEnd, hBegin, Nat.zero_add, stretch_append before lexeme rest hText]
    exact hMakes.quotes
  · rw [tokenize, List.pairwise_append]
    refine ⟨hScans.ordered, List.pairwise_singleton _ _, fun t ht last hLast => ?_⟩
    rw [List.mem_singleton.mp hLast]
    exact hStop ht

/-- Junk, a comment that is opened twice and ends in two asterisks, and one that
is never closed. -/
def commented : String := "a@/*/*b**/true/*"

theorem offsets_faithful_commented :
    tokenize commented = [⟨.name, "a", 0, 1⟩, ⟨.number, "1", 10, 14⟩, ⟨.finish, "", 16, 16⟩] ∧
    stretch commented 10 14 = "true" ∧
    Token.Quotes ⟨.number, "1", 10, 14⟩ (stretch commented 10 14) := by
  have hTokens : tokenize commented =
      [⟨.name, "a", 0, 1⟩, ⟨.number, "1", 10, 14⟩, ⟨.finish, "", 16, 16⟩] := by
    decide +kernel
  refine ⟨hTokens, by decide +kernel, ?_⟩
  obtain ⟨ts, hSplit, hFaithful, -⟩ := offsets_faithful commented
  rw [hTokens] at hSplit
  have hMembers : [⟨.name, "a", 0, 1⟩, ⟨.number, "1", 10, 14⟩] = ts :=
    (List.append_inj' hSplit rfl).1
  exact (hFaithful ⟨.number, "1", 10, 14⟩ (by simp [← hMembers])).2.2.2

end Reckoner

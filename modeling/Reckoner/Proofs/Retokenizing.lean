import Reckoner.Proofs.Offsets
import Reckoner.Proofs.Spacing

/-! Tokens written out. The text of a token, taken by itself, is a token of the
same kind, also where the token was made of a word with another text. A single
blank is enough to keep two of them apart, so nothing is lost or joined when the
texts of all tokens are written in a row and scanned again. -/
namespace Reckoner

namespace Lexicon

/-- A kind and a text such that the text by itself is a token of this kind. -/
structure StandsAlone (word : Token.Kind × String) : Prop where
  written : word.2.toList ≠ []
  taken : ∃ action, Earliest word.2.toList codeRules action ∧ Makes action word.2 (some word)

theorem standsAlone_of_lexeme {word : Token.Kind × String} {lexeme : List Char} {action : Action}
    (hText : word.2.toList = lexeme) (hLexeme : lexeme ≠ [])
    (hEarliest : Earliest lexeme codeRules action) (hMakes : Makes action word.2 (some word)) :
    StandsAlone word := by
  subst hText
  exact ⟨hLexeme, action, hEarliest, hMakes⟩

/-- The digits that the words for true and false become. -/
theorem standsAlone_digit {text : String}
    (h : best? text.toList codeRules = some (text.length, .emit .number)) :
    StandsAlone (.number, text) := by
  have hMunches : Munches (rules .code) _ _ (.emit .number) := best?_munches h
  rw [← String.length_toList, List.take_length] at hMunches
  exact standsAlone_of_lexeme rfl hMunches.ne_nil hMunches.earliest (.emit .number text)

/-- Whatever makes a token makes one whose text stands alone. Inside a comment
nothing does. -/
theorem Munches.standsAlone {mode : Mode} {lexeme rest : List Char} {action : Action}
    {word : Token.Kind × String} (h : Munches (rules mode) lexeme rest action)
    (hMakes : Makes action (String.ofList lexeme) (some word)) : StandsAlone word := by
  cases mode with
  | comment =>
      obtain ⟨rule, hRule, rfl, -⟩ := h.earliest.exists_rule
      have hActions : ∀ rule ∈ rules .comment,
          rule.action = .closeComment ∨ rule.action = .skip := by decide
      rcases hActions rule hRule with hAction | hAction <;> rw [hAction] at hMakes <;> cases hMakes
  | code =>
      have hVerbatim (hText : word.2 = String.ofList lexeme) : StandsAlone word := by
        refine standsAlone_of_lexeme ?_ h.ne_nil h.earliest (hText ▸ hMakes)
        rw [hText, String.toList_ofList]
      generalize hSpelled : String.ofList lexeme = text at hMakes hVerbatim
      cases hMakes with
      | emit kind => exact hVerbatim rfl
      | yes => exact standsAlone_digit (by decide +kernel)
      | no => exact standsAlone_digit (by decide +kernel)
      | keyword reserved => exact hVerbatim rfl
      | name free notTrue notFalse => exact hVerbatim rfl

/-- The text of every token that was scanned stands alone. -/
theorem tokens_standAlone {text : String} {t : Token} (ht : t ∈ scan .code 0 0 text.toList) :
    StandsAlone t.shape := by
  obtain ⟨before, lexeme, rest, mode, action, -, hTaken, hMakes, -, -⟩ :=
    (scans_scan .code 0 text.toList).origin ht
  exact hTaken.standsAlone hMakes

namespace StandsAlone

variable {word : Token.Kind × String}

theorem shapes_blank (h : StandsAlone word) (v : List Char) :
    shapes (word.2.toList ++ ' ' :: v) = word :: shapes v := by
  obtain ⟨action, hEarliest, hMakes⟩ := h.taken
  rw [← String.ofList_toList (s := word.2)] at hMakes
  exact Lexicon.shapes_blank hEarliest h.written hMakes v

/-- At the end of a text there is nothing that a longer match could take. -/
theorem shapes_last (h : StandsAlone word) : shapes word.2.toList = [word] := by
  obtain ⟨action, hEarliest, hMakes⟩ := h.taken
  have hMunches : Munches (rules .code) word.2.toList [] action := by
    refine ⟨hEarliest, fun rule hRule more beyond hRest hMatches => ?_⟩
    exact (List.append_eq_nil_iff.mp hRest.symm).1
  have hScan := hMunches.scan_eq 0
  rw [List.append_nil, String.ofList_toList, hMakes.token?_eq] at hScan
  rw [shapes, hScan]
  rfl

end StandsAlone

/-- Words that stand alone, with blanks between them, are scanned one by one. The
induction is on the words, of which only the last has no blank after it. -/
theorem shapes_intercalate {words : List (Token.Kind × String)}
    (h : ∀ word ∈ words, StandsAlone word) :
    shapes ([' '].intercalate (words.map fun word => word.2.toList)) = words := by
  induction words with
  | nil => rfl
  | cons word rest ih =>
      obtain ⟨hWord, hRest⟩ := List.forall_mem_cons.mp h
      cases rest with
      | nil =>
          rw [List.map_singleton, List.intercalate_singleton]
          exact hWord.shapes_last
      | cons next others =>
          have hOthers := ih hRest
          rw [List.map_cons] at hOthers
          rw [List.map_cons, List.map_cons, List.intercalate_cons_cons, List.append_assoc,
            List.singleton_append, hWord.shapes_blank, hOthers]

end Lexicon

open Lexicon

/-- The texts of the tokens of a text, with single blanks between them. The token
that marks the end is left out. -/
def respelled (text : String) : String :=
  " ".intercalate ((tokenize text).dropLast.map Token.text)

theorem toList_respelled (text : String) : (respelled text).toList =
    [' '].intercalate (((scan .code 0 0 text.toList).map Token.shape).map
      fun word => word.2.toList) := by
  rw [respelled, tokenize, List.dropLast_concat, String.toList_intercalate, List.map_map,
    List.map_map]
  rfl

/-- To write out the tokens of a text and to scan them again gives tokens of the
same kinds and with the same texts. -/
theorem tokenize_respelled (text : String) :
    (tokenize (respelled text)).map Token.shape = (tokenize text).map Token.shape := by
  have hWords : ∀ word ∈ (scan .code 0 0 text.toList).map Token.shape, StandsAlone word := by
    intro word hWord
    obtain ⟨t, ht, rfl⟩ := List.mem_map.mp hWord
    exact tokens_standAlone ht
  rw [map_shape_tokenize, map_shape_tokenize, toList_respelled, shapes_intercalate hWords]
  rfl

/-- An incomplete number, a truth value, a number that begins with its point, and
signs that would open a comment if they stood together. -/
example : respelled "0x/true.5/**//1/ /@√" = "0x / 1 .5 / 1 / / √" := by decide +kernel

end Reckoner

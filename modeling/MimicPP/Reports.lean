import MimicPP.Sequence

/-!
The reports handed to the reporter, and the verdict a match report stands for.
-/

namespace MimicPP.Reports

open MimicPP.Sequence

/-- `control_state_t`: what a control policy says about itself when it is asked for a match. -/
inductive ControlState
  | inapplicable (min max count : ℕ) (sequenceRatings : List Rating)
      (inapplicableSequences : List Tag)
  | applicable (min max count : ℕ) (sequenceRatings : List Rating)
  | saturated (min max count : ℕ) (sequences : List Tag)
  deriving DecidableEq, Repr

inductive MatchResult
  | none | inapplicable | full
  deriving DecidableEq, Repr

structure SourceLocation where
  fileName : String
  line : ℕ
  deriving DecidableEq, Repr

/-- `MatchReport::Expectation`: the verdict of one expectation policy. -/
structure PolicyReport where
  isMatching : Bool
  description : Option String
  deriving DecidableEq, Repr

structure MatchReport where
  sourceLocation : Option SourceLocation
  finalizeReport : Option String
  controlReport : ControlState
  expectationReports : List PolicyReport
  deriving DecidableEq, Repr

structure ExpectationReport where
  sourceLocation : Option SourceLocation
  finalizerDescription : Option String
  timesDescription : Option String
  expectationDescriptions : List (Option String)
  deriving DecidableEq, Repr

def ControlState.isApplicable : ControlState → Bool
  | .applicable .. => true
  | _ => false

def evaluateMatchReport (report : MatchReport) : MatchResult :=
  if !report.expectationReports.all PolicyReport.isMatching then .none
  else if !report.controlReport.isApplicable then .inapplicable
  else .full

/-- `std::get<state_applicable>`, which throws on the other alternatives. -/
def sequenceRatings (report : MatchReport) : Option (List Rating) :=
  match report.controlReport with
  | .applicable _ _ _ ratings => some ratings
  | _ => none

/-! ### The text a control state is printed as -/

def verbalizeValue : ℕ → String
  | 0 => "never"
  | 1 => "once"
  | 2 => "twice"
  | n => toString n ++ " times"

def verbalizeInterval (start fin : ℕ) : String :=
  if start < fin then "between " ++ toString start ++ " and " ++ toString fin ++ " times"
  else "exactly " ++ verbalizeValue fin

def printTimesState (current min max : ℕ) : String :=
  if current = max then "already saturated (matched " ++ verbalizeValue current ++ ")"
  else if min ≤ current then
    "accepts further matches (matched " ++ toString current ++ " out of " ++ toString max
      ++ " times)"
  else
    "matched " ++ verbalizeValue current ++ " - " ++ verbalizeInterval min max ++ " is expected"

def controlStatePrinter : ControlState → String
  | .applicable min max count ratings =>
    printTimesState count min max ++
      if 0 < ratings.length then
        ",\n\tand is the current element of " ++ toString ratings.length ++ " sequence(s)."
      else ""
  | .inapplicable min max count ratings tags =>
    printTimesState count min max ++ ",\n\tbut is not the current element of "
      ++ toString tags.length ++ " sequence(s) (" ++ toString (ratings.length + tags.length)
      ++ " total)."
  | .saturated min max count tags =>
    printTimesState count min max ++
      if 0 < tags.length then
        ",\n\tand is part of " ++ toString tags.length ++ " sequence(s)."
      else ""

/-! ### What a verdict says -/

variable {r : MatchReport}

lemma evaluateMatchReport_full :
    evaluateMatchReport r = .full ↔
      r.expectationReports.all PolicyReport.isMatching = true ∧
        r.controlReport.isApplicable = true := by
  unfold evaluateMatchReport
  generalize r.expectationReports.all PolicyReport.isMatching = matching
  generalize r.controlReport.isApplicable = applicable
  cases matching <;> cases applicable <;> simp

lemma evaluateMatchReport_inapplicable :
    evaluateMatchReport r = .inapplicable ↔
      r.expectationReports.all PolicyReport.isMatching = true ∧
        r.controlReport.isApplicable = false := by
  unfold evaluateMatchReport
  generalize r.expectationReports.all PolicyReport.isMatching = matching
  generalize r.controlReport.isApplicable = applicable
  cases matching <;> cases applicable <;> simp

/-- **A full match carries ratings**: reading them never fails. -/
theorem sequenceRatings_of_full (h : evaluateMatchReport r = .full) :
    ∃ ratings, sequenceRatings r = some ratings := by
  have happ := (evaluateMatchReport_full.mp h).2
  unfold ControlState.isApplicable at happ
  unfold sequenceRatings
  split at happ <;> simp_all

end MimicPP.Reports

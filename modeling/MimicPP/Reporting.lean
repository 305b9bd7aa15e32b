import MimicPP.Outcome
import MimicPP.ReportTexts

/-!
The reporters the library brings, and the one that is installed.

A reporter sees how many exceptions are in flight. While there is one, a violation that a
destructor finds is not signalled, since the exception in flight is a failure already.
-/

namespace MimicPP.Reporting

open MimicPP.Noexcept MimicPP.Sequence MimicPP.Reports MimicPP.Control MimicPP.Expectation
open MimicPP.Matching MimicPP.Runs MimicPP.Outcome MimicPP.ReportTexts

/-- What is thrown around in a test: an exception of user code, or one of the three errors of
the default reporter. -/
inductive Thrown (E : Type)
  | user (exc : E)
  | unmatchedCall (what : String) (data : CallReport × List MatchReport) (loc : SourceLocation)
  | unfulfilledExpectation (what : String) (data : ExpectationReport)
  | error (what : String)
  deriving DecidableEq, Repr

section reporters

variable {Call Exc E : Type} (printLocation : SourceLocation → String)
variable (makeCallReport : Call → CallReport)

/-- `BasicReporter`, the reporter of the test framework adapters. `failReporter` never returns;
`what` is what an exception says about itself. -/
def basicReporter (what : Exc → Option String) (warningReporter : String → Except Exc Unit)
    (failReporter : String → Exit Exc) (uncaughtExceptions : ℕ) : Reporter Call Exc where
  reportNoMatches call matchReports :=
    failReporter (stringifyNoMatchReport printLocation (makeCallReport call) matchReports)
  reportInapplicableMatches call matchReports :=
    failReporter (stringifyInapplicableMatchReport printLocation (makeCallReport call)
      matchReports)
  reportUnfulfilledExpectation report :=
    if uncaughtExceptions = 0 then
      .error (failReporter (stringifyUnfulfilledExpectation printLocation report))
    else .ok ()
  reportError message :=
    if uncaughtExceptions = 0 then .error (failReporter message) else .ok ()
  reportUnhandledException call report exc :=
    throwing (warningReporter (stringifyUnhandledException printLocation (makeCallReport call)
      report (what exc)))

/-- `DefaultReporter`. An assertion that fails ends the program. -/
def defaultReporter (uncaughtExceptions : ℕ) : Reporter Call (Thrown E) where
  reportNoMatches call matchReports :=
    if ∀ r ∈ matchReports, evaluateMatchReport r = .none then
      .thrown (.unmatchedCall
        (stringifyNoMatchReport printLocation (makeCallReport call) matchReports)
        (makeCallReport call, matchReports) (makeCallReport call).fromLoc)
    else .terminate
  reportInapplicableMatches call matchReports :=
    if ∀ r ∈ matchReports, evaluateMatchReport r = .inapplicable then
      .thrown (.unmatchedCall
        (stringifyInapplicableMatchReport printLocation (makeCallReport call) matchReports)
        (makeCallReport call, matchReports) (makeCallReport call).fromLoc)
    else .terminate
  reportUnfulfilledExpectation report :=
    if uncaughtExceptions = 0 then
      .error (.thrown (.unfulfilledExpectation
        (stringifyUnfulfilledExpectation printLocation report) report))
    else .ok ()
  reportError message :=
    if uncaughtExceptions = 0 then .error (.thrown (.error message)) else .ok ()
  reportUnhandledException _ _ _ := .ok ()

end reporters

variable {σ Call Ret Exc : Type}

/-- A reporter that signals every violation there is no exception in flight for, and none
otherwise. -/
structure Disciplined (reporters : ℕ → Reporter Call Exc) : Prop where
  unfulfilled : ∀ report, ∃ exit,
    (reporters 0).reportUnfulfilledExpectation report = .error exit
  silent : ∀ n report, (reporters (n + 1)).reportUnfulfilledExpectation report = .ok ()
  silent_error : ∀ n message, (reporters (n + 1)).reportError message = .ok ()

section

variable (printLocation : SourceLocation → String) (makeCallReport : Call → CallReport)

lemma basicReporter_disciplined (what : Exc → Option String)
    (warningReporter : String → Except Exc Unit) (failReporter : String → Exit Exc) :
    Disciplined (basicReporter printLocation makeCallReport what warningReporter
      failReporter) where
  unfulfilled _ := ⟨_, rfl⟩
  silent _ _ := rfl
  silent_error _ _ := rfl

lemma defaultReporter_disciplined {E : Type} :
    Disciplined (defaultReporter printLocation makeCallReport (E := E)) where
  unfulfilled _ := ⟨_, rfl⟩
  silent _ _ := rfl
  silent_error _ _ := rfl

end

/-! ### Calls under the default reporter -/

section calls

variable {E : Type} {printLocation : SourceLocation → String}
variable {makeCallReport : Call → CallReport} {n : ℕ} {w : World σ Call Ret (Thrown E)}
variable {c : CollId} {call : Call}

lemma reportsWith_verdict {Exc : Type} {w : World σ Call Ret Exc} {v : MatchResult}
    {r : MatchReport} (h : r ∈ reportsWith w c call v) : evaluateMatchReport r = v := by
  obtain ⟨⟨e, r'⟩, hmem, rfl⟩ := List.mem_map.mp h
  obtain ⟨x, -, -, hv⟩ := mem_reportsOf.mp hmem
  exact hv

/-- The error a rejected call leaves by: it tells of the inapplicable matches, if there are any,
and else of the others. -/
def rejection (printLocation : SourceLocation → String) (makeCallReport : Call → CallReport)
    {Exc : Type} (w : World σ Call Ret Exc) (c : CollId) (call : Call) : Thrown E :=
  let reports := fun v => reportsWith w c call v
  if reports .inapplicable ≠ [] then
    .unmatchedCall
      (stringifyInapplicableMatchReport printLocation (makeCallReport call) (reports .inapplicable))
      (makeCallReport call, reports .inapplicable) (makeCallReport call).fromLoc
  else
    .unmatchedCall
      (stringifyNoMatchReport printLocation (makeCallReport call) (reports .none))
      (makeCallReport call, reports .none) (makeCallReport call).fromLoc

/-- Every expectation that throws over the call can be described without a further exception. -/
def Describable {Exc : Type} (w : World σ Call Ret Exc) (c : CollId) (call : Call) : Prop :=
  ∀ p ∈ w.stored c, ∀ exc, p.2.matchesCall w.env w.seqs call = .error exc →
    ∃ report, p.2.report w.env w.seqs = .ok report

/-- The default reporter itself never throws when it is told of an exception. -/
lemma reported_default (hw : w.reporter = defaultReporter printLocation makeCallReport n) :
    Reported w call (w.stored c).reverse ↔ Describable w c call := by
  simp only [Reported, Describable, List.mem_reverse]
  refine forall₂_congr fun p _ => forall₂_congr fun exc _ => exists_congr fun report => ?_
  rw [hw]
  exact and_iff_left rfl

/-- A call without a full match is rejected, and no assertion of the reporter fails over it. -/
lemma handleCall_rejected (hw : w.reporter = defaultReporter printLocation makeCallReport n)
    (hd : Describable w c call) (hmatches : fullMatches w c call = []) :
    (w.handleCall c call).1 = w ∧ (w.handleCall c call).2.2 =
      .error (.thrown (rejection printLocation makeCallReport w c call)) := by
  have hrep := (reported_default hw).mpr hd
  by_cases hinapplicable : reportsWith w c call .inapplicable = []
  · have hcall := handleCall_of_no_match hrep hmatches hinapplicable
    rw [hcall, rejection, if_neg (not_not.mpr hinapplicable)]
    simp only [hw, defaultReporter, Except.error.injEq, true_and]
    exact if_pos fun r hr => reportsWith_verdict hr
  · have hcall := handleCall_of_inapplicable hrep hmatches hinapplicable
    rw [hcall, rejection, if_pos hinapplicable]
    simp only [hw, defaultReporter, Except.error.injEq, true_and]
    exact if_pos fun r hr => reportsWith_verdict hr

/-- **Handling a call under the default reporter** never breaks an assertion of the reporter: the
call is dispatched to a full match if there is one. Else it leaves by an error with the reports
of the expectations that were asked, and nothing has been consumed. Only an expectation that
throws and then cannot be described ends the program. -/
theorem handleCall_default (w : World σ Call Ret (Thrown E))
    (hw : w.reporter = defaultReporter printLocation makeCallReport n) (c : CollId)
    (call : Call) :
    (Describable w c call →
      (∃ e x report, (e, report) ∈ fullMatches w c call ∧ w.exps[e]? = some x ∧
        Dispatched w call e x
          (unhandledOf w call (w.stored c).reverse ++ [.fullMatch call report])
          (w.handleCall c call)) ∨
      (fullMatches w c call = [] ∧ (w.handleCall c call).1 = w ∧
        (w.handleCall c call).2.2 =
          .error (.thrown (rejection printLocation makeCallReport w c call)))) ∧
    (¬ Describable w c call →
      (w.handleCall c call).1 = w ∧ (w.handleCall c call).2.2 = .error .terminate) := by
  refine ⟨fun hd => ?_, fun hd => ?_⟩
  · by_cases hmatches : fullMatches w c call = []
    · exact .inr ⟨hmatches, handleCall_rejected hw hd hmatches⟩
    · have hrep := (reported_default hw).mpr hd
      obtain ⟨⟨e, report⟩, hmem, hpick⟩ := pickBestMatch_of_full hmatches fun _ => fullMatches_full
      obtain ⟨x, -, hx, -⟩ := mem_fullMatches.mp hmem
      exact .inl ⟨e, x, report, hmem, hx, handleCall_of_pick hrep hmem hpick hx⟩
  · obtain ⟨_, _, _, -, -, -, hcall⟩ :=
      handleCall_of_not_reported fun hrep => hd ((reported_default hw).mp hrep)
    rw [hcall]
    exact ⟨rfl, rfl⟩

end calls

def emptyCallReport : CallReport := ⟨⟨0, "void"⟩, [], ⟨"", 0⟩, [], .any, .any⟩

/-- A requirement that gives the same answer to every call. -/
def answering (answer : Except (Thrown Unit) Bool) : Policy Unit Unit (Thrown Unit) where
  isSatisfied _ := true
  matchesCall _ _ := answer
  describe _ := .ok (some "expect: an answer")
  consume env _ := (env, .ok ())

/-- One expectation is used up, one asks for another call, and the newest one throws. -/
def mixedWorld : World Unit Unit Unit (Thrown Unit) where
  reporter := defaultReporter SourceLocation.fileName (fun _ => emptyCallReport) 0
  env := ()
  seqs _ := .empty .lazy
  exps := [⟨⟨"used up", 1⟩, ⟨1, 1, 1, []⟩, [], fun _ _ => ((), .ok ())⟩,
    ⟨⟨"refusing", 2⟩, ⟨1, 1, 0, []⟩, [answering (.ok false)], fun _ _ => ((), .ok ())⟩,
    ⟨⟨"throwing", 3⟩, ⟨1, 1, 0, []⟩, [answering (.error (.user ()))], fun _ _ => ((), .ok ())⟩]
  colls _ := [0, 1, 2]

/-- The report of the expectation that is used up. -/
def usedUp : MatchReport := ⟨some ⟨"used up", 1⟩, none, .saturated 1 1 1 [], []⟩

/-- The call is rejected over the expectation that is used up, and over no other one. -/
theorem handleCall_default_mixed : Describable mixedWorld 0 () ∧
    (mixedWorld.handleCall 0 ()).2.2 = .error (.thrown (.unmatchedCall
      (stringifyInapplicableMatchReport SourceLocation.fileName emptyCallReport [usedUp])
      (emptyCallReport, [usedUp]) ⟨"", 0⟩)) := by
  have hd : Describable mixedWorld 0 () := by
    intro p hp _ _
    have hall : ∀ p ∈ mixedWorld.stored 0,
        ∃ report, p.2.report mixedWorld.env mixedWorld.seqs = .ok report := by
      change ∀ p ∈ [_, _, _], _
      simp [BasicExpectation.report, BasicExpectation.descriptions, answering, Except.map]
    exact hall p hp
  rcases (handleCall_default mixedWorld rfl 0 ()).1 hd with
    ⟨e, x, report, hmem, -⟩ | ⟨-, -, hresult⟩
  · cases hmem
  · exact ⟨hd, hresult⟩

end MimicPP.Reporting

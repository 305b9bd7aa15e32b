import MimicPP.Commutation
import MimicPP.Effects

/-!
Requirements and side effects in any order.

A requirement is asked when a call is matched, and does nothing when the call is consumed. A
side effect agrees to every call and says nothing, and does its work when the call is consumed.
So neither is in the way of the other: the same calls are accepted, with reports of the same
text, and the same is left behind.
-/

namespace MimicPP.Interleaving

open MimicPP.Noexcept MimicPP.Sequence MimicPP.Reports MimicPP.Control MimicPP.Expectation
open MimicPP.Matching MimicPP.Runs MimicPP.Invariant MimicPP.Signatures MimicPP.Overloads
open MimicPP.ReportTexts MimicPP.Reporting MimicPP.Arguments MimicPP.Effects MimicPP.Commutation

variable {σ Call Ret Exc : Type}

/-! ### Policies that are not in each other's way -/

/-- Does nothing when a call is consumed. -/
def Inert (p : Policy σ Call Exc) : Prop := ∀ env call, p.consume env call = (env, .ok ())

/-- Agrees to every call, and has nothing to say. -/
structure Mute (p : Policy σ Call Exc) : Prop where
  matchesCall : ∀ env call, p.matchesCall env call = .ok true
  describe : ∀ env, p.describe env = .ok none

/-- One is a requirement, and the other one a side effect. -/
inductive Apart : Policy σ Call Exc → Policy σ Call Exc → Prop
  | requirementFirst {p q : Policy σ Call Exc} : Inert p → Mute q → Apart p q
  | sideEffectFirst {p q : Policy σ Call Exc} : Mute p → Inert q → Apart p q

section kinds

variable {n : ℕ} {Val τ : Type}

lemma argsRequirement_inert (matcher : Matcher Val Exc)
    (matchesStrategy : Store Val τ → (List (Lvalue Val) → Except Exc Bool) → ArgsInfo n →
      Except Exc Bool) (describeStrategy : String → String) :
    Inert (argsRequirement matcher matchesStrategy describeStrategy) := fun _ _ => rfl

lemma argPolicies_inert {β : Type} [DecidableEq β] (ops : Operations Val β Exc)
    (strings : Fin n → Bool) (expected : Fin n → Expected Val Exc) :
    ∀ p ∈ (argPolicies ops strings expected : List (Policy (Store Val τ) _ Exc)), Inert p := by
  simp only [argPolicies, List.forall_mem_ofFn_iff]
  exact fun i => argsRequirement_inert _ _ _

lemma qualification_inert {Args T C : Type} [DecidableEq T] [DecidableEq C] (t : Signature T C) :
    ∀ p ∈ (qualificationPolicies t : List (Policy σ (Info Args) Exc)), Inert p := by
  simp only [qualificationPolicies, List.forall_mem_cons]
  exact ⟨fun _ _ => rfl, fun _ _ => rfl, by simp⟩

lemma sideEffectAction_mute
    (action : ArgsInfo n → Store Val τ → Store Val τ × Except Exc Unit) :
    Mute (sideEffectAction action) := ⟨fun _ _ => rfl, fun _ => rfl⟩

end kinds

/-! ### What is said about a call, and what is done with it -/

/-- What can be read off the verdicts of the policies, once they are printed. -/
def told (reports : List PolicyReport) : Bool × List String × List String :=
  (reports.all PolicyReport.isMatching, descriptionsOf false reports, descriptionsOf true reports)

/-- One more verdict is given first. -/
def tell (r : PolicyReport) (t : Bool × List String × List String) :
    Bool × List String × List String :=
  (r.isMatching && t.1,
    (if r.isMatching then [] else r.description.toList) ++ t.2.1,
    (if r.isMatching then r.description.toList else []) ++ t.2.2)

lemma told_cons (r : PolicyReport) (reports : List PolicyReport) :
    told (r :: reports) = tell r (told reports) := by
  rcases r with ⟨_ | _, _ | d⟩ <;> simp [told, tell, descriptionsOf]

variable {ps ps' : List (Policy σ Call Exc)}

/-- What a policy adds to the verdicts of those behind it. -/
def voiced (env : σ) (call : Call) (p : Policy σ Call Exc)
    (rest : Except Exc (Bool × List String × List String)) :
    Except Exc (Bool × List String × List String) :=
  match p.matchesCall env call with
  | .error exc => .error exc
  | .ok isMatching =>
    match p.describe env with
    | .error exc => .error exc
    | .ok description => rest.map (tell ⟨isMatching, description⟩)

lemma voiced_of_mute {p : Policy σ Call Exc} (hp : Mute p) (env : σ) (call : Call)
    (rest : Except Exc (Bool × List String × List String)) : voiced env call p rest = rest := by
  rw [voiced, hp.matchesCall, hp.describe]
  rcases rest with exc | t <;> rfl

lemma policyReports_told (h : Commuted Apart ps ps') (env : σ) (call : Call) :
    (BasicExpectation.policyReports env call ps).map told =
      (BasicExpectation.policyReports env call ps').map told := by
  refine h.eq_of_step (F := fun ps => (BasicExpectation.policyReports env call ps).map told)
    (G := voiced env call) (fun p ps => ?_) ?_
  · simp only [BasicExpectation.policyReports, voiced]
    rcases p.matchesCall env call with exc | isMatching
    · rfl
    rcases p.describe env with exc | description
    · rfl
    rcases BasicExpectation.policyReports env call ps with exc | reports
    · rfl
    · exact congrArg Except.ok (told_cons _ _)
  · rintro p q (⟨-, hq⟩ | ⟨hp, -⟩) rest
    · rw [voiced_of_mute hq, voiced_of_mute hq]
    · rw [voiced_of_mute hp, voiced_of_mute hp]

lemma all_isSatisfied (h : Commuted Apart ps ps') (env : σ) :
    ps.all (fun p => p.isSatisfied env) = ps'.all fun p => p.isSatisfied env :=
  h.eq_of_step (F := fun ps => ps.all fun p => p.isSatisfied env)
    (G := fun p rest => p.isSatisfied env && rest) (fun _ _ => List.all_cons)
    fun _ _ => Bool.and_left_comm _ _ _

/-- What a policy adds to the descriptions of those behind it. -/
def described (env : σ) (p : Policy σ Call Exc) (rest : Except Exc (List String)) :
    Except Exc (List String) :=
  match p.describe env with
  | .error exc => .error exc
  | .ok description => rest.map (description.toList ++ ·)

lemma described_of_mute {p : Policy σ Call Exc} (hp : Mute p) (env : σ)
    (rest : Except Exc (List String)) : described env p rest = rest := by
  rw [described, hp.describe]
  rcases rest with exc | ds <;> rfl

lemma descriptions_eq (h : Commuted Apart ps ps') (env : σ) :
    (BasicExpectation.descriptions env ps).map (List.filterMap id) =
      (BasicExpectation.descriptions env ps').map (List.filterMap id) := by
  refine h.eq_of_step
    (F := fun ps => (BasicExpectation.descriptions env ps).map (List.filterMap id))
    (G := described env) (fun p ps => ?_) ?_
  · simp only [BasicExpectation.descriptions, described]
    rcases p.describe env with exc | _ | d
    · rfl
    · rcases BasicExpectation.descriptions env ps with exc | ds <;> rfl
    · rcases BasicExpectation.descriptions env ps with exc | ds <;> rfl
  · rintro p q (⟨-, hq⟩ | ⟨hp, -⟩) ds
    · rw [described_of_mute hq, described_of_mute hq]
    · rw [described_of_mute hp, described_of_mute hp]

/-- What a policy does before those behind it. -/
def done (call : Call) (p : Policy σ Call Exc) (rest : σ → σ × Except (Exit Exc) Unit) (env : σ) :
    σ × Except (Exit Exc) Unit :=
  match p.consume env call with
  | (env', .error exc) => (env', noexcept (throwing (.error exc)))
  | (env', .ok ()) => rest env'

lemma done_of_inert {p : Policy σ Call Exc} (hp : Inert p) (call : Call)
    (rest : σ → σ × Except (Exit Exc) Unit) : done call p rest = rest := by
  funext env
  rw [done, hp]

/-- The policies leave the same behind, and end in the same way. -/
lemma consumePolicies_eq (h : Commuted Apart ps ps') (call : Call) (e : ExpId) (i : ℕ) (env : σ) :
    (consumePolicies call e i ps env).1 = (consumePolicies call e i ps' env).1 ∧
      (consumePolicies call e i ps env).2.2 = (consumePolicies call e i ps' env).2.2 := by
  have heq := h.eq_of_step (F := fun ps => ps.foldr (done call) fun env => (env, .ok ()))
    (G := done call) (fun _ _ => rfl) <| by
      rintro p q (⟨hp, -⟩ | ⟨-, hq⟩) rest
      · rw [done_of_inert hp, done_of_inert hp]
      · rw [done_of_inert hq, done_of_inert hq]
  have hfold : ∀ (ps : List (Policy σ Call Exc)) i env,
      ((consumePolicies call e i ps env).1, (consumePolicies call e i ps env).2.2) =
        ps.foldr (done call) (fun env => (env, .ok ())) env := by
    intro ps
    induction ps with
    | nil => exact fun i env => rfl
    | cons p ps ih =>
      intro i env
      rcases hp : p.consume env call with ⟨env', exc | ⟨⟩⟩
      · simp only [consumePolicies, List.foldr_cons, done, hp]
      · simp only [consumePolicies, List.foldr_cons, done, hp]
        exact ih _ _
  exact Prod.ext_iff.mp ((hfold ps i env).trans ((congrFun heq env).trans (hfold ps' i env).symm))

/-! ### Reports of one text -/

/-- Two match reports that are printed alike. -/
structure SameText (r r' : MatchReport) : Prop where
  sourceLocation : r.sourceLocation = r'.sourceLocation
  finalizeReport : r.finalizeReport = r'.finalizeReport
  controlReport : r.controlReport = r'.controlReport
  expectationReports : told r.expectationReports = told r'.expectationReports

namespace SameText

variable {r r' : MatchReport}

lemma evaluate (h : SameText r r') : evaluateMatchReport r = evaluateMatchReport r' := by
  have hall : r.expectationReports.all PolicyReport.isMatching =
      r'.expectationReports.all PolicyReport.isMatching := congrArg Prod.fst h.expectationReports
  rw [evaluateMatchReport, evaluateMatchReport, hall, h.controlReport]

lemma sequenceRatings (h : SameText r r') :
    Reports.sequenceRatings r = Reports.sequenceRatings r' := by
  rw [Reports.sequenceRatings, Reports.sequenceRatings, h.controlReport]

lemma print (h : SameText r r') (printLocation : SourceLocation → String) :
    printMatchReport printLocation r = printMatchReport printLocation r' := by
  have hfailed : descriptionsOf false r.expectationReports =
      descriptionsOf false r'.expectationReports := congrArg (·.2.1) h.expectationReports
  have hpassed : descriptionsOf true r.expectationReports =
      descriptionsOf true r'.expectationReports := congrArg (·.2.2) h.expectationReports
  rw [printMatchReport, printMatchReport, printHeading, printHeading, h.evaluate,
    h.controlReport, h.sourceLocation, hfailed, hpassed]

end SameText

/-- A reporter that knows reports by the texts they are printed as. -/
structure ReadsTexts (printLocation : SourceLocation → String) (reporter : Reporter Call Exc) :
    Prop where
  noMatches : ∀ call {rs rs' : List MatchReport},
    rs.map (printMatchReport printLocation) = rs'.map (printMatchReport printLocation) →
      reporter.reportNoMatches call rs = reporter.reportNoMatches call rs'
  inapplicableMatches : ∀ call {rs rs' : List MatchReport},
    rs.map (printMatchReport printLocation) = rs'.map (printMatchReport printLocation) →
      reporter.reportInapplicableMatches call rs = reporter.reportInapplicableMatches call rs'
  unfulfilledExpectation : ∀ {r r' : ExpectationReport},
    printExpectationReport printLocation r = printExpectationReport printLocation r' →
      reporter.reportUnfulfilledExpectation r = reporter.reportUnfulfilledExpectation r'
  unhandledException : ∀ call {r r' : ExpectationReport} exc,
    printExpectationReport printLocation r = printExpectationReport printLocation r' →
      reporter.reportUnhandledException call r exc = reporter.reportUnhandledException call r' exc

variable {printLocation : SourceLocation → String}

section texts

variable {rs rs' : List MatchReport}

lemma printEach_congr
    (h : rs.map (printMatchReport printLocation) = rs'.map (printMatchReport printLocation)) :
    printEach printLocation rs = printEach printLocation rs' := by
  have hlines := congrArg (List.map (· ++ "\n")) h
  rw [List.map_map, List.map_map] at hlines
  exact congrArg String.join hlines

lemma stringifyNoMatchReport_congr (call : CallReport)
    (h : rs.map (printMatchReport printLocation) = rs'.map (printMatchReport printLocation)) :
    stringifyNoMatchReport printLocation call rs =
      stringifyNoMatchReport printLocation call rs' := by
  have hlen : rs.length = rs'.length := by simpa using congrArg List.length h
  have hempty : rs.isEmpty = rs'.isEmpty := by
    rw [Bool.eq_iff_iff, List.isEmpty_iff_length_eq_zero, List.isEmpty_iff_length_eq_zero, hlen]
  unfold stringifyNoMatchReport
  rw [hlen, hempty, printEach_congr h]

lemma stringifyInapplicableMatchReport_congr (call : CallReport)
    (h : rs.map (printMatchReport printLocation) = rs'.map (printMatchReport printLocation)) :
    stringifyInapplicableMatchReport printLocation call rs =
      stringifyInapplicableMatchReport printLocation call rs' := by
  unfold stringifyInapplicableMatchReport
  rw [printEach_congr h]

variable {r r' : ExpectationReport}

lemma stringifyUnfulfilledExpectation_congr
    (h : printExpectationReport printLocation r = printExpectationReport printLocation r') :
    stringifyUnfulfilledExpectation printLocation r =
      stringifyUnfulfilledExpectation printLocation r' := by
  unfold stringifyUnfulfilledExpectation
  rw [h]

lemma stringifyUnhandledException_congr (call : CallReport) (what : Option String)
    (h : printExpectationReport printLocation r = printExpectationReport printLocation r') :
    stringifyUnhandledException printLocation call r what =
      stringifyUnhandledException printLocation call r' what := by
  unfold stringifyUnhandledException
  rw [h]

end texts

/-- The reporter of the test framework adapters does. -/
lemma basicReporter_readsTexts (makeCallReport : Call → CallReport) (what : Exc → Option String)
    (warningReporter : String → Except Exc Unit) (failReporter : String → Exit Exc) (n : ℕ) :
    ReadsTexts printLocation
      (basicReporter printLocation makeCallReport what warningReporter failReporter n) where
  noMatches call _ _ h :=
    congrArg failReporter (stringifyNoMatchReport_congr (makeCallReport call) h)
  inapplicableMatches call _ _ h :=
    congrArg failReporter (stringifyInapplicableMatchReport_congr (makeCallReport call) h)
  unfulfilledExpectation h := by
    have htext := stringifyUnfulfilledExpectation_congr h
    simp only [basicReporter]
    rw [htext]
  unhandledException call _ _ exc h := by
    have htext := stringifyUnhandledException_congr (makeCallReport call) (what exc) h
    simp only [basicReporter]
    rw [htext]

/-! ### Expectations and worlds -/

/-- Two expectations that differ in the order of their clauses at most. -/
structure SameExpectation (x x' : BasicExpectation σ Call Ret Exc) : Prop where
  sourceLocation : x.sourceLocation = x'.sourceLocation
  controlPolicy : x.controlPolicy = x'.controlPolicy
  policies : Commuted Apart x.policies x'.policies
  finalizer : x.finalizer = x'.finalizer

namespace SameExpectation

variable {x x' : BasicExpectation σ Call Ret Exc}

/-- The reports are printed alike, if they can be put together. -/
lemma report (h : SameExpectation x x') (env : σ) (seqs : Sequences)
    (printLocation : SourceLocation → String) :
    (∃ exc, x.report env seqs = .error exc ∧ x'.report env seqs = .error exc) ∨
      ∃ r r', x.report env seqs = .ok r ∧ x'.report env seqs = .ok r' ∧
        printExpectationReport printLocation r = printExpectationReport printLocation r' := by
  have hlines := descriptions_eq h.policies env
  unfold BasicExpectation.report BasicExpectation.describeTimes
  generalize BasicExpectation.descriptions env x.policies = ds at hlines
  generalize BasicExpectation.descriptions env x'.policies = ds' at hlines
  rcases ds with exc | ds
  · rcases ds' with exc' | ds'
    · obtain rfl : exc = exc' := Except.error.inj hlines
      exact .inl ⟨exc, rfl, rfl⟩
    · cases hlines
  · rcases ds' with exc' | ds'
    · cases hlines
    · simp only [Except.map, Except.ok.injEq] at hlines ⊢
      refine .inr ⟨_, _, rfl, rfl, ?_⟩
      unfold printExpectationReport
      dsimp only
      rw [h.sourceLocation, h.controlPolicy, hlines]

lemma isSatisfied (h : SameExpectation x x') (env : σ) :
    x.isSatisfied env = x'.isSatisfied env := by
  rw [BasicExpectation.isSatisfied, BasicExpectation.isSatisfied, h.controlPolicy,
    all_isSatisfied h.policies]

lemma matchesCall (h : SameExpectation x x') (env : σ) (seqs : Sequences) (call : Call) :
    (∃ exc, x.matchesCall env seqs call = .error exc ∧
        x'.matchesCall env seqs call = .error exc) ∨
      ∃ r r', x.matchesCall env seqs call = .ok r ∧ x'.matchesCall env seqs call = .ok r' ∧
        SameText r r' := by
  have htold := policyReports_told h.policies env call
  rw [BasicExpectation.matchesCall, BasicExpectation.matchesCall]
  generalize BasicExpectation.policyReports env call x.policies = reports at htold
  generalize BasicExpectation.policyReports env call x'.policies = reports' at htold
  rcases reports with exc | reports
  · rcases reports' with exc' | reports'
    · obtain rfl : exc = exc' := Except.error.inj htold
      exact .inl ⟨exc, rfl, rfl⟩
    · cases htold
  · rcases reports' with exc' | reports'
    · cases htold
    · refine .inr ⟨_, _, rfl, rfl, ?_, rfl, ?_, Except.ok.inj htold⟩
      · exact congrArg some h.sourceLocation
      · rw [h.controlPolicy]

end SameExpectation

structure SameMatch (m m' : ExpId × MatchReport) : Prop where
  fst : m.1 = m'.1
  snd : SameText m.2 m'.2

structure SameBuckets (b b' : Buckets) : Prop where
  fullMatches : List.Forall₂ SameMatch b.fullMatches b'.fullMatches
  noMatches : List.Forall₂ SameText b.noMatches b'.noMatches
  inapplicableMatches : List.Forall₂ SameText b.inapplicableMatches b'.inapplicableMatches

lemma SameBuckets.emplaceBack {b b' : Buckets} {e : ExpId} {r r' : MatchReport}
    (hb : SameBuckets b b') (hr : SameText r r') :
    SameBuckets (b.emplaceBack e r) (b'.emplaceBack e r') := by
  unfold Buckets.emplaceBack
  rw [hr.evaluate]
  cases evaluateMatchReport r' with
  | none => exact { hb with noMatches := List.rel_append hb.noMatches (.cons hr .nil) }
  | inapplicable =>
    exact { hb with
      inapplicableMatches := List.rel_append hb.inapplicableMatches (.cons hr .nil) }
  | full => exact { hb with fullMatches := List.rel_append hb.fullMatches (.cons ⟨rfl, hr⟩ .nil) }

lemma texts_eq {rs rs' : List MatchReport} (h : List.Forall₂ SameText rs rs')
    (printLocation : SourceLocation → String) :
    rs.map (printMatchReport printLocation) = rs'.map (printMatchReport printLocation) := by
  induction h with
  | nil => rfl
  | cons hr _ ih => rw [List.map_cons, List.map_cons, hr.print, ih]

lemma pickBestLoop_same {best best' : ExpId × MatchReport} {ms ms' : List (ExpId × MatchReport)}
    (hbest : SameMatch best best') (h : List.Forall₂ SameMatch ms ms') :
    (pickBestLoop best ms).map Prod.fst = (pickBestLoop best' ms').map Prod.fst := by
  induction h generalizing best best' with
  | nil => exact congrArg some hbest.fst
  | @cons m m' ms ms' hm _ ih =>
    rw [pickBestLoop, pickBestLoop, hbest.snd.sequenceRatings, hm.snd.sequenceRatings]
    rcases Reports.sequenceRatings best'.2 with _ | lhs
    · rfl
    · rcases Reports.sequenceRatings m'.2 with _ | rhs
      · rfl
      · simp only [Option.bind_some]
        split
        · exact ih hbest
        · exact ih hm

lemma pickBestMatch_same {ms ms' : List (ExpId × MatchReport)}
    (h : List.Forall₂ SameMatch ms ms') :
    (pickBestMatch ms).map Prod.fst = (pickBestMatch ms').map Prod.fst := by
  cases h with
  | nil => rfl
  | cons hbest h => exact pickBestLoop_same hbest h

/-- Two worlds whose expectations differ in the order of their clauses at most, and nothing else
does. -/
structure SameWorld (w w' : World σ Call Ret Exc) : Prop where
  reporter : w.reporter = w'.reporter
  env : w.env = w'.env
  seqs : w.seqs = w'.seqs
  length : w.exps.length = w'.exps.length
  exps : ∀ e : ℕ, Option.Rel SameExpectation w.exps[e]? w'.exps[e]?
  colls : w.colls = w'.colls

namespace SameWorld

variable {w w' : World σ Call Ret Exc} {c : CollId} {call : Call} {e : ℕ}

lemma refl (w : World σ Call Ret Exc) : SameWorld w w := by
  refine ⟨rfl, rfl, rfl, rfl, fun e => ?_, rfl⟩
  rcases w.exps[e]? with _ | x
  · exact .none
  · exact .some ⟨rfl, rfl, .refl _, rfl⟩

lemma withEnv (h : SameWorld w w') (env : σ) :
    SameWorld { w with env := env } { w' with env := env } :=
  { h with env := rfl }

lemma install (h : SameWorld w w') (reporter : Reporter Call Exc) :
    SameWorld { w with reporter := reporter } { w' with reporter := reporter } :=
  { h with reporter := rfl }

lemma exps_cases (h : SameWorld w w') (e : ℕ) :
    (w.exps[e]? = none ∧ w'.exps[e]? = none) ∨
      ∃ x x', w.exps[e]? = some x ∧ w'.exps[e]? = some x' ∧ SameExpectation x x' := by
  have hrel := h.exps e
  generalize w.exps[e]? = o at hrel
  generalize w'.exps[e]? = o' at hrel
  cases hrel with
  | some hx => exact .inr ⟨_, _, rfl, rfl, hx⟩
  | none => exact .inl ⟨rfl, rfl⟩

/-- The counters are the same. -/
lemma policy (h : SameWorld w w') (e : ExpId) : policyOf w e = policyOf w' e := by
  rcases h.exps_cases e with ⟨hx, hx'⟩ | ⟨x, x', hx, hx', hsame⟩
  · simp only [policyOf, hx, hx', Option.map_none]
  · simp only [policyOf, hx, hx', Option.map_some, hsame.controlPolicy]

lemma stored (h : SameWorld w w') (c : CollId) :
    List.Forall₂ (fun p p' => p.1 = p'.1 ∧ SameExpectation p.2 p'.2) (w.stored c)
      (w'.stored c) := by
  rw [World.stored, World.stored, ← h.colls]
  refine List.rel_filterMap (R := Eq) ?_ (List.forall₂_refl _)
  rintro e _ rfl
  rcases h.exps_cases e with ⟨hx, hx'⟩ | ⟨x, x', hx, hx', hsame⟩
  · simp only [hx, hx', Option.map_none]
    exact .none
  · simp only [hx, hx', Option.map_some]
    exact .some ⟨rfl, hsame⟩

lemma makeMatchReport {x x' : BasicExpectation σ Call Ret Exc} (h : SameWorld w w')
    (hr : ReadsTexts printLocation w.reporter) (hx : SameExpectation x x') (call : Call)
    (e : ExpId) :
    (∃ r, (w.makeMatchReport call e x).2 = r ∧ (w'.makeMatchReport call e x').2 = r ∧
        ∀ report, r ≠ .ok (some report)) ∨
      ∃ r r', w.makeMatchReport call e x = ([], .ok (some r)) ∧
        w'.makeMatchReport call e x' = ([], .ok (some r')) ∧ SameText r r' := by
  rcases hx.matchesCall w.env w.seqs call with ⟨exc, hm, hm'⟩ | ⟨r, r', hm, hm', hsame⟩
  · refine .inl ⟨_, rfl, ?_, makeMatchReport_of_error hm⟩
    unfold World.makeMatchReport
    rw [← h.env, ← h.seqs, ← h.reporter, hm, hm']
    rcases hx.report w.env w.seqs printLocation with ⟨exc', hd, hd'⟩ | ⟨r, r', hd, hd', htext⟩
    · simp only [hd, hd']
    · simp only [hd, hd', hr.unhandledException call exc htext]
  · unfold World.makeMatchReport
    rw [← h.env, ← h.seqs, hm, hm']
    exact .inr ⟨r, r', rfl, rfl, hsame⟩

lemma collectMatches (h : SameWorld w w') (hr : ReadsTexts printLocation w.reporter) (c : CollId)
    (call : Call) :
    (∃ events events' exit, w.collectMatches c call = (events, .error exit) ∧
        w'.collectMatches c call = (events', .error exit)) ∨
      ∃ events events' b b', w.collectMatches c call = (events, .ok b) ∧
        w'.collectMatches c call = (events', .ok b') ∧ SameBuckets b b' := by
  have hempty : SameBuckets Buckets.empty Buckets.empty := ⟨.nil, .nil, .nil⟩
  have hloops := matchLoop_related w w' call (E := fun _ _ => True) trivial
    (fun _ _ => trivial) ?_ (List.rel_reverse (h.stored c)) hempty
  · rcases hloops with ⟨events, events', exit, -, hw⟩ | ⟨events, events', b, b', -, hw⟩
    · exact .inl ⟨events, events', exit, hw⟩
    · exact .inr ⟨events, events', b, b', hw⟩
  rintro ⟨e, x⟩ ⟨e', x'⟩ ⟨heq, hx⟩
  obtain rfl : e = e' := heq
  rcases h.makeMatchReport hr hx call e with ⟨r, hm, hm', hnone⟩ | ⟨r, r', hm, hm', hsame⟩
  · exact .inl ⟨_, _, r, trivial, Prod.ext rfl hm, Prod.ext rfl hm', hnone⟩
  · exact .inr ⟨r, r', hm, hm', fun _ _ hb => hb.emplaceBack hsame⟩

lemma consumeControl (h : SameWorld w w') (e : ExpId) :
    SameWorld (w.consumeControl e) (w'.consumeControl e) := by
  rcases h.exps_cases e with ⟨hx, hx'⟩ | ⟨x, x', hx, hx', hsame⟩
  · simp only [World.consumeControl, hx, hx']
    exact h
  · refine ⟨?_, ?_, ?_, ?_, fun e' => ?_, ?_⟩
    · rw [consumeControl_of_some hx, consumeControl_of_some hx']
      exact h.reporter
    · rw [consumeControl_env, consumeControl_env, h.env]
    · rw [consumeControl_of_some hx, consumeControl_of_some hx']
      simp only [← h.seqs, hsame.controlPolicy]
    · rw [consumeControl_length, consumeControl_length, h.length]
    · by_cases he : e' = e
      · subst he
        rw [consumeControl_exps_self hx, consumeControl_exps_self hx']
        exact .some ⟨hsame.sourceLocation, congrArg ControlPolicy.increment hsame.controlPolicy,
          hsame.policies, hsame.finalizer⟩
      · rw [consumeControl_exps_of_ne he, consumeControl_exps_of_ne he]
        exact h.exps e'
    · rw [consumeControl_colls, consumeControl_colls, h.colls]

lemma consumeAndFinalize (h : SameWorld w w') (call : Call) (e : ExpId) :
    SameWorld (w.consumeAndFinalize call e).1 (w'.consumeAndFinalize call e).1 ∧
      (w.consumeAndFinalize call e).2.2 = (w'.consumeAndFinalize call e).2.2 := by
  have hcons := h.consumeControl e
  rcases h.exps_cases e with ⟨hx, hx'⟩ | ⟨x, x', hx, hx', hsame⟩
  · simp only [World.consumeAndFinalize, hx, hx']
    exact ⟨h, trivial⟩
  · have hpol := consumePolicies_eq hsame.policies call e 0 (w.consumeControl e).env
    rw [hcons.env] at hpol
    simp only [World.consumeAndFinalize, hx, hx', hcons.env, ← hsame.finalizer]
    generalize consumePolicies call e 0 x.policies (w'.consumeControl e).env = c at hpol
    generalize consumePolicies call e 0 x'.policies (w'.consumeControl e).env = c' at hpol
    obtain ⟨env, events, r⟩ := c
    obtain ⟨env', events', r'⟩ := c'
    obtain ⟨rfl, rfl⟩ : env = env' ∧ r = r' := hpol
    rcases r with exit | u
    · exact ⟨hcons.withEnv env, rfl⟩
    · exact ⟨hcons.withEnv _, rfl⟩

/-- **A call comes to the same**, whether it is accepted or rejected. -/
lemma handleCall (h : SameWorld w w') (hr : ReadsTexts printLocation w.reporter) (c : CollId)
    (call : Call) : SameWorld (w.handleCall c call).1 (w'.handleCall c call).1 ∧
      (w.handleCall c call).2.2 = (w'.handleCall c call).2.2 := by
  unfold World.handleCall
  rcases h.collectMatches hr c call with
    ⟨events, events', exit, hw, hw'⟩ | ⟨events, events', b, b', hw, hw', hb⟩
  · rw [hw, hw']
    exact ⟨h, rfl⟩
  rw [hw, hw']
  have hfull : b.fullMatches = [] ↔ b'.fullMatches = [] := by
    rw [← List.length_eq_zero_iff, hb.fullMatches.length_eq, List.length_eq_zero_iff]
  have hin : b.inapplicableMatches = [] ↔ b'.inapplicableMatches = [] := by
    rw [← List.length_eq_zero_iff, hb.inapplicableMatches.length_eq, List.length_eq_zero_iff]
  simp only [ne_eq, hfull, hin]
  split
  · have hpick := pickBestMatch_same hb.fullMatches
    generalize pickBestMatch b.fullMatches = o at hpick
    generalize pickBestMatch b'.fullMatches = o' at hpick
    rcases o with _ | ⟨e, r⟩
    · rcases o' with _ | ⟨e', r'⟩
      · exact ⟨h, rfl⟩
      · cases hpick
    · rcases o' with _ | ⟨e', r'⟩
      · cases hpick
      · obtain rfl : e = e' := Option.some.inj hpick
        exact h.consumeAndFinalize call e
  · split
    · refine ⟨h, congrArg Except.error ?_⟩
      rw [← h.reporter]
      exact hr.inapplicableMatches call (texts_eq hb.inapplicableMatches _)
    · refine ⟨h, congrArg Except.error ?_⟩
      rw [← h.reporter]
      exact hr.noMatches call (texts_eq hb.noMatches _)

lemma remove (h : SameWorld w w') (hr : ReadsTexts printLocation w.reporter) (c : CollId)
    (e : ExpId) : SameWorld (w.remove c e).1 (w'.remove c e).1 ∧
      (w.remove c e).2.2 = (w'.remove c e).2.2 := by
  have hsame : SameWorld { w with colls := Function.update w.colls c ((w.colls c).erase e) }
      { w' with colls := Function.update w'.colls c ((w'.colls c).erase e) } :=
    { h with colls := by rw [h.colls] }
  rcases h.exps_cases e with ⟨hx, hx'⟩ | ⟨x, x', hx, hx', hxx⟩
  · simp only [World.remove, hx, hx']
    exact ⟨hsame, trivial⟩
  · simp only [World.remove, hx, hx', ← hxx.isSatisfied, ← h.env, ← h.seqs, ← h.reporter]
      at hsame ⊢
    split
    · exact ⟨hsame, rfl⟩
    · refine ⟨hsame, ?_⟩
      rcases hxx.report w.env w.seqs printLocation with ⟨exc, hd, hd'⟩ | ⟨r, r', hd, hd', htext⟩
      · rw [hd, hd']
      · rw [hd, hd']
        exact hr.unfulfilledExpectation htext

end SameWorld

end MimicPP.Interleaving

import MimicPP.MessageReading
import MimicPP.Reporting
import MimicPP.Invariant

/-!
What the reports of a run say about its expectations.

In every reachable world a report gives the right reason why an expectation is not applicable,
and whatever the message of a rejected call is made of can be read off it.
-/

namespace MimicPP.Diagnoses

open MimicPP.Noexcept MimicPP.Sequence MimicPP.Reports MimicPP.Control MimicPP.Expectation
open MimicPP.Matching MimicPP.Transition MimicPP.Runs MimicPP.Invariant MimicPP.Outcome
open MimicPP.Reporting MimicPP.ReportTexts MimicPP.ReportReading MimicPP.MessageReading

variable {σ Call Ret Exc : Type} {w : World σ Call Ret Exc} {e : ℕ} {p : ControlPolicy}
variable {tag : Tag} {id : Id} {seqs : Sequences}

/-! ### The reason of an inapplicable match -/

/-- The sequence has moved on to a later entry, or waits for an expectation that was attached
earlier. -/
def Blocked (w : World σ Call Ret Exc) (e : ExpId) (tag : Tag) : Prop :=
  ∃ p id, Attached w e p tag id ∧ (id < (w.seqs tag).cursor ∨
    ∃ e' p' id', Attached w e' p' tag id' ∧ e' < e ∧ p'.count < p'.min)

lemma rate_add_refuse (seqs : Sequences) (entries : List (Tag × Id)) :
    (rate seqs entries).length + (refuse seqs entries).length = entries.length := by
  induction entries with
  | nil => rfl
  | cons entry entries ih =>
    rcases h : (seqs entry.1).priorityOf entry.2 with _ | priority
    · simp only [rate, refuse, List.filterMap_cons, h, Option.map_none, List.filter_cons,
        Option.isNone_none, if_true, List.map_cons, List.length_cons] at ih ⊢
      omega
    · simp only [rate, refuse, List.filterMap_cons, h, Option.map_some, List.filter_cons,
        Option.isNone_some, Bool.false_eq_true, if_false, List.length_cons] at ih ⊢
      omega

/-- What the state of a control policy says of the counter. -/
lemma viewControl_times (p : ControlPolicy) (seqs : Sequences) :
    (viewControl (p.state seqs)).1 = timesOf p.count p.min p.max := by
  unfold ControlPolicy.state makeControlState
  split_ifs <;> rfl

/-- A sequence accepts an expectation that is not exhausted unless it is blocked there. -/
lemma consumable_iff_not_blocked (hI : Inv w) (ha : Attached w e p tag id)
    (hlt : p.count < p.max) : (w.seqs tag).isConsumable id = true ↔ ¬ Blocked w e tag := by
  constructor
  · rintro hc ⟨q, id', ha', hblocked⟩
    obtain rfl := hI.position_unique ha ha'
    rcases hblocked with hcur | ⟨e', p', id', he', hlt', hopen⟩
    · have hle := (BasicSequence.isConsumable_iff.mp hc).1
      exact absurd hcur (Nat.not_lt.mpr hle)
    · have hmin := hI.min_le_count_of_consumable hc he' (hI.ordered he' ha hlt')
      exact absurd hopen (Nat.not_lt.mpr hmin)
  · intro hfree
    refine hI.consumable_of_min_le_count ha ?_ hlt fun {e' p' id'} ha' _ hid => ?_
    · by_contra hcur
      exact hfree ⟨p, id, ha, .inl (Nat.lt_of_not_le hcur)⟩
    · by_contra hopen
      have he := (hI.position_lt_iff ha' ha).mp hid
      exact hfree ⟨p, id, ha, .inr ⟨e', p', id', ha', he, Nat.lt_of_not_le hopen⟩⟩

open Classical in
/-- The sequences that refuse an expectation are those it is blocked in. -/
lemma refuse_eq_blocked (hI : Inv w) (hp : policyOf w e = some p) (hlt : p.count < p.max) :
    refuse w.seqs p.sequences = (p.sequences.map Prod.fst).filter fun tag => Blocked w e tag := by
  rw [refuse, List.filter_map]
  refine congrArg (List.map Prod.fst) (List.filter_congr fun entry hentry => ?_)
  have hiff := consumable_iff_not_blocked hI ⟨hp, hentry⟩ hlt
  have hnone : (w.seqs entry.1).priorityOf entry.2 = none ↔
      (w.seqs entry.1).isConsumable entry.2 = false := BasicSequence.priorityOf_eq_none
  simp only [Function.comp_apply]
  by_cases hb : Blocked w e entry.1
  · have hfalse : (w.seqs entry.1).isConsumable entry.2 = false := by
      rw [Bool.eq_false_iff]
      exact fun h => hiff.mp h hb
    simp [hb, hnone.mpr hfalse]
  · have hsome : (w.seqs entry.1).priorityOf entry.2 ≠ none := by
      rw [Ne, hnone, hiff.mpr hb]
      simp
    simp [hb, Option.isNone_eq_false_iff.mpr (Option.isSome_iff_ne_none.mpr hsome)]

/-- The sequences a state lists as those that refuse the expectation. -/
def inapplicableSequences : ControlState → List Tag
  | .inapplicable _ _ _ _ tags => tags
  | _ => []

open Classical in
/-- **A report gives the right reason.** The text on an expectation shows its count and its
limits. While the expectation is not exhausted, its state lists, and the text counts, exactly
those of its sequences that have moved on, or that wait for an expectation attached earlier
which has not got its minimum of matches yet. -/
theorem reason_exact (hr : Reachable w) (hp : policyOf w e = some p) :
    (viewControl (p.state w.seqs)).1 = timesOf p.count p.min p.max ∧
    (p.count = p.max → (viewControl (p.state w.seqs)).2 =
      if 0 < p.sequences.length then .part p.sequences.length else .unattached) ∧
    (p.count < p.max → ∀ blocked, blocked =
        (p.sequences.map Prod.fst).filter (fun tag => Blocked w e tag) →
      inapplicableSequences (p.state w.seqs) = blocked ∧ (viewControl (p.state w.seqs)).2 =
        if blocked ≠ [] then .notCurrent blocked.length p.sequences.length
        else if 0 < p.sequences.length then .current p.sequences.length else .unattached) := by
  have hI := reachable_inv hr
  refine ⟨viewControl_times p w.seqs, fun hmax => ?_, fun hlt blocked hblocked => ?_⟩
  · simp only [ControlPolicy.state, makeControlState, hmax, if_true, viewControl,
      List.length_map]
  · have hne : p.count ≠ p.max := Nat.ne_of_lt hlt
    rw [← refuse_eq_blocked hI hp hlt] at hblocked
    have hlength := rate_add_refuse w.seqs p.sequences
    simp only [ControlPolicy.state, makeControlState, if_neg hne]
    rw [← hblocked] at hlength ⊢
    split
    · rw [viewControl, hlength]
      exact ⟨rfl, rfl⟩
    · rename_i hnil
      have hnil' := not_not.mp hnil
      rw [hnil', List.length_nil, Nat.add_zero] at hlength
      rw [viewControl, hlength, hnil']
      exact ⟨rfl, rfl⟩

/-- A required expectation in a sequence, and an optional one in this sequence and another. -/
def waiting : List (Action Unit Unit Unit Unit) :=
  [.create (anyCall 0 1 1 [0] ()) ⟨"", 0⟩, .create (anyCall 0 0 2 [0, 1] ()) ⟨"", 0⟩]

open Classical in
/-- The optional expectation waits for the required one in the sequence they share, and in no
other one. -/
theorem reason_exact_waiting :
    ∃ (w : World Unit Unit Unit Unit) (p : ControlPolicy), Reachable w ∧
      policyOf w 1 = some p ∧
      viewControl (p.state w.seqs) = (timesOf 0 0 2, .notCurrent 1 2) ∧
      inapplicableSequences (p.state w.seqs) = [0] ∧ Blocked w 1 0 ∧ ¬ Blocked w 1 1 := by
  have h : ((machine Unit Unit Unit Unit).replay (start (quietReporter ()) () fun _ => .lazy)
      waiting).isSome = true := by decide +kernel
  obtain ⟨w, hrun, hr⟩ := Machine.exists_reachable_of_replay (start_fresh _ _ _) h
  have hp : policyOf w 1 = some ⟨0, 2, 0, [(0, 1), (1, 0)]⟩ := by
    cases hrun
    decide +kernel
  have hlisted :
      inapplicableSequences ((⟨0, 2, 0, [(0, 1), (1, 0)]⟩ : ControlPolicy).state w.seqs) = [0] := by
    cases hrun
    decide +kernel
  obtain ⟨htimes, -, hwaits⟩ := reason_exact hr hp
  obtain ⟨hblocked, hreason⟩ := hwaits (by decide) _ rfl
  rw [← hblocked, hlisted] at hreason
  have hmem : ∀ tag ∈ [0, 1], tag ∈ [0] ↔ Blocked w 1 tag := fun tag htag => by
    rw [← hlisted, hblocked, List.mem_filter, decide_eq_true_iff]
    exact and_iff_right htag
  exact ⟨w, _, hr, hp, Prod.ext htimes hreason, hlisted, (hmem 0 (by simp)).mp (by simp),
    fun hb => by simpa using (hmem 1 (by simp)).mpr hb⟩

/-! ### The message of a rejected call -/

/-- The locations and the descriptions of all expectations can be put together, and have no line
breaks of their own. -/
structure SingleLines (printLocation : SourceLocation → String) (w : World σ Call Ret Exc) :
    Prop where
  location : ∀ x ∈ w.exps, Single (printLocation x.sourceLocation)
  descriptions : ∀ x ∈ w.exps, ∀ q ∈ x.policies,
    ∃ d, q.describe w.env = .ok d ∧ ∀ text ∈ d, Single text

variable {printLocation : SourceLocation → String}

lemma policyReports_describe {env : σ} {ps : List (Policy σ Call Exc)}
    {reports : List PolicyReport}
    (h : BasicExpectation.policyReports env call ps = .ok reports) :
    ∀ r ∈ reports, ∃ q ∈ ps, q.describe env = .ok r.description := by
  induction ps generalizing reports with
  | nil =>
    obtain rfl := Except.ok.inj h
    simp
  | cons q ps ih =>
    simp only [BasicExpectation.policyReports] at h
    split at h
    · cases h
    · split at h
      · cases h
      · rename_i description hdescription
        split at h
        · cases h
        · rename_i rest hrest
          obtain rfl := Except.ok.inj h
          intro r hr
          rcases List.mem_cons.mp hr with rfl | hr
          · exact ⟨q, List.mem_cons_self, hdescription⟩
          · obtain ⟨q', hq', hdesc⟩ := ih hrest r hr
            exact ⟨q', List.mem_cons_of_mem _ hq', hdesc⟩

/-- The reports of a call say what can be read off them. -/
lemma plain_of_reportsWith (hI : Inv w) (hl : SingleLines printLocation w) (c : CollId)
    (call : Call) (v : MatchResult) : ∀ r ∈ reportsWith w c call v, Plain printLocation r := by
  intro r h
  obtain ⟨⟨e, r'⟩, hmem, rfl⟩ := List.mem_map.mp h
  obtain ⟨x, hstored, hmatch, -⟩ := mem_reportsOf.mp hmem
  have hx : w.exps[e]? = some x := (mem_stored.mp (List.mem_reverse.mp hstored)).2
  have hxmem : x ∈ w.exps := List.mem_of_getElem? hx
  have hcontrol := matchesCall_controlReport hmatch
  unfold BasicExpectation.matchesCall at hmatch
  split at hmatch
  · cases hmatch
  · rename_i reports hreports
    obtain rfl := Except.ok.inj hmatch
    refine ⟨fun loc hloc => ?_, fun q hq d hd => ?_, ?_⟩
    · obtain rfl := Option.some.inj hloc
      exact hl.location x hxmem
    · obtain ⟨q', hq', hdesc⟩ := policyReports_describe hreports q hq
      obtain ⟨d', hd', hsingle⟩ := hl.descriptions x hxmem q' hq'
      obtain rfl := Except.ok.inj (hd'.symm.trans hdesc)
      exact hsingle d hd
    · rw [hcontrol, viewControl_times]
      have hle := (hI.valid (policyOf_of_some hx)).min_le_max
      unfold timesOf
      split_ifs
      · trivial
      · trivial
      · exact hle

lemma SingleLines.describable (h : SingleLines printLocation w) (c : CollId) (call : Call) :
    Describable w c call := by
  rintro ⟨e, x⟩ hp exc -
  have hx : x ∈ w.exps := List.mem_of_getElem? (mem_stored.mp hp).2
  exact exists_report w.seqs fun q hq => (h.descriptions x hx q hq).imp fun _ hd => hd.1

section rejections

variable {E : Type} {w w' : World σ Call Ret (Thrown E)} {makeCallReport : Call → CallReport}
variable {n n' : ℕ} {c c' : CollId} {call call' : Call}

/-- What a rejected call shows: whether there was an otherwise matching expectation, the call,
and the reports of the expectations that were asked. -/
def shown (printLocation : SourceLocation → String) (makeCallReport : Call → CallReport)
    (w : World σ Call Ret Exc) (c : CollId) (call : Call) : MatchResult × MessageView :=
  let verdict := if reportsWith w c call .inapplicable ≠ [] then .inapplicable else .none
  (verdict, viewMessage printLocation (makeCallReport call) (reportsWith w c call verdict))

/-- The messages of two rejections are the same exactly if they show the same. -/
lemma rejection_what_eq_iff (hr : Reachable w) (hr' : Reachable w')
    (hl : SingleLines printLocation w) (hl' : SingleLines printLocation w')
    (hc : PlainCall printLocation (makeCallReport call))
    (hc' : PlainCall printLocation (makeCallReport call')) :
    ∃ what data loc what' data' loc',
      (rejection printLocation makeCallReport w c call : Thrown E) = .unmatchedCall what data loc ∧
      (rejection printLocation makeCallReport w' c' call' : Thrown E) =
        .unmatchedCall what' data' loc' ∧
      (what = what' ↔ shown printLocation makeCallReport w c call =
        shown printLocation makeCallReport w' c' call') := by
  have hplain := plain_of_reportsWith (reachable_inv hr) hl c call
  have hplain' := plain_of_reportsWith (reachable_inv hr') hl' c' call'
  have hreads := fun v v' => rejection_message_eq_iff hc hc' (hplain v) (hplain' v')
  have hreads' := fun v v' => rejection_message_eq_iff hc' hc (hplain' v') (hplain v)
  by_cases hin : reportsWith w c call .inapplicable = [] <;>
    by_cases hin' : reportsWith w' c' call' .inapplicable = [] <;>
    simp only [rejection, shown, hin, hin', ne_eq, not_true_eq_false, not_false_eq_true, if_true,
      if_false, Prod.mk.injEq, true_and]
  · exact ⟨_, _, _, _, _, _, rfl, rfl, (hreads .none .none).1⟩
  · refine ⟨_, _, _, _, _, _, rfl, rfl, fun heq => ?_, fun heq => by cases heq.1⟩
    exact absurd heq (hreads .none .inapplicable).2.2
  · refine ⟨_, _, _, _, _, _, rfl, rfl, fun heq => ?_, fun heq => by cases heq.1⟩
    exact absurd heq.symm (hreads' .inapplicable .none).2.2
  · exact ⟨_, _, _, _, _, _, rfl, rfl, (hreads .inapplicable .inapplicable).2.1⟩

/-- **The message of a rejected call can be read back**: in worlds that runs reach, with the
default reporter, two rejected calls leave by the same message exactly if they show the same. -/
theorem rejection_reads_back (hr : Reachable w) (hr' : Reachable w')
    (hw : w.reporter = defaultReporter printLocation makeCallReport n)
    (hw' : w'.reporter = defaultReporter printLocation makeCallReport n')
    (hl : SingleLines printLocation w) (hl' : SingleLines printLocation w')
    (hc : PlainCall printLocation (makeCallReport call))
    (hc' : PlainCall printLocation (makeCallReport call'))
    (hfull : fullMatches w c call = []) (hfull' : fullMatches w' c' call' = []) :
    ∃ what data loc what' data' loc',
      (w.handleCall c call).2.2 = .error (.thrown (.unmatchedCall what data loc)) ∧
      (w'.handleCall c' call').2.2 = .error (.thrown (.unmatchedCall what' data' loc')) ∧
      (what = what' ↔ shown printLocation makeCallReport w c call =
        shown printLocation makeCallReport w' c' call') := by
  obtain ⟨what, data, loc, what', data', loc', hrej, hrej', hiff⟩ :=
    rejection_what_eq_iff hr hr' hl hl' hc hc'
  rw [(handleCall_rejected hw (hl.describable c call) hfull).2,
    (handleCall_rejected hw' (hl'.describable c' call') hfull').2, hrej, hrej']
  exact ⟨what, data, loc, what', data', loc', rfl, rfl, hiff⟩

end rejections

/-- The question is expected once. -/
def asking (value : String) : Builder Unit String Unit (Thrown Unit) :=
  { anyCall 0 1 1 [] () with
    expectationPolicies := [{
      isSatisfied := fun _ => true
      matchesCall := fun _ call => .ok (call == value)
      describe := fun _ => .ok (some ("expect: arg[0] == " ++ value))
      consume := fun env _ => (env, .ok ()) }] }

/-- Two questions are expected. -/
def questions : List (Action Unit String Unit (Thrown Unit)) :=
  [.create (asking "42") ⟨"questions.cpp", 1⟩, .create (asking "43") ⟨"questions.cpp", 2⟩]

/-- Two other questions are told apart, by messages that show both expectations. -/
theorem rejection_reads_back_questions :
    ∃ w : World Unit String Unit (Thrown Unit), Reachable w ∧
      (shown SourceLocation.fileName question w 0 "1337").2.reports.length = 2 ∧
      ∃ what data loc what' data' loc',
        (w.handleCall 0 "1337").2.2 = .error (.thrown (.unmatchedCall what data loc)) ∧
        (w.handleCall 0 "7").2.2 = .error (.thrown (.unmatchedCall what' data' loc')) ∧
        what ≠ what' := by
  have h : ((machine Unit String Unit (Thrown Unit)).replay
      (start (defaultReporter SourceLocation.fileName question 0) () fun _ => .lazy)
      questions).isSome = true := by decide +kernel
  obtain ⟨w, hrun, hr⟩ := Machine.exists_reachable_of_replay (start_fresh _ _ _) h
  obtain ⟨p, p', hexps⟩ : ∃ p p', w.exps =
      [⟨⟨"questions.cpp", 1⟩, p, (asking "42").expectationPolicies, (asking "42").finalizePolicy⟩,
        ⟨⟨"questions.cpp", 2⟩, p', (asking "43").expectationPolicies,
          (asking "43").finalizePolicy⟩] := by
    cases hrun
    exact ⟨_, _, rfl⟩
  have hlines : SingleLines SourceLocation.fileName w :=
    ⟨by simp [hexps, Single], by simp [hexps, asking, Single]⟩
  have hw : w.reporter = defaultReporter SourceLocation.fileName question 0 := by
    cases hrun
    rfl
  have hfull : fullMatches w 0 "1337" = [] ∧ fullMatches w 0 "7" = [] := by
    cases hrun
    exact ⟨rfl, rfl⟩
  obtain ⟨what, data, loc, what', data', loc', hthrown, hthrown', hiff⟩ :=
    rejection_reads_back hr hr hw hw hlines hlines
      (plain_question (by simp [Single] : Single "1337"))
      (plain_question (by simp [Single] : Single "7")) hfull.1 hfull.2
  have hshown : (shown SourceLocation.fileName question w 0 "1337").2.reports.length = 2 := by
    cases hrun
    rfl
  refine ⟨w, hr, hshown, what, data, loc, what', data', loc', hthrown, hthrown', fun heq => ?_⟩
  have hargs := congrArg (fun s => s.2.call.args) (hiff.mp heq)
  simp [shown, viewMessage, viewCall, question] at hargs

end MimicPP.Diagnoses

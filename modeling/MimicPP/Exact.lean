import MimicPP.Choice
import MimicPP.Reporting

/-!
Exact limits: every expectation in a sequence is to be matched a fixed number of times.

Then no two expectations of a sequence are applicable at once, so priorities are never
compared, and the flavour of a sequence shows in nothing but the priorities that are reported.
-/

namespace MimicPP.Exact

open MimicPP.Noexcept MimicPP.Sequence MimicPP.Reports MimicPP.Control MimicPP.Expectation
open MimicPP.Matching MimicPP.Transition MimicPP.Runs MimicPP.Invariant MimicPP.Scan
open MimicPP.Ratings MimicPP.Order MimicPP.Choice MimicPP.Reporting

variable {σ Call Ret Exc : Type}

/-- An expectation is created with exact limits, or in no sequence. -/
def ExactAction : Action σ Call Ret Exc → Prop
  | .create b _ => b.sequenceConfig.sequences ≠ [] → b.timesConfig.min = b.timesConfig.max
  | _ => True

def ExactLimits (w : World σ Call Ret Exc) : Prop :=
  ∀ {e p tag id}, Attached w e p tag id → p.min = p.max

variable {w w' : World σ Call Ret Exc} {c : CollId} {call : Call} {e e' : ℕ}
variable {p p' : ControlPolicy} {tag : Tag} {id id' : ℕ}

lemma exactLimits_step {a : Action σ Call Ret Exc} (hI : Inv w) (hex : ExactLimits w)
    (ha : ExactAction a) (h : step w a = some w') : ExactLimits w' := by
  intro e p tag id hatt
  rcases step_cases h with ⟨b, loc, e', rfl, hfin⟩ | ⟨c, call, m, rfl, hm, rfl⟩ |
    ⟨env, rfl, rfl⟩ | ⟨c, e', rfl, -, rfl⟩
  · rcases (finalize_created hfin).2.attached.mp hatt with hold | ⟨-, rfl, hmem⟩
    · exact hex hold
    · have htag := (mem_newPolicy.mp hmem).1
      exact ha (List.ne_nil_of_mem htag)
  · obtain ⟨q, hq, -, happ⟩ := hI.applicable_of_chosen hm
    have hc := hI.consumed hq (ControlPolicy.isApplicable_iff.mp happ).1
    rcases hc.policy.mp hatt.policy with ⟨-, rfl⟩ | ⟨-, hold⟩
    · have hmem : (tag, id) ∈ q.sequences := hatt.mem
      have hexact : q.min = q.max := hex ⟨hq, hmem⟩
      exact hexact
    · exact hex ⟨hold, hatt.mem⟩
  · exact hex ⟨hatt.policy, hatt.mem⟩
  · have hp := hatt.policy
    rw [policyOf, remove_exps] at hp
    exact hex ⟨hp, hatt.mem⟩

/-- Nothing behind an applicable expectation with exact limits is applicable. -/
lemma not_applicable_behind (hI : Inv w) (hex : ExactLimits w) (ha : Attached w e p tag id)
    (ha' : Attached w e' p' tag id') (h : id < id') (happ : p.isApplicable w.seqs = true) :
    ¬ p'.isApplicable w.seqs = true := by
  intro happ'
  have hcons := (ControlPolicy.isApplicable_iff.mp happ').2 tag id' ha'.mem
  have hmin := hI.min_le_count_of_consumable hcons ha h
  have hlt := (ControlPolicy.isApplicable_iff.mp happ).1
  have hexact := hex ha
  omega

/-- **One applicable expectation per sequence.** -/
theorem applicable_unique (hI : Inv w) (hex : ExactLimits w) (ha : Attached w e p tag id)
    (ha' : Attached w e' p' tag id') (happ : p.isApplicable w.seqs = true)
    (happ' : p'.isApplicable w.seqs = true) : e = e' := by
  rcases Nat.lt_trichotomy e e' with h | h | h
  · exact absurd happ' (not_applicable_behind hI hex ha ha' (hI.ordered ha ha' h) happ)
  · exact h
  · exact absurd happ (not_applicable_behind hI hex ha' ha (hI.ordered ha' ha h) happ')

/-- The newest full match shares no sequence with another, so it holds against all. -/
lemma pick_head (hI : Inv w) (hex : ExactLimits w) {best : ExpId × MatchReport}
    {ms : List (ExpId × MatchReport)} (hsplit : fullMatches w c call = best :: ms) :
    pickBestMatch (fullMatches w c call) = some best := by
  have hhead : best ∈ fullMatches w c call := by
    rw [hsplit]
    exact List.mem_cons_self
  rw [pickBestMatch_eq_scan hsplit, scan_of_keeps]
  intro n hn
  have hmem : n ∈ fullMatches w c call := by
    rw [hsplit]
    exact List.mem_cons_of_mem _ hn
  have hsorted := hI.fullMatches_sorted c call
  rw [hsplit] at hsorted
  have hlt : n.1 < best.1 := (List.pairwise_cons.mp hsorted).1 n hn
  by_contra hk
  obtain ⟨hsub, hpos⟩ := (keeps_newer hI hhead hmem hlt).mp (by simpa using hk)
  obtain ⟨p, hp, happ, -⟩ := hI.ratingsOf_full hhead
  obtain ⟨q, hq, happ', -⟩ := hI.ratingsOf_full hmem
  rcases htags : tags (ratingsOf best) with _ | ⟨tag, rest⟩
  · rw [laziness, htags] at hpos
    exact absurd hpos (lt_irrefl _)
  · have htag : tag ∈ tags (ratingsOf best) := by
      rw [htags]
      exact List.mem_cons_self
    obtain ⟨i, hi⟩ := (mem_tags_iff hI hhead hp).mp htag
    obtain ⟨j, hj⟩ := (mem_tags_iff hI hmem hq).mp (hsub htag)
    have heq := applicable_unique hI hex ⟨hp, hi⟩ ⟨hq, hj⟩ happ happ'
    exact absurd heq.symm (Nat.ne_of_lt hlt)

/-- **The newest full match is consumed.** -/
theorem chosen_newest (hI : Inv w) (hex : ExactLimits w) {m : ExpId × MatchReport}
    (hm : chosen w c call = some m) : NewestMatch w c call m.1 := by
  obtain ⟨hpick, hmem⟩ := chosen_eq_some hm
  obtain ⟨best, ms, hsplit⟩ := List.exists_cons_of_ne_nil (List.ne_nil_of_mem hmem)
  have hhead := pick_head hI hex hsplit
  obtain rfl : m = best := Option.some.inj (hpick.symm.trans hhead)
  exact hI.newestMatch_head hsplit

/-! ### What is reported, less the priorities -/

def maskRating (r : Rating) : Rating := ⟨0, r.tag⟩

def maskControl : ControlState → ControlState
  | .inapplicable min max count ratings tags =>
    .inapplicable min max count (ratings.map maskRating) tags
  | .applicable min max count ratings => .applicable min max count (ratings.map maskRating)
  | .saturated min max count tags => .saturated min max count tags

def maskReport (r : MatchReport) : MatchReport :=
  { r with controlReport := maskControl r.controlReport }

def maskMatch (m : ExpId × MatchReport) : ExpId × MatchReport := (m.1, maskReport m.2)

def maskBuckets (b : Buckets) : Buckets :=
  ⟨b.fullMatches.map maskMatch, b.noMatches.map maskReport, b.inapplicableMatches.map maskReport⟩

def maskEvent : Event Call Exc → Event Call Exc
  | .fullMatch call report => .fullMatch call (maskReport report)
  | .inapplicableMatches call reports => .inapplicableMatches call (reports.map maskReport)
  | .noMatches call reports => .noMatches call (reports.map maskReport)
  | event => event

/-- Priorities are not printed. -/
lemma controlStatePrinter_mask (s : ControlState) :
    controlStatePrinter (maskControl s) = controlStatePrinter s := by
  cases s <;> simp [maskControl, controlStatePrinter]

lemma evaluateMatchReport_mask (r : MatchReport) :
    evaluateMatchReport (maskReport r) = evaluateMatchReport r := by
  have happ : (maskControl r.controlReport).isApplicable = r.controlReport.isApplicable := by
    cases r.controlReport <;> rfl
  simp [evaluateMatchReport, maskReport, happ]

lemma maskBuckets_emplaceBack {b b' : Buckets} {r r' : MatchReport}
    (hb : maskBuckets b = maskBuckets b') (hr : maskReport r = maskReport r') :
    maskBuckets (b.emplaceBack e r) = maskBuckets (b'.emplaceBack e r') := by
  have heval : evaluateMatchReport r = evaluateMatchReport r' := by
    rw [← evaluateMatchReport_mask r, hr, evaluateMatchReport_mask]
  simp only [maskBuckets, Buckets.mk.injEq] at hb
  obtain ⟨hfull, hnone, hin⟩ := hb
  rw [Buckets.emplaceBack, Buckets.emplaceBack, heval]
  cases evaluateMatchReport r' <;> simp [maskBuckets, maskMatch, hfull, hnone, hin, hr]

/-! ### Two worlds that differ in flavour -/

/-- Two sequences that differ in flavour at most. -/
structure SeqTwin (s s' : BasicSequence) : Prop where
  entries : s.entries = s'.entries
  cursor : s.cursor = s'.cursor

namespace SeqTwin

variable {s s' : BasicSequence}

lemma isConsumable (h : SeqTwin s s') : s.isConsumable id = s'.isConsumable id := by
  rw [BasicSequence.isConsumable, BasicSequence.isConsumable, h.entries, h.cursor]

lemma destroy (h : SeqTwin s s') : s.destroy = s'.destroy := by
  rw [BasicSequence.destroy, BasicSequence.destroy, h.entries, h.cursor]

lemma setState {st : State} (h : SeqTwin s s') : SeqTwin (s.setState id st) (s'.setState id st) :=
  ⟨by simp [h.entries], h.cursor⟩

lemma consume (h : SeqTwin s s') : SeqTwin (s.consume id) (s'.consume id) := ⟨h.entries, rfl⟩

lemma emplaceBack {st : State} (h : SeqTwin s s') :
    SeqTwin (s.emplaceBack st) (s'.emplaceBack st) :=
  ⟨by simp [h.entries], h.cursor⟩

end SeqTwin

def Twins (seqs seqs' : Sequences) : Prop := ∀ tag, SeqTwin (seqs tag) (seqs' tag)

variable {seqs seqs' : Sequences}

lemma Twins.update {s s' : BasicSequence} (h : Twins seqs seqs') (hs : SeqTwin s s') :
    Twins (Function.update seqs tag s) (Function.update seqs' tag s') := by
  intro t
  by_cases ht : t = tag
  · subst ht
    rw [Function.update_self, Function.update_self]
    exact hs
  · rw [Function.update_of_ne ht, Function.update_of_ne ht]
    exact h t

lemma Twins.applyEach {f : BasicSequence → Id → BasicSequence} {l : List (Tag × Id)}
    (hf : ∀ s s' id, SeqTwin s s' → SeqTwin (f s id) (f s' id)) (h : Twins seqs seqs') :
    Twins (applyEach f seqs l) (Control.applyEach f seqs' l) := by
  induction l generalizing seqs seqs' with
  | nil => exact h
  | cons e l ih => exact ih (h.update (hf _ _ _ (h e.1)))

lemma Twins.updateSequenceStates (h : Twins seqs seqs') :
    Twins (p.updateSequenceStates seqs) (p.updateSequenceStates seqs') := by
  unfold ControlPolicy.updateSequenceStates
  split
  · exact h.applyEach fun _ _ _ hs => hs.setState
  · split
    · exact h.applyEach fun _ _ _ hs => hs.setState
    · exact h

lemma Twins.consume (h : Twins seqs seqs') : Twins (p.consume seqs).2 (p.consume seqs').2 :=
  Twins.updateSequenceStates (h.applyEach fun _ _ _ hs => hs.consume)

/-- Attaching succeeds in both or in neither, with the same ids. -/
lemma Twins.addEach (h : Twins seqs seqs') (tags : List Tag) :
    Twins (addEach seqs tags).1 (Control.addEach seqs' tags).1 ∧
      (Control.addEach seqs tags).2 = (Control.addEach seqs' tags).2 := by
  induction tags generalizing seqs seqs' with
  | nil => exact ⟨h, rfl⟩
  | cons tag tags ih =>
    have hlen : (seqs tag).entries.length = (seqs' tag).entries.length := by
      rw [(h tag).entries]
    by_cases hle : (seqs' tag).entries.length ≤ intMax
    · have hnew : Twins (Function.update seqs tag ((seqs tag).emplaceBack .unsatisfied))
          (Function.update seqs' tag ((seqs' tag).emplaceBack .unsatisfied)) :=
        h.update (h tag).emplaceBack
      obtain ⟨hseqs, hres⟩ := ih hnew
      rcases hadd : Control.addEach (Function.update seqs tag
        ((seqs tag).emplaceBack .unsatisfied)) tags with ⟨t, r⟩
      rcases hadd' : Control.addEach (Function.update seqs' tag
        ((seqs' tag).emplaceBack .unsatisfied)) tags with ⟨t', r'⟩
      rw [hadd, hadd'] at hseqs hres
      obtain rfl : r = r' := hres
      rcases r with exc | entries
      · simp only [Control.addEach, BasicSequence.add, hlen, if_pos hle, hadd, hadd']
        exact ⟨hseqs, trivial⟩
      · simp only [Control.addEach, BasicSequence.add, hlen, if_pos hle, hadd, hadd']
        exact ⟨hseqs, trivial⟩
    · simp only [Control.addEach, BasicSequence.add, hlen, if_neg hle]
      exact ⟨h, trivial⟩

lemma Twins.construct (h : Twins seqs seqs') (times : TimesConfig) (config : Config) :
    Twins (ControlPolicy.construct seqs times config).1
        (ControlPolicy.construct seqs' times config).1 ∧
      (ControlPolicy.construct seqs times config).2 =
        (ControlPolicy.construct seqs' times config).2 := by
  obtain ⟨hseqs, hres⟩ := h.addEach config.sequences
  rcases hadd : Control.addEach seqs config.sequences with ⟨t, r⟩
  rcases hadd' : Control.addEach seqs' config.sequences with ⟨t', r'⟩
  rw [hadd, hadd'] at hseqs hres
  obtain rfl : r = r' := hres
  rcases r with exc | entries
  · simpa [ControlPolicy.construct, makeSequenceEntries, hadd, hadd'] using hseqs
  · simp only [ControlPolicy.construct, makeSequenceEntries, hadd, hadd', throwing_ok, noexcept_ok]
    exact ⟨Twins.updateSequenceStates hseqs, trivial⟩

lemma rate_mask (entries : List (Tag × Id)) : (rate seqs entries).map maskRating =
    entries.filterMap fun e => if (seqs e.1).isConsumable e.2 then some ⟨0, e.1⟩ else none := by
  rw [rate, List.map_filterMap]
  refine List.filterMap_congr fun e _ => ?_
  rw [BasicSequence.priorityOf]
  split <;> rfl

/-- The state of a control policy does not show the flavours but in its priorities. -/
lemma Twins.state (h : Twins seqs seqs') :
    maskControl (p.state seqs) = maskControl (p.state seqs') := by
  have hrefuse : refuse seqs p.sequences = refuse seqs' p.sequences := by
    rw [refuse, refuse]
    congr 1
    refine List.filter_congr fun e _ => ?_
    simp only [BasicSequence.priorityOf, (h e.1).isConsumable]
    split <;> rfl
  have hrate : (rate seqs p.sequences).map maskRating =
      (rate seqs' p.sequences).map maskRating := by
    rw [rate_mask, rate_mask]
    refine List.filterMap_congr fun e _ => ?_
    rw [(h e.1).isConsumable]
  rw [ControlPolicy.state, ControlPolicy.state, makeControlState, makeControlState, hrefuse]
  split
  · rfl
  · split
    · simp [maskControl, hrate]
    · simp [maskControl, hrate]

lemma Twins.report {x : BasicExpectation σ Call Ret Exc} {env : σ} (h : Twins seqs seqs') :
    x.report env seqs = x.report env seqs' := by
  have hprint : controlStatePrinter (x.controlPolicy.state seqs) =
      controlStatePrinter (x.controlPolicy.state seqs') := by
    rw [← controlStatePrinter_mask, h.state, controlStatePrinter_mask]
  simp [BasicExpectation.report, BasicExpectation.describeTimes, hprint]

lemma Twins.matchesCall (h : Twins seqs seqs') (x : BasicExpectation σ Call Ret Exc) (env : σ)
    (call : Call) :
    (∃ exc, x.matchesCall env seqs call = .error exc ∧ x.matchesCall env seqs' call = .error exc) ∨
      ∃ r r', x.matchesCall env seqs call = .ok r ∧ x.matchesCall env seqs' call = .ok r' ∧
        maskReport r = maskReport r' := by
  rcases hpol : BasicExpectation.policyReports env call x.policies with exc | reports
  · exact .inl ⟨exc, by simp [BasicExpectation.matchesCall, hpol],
      by simp [BasicExpectation.matchesCall, hpol]⟩
  · refine .inr ⟨_, _, by simp only [BasicExpectation.matchesCall, hpol]; rfl,
      by simp only [BasicExpectation.matchesCall, hpol]; rfl, ?_⟩
    simp [maskReport, h.state]

/-- Two worlds whose sequences differ in flavour at most, and nothing else does. -/
structure Twin (w w' : World σ Call Ret Exc) : Prop where
  reporter : w.reporter = w'.reporter
  env : w.env = w'.env
  seqs : Twins w.seqs w'.seqs
  exps : w.exps = w'.exps
  colls : w.colls = w'.colls

namespace Twin

lemma stored (h : Twin w w') : w.stored c = w'.stored c := by
  rw [World.stored, World.stored, h.colls, h.exps]

lemma makeMatchReport (h : Twin w w') (call : Call) (e : ExpId)
    (x : BasicExpectation σ Call Ret Exc) :
    (∃ events r, w.makeMatchReport call e x = (events, r) ∧
        w'.makeMatchReport call e x = (events, r) ∧ ∀ report, r ≠ .ok (some report)) ∨
      ∃ r r', w.makeMatchReport call e x = ([], .ok (some r)) ∧
        w'.makeMatchReport call e x = ([], .ok (some r')) ∧ maskReport r = maskReport r' := by
  rcases h.seqs.matchesCall x w.env call with
    ⟨exc, hx, hx'⟩ | ⟨r, r', hx, hx', hmask⟩
  · rw [h.env] at hx'
    have hreport : x.report w.env w.seqs = x.report w'.env w'.seqs := by
      rw [h.env]
      exact h.seqs.report
    refine .inl ⟨_, _, rfl, ?_, makeMatchReport_of_error hx⟩
    simp only [World.makeMatchReport, hx, hx', hreport, h.reporter]
  · rw [h.env] at hx'
    exact .inr ⟨r, r', by simp only [World.makeMatchReport, hx],
      by simp only [World.makeMatchReport, hx'], hmask⟩

/-- The loops report the same exceptions, and file the same expectations under the same
verdicts. -/
lemma matchLoop (h : Twin w w') (l : List (ExpId × BasicExpectation σ Call Ret Exc))
    {b b' : Buckets} (hb : maskBuckets b = maskBuckets b') :
    (∃ events exit, w.matchLoop call l b = (events, .error exit) ∧
        w'.matchLoop call l b' = (events, .error exit)) ∨
      ∃ events a a', w.matchLoop call l b = (events, .ok a) ∧
        w'.matchLoop call l b' = (events, .ok a') ∧ maskBuckets a = maskBuckets a' := by
  refine matchLoop_lockstep (A := fun a a' => maskBuckets a = maskBuckets a') (R := Eq) ?_
    (List.forall₂_refl l) hb
  rintro ⟨e, x⟩ _ rfl
  rcases h.makeMatchReport call e x with hnone | ⟨r, r', hx, hx', hmask⟩
  · exact .inl hnone
  · exact .inr ⟨r, r', hx, hx', fun _ _ hb => maskBuckets_emplaceBack hb hmask⟩

lemma collectMatches (h : Twin w w') (c : CollId) (call : Call) :
    (∃ events exit, w.collectMatches c call = (events, .error exit) ∧
        w'.collectMatches c call = (events, .error exit)) ∨
      ∃ events a a', w.collectMatches c call = (events, .ok a) ∧
        w'.collectMatches c call = (events, .ok a') ∧ maskBuckets a = maskBuckets a' := by
  rw [World.collectMatches, World.collectMatches, ← h.stored]
  exact h.matchLoop _ rfl

lemma consumeControl (h : Twin w w') (e : ExpId) :
    Twin (w.consumeControl e) (w'.consumeControl e) := by
  rcases hx : w.exps[e]? with _ | x
  · have hx' : w'.exps[e]? = none := by rw [← h.exps, hx]
    simp only [World.consumeControl, hx, hx']
    exact h
  · have hx' : w'.exps[e]? = some x := by rw [← h.exps, hx]
    rw [consumeControl_of_some hx, consumeControl_of_some hx']
    exact ⟨h.reporter, h.env, h.seqs.consume, by rw [h.exps], h.colls⟩

lemma withEnv (h : Twin w w') (env : σ) : Twin { w with env := env } { w' with env := env } :=
  ⟨h.reporter, rfl, h.seqs, h.exps, h.colls⟩

lemma consumeAndFinalize (h : Twin w w') (call : Call) (e : ExpId) :
    Twin (w.consumeAndFinalize call e).1 (w'.consumeAndFinalize call e).1 ∧
      (w.consumeAndFinalize call e).2 = (w'.consumeAndFinalize call e).2 := by
  rcases hx : w.exps[e]? with _ | x
  · have hx' : w'.exps[e]? = none := by rw [← h.exps, hx]
    simp only [World.consumeAndFinalize, hx, hx']
    exact ⟨h, trivial⟩
  · have hx' : w'.exps[e]? = some x := by rw [← h.exps, hx]
    have hcons := h.consumeControl e
    rcases hpol : consumePolicies call e 0 x.policies (w.consumeControl e).env
      with ⟨env, events, r⟩
    have hpol' : consumePolicies call e 0 x.policies (w'.consumeControl e).env =
        (env, events, r) := by rw [← hcons.env, hpol]
    rcases r with exit | u
    · simp only [World.consumeAndFinalize, hx, hx', hpol, hpol']
      exact ⟨hcons.withEnv env, trivial⟩
    · simp only [World.consumeAndFinalize, hx, hx', hpol, hpol']
      exact ⟨hcons.withEnv _, trivial⟩

/-- What the removal of an expectation reports does not show the flavours. -/
lemma remove (h : Twin w w') (c : CollId) (e : ExpId) :
    Twin (w.remove c e).1 (w'.remove c e).1 ∧ (w.remove c e).2 = (w'.remove c e).2 := by
  rcases hx : w.exps[e]? with _ | x
  · have hx' : w'.exps[e]? = none := by rw [← h.exps, hx]
    simp only [World.remove, hx, hx']
    exact ⟨⟨h.reporter, h.env, h.seqs, h.exps, by rw [h.colls]⟩, trivial⟩
  · have hx' : w'.exps[e]? = some x := by rw [← h.exps, hx]
    have hreport : x.report w'.env w.seqs = x.report w'.env w'.seqs := h.seqs.report
    simp only [World.remove, hx, hx', h.env, h.reporter, hreport]
    split <;> exact ⟨⟨rfl, rfl, h.seqs, h.exps, by rw [h.colls]⟩, rfl⟩

lemma finalize (h : Twin w w') (b : Builder σ Call Ret Exc) (loc : SourceLocation) :
    Twin (b.finalize loc w).1 (b.finalize loc w').1 ∧
      (b.finalize loc w).2 = (b.finalize loc w').2 := by
  obtain ⟨hseqs, hres⟩ := h.seqs.construct b.timesConfig b.sequenceConfig
  rcases hcon : ControlPolicy.construct w.seqs b.timesConfig b.sequenceConfig with ⟨t, r⟩
  rcases hcon' : ControlPolicy.construct w'.seqs b.timesConfig b.sequenceConfig with ⟨t', r'⟩
  rw [hcon, hcon'] at hseqs hres
  obtain rfl : r = r' := hres
  rcases r with exit | p
  · simp only [Builder.finalize, hcon, hcon']
    exact ⟨⟨h.reporter, h.env, hseqs, h.exps, h.colls⟩, trivial⟩
  · simp only [Builder.finalize, hcon, hcon', h.exps]
    exact ⟨⟨h.reporter, h.env, hseqs, rfl, by simp [World.push, h.colls]⟩, trivial⟩

end Twin

/-! ### Two runs that differ in flavour -/

/-- What a rejected call ends with is up to the reporter, which gets the same reports, less the
priorities; anything else is the same. -/
inductive SameResult (reporter : Reporter Call Exc) (call : Call) :
    Except (Exit Exc) Ret → Except (Exit Exc) Ret → Prop
  | same (r : Except (Exit Exc) Ret) : SameResult reporter call r r
  | inapplicableMatches {reports reports' : List MatchReport} :
      reports.map maskReport = reports'.map maskReport →
      SameResult reporter call (.error (reporter.reportInapplicableMatches call reports))
        (.error (reporter.reportInapplicableMatches call reports'))
  | noMatches {reports reports' : List MatchReport} :
      reports.map maskReport = reports'.map maskReport →
      SameResult reporter call (.error (reporter.reportNoMatches call reports))
        (.error (reporter.reportNoMatches call reports'))

/-- Two outcomes of a call that differ in reported priorities at most: the worlds left behind,
the expectations consumed, the reports, and what comes back. -/
structure SameOutcome (w : World σ Call Ret Exc) (c : CollId) (call : Call)
    (r r' : World σ Call Ret Exc × List (Event Call Exc) × Except (Exit Exc) Ret) : Prop where
  world : Twin r.1 r'.1
  events : r.2.1.map maskEvent = r'.2.1.map maskEvent
  accepted : fullMatches w c call ≠ [] → r.2.2 = r'.2.2
  result : SameResult w.reporter call r.2.2 r'.2.2

/-- The newest full match is the same, and it is picked in both worlds. -/
lemma pick_twin (hI : Inv w) (hI' : Inv w') (hex : ExactLimits w) (hex' : ExactLimits w')
    {b b' : Buckets} (hb : b.fullMatches = fullMatches w c call)
    (hb' : b'.fullMatches = fullMatches w' c call)
    (hmask : b.fullMatches.map maskMatch = b'.fullMatches.map maskMatch) :
    (b.fullMatches = [] ∧ b'.fullMatches = []) ∨
      ∃ m m', b.fullMatches ≠ [] ∧ b'.fullMatches ≠ [] ∧ pickBestMatch b.fullMatches = some m ∧
        pickBestMatch b'.fullMatches = some m' ∧ maskMatch m = maskMatch m' := by
  rcases hlist : b.fullMatches with _ | ⟨best, ms⟩
  · rw [hlist] at hmask
    have hnil : b'.fullMatches = [] := List.map_eq_nil_iff.mp hmask.symm
    exact .inl ⟨rfl, hnil⟩
  · rcases hlist' : b'.fullMatches with _ | ⟨best', ms'⟩
    · rw [hlist, hlist'] at hmask
      cases hmask
    · have hpick := pick_head hI hex (hb.symm.trans hlist)
      have hpick' := pick_head hI' hex' (hb'.symm.trans hlist')
      rw [← hb, hlist] at hpick
      rw [← hb', hlist'] at hpick'
      rw [hlist, hlist', List.map_cons, List.map_cons] at hmask
      exact .inr ⟨best, best', List.cons_ne_nil _ _, List.cons_ne_nil _ _, hpick, hpick',
        (List.cons.inj hmask).1⟩

lemma handleCall_twin (hI : Inv w) (hI' : Inv w') (hex : ExactLimits w) (hex' : ExactLimits w')
    (h : Twin w w') (c : CollId) (call : Call) :
    SameOutcome w c call (w.handleCall c call) (w'.handleCall c call) := by
  rcases h.collectMatches c call with ⟨events, exit, hw, hw'⟩ | ⟨events, b, b', hw, hw', hmask⟩
  · simp only [World.handleCall, hw, hw']
    exact ⟨h, rfl, fun _ => rfl, .same _⟩
  have hb := collectMatches_ok hw
  have hb' := collectMatches_ok hw'
  simp only [maskBuckets, Buckets.mk.injEq] at hmask
  obtain ⟨hfull, hnone, hin⟩ := hmask
  rcases pick_twin hI hI' hex hex' hb hb' hfull with
    ⟨hnil, hnil'⟩ | ⟨m, m', hne, hne', hpick, hpick', hm⟩
  · -- nothing to consume: the same rejection, with the same reports
    have hnot : ¬ fullMatches w c call ≠ [] := by
      rw [← hb, hnil]
      exact fun hne => hne rfl
    by_cases hempty : b.inapplicableMatches = []
    · have hempty' : b'.inapplicableMatches = [] := by
        rw [hempty] at hin
        exact List.map_eq_nil_iff.mp hin.symm
      simp only [World.handleCall, hw, hw', hnil, hnil', hempty, hempty', ne_eq,
        not_true_eq_false, if_false, ← h.reporter]
      exact ⟨h, by simp [maskEvent, hnone], fun hne => absurd hne hnot, .noMatches hnone⟩
    · have hempty' : b'.inapplicableMatches ≠ [] := by
        intro hnil
        rw [hnil] at hin
        exact hempty (List.map_eq_nil_iff.mp hin)
      simp only [World.handleCall, hw, hw', hnil, hnil', hempty, hempty', ne_eq,
        not_true_eq_false, if_false, not_false_eq_true, if_true, ← h.reporter]
      exact ⟨h, by simp [maskEvent, hin], fun hne => absurd hne hnot, .inapplicableMatches hin⟩
  · obtain ⟨e, r⟩ := m
    obtain ⟨e', r'⟩ := m'
    obtain ⟨rfl, hr⟩ : e = e' ∧ maskReport r = maskReport r' := by simpa [maskMatch] using hm
    obtain ⟨hworld, hrest⟩ := h.consumeAndFinalize call e
    rw [Prod.ext_iff] at hrest
    simp only [World.handleCall, hw, hw', hpick, hpick', if_pos hne, if_pos hne']
    refine ⟨hworld, by simp [maskEvent, hr, hrest.1], fun _ => hrest.2, ?_⟩
    rw [hrest.2]
    exact .same _

lemma chosen_twin (hI : Inv w) (hI' : Inv w') (hex : ExactLimits w) (hex' : ExactLimits w')
    (h : Twin w w') {m : ExpId × MatchReport} (hm : chosen w c call = some m) :
    ∃ m', chosen w' c call = some m' ∧ m'.1 = m.1 := by
  rcases h.collectMatches c call with ⟨events, exit, hw, hw'⟩ | ⟨events, b, b', hw, hw', hmask⟩
  · simp [chosen, hw] at hm
  simp only [maskBuckets, Buckets.mk.injEq] at hmask
  rcases pick_twin hI hI' hex hex' (collectMatches_ok hw) (collectMatches_ok hw') hmask.1 with
    ⟨hnil, hnil'⟩ | ⟨n, n', hne, hne', hpick, hpick', hn⟩
  · simp [chosen, hw, hnil, pickBestMatch] at hm
  · obtain rfl : n = m := by simpa [chosen, hw, hpick] using hm
    exact ⟨n', by simp [chosen, hw', hpick'], (congrArg Prod.fst hn).symm⟩

lemma step_twin {a : Action σ Call Ret Exc} {w₁ : World σ Call Ret Exc} (hI : Inv w) (hI' : Inv w')
    (hex : ExactLimits w) (hex' : ExactLimits w') (h : Twin w w') (hst : step w a = some w₁) :
    ∃ w₁', step w' a = some w₁' ∧ Twin w₁ w₁' := by
  rcases step_cases hst with ⟨b, loc, e, rfl, hfin⟩ | ⟨c, call, m, rfl, hm, rfl⟩ |
    ⟨env, rfl, rfl⟩ | ⟨c, e, rfl, hmem, rfl⟩
  · obtain ⟨hworld, hres⟩ := h.finalize b loc
    rw [hfin] at hworld hres
    rcases hfin' : b.finalize loc w' with ⟨w₁', r'⟩
    rw [hfin'] at hworld hres
    obtain rfl : .ok e = r' := hres
    exact ⟨w₁', by simp only [step, hfin'], hworld⟩
  · obtain ⟨m', hm', heq⟩ := chosen_twin hI hI' hex hex' h hm
    refine ⟨w'.consumeControl m'.1, by simp only [step, hm', Option.map_some], ?_⟩
    rw [heq]
    exact h.consumeControl m.1
  · exact ⟨_, rfl, h.withEnv env⟩
  · have hmem' : e ∈ w'.colls c := by rw [← h.colls]; exact hmem
    exact ⟨_, by simp only [step, if_pos hmem'], (h.remove c e).1⟩

lemma run_twin {run : List (Action σ Call Ret Exc)} {w₁ : World σ Call Ret Exc} (hI : Inv w)
    (hI' : Inv w') (hex : ExactLimits w) (hex' : ExactLimits w') (hrun : ∀ a ∈ run, ExactAction a)
    (h : Twin w w') (hrep : (machine σ Call Ret Exc).replay w run = some w₁) :
    ∃ w₁', (machine σ Call Ret Exc).replay w' run = some w₁' ∧ Twin w₁ w₁' ∧ Inv w₁ ∧ Inv w₁' ∧
      ExactLimits w₁ ∧ ExactLimits w₁' := by
  refine Machine.exists_replay_of_lockstep (N := machine σ Call Ret Exc)
    (R := fun w w' => Twin w w' ∧ Inv w ∧ Inv w' ∧ ExactLimits w ∧ ExactLimits w')
    (Q := fun a a' => a = a' ∧ ExactAction a) ?_ ⟨h, hI, hI', hex, hex'⟩
    (List.forall₂_same.mpr fun a ha => ⟨rfl, hrun a ha⟩) hrep
  rintro w w' a _ w₁ ⟨h, hI, hI', hex, hex'⟩ ⟨rfl, ha⟩ hst
  obtain ⟨w₁', hst', htwin⟩ := step_twin hI hI' hex hex' h hst
  exact ⟨w₁', hst', htwin, hI.step hst, hI'.step hst', exactLimits_step hI hex ha hst,
    exactLimits_step hI' hex' ha hst'⟩

/-- **With exact limits the flavour of the sequences is irrelevant.** In every run of a plan
whose sequenced expectations all have exact limits, one expectation per sequence is applicable
at most, every accepted call goes to the newest full match, and the same run with any other
choice of flavours is there too: it has the same counters, every call has the same outcome,
and so have the removal of every expectation and the destruction of every sequence. -/
theorem flavour_irrelevant {reporter : Reporter Call Exc} {env : σ} {flavour : Tag → Strategy}
    (flavour' : Tag → Strategy) {run : List (Action σ Call Ret Exc)}
    (hplan : ∀ a ∈ run, ExactAction a)
    (hrun : (machine σ Call Ret Exc).replay (start reporter env flavour) run = some w) :
    (∀ {e p e' p' tag id id'}, Attached w e p tag id → Attached w e' p' tag id' →
      p.isApplicable w.seqs = true → p'.isApplicable w.seqs = true → e = e') ∧
    (∀ c call m, chosen w c call = some m → NewestMatch w c call m.1) ∧
    ∃ w', (machine σ Call Ret Exc).replay (start reporter env flavour') run = some w' ∧
      w.exps = w'.exps ∧
      (∀ c call, SameOutcome w c call (w.handleCall c call) (w'.handleCall c call)) ∧
      (∀ c e, (w.remove c e).2 = (w'.remove c e).2) ∧
      ∀ tag, (w.seqs tag).destroy = (w'.seqs tag).destroy := by
  have hex₀ : ∀ flavour : Tag → Strategy,
      ExactLimits (start reporter env flavour : World σ Call Ret Exc) := by
    intro flavour e p tag id ha
    have hp := ha.policy
    simp [policyOf, start] at hp
  have htwin : Twin (start reporter env flavour : World σ Call Ret Exc)
      (start reporter env flavour') :=
    ⟨rfl, rfl, fun _ => ⟨rfl, rfl⟩, rfl, rfl⟩
  obtain ⟨w', hrun', h, hI, hI', hex, hex'⟩ := run_twin (Inv.fresh (start_fresh _ _ _))
    (Inv.fresh (start_fresh _ _ _)) (hex₀ flavour) (hex₀ flavour') hplan htwin hrun
  exact ⟨fun ha ha' happ happ' => applicable_unique hI hex ha ha' happ happ',
    fun c call m hm => chosen_newest hI hex hm, w', hrun', h.exps,
    handleCall_twin hI hI' hex hex' h, fun c e => (h.remove c e).2, fun tag => (h.seqs tag).destroy⟩

/-- Two expectations with exact limits in a sequence, an optional one in none, and two calls. -/
def exactPlan : List (Action Unit Unit Unit Unit) :=
  [.create (anyCall 0 1 1 [0] ()) ⟨"", 0⟩,
    .create (anyCall 0 0 1 [] ()) ⟨"", 0⟩,
    .create (anyCall 0 2 2 [1, 0] ()) ⟨"", 0⟩,
    .commit 0 (), .commit 0 ()]

theorem flavour_irrelevant_exactPlan :
    ∃ w w', (machine Unit Unit Unit Unit).replay (start (quietReporter ()) () fun _ => .lazy)
        exactPlan = some w ∧
      (machine Unit Unit Unit Unit).replay (start (quietReporter ()) () fun _ => .greedy)
        exactPlan = some w' ∧
      w.exps = w'.exps ∧ SameOutcome w 0 () (w.handleCall 0 ()) (w'.handleCall 0 ()) := by
  have hplan : ∀ a ∈ exactPlan, ExactAction a := by
    have hone : (limits 1 1).min = (limits 1 1).max := rfl
    have htwo : (limits 2 2).min = (limits 2 2).max := rfl
    simp [exactPlan, ExactAction, anyCall, hone, htwo]
  have h : ((machine Unit Unit Unit Unit).replay (start (quietReporter ()) () fun _ => .lazy)
      exactPlan).isSome = true := by decide +kernel
  obtain ⟨w, hrun⟩ := Option.isSome_iff_exists.mp h
  obtain ⟨-, -, w', hrun', hexps, hcalls, -⟩ :=
    flavour_irrelevant (fun _ => .greedy) hplan hrun
  exact ⟨w, w', hrun, hrun', hexps, hcalls 0 ()⟩

/-- An expectation with exact limits in a sequence that objects to every call. -/
def refusing : Builder Unit Unit Unit (Thrown Unit) :=
  { anyCall 0 1 1 [0] () with
    expectationPolicies :=
      [⟨fun _ => true, fun _ _ => .ok false, fun _ => .ok none, fun env _ => (env, .ok ())⟩] }

/-- **The priorities do show**: under the default reporter a rejected call ends with an exception
that carries them. -/
theorem priorities_in_exceptions :
    ¬ ∀ (flavour flavour' : Tag → Strategy) (run : List (Action Unit Unit Unit (Thrown Unit)))
      (w w' : World Unit Unit Unit (Thrown Unit)), (∀ a ∈ run, ExactAction a) →
      (machine Unit Unit Unit (Thrown Unit)).replay (start (defaultReporter
        SourceLocation.fileName (fun _ => emptyCallReport) 0) () flavour) run = some w →
      (machine Unit Unit Unit (Thrown Unit)).replay (start (defaultReporter
        SourceLocation.fileName (fun _ => emptyCallReport) 0) () flavour') run = some w' →
      ∀ c call, (w.handleCall c call).2.2 = (w'.handleCall c call).2.2 := by
  intro h
  let begin (strategy : Strategy) : World Unit Unit Unit (Thrown Unit) :=
    start (defaultReporter SourceLocation.fileName (fun _ => emptyCallReport) 0) ()
      fun _ => strategy
  have hrun : ∀ strategy, ((machine Unit Unit Unit (Thrown Unit)).replay (begin strategy)
      [.create refusing ⟨"", 0⟩]).isSome = true := by rintro (_ | _) <;> decide +kernel
  obtain ⟨w, hw⟩ := Option.isSome_iff_exists.mp (hrun .lazy)
  obtain ⟨w', hw'⟩ := Option.isSome_iff_exists.mp (hrun .greedy)
  have heq := h _ _ _ w w' (by simp [ExactAction, refusing, anyCall, limits]) hw hw' 0 ()
  revert heq
  cases hw
  cases hw'
  decide +kernel

end MimicPP.Exact

import Mathlib.Data.List.Forall2
import MimicPP.Ratings
import MimicPP.Order

/-!
Whether it matters in which order an expectation lists its sequences.

Attaching, rating, consuming and updating all iterate in that order. But they do the same to
every listed sequence, and no sequence is listed twice, so two plans that differ in nothing
else run in lockstep, with worlds that differ in the order of the entries of control policies.
-/

namespace MimicPP.Permuted

open MimicPP.Noexcept MimicPP.Sequence MimicPP.Reports MimicPP.Control MimicPP.Expectation
open MimicPP.Matching MimicPP.Transition MimicPP.Runs MimicPP.Invariant MimicPP.Ratings
open MimicPP.Order

variable {σ Call Ret Exc : Type}

/-- The same action, up to the order in which a created expectation lists its sequences. -/
inductive Relisted : Action σ Call Ret Exc → Action σ Call Ret Exc → Prop
  | create (b : Builder σ Call Ret Exc) (loc : SourceLocation) {config : Config} :
    b.sequenceConfig.sequences.Perm config.sequences →
      Relisted (.create b loc) (.create { b with sequenceConfig := config } loc)
  | same (a : Action σ Call Ret Exc) : Relisted a a

/-! ### What is reported, up to the order of ratings and tags -/

inductive SameControl : ControlState → ControlState → Prop
  | inapplicable (min max count : ℕ) {ratings ratings' : List Rating} {tags tags' : List Tag} :
    ratings.Perm ratings' → tags.Perm tags' →
      SameControl (.inapplicable min max count ratings tags)
        (.inapplicable min max count ratings' tags')
  | applicable (min max count : ℕ) {ratings ratings' : List Rating} :
    ratings.Perm ratings' → (tags ratings).Nodup →
      SameControl (.applicable min max count ratings) (.applicable min max count ratings')
  | saturated (min max count : ℕ) {tags tags' : List Tag} :
    tags.Perm tags' → SameControl (.saturated min max count tags) (.saturated min max count tags')

structure SameReport (r r' : MatchReport) : Prop where
  sourceLocation : r.sourceLocation = r'.sourceLocation
  finalizeReport : r.finalizeReport = r'.finalizeReport
  controlReport : SameControl r.controlReport r'.controlReport
  expectationReports : r.expectationReports = r'.expectationReports

structure SameMatch (m m' : ExpId × MatchReport) : Prop where
  fst : m.1 = m'.1
  snd : SameReport m.2 m'.2

structure SameBuckets (b b' : Buckets) : Prop where
  fullMatches : List.Forall₂ SameMatch b.fullMatches b'.fullMatches
  noMatches : List.Forall₂ SameReport b.noMatches b'.noMatches
  inapplicableMatches : List.Forall₂ SameReport b.inapplicableMatches b'.inapplicableMatches

inductive SameEvent : Event Call Exc → Event Call Exc → Prop
  | same (event : Event Call Exc) : SameEvent event event
  | fullMatch (call : Call) {r r' : MatchReport} :
    SameReport r r' → SameEvent (.fullMatch call r) (.fullMatch call r')
  | inapplicableMatches (call : Call) {rs rs' : List MatchReport} :
    List.Forall₂ SameReport rs rs' →
      SameEvent (.inapplicableMatches call rs) (.inapplicableMatches call rs')
  | noMatches (call : Call) {rs rs' : List MatchReport} :
    List.Forall₂ SameReport rs rs' → SameEvent (.noMatches call rs) (.noMatches call rs')

/-- Only numbers of sequences are printed. -/
lemma SameControl.print {s s' : ControlState} (h : SameControl s s') :
    controlStatePrinter s = controlStatePrinter s' := by
  cases h with
  | inapplicable _ _ _ hr ht => simp only [controlStatePrinter, hr.length_eq, ht.length_eq]
  | applicable _ _ _ hr _ => simp only [controlStatePrinter, hr.length_eq]
  | saturated _ _ _ ht => simp only [controlStatePrinter, ht.length_eq]

lemma SameControl.isApplicable {s s' : ControlState} (h : SameControl s s') :
    s.isApplicable = s'.isApplicable := by
  cases h <;> rfl

namespace SameReport

variable {r r' : MatchReport}

lemma evaluate (h : SameReport r r') : evaluateMatchReport r = evaluateMatchReport r' := by
  rw [evaluateMatchReport, evaluateMatchReport, h.expectationReports,
    h.controlReport.isApplicable]

lemma sequenceRatings (h : SameReport r r') :
    (Reports.sequenceRatings r = none ∧ Reports.sequenceRatings r' = none) ∨
      ∃ rs rs', Reports.sequenceRatings r = some rs ∧ Reports.sequenceRatings r' = some rs' ∧
        rs.Perm rs' ∧ (tags rs).Nodup := by
  have hcontrol := h.controlReport
  rw [Reports.sequenceRatings, Reports.sequenceRatings]
  generalize r.controlReport = s at hcontrol
  generalize r'.controlReport = s' at hcontrol
  cases hcontrol with
  | inapplicable => exact .inl ⟨rfl, rfl⟩
  | applicable _ _ _ hr hnd => exact .inr ⟨_, _, rfl, rfl, hr, hnd⟩
  | saturated => exact .inl ⟨rfl, rfl⟩

end SameReport

/-! ### The comparison of ratings -/

variable {lhs lhs' rhs rhs' : List Rating} {seqs : Sequences} {tag : Tag}

lemma find?_tag_eq_some {r : Rating} (hnd : (tags rhs).Nodup) :
    (rhs.find? fun r => r.tag == tag) = some r ↔ r ∈ rhs ∧ r.tag = tag := by
  constructor
  · intro h
    exact ⟨List.mem_of_find?_eq_some h, by simpa using List.find?_some h⟩
  · rintro ⟨hmem, rfl⟩
    have hsome : (rhs.find? fun r' => r'.tag == r.tag).isSome = true :=
      find?_tag_isSome.mpr (List.mem_map_of_mem hmem)
    obtain ⟨r', hr'⟩ := Option.isSome_iff_exists.mp hsome
    have htag : r'.tag = r.tag := by simpa using List.find?_some hr'
    obtain rfl : r' = r :=
      List.inj_on_of_nodup_map hnd (List.mem_of_find?_eq_some hr') hmem htag
    exact hr'

/-- The counterpart of a rating does not depend on the order. -/
lemma vote_perm (h : rhs.Perm rhs') (hnd : (tags rhs).Nodup) (l : Rating) :
    vote rhs l = vote rhs' l := by
  have hnd' : (tags rhs').Nodup := (h.map _).nodup_iff.mp hnd
  have hfind : (rhs.find? fun r => r.tag == l.tag) = rhs'.find? fun r => r.tag == l.tag := by
    refine Option.ext fun r => ?_
    rw [find?_tag_eq_some hnd, find?_tag_eq_some hnd', h.mem_iff]
  rw [vote, vote, hfind]

/-- **The comparison does not depend on the order** on either side, though it may end before
all votes are counted. -/
theorem hasBetterRating_perm (hl : lhs.Perm lhs') (hr : rhs.Perm rhs') (hnd : (tags rhs).Nodup) :
    hasBetterRating lhs rhs = hasBetterRating lhs' rhs' := by
  have hsub : tags lhs ⊆ tags rhs ↔ tags lhs' ⊆ tags rhs' := by
    rw [List.subset_def, List.subset_def]
    refine forall_congr' fun t => ?_
    rw [tags, tags, tags, tags, (hl.map _).mem_iff, (hr.map _).mem_iff]
  have hsum : (lhs.map (vote rhs)).sum = (lhs'.map (vote rhs')).sum := by
    rw [List.map_congr_left fun l _ => vote_perm hr hnd l]
    exact (hl.map _).sum_eq
  rw [Bool.eq_iff_iff, ← Bool.not_eq_false, ← Bool.not_eq_false, not_iff_not,
    hasBetterRating_eq_false, hasBetterRating_eq_false, hsub, hsum]

lemma eq_nil_iff {α β : Type*} {R : α → β → Prop} {l : List α} {l' : List β}
    (h : List.Forall₂ R l l') : l = [] ↔ l' = [] := by
  rw [← List.length_eq_zero_iff, h.length_eq, List.length_eq_zero_iff]

lemma pickBestLoop_same {best best' : ExpId × MatchReport} {ms ms' : List (ExpId × MatchReport)}
    (hbest : SameMatch best best') (h : List.Forall₂ SameMatch ms ms') :
    Option.Rel SameMatch (pickBestLoop best ms) (pickBestLoop best' ms') := by
  induction h generalizing best best' with
  | nil => exact .some hbest
  | @cons m m' ms ms' hm _ ih =>
    rw [pickBestLoop, pickBestLoop]
    rcases hbest.snd.sequenceRatings with ⟨hl, hl'⟩ | ⟨lhs, lhs', hl, hl', hlhs, -⟩
    · rw [hl, hl']
      exact .none
    · rcases hm.snd.sequenceRatings with ⟨hr, hr'⟩ | ⟨rhs, rhs', hr, hr', hrhs, hnd⟩
      · rw [hl, hl', hr, hr']
        exact .none
      · rw [hl, hl', hr, hr']
        simp only [Option.bind_some]
        rw [hasBetterRating_perm hlhs hrhs hnd]
        split
        · exact ih hbest
        · exact ih hm

lemma pickBestMatch_same {ms ms' : List (ExpId × MatchReport)}
    (h : List.Forall₂ SameMatch ms ms') :
    Option.Rel SameMatch (pickBestMatch ms) (pickBestMatch ms') := by
  cases h with
  | nil => exact .none
  | cons hbest h => exact pickBestLoop_same hbest h

/-! ### Control policies -/

/-- Two control policies that differ in the order of their sequences at most. -/
structure SamePolicy (p p' : ControlPolicy) : Prop where
  min : p.min = p'.min
  max : p.max = p'.max
  count : p.count = p'.count
  sequences : p.sequences.Perm p'.sequences
  nodup : (p.sequences.map Prod.fst).Nodup

/-- What is done to every listed sequence is done in any order. -/
lemma applyEach_perm (f : BasicSequence → Id → BasicSequence) (seqs : Sequences)
    {l l' : List (Tag × Id)} (h : l.Perm l') (hnd : (l.map Prod.fst).Nodup) :
    applyEach f seqs l = applyEach f seqs l' := by
  have hnd' : (l'.map Prod.fst).Nodup := (h.map _).nodup_iff.mp hnd
  funext tag
  by_cases hmem : ∃ id, (tag, id) ∈ l
  · obtain ⟨id, hid⟩ := hmem
    rw [applyEach_of_mem f hnd hid, applyEach_of_mem f hnd' (h.mem_iff.mp hid)]
  · have hout : ∀ id, (tag, id) ∉ l := not_exists.mp hmem
    rw [applyEach_of_not_mem f hout,
      applyEach_of_not_mem f fun id hid => hout id (h.mem_iff.mpr hid)]

lemma rate_perm (seqs : Sequences) {l l' : List (Tag × Id)} (h : l.Perm l') :
    (rate seqs l).Perm (rate seqs l') :=
  h.filterMap _

lemma refuse_perm (seqs : Sequences) {l l' : List (Tag × Id)} (h : l.Perm l') :
    (refuse seqs l).Perm (refuse seqs l') :=
  (h.filter _).map _

/-- Each listed sequence gives one rating at most. -/
lemma tags_rate_sublist (seqs : Sequences) (l : List (Tag × Id)) :
    (tags (rate seqs l)).Sublist (l.map Prod.fst) := by
  induction l with
  | nil => exact .slnil
  | cons e l ih =>
    simp only [rate, tags, List.filterMap_cons, List.map_cons] at ih ⊢
    rcases (seqs e.1).priorityOf e.2 with _ | priority
    · exact ih.cons _
    · exact ih.cons_cons _

namespace SamePolicy

variable {p p' : ControlPolicy}

lemma updateSequenceStates (h : SamePolicy p p') (seqs : Sequences) :
    p.updateSequenceStates seqs = p'.updateSequenceStates seqs := by
  rw [ControlPolicy.updateSequenceStates, ControlPolicy.updateSequenceStates, h.min, h.max,
    h.count, applyEach_perm _ _ h.sequences h.nodup, applyEach_perm _ _ h.sequences h.nodup]

lemma increment (h : SamePolicy p p') : SamePolicy p.increment p'.increment :=
  ⟨h.min, h.max, congrArg (· + 1) h.count, h.sequences, h.nodup⟩

lemma consume (h : SamePolicy p p') (seqs : Sequences) :
    (p.consume seqs).2 = (p'.consume seqs).2 := by
  rw [ControlPolicy.consume_snd, ControlPolicy.consume_snd, h.increment.updateSequenceStates,
    applyEach_perm _ _ h.sequences h.nodup]

lemma isSatisfied (h : SamePolicy p p') : p.isSatisfied = p'.isSatisfied := by
  rw [ControlPolicy.isSatisfied, ControlPolicy.isSatisfied, h.min, h.max, h.count]

lemma state (h : SamePolicy p p') (seqs : Sequences) :
    SameControl (p.state seqs) (p'.state seqs) := by
  have hrefuse := refuse_perm seqs h.sequences
  have hrate := rate_perm seqs h.sequences
  have hnil : refuse seqs p.sequences = [] ↔ refuse seqs p'.sequences = [] := by
    rw [← List.length_eq_zero_iff, hrefuse.length_eq, List.length_eq_zero_iff]
  rw [ControlPolicy.state, ControlPolicy.state, makeControlState, makeControlState, h.min, h.max,
    h.count]
  simp only [ne_eq, hnil]
  split
  · exact .saturated _ _ _ (h.sequences.map _)
  · split
    · exact .inapplicable _ _ _ hrate hrefuse
    · exact .applicable _ _ _ hrate ((tags_rate_sublist _ _).nodup h.nodup)

end SamePolicy

/-- **Attaching does not depend on the order**: it succeeds for both lists or for neither, and
leaves the same sequences behind where it succeeds. -/
theorem construct_perm {config config' : Config} (times : TimesConfig) (seqs : Sequences)
    (h : config.sequences.Perm config'.sequences) :
    (∃ seqs' p p', ControlPolicy.construct seqs times config = (seqs', .ok p) ∧
        ControlPolicy.construct seqs times config' = (seqs', .ok p') ∧ SamePolicy p p') ∨
      ((ControlPolicy.construct seqs times config).2 = .error .terminate ∧
        (ControlPolicy.construct seqs times config').2 = .error .terminate) := by
  rcases hcon : ControlPolicy.construct seqs times config with ⟨t, exit | p⟩
  · obtain ⟨rfl, tag, htag, hfull⟩ := ControlPolicy.construct_eq_error hcon
    rcases hcon' : ControlPolicy.construct seqs times config' with ⟨t', exit' | p'⟩
    · obtain ⟨rfl, -⟩ := ControlPolicy.construct_eq_error hcon'
      exact .inr ⟨rfl, rfl⟩
    · have hroom := ((ControlPolicy.construct_eq_ok hcon').2.1 tag (h.mem_iff.mp htag)).1
      omega
  · obtain ⟨hp, hin, hout⟩ := ControlPolicy.construct_eq_ok hcon
    rcases hcon' : ControlPolicy.construct seqs times config' with ⟨t', exit' | p'⟩
    · obtain ⟨-, tag, htag, hfull⟩ := ControlPolicy.construct_eq_error hcon'
      have hroom := (hin tag (h.mem_iff.mpr htag)).1
      omega
    · obtain ⟨hp', hin', hout'⟩ := ControlPolicy.construct_eq_ok hcon'
      have hstate : p.entryState = p'.entryState := by rw [hp, hp']; rfl
      have hseqs : t' = t := by
        funext tag
        by_cases htag : tag ∈ config.sequences
        · rw [(hin tag htag).2, (hin' tag (h.mem_iff.mp htag)).2, hstate]
        · rw [hout tag htag, hout' tag fun hmem => htag (h.mem_iff.mpr hmem)]
      subst hseqs
      refine .inl ⟨t', p, p', rfl, rfl, ?_⟩
      subst hp hp'
      refine ⟨rfl, rfl, rfl, h.map _, ?_⟩
      simpa [Function.comp_def] using config.nodup

/-! ### Expectations and worlds -/

/-- Two expectations that differ in the order of their sequences at most. -/
structure SameExpectation (x x' : BasicExpectation σ Call Ret Exc) : Prop where
  sourceLocation : x.sourceLocation = x'.sourceLocation
  controlPolicy : SamePolicy x.controlPolicy x'.controlPolicy
  policies : x.policies = x'.policies
  finalizer : x.finalizer = x'.finalizer

namespace SameExpectation

variable {x x' : BasicExpectation σ Call Ret Exc}

lemma report (h : SameExpectation x x') (env : σ) (seqs : Sequences) :
    x.report env seqs = x'.report env seqs := by
  simp only [BasicExpectation.report, BasicExpectation.describeTimes, h.sourceLocation,
    h.policies, (h.controlPolicy.state seqs).print]

lemma isSatisfied (h : SameExpectation x x') (env : σ) :
    x.isSatisfied env = x'.isSatisfied env := by
  rw [BasicExpectation.isSatisfied, BasicExpectation.isSatisfied, h.controlPolicy.isSatisfied,
    h.policies]

lemma matchesCall (h : SameExpectation x x') (env : σ) (seqs : Sequences) (call : Call) :
    (∃ exc, x.matchesCall env seqs call = .error exc ∧ x'.matchesCall env seqs call = .error exc) ∨
      ∃ r r', x.matchesCall env seqs call = .ok r ∧ x'.matchesCall env seqs call = .ok r' ∧
        SameReport r r' := by
  rw [BasicExpectation.matchesCall, BasicExpectation.matchesCall, ← h.policies]
  rcases BasicExpectation.policyReports env call x.policies with exc | reports
  · exact .inl ⟨exc, rfl, rfl⟩
  · exact .inr ⟨_, _, rfl, rfl, congrArg some h.sourceLocation, rfl, h.controlPolicy.state seqs,
      rfl⟩

end SameExpectation

/-- Two worlds whose expectations differ in the order of their sequences at most, and nothing
else does. -/
structure SameWorld (w w' : World σ Call Ret Exc) : Prop where
  reporter : w.reporter = w'.reporter
  env : w.env = w'.env
  seqs : w.seqs = w'.seqs
  length : w.exps.length = w'.exps.length
  exps : ∀ e : ℕ, Option.Rel SameExpectation w.exps[e]? w'.exps[e]?
  colls : w.colls = w'.colls

lemma SameBuckets.emplaceBack {b b' : Buckets} {e : ExpId} {r r' : MatchReport}
    (hb : SameBuckets b b') (hr : SameReport r r') :
    SameBuckets (b.emplaceBack e r) (b'.emplaceBack e r') := by
  rw [Buckets.emplaceBack, Buckets.emplaceBack, hr.evaluate]
  cases evaluateMatchReport r' with
  | none => exact ⟨hb.fullMatches, List.rel_append hb.noMatches (.cons hr .nil),
      hb.inapplicableMatches⟩
  | inapplicable => exact ⟨hb.fullMatches, hb.noMatches,
      List.rel_append hb.inapplicableMatches (.cons hr .nil)⟩
  | full => exact ⟨List.rel_append hb.fullMatches (.cons ⟨rfl, hr⟩ .nil), hb.noMatches,
      hb.inapplicableMatches⟩

/-- What a call that is not accepted ends with is up to the reporter, which gets the same
reports. -/
inductive SameResult (reporter : Reporter Call Exc) (call : Call) :
    Except (Exit Exc) Ret → Except (Exit Exc) Ret → Prop
  | same (r : Except (Exit Exc) Ret) : SameResult reporter call r r
  | inapplicableMatches {rs rs' : List MatchReport} : List.Forall₂ SameReport rs rs' →
      SameResult reporter call (.error (reporter.reportInapplicableMatches call rs))
        (.error (reporter.reportInapplicableMatches call rs'))
  | noMatches {rs rs' : List MatchReport} : List.Forall₂ SameReport rs rs' →
      SameResult reporter call (.error (reporter.reportNoMatches call rs))
        (.error (reporter.reportNoMatches call rs'))

/-- Two outcomes of a call that differ in the order of ratings and tags at most: the worlds left
behind, the expectations consumed, the reports, and what comes back. -/
structure SameOutcome (reporter : Reporter Call Exc) (call : Call)
    (r r' : World σ Call Ret Exc × List (Event Call Exc) × Except (Exit Exc) Ret) : Prop where
  world : SameWorld r.1 r'.1
  events : List.Forall₂ SameEvent r.2.1 r'.2.1
  result : SameResult reporter call r.2.2 r'.2.2

namespace SameWorld

variable {w w' : World σ Call Ret Exc} {c : CollId} {call : Call} {e : ℕ}

lemma exps_cases (h : SameWorld w w') (e : ℕ) :
    (w.exps[e]? = none ∧ w'.exps[e]? = none) ∨
      ∃ x x', w.exps[e]? = some x ∧ w'.exps[e]? = some x' ∧ SameExpectation x x' := by
  have hrel := h.exps e
  generalize w.exps[e]? = o at hrel
  generalize w'.exps[e]? = o' at hrel
  cases hrel with
  | some hx => exact .inr ⟨_, _, rfl, rfl, hx⟩
  | none => exact .inl ⟨rfl, rfl⟩

lemma stored (h : SameWorld w w') (c : CollId) :
    List.Forall₂ (fun p p' => p.1 = p'.1 ∧ SameExpectation p.2 p'.2) (w.stored c)
      (w'.stored c) := by
  rw [World.stored, World.stored, ← h.colls]
  refine List.rel_filterMap (R := Eq) ?_ (List.forall₂_refl _)
  rintro e _ rfl
  rcases h.exps_cases e with ⟨hx, hx'⟩ | ⟨x, x', hx, hx', hsame⟩
  · simp only [hx, hx', Option.map_none]
    exact .none
  · simp only [hx, hx', Option.map_some]
    exact .some ⟨rfl, hsame⟩

lemma makeMatchReport {x x' : BasicExpectation σ Call Ret Exc} (h : SameWorld w w')
    (hx : SameExpectation x x') (call : Call) (e : ExpId) :
    (∃ events r, w.makeMatchReport call e x = (events, r) ∧
        w'.makeMatchReport call e x' = (events, r) ∧ ∀ report, r ≠ .ok (some report)) ∨
      ∃ r r', w.makeMatchReport call e x = ([], .ok (some r)) ∧
        w'.makeMatchReport call e x' = ([], .ok (some r')) ∧ SameReport r r' := by
  rcases hx.matchesCall w.env w.seqs call with ⟨exc, hm, hm'⟩ | ⟨r, r', hm, hm', hr⟩
  · refine .inl ⟨_, _, rfl, ?_, makeMatchReport_of_error hm⟩
    simp only [World.makeMatchReport, ← h.env, ← h.seqs, ← h.reporter, ← hx.report, hm, hm']
  · rw [World.makeMatchReport, World.makeMatchReport, ← h.env, ← h.seqs, hm, hm']
    exact .inr ⟨r, r', rfl, rfl, hr⟩

lemma collectMatches (h : SameWorld w w') (c : CollId) (call : Call) :
    (∃ events exit, w.collectMatches c call = (events, .error exit) ∧
        w'.collectMatches c call = (events, .error exit)) ∨
      ∃ events b b', w.collectMatches c call = (events, .ok b) ∧
        w'.collectMatches c call = (events, .ok b') ∧ SameBuckets b b' := by
  refine matchLoop_lockstep ?_ (List.rel_reverse (h.stored c)) ⟨.nil, .nil, .nil⟩
  rintro ⟨e, x⟩ ⟨e', x'⟩ ⟨heq, hx⟩
  obtain rfl : e = e' := heq
  rcases h.makeMatchReport hx call e with hnone | ⟨r, r', hm, hm', hr⟩
  · exact .inl hnone
  · exact .inr ⟨r, r', hm, hm', fun _ _ hb => hb.emplaceBack hr⟩

lemma consumeControl (h : SameWorld w w') (e : ExpId) :
    SameWorld (w.consumeControl e) (w'.consumeControl e) := by
  rcases h.exps_cases e with ⟨hx, hx'⟩ | ⟨x, x', hx, hx', hsame⟩
  · simp only [World.consumeControl, hx, hx']
    exact h
  · refine ⟨?_, ?_, ?_, ?_, fun e' => ?_, ?_⟩
    · rw [consumeControl_of_some hx, consumeControl_of_some hx']
      exact h.reporter
    · rw [consumeControl_env, consumeControl_env, h.env]
    · rw [consumeControl_of_some hx, consumeControl_of_some hx']
      simp only [← h.seqs, hsame.controlPolicy.consume]
    · rw [consumeControl_length, consumeControl_length, h.length]
    · by_cases he : e' = e
      · subst he
        rw [consumeControl_exps_self hx, consumeControl_exps_self hx']
        exact .some ⟨hsame.sourceLocation, hsame.controlPolicy.increment, hsame.policies,
          hsame.finalizer⟩
      · rw [consumeControl_exps_of_ne he, consumeControl_exps_of_ne he]
        exact h.exps e'
    · rw [consumeControl_colls, consumeControl_colls, h.colls]

lemma withEnv (h : SameWorld w w') (env : σ) :
    SameWorld { w with env := env } { w' with env := env } :=
  ⟨h.reporter, rfl, h.seqs, h.length, h.exps, h.colls⟩

lemma consumeAndFinalize (h : SameWorld w w') (call : Call) (e : ExpId) :
    SameWorld (w.consumeAndFinalize call e).1 (w'.consumeAndFinalize call e).1 ∧
      (w.consumeAndFinalize call e).2 = (w'.consumeAndFinalize call e).2 := by
  have hcons := h.consumeControl e
  rcases h.exps_cases e with ⟨hx, hx'⟩ | ⟨x, x', hx, hx', hsame⟩
  · simp only [World.consumeAndFinalize, hx, hx']
    exact ⟨h, trivial⟩
  · rcases hpol : consumePolicies call e 0 x.policies (w.consumeControl e).env
      with ⟨env, events, r⟩
    have hpol' : consumePolicies call e 0 x'.policies (w'.consumeControl e).env =
        (env, events, r) := by rw [← hcons.env, ← hsame.policies, hpol]
    rcases r with exit | u
    · simp only [World.consumeAndFinalize, hx, hx', hpol, hpol']
      exact ⟨hcons.withEnv env, trivial⟩
    · simp only [World.consumeAndFinalize, hx, hx', hpol, hpol', hsame.finalizer]
      exact ⟨hcons.withEnv _, trivial⟩

/-- What the removal of an expectation reports is the same to the letter. -/
lemma remove (h : SameWorld w w') (c : CollId) (e : ExpId) :
    SameWorld (w.remove c e).1 (w'.remove c e).1 ∧ (w.remove c e).2 = (w'.remove c e).2 := by
  have hsame : SameWorld { w with colls := Function.update w.colls c ((w.colls c).erase e) }
      { w' with colls := Function.update w'.colls c ((w'.colls c).erase e) } :=
    ⟨h.reporter, h.env, h.seqs, h.length, h.exps, by rw [h.colls]⟩
  rcases h.exps_cases e with ⟨hx, hx'⟩ | ⟨x, x', hx, hx', hxx⟩
  · simp only [World.remove, hx, hx']
    exact ⟨hsame, trivial⟩
  · simp only [World.remove, hx, hx', ← hxx.isSatisfied, ← hxx.report, ← h.env, ← h.seqs,
      ← h.reporter] at hsame ⊢
    split <;> exact ⟨hsame, rfl⟩

/-- A creation succeeds in both worlds or in neither. -/
lemma finalize (h : SameWorld w w') (b : Builder σ Call Ret Exc) {config : Config}
    (hperm : b.sequenceConfig.sequences.Perm config.sequences) (loc : SourceLocation) :
    (∃ w₁ w₁' e, b.finalize loc w = (w₁, .ok e) ∧
        { b with sequenceConfig := config }.finalize loc w' = (w₁', .ok e) ∧ SameWorld w₁ w₁') ∨
      ((b.finalize loc w).2 = .error .terminate ∧
        ({ b with sequenceConfig := config }.finalize loc w').2 = .error .terminate) := by
  rcases construct_perm b.timesConfig w.seqs hperm with
    ⟨seqs, p, p', hcon, hcon', hp⟩ | ⟨hcon, hcon'⟩
  · refine .inl ⟨_, _, w.exps.length, by simp only [Builder.finalize, hcon]; rfl,
      by simp only [Builder.finalize, ← h.seqs, hcon', ← h.length]; rfl, ?_⟩
    refine ⟨h.reporter, h.env, rfl, by simp [World.push, h.length], fun e => ?_,
      by simp [World.push, h.colls, h.length]⟩
    simp only [World.push]
    rcases Nat.lt_trichotomy e w.exps.length with he | rfl | he
    · rw [List.getElem?_append_left he, List.getElem?_append_left (h.length ▸ he)]
      exact h.exps e
    · rw [List.getElem?_concat_length, h.length, List.getElem?_concat_length]
      exact .some ⟨rfl, hp, rfl, rfl⟩
    · rw [List.getElem?_eq_none (by simpa using Nat.succ_le_of_lt he),
        List.getElem?_eq_none (by simpa [← h.length] using Nat.succ_le_of_lt he)]
      exact .none
  · refine .inr ⟨?_, ?_⟩
    · rcases hc : ControlPolicy.construct w.seqs b.timesConfig b.sequenceConfig
        with ⟨seqs, r⟩
      rw [hc] at hcon
      obtain rfl : r = .error .terminate := hcon
      simp only [Builder.finalize, hc]
    · rcases hc : ControlPolicy.construct w.seqs b.timesConfig config with ⟨seqs, r⟩
      rw [hc] at hcon'
      obtain rfl : r = .error .terminate := hcon'
      simp only [Builder.finalize, ← h.seqs, hc]

/-- A call picks, or is rejected for the same reason. -/
lemma handleCall (h : SameWorld w w') (c : CollId) (call : Call) :
    SameOutcome w.reporter call (w.handleCall c call) (w'.handleCall c call) := by
  have hsame : ∀ events : List (Event Call Exc), List.Forall₂ SameEvent events events :=
    fun events => List.forall₂_same.mpr fun event _ => .same event
  rcases h.collectMatches c call with ⟨events, exit, hw, hw'⟩ | ⟨events, b, b', hw, hw', hb⟩
  · simp only [World.handleCall, hw, hw']
    exact ⟨h, hsame events, .same _⟩
  by_cases hfull : b.fullMatches = []
  · have hfull' := (eq_nil_iff hb.fullMatches).mp hfull
    by_cases hin : b.inapplicableMatches = []
    · have hin' := (eq_nil_iff hb.inapplicableMatches).mp hin
      simp only [World.handleCall, hw, hw', hfull, hfull', hin, hin', ne_eq, not_true_eq_false,
        if_false, ← h.reporter]
      exact ⟨h, List.rel_append (hsame events) (.cons (.noMatches call hb.noMatches) .nil),
        .noMatches hb.noMatches⟩
    · have hin' : b'.inapplicableMatches ≠ [] :=
        fun hnil => hin ((eq_nil_iff hb.inapplicableMatches).mpr hnil)
      simp only [World.handleCall, hw, hw', hfull, hfull', hin, ne_eq, hin', not_true_eq_false,
        not_false_eq_true, if_false, if_true, ← h.reporter]
      exact ⟨h, List.rel_append (hsame events)
        (.cons (.inapplicableMatches call hb.inapplicableMatches) .nil),
        .inapplicableMatches hb.inapplicableMatches⟩
  · have hfull' : b'.fullMatches ≠ [] := fun hnil => hfull ((eq_nil_iff hb.fullMatches).mpr hnil)
    have hpick := pickBestMatch_same hb.fullMatches
    simp only [World.handleCall, hw, hw', ne_eq, hfull, hfull', not_false_eq_true, if_true]
    generalize pickBestMatch b.fullMatches = o at hpick
    generalize pickBestMatch b'.fullMatches = o' at hpick
    cases hpick with
    | none => exact ⟨h, hsame events, .same _⟩
    | @some m m' hm =>
      obtain ⟨e, r⟩ := m
      obtain ⟨e', r'⟩ := m'
      obtain ⟨rfl, hr⟩ : e = e' ∧ SameReport r r' := ⟨hm.fst, hm.snd⟩
      obtain ⟨hworld, hrest⟩ := h.consumeAndFinalize call e
      rw [Prod.ext_iff] at hrest
      refine ⟨hworld, List.rel_append (hsame events) (.cons (.fullMatch call hr) ?_), ?_⟩
      · rw [← hrest.1]
        exact hsame _
      · rw [← hrest.2]
        exact .same _

lemma chosen (h : SameWorld w w') (c : CollId) (call : Call) :
    Option.Rel SameMatch (chosen w c call) (Matching.chosen w' c call) := by
  rw [Matching.chosen, Matching.chosen]
  rcases h.collectMatches c call with ⟨events, exit, hw, hw'⟩ | ⟨events, b, b', hw, hw', hb⟩
  · rw [hw, hw']
    exact .none
  · rw [hw, hw']
    exact pickBestMatch_same hb.fullMatches

lemma countOf (h : SameWorld w w') (e : ExpId) : countOf w e = Order.countOf w' e := by
  rcases h.exps_cases e with ⟨hx, hx'⟩ | ⟨x, x', hx, hx', hsame⟩
  · rw [Order.countOf, Order.countOf, policyOf, policyOf, hx, hx']
  · rw [countOf_of_policy (policyOf_of_some hx), countOf_of_policy (policyOf_of_some hx'),
      hsame.controlPolicy.count]

end SameWorld

/-! ### Two runs that list sequences in different orders -/

variable {w w' : World σ Call Ret Exc}

lemma step_same {a a' : Action σ Call Ret Exc} {w₁ : World σ Call Ret Exc} (h : SameWorld w w')
    (ha : Relisted a a') (hst : step w a = some w₁) : ∃ w₁', step w' a' = some w₁' ∧
      SameWorld w₁ w₁' := by
  cases ha with
  | @create b loc config hperm =>
    rcases h.finalize b hperm loc with ⟨w₂, w₂', e, hfin, hfin', hsame⟩ | ⟨hfin, hfin'⟩
    · simp only [step, hfin, Option.some.injEq] at hst
      subst hst
      exact ⟨w₂', by simp only [step, hfin'], hsame⟩
    · rcases hres : b.finalize loc w with ⟨w₂, r⟩
      rw [hres] at hfin
      obtain rfl : r = .error .terminate := hfin
      simp [step, hres] at hst
  | same a =>
    rcases step_cases hst with ⟨b, loc, e, rfl, hfin⟩ | ⟨c, call, m, rfl, hm, rfl⟩ |
      ⟨env, rfl, rfl⟩ | ⟨c, e, rfl, hmem, rfl⟩
    · rcases h.finalize b (List.Perm.refl _) loc with ⟨w₂, w₂', e', hok, hok', hsame⟩ | ⟨hfin', -⟩
      · obtain ⟨rfl, -⟩ := Prod.mk.inj (hok.symm.trans hfin)
        exact ⟨w₂', by simp only [step, hok'], hsame⟩
      · rw [hfin] at hfin'
        cases hfin'
    · have hrel := h.chosen c call
      rw [hm] at hrel
      rcases hm' : chosen w' c call with _ | m'
      · rw [hm'] at hrel
        cases hrel
      · rw [hm'] at hrel
        cases hrel with
        | some hmm =>
          refine ⟨w'.consumeControl m'.1, by simp only [step, hm', Option.map_some], ?_⟩
          rw [← hmm.fst]
          exact h.consumeControl m.1
    · exact ⟨_, rfl, h.withEnv env⟩
    · have hmem' : e ∈ w'.colls c := by
        rw [← h.colls]
        exact hmem
      exact ⟨_, by simp only [step, if_pos hmem'], (h.remove c e).1⟩

/-- **The order in which sequences are listed does not matter.** Whatever run a plan has, the
same plan with the sequences of each expectation listed in any other order has it too: with the
same counters, the same entries and cursors in every sequence, and the same expectations in
every collection. Every call chooses the same expectation and has the same outcome, up to the
order of ratings and tags in its reports, and every removal reports the same to the letter. -/
theorem listing_order_irrelevant {reporter : Reporter Call Exc} {env : σ}
    {flavour : Tag → Strategy} {run run' : List (Action σ Call Ret Exc)}
    (hplan : List.Forall₂ Relisted run run')
    (hrun : (machine σ Call Ret Exc).replay (start reporter env flavour) run = some w) :
    ∃ w', (machine σ Call Ret Exc).replay (start reporter env flavour) run' = some w' ∧
      (∀ e, countOf w e = countOf w' e) ∧ w.seqs = w'.seqs ∧ w.colls = w'.colls ∧
      (∀ c call, (chosen w c call).map Prod.fst = (chosen w' c call).map Prod.fst) ∧
      (∀ c call, SameOutcome w.reporter call (w.handleCall c call) (w'.handleCall c call)) ∧
      ∀ c e, (w.remove c e).2 = (w'.remove c e).2 := by
  have hstart : SameWorld (start reporter env flavour : World σ Call Ret Exc)
      (start reporter env flavour) :=
    ⟨rfl, rfl, rfl, rfl, fun _ => .none, rfl⟩
  obtain ⟨w', hrun', h⟩ := Machine.exists_replay_of_lockstep (N := machine σ Call Ret Exc)
    (R := SameWorld) (Q := Relisted) (fun _ _ _ _ _ h ha hst => step_same h ha hst) hstart hplan
    hrun
  refine ⟨w', hrun', h.countOf, h.seqs, h.colls, fun c call => ?_, h.handleCall,
    fun c e => (h.remove c e).2⟩
  have hrel := h.chosen c call
  generalize chosen w c call = o at hrel
  generalize chosen w' c call = o' at hrel
  cases hrel with
  | some hm => exact congrArg some hm.fst
  | none => rfl

/-- A required expectation in the listed sequences, an optional one in the second of them, and a
call. -/
def listing (tags : List Tag) : List (Action Unit Unit Unit Unit) :=
  [.create (anyCall 0 1 2 tags ()) ⟨"", 0⟩, .create (anyCall 0 0 1 [1] ()) ⟨"", 0⟩, .commit 0 ()]

theorem listing_order_irrelevant_listing :
    ∃ w w', (machine Unit Unit Unit Unit).replay (start (quietReporter ()) () fun _ => .greedy)
        (listing [0, 1]) = some w ∧
      (machine Unit Unit Unit Unit).replay (start (quietReporter ()) () fun _ => .greedy)
        (listing [1, 0]) = some w' ∧
      w.seqs = w'.seqs ∧
      SameOutcome w.reporter () (w.handleCall 0 ()) (w'.handleCall 0 ()) := by
  have hplan : List.Forall₂ Relisted (listing [0, 1]) (listing [1, 0]) := by
    have hperm : [0, 1].dedup.Perm [1, 0].dedup := by decide
    exact .cons (.create _ _ hperm) (.cons (.same _) (.cons (.same _) .nil))
  have h : ((machine Unit Unit Unit Unit).replay (start (quietReporter ()) () fun _ => .greedy)
      (listing [0, 1])).isSome = true := by decide +kernel
  obtain ⟨w, hrun⟩ := Option.isSome_iff_exists.mp h
  obtain ⟨w', hrun', -, hseqs, -, -, hcalls, -⟩ := listing_order_irrelevant hplan hrun
  exact ⟨w, w', hrun, hrun', hseqs, hcalls 0 ()⟩

end MimicPP.Permuted

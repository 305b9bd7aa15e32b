import MimicPP.Expectation
import MimicPP.Scan

/-!
What the loop of `handle_call` collects from the stored expectations, and how the best match
is picked from it.
-/

namespace MimicPP.Matching

open MimicPP.Noexcept MimicPP.Sequence MimicPP.Reports MimicPP.Control MimicPP.Expectation
open MimicPP.Scan

variable {σ Call Ret Exc : Type}

/-- The reports with the verdict `v`, each with the expectation it comes from. -/
def reportsOf (w : World σ Call Ret Exc) (call : Call) (v : MatchResult)
    (l : List (ExpId × BasicExpectation σ Call Ret Exc)) : List (ExpId × MatchReport) :=
  l.filterMap fun p =>
    match p.2.matchesCall w.env w.seqs call with
    | .ok r => if evaluateMatchReport r = v then some (p.1, r) else none
    | .error _ => none

/-- One report to the reporter for each expectation that throws and has a report to be told of. -/
def unhandledOf (w : World σ Call Ret Exc) (call : Call)
    (l : List (ExpId × BasicExpectation σ Call Ret Exc)) : List (Event Call Exc) :=
  l.filterMap fun p =>
    match p.2.matchesCall w.env w.seqs call with
    | .ok _ => none
    | .error exc =>
      match p.2.report w.env w.seqs with
      | .ok report => some (.unhandledException call p.1 report exc)
      | .error _ => none

/-- Every exception of the listed expectations gets to the reporter, which returns. -/
def Reported (w : World σ Call Ret Exc) (call : Call)
    (l : List (ExpId × BasicExpectation σ Call Ret Exc)) : Prop :=
  ∀ p ∈ l, ∀ exc, p.2.matchesCall w.env w.seqs call = .error exc →
    ∃ report, p.2.report w.env w.seqs = .ok report ∧
      w.reporter.reportUnhandledException call report exc = .ok ()

/-- The full matches of a call, newest expectation first. -/
def fullMatches (w : World σ Call Ret Exc) (c : CollId) (call : Call) :
    List (ExpId × MatchReport) :=
  reportsOf w call .full (w.stored c).reverse

variable {w : World σ Call Ret Exc} {c : CollId} {call : Call} {e : ExpId} {r : MatchReport}
variable {l : List (ExpId × BasicExpectation σ Call Ret Exc)}

lemma mem_stored {x : BasicExpectation σ Call Ret Exc} :
    (e, x) ∈ w.stored c ↔ e ∈ w.colls c ∧ w.exps[e]? = some x := by
  simp only [World.stored, List.mem_filterMap, Option.map_eq_some_iff, Prod.mk.injEq]
  constructor
  · rintro ⟨e', he', x', hx', rfl, rfl⟩
    exact ⟨he', hx'⟩
  · rintro ⟨he, hx⟩
    exact ⟨e, he, x, hx, rfl, rfl⟩

lemma mem_reportsOf {v : MatchResult} : (e, r) ∈ reportsOf w call v l ↔
    ∃ x, (e, x) ∈ l ∧ x.matchesCall w.env w.seqs call = .ok r ∧ evaluateMatchReport r = v := by
  simp only [reportsOf, List.mem_filterMap]
  constructor
  · rintro ⟨⟨e', x⟩, hmem, h⟩
    rcases hx : x.matchesCall w.env w.seqs call with exc | r'
    · simp [hx] at h
    · by_cases hv : evaluateMatchReport r' = v
      · obtain ⟨rfl, rfl⟩ : e' = e ∧ r' = r := by simpa [hx, hv] using h
        exact ⟨x, hmem, hx, hv⟩
      · simp [hx, hv] at h
  · rintro ⟨x, hmem, hx, hv⟩
    exact ⟨(e, x), hmem, by simp [hx, hv]⟩

/-- The addresses in a list of reports come in the order of the list they are taken from. -/
lemma reportsOf_pairwise {R : ExpId → ExpId → Prop} {v : MatchResult}
    (h : l.Pairwise fun p q => R p.1 q.1) :
    (reportsOf w call v l).Pairwise fun m n => R m.1 n.1 := by
  refine List.Pairwise.filterMap _ ?_ h
  intro p q hpq m hm n hn
  have hfst : ∀ {p : ExpId × BasicExpectation σ Call Ret Exc} {m : ExpId × MatchReport},
      (match p.2.matchesCall w.env w.seqs call with
        | .ok r => if evaluateMatchReport r = v then some (p.1, r) else none
        | .error _ => none) = some m → m.1 = p.1 := by
    intro p m hm
    split at hm
    · split at hm
      · exact (congrArg Prod.fst (Option.some.inj hm)).symm
      · cases hm
    · cases hm
  rw [hfst hm, hfst hn]
  exact hpq

/-! ### The loop -/

/-- The accumulators after the listed expectations. -/
def Buckets.extend (b : Buckets) (w : World σ Call Ret Exc) (call : Call)
    (l : List (ExpId × BasicExpectation σ Call Ret Exc)) : Buckets where
  fullMatches := b.fullMatches ++ reportsOf w call .full l
  noMatches := b.noMatches ++ (reportsOf w call .none l).map Prod.snd
  inapplicableMatches := b.inapplicableMatches ++ (reportsOf w call .inapplicable l).map Prod.snd

lemma extend_cons_ok {b : Buckets} {x : BasicExpectation σ Call Ret Exc}
    (h : x.matchesCall w.env w.seqs call = .ok r) :
    Buckets.extend b w call ((e, x) :: l) = Buckets.extend (b.emplaceBack e r) w call l := by
  rcases hv : evaluateMatchReport r <;>
    simp [Buckets.extend, Buckets.emplaceBack, reportsOf, h, hv]

lemma extend_cons_error {b : Buckets} {x : BasicExpectation σ Call Ret Exc} {exc : Exc}
    (h : x.matchesCall w.env w.seqs call = .error exc) :
    Buckets.extend b w call ((e, x) :: l) = Buckets.extend b w call l := by
  simp [Buckets.extend, reportsOf, h]

lemma reported_append {l' : List (ExpId × BasicExpectation σ Call Ret Exc)} :
    Reported w call (l ++ l') ↔ Reported w call l ∧ Reported w call l' := by
  simp [Reported, or_imp, forall_and]

lemma unhandledOf_append {l' : List (ExpId × BasicExpectation σ Call Ret Exc)} :
    unhandledOf w call (l ++ l') = unhandledOf w call l ++ unhandledOf w call l' :=
  List.filterMap_append

/-- An exception that is not reported ends the program. -/
lemma makeMatchReport_of_not_reported {p : ExpId × BasicExpectation σ Call Ret Exc}
    (h : ¬ Reported w call [p]) :
    w.makeMatchReport call p.1 p.2 = (unhandledOf w call [p], .error .terminate) := by
  rcases hx : p.2.matchesCall w.env w.seqs call with exc | r
  · rcases hreport : p.2.report w.env w.seqs with exc' | report
    · simp [World.makeMatchReport, unhandledOf, hx, hreport]
    · rcases hrep : w.reporter.reportUnhandledException call report exc with exit | _
      · simp [World.makeMatchReport, unhandledOf, hx, hreport, hrep, Except.map]
      · refine absurd (fun q hq exc' hexc' => ?_) h
        obtain rfl := List.mem_singleton.mp hq
        obtain rfl : exc = exc' := by simpa [hx] using hexc'
        exact ⟨report, hreport, hrep⟩
  · refine absurd (fun q hq exc' hexc' => ?_) h
    obtain rfl := List.mem_singleton.mp hq
    simp [hx] at hexc'

/-- The loop gets past expectations that are reported, or throw nothing. -/
lemma matchLoop_append {l' : List (ExpId × BasicExpectation σ Call Ret Exc)}
    (h : Reported w call l) (b : Buckets) :
    w.matchLoop call (l ++ l') b =
      (unhandledOf w call l ++ (w.matchLoop call l' (Buckets.extend b w call l)).1,
        (w.matchLoop call l' (Buckets.extend b w call l)).2) := by
  induction l generalizing b with
  | nil => simp [unhandledOf, Buckets.extend, reportsOf]
  | cons p l ih =>
    obtain ⟨e, x⟩ := p
    have hrest : Reported w call l := fun p hp => h p (List.mem_cons_of_mem _ hp)
    rcases hx : x.matchesCall w.env w.seqs call with exc | r
    · obtain ⟨report, hreport, hrep⟩ := h (e, x) (by simp) exc hx
      simp only at hreport
      simp [World.matchLoop, World.makeMatchReport, hx, hreport, hrep, Except.map, ih hrest,
        extend_cons_error hx, unhandledOf]
    · simp [World.matchLoop, World.makeMatchReport, hx, ih hrest, extend_cons_ok hx, unhandledOf]

/-- The loop files every report under its verdict, in the order it meets them, and reports
every exception once. -/
lemma matchLoop_of_reported (h : Reported w call l) (b : Buckets) :
    w.matchLoop call l b = (unhandledOf w call l, .ok (Buckets.extend b w call l)) := by
  have happend : w.matchLoop call (l ++ []) b = _ := matchLoop_append h b
  simpa [World.matchLoop] using happend

/-- What is not reported begins with one expectation. -/
lemma exists_not_reported (h : ¬ Reported w call l) : ∃ before p after,
    l = before ++ p :: after ∧ Reported w call before ∧ ¬ Reported w call [p] := by
  induction l with
  | nil => exact absurd (fun p hp => by cases hp) h
  | cons p l ih =>
    by_cases hp : Reported w call [p]
    · have hl : ¬ Reported w call l := fun hl => h (reported_append.mpr ⟨hp, hl⟩)
      obtain ⟨before, q, after, rfl, hbefore, hq⟩ := ih hl
      exact ⟨p :: before, q, after, rfl, reported_append.mpr ⟨hp, hbefore⟩, hq⟩
    · exact ⟨[], p, l, rfl, (fun q hq => by cases hq), hp⟩

/-- The first exception that is not reported ends the program; those before it have been. -/
lemma matchLoop_of_not_reported (h : ¬ Reported w call l) (b : Buckets) :
    ∃ before p after, l = before ++ p :: after ∧ Reported w call before ∧
      ¬ Reported w call [p] ∧
      w.matchLoop call l b = (unhandledOf w call (before ++ [p]), .error .terminate) := by
  obtain ⟨before, p, after, rfl, hbefore, hp⟩ := exists_not_reported h
  refine ⟨before, p, after, rfl, hbefore, hp, ?_⟩
  rw [matchLoop_append hbefore, unhandledOf_append]
  simp only [World.matchLoop, makeMatchReport_of_not_reported hp]

/-- An expectation that throws gives no report. -/
lemma makeMatchReport_of_error {x : BasicExpectation σ Call Ret Exc} {exc : Exc}
    (h : x.matchesCall w.env w.seqs call = .error exc) (report : MatchReport) :
    (w.makeMatchReport call e x).2 ≠ .ok (some report) := by
  rcases hreport : x.report w.env w.seqs with exc' | told
  · simp [World.makeMatchReport, h, hreport]
  · rcases hrep : w.reporter.reportUnhandledException call told exc with exit | u <;>
      simp [World.makeMatchReport, h, hreport, hrep, Except.map]

/-- **Two loops in lockstep**: what relates the accumulators before holds after, as long as both
worlds make the same of an expectation that throws, and reports that keep the relation of one
that does not. The events are related one expectation at a time. -/
theorem matchLoop_related (w w' : World σ Call Ret Exc) (call : Call)
    {A : Buckets → Buckets → Prop} {E : List (Event Call Exc) → List (Event Call Exc) → Prop}
    {R : ExpId × BasicExpectation σ Call Ret Exc → ExpId × BasicExpectation σ Call Ret Exc → Prop}
    (hnil : E [] [])
    (happend : ∀ {before before' after after'}, E before before' → E after after' →
      E (before ++ after) (before' ++ after'))
    (hmake : ∀ p p', R p p' →
      (∃ events events' r, E events events' ∧
          w.makeMatchReport call p.1 p.2 = (events, r) ∧
          w'.makeMatchReport call p'.1 p'.2 = (events', r) ∧ ∀ report, r ≠ .ok (some report)) ∨
        ∃ r r', w.makeMatchReport call p.1 p.2 = ([], .ok (some r)) ∧
          w'.makeMatchReport call p'.1 p'.2 = ([], .ok (some r')) ∧
          ∀ b b', A b b' → A (b.emplaceBack p.1 r) (b'.emplaceBack p'.1 r'))
    {l l' : List (ExpId × BasicExpectation σ Call Ret Exc)} (hl : List.Forall₂ R l l')
    {b b' : Buckets} (hb : A b b') :
    (∃ events events' exit, E events events' ∧ w.matchLoop call l b = (events, .error exit) ∧
        w'.matchLoop call l' b' = (events', .error exit)) ∨
      ∃ events events' a a', E events events' ∧ w.matchLoop call l b = (events, .ok a) ∧
        w'.matchLoop call l' b' = (events', .ok a') ∧ A a a' := by
  induction hl generalizing b b' with
  | nil => exact .inr ⟨[], [], b, b', hnil, rfl, rfl, hb⟩
  | @cons p p' l l' hp _ ih =>
    obtain ⟨e, x⟩ := p
    obtain ⟨e', x'⟩ := p'
    rcases hmake _ _ hp with ⟨events, events', r, hE, hx, hx', hnone⟩ | ⟨r, r', hx, hx', hkeep⟩
    · rcases r with exit | report
      · exact .inl ⟨events, events', exit, hE, by simp only [World.matchLoop, hx],
          by simp only [World.matchLoop, hx']⟩
      · obtain rfl : report = none := by
          rcases report with _ | report
          · rfl
          · exact absurd rfl (hnone report)
        rcases ih hb with
          ⟨rest, rest', exit, hE', hl, hl'⟩ | ⟨rest, rest', a, a', hE', hl, hl', ha⟩
        · exact .inl ⟨events ++ rest, events' ++ rest', exit, happend hE hE',
            by simp only [World.matchLoop, hx, hl], by simp only [World.matchLoop, hx', hl']⟩
        · exact .inr ⟨events ++ rest, events' ++ rest', a, a', happend hE hE',
            by simp only [World.matchLoop, hx, hl], by simp only [World.matchLoop, hx', hl'], ha⟩
    · rcases ih (hkeep _ _ hb) with
        ⟨rest, rest', exit, hE, hl, hl'⟩ | ⟨rest, rest', a, a', hE, hl, hl', ha⟩
      · exact .inl ⟨rest, rest', exit, hE,
          by simp only [World.matchLoop, hx, hl, List.nil_append],
          by simp only [World.matchLoop, hx', hl', List.nil_append]⟩
      · exact .inr ⟨rest, rest', a, a', hE,
          by simp only [World.matchLoop, hx, hl, List.nil_append],
          by simp only [World.matchLoop, hx', hl', List.nil_append], ha⟩

/-- Two loops that report the same exceptions. -/
lemma matchLoop_lockstep {w w' : World σ Call Ret Exc} {call : Call}
    {A : Buckets → Buckets → Prop}
    {R : ExpId × BasicExpectation σ Call Ret Exc → ExpId × BasicExpectation σ Call Ret Exc → Prop}
    (hmake : ∀ p p', R p p' →
      (∃ events r, w.makeMatchReport call p.1 p.2 = (events, r) ∧
          w'.makeMatchReport call p'.1 p'.2 = (events, r) ∧ ∀ report, r ≠ .ok (some report)) ∨
        ∃ r r', w.makeMatchReport call p.1 p.2 = ([], .ok (some r)) ∧
          w'.makeMatchReport call p'.1 p'.2 = ([], .ok (some r')) ∧
          ∀ b b', A b b' → A (b.emplaceBack p.1 r) (b'.emplaceBack p'.1 r'))
    {l l' : List (ExpId × BasicExpectation σ Call Ret Exc)} (hl : List.Forall₂ R l l')
    {b b' : Buckets} (hb : A b b') :
    (∃ events exit, w.matchLoop call l b = (events, .error exit) ∧
        w'.matchLoop call l' b' = (events, .error exit)) ∨
      ∃ events a a', w.matchLoop call l b = (events, .ok a) ∧
        w'.matchLoop call l' b' = (events, .ok a') ∧ A a a' := by
  have happend : ∀ {before before' after after' : List (Event Call Exc)}, before = before' →
      after = after' → before ++ after = before' ++ after' := fun h h' => by rw [h, h']
  have hloops := matchLoop_related w w' call rfl happend (fun p p' hp => ?_) hl hb
  · rcases hloops with ⟨events, _, exit, rfl, hw⟩ | ⟨events, _, a, a', rfl, hw⟩
    · exact .inl ⟨events, exit, hw⟩
    · exact .inr ⟨events, a, a', hw⟩
  · rcases hmake p p' hp with ⟨events, r, hx⟩ | hx
    · exact .inl ⟨events, events, r, rfl, hx⟩
    · exact .inr hx

/-- **What the loop hands over**: the full matches, the inapplicable ones and the others, each
newest first, and one report for every expectation that threw. -/
theorem collectMatches_of_reported (h : Reported w call (w.stored c).reverse) :
    w.collectMatches c call = (unhandledOf w call (w.stored c).reverse,
      .ok ⟨fullMatches w c call, (reportsOf w call .none (w.stored c).reverse).map Prod.snd,
        (reportsOf w call .inapplicable (w.stored c).reverse).map Prod.snd⟩) := by
  rw [World.collectMatches, matchLoop_of_reported h]
  simp [Buckets.extend, Buckets.empty, fullMatches]

lemma collectMatches_ok {events : List (Event Call Exc)} {b : Buckets}
    (h : w.collectMatches c call = (events, .ok b)) : b.fullMatches = fullMatches w c call := by
  by_cases hrep : Reported w call (w.stored c).reverse
  · rw [collectMatches_of_reported hrep] at h
    obtain ⟨-, rfl⟩ : _ ∧ _ = b := by simpa using h
    rfl
  · obtain ⟨before, p, after, -, -, -, hterm⟩ := matchLoop_of_not_reported hrep Buckets.empty
    rw [← World.collectMatches, h] at hterm
    cases hterm

/-! ### The pick -/

/-- The ratings `pick_best_match` reads off a match. -/
def ratingsOf (m : ExpId × MatchReport) : List Rating := (sequenceRatings m.2).getD []

/-- The best match so far holds against the next one. -/
def keeps (m n : ExpId × MatchReport) : Bool := hasBetterRating (ratingsOf m) (ratingsOf n)

lemma pickBestLoop_eq_scan {best : ExpId × MatchReport} {ms : List (ExpId × MatchReport)}
    (h : ∀ m ∈ best :: ms, evaluateMatchReport m.2 = .full) :
    pickBestLoop best ms = some (scan keeps best ms) := by
  induction ms generalizing best with
  | nil => rfl
  | cons m ms ih =>
    obtain ⟨lhs, hlhs⟩ := sequenceRatings_of_full (h best (by simp))
    obtain ⟨rhs, hrhs⟩ := sequenceRatings_of_full (h m (by simp))
    have hbest : pickBestLoop best ms = some (scan keeps best ms) := ih fun n hn => h n (by
      rcases List.mem_cons.mp hn with rfl | hn <;> simp [*])
    have hm : pickBestLoop m ms = some (scan keeps m ms) :=
      ih fun n hn => h n (List.mem_cons_of_mem _ hn)
    have hkeeps : keeps best m = hasBetterRating lhs rhs := by
      simp [keeps, ratingsOf, hlhs, hrhs]
    rw [pickBestLoop, scan, hlhs, hrhs, hbest, hm, hkeeps]
    simp only [Option.bind_some]
    split <;> rfl

lemma pickBestMatch_eq_scan {best : ExpId × MatchReport} {ms : List (ExpId × MatchReport)}
    (h : fullMatches w c call = best :: ms) :
    pickBestMatch (fullMatches w c call) = some (scan keeps best ms) := by
  have hfull : ∀ m ∈ best :: ms, evaluateMatchReport m.2 = .full := by
    intro m hm
    rw [← h] at hm
    obtain ⟨e, r⟩ := m
    obtain ⟨x, -, -, hfull⟩ := mem_reportsOf.mp hm
    exact hfull
  rw [h, pickBestMatch, pickBestLoop_eq_scan hfull]

/-- **A pick is made whenever there is a full match**, and it is one of them. -/
theorem pickBestMatch_of_full {ms : List (ExpId × MatchReport)} (hne : ms ≠ [])
    (h : ∀ m ∈ ms, evaluateMatchReport m.2 = .full) :
    ∃ m ∈ ms, pickBestMatch ms = some m := by
  rcases ms with _ | ⟨best, ms⟩
  · exact absurd rfl hne
  · exact ⟨_, scan_mem best ms, pickBestLoop_eq_scan h⟩

lemma fullMatches_full {m : ExpId × MatchReport} (h : m ∈ fullMatches w c call) :
    evaluateMatchReport m.2 = .full := by
  obtain ⟨x, -, -, hfull⟩ := mem_reportsOf.mp h
  exact hfull

/-- The match `handle_call` consumes, if it comes to that. -/
def chosen (w : World σ Call Ret Exc) (c : CollId) (call : Call) : Option (ExpId × MatchReport) :=
  match (w.collectMatches c call).2 with
  | .ok b => pickBestMatch b.fullMatches
  | .error _ => none

/-- It comes to a match unless an exception is not reported. -/
lemma chosen_of_reported (h : Reported w call (w.stored c).reverse) :
    chosen w c call = pickBestMatch (fullMatches w c call) := by
  rw [chosen, collectMatches_of_reported h]

lemma chosen_eq_some {m : ExpId × MatchReport} (h : chosen w c call = some m) :
    pickBestMatch (fullMatches w c call) = some m ∧ m ∈ fullMatches w c call := by
  rcases hcoll : w.collectMatches c call with ⟨events, exit | b⟩
  · simp [chosen, hcoll] at h
  · have hpick : pickBestMatch (fullMatches w c call) = some m := by
      simpa [chosen, hcoll, collectMatches_ok hcoll] using h
    have hne : fullMatches w c call ≠ [] := by
      intro hnil; rw [hnil] at hpick; cases hpick
    obtain ⟨m', hm', hpick'⟩ := pickBestMatch_of_full hne fun _ => fullMatches_full
    rw [hpick] at hpick'
    obtain rfl := Option.some.inj hpick'
    exact ⟨hpick, hm'⟩

/-! ### What a full match says about its expectation -/

/-- The policy accepts the call, and says what it stands for. -/
def Agrees (p : Policy σ Call Exc) (env : σ) (call : Call) : Prop :=
  p.matchesCall env call = .ok true ∧ ∃ description, p.describe env = .ok description

/-- A report without objections is made exactly if every policy agrees. -/
lemma policyReports_all_iff {env : σ} {ps : List (Policy σ Call Exc)} :
    (∃ reports, BasicExpectation.policyReports env call ps = .ok reports ∧
      reports.all PolicyReport.isMatching = true) ↔ ∀ p ∈ ps, Agrees p env call := by
  induction ps with
  | nil => simp [BasicExpectation.policyReports]
  | cons p ps ih =>
    rw [List.forall_mem_cons, ← ih]
    rcases hp : p.matchesCall env call with exc | b
    · simp [BasicExpectation.policyReports, Agrees, hp]
    rcases hd : p.describe env with exc | description
    · simp [BasicExpectation.policyReports, Agrees, hp, hd]
    rcases hrest : BasicExpectation.policyReports env call ps with exc | rest
    · simp [BasicExpectation.policyReports, hp, hd, hrest]
    · simp [BasicExpectation.policyReports, Agrees, hp, hd, hrest]

/-- Where the policies describe themselves, the report of an expectation can be put together. -/
lemma exists_report {x : BasicExpectation σ Call Ret Exc} {env : σ} (seqs : Sequences)
    (h : ∀ p ∈ x.policies, ∃ description, p.describe env = .ok description) :
    ∃ report, x.report env seqs = .ok report := by
  have hall : ∀ ps : List (Policy σ Call Exc), (∀ p ∈ ps, ∃ d, p.describe env = .ok d) →
      ∃ ds, BasicExpectation.descriptions env ps = .ok ds := by
    intro ps hps
    induction ps with
    | nil => exact ⟨[], rfl⟩
    | cons p ps ih =>
      obtain ⟨⟨d, hd⟩, hrest⟩ := List.forall_mem_cons.mp hps
      obtain ⟨ds, hds⟩ := ih hrest
      exact ⟨d :: ds, by simp only [BasicExpectation.descriptions, hd, hds]; rfl⟩
  obtain ⟨ds, hds⟩ := hall x.policies h
  exact ⟨_, by rw [BasicExpectation.report, hds]; rfl⟩

lemma matchesCall_controlReport {x : BasicExpectation σ Call Ret Exc} {env : σ} {seqs : Sequences}
    (h : x.matchesCall env seqs call = .ok r) : r.controlReport = x.controlPolicy.state seqs := by
  unfold BasicExpectation.matchesCall at h
  split at h
  · cases h
  · obtain rfl := Except.ok.inj h
    rfl

lemma mem_fullMatches : (e, r) ∈ fullMatches w c call ↔ ∃ x, e ∈ w.colls c ∧
    w.exps[e]? = some x ∧ x.matchesCall w.env w.seqs call = .ok r ∧
      evaluateMatchReport r = .full := by
  rw [fullMatches, mem_reportsOf]
  simp only [List.mem_reverse, mem_stored, and_assoc]

end MimicPP.Matching

import MimicPP.Runs

/-!
The outcome of a call, for every collection, every call and every world, reachable or not.

Three exceptions never become the outcome of a call, since they meet a `noexcept` boundary:
one of the reporter while it is told of an exception, one of a description while the report of
that exception is put together, and one of a policy while it is consumed. They end the program.
-/

namespace MimicPP.Outcome

open MimicPP.Noexcept MimicPP.Sequence MimicPP.Reports MimicPP.Control MimicPP.Expectation
open MimicPP.Matching MimicPP.Runs

variable {σ Call Ret Exc : Type}

/-! ### The policies of the chosen expectation -/

/-- The variables of user code after the listed policies have been consumed. -/
def envAfter (call : Call) : List (Policy σ Call Exc) → σ → σ
  | [], env => env
  | p :: ps, env => envAfter call ps (p.consume env call).1

/-- The policy at position `i`, if there is one, is consumed without an exception when its
turn comes. -/
def Returns (call : Call) (ps : List (Policy σ Call Exc)) (env : σ) (i : ℕ) : Prop :=
  ∀ p, ps[i]? = some p → (p.consume (envAfter call (ps.take i) env) call).2 = .ok ()

variable {call : Call} {e : ExpId} {p : Policy σ Call Exc} {ps : List (Policy σ Call Exc)} {env : σ}

lemma returns_cons_zero : Returns call (p :: ps) env 0 ↔ (p.consume env call).2 = .ok () := by
  simp [Returns, envAfter]

lemma returns_cons_succ {i : ℕ} :
    Returns call (p :: ps) env (i + 1) ↔ Returns call ps (p.consume env call).1 i := by
  simp [Returns, envAfter]

lemma range_map_policyConsumed (index n : ℕ) :
    .policyConsumed e index :: (List.range n).map (fun i => .policyConsumed e (index + 1 + i)) =
      (List.range (n + 1)).map fun i => (.policyConsumed e (index + i) : Event Call Exc) := by
  have hshift : ∀ i, index + 1 + i = index + (i + 1) := fun i => by omega
  rw [List.range_succ_eq_map, List.map_cons, List.map_map]
  simp [Function.comp_def, hshift]

/-- Policies that all return are each consumed once, in order of attachment. -/
lemma consumePolicies_of_returns (h : ∀ i, Returns call ps env i) (index : ℕ) :
    consumePolicies call e index ps env =
      (envAfter call ps env,
        (List.range ps.length).map fun i => .policyConsumed e (index + i), .ok ()) := by
  induction ps generalizing env index with
  | nil => rfl
  | cons p ps ih =>
    have hhead := returns_cons_zero.mp (h 0)
    have htail := ih (fun i => returns_cons_succ.mp (h (i + 1))) (index + 1)
    rcases hp : p.consume env call with ⟨env', r⟩
    obtain rfl : r = .ok () := by rw [hp] at hhead; exact hhead
    rw [hp] at htail
    simp only [consumePolicies, hp, htail, envAfter, range_map_policyConsumed, List.length_cons]

/-- The first policy that throws is the last one consumed. -/
lemma consumePolicies_of_throws {k : ℕ} (h : ∀ i < k, Returns call ps env i)
    (hk : ¬ Returns call ps env k) (index : ℕ) :
    (consumePolicies call e index ps env).2 =
      ((List.range (k + 1)).map fun i => .policyConsumed e (index + i), .error .terminate) := by
  induction ps generalizing env index k with
  | nil => exact absurd (fun p hp => by simp at hp) hk
  | cons p ps ih =>
    rcases hp : p.consume env call with ⟨env', r⟩
    rcases k with _ | k
    · rw [returns_cons_zero, hp] at hk
      obtain ⟨exc, rfl⟩ : ∃ exc, r = .error exc := by
        rcases r with exc | u
        · exact ⟨exc, rfl⟩
        · exact absurd rfl hk
      simp [consumePolicies, hp]
    · have hhead := returns_cons_zero.mp (h 0 (by omega))
      obtain rfl : r = .ok () := by rw [hp] at hhead; exact hhead
      have hreturns : ∀ i < k, Returns call ps env' i := by
        intro i hi
        have hsucc := returns_cons_succ.mp (h (i + 1) (by omega))
        rwa [hp] at hsucc
      have hthrows : ¬ Returns call ps env' k := by
        intro hret
        refine hk (returns_cons_succ.mpr ?_)
        rwa [hp]
      have htail := ih hreturns hthrows (index + 1)
      rw [Prod.ext_iff] at htail
      simp only [consumePolicies, hp, htail.1, htail.2, range_map_policyConsumed]

/-! ### The whole call -/

/-- What `handle_call` hands back. -/
abbrev Result (σ Call Ret Exc : Type) : Type :=
  World σ Call Ret Exc × List (Event Call Exc) × Except (Exit Exc) Ret

/-- The call is handed to the expectation `x` at the address `e`, after the listed events:
its control policy is consumed, then its policies, and if these all return its finalizer
decides; nothing else changes. -/
structure Dispatched (w : World σ Call Ret Exc) (call : Call) (e : ExpId)
    (x : BasicExpectation σ Call Ret Exc) (before : List (Event Call Exc))
    (r : Result σ Call Ret Exc) : Prop where
  exps : r.1.exps = w.exps.set e { x with controlPolicy := x.controlPolicy.increment }
  seqs : r.1.seqs = (x.controlPolicy.consume w.seqs).2
  others : ∀ tag, (∀ id, (tag, id) ∉ x.controlPolicy.sequences) → r.1.seqs tag = w.seqs tag
  colls : r.1.colls = w.colls
  reporter : r.1.reporter = w.reporter
  completes : (∀ i, Returns call x.policies w.env i) →
    r.2.1 = before ++ (.controlConsumed e ::
      (List.range x.policies.length).map (.policyConsumed e) ++ [.finalized e]) ∧
    r.1.env = (x.finalizer (envAfter call x.policies w.env) call).1 ∧
    r.2.2 = throwing (x.finalizer (envAfter call x.policies w.env) call).2
  terminates : ∀ k, (∀ i < k, Returns call x.policies w.env i) →
    ¬ Returns call x.policies w.env k →
    r.2.1 = before ++ (.controlConsumed e :: (List.range (k + 1)).map (.policyConsumed e)) ∧
    r.2.2 = .error .terminate

variable {w : World σ Call Ret Exc} {c : CollId} {x : BasicExpectation σ Call Ret Exc}

/-- The events before the consume are passed on. -/
lemma Dispatched.prepend {before' : List (Event Call Exc)} {r : Result σ Call Ret Exc}
    (h : Dispatched w call e x before' r) (before : List (Event Call Exc)) :
    Dispatched w call e x (before ++ before') (r.1, before ++ r.2.1, r.2.2) where
  exps := h.exps
  seqs := h.seqs
  others := h.others
  colls := h.colls
  reporter := h.reporter
  completes hret := by
    obtain ⟨hevents, henv, hres⟩ := h.completes hret
    exact ⟨by rw [hevents, List.append_assoc], henv, hres⟩
  terminates k hk hthrow := by
    obtain ⟨hevents, hres⟩ := h.terminates k hk hthrow
    exact ⟨by rw [hevents, List.append_assoc], hres⟩

lemma consumeAndFinalize_dispatched (call : Call) (hx : w.exps[e]? = some x) :
    Dispatched w call e x [] (w.consumeAndFinalize call e) := by
  have hcons := consumeControl_of_some hx
  obtain ⟨env, hworld⟩ := consumeAndFinalize_world call hx
  refine ⟨by rw [hworld, hcons], by rw [hworld, hcons], fun tag hout => ?_, by rw [hworld, hcons],
    by rw [hworld, hcons], fun hret => ?_, fun k hk hthrow => ?_⟩
  · rw [hworld, hcons]
    exact ControlPolicy.consume_of_not_mem hout
  · have hpol := consumePolicies_of_returns (e := e) hret 0
    simp only [Nat.zero_add] at hpol
    simp [World.consumeAndFinalize, hx, hpol]
  · have hpol := consumePolicies_of_throws (e := e) hk hthrow 0
    rcases hrun : consumePolicies call e 0 x.policies w.env with ⟨env', events, r⟩
    obtain ⟨rfl, rfl⟩ : events = _ ∧ r = _ := by rw [hrun] at hpol; exact Prod.mk.inj hpol
    simp [World.consumeAndFinalize, hx, hrun]

/-- The reports with the verdict `v`, newest expectation first. -/
def reportsWith (w : World σ Call Ret Exc) (c : CollId) (call : Call) (v : MatchResult) :
    List MatchReport :=
  (reportsOf w call v (w.stored c).reverse).map Prod.snd

lemma handleCall_of_not_reported (hrep : ¬ Reported w call (w.stored c).reverse) :
    ∃ before p after, (w.stored c).reverse = before ++ p :: after ∧
      Reported w call before ∧ ¬ Reported w call [p] ∧
      w.handleCall c call = (w, unhandledOf w call (before ++ [p]), .error .terminate) := by
  obtain ⟨before, p, after, hsplit, hbefore, hp, hterm⟩ :=
    matchLoop_of_not_reported hrep Buckets.empty
  rw [← World.collectMatches] at hterm
  exact ⟨before, p, after, hsplit, hbefore, hp, by simp only [World.handleCall, hterm]⟩

/-- A call is dispatched to the match it picks. -/
lemma handleCall_of_pick (hrep : Reported w call (w.stored c).reverse)
    {m : ExpId × MatchReport} (hmem : m ∈ fullMatches w c call)
    (hpick : pickBestMatch (fullMatches w c call) = some m) (hx : w.exps[m.1]? = some x) :
    Dispatched w call m.1 x (unhandledOf w call (w.stored c).reverse ++ [.fullMatch call m.2])
      (w.handleCall c call) := by
  have hfull : fullMatches w c call ≠ [] := List.ne_nil_of_mem hmem
  have hcall : w.handleCall c call = ((w.consumeAndFinalize call m.1).1,
      unhandledOf w call (w.stored c).reverse ++ [.fullMatch call m.2] ++
        (w.consumeAndFinalize call m.1).2.1, (w.consumeAndFinalize call m.1).2.2) := by
    simp [World.handleCall, collectMatches_of_reported hrep, hfull, hpick]
  have hdisp := (consumeAndFinalize_dispatched call hx).prepend
    (unhandledOf w call (w.stored c).reverse ++ [.fullMatch call m.2])
  rw [List.append_nil, ← hcall] at hdisp
  exact hdisp

lemma handleCall_of_inapplicable (hrep : Reported w call (w.stored c).reverse)
    (hnone : fullMatches w c call = []) (hin : reportsWith w c call .inapplicable ≠ []) :
    w.handleCall c call = (w,
      unhandledOf w call (w.stored c).reverse ++
        [.inapplicableMatches call (reportsWith w c call .inapplicable)],
      .error (w.reporter.reportInapplicableMatches call
        (reportsWith w c call .inapplicable))) := by
  rw [reportsWith] at hin ⊢
  simp [World.handleCall, collectMatches_of_reported hrep, hnone, hin]

lemma handleCall_of_no_match (hrep : Reported w call (w.stored c).reverse)
    (hnone : fullMatches w c call = []) (hin : reportsWith w c call .inapplicable = []) :
    w.handleCall c call = (w,
      unhandledOf w call (w.stored c).reverse ++ [.noMatches call (reportsWith w c call .none)],
      .error (w.reporter.reportNoMatches call (reportsWith w c call .none))) := by
  rw [reportsWith] at hin ⊢
  simp [World.handleCall, collectMatches_of_reported hrep, hnone, hin]

/-- **The outcome of a call.** The first exception of an expectation, newest first, that the
reporter throws over or has no report to be told of ends the program; those before it have been
reported, and nothing has been consumed. If there is none, every expectation that throws is
reported once, newest first, and takes no further part; the call is dispatched to one of the full
matches if there is any, and else rejected with the inapplicable reports if there are any, and
else with the others; a rejected call changes nothing. -/
theorem handleCall_outcome (w : World σ Call Ret Exc) (c : CollId) (call : Call) :
    (¬ Reported w call (w.stored c).reverse →
      ∃ before p after, (w.stored c).reverse = before ++ p :: after ∧
        Reported w call before ∧ ¬ Reported w call [p] ∧
        w.handleCall c call = (w, unhandledOf w call (before ++ [p]), .error .terminate)) ∧
    (Reported w call (w.stored c).reverse →
      (fullMatches w c call ≠ [] → ∃ e x report, e ∈ w.colls c ∧ w.exps[e]? = some x ∧
        (e, report) ∈ fullMatches w c call ∧
        Dispatched w call e x
          (unhandledOf w call (w.stored c).reverse ++ [.fullMatch call report])
          (w.handleCall c call)) ∧
      (fullMatches w c call = [] → reportsWith w c call .inapplicable ≠ [] →
        w.handleCall c call = (w,
          unhandledOf w call (w.stored c).reverse ++
            [.inapplicableMatches call (reportsWith w c call .inapplicable)],
          .error (w.reporter.reportInapplicableMatches call
            (reportsWith w c call .inapplicable)))) ∧
      (fullMatches w c call = [] → reportsWith w c call .inapplicable = [] →
        w.handleCall c call = (w,
          unhandledOf w call (w.stored c).reverse ++
            [.noMatches call (reportsWith w c call .none)],
          .error (w.reporter.reportNoMatches call (reportsWith w c call .none))))) := by
  refine ⟨handleCall_of_not_reported, fun hrep => ⟨fun hfull => ?_,
    handleCall_of_inapplicable hrep, handleCall_of_no_match hrep⟩⟩
  obtain ⟨⟨e, report⟩, hmem, hpick⟩ := pickBestMatch_of_full hfull fun _ => fullMatches_full
  obtain ⟨x, hstored, hx, -⟩ := mem_fullMatches.mp hmem
  exact ⟨e, x, report, hstored, hx, hmem, handleCall_of_pick hrep hmem hpick hx⟩

/-! ### Where an exception ends the program -/

/-- Expectations that wait for one call each, with the listed policies. -/
def onePolicyEach (reporter : Reporter Unit Unit) (policies : List (Policy Unit Unit Unit)) :
    World Unit Unit Unit Unit where
  reporter := reporter
  env := ()
  seqs _ := .empty .lazy
  exps := policies.map fun p => ⟨⟨"", 0⟩, ⟨1, 1, 0, []⟩, [p], fun env _ => (env, .ok ())⟩
  colls _ := List.range policies.length

def throwingSideEffect : Policy Unit Unit Unit :=
  ⟨fun _ => true, fun _ _ => .ok true, fun _ => .ok none, fun env _ => (env, .error ())⟩

def throwingMatcher : Policy Unit Unit Unit :=
  ⟨fun _ => true, fun _ _ => .error (), fun _ => .ok none, fun env _ => (env, .ok ())⟩

/-- A requirement whose description cannot be put together. -/
def throwingDescription : Policy Unit Unit Unit :=
  ⟨fun _ => true, fun _ _ => .ok true, fun _ => .error (), fun env _ => (env, .ok ())⟩

/-- **Not every full match is finalized, and not every exception is reported**: the finalizer
does not run behind a side effect that throws, a reporter that throws over the first exception
is not told of the second, and no reporter is told of an exception that a description threw. -/
theorem exceptions_may_terminate :
    (¬ ∀ (w : World Unit Unit Unit Unit) c call, fullMatches w c call ≠ [] →
      ∃ e, (w.handleCall c call).2.1.count (.finalized e) = 1) ∧
    (¬ ∀ (w : World Unit Unit Unit Unit) c call e x report exc, (e, x) ∈ w.stored c →
      x.matchesCall w.env w.seqs call = .error exc → x.report w.env w.seqs = .ok report →
      (w.handleCall c call).2.1.count (.unhandledException call e report exc) = 1) ∧
    (¬ ∀ (w : World Unit Unit Unit Unit) c call e x exc, (e, x) ∈ w.stored c →
      (∀ call report exc, w.reporter.reportUnhandledException call report exc = .ok ()) →
      x.matchesCall w.env w.seqs call = .error exc →
      ∃ report, .unhandledException call e report exc ∈ (w.handleCall c call).2.1) := by
  refine ⟨?_, ?_, ?_⟩
  · intro h
    have hfull : fullMatches (onePolicyEach (quietReporter ()) [throwingSideEffect]) 0 () ≠ [] :=
      List.cons_ne_nil _ _
    obtain ⟨e, he⟩ := h _ _ _ hfull
    have hnot : .finalized e ∉
        ((onePolicyEach (quietReporter ()) [throwingSideEffect]).handleCall 0 ()).2.1 := by
      change Event.finalized e ∉ [.fullMatch () _, .controlConsumed 0, .policyConsumed 0 0]
      simp
    rw [List.count_eq_zero.mpr hnot] at he
    cases he
  · intro h
    let reporter : Reporter Unit Unit :=
      { quietReporter () with reportUnhandledException := fun _ _ _ => .error (.thrown ()) }
    have hcount := h (onePolicyEach reporter [throwingMatcher, throwingMatcher]) 0 () 0 _ _ ()
      (List.mem_cons_self ..) rfl rfl
    have hnot : ∀ report, .unhandledException () 0 report () ∉
        ((onePolicyEach reporter [throwingMatcher, throwingMatcher]).handleCall 0 ()).2.1 := by
      intro report
      change Event.unhandledException () 0 report () ∉ [.unhandledException () 1 _ ()]
      simp
    rw [List.count_eq_zero.mpr (hnot _)] at hcount
    cases hcount
  · intro h
    obtain ⟨report, hmem⟩ := h (onePolicyEach (quietReporter ()) [throwingDescription]) 0 () 0 _ ()
      (List.mem_cons_self ..) (fun _ _ _ => rfl) rfl
    change Event.unhandledException () 0 report () ∈ [] at hmem
    cases hmem

end MimicPP.Outcome

import MimicPP.Scoped
import MimicPP.Reentrant

/-!
What a test does to the library.

Whatever reporter is told, a test is a run of the library in which the installed reporter
changes. So the invariant holds throughout, and everything a block declared is gone when the
block is left.
-/

namespace MimicPP.Following

open MimicPP.Noexcept MimicPP.Sequence MimicPP.Reports MimicPP.Control MimicPP.Expectation
open MimicPP.Matching MimicPP.Transition MimicPP.Runs MimicPP.Invariant MimicPP.Order
open MimicPP.Outcome MimicPP.Verdict MimicPP.Reporting MimicPP.Unwinding MimicPP.Scoped

variable {σ Call Ret Exc : Type}

/-! ### Runs with a changing reporter -/

/-- An action of a run, or another reporter is installed. -/
inductive Move (σ Call Ret Exc : Type)
  | act (a : Action σ Call Ret Exc)
  | install (reporter : Reporter Call Exc)

def step (w : World σ Call Ret Exc) : Move σ Call Ret Exc → Option (World σ Call Ret Exc)
  | .act a => Runs.step w a
  | .install reporter => some { w with reporter := reporter }

/-- A run may start wherever the invariant holds. -/
def machine (σ Call Ret Exc : Type) : Machine (World σ Call Ret Exc) (Move σ Call Ret Exc) where
  init := Inv
  step := step

abbrev Later (w w' : World σ Call Ret Exc) : Prop := (machine σ Call Ret Exc).Later w w'

variable {w w' : World σ Call Ret Exc} {e : ℕ} {p : ControlPolicy} {c : CollId} {call : Call}

lemma inv_install (hI : Inv w) (reporter : Reporter Call Exc) :
    Inv { w with reporter := reporter } :=
  hI.congr rfl rfl fun _ => List.Sublist.refl _

lemma inv_step {m : Move σ Call Ret Exc} (hI : Inv w) (h : step w m = some w') : Inv w' := by
  cases m with
  | act a => exact hI.step h
  | install reporter =>
    obtain rfl := Option.some.inj h
    exact inv_install hI reporter

lemma inv_later (hI : Inv w) (h : Later w w') : Inv w' :=
  ((Machine.Reachable.init hI).later h).invariant (fun _ hI => hI) fun _ _ _ hI => inv_step hI

lemma later_act {a : Action σ Call Ret Exc} (h : Runs.step w a = some w') : Later w w' :=
  .step (.act a) .refl h

lemma later_of_run (h : Runs.Later w w') : Later w w' := by
  induction h with
  | refl => exact .refl
  | step a _ hst ih => exact .step (.act a) ih hst

lemma later_install (reporter : Reporter Call Exc) : Later w { w with reporter := reporter } :=
  .step (.install reporter) .refl rfl

/-- Every counter goes on from where it stood. -/
theorem policy_later (hI : Inv w) (h : Later w w') (hp : policyOf w e = some p) :
    ∃ p', policyOf w' e = some p' ∧ Advances p p' := by
  refine h.preserves (R := fun w w' => ∀ e p, policyOf w e = some p →
    ∃ p', policyOf w' e = some p' ∧ Advances p p') (fun w e p hp => ⟨p, hp, .refl p⟩) ?_ ?_
    (.init hI) e p hp
  · intro w w' w'' h h' e p hp
    obtain ⟨p', hp', hadv⟩ := h e p hp
    obtain ⟨p'', hp'', hadv'⟩ := h' e p' hp'
    exact ⟨p'', hp'', hadv.trans hadv'⟩
  · intro w m w' hr hst e p hp
    have hI : Inv w := hr.invariant (fun _ hI => hI) fun _ _ _ hI => inv_step hI
    cases m with
    | act a => exact policy_step hI hst hp
    | install reporter =>
      obtain rfl := Option.some.inj hst
      exact ⟨p, hp, .refl p⟩

/-- The policies of an expectation stay what they are. -/
lemma policies_later {x : BasicExpectation σ Call Ret Exc} (h : Later w w')
    (hx : w.exps[e]? = some x) : ∃ x', w'.exps[e]? = some x' ∧ x'.policies = x.policies := by
  induction h with
  | refl => exact ⟨x, hx, rfl⟩
  | step m _ hst ih =>
    obtain ⟨y, hy, hpolicies⟩ := ih
    cases m with
    | act a =>
      obtain ⟨x', hx', hsame⟩ := step_policies hst hy
      exact ⟨x', hx', hsame.trans hpolicies⟩
    | install reporter =>
      obtain rfl := Option.some.inj hst
      exact ⟨y, hy, hpolicies⟩

/-! ### What a call counts for -/

def consumes (e : ExpId) : Event Call Exc → Bool
  | .controlConsumed e' => e' == e
  | _ => false

/-- How often an occurrence matched the expectation. -/
def matchesIn (e : ExpId) : Occurrence Call Exc → ℕ
  | .called _ _ events _ => events.countP (consumes e)
  | _ => 0

@[simp] lemma matchesIn_called (c : CollId) (call : Call) (events : List (Event Call Exc))
    (exit : Except (Exit Exc) Unit) :
    matchesIn e (.called c call events exit) = events.countP (consumes e) := rfl

@[simp] lemma matchesIn_created (e' : ExpId) :
    matchesIn e (.created e' : Occurrence Call Exc) = 0 := rfl

@[simp] lemma matchesIn_user (exit : Except Exc Unit) :
    matchesIn e (.user exit : Occurrence Call Exc) = 0 := rfl

@[simp] lemma matchesIn_removed (e' : ExpId) (n : ℕ) (events : List (Event Call Exc))
    (exit : Except (Exit Exc) Unit) : matchesIn e (.removed e' n events exit) = 0 := rfl

@[simp] lemma matchesIn_sequenceEnded (tag : Tag) (n : ℕ) (message : Option String)
    (exit : Except (Exit Exc) Unit) :
    matchesIn e (.sequenceEnded tag n message exit : Occurrence Call Exc) = 0 := rfl

/-- How often the expectation was matched. -/
def matched (e : ExpId) : List (Occurrence Call Exc) → ℕ
  | [] => 0
  | o :: log => matchesIn e o + matched e log

@[simp] lemma matched_nil : matched e ([] : List (Occurrence Call Exc)) = 0 := rfl

@[simp] lemma matched_cons (o : Occurrence Call Exc) (log : List (Occurrence Call Exc)) :
    matched e (o :: log) = matchesIn e o + matched e log := rfl

@[simp] lemma matched_append (log log' : List (Occurrence Call Exc)) :
    matched e (log ++ log') = matched e log + matched e log' := by
  induction log with
  | nil => simp
  | cons o log ih => simp [ih, Nat.add_assoc]

lemma countP_unhandledOf (l : List (ExpId × BasicExpectation σ Call Ret Exc)) :
    (unhandledOf w call l).countP (consumes e) = 0 := by
  rw [List.countP_eq_zero]
  intro event hevent
  obtain ⟨q, -, hq⟩ := List.mem_filterMap.mp hevent
  split at hq
  · cases hq
  · split at hq
    · obtain rfl := Option.some.inj hq
      simp [consumes]
    · cases hq

/-- A call that is dispatched consumes one expectation, any other call none. -/
lemma countP_handleCall (h : (w.handleCall c call).2.2 ≠ .error .terminate) :
    (w.handleCall c call).2.1.countP (consumes e) =
      if (chosen w c call).map Prod.fst = some e then 1 else 0 := by
  by_cases hrep : Reported w call (w.stored c).reverse
  · rw [chosen_of_reported hrep]
    by_cases hfull : fullMatches w c call = []
    · have hnone : pickBestMatch (fullMatches w c call) = none := by rw [hfull]; rfl
      by_cases hin : reportsWith w c call .inapplicable = []
      · rw [handleCall_of_no_match hrep hfull hin, hnone]
        simp [countP_unhandledOf, consumes]
      · rw [handleCall_of_inapplicable hrep hfull hin, hnone]
        simp [countP_unhandledOf, consumes]
    · obtain ⟨m, hmem, hpick⟩ := pickBestMatch_of_full hfull fun _ => fullMatches_full
      obtain ⟨x, -, hx, -⟩ := mem_fullMatches.mp hmem
      have hdisp := handleCall_of_pick hrep hmem hpick hx
      have hreturns : ∀ i, Returns call x.policies w.env i := by
        by_contra hnot
        rw [not_forall] at hnot
        classical
        have hbefore : ∀ i < Nat.find hnot, Returns call x.policies w.env i := fun i hi =>
          not_not.mp (Nat.find_min hnot hi)
        exact h (hdisp.terminates _ hbefore (Nat.find_spec hnot)).2
      have hrange : ((List.range x.policies.length).map fun i =>
          (.policyConsumed m.1 i : Event Call Exc)).countP (consumes e) = 0 := by
        rw [List.countP_eq_zero]
        intro event hevent
        obtain ⟨i, -, rfl⟩ := List.mem_map.mp hevent
        simp [consumes]
      rw [(hdisp.completes hreturns).1, hpick]
      simp [countP_unhandledOf, consumes, hrange, List.countP_cons]
  · obtain ⟨_, _, _, -, -, -, hcall⟩ := handleCall_of_not_reported hrep
    exact absurd (by rw [hcall]) h

/-- What a call that returns or leaves by an exception does to the counters. -/
lemma countOf_handleCall (hI : Inv w) (h : (w.handleCall c call).2.2 ≠ .error .terminate) :
    countOf (w.handleCall c call).1 e =
      countOf w e + (w.handleCall c call).2.1.countP (consumes e) := by
  rw [countP_handleCall h]
  rcases hm : chosen w c call with _ | m
  · rw [handleCall_of_not_chosen hm]
    simp
  · obtain ⟨env, henv⟩ := handleCall_of_chosen hm
    obtain ⟨q, hq, -, happ⟩ := hI.applicable_of_chosen hm
    have hcount : countOf (w.handleCall c call).1 e = countOf (w.consumeControl m.1) e :=
      countOf_congr (by rw [henv])
    rw [hcount, countOf_consumeControl hI hq (ControlPolicy.isApplicable_iff.mp happ).1]
    simp

lemma handleCall_colls : (w.handleCall c call).1.colls = w.colls := by
  rcases hm : chosen w c call with _ | m
  · rw [handleCall_of_not_chosen hm]
  · obtain ⟨env, henv⟩ := handleCall_of_chosen hm
    rw [henv, consumeControl_colls]

/-! ### What a block leaves behind -/

/-- What a test does to the world and the sequences: in the end every collection stores what it
stored before, and every counter has gone up by the matches that occurred. -/
structure Follows (s : Status σ Call Ret Exc) (log : List (Occurrence Call Exc))
    (s' : Status σ Call Ret Exc) : Prop where
  later : Later s.world s'.world
  constructed_le : s.constructed ≤ s'.constructed
  colls : s'.world.colls = s.world.colls
  counted : ∀ e, countOf s'.world e = countOf s.world e + matched e log

/-- The same, from any state in which the invariant holds. -/
def FollowsInv (s : Status σ Call Ret Exc) (log : List (Occurrence Call Exc))
    (s' : Status σ Call Ret Exc) : Prop :=
  Inv s.world → Follows s log s'

lemma followsInv_composes : Run.Composes (FollowsInv : Status σ Call Ret Exc →
    List (Occurrence Call Exc) → Status σ Call Ret Exc → Prop) := by
  intro a b c log log' hab hbc hI
  have h := hab hI
  have h' := hbc (inv_later hI h.later)
  refine ⟨h.later.trans h'.later, Nat.le_trans h.constructed_le h'.constructed_le,
    h'.colls.trans h.colls, fun e => ?_⟩
  rw [h'.counted, h.counted, matched_append, Nat.add_assoc]

variable {s s' : Status σ Call Ret Exc} {log : List (Occurrence Call Exc)}
variable {b : Builder σ Call Ret Exc} {loc : SourceLocation}

lemma follows_refl : Follows s [] s := ⟨.refl, Nat.le_refl _, rfl, fun _ => rfl⟩

lemma later_create (h : b.finalize loc w = (w', .ok e)) : Later w w' :=
  later_act (a := .create b loc) (by simp [Runs.step, h])

/-- An expectation comes and goes with its block. -/
lemma follows_expect (reporter : Reporter Call Exc) (hI : Inv s.world)
    (hfin : b.finalize loc s.world = (w, .ok e)) (h : Follows { s with world := w } log s') :
    Follows s log { s' with
      world := (World.remove { s'.world with reporter := reporter } b.storage e).1 } := by
  obtain ⟨rfl, hcreated⟩ := finalize_created hfin
  have hcolls : s'.world.colls = Function.update s.world.colls b.storage
      (s.world.colls b.storage ++ [s.world.exps.length]) := h.colls.trans hcreated.colls
  have hnew : s.world.exps.length ∉ s.world.colls b.storage := fun hmem =>
    absurd (hI.stored_lt hmem) (Nat.lt_irrefl _)
  have hstored : s.world.exps.length ∈ s'.world.colls b.storage := by
    rw [hcolls, Function.update_self]
    exact List.mem_append_right _ (List.mem_singleton_self _)
  refine ⟨?_, h.constructed_le, ?_, fun e' => ?_⟩
  · have hdestroy : Later { s'.world with reporter := reporter }
        (World.remove { s'.world with reporter := reporter } b.storage s.world.exps.length).1 :=
      later_act (a := .destroy b.storage s.world.exps.length) (by simp [Runs.step, hstored])
    exact ((later_create hfin).trans h.later).trans ((later_install reporter).trans hdestroy)
  · rw [remove_colls, hcolls, Function.update_self, Function.update_idem,
      List.erase_append_right _ hnew, List.erase_cons_head, List.append_nil,
      Function.update_eq_self]
  · have hkept : countOf (World.remove { s'.world with reporter := reporter } b.storage
        s.world.exps.length).1 e' = countOf s'.world e' := countOf_congr (remove_exps _)
    have hold : countOf w e' = countOf s.world e' :=
      countOf_created (q := newPolicy s.world b) rfl hcreated
    rw [hkept, h.counted, hold]

lemma follows_call (reporter : Reporter Call Exc) (c : CollId) (call : Call) (hI : Inv s.world)
    (hlive : (World.handleCall { s.world with reporter := reporter } c call).2.2 ≠
      .error .terminate) (exit : Except (Exit Exc) Unit) :
    Follows s
      [.called c call (World.handleCall { s.world with reporter := reporter } c call).2.1 exit]
      { s with world := (World.handleCall { s.world with reporter := reporter } c call).1 } where
  later := (later_install reporter).trans (later_of_run handleCall_later)
  constructed_le := Nat.le_refl _
  colls := handleCall_colls
  counted e := by
    have hsame : countOf { s.world with reporter := reporter } e = countOf s.world e := rfl
    rw [matched_cons, matched_nil, Nat.add_zero, matchesIn_called, ← hsame]
    exact countOf_handleCall (inv_install hI reporter) hlive

lemma follows_user (env : σ) (exit : Except Exc Unit) :
    Follows s [.user exit] { s with world := { s.world with env := env } } where
  later := later_act (a := .user env) rfl
  constructed_le := Nat.le_refl _
  colls := rfl
  counted _ := rfl

variable {reporters : ℕ → Reporter Call Exc}

/-- **Every block restores what it found**, however it is left, as long as it has not
terminated. -/
theorem exec_follows (test : Test σ Call Ret Exc) (n : ℕ) (s : Status σ Call Ret Exc) :
    Run.Keeps FollowsInv s (exec reporters test n s) := by
  induction test generalizing s with
  | done => exact Run.Keeps.skip fun _ => follows_refl
  | expect b loc rest ih =>
    simp only [exec]
    split
    · exact fun hlive => absurd rfl hlive
    · rename_i w e hfin
      have hblock : Run.Keeps FollowsInv s ((exec reporters rest n { s with world := w }).leave n
          (destroyExpectation reporters b.storage e)) := by
        refine Run.Keeps.leave (ih _) fun m hrest _ hI => ?_
        have hw : Inv w := inv_later hI (later_create hfin)
        have h := follows_expect (reporters m) hI hfin (hrest hw)
        exact ⟨h.later, h.constructed_le, h.colls, fun e' => by
          rw [matched_append, ← Nat.add_assoc, ← h.counted]
          rfl⟩
      refine hblock.behind fun h hI => ?_
      exact ⟨(h hI).later, (h hI).constructed_le, (h hI).colls, fun e' => by
        rw [(h hI).counted, matched_cons, matchesIn_created, Nat.zero_add]⟩
  | sequence rest ih =>
    refine Run.Keeps.leave (ih _ _) fun m hrest _ hI => ?_
    have h := hrest hI
    exact ⟨h.later, Nat.le_trans (Nat.le_succ _) h.constructed_le, h.colls, fun e' => by
      rw [matched_append, ← Nat.add_assoc]
      exact h.counted e'⟩
  | call c call rest ih =>
    simp only [exec]
    split
    · rename_i w events exit hresult
      intro hlive hI
      have h := follows_call (reporters n) c call hI
        (by rw [hresult]; simpa [Run.single] using hlive) (.error exit)
      rw [hresult] at h
      exact h
    · rename_i w events ret hresult
      refine (ih ret { s with world := w }).behind fun hrest hI => ?_
      have h := follows_call (reporters n) c call hI
        (by rw [hresult]; simp) (.ok ())
      rw [hresult] at h
      exact followsInv_composes (fun _ => h) hrest hI
  | user f rest ih =>
    simp only [exec]
    split
    · exact fun _ _ => follows_user _ _
    · rename_i env _
      refine (ih env _).behind fun hrest hI => ?_
      exact followsInv_composes (fun _ => follows_user env (.ok ())) hrest hI
  | scope body rest ihb ihr =>
    exact (ihb s).andThen followsInv_composes fun _ => ihr _
  | attempt body handler rest ihb ihh ihr =>
    exact ((ihb s).rescue followsInv_composes fun exc _ => ihh exc _).andThen followsInv_composes
      fun _ => ihr _

end MimicPP.Following

import Mathlib.Algebra.BigOperators.Group.List.Basic
import Mathlib.Algebra.GroupWithZero.Nat
import Mathlib.Algebra.Order.Group.Nat
import Mathlib.Data.Nat.Find
import MimicPP.Order

/-!
Sequences cannot deadlock: the earliest expectation that still needs matches is never blocked.

The runs are those of control policies: what is applicable is consumed, in whatever order, and
nothing is destroyed before it is satisfied.
-/

namespace MimicPP.Progress

open MimicPP.Noexcept MimicPP.Sequence MimicPP.Reports MimicPP.Control MimicPP.Expectation
open MimicPP.Matching MimicPP.Transition MimicPP.Runs MimicPP.Invariant

variable {σ Call Ret Exc : Type}

inductive Action (σ Call Ret Exc : Type)
  | create (b : Builder σ Call Ret Exc) (loc : SourceLocation)
  | consume (c : CollId) (e : ExpId)
  | user (env : σ)
  | destroy (c : CollId) (e : ExpId)

/-- One action. Only what is alive and applicable is consumed, and only what is satisfied is
destroyed. -/
def step (w : World σ Call Ret Exc) : Action σ Call Ret Exc → Option (World σ Call Ret Exc)
  | .create b loc => Runs.step w (.create b loc)
  | .consume c e =>
    if e ∈ w.colls c ∧ (policyOf w e).any (fun p => p.isApplicable w.seqs) = true then
      some (w.consumeControl e)
    else none
  | .user env => Runs.step w (.user env)
  | .destroy c e =>
    if (policyOf w e).any ControlPolicy.isSatisfied = true then Runs.step w (.destroy c e)
    else none

def machine (σ Call Ret Exc : Type) : Machine (World σ Call Ret Exc) (Action σ Call Ret Exc) where
  init := Fresh
  step := step

/-- The worlds such runs can reach. -/
abbrev Reachable (w : World σ Call Ret Exc) : Prop := (machine σ Call Ret Exc).Reachable w

/-- Whatever still needs matches is alive. -/
def NoneLost (w : World σ Call Ret Exc) : Prop :=
  ∀ e p, policyOf w e = some p → p.count < p.min → ∃ c, e ∈ w.colls c

/-- The matches still needed. -/
def outstanding (w : World σ Call Ret Exc) : ℕ :=
  (w.exps.map fun x => x.controlPolicy.min - x.controlPolicy.count).sum

variable {w w' : World σ Call Ret Exc} {e : ℕ} {p : ControlPolicy} {c : CollId}

/-! ### What the steps keep -/

/-- **The four ways a world can change.** -/
theorem step_cases {a : Action σ Call Ret Exc} (h : step w a = some w') :
    (∃ b loc e, a = .create b loc ∧ b.finalize loc w = (w', .ok e)) ∨
    (∃ c e p, a = .consume c e ∧ e ∈ w.colls c ∧ policyOf w e = some p ∧
      p.isApplicable w.seqs = true ∧ w' = w.consumeControl e) ∨
    (∃ env, a = .user env ∧ w' = { w with env := env }) ∨
    (∃ c e p, a = .destroy c e ∧ e ∈ w.colls c ∧ policyOf w e = some p ∧
      p.isSatisfied = true ∧ w' = (w.remove c e).1) := by
  cases a with
  | create b loc =>
    have hrun : Runs.step w (.create b loc) = some w' := h
    rcases Runs.step_cases hrun with ⟨b', loc', e, heq, hfin⟩ | ⟨c, call, m, heq, -⟩ |
      ⟨env, heq, -⟩ | ⟨c, e, heq, -⟩ <;> cases heq
    exact .inl ⟨b, loc, e, rfl, hfin⟩
  | consume c e =>
    rw [step] at h
    split at h
    · rename_i hcond
      obtain ⟨hmem, happ⟩ := hcond
      obtain ⟨p, hp, happ⟩ := (Option.any_eq_true _ _).mp happ
      exact .inr (.inl ⟨c, e, p, rfl, hmem, hp, happ, (Option.some.inj h).symm⟩)
    · cases h
  | user env =>
    obtain rfl := Option.some.inj h
    exact .inr (.inr (.inl ⟨env, rfl, rfl⟩))
  | destroy c e =>
    rw [step] at h
    split at h
    · rename_i hsat
      obtain ⟨p, hp, hsat⟩ := (Option.any_eq_true _ _).mp hsat
      rcases Runs.step_cases h with ⟨b', loc', e', heq, -⟩ | ⟨c', call, m, heq, -⟩ |
        ⟨env, heq, -⟩ | ⟨c', e', heq, hmem, rfl⟩ <;> cases heq
      exact .inr (.inr (.inr ⟨c, e, p, rfl, hmem, hp, hsat, rfl⟩))
    · cases h

lemma Inv.step {a : Action σ Call Ret Exc} (hI : Inv w) (h : step w a = some w') : Inv w' := by
  rcases step_cases h with ⟨b, loc, e, -, hfin⟩ | ⟨c, e, p, -, -, hp, happ, rfl⟩ |
    ⟨env, -, rfl⟩ | ⟨c, e, p, -, -, -, -, rfl⟩
  · exact hI.created newPolicy_valid (finalize_created hfin).2
  · exact hI.consumeControl hp happ
  · exact hI.congr rfl rfl fun c => List.Sublist.refl _
  · exact hI.remove

lemma NoneLost.step {a : Action σ Call Ret Exc} (hI : Inv w) (hN : NoneLost w)
    (h : step w a = some w') : NoneLost w' := by
  intro e' p' hp' hlt
  rcases step_cases h with ⟨b, loc, e, -, hfin⟩ | ⟨c, e, p, -, hmem, hp, happ, rfl⟩ |
    ⟨env, -, rfl⟩ | ⟨c, e, p, -, -, hp, hsat, rfl⟩
  · obtain ⟨-, hcre⟩ := finalize_created hfin
    rw [hcre.colls]
    rcases hcre.policy.mp hp' with hold | ⟨rfl, -⟩
    · obtain ⟨c, hc⟩ := hN e' p' hold hlt
      by_cases hcc : c = b.storage
      · subst hcc
        refine ⟨b.storage, ?_⟩
        rw [Function.update_self]
        exact List.mem_append_left _ hc
      · refine ⟨c, ?_⟩
        rw [Function.update_of_ne hcc]
        exact hc
    · refine ⟨b.storage, ?_⟩
      rw [Function.update_self]
      exact List.mem_append_right _ (List.mem_singleton_self _)
  · rw [consumeControl_colls]
    have hcons := hI.consumed hp (ControlPolicy.isApplicable_iff.mp happ).1
    rcases hcons.policy.mp hp' with ⟨rfl, -⟩ | ⟨-, hold⟩
    · exact ⟨c, hmem⟩
    · exact hN e' p' hold hlt
  · exact hN e' p' hp' hlt
  · -- what is removed needs nothing any more
    rw [policyOf, remove_exps] at hp'
    obtain ⟨c', hc'⟩ := hN e' p' hp' hlt
    have hne : e' ≠ e := by
      rintro rfl
      obtain rfl : p = p' := Option.some.inj (hp.symm.trans hp')
      simp only [ControlPolicy.isSatisfied, Bool.and_eq_true, decide_eq_true_eq] at hsat
      omega
    refine ⟨c', ?_⟩
    rw [remove_colls]
    by_cases hcc : c' = c
    · subst hcc
      rw [Function.update_self]
      exact (List.mem_erase_of_ne hne).mpr hc'
    · rw [Function.update_of_ne hcc]
      exact hc'

lemma reachable_good (h : Reachable w) : Inv w ∧ NoneLost w :=
  h.invariant (I := fun w => Inv w ∧ NoneLost w)
    (fun w h₀ => ⟨Inv.fresh h₀, fun e p hp => by simp [policyOf, h₀.exps] at hp⟩)
    fun w a w' hgood hst => ⟨Inv.step hgood.1 hst, NoneLost.step hgood.1 hgood.2 hst⟩

/-! ### The earliest expectation that needs matches -/

structure Earliest (w : World σ Call Ret Exc) (e : ℕ) (p : ControlPolicy) : Prop where
  policy : policyOf w e = some p
  count_lt : p.count < p.min
  earlier : ∀ {e' : ℕ} {p'}, policyOf w e' = some p' → e' < e → p'.min ≤ p'.count

/-- Whatever stands before it in any of its sequences is done, and no cursor has passed it. -/
lemma Earliest.isApplicable (hI : Inv w) (h : Earliest w e p) :
    p.isApplicable w.seqs = true := by
  have hlt : p.count < p.max := Nat.lt_of_lt_of_le h.count_lt (hI.valid h.policy).min_le_max
  refine ControlPolicy.isApplicable_iff.mpr ⟨hlt, fun tag id hmem => ?_⟩
  have ha : Attached w e p tag id := ⟨h.policy, hmem⟩
  have hopen : p.entryState = .unsatisfied := by
    by_contra hne
    exact Nat.not_le.mpr h.count_lt (ControlPolicy.entryState_ne_unsatisfied.mp hne)
  have hcur : (w.seqs tag).cursor ≤ id := by
    by_contra hpassed
    refine (hI.valid_seqs tag).passed (Nat.lt_of_not_le hpassed) ?_
    rw [hI.entry ha, hopen]
  refine hI.consumable_of_min_le_count ha hcur hlt fun ha' _ hbefore => ?_
  exact h.earlier ha'.policy ((hI.position_lt_iff ha' ha).mp hbefore)

lemma exists_earliest (h : outstanding w ≠ 0) : ∃ e p, Earliest w e p := by
  have hex : ∃ e p, policyOf w e = some p ∧ p.count < p.min := by
    by_contra hnone
    refine h (List.sum_eq_zero fun n hn => ?_)
    obtain ⟨x, hx, rfl⟩ := List.mem_map.mp hn
    obtain ⟨e, he⟩ := List.mem_iff_getElem?.mp hx
    by_contra hpos
    exact hnone ⟨e, _, policyOf_of_some he, by omega⟩
  classical
  obtain ⟨p, hp, hlt⟩ := Nat.find_spec hex
  refine ⟨Nat.find hex, p, hp, hlt, fun {e' p'} hp' hbefore => ?_⟩
  by_contra hopen
  exact Nat.find_min hex hbefore ⟨p', hp', Nat.lt_of_not_le hopen⟩

/-- A match of an expectation that needs one brings the number down. -/
lemma outstanding_consumeControl (hp : policyOf w e = some p) (hlt : p.count < p.min) :
    outstanding (w.consumeControl e) < outstanding w := by
  obtain ⟨x, hx, rfl⟩ := policyOf_eq_some.mp hp
  obtain ⟨hlen, hget⟩ := List.getElem?_eq_some_iff.mp hx
  have hsplit : w.exps = w.exps.take e ++ x :: w.exps.drop (e + 1) := by
    rw [← hget, List.getElem_cons_drop, List.take_append_drop]
  have hset : (w.consumeControl e).exps = w.exps.take e ++
      { x with controlPolicy := x.controlPolicy.increment } :: w.exps.drop (e + 1) := by
    rw [consumeControl_of_some hx, List.set_eq_take_append_cons_drop, if_pos hlen]
  rw [outstanding, outstanding, hset]
  conv_rhs => rw [hsplit]
  simp only [List.map_append, List.map_cons, List.sum_append, List.sum_cons,
    ControlPolicy.increment_min, ControlPolicy.increment_count]
  omega

/-- **The earliest expectation can always be served**, which brings the end nearer. -/
lemma exists_step (hgood : Inv w ∧ NoneLost w) (h : outstanding w ≠ 0) :
    ∃ (a : Action σ Call Ret Exc) (w' : World σ Call Ret Exc), (∃ c e, a = .consume c e) ∧
      (machine σ Call Ret Exc).step w a = some w' ∧ (Inv w' ∧ NoneLost w') ∧
      outstanding w' < outstanding w := by
  obtain ⟨hI, hN⟩ := hgood
  obtain ⟨e, p, hearliest⟩ := exists_earliest h
  obtain ⟨c, hc⟩ := hN e p hearliest.policy hearliest.count_lt
  have hst : step w (.consume c e) = some (w.consumeControl e) := by
    rw [step, if_pos]
    exact ⟨hc, (Option.any_eq_true _ _).mpr ⟨p, hearliest.policy, hearliest.isApplicable hI⟩⟩
  exact ⟨.consume c e, _, ⟨c, e, rfl⟩, hst, ⟨Inv.step hI hst, NoneLost.step hI hN hst⟩,
    outstanding_consumeControl hearliest.policy hearliest.count_lt⟩

/-- **Sequences cannot deadlock**: the earliest expectation that still needs matches is
applicable, and some finite order of consuming applicable expectations satisfies them all. -/
theorem no_deadlock (hr : Reachable w) :
    (∀ e p, Earliest w e p → p.isApplicable w.seqs = true) ∧
      ∃ (order : List (Action σ Call Ret Exc)) (w' : World σ Call Ret Exc),
        (∀ a ∈ order, ∃ c e, a = .consume c e) ∧
        (machine σ Call Ret Exc).replay w order = some w' ∧
        ∀ e p, policyOf w' e = some p → p.isSatisfied = true := by
  have hgood := reachable_good hr
  refine ⟨fun e p h => h.isApplicable hgood.1, ?_⟩
  obtain ⟨order, w', horder, hreplay, hgood', hzero⟩ :=
    Machine.exists_replay_of_decreases (I := fun w => Inv w ∧ NoneLost w) (μ := outstanding)
      (fun _ hgood h => exists_step hgood h) hgood
  refine ⟨order, w', horder, hreplay, fun e p hp => ?_⟩
  have hcount : p.min ≤ p.count := by
    obtain ⟨x, hx, rfl⟩ := policyOf_eq_some.mp hp
    have hmem : x.controlPolicy.min - x.controlPolicy.count ∈
        w'.exps.map fun x => x.controlPolicy.min - x.controlPolicy.count :=
      List.mem_map.mpr ⟨x, List.mem_of_getElem? hx, rfl⟩
    have := List.sum_eq_zero_iff_forall_eq_nat.mp hzero _ hmem
    omega
  simp [ControlPolicy.isSatisfied, hcount, (hgood'.1.valid hp).count_le_max]

/-- Two expectations that list the same two sequences the other way round; the younger one
has been matched once. -/
def crosswise : List (Action Unit Unit Unit Unit) :=
  [.create (anyCall 0 0 1 [0, 1] ()) ⟨"", 0⟩,
    .create (anyCall 0 2 3 [1, 0] ()) ⟨"", 0⟩,
    .consume 0 1]

/-- One match is missing. -/
theorem no_deadlock_crosswise :
    ∃ w : World Unit Unit Unit Unit, outstanding w = 1 ∧
      (∀ e p, Earliest w e p → p.isApplicable w.seqs = true) ∧
      ∃ (order : List (Action Unit Unit Unit Unit)) (w' : World Unit Unit Unit Unit),
        (∀ a ∈ order, ∃ c e, a = .consume c e) ∧
        (machine Unit Unit Unit Unit).replay w order = some w' ∧
        ∀ e p, policyOf w' e = some p → p.isSatisfied = true := by
  have h : ((machine Unit Unit Unit Unit).replay (start (quietReporter ()) () fun _ => .lazy)
      crosswise).isSome = true := by decide +kernel
  obtain ⟨w, hrun, hr⟩ := Machine.exists_reachable_of_replay (start_fresh _ _ _) h
  have hone : outstanding w = 1 := by
    cases hrun
    decide +kernel
  exact ⟨w, hone, no_deadlock hr⟩

/-! ### The runs of whole calls -/

/-- **Calls are such runs**: a run of calls that destroys no expectation before it is
satisfied stays among the worlds above. -/
theorem reachable_of_calls {w : World σ Call Ret Exc}
    (h : (Runs.machine σ Call Ret Exc).ReachableVia
      (fun w a => ∀ c e p, a = .destroy c e → policyOf w e = some p → p.isSatisfied = true) w) :
    Reachable w := by
  induction h with
  | init h₀ => exact .init h₀
  | @step w w' a hr hcond hst ih =>
    have hI := reachable_inv hr.reachable
    rcases Runs.step_cases hst with ⟨b, loc, e, rfl, -⟩ | ⟨c, call, m, rfl, hm, rfl⟩ |
      ⟨env, rfl, -⟩ | ⟨c, e, rfl, hmem, -⟩
    · exact .step (.create b loc) ih hst
    · obtain ⟨p, hp, hmem, happ⟩ := hI.applicable_of_chosen hm
      have hconsume : step w (.consume c m.1) = some (w.consumeControl m.1) := by
        rw [step, if_pos]
        exact ⟨hmem, (Option.any_eq_true _ _).mpr ⟨p, hp, happ⟩⟩
      exact .step (.consume c m.1) ih hconsume
    · exact .step (.user env) ih hst
    · have hx := List.getElem?_eq_getElem (hI.stored_lt hmem)
      have hp := policyOf_of_some hx
      have hdestroy : step w (.destroy c e) = some w' := by
        rw [step, if_pos]
        · exact hst
        · exact (Option.any_eq_true _ _).mpr ⟨_, hp, hcond c e _ rfl hp⟩
      exact .step (.destroy c e) ih hdestroy

end MimicPP.Progress

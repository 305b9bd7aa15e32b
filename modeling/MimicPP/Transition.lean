import Mathlib.Tactic.Common

/-!
Guarded transition systems with an executable step function: reachable states, runs,
invariants, and the relations a run preserves.

The step function returns `none` where an action is not enabled, so one definition serves
the proofs and the replay of a concrete run.
-/

namespace MimicPP.Transition

/-- Where a run may start, and what each enabled action does. -/
structure Machine (S L : Type*) where
  init : S → Prop
  step : S → L → Option S

namespace Machine

variable {S L : Type*} (M : Machine S L)

/-- The states some run ends in. -/
inductive Reachable : S → Prop
  | init {s : S} : M.init s → Reachable s
  | step {s t : S} (l : L) : Reachable s → M.step s l = some t → Reachable t

/-- The states some run ends in whose every step meets the condition `P` when it is taken. -/
inductive ReachableVia (P : S → L → Prop) : S → Prop
  | init {s : S} : M.init s → ReachableVia P s
  | step {s t : S} (l : L) : ReachableVia P s → P s l → M.step s l = some t → ReachableVia P t

/-- The states a run from `s` passes through. -/
inductive Later (s : S) : S → Prop
  | refl : Later s s
  | step {t u : S} (l : L) : Later s t → M.step t l = some u → Later s u

/-- Takes the listed actions in order; `none` if one of them is not enabled. -/
def replay : S → List L → Option S
  | s, [] => some s
  | s, l :: ls => (M.step s l).bind fun t => replay t ls

/-- Adds up what the steps of a replay count for. -/
def tally (f : S → L → ℕ) : S → List L → ℕ
  | _, [] => 0
  | s, l :: ls => f s l + (M.step s l).elim 0 fun t => tally f t ls

/-- Whether every step of a replay meets the condition when it is taken. -/
def stepsMeet (P : S → L → Prop) [∀ s l, Decidable (P s l)] : S → List L → Bool
  | _, [] => true
  | s, l :: ls => decide (P s l) && (M.step s l).elim true fun t => stepsMeet P t ls

variable {M}

lemma ReachableVia.reachable {P : S → L → Prop} {s : S} (h : M.ReachableVia P s) :
    M.Reachable s := by
  induction h with
  | init h0 => exact .init h0
  | step l _ _ hst ih => exact .step l ih hst

lemma Reachable.later {s t : S} (hs : M.Reachable s) (h : M.Later s t) : M.Reachable t := by
  induction h with
  | refl => exact hs
  | step l _ hst ih => exact .step l ih hst

lemma Later.head {s t u : S} {l : L} (hst : M.step s l = some t) (h : M.Later t u) :
    M.Later s u := by
  induction h with
  | refl => exact .step l .refl hst
  | step l' _ hst' ih => exact .step l' ih hst'

lemma later_of_replay {s t : S} {ls : List L} (h : M.replay s ls = some t) : M.Later s t := by
  induction ls generalizing s with
  | nil => obtain rfl : s = t := by simpa [replay] using h
           exact .refl
  | cons l ls ih =>
    obtain ⟨u, hu, hrest⟩ := Option.bind_eq_some_iff.mp h
    exact (ih hrest).head hu

/-- The end of a replay from an initial state is reachable. -/
lemma Reachable.of_replay {s t : S} {ls : List L} (h0 : M.init s)
    (h : M.replay s ls = some t) : M.Reachable t :=
  (Reachable.init h0).later (later_of_replay h)

lemma reachable_of_replay {s : S} (h0 : M.init s) (ls : List L)
    (h : (M.replay s ls).isSome = true) : M.Reachable ((M.replay s ls).get h) :=
  .of_replay h0 (Option.some_get h).symm

lemma exists_reachable_of_replay {s : S} {ls : List L} (h0 : M.init s)
    (h : (M.replay s ls).isSome = true) : ∃ t, M.replay s ls = some t ∧ M.Reachable t := by
  obtain ⟨t, ht⟩ := Option.isSome_iff_exists.mp h
  exact ⟨t, ht, .of_replay h0 ht⟩

/-- A run may be checked for its condition while it is replayed. -/
lemma ReachableVia.of_replay {P : S → L → Prop} [∀ s l, Decidable (P s l)] {s t : S}
    {ls : List L} (hs : M.ReachableVia P s) (hP : M.stepsMeet P s ls = true)
    (h : M.replay s ls = some t) : M.ReachableVia P t := by
  induction ls generalizing s with
  | nil => obtain rfl : s = t := by simpa [replay] using h
           exact hs
  | cons l ls ih =>
    obtain ⟨u, hu, hrest⟩ := Option.bind_eq_some_iff.mp h
    rw [stepsMeet, Bool.and_eq_true, decide_eq_true_eq, hu] at hP
    exact ih (.step l hs hP.1 hu) hP.2 hrest

/-- **The invariant rule**: what holds initially and survives every step always holds. -/
theorem Reachable.invariant {I : S → Prop} (h0 : ∀ s, M.init s → I s)
    (hstep : ∀ s l t, I s → M.step s l = some t → I t) {s : S} (h : M.Reachable s) : I s := by
  induction h with
  | init hi => exact h0 _ hi
  | step l _ hst ih => exact hstep _ l _ ih hst

/-- **The counting rule**: an invariant with a counter that each step moves by what it counts
for, along a replay of actions that all meet a condition. -/
theorem count_of_replay {I : ℕ → S → Prop} {P : L → Prop} {f : S → L → ℕ}
    (hstep : ∀ n s l t, I n s → P l → M.step s l = some t → I (n + f s l) t) {n : ℕ} {s t : S}
    {ls : List L} (hP : ∀ l ∈ ls, P l) (hs : I n s) (h : M.replay s ls = some t) :
    I (n + M.tally f s ls) t := by
  induction ls generalizing n s with
  | nil =>
    obtain rfl : s = t := by simpa [replay] using h
    simpa [tally] using hs
  | cons l ls ih =>
    obtain ⟨u, hu, hrest⟩ := Option.bind_eq_some_iff.mp h
    have hhead := hstep n s l u hs (hP l List.mem_cons_self) hu
    have htail := ih (fun l' hl' => hP l' (List.mem_cons_of_mem _ hl')) hhead hrest
    rw [tally, hu, Option.elim_some, ← Nat.add_assoc]
    exact htail

/-- **The invariant rule under a condition on the steps**; the states passed through may be
used as reachable. -/
theorem ReachableVia.invariant {P : S → L → Prop} {I : S → Prop} (h0 : ∀ s, M.init s → I s)
    (hstep : ∀ s l t, M.Reachable s → I s → P s l → M.step s l = some t → I t) {s : S}
    (h : M.ReachableVia P s) : I s := by
  induction h with
  | init hi => exact h0 _ hi
  | step l hr hp hst ih => exact hstep _ l _ hr.reachable ih hp hst

/-- **The run rule**: a reflexive and transitive relation between the two ends of every step
holds between the two ends of every run. -/
theorem Later.preserves {R : S → S → Prop} (hrefl : ∀ s, R s s)
    (htrans : ∀ s t u, R s t → R t u → R s u)
    (hstep : ∀ s l t, M.Reachable s → M.step s l = some t → R s t) {s t : S}
    (hs : M.Reachable s) (h : M.Later s t) : R s t := by
  induction h with
  | refl => exact hrefl s
  | step l hl hst ih => exact htrans _ _ _ ih (hstep _ l _ (hs.later hl) hst)

/-- **The accounting rule**: a measure that grows with every step by what the step counts for
grows along a replay by the tally. -/
theorem tally_of_replay {I : S → Prop} {μ : S → ℕ} {f : S → L → ℕ}
    (hkeep : ∀ s l t, I s → M.step s l = some t → I t)
    (hstep : ∀ s l t, I s → M.step s l = some t → μ t = μ s + f s l) {s t : S} {ls : List L}
    (hs : I s) (h : M.replay s ls = some t) : μ t = μ s + M.tally f s ls := by
  have hcount := count_of_replay (I := fun n s => I s ∧ μ s = n) (P := fun _ => True) (f := f)
    (fun n s l t hs _ hst => ⟨hkeep s l t hs.1 hst, by rw [hstep s l t hs.1 hst, hs.2]⟩)
    (fun _ _ => trivial) ⟨hs, rfl⟩ h
  exact hcount.2

/-- **The progress rule**: where a step of a kind can always bring a measure down, some finite
order of such steps brings it to zero. -/
theorem exists_replay_of_decreases {I : S → Prop} {P : L → Prop} {μ : S → ℕ}
    (hstep : ∀ s, I s → μ s ≠ 0 → ∃ l t, P l ∧ M.step s l = some t ∧ I t ∧ μ t < μ s) {s : S}
    (hs : I s) : ∃ ls t, (∀ l ∈ ls, P l) ∧ M.replay s ls = some t ∧ I t ∧ μ t = 0 := by
  induction hn : μ s using Nat.strongRecOn generalizing s with
  | ind n ih =>
    by_cases hzero : μ s = 0
    · exact ⟨[], s, by simp, rfl, hs, hzero⟩
    · obtain ⟨l, u, hl, hu, hIu, hlt⟩ := hstep s hs hzero
      obtain ⟨ls, t, hls, ht, hIt, hμ⟩ := ih (μ u) (hn ▸ hlt) hIu rfl
      refine ⟨l :: ls, t, ?_, ?_, hIt, hμ⟩
      · simpa [hl] using hls
      · rw [replay, hu, Option.bind_some, ht]

/-! ### Simulation -/

variable {T K : Type*} {N : Machine T K} {f : S → T}

/-- Every step of `M`, seen through `f`, is a step of `N` or no change at all. -/
structure Simulates (M : Machine S L) (N : Machine T K) (f : S → T) : Prop where
  init : ∀ s, M.init s → N.init (f s)
  step : ∀ s l t, M.step s l = some t → f t = f s ∨ ∃ k, N.step (f s) k = some (f t)

lemma Simulates.later (h : Simulates M N f) {s t : S} (hst : M.Later s t) :
    N.Later (f s) (f t) := by
  induction hst with
  | refl => exact .refl
  | step l _ hl ih =>
    rcases h.step _ l _ hl with heq | ⟨k, hk⟩
    · rw [heq]
      exact ih
    · exact .step k ih hk

/-- **Reachability carries over**: what holds of every state of `N` holds of what is seen of
every state of `M`. -/
theorem Simulates.reachable (h : Simulates M N f) {s : S} (hs : M.Reachable s) :
    N.Reachable (f s) := by
  induction hs with
  | init h0 => exact .init (h.init _ h0)
  | step l _ hl ih =>
    rcases h.step _ l _ hl with heq | ⟨k, hk⟩
    · rw [heq]
      exact ih
    · exact .step k ih hk

/-- **The lockstep rule**: where related actions take related states to related states, a replay
has its counterpart in the replay of a related list of actions. -/
theorem exists_replay_of_lockstep {R : S → T → Prop} {Q : L → K → Prop}
    (hstep : ∀ s t l k s', R s t → Q l k → M.step s l = some s' →
      ∃ t', N.step t k = some t' ∧ R s' t') {s s' : S} {t : T} {ls : List L} {ks : List K}
    (h : R s t) (hQ : List.Forall₂ Q ls ks) (hrun : M.replay s ls = some s') :
    ∃ t', N.replay t ks = some t' ∧ R s' t' := by
  induction hQ generalizing s t with
  | nil =>
    obtain rfl : s = s' := by simpa [replay] using hrun
    exact ⟨t, rfl, h⟩
  | cons hlk _ ih =>
    obtain ⟨u, hu, hrest⟩ := Option.bind_eq_some_iff.mp hrun
    obtain ⟨v, hv, huv⟩ := hstep _ _ _ _ _ h hlk hu
    obtain ⟨t', ht', hend⟩ := ih huv hrest
    exact ⟨t', by rw [replay, hv, Option.bind_some, ht'], hend⟩

lemma Later.trans {s t u : S} (hst : M.Later s t) (htu : M.Later t u) : M.Later s u := by
  induction htu with
  | refl => exact hst
  | step l _ hl ih => exact .step l ih hl

end Machine

end MimicPP.Transition

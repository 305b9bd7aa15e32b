import MimicPP.Order

/-!
Calls within calls.

The side effects and the finalizer of a matched expectation are user code, and user code may
call the mocks again before it returns. So there is a stack of calls in progress, with user
code of the innermost one running; below the stack runs the test itself. User code changes its
own variables, makes a call, returns or throws.
-/

namespace MimicPP.Reentrant

open MimicPP.Noexcept MimicPP.Sequence MimicPP.Reports MimicPP.Control MimicPP.Expectation
open MimicPP.Matching MimicPP.Transition MimicPP.Runs MimicPP.Invariant MimicPP.Order

variable {σ Call Ret Exc : Type}

/-- How far a dispatched call has come: one of its policies is being consumed and `remaining`
more follow, or its finalizer runs. -/
inductive Stage
  | consuming (remaining : ℕ)
  | finalizing

/-- The stage before the next of `n` policies. -/
def Stage.before : ℕ → Stage
  | 0 => .finalizing
  | n + 1 => .consuming n

structure Frame where
  exp : ExpId
  stage : Stage

/-- The calls in progress, innermost first. -/
structure Nested (σ Call Ret Exc : Type) where
  world : World σ Call Ret Exc
  stack : List Frame
  terminated : Bool

inductive Action (σ Call Ret Exc : Type)
  | create (b : Builder σ Call Ret Exc) (loc : SourceLocation)
  | destroy (c : CollId) (e : ExpId)
  | call (c : CollId) (call : Call)
  | user (env : σ)
  | ret
  | throw

/-- The user code on top of the stack returns. -/
def returned : List Frame → Option (List Frame)
  | [] => none
  | ⟨e, .consuming remaining⟩ :: frames => some (⟨e, .before remaining⟩ :: frames)
  | ⟨_, .finalizing⟩ :: frames => some frames

/-- The user code on top of the stack throws. A policy is consumed inside a `noexcept` lambda;
what a finalizer throws reaches the caller of the mock. -/
def thrown : List Frame → Option (Except Unit (List Frame))
  | [] => none
  | ⟨_, .consuming _⟩ :: _ => some (.error ())
  | ⟨_, .finalizing⟩ :: frames => some (.ok frames)

/-- An action of the user code on top. A rejected call leaves by an exception that this user
code gets; an expectation is not destroyed while a call to it is in progress. -/
def step (s : Nested σ Call Ret Exc) (a : Action σ Call Ret Exc) : Option (Nested σ Call Ret Exc) :=
  if s.terminated then none
  else
    match a with
    | .create b loc =>
      match b.finalize loc s.world with
      | (w, .ok _) => some { s with world := w }
      | (_, .error _) => some { s with terminated := true }
    | .destroy c e =>
      if e ∈ s.world.colls c ∧ ¬ s.stack.any (fun f => f.exp == e) then
        some { s with world := (s.world.remove c e).1 }
      else none
    | .call c call =>
      match (s.world.collectMatches c call).2 with
      | .error _ => some { s with terminated := true }
      | .ok b =>
        match pickBestMatch b.fullMatches with
        | none => some s
        | some m =>
          (s.world.exps[m.1]?).map fun x =>
            { s with
              world := s.world.consumeControl m.1
              stack := ⟨m.1, .before x.policies.length⟩ :: s.stack }
    | .user env => some { s with world := { s.world with env := env } }
    | .ret => (returned s.stack).map fun frames => { s with stack := frames }
    | .throw =>
      (thrown s.stack).map fun
        | .ok frames => { s with stack := frames }
        | .error () => { s with terminated := true }

def machine (σ Call Ret Exc : Type) : Machine (Nested σ Call Ret Exc) (Action σ Call Ret Exc) where
  init s := Fresh s.world ∧ s.stack = [] ∧ s.terminated = false
  step := step

/-- One, if the action is a call that is dispatched to the expectation. -/
def dispatchedTo (e : ExpId) (s : Nested σ Call Ret Exc) : Action σ Call Ret Exc → ℕ
  | .call c call => if (chosen s.world c call).map Prod.fst = some e then 1 else 0
  | _ => 0

/-- The number of calls of a run that are dispatched to the expectation, however they end. -/
def calls (s : Nested σ Call Ret Exc) (run : List (Action σ Call Ret Exc)) (e : ExpId) : ℕ :=
  (machine σ Call Ret Exc).tally (dispatchedTo e) s run

variable {s s' s₀ : Nested σ Call Ret Exc} {a : Action σ Call Ret Exc}
variable {run : List (Action σ Call Ret Exc)} {w : World σ Call Ret Exc}
variable {c : CollId} {call : Call} {e : ℕ} {x : BasicExpectation σ Call Ret Exc}

/-! ### Nested runs as runs -/

lemma step_call (h : step s (.call c call) = some s') :
    (s'.world = s.world ∧ chosen s.world c call = none) ∨
      ∃ m, chosen s.world c call = some m ∧ s'.world = s.world.consumeControl m.1 := by
  rw [step] at h
  split at h
  · cases h
  · rcases hcoll : (s.world.collectMatches c call).2 with exit | b
    · obtain rfl := Option.some.inj (by simpa only [hcoll] using h)
      exact .inl ⟨rfl, by simp only [chosen, hcoll]⟩
    · simp only [hcoll] at h
      rcases hpick : pickBestMatch b.fullMatches with _ | m
      · obtain rfl := Option.some.inj (by simpa only [hpick] using h)
        exact .inl ⟨rfl, by simp only [chosen, hcoll, hpick]⟩
      · simp only [hpick] at h
        obtain ⟨y, -, rfl⟩ := Option.map_eq_some_iff.mp h
        exact .inr ⟨m, by simp only [chosen, hcoll, hpick], rfl⟩

/-- What an action does to the world is an action of a plain run, which counts for the same
expectation, or nothing. -/
lemma step_world (h : step s a = some s') :
    (s'.world = s.world ∧ ∀ e, dispatchedTo e s a = 0) ∨
      ∃ b, Runs.step s.world b = some s'.world ∧
        ∀ e, dispatchedTo e s a = dispatched e s.world b := by
  cases a with
  | create b loc =>
    rw [step] at h
    split at h
    · cases h
    · rcases hfin : b.finalize loc s.world with ⟨w, exit | e⟩
      · obtain rfl := Option.some.inj (by simpa only [hfin] using h)
        exact .inl ⟨rfl, fun _ => rfl⟩
      · obtain rfl := Option.some.inj (by simpa only [hfin] using h)
        exact .inr ⟨.create b loc, by simp only [Runs.step, hfin], fun _ => rfl⟩
  | destroy c e =>
    rw [step] at h
    split at h
    · cases h
    · split at h
      · rename_i hmem
        obtain rfl := Option.some.inj h
        exact .inr ⟨.destroy c e, by simp only [Runs.step, if_pos hmem.1], fun _ => rfl⟩
      · cases h
  | call c call =>
    rcases step_call h with ⟨hw, hnone⟩ | ⟨m, hm, hw⟩
    · exact .inl ⟨hw, fun e => by simp [dispatchedTo, hnone]⟩
    · exact .inr ⟨.commit c call, by simp only [Runs.step, hm, hw, Option.map_some], fun _ => rfl⟩
  | user env =>
    rw [step] at h
    split at h
    · cases h
    · obtain rfl := Option.some.inj h
      exact .inr ⟨.user env, rfl, fun _ => rfl⟩
  | ret =>
    rw [step] at h
    split at h
    · cases h
    · obtain ⟨frames, -, rfl⟩ := Option.map_eq_some_iff.mp h
      exact .inl ⟨rfl, fun _ => rfl⟩
  | throw =>
    rw [step] at h
    split at h
    · cases h
    · obtain ⟨exit, -, rfl⟩ := Option.map_eq_some_iff.mp h
      refine .inl ⟨?_, fun _ => rfl⟩
      split <;> rfl

/-- **Nesting adds no worlds**: every world of a nested run is the world of a plain one. -/
theorem simulates :
    Machine.Simulates (machine σ Call Ret Exc) (Runs.machine σ Call Ret Exc) Nested.world where
  init _ h := h.1
  step _ _ _ h := by
    rcases step_world h with ⟨hw, -⟩ | ⟨b, hb, -⟩
    · exact .inl hw
    · exact .inr ⟨b, hb⟩

/-! ### A call without nested calls -/

lemma consumePolicies_later {ps : List (Policy σ Call Exc)} {w : World σ Call Ret Exc}
    {stack : List Frame} {index : ℕ} {env : σ} {events : List (Event Call Exc)}
    (h : consumePolicies call e index ps w.env = (env, events, .ok ())) :
    (machine σ Call Ret Exc).Later ⟨w, ⟨e, .before ps.length⟩ :: stack, false⟩
      ⟨{ w with env := env }, ⟨e, .finalizing⟩ :: stack, false⟩ := by
  induction ps generalizing w index events with
  | nil =>
    obtain ⟨rfl, -⟩ : w.env = env ∧ _ := by simpa [consumePolicies] using h
    exact .refl
  | cons p ps ih =>
    rcases hp : p.consume w.env call with ⟨env', exc | u⟩
    · simp [consumePolicies, hp] at h
    · rcases hrest : consumePolicies call e (index + 1) ps env' with ⟨env'', events', r⟩
      obtain ⟨rfl, -, rfl⟩ : env'' = env ∧ _ ∧ r = .ok () := by
        simpa [consumePolicies, hp, hrest] using h
      have htail := ih (w := { w with env := env' }) hrest
      have hret : (machine σ Call Ret Exc).Later ⟨w, ⟨e, .before (p :: ps).length⟩ :: stack, false⟩
          ⟨{ w with env := env' }, ⟨e, .before ps.length⟩ :: stack, false⟩ :=
        .step .ret (.step (.user env') .refl rfl) rfl
      exact hret.trans htail

/-- **A whole call is a nested run**: unless it terminates, `handle_call` is dispatched, its
policies return one after another, and its finalizer returns or throws. -/
theorem handleCall_nested (stack : List Frame)
    (h : (w.handleCall c call).2.2 ≠ .error .terminate) :
    (machine σ Call Ret Exc).Later ⟨w, stack, false⟩
      ⟨(w.handleCall c call).1, stack, false⟩ := by
  rcases hch : chosen w c call with _ | m
  · rw [handleCall_of_not_chosen hch]
    exact .refl
  · obtain ⟨hpick, hmem⟩ := chosen_eq_some hch
    obtain ⟨x, -, hx, -⟩ := mem_fullMatches.mp hmem
    rcases hcoll : w.collectMatches c call with ⟨events, exit | b⟩
    · simp [chosen, hcoll] at hch
    · have hfull := collectMatches_ok hcoll
      have hpick' : pickBestMatch b.fullMatches = some m := by rw [hfull]; exact hpick
      have hne : b.fullMatches ≠ [] := by
        rw [hfull]
        exact List.ne_nil_of_mem hmem
      have hcall : w.handleCall c call = ((w.consumeAndFinalize call m.1).1,
          events ++ .fullMatch call m.2 :: (w.consumeAndFinalize call m.1).2.1,
          (w.consumeAndFinalize call m.1).2.2) := by
        simp only [World.handleCall, hcoll, hpick', if_pos hne]
      have hdispatch : (machine σ Call Ret Exc).step ⟨w, stack, false⟩ (.call c call) =
          some ⟨w.consumeControl m.1, ⟨m.1, .before x.policies.length⟩ :: stack, false⟩ := by
        simp [machine, step, hcoll, hpick', hx]
      rw [hcall] at h ⊢
      rcases hpol : consumePolicies call m.1 0 x.policies (w.consumeControl m.1).env
        with ⟨env, events', exit | u⟩
      · -- a policy that throws ends the program
        obtain rfl := consumePolicies_error hpol
        simp only [World.consumeAndFinalize, hx, hpol] at h
        exact absurd rfl h
      · have hworld : (w.consumeAndFinalize call m.1).1 =
            { w.consumeControl m.1 with env := (x.finalizer env call).1 } := by
          simp only [World.consumeAndFinalize, hx, hpol]
        rw [hworld]
        refine Machine.Later.head hdispatch ((consumePolicies_later hpol).trans ?_)
        exact .step .ret (.step (.user (x.finalizer env call).1) .refl rfl) rfl

/-! ### Conservation -/

lemma countOf_nested_step (hI : Inv s.world) (h : step s a = some s') :
    countOf s'.world e = countOf s.world e + dispatchedTo e s a := by
  rcases step_world h with ⟨hw, hzero⟩ | ⟨b, hb, heq⟩
  · rw [hw, hzero]
    rfl
  · rw [heq]
    exact countOf_step hI hb

/-- The counter is ahead of the user code: it has counted every call dispatched so far, those
included whose side effects or finalizer still run or have thrown. -/
lemma countOf_eq_calls (h₀ : (machine σ Call Ret Exc).init s₀)
    (hrun : (machine σ Call Ret Exc).replay s₀ run = some s) :
    countOf s.world e = calls s₀ run e := by
  have hkeep : ∀ (s : Nested σ Call Ret Exc) a s', Inv s.world → step s a = some s' →
      Inv s'.world := by
    intro s a s' hI h
    rcases step_world h with ⟨hw, -⟩ | ⟨b, hb, -⟩
    · rw [hw]
      exact hI
    · exact hI.step hb
  have htally := Machine.tally_of_replay (I := fun s => Invariant.Inv s.world)
    (μ := fun s => countOf s.world e) (f := dispatchedTo e) hkeep
    (fun _ _ _ hI h => countOf_nested_step hI h) (Inv.fresh h₀.1) hrun
  have hzero : countOf s₀.world e = 0 := countOf_of_none (by simp [policyOf, h₀.1.exps])
  rw [hzero, Nat.zero_add] at htally
  exact htally

lemma isSatisfied_iff {p : ControlPolicy} (hv : p.Valid) :
    p.isSatisfied = true ↔ p.min ≤ p.count := by
  have hle := hv.count_le_max
  simp [ControlPolicy.isSatisfied, hle]

/-- **Conservation of matches**: in every nested run the count of an expectation is the number
of calls dispatched to it, it stays within its maximum, the expectation stays satisfied once
it is, and its removal reports it exactly when it got fewer calls than its minimum. -/
theorem conservation (h₀ : (machine σ Call Ret Exc).init s₀)
    (hrun : (machine σ Call Ret Exc).replay s₀ run = some s) (hx : s.world.exps[e]? = some x) :
    x.controlPolicy.count = calls s₀ run e ∧
    x.controlPolicy.count ≤ x.controlPolicy.max ∧
    (x.controlPolicy.isSatisfied = true → ∀ s', (machine σ Call Ret Exc).Later s s' →
      ∃ x', s'.world.exps[e]? = some x' ∧ x'.controlPolicy.isSatisfied = true) ∧
    ((∀ q ∈ x.policies, ∀ env, q.isSatisfied env = true) → ∀ c,
      (s.world.remove c e).2.1 =
        if calls s₀ run e < x.controlPolicy.min then
          [.unfulfilledExpectation (x.report s.world.env s.world.seqs)]
        else []) := by
  have hreach : (machine σ Call Ret Exc).Reachable s :=
    .of_replay h₀ hrun
  have hr : Reachable s.world := simulates.reachable hreach
  have hI := reachable_inv hr
  have hp := policyOf_of_some hx
  have hcount : x.controlPolicy.count = calls s₀ run e := by
    rw [← countOf_eq_calls h₀ hrun, countOf_of_policy hp]
  refine ⟨hcount, (hI.valid hp).count_le_max, fun hsat s' hlater => ?_, fun hothers c => ?_⟩
  · have hlater' := simulates.later hlater
    obtain ⟨p', hp', hadv⟩ := policy_later hr hlater' hp
    obtain ⟨x', hx', rfl⟩ := policyOf_eq_some.mp hp'
    have hvalid' := (reachable_inv (hr.later hlater')).valid hp'
    have hmin := (isSatisfied_iff (hI.valid hp)).mp hsat
    refine ⟨x', hx', (isSatisfied_iff hvalid').mpr ?_⟩
    calc x'.controlPolicy.min = x.controlPolicy.min := hadv.min
      _ ≤ x.controlPolicy.count := hmin
      _ ≤ x'.controlPolicy.count := hadv.count_le
  · have hpolicies : x.policies.all (fun q => q.isSatisfied s.world.env) = true :=
      List.all_eq_true.mpr fun q hq => hothers q hq _
    rw [remove_events hx, BasicExpectation.isSatisfied, hpolicies, Bool.and_true]
    by_cases hmin : x.controlPolicy.min ≤ x.controlPolicy.count
    · have hnot : ¬ calls s₀ run e < x.controlPolicy.min := by omega
      rw [(isSatisfied_iff (hI.valid hp)).mpr hmin, if_pos rfl, if_neg hnot]
    · have hlt : calls s₀ run e < x.controlPolicy.min := by omega
      have hunsat : x.controlPolicy.isSatisfied = false := by
        rw [Bool.eq_false_iff]
        exact fun h => hmin ((isSatisfied_iff (hI.valid hp)).mp h)
      rw [hunsat, if_neg Bool.false_ne_true, if_pos hlt]

/-- A call whose finalizer makes another call and then throws. -/
def throwingAfterNested : List (Action Unit Unit Unit Unit) :=
  [.create (anyCall 0 2 3 [] ()) ⟨"", 0⟩,
    .call 0 (), .call 0 (), .ret, .throw]

/-- Both calls count. -/
theorem conservation_nested :
    ∃ s x, (machine Unit Unit Unit Unit).replay
        ⟨start (quietReporter ()) () fun _ => .lazy, [], false⟩ throwingAfterNested = some s ∧
      s.world.exps[0]? = some x ∧ x.controlPolicy.count =
        calls ⟨start (quietReporter ()) () fun _ => .lazy, [], false⟩ throwingAfterNested 0 ∧
      (s.world.remove 0 0).2.1 = [] := by
  have h : (((machine Unit Unit Unit Unit).replay
      ⟨start (quietReporter ()) () fun _ => .lazy, [], false⟩ throwingAfterNested).bind
        fun s => s.world.exps[0]?).isSome = true := by decide +kernel
  obtain ⟨x, h⟩ := Option.isSome_iff_exists.mp h
  obtain ⟨s, hrun, hx⟩ := Option.bind_eq_some_iff.mp h
  obtain ⟨hcount, -, -, hremove⟩ := conservation ⟨start_fresh _ _ _, rfl, rfl⟩ hrun hx
  have hpol : x.policies = [] := by
    cases hrun
    cases hx
    rfl
  have hmin : ¬ calls ⟨start (quietReporter ()) () fun _ => .lazy, [], false⟩
      throwingAfterNested 0 < x.controlPolicy.min := by
    cases hrun
    cases hx
    decide +kernel
  refine ⟨s, x, hrun, hx, hcount, ?_⟩
  rw [hremove (by simp [hpol]) 0, if_neg hmin]

end MimicPP.Reentrant

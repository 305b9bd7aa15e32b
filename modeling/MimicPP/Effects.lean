import MimicPP.Arguments
import MimicPP.Scoped

/-!
Side effects and finalizers: what a call that was accepted does to its arguments, and to
whatever else user code can get at.

They run one after the other on the same objects. So whatever each of them keeps on the calls a
test makes is kept by the whole test, however its blocks are left.
-/

namespace MimicPP.Effects

open MimicPP.Noexcept MimicPP.Sequence MimicPP.Reports MimicPP.Control MimicPP.Expectation
open MimicPP.Signatures MimicPP.Overloads MimicPP.Runs MimicPP.Unwinding MimicPP.Scoped
open MimicPP.Reporting MimicPP.Arguments

variable {n : ℕ} {Val τ Ret Exc α : Type}

/-! ### Side effects -/

/-- `expectation_policies::SideEffectAction` -/
def sideEffectAction (action : ArgsInfo n → Store Val τ → Store Val τ × Except Exc Unit) :
    Policy (Store Val τ) (ArgsInfo n) Exc where
  isSatisfied _ := true
  matchesCall _ _ := .ok true
  describe _ := .ok none
  consume s info := action info s

/-- A callable of user code that is handed references. -/
abbrev Action (Val τ Exc α : Type) := List Address → Store Val τ → Store Val τ × Except Exc α

/-- `then::apply_args` -/
def applyArgs (first : Fin n) (others : List (Fin n)) (action : Action Val τ Exc Unit) :
    Policy (Store Val τ) (ArgsInfo n) Exc :=
  sideEffectAction (applyArgsFn (argsSelector (first :: others)) argListForwardApply action)

/-- `then::apply_arg` -/
def applyArg (index : Fin n) (action : Action Val τ Exc Unit) :
    Policy (Store Val τ) (ArgsInfo n) Exc :=
  sideEffectAction (applyArgsFn (argsSelector [index]) argListForwardApply action)

/-- `then::apply_all` -/
def applyAll (action : Action Val τ Exc Unit) : Policy (Store Val τ) (ArgsInfo n) Exc :=
  sideEffectAction (applyArgsFn allArgsSelector argListForwardApply action)

/-- `then::invoke` -/
def invoke (action : Store Val τ → Store Val τ × Except Exc Unit) :
    Policy (Store Val τ) (ArgsInfo n) Exc :=
  sideEffectAction fun _ => action

/-! ### Finalizers -/

abbrev Finalizer (n : ℕ) (Val τ Ret Exc : Type) :=
  Store Val τ → ArgsInfo n → Store Val τ × Except Exc Ret

/-- `expectation_policies::InitFinalize` -/
def initFinalize : Finalizer n Val τ Unit Exc := fun s _ => (s, .ok ())

/-- `expectation_policies::Throws`, made by `finally::throws`. -/
def throws (exc : Exc) : Finalizer n Val τ Ret Exc := fun s _ => (s, .error exc)

section returns

/- The explicit conversion to the return type. It may move from the object it is given. -/
variable (cast : α → Store Val τ → Store Val τ × Except Exc Ret)

/-- `expectation_policies::ReturnsResultOf` -/
def returnsResultOf (action : ArgsInfo n → Store Val τ → Store Val τ × Except Exc α) :
    Finalizer n Val τ Ret Exc := fun s info =>
  match action info s with
  | (s', .error exc) => (s', .error exc)
  | (s', .ok result) => cast result s'

/-- `finally::returns_result_of` -/
def returnsResultOfFun (fn : Store Val τ → Store Val τ × Except Exc α) :
    Finalizer n Val τ Ret Exc :=
  returnsResultOf cast fun _ => fn

/-- `finally::returns_apply_result_of` -/
def returnsApplyResultOf (first : Fin n) (others : List (Fin n)) (action : Action Val τ Exc α) :
    Finalizer n Val τ Ret Exc :=
  returnsResultOf cast
    (applyArgsFn (argsSelector (first :: others)) argListForwardApply action)

/-- `finally::returns_apply_all_result_of` -/
def returnsApplyAllResultOf (action : Action Val τ Exc α) : Finalizer n Val τ Ret Exc :=
  returnsResultOf cast (applyArgsFn allArgsSelector argListForwardApply action)

end returns

/-- `finally::returns`: a reference to the stored object, or to the one a stored
`std::reference_wrapper` refers to. -/
def returns (cast : Address → Store Val τ → Store Val τ × Except Exc Ret) (object : Address) :
    Finalizer n Val τ Ret Exc :=
  returnsResultOf cast fun _ s => (s, .ok object)

/-- `finally::returns_arg` -/
def returnsArg (cast : List Address → Store Val τ → Store Val τ × Except Exc Ret)
    (index : Fin n) : Finalizer n Val τ Ret Exc :=
  returnsResultOf cast
    (applyArgsFn (argsSelector [index]) argListForwardApply fun refs s => (s, .ok refs))

/-! ### What user code keeps -/

section keeps

variable {σ Call : Type} {P : σ → Prop} {D : Call → Prop}

/-- What is attached to an expectation keeps `P`, on the calls in `D`. -/
structure Keeping (P : σ → Prop) (D : Call → Prop) (policies : List (Policy σ Call Exc))
    (finalizer : σ → Call → σ × Except Exc Ret) : Prop where
  policies : ∀ p ∈ policies, ∀ s call, D call → P s → P (p.consume s call).1
  finalizer : ∀ s call, D call → P s → P (finalizer s call).1

/-- A test makes calls in `D` only, and whatever user code it runs keeps `P`. -/
def Respects (P : σ → Prop) (D : Call → Prop) : Test σ Call Ret Exc → Prop
  | .done => True
  | .expect b _ rest =>
    Keeping P D b.expectationPolicies b.finalizePolicy ∧ Respects P D rest
  | .sequence rest => ∀ tag, Respects P D (rest tag)
  | .call _ call rest => D call ∧ ∀ ret, Respects P D (rest ret)
  | .user f rest => (∀ s, P s → P (f s).1) ∧ ∀ s, P s → Respects P D (rest s)
  | .scope body rest => Respects P D body ∧ Respects P D rest
  | .attempt body handler rest =>
    Respects P D body ∧ (∀ exc, Respects P D (handler exc)) ∧ Respects P D rest

structure Holds (P : σ → Prop) (D : Call → Prop) (w : World σ Call Ret Exc) : Prop where
  env : P w.env
  exps : ∀ x ∈ w.exps, Keeping P D x.policies x.finalizer

variable {w : World σ Call Ret Exc} {call : Call} {c : CollId} {e : ExpId}

lemma consumePolicies_keeps {ps : List (Policy σ Call Exc)} {i : ℕ} {s : σ} (hcall : D call)
    (hps : ∀ p ∈ ps, ∀ s call, D call → P s → P (p.consume s call).1) (hs : P s) :
    P (consumePolicies call e i ps s).1 := by
  induction ps generalizing i s with
  | nil => exact hs
  | cons p ps ih =>
    have hp := hps p (List.mem_cons_self ..) s call hcall hs
    have hrest := fun {i} => ih (i := i) (fun q hq => hps q (List.mem_cons_of_mem _ hq)) hp
    rcases hconsume : p.consume s call with ⟨s', exc | ⟨⟩⟩
    · rw [hconsume] at hp
      simp only [consumePolicies, hconsume]
      exact hp
    · rw [hconsume] at hrest
      simp only [consumePolicies, hconsume]
      exact hrest

namespace Holds

lemma consumeControl (h : Holds P D w) : Holds P D (w.consumeControl e) := by
  rcases hx : w.exps[e]? with _ | x
  · simp only [World.consumeControl, hx]
    exact h
  · simp only [World.consumeControl, hx]
    refine ⟨h.env, fun y hy => ?_⟩
    rcases List.mem_or_eq_of_mem_set hy with hy | rfl
    · exact h.exps y hy
    · have hkeep := h.exps x (List.mem_of_getElem? hx)
      exact ⟨hkeep.policies, hkeep.finalizer⟩

lemma withEnv (h : Holds P D w) {s : σ} (hs : P s) : Holds P D { w with env := s } :=
  ⟨hs, h.exps⟩

lemma consumeAndFinalize (h : Holds P D w) (hcall : D call) :
    Holds P D (w.consumeAndFinalize call e).1 := by
  rcases hx : w.exps[e]? with _ | x
  · simp only [World.consumeAndFinalize, hx]
    exact h
  · have hkeep := h.exps x (List.mem_of_getElem? hx)
    have hcontrol := h.consumeControl (e := e)
    have henv := consumePolicies_keeps (e := e) (i := 0) hcall hkeep.policies hcontrol.env
    simp only [World.consumeAndFinalize, hx]
    rcases hconsume : consumePolicies call e 0 x.policies (w.consumeControl e).env with
      ⟨s, events, exit | ⟨⟩⟩
    · rw [hconsume] at henv
      exact hcontrol.withEnv henv
    · rw [hconsume] at henv
      exact hcontrol.withEnv (hkeep.finalizer s call hcall henv)

lemma handleCall (h : Holds P D w) (hcall : D call) : Holds P D (w.handleCall c call).1 := by
  unfold World.handleCall
  split
  · exact h
  · split
    · split
      · exact h
      · exact h.consumeAndFinalize hcall
    · split
      · exact h
      · exact h

lemma remove (h : Holds P D w) : Holds P D (w.remove c e).1 := by
  unfold World.remove
  split
  · exact ⟨h.env, h.exps⟩
  · split
    · exact ⟨h.env, h.exps⟩
    · exact ⟨h.env, h.exps⟩

lemma finalize {b : Builder σ Call Ret Exc} {loc : SourceLocation} {w' : World σ Call Ret Exc}
    (h : Holds P D w) (hb : Keeping P D b.expectationPolicies b.finalizePolicy)
    (hfin : b.finalize loc w = (w', .ok e)) : Holds P D w' := by
  obtain ⟨p, seqs, -, -, rfl⟩ := finalize_eq_ok hfin
  refine ⟨h.env, fun x hx => ?_⟩
  rcases List.mem_append.mp hx with hx | hx
  · exact h.exps x hx
  · obtain rfl := List.mem_singleton.mp hx
    exact hb

lemma install (h : Holds P D w) (reporter : Reporter Call Exc) :
    Holds P D { w with reporter := reporter } := ⟨h.env, h.exps⟩

end Holds

/-- What holds at the end of a run. -/
def EndsHeld (P : σ → Prop) (D : Call → Prop) (_ : Status σ Call Ret Exc)
    (_ : List (Occurrence Call Exc)) (s' : Status σ Call Ret Exc) : Prop :=
  Holds P D s'.world

lemma endsHeld_composes : Run.Composes (EndsHeld P D : Status σ Call Ret Exc →
    List (Occurrence Call Exc) → Status σ Call Ret Exc → Prop) :=
  fun _ h => h

variable {reporters : ℕ → Reporter Call Exc}

/-- **What all user code keeps is kept by the test**, whichever calls are rejected and however
its blocks are left. -/
theorem exec_holds {test : Test σ Call Ret Exc} (ht : Respects P D test) (m : ℕ)
    (s : Status σ Call Ret Exc) (hs : Holds P D s.world) :
    Run.Keeps (EndsHeld P D) s (exec reporters test m s) := by
  induction test generalizing s with
  | done => exact Run.Keeps.skip hs
  | expect b loc rest ih =>
    simp only [exec]
    split
    · exact fun hlive => absurd rfl hlive
    · rename_i w e hfin
      have hblock : Run.Keeps (EndsHeld P D) s ((exec reporters rest m
          { s with world := w }).leave m (destroyExpectation reporters b.storage e)) :=
        (ih ht.2 _ (hs.finalize ht.1 hfin)).leave fun _ hrest _ => (Holds.install hrest _).remove
      exact hblock.behind id
  | sequence rest ih =>
    have hrest := ih s.constructed (ht _) { s with constructed := s.constructed + 1 } hs
    exact Run.Keeps.leave (Q := EndsHeld P D) hrest fun _ hend _ => hend
  | call c call rest ih =>
    have hcall := (hs.install (reporters m)).handleCall (c := c) ht.1
    simp only [exec]
    split
    · rename_i w events exit hresult
      rw [hresult] at hcall
      exact fun _ => hcall
    · rename_i w events ret hresult
      rw [hresult] at hcall
      exact (ih ret (ht.2 ret) { s with world := w } hcall).behind id
  | user f rest ih =>
    have henv := ht.1 _ hs.env
    simp only [exec]
    split
    · rename_i env exc hresult
      rw [hresult] at henv
      exact fun _ => hs.withEnv henv
    · rename_i env hresult
      rw [hresult] at henv
      exact (ih env (ht.2 env henv) { s with world := { s.world with env := env } }
        (hs.withEnv henv)).behind id
  | scope body rest ihb ihr =>
    exact (ihb ht.1 s hs).andThen endsHeld_composes fun hbody => ihr ht.2 _ hbody
  | attempt body handler rest ihb ihh ihr =>
    have hcaught := (ihb ht.1 s hs).rescue (R := EndsHeld P D) endsHeld_composes
      fun exc hbody => ihh exc (ht.2.1 exc) _ hbody
    exact hcaught.andThen endsHeld_composes fun hrescued => ihr ht.2.2 _ hrescued

end keeps

/-! ### Objects no call passes -/

section frame

variable {a : Address}

/-- Changes none of the objects it is not handed. -/
def Action.Tame (action : Action Val τ Exc α) : Prop :=
  ∀ a refs s, a ∉ refs → (action refs s).1.memory a = s.memory a

/-- Changes none of the objects the call does not pass. -/
def Local (f : Store Val τ → ArgsInfo n → Store Val τ × Except Exc α) : Prop :=
  ∀ a s info, (∀ i, info.args i ≠ a) → (f s info).1.memory a = s.memory a

lemma not_mem_argsSelector {info : ArgsInfo n} (h : ∀ i, info.args i ≠ a) (is : List (Fin n)) :
    a ∉ argsSelector is info := by
  intro hmem
  obtain ⟨i, -, hi⟩ := List.mem_map.mp hmem
  exact h i hi

lemma applyArgs_local {action : Action Val τ Exc Unit} (h : action.Tame) (first : Fin n)
    (others : List (Fin n)) : Local (applyArgs first others action).consume :=
  fun a s _ hinfo => h a _ s (not_mem_argsSelector hinfo _)

lemma applyArg_local {action : Action Val τ Exc Unit} (h : action.Tame) (index : Fin n) :
    Local (applyArg index action).consume :=
  fun a s _ hinfo => h a _ s (not_mem_argsSelector hinfo _)

lemma applyAll_local {action : Action Val τ Exc Unit} (h : action.Tame) :
    Local (applyAll action : Policy _ (ArgsInfo n) _).consume :=
  fun a s _ hinfo => h a _ s (not_mem_argsSelector hinfo _)

/-- What is invoked without arguments may change what it has captured. -/
lemma invoke_local {action : Store Val τ → Store Val τ × Except Exc Unit}
    (h : ∀ s, (action s).1.memory = s.memory) :
    Local (invoke action : Policy _ (ArgsInfo n) _).consume :=
  fun a s _ _ => congrFun (h s) a

lemma argsRequirement_local (matcher : Matcher Val Exc)
    (matchesStrategy : Store Val τ → (List (Lvalue Val) → Except Exc Bool) → ArgsInfo n →
      Except Exc Bool) (describeStrategy : String → String) :
    Local (argsRequirement matcher matchesStrategy describeStrategy).consume :=
  fun _ _ _ _ => rfl

lemma qualification_local {T C : Type} [DecidableEq T] [DecidableEq C] (t : Signature T C) :
    ∀ p ∈ (qualificationPolicies t : List (Policy (Store Val τ) (ArgsInfo n) Exc)),
      Local p.consume := by
  simp only [qualificationPolicies, List.forall_mem_cons]
  exact ⟨fun _ _ _ _ => rfl, fun _ _ _ _ => rfl, by simp⟩

lemma returnsResultOf_local {cast : α → Store Val τ → Store Val τ × Except Exc Ret}
    {action : ArgsInfo n → Store Val τ → Store Val τ × Except Exc α}
    (h : Local fun s info => action info s)
    (hcast : ∀ a s info result, (∀ i, info.args i ≠ a) → (action info s).2 = .ok result →
      (cast result (action info s).1).1.memory a = (action info s).1.memory a) :
    Local (returnsResultOf cast action) := by
  intro a s info hinfo
  rw [← h a s info hinfo]
  rcases haction : action info s with ⟨s', exc | result⟩
  · simp only [returnsResultOf, haction]
  · have hr := hcast a s info result hinfo (by rw [haction])
    rw [haction] at hr
    simp only [returnsResultOf, haction]
    exact hr

/-- The argument that is returned may be moved from. -/
lemma returnsArg_local {cast : List Address → Store Val τ → Store Val τ × Except Exc Ret}
    (h : Action.Tame cast) (index : Fin n) : Local (returnsArg cast index) := by
  refine returnsResultOf_local (fun _ _ _ _ => rfl) fun a s info refs hinfo hrefs => ?_
  obtain rfl : argsSelector [index] info = refs := Except.ok.inj hrefs
  exact h a _ s (not_mem_argsSelector hinfo _)

/-- The object `a` is not passed by any call, and no step of the test changes it. -/
def Withholds (a : Address) : Test (Store Val τ) (ArgsInfo n) Ret Exc → Prop
  | .done => True
  | .expect b _ rest => ((∀ p ∈ b.expectationPolicies, Local p.consume) ∧
      Local b.finalizePolicy) ∧ Withholds a rest
  | .sequence rest => ∀ tag, Withholds a (rest tag)
  | .call _ call rest => (∀ i, call.args i ≠ a) ∧ ∀ ret, Withholds a (rest ret)
  | .user f rest => (∀ s, (f s).1.memory a = s.memory a) ∧ ∀ s, Withholds a (rest s)
  | .scope body rest => Withholds a body ∧ Withholds a rest
  | .attempt body handler rest =>
    Withholds a body ∧ (∀ exc, Withholds a (handler exc)) ∧ Withholds a rest

variable {v : Val} {w : World (Store Val τ) (ArgsInfo n) Ret Exc}

lemma local_keeping {policies : List (Policy (Store Val τ) (ArgsInfo n) Exc)}
    {finalizer : Finalizer n Val τ Ret Exc} (hp : ∀ p ∈ policies, Local p.consume)
    (hf : Local finalizer) :
    Keeping (fun s => s.memory a = v) (fun info => ∀ i, info.args i ≠ a) policies finalizer :=
  ⟨fun p hmem s call hcall hs => (hp p hmem a s call hcall).trans hs,
    fun s call hcall hs => (hf a s call hcall).trans hs⟩

lemma withholds_respects {test : Test (Store Val τ) (ArgsInfo n) Ret Exc}
    (h : Withholds a test) :
    Respects (fun s => s.memory a = v) (fun info => ∀ i, info.args i ≠ a) test := by
  induction test with
  | done => trivial
  | expect b loc rest ih => exact ⟨local_keeping h.1.1 h.1.2, ih h.2⟩
  | sequence rest ih => exact fun tag => ih tag (h tag)
  | call c call rest ih => exact ⟨h.1, fun ret => ih ret (h.2 ret)⟩
  | user f rest ih => exact ⟨fun s hs => (h.1 s).trans hs, fun s _ => ih s (h.2 s)⟩
  | scope body rest ihb ihr => exact ⟨ihb h.1, ihr h.2⟩
  | attempt body handler rest ihb ihh ihr =>
    exact ⟨ihb h.1, fun exc => ihh exc (h.2.1 exc), ihr h.2.2⟩

/-- **An object no call passes stays as it is**: where every policy and every finalizer changes
no more than what a call passes, a test leaves an object that none of its calls passes, and that
its own steps do not change, as it was, whatever is rejected, thrown and caught on the way. -/
theorem object_unchanged (reporters : ℕ → Reporter (ArgsInfo n) Exc)
    {test : Test (Store Val τ) (ArgsInfo n) Ret Exc} {s : Status (Store Val τ) (ArgsInfo n) Ret Exc}
    (ht : Withholds a test)
    (hs : ∀ x ∈ s.world.exps, (∀ p ∈ x.policies, Local p.consume) ∧ Local x.finalizer) (m : ℕ)
    (h : (exec reporters test m s).exit ≠ .error .terminate) :
    (exec reporters test m s).state.world.env.memory a = s.world.env.memory a := by
  have hholds : Holds (fun t => t.memory a = s.world.env.memory a)
      (fun info => ∀ i, info.args i ≠ a) s.world :=
    ⟨rfl, fun x hx => local_keeping (hs x hx).1 (hs x hx).2⟩
  exact Holds.env (exec_holds (withholds_respects ht) m s hholds h)

/-- The argument is doubled. -/
def double : Action ℕ Unit (Thrown Unit) Unit := fun refs s =>
  (refs.foldl (fun s a => s.assign a (2 * s.memory a)) s, .ok ())

lemma double_tame : double.Tame := by
  intro a refs s ha
  induction refs generalizing s with
  | nil => rfl
  | cons b refs ih =>
    have hne : a ≠ b := fun heq => ha (heq ▸ List.mem_cons_self ..)
    refine (ih (s.assign b (2 * s.memory b)) fun hmem => ha (List.mem_cons_of_mem _ hmem)).trans ?_
    exact Function.update_of_ne hne _ _

def onlyArg : Fin 1 := ⟨0, Nat.zero_lt_one⟩

/-- `void(int)` -/
def unary : Signature ℕ Unit := ⟨0, [1], false, .none, false, none⟩

/-- A call is expected and made, whose argument is the object at `3`. -/
def doubling : Test (Store ℕ Unit) (ArgsInfo 1) Unit (Thrown Unit) :=
  .expect ⟨0, limits 1 1, ⟨[], List.nodup_nil⟩, initFinalize, [applyArg onlyArg double]⟩ ⟨"", 0⟩
    (.call 0 (callInfo unary fun _ => 3) fun _ => .done)

def doublingReporters : ℕ → Reporter (ArgsInfo 1) (Thrown Unit) :=
  defaultReporter SourceLocation.fileName fun _ => emptyCallReport

def doublingStart : Status (Store ℕ Unit) (ArgsInfo 1) Unit (Thrown Unit) :=
  ⟨start (doublingReporters 0) ⟨fun a => a, ()⟩ fun _ => .lazy, 0⟩

theorem object_unchanged_doubling :
    (exec doublingReporters doubling 0 doublingStart).state.world.env.memory 5 = 5 ∧
      (exec doublingReporters doubling 0 doublingStart).state.world.env.memory 3 = 6 := by
  have ht : Withholds 5 doubling := by
    refine ⟨⟨?_, fun _ _ _ _ => rfl⟩, fun _ => (by decide : (3 : ℕ) ≠ 5), fun _ => trivial⟩
    simp only [List.forall_mem_cons]
    exact ⟨applyArg_local double_tame onlyArg, by simp⟩
  have hpasses : (exec doublingReporters doubling 0 doublingStart).exit = .ok () := rfl
  have hlive : (exec doublingReporters doubling 0 doublingStart).exit ≠ .error .terminate := by
    simp [hpasses]
  exact ⟨object_unchanged doublingReporters ht (fun _ hx => absurd hx List.not_mem_nil) 0 hlive,
    rfl⟩

end frame

end MimicPP.Effects

import MimicPP.Lifetime

/-!
Relocation watchers: objects that report every move to a mock of their own, which the move
then takes along.

The mock of a watcher is given by the collection it points to, which it loses when it is moved
away. A call through a mock without a collection follows a null pointer; there the run ends.
-/

namespace MimicPP.Relocation

open MimicPP.Noexcept MimicPP.Sequence MimicPP.Control MimicPP.Expectation MimicPP.Transition
open MimicPP.Runs MimicPP.Lifetime

structure RelocationWatcher where
  relocationMock : Option MockId
  deriving DecidableEq

/-- The watchers of a program; `calls` takes down the calls of relocation mocks. -/
structure Watchers (ω : Type) where
  rest : ω
  objects : ObjId → Option RelocationWatcher
  made : ℕ
  calls : List MockId
  nullCall : Bool

variable {ω Exc : Type}

namespace Watchers

/-- The mock an object holds. -/
def mockOf (s : Watchers ω) (o : ObjId) : Option MockId :=
  (s.objects o).bind RelocationWatcher.relocationMock

def set (s : Watchers ω) (o : ObjId) (x : Option RelocationWatcher) : Watchers ω :=
  { s with objects := Function.update s.objects o x }

/-- The default constructor, which the copy constructor delegates to; a copy assignment
overwrites the mock by a new one, too. -/
def construct (s : Watchers ω) (o : ObjId) : Watchers ω :=
  { s with objects := Function.update s.objects o (some ⟨some s.made⟩), made := s.made + 1 }

/-- `BasicMock::handle_call`, behind the `operator()`. -/
def call (callMock : CallMock ω Exc) (s : Watchers ω) :
    Option MockId → Watchers ω × Except (Exit Exc) Unit
  | none => ({ s with nullCall := true }, .error .terminate)
  | some m => ({ s with rest := (callMock s.rest m).1, calls := s.calls ++ [m] },
      (callMock s.rest m).2)

/-- The move assignment: the mock of the source is called, and then moved. A watcher assigned
to itself keeps it. -/
def moveAssign (callMock : CallMock ω Exc) (s : Watchers ω) (target source : ObjId) :
    Watchers ω × Except (Exit Exc) Unit :=
  match s.call callMock (s.mockOf source) with
  | (s', .error exit) => (s', .error exit)
  | (s', .ok ()) =>
    ((s'.set source (some ⟨none⟩)).set target (some ⟨s'.mockOf source⟩), .ok ())

/-- The move constructor assigns to a new watcher, which does not come to be if that throws. -/
def moveConstruct (callMock : CallMock ω Exc) (s : Watchers ω) (o source : ObjId) :
    Watchers ω × Except (Exit Exc) Unit :=
  match (s.construct o).moveAssign callMock o source with
  | (s', .error exit) => (s'.set o none, .error exit)
  | (s', .ok ()) => (s', .ok ())

end Watchers

/-! ### Runs -/

/-- Beside the code, `moves` takes down what the source of every move held at that moment. -/
structure State (ω : Type) where
  code : Watchers ω
  moves : List (Option MockId)

inductive Action (ω : Type)
  | construct (o : ObjId)
  | copyConstruct (o source : ObjId)
  | moveConstruct (o source : ObjId)
  | copyAssign (target source : ObjId)
  | moveAssign (target source : ObjId)
  | destroy (o : ObjId)
  | other (rest : ω)

/-- A move that leaves by an exception has been reported all the same; a call that terminates
ends the run, and so does one through a null pointer, which is taken down. -/
def moved (p : State ω) (held : Option MockId) :
    Watchers ω × Except (Exit Exc) Unit → Option (State ω)
  | (s, .error .terminate) =>
    if s.nullCall = true then some ⟨s, p.moves ++ [held]⟩ else none
  | (s, _) => some ⟨s, p.moves ++ [held]⟩

def step (callMock : CallMock ω Exc) (p : State ω) (a : Action ω) : Option (State ω) :=
  if p.code.nullCall = true then none
  else
    match a with
    | .construct o =>
      if p.code.objects o = none then some { p with code := p.code.construct o } else none
    | .copyConstruct o source =>
      if p.code.objects o = none ∧ p.code.objects source ≠ none then
        some { p with code := p.code.construct o }
      else none
    | .moveConstruct o source =>
      if p.code.objects o = none ∧ p.code.objects source ≠ none then
        moved p (p.code.mockOf source) (p.code.moveConstruct callMock o source)
      else none
    | .copyAssign target source =>
      if p.code.objects target ≠ none ∧ p.code.objects source ≠ none then
        some { p with code := p.code.construct target }
      else none
    | .moveAssign target source =>
      if p.code.objects target ≠ none ∧ p.code.objects source ≠ none then
        moved p (p.code.mockOf source) (p.code.moveAssign callMock target source)
      else none
    | .destroy o =>
      if p.code.objects o ≠ none then some { p with code := p.code.set o none } else none
    | .other rest => some { p with code := { p.code with rest := rest } }

/-- No watcher has been made yet. -/
structure Fresh (p : State ω) : Prop where
  objects : ∀ o, p.code.objects o = none
  calls : p.code.calls = []
  nullCall : p.code.nullCall = false
  moves : p.moves = []

def machine (callMock : CallMock ω Exc) : Machine (State ω) (Action ω) where
  init := Fresh
  step := step callMock

/-- The object a step moves from. -/
def Action.source? : Action ω → Option ObjId
  | .moveConstruct _ source | .moveAssign _ source => some source
  | _ => none

/-- A step moves only from an object that still holds its mock. -/
def SourceHolds (p : State ω) (a : Action ω) : Prop :=
  ∀ source ∈ a.source?, p.code.mockOf source ≠ none

variable {callMock : CallMock ω Exc} {p p' : State ω} {a : Action ω}

/-! ### What a step reports -/

/-- The calls a step issues are those of the mock its source holds, if it moves at all. -/
structure Outcome (p : State ω) (a : Action ω) (p' : State ω) : Prop where
  moves : p'.moves = p.moves ++ (a.source?.map p.code.mockOf).toList
  calls : p'.code.calls = p.code.calls ++ (a.source?.bind p.code.mockOf).toList
  nullCall : p'.code.nullCall = true ↔ ¬ SourceHolds p a

lemma call_spec {s s' : Watchers ω} {held : Option MockId} {r : Except (Exit Exc) Unit}
    (h : s.call callMock held = (s', r)) : s'.objects = s.objects ∧
      s'.calls = s.calls ++ held.toList ∧
      (s.nullCall = false → (s'.nullCall = true ↔ held = none)) ∧
      (held = none → r = .error .terminate) := by
  cases held with
  | none =>
    cases h
    simp
  | some m =>
    cases h
    simp

lemma moveAssign_spec {s s' : Watchers ω} {target source : ObjId} {r : Except (Exit Exc) Unit}
    (h : s.moveAssign callMock target source = (s', r)) :
    s'.calls = s.calls ++ (s.mockOf source).toList ∧
      (s.nullCall = false → (s'.nullCall = true ↔ s.mockOf source = none)) := by
  rcases hcall : s.call callMock (s.mockOf source) with ⟨u, exit | v⟩
  all_goals
    obtain ⟨-, hcalls, hnull, -⟩ := call_spec hcall
    simp only [Watchers.moveAssign, hcall, Prod.mk.injEq] at h
    obtain ⟨rfl, -⟩ := h
    exact ⟨hcalls, hnull⟩

lemma moveConstruct_spec {s s' : Watchers ω} {o source : ObjId} {r : Except (Exit Exc) Unit}
    (ho : s.objects o = none) (hsource : s.objects source ≠ none)
    (h : s.moveConstruct callMock o source = (s', r)) :
    s'.calls = s.calls ++ (s.mockOf source).toList ∧
      (s.nullCall = false → (s'.nullCall = true ↔ s.mockOf source = none)) := by
  have hne : source ≠ o := by
    rintro rfl
    exact hsource ho
  have hmock : (s.construct o).mockOf source = s.mockOf source := by
    simp only [Watchers.mockOf, Watchers.construct, Function.update_of_ne hne]
  rcases hassign : (s.construct o).moveAssign callMock o source with ⟨u, exit | v⟩
  all_goals
    obtain ⟨hcalls, hnull⟩ := moveAssign_spec hassign
    rw [hmock] at hcalls hnull
    simp only [Watchers.moveConstruct, hassign, Prod.mk.injEq] at h
    obtain ⟨rfl, -⟩ := h
    exact ⟨hcalls, hnull⟩

/-- A step that moves nothing reports nothing. -/
lemma quiet_outcome {s : Watchers ω} (hp : p.code.nullCall = false) (ha : a.source? = none)
    (hcalls : s.calls = p.code.calls) (hnull : s.nullCall = p.code.nullCall) :
    Outcome p a { p with code := s } := by
  refine ⟨?_, ?_, ?_⟩
  · simp [ha]
  · simp [ha, hcalls]
  · simp [SourceHolds, ha, hnull, hp]

/-- A step that moves reports once, through what its source holds. -/
lemma moved_outcome {s : Watchers ω} {source : ObjId} {r : Except (Exit Exc) Unit}
    (ha : a.source? = some source)
    (hcalls : s.calls = p.code.calls ++ (p.code.mockOf source).toList)
    (hnull : s.nullCall = true ↔ p.code.mockOf source = none)
    (h : moved p (p.code.mockOf source) (s, r) = some p') : Outcome p a p' := by
  have hp' : p' = ⟨s, p.moves ++ [p.code.mockOf source]⟩ := by
    rcases r with (e | _) | u
    · exact (Option.some.inj h).symm
    · rw [moved] at h
      split at h
      · exact (Option.some.inj h).symm
      · cases h
    · exact (Option.some.inj h).symm
  subst hp'
  refine ⟨?_, ?_, ?_⟩
  · simp [ha]
  · simp [ha, hcalls]
  · simp [SourceHolds, ha, hnull]

/-- **Every step has its outcome**: a move issues one call, on the mock its source holds, and
everything else none; a null pointer is followed exactly when the source holds none. -/
theorem step_outcome (h : step callMock p a = some p') : Outcome p a p' := by
  unfold step at h
  split at h
  · cases h
  rename_i hp
  rw [Bool.not_eq_true] at hp
  cases a with
  | construct o =>
    simp only at h
    split at h
    · obtain rfl := Option.some.inj h
      exact quiet_outcome hp rfl rfl rfl
    · cases h
  | copyConstruct o source =>
    simp only at h
    split at h
    · obtain rfl := Option.some.inj h
      exact quiet_outcome hp rfl rfl rfl
    · cases h
  | moveConstruct o source =>
    simp only at h
    split at h
    · rename_i hcond
      rcases hmove : p.code.moveConstruct callMock o source with ⟨s, r⟩
      obtain ⟨hcalls, hnull⟩ := moveConstruct_spec hcond.1 hcond.2 hmove
      rw [hmove] at h
      exact moved_outcome rfl hcalls (hnull hp) h
    · cases h
  | copyAssign target source =>
    simp only at h
    split at h
    · obtain rfl := Option.some.inj h
      exact quiet_outcome hp rfl rfl rfl
    · cases h
  | moveAssign target source =>
    simp only at h
    split at h
    · rcases hmove : p.code.moveAssign callMock target source with ⟨s, r⟩
      obtain ⟨hcalls, hnull⟩ := moveAssign_spec hmove
      rw [hmove] at h
      exact moved_outcome rfl hcalls (hnull hp) h
    · cases h
  | destroy o =>
    simp only at h
    split at h
    · obtain rfl := Option.some.inj h
      exact quiet_outcome hp rfl rfl rfl
    · cases h
  | other rest =>
    obtain rfl := Option.some.inj h
    exact quiet_outcome hp rfl rfl rfl

/-! ### Every relocation is reported -/

/-- **Relocations are reported exactly**, in every run that moves only from objects that still
hold their mock: no null pointer is followed, the calls are those of the mocks the sources of
the moves held, one for each move, and nothing else issues one. -/
theorem relocations_reported (h : (machine callMock).ReachableVia SourceHolds p) :
    p.code.nullCall = false ∧ p.moves = p.code.calls.map some ∧
      ∀ a p', step callMock p a = some p' →
        (∀ source m, a.source? = some source → p.code.mockOf source = some m →
          p'.code.calls = p.code.calls ++ [m]) ∧
        (a.source? = none → p'.code.calls = p.code.calls) := by
  have hrun : p.code.nullCall = false ∧ p.moves = p.code.calls.map some := by
    refine h.invariant (I := fun p => p.code.nullCall = false ∧ p.moves = p.code.calls.map some)
      (fun p h₀ => ?_) fun p a p' _ hI hholds hst => ?_
    · rw [h₀.moves, h₀.calls]
      exact ⟨h₀.nullCall, rfl⟩
    · obtain ⟨hmoves, hcalls, hnull⟩ := step_outcome hst
      refine ⟨?_, ?_⟩
      · rw [← Bool.not_eq_true, hnull, not_not]
        exact hholds
      · rw [hmoves, hcalls, hI.2, List.map_append]
        rcases hsource : a.source? with _ | source
        · rfl
        · obtain ⟨m, hm⟩ := Option.ne_none_iff_exists'.mp (hholds source hsource)
          simp [hm]
  refine ⟨hrun.1, hrun.2, fun a p' hst => ⟨fun source m hsource hm => ?_, fun hsource => ?_⟩⟩
  · rw [(step_outcome hst).calls, hsource, Option.bind_some, hm, Option.toList_some]
  · rw [(step_outcome hst).calls, hsource]
    exact List.append_nil _

instance (p : State ω) (a : Action ω) : Decidable (SourceHolds p a) :=
  inferInstanceAs (Decidable (∀ source ∈ a.source?, p.code.mockOf source ≠ none))

/-- A program in which the first watcher is expected to be moved. -/
def expecting : State (World Unit Unit Unit Unit) :=
  ⟨⟨((anyCall 0 0 5 [] ()).finalize ⟨"", 0⟩ (start (quietReporter ()) () fun _ => .lazy)).1,
    fun _ => none, 0, [], false⟩, []⟩

lemma fresh_expecting : Fresh expecting := ⟨fun _ => rfl, rfl, rfl, rfl⟩

/-- Two watchers are swapped by way of a third one. -/
def swap (o o' tmp : ObjId) : List (Action (World Unit Unit Unit Unit)) :=
  [.moveConstruct tmp o, .moveAssign o o', .moveAssign o' tmp, .destroy tmp]

/-- The move of the second watcher throws. -/
theorem relocations_reported_swap :
    ∃ p : State (World Unit Unit Unit Unit), p.moves = [some 0, some 1] ∧
      p.code.nullCall = false ∧ p.moves = p.code.calls.map some ∧
      ∀ a p', step callVoid p a = some p' →
        (∀ source m, a.source? = some source → p.code.mockOf source = some m →
          p'.code.calls = p.code.calls ++ [m]) ∧
        (a.source? = none → p'.code.calls = p.code.calls) := by
  have hP : (machine callVoid).stepsMeet SourceHolds expecting
      (.construct 0 :: .construct 1 :: (swap 0 1 2).take 2) = true := by decide +kernel
  have h : ((machine callVoid).replay expecting
      (.construct 0 :: .construct 1 :: (swap 0 1 2).take 2)).isSome = true := by decide +kernel
  obtain ⟨p, hrun⟩ := Option.isSome_iff_exists.mp h
  have hmoves : p.moves = [some 0, some 1] := by
    cases hrun
    decide +kernel
  have hvia := (Machine.ReachableVia.init fresh_expecting).of_replay hP hrun
  exact ⟨p, hmoves, relocations_reported hvia⟩

/-- A watcher is swapped with itself. -/
theorem null_call_in_self_swap :
    ∃ p : State (World Unit Unit Unit Unit), (machine callVoid).Reachable p ∧
      p.code.nullCall = true ∧ p.moves = [some 0, none] ∧ p.code.calls = [0] := by
  have h : ((machine callVoid).replay expecting
      (.construct 0 :: (swap 0 0 1).take 2)).isSome = true := by decide +kernel
  obtain ⟨p, hrun, hreach⟩ := Machine.exists_reachable_of_replay fresh_expecting h
  refine ⟨p, hreach, ?_⟩
  cases hrun
  decide +kernel

end MimicPP.Relocation

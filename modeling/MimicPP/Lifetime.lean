import MimicPP.Custody
import MimicPP.Runs

/-!
Lifetime watchers: objects that report their destruction to a mock of their own.

A watcher holds its mock by a `unique_ptr`, which moves carry along. Beside the code runs the
history of the identities that the mocks stand for: when one is born, who holds it, and when
its life ends.
-/

namespace MimicPP.Lifetime

open MimicPP.Noexcept MimicPP.Sequence MimicPP.Control MimicPP.Expectation MimicPP.Transition
open MimicPP.Runs MimicPP.Custody

/-- The address of a watcher. -/
abbrev ObjId := ℕ
/-- A destruction mock; mocks are numbered in the order they are made. -/
abbrev MockId := ℕ

/-- What calling a mock does to the rest of the program, and how the call ends. -/
abbrev CallMock (ω Exc : Type) := ω → MockId → ω × Except (Exit Exc) Unit

structure LifetimeWatcher where
  hasDestructExpectation : Bool
  destructionMock : Option MockId
  deriving DecidableEq

/-- The watchers of a program; `invoked` takes down the calls of destruction mocks. -/
structure Watchers (ω : Type) where
  rest : ω
  objects : ObjId → Option LifetimeWatcher
  made : ℕ
  invoked : List MockId

variable {ω Exc : Type}

/-- What the defaulted moves leave behind: the flag is copied, the pointer taken. -/
def LifetimeWatcher.movedFrom (x : LifetimeWatcher) : LifetimeWatcher :=
  { x with destructionMock := none }

namespace Watchers

def set (s : Watchers ω) (o : ObjId) (x : Option LifetimeWatcher) : Watchers ω :=
  { s with objects := Function.update s.objects o x }

/-- The default constructor, which the copy constructor delegates to. -/
def construct (s : Watchers ω) (o : ObjId) : Watchers ω :=
  { s with objects := Function.update s.objects o (some ⟨false, some s.made⟩), made := s.made + 1 }

/-- The destructor of a watcher that holds what `x` holds. -/
def destruct (callMock : CallMock ω Exc) (s : Watchers ω) (x : LifetimeWatcher) :
    Watchers ω × Except (Exit Exc) Unit :=
  match x.destructionMock with
  | none => (s, .ok ())
  | some m => ({ s with rest := (callMock s.rest m).1, invoked := s.invoked ++ [m] },
      (callMock s.rest m).2)

/-- The defaulted move constructor and move assignment. What the target held before is
deleted without a call; a watcher assigned to itself keeps what it holds. -/
def move (s : Watchers ω) (target source : ObjId) (y : LifetimeWatcher) : Watchers ω :=
  (s.set source (some y.movedFrom)).set target (some y)

/-- The copy assignment. A temporary takes over the old content and dies; only then is there
a new one. The source is not touched. -/
def copyAssign (callMock : CallMock ω Exc) (s : Watchers ω) (target : ObjId)
    (x : LifetimeWatcher) : Watchers ω × Except (Exit Exc) Unit :=
  match (s.set target (some x.movedFrom)).destruct callMock x with
  | (s', .error exit) => (s', .error exit)
  | (s', .ok ()) => (s'.construct target, .ok ())

end Watchers

/-! ### Runs -/

structure State (ω : Type) where
  code : Watchers ω
  history : Ledger ObjId

inductive Action (ω : Type)
  | construct (o : ObjId)
  | copyConstruct (o source : ObjId)
  | moveConstruct (o source : ObjId)
  | copyAssign (target source : ObjId)
  | moveAssign (target source : ObjId)
  | destroy (o : ObjId)
  | expectDestruct (o : ObjId)
  | other (rest : ω)

/-- One action. An exception of a mock leaves the destructor or the assignment that called
it, with the life ended all the same; a call that terminates ends the run. To expect the
destruction of a moved-from watcher is not allowed. -/
def step (callMock : CallMock ω Exc) (p : State ω) : Action ω → Option (State ω)
  | .construct o =>
    if p.code.objects o = none then some ⟨p.code.construct o, p.history.birth o⟩ else none
  | .copyConstruct o source =>
    if p.code.objects o = none ∧ p.code.objects source ≠ none then
      some ⟨p.code.construct o, p.history.birth o⟩
    else none
  | .moveConstruct o source =>
    match p.code.objects o, p.code.objects source with
    | none, some y => some ⟨p.code.move o source y, p.history.move o source⟩
    | _, _ => none
  | .copyAssign target source =>
    match p.code.objects target, p.code.objects source with
    | some x, some _ =>
      match p.code.copyAssign callMock target x with
      | (s, .ok ()) => some ⟨s, (p.history.finish target).birth target⟩
      | (s, .error (.thrown _)) => some ⟨s, p.history.finish target⟩
      | (_, .error .terminate) => none
    | _, _ => none
  | .moveAssign target source =>
    match p.code.objects target, p.code.objects source with
    | some _, some y =>
      some ⟨p.code.move target source y,
        if target = source then p.history else (p.history.finish target).move target source⟩
    | _, _ => none
  | .destroy o =>
    match p.code.objects o with
    | some x =>
      match (p.code.set o none).destruct callMock x with
      | (_, .error .terminate) => none
      | (s, _) => some ⟨s, p.history.finish o⟩
    | none => none
  | .expectDestruct o =>
    match p.code.objects o with
    | some x =>
      if x.hasDestructExpectation = true then some p
      else if x.destructionMock = none then none
      else some { p with code := p.code.set o (some { x with hasDestructExpectation := true }) }
    | none => none
  | .other rest => some { p with code := { p.code with rest := rest } }

/-- No watcher has been made yet. -/
structure Fresh (p : State ω) : Prop where
  objects : ∀ o, p.code.objects o = none
  made : p.code.made = 0
  invoked : p.code.invoked = []
  history : p.history = .empty

def machine (callMock : CallMock ω Exc) : Machine (State ω) (Action ω) where
  init := Fresh
  step := step callMock

/-- The mock an object holds. -/
def Watchers.mockOf (s : Watchers ω) (o : ObjId) : Option MockId :=
  (s.objects o).bind LifetimeWatcher.destructionMock

/-- The target of a move assignment is the source itself, or a moved-from object. -/
def SafeMove (p : State ω) : Action ω → Prop
  | .moveAssign target source => target = source ∨ p.code.mockOf target = none
  | _ => True

variable {callMock : CallMock ω Exc} {p p' : State ω} {o : ObjId} {x : LifetimeWatcher}

/-- The code carries the identities along by its pointers. -/
structure Agree (p : State ω) : Prop where
  born : p.history.born = p.code.made
  held : ∀ o, p.history.held o = p.code.mockOf o

/-! ### What the functions do to the pointers -/

namespace Watchers

variable {s s' : Watchers ω} {o' : ObjId} {r : Except (Exit Exc) Unit}

lemma mockOf_set (y : Option LifetimeWatcher) : (s.set o y).mockOf o' =
    if o' = o then y.bind LifetimeWatcher.destructionMock else s.mockOf o' := by
  simp only [mockOf, set, Function.update_apply]
  split <;> rfl

lemma mockOf_construct :
    (s.construct o).mockOf o' = if o' = o then some s.made else s.mockOf o' := by
  simp only [mockOf, construct, Function.update_apply]
  split <;> rfl

/-- A destructor calls the mock that is held, and nothing else. -/
lemma destruct_spec (h : s.destruct callMock x = (s', r)) :
    s'.objects = s.objects ∧ s'.made = s.made ∧
      s'.invoked = s.invoked ++ x.destructionMock.toList := by
  unfold destruct at h
  split at h
  · rename_i hmock
    cases h
    simp [hmock]
  · rename_i m hmock
    cases h
    simp [hmock]

end Watchers

/-! ### What a step does -/

/-- The identities whose life a step ends, and whether their mocks are called: they are, but
for the one a move assignment overwrites. -/
structure Outcome (p : State ω) (a : Action ω) (p' : State ω) : Prop where
  agree : Agree p'
  valid : p.history.Valid → p'.history.Valid
  reported : ∃ ends, p'.history.ended = p.history.ended ++ ends ∧
    ((SafeMove p a ∧ p'.code.invoked = p.code.invoked ++ ends) ∨
      (¬ SafeMove p a ∧ ends ≠ [] ∧ p'.code.invoked = p.code.invoked))

lemma Agree.held_eq_none (hA : Agree p) (ho : p.code.objects o = none) :
    p.history.held o = none := by
  rw [hA.held, Watchers.mockOf, ho, Option.bind_none]

lemma Agree.construct (hA : Agree p) (o : ObjId) :
    Agree ⟨p.code.construct o, p.history.birth o⟩ where
  born := congrArg (· + 1) hA.born
  held := by
    intro o'
    rw [Watchers.mockOf_construct]
    simp only [Ledger.birth, Function.update_apply, hA.born, hA.held]

lemma Agree.move {target source : ObjId} {y : LifetimeWatcher} (hA : Agree p)
    (hy : p.code.objects source = some y) :
    Agree ⟨p.code.move target source y, p.history.move target source⟩ where
  born := hA.born
  held := by
    intro o'
    have hsource : p.history.held source = y.destructionMock := by
      rw [hA.held, Watchers.mockOf, hy, Option.bind_some]
    rw [Watchers.move, Watchers.mockOf_set, Watchers.mockOf_set]
    simp only [Ledger.move, Function.update_apply, hsource, hA.held,
      LifetimeWatcher.movedFrom, Option.bind_some]

/-- A watcher that is not held by its object any more dies. -/
lemma Agree.finish {s : Watchers ω} {r : Except (Exit Exc) Unit} {y : Option LifetimeWatcher}
    (hA : Agree p) (hy : y.bind LifetimeWatcher.destructionMock = none)
    (h : (p.code.set o y).destruct callMock x = (s, r)) : Agree ⟨s, p.history.finish o⟩ := by
  obtain ⟨hobjects, hmade, -⟩ := Watchers.destruct_spec h
  refine ⟨hA.born.trans hmade.symm, fun o' => ?_⟩
  have hmock : s.mockOf o' = (p.code.set o y).mockOf o' := by
    rw [Watchers.mockOf, Watchers.mockOf, hobjects]
  rw [hmock, Watchers.mockOf_set, hy]
  simp only [Ledger.finish, Function.update_apply, hA.held]

/-- It calls the mock of the identity whose life ends. -/
lemma Agree.invoked_finish {s : Watchers ω} {r : Except (Exit Exc) Unit}
    {y : Option LifetimeWatcher} (hA : Agree p) (hx : p.code.objects o = some x)
    (h : (p.code.set o y).destruct callMock x = (s, r)) :
    s.invoked = p.code.invoked ++ (p.history.held o).toList := by
  obtain ⟨-, -, hinvoked⟩ := Watchers.destruct_spec h
  rw [hinvoked, hA.held, Watchers.mockOf, hx, Option.bind_some]
  rfl

/-- An overwritten watcher ends without a call, which matters if it held a mock. -/
lemma Agree.moveAssign_outcome {target source : ObjId} {y : LifetimeWatcher} (hA : Agree p)
    (hy : p.code.objects source = some y) :
    Outcome p (.moveAssign target source) ⟨p.code.move target source y,
      if target = source then p.history else (p.history.finish target).move target source⟩ := by
  by_cases heq : target = source
  · subst heq
    rw [if_pos rfl]
    have hself : ∀ o', (p.history.move target target).held o' = p.history.held o' := by
      intro o'
      simp only [Ledger.move, Function.update_apply]
      split
      · rw [‹o' = target›]
      · rfl
    refine ⟨⟨hA.born, fun o' => ?_⟩, id, [], (List.append_nil _).symm,
      .inl ⟨.inl rfl, (List.append_nil _).symm⟩⟩
    rw [← hself]
    exact (hA.move hy).held o'
  · simp only [if_neg heq]
    have hsource : (p.history.finish target).held source = p.history.held source :=
      Function.update_of_ne (Ne.symm heq) _ _
    refine ⟨⟨hA.born, fun o' => ?_⟩,
      fun hv => (hv.finish target).move (.inr Ledger.held_finish_self),
      (p.history.held target).toList, rfl, ?_⟩
    · rw [← (hA.move hy).held o']
      simp only [Ledger.move, Function.update_apply, hsource]
      split
      · rfl
      · split
        · rfl
        · exact Function.update_of_ne ‹_› _ _
    · by_cases hmock : p.code.mockOf target = none
      · refine .inl ⟨.inr hmock, ?_⟩
        rw [hA.held, hmock]
        exact (List.append_nil _).symm
      · refine .inr ⟨fun hsafe => hsafe.elim heq hmock, ?_, rfl⟩
        rw [hA.held]
        simpa using hmock

lemma Agree.construct_outcome {a : Action ω} (hA : Agree p)
    (ha : SafeMove p a) (ho : p.code.objects o = none) :
    Outcome p a ⟨p.code.construct o, p.history.birth o⟩ :=
  ⟨hA.construct o, fun hv => hv.birth (hA.held_eq_none ho), [], (List.append_nil _).symm,
    .inl ⟨ha, (List.append_nil _).symm⟩⟩

/-- The end of a life that is reported, with a new one behind it or not. -/
lemma Agree.finish_outcome {a : Action ω} {s : Watchers ω} {r : Except (Exit Exc) Unit}
    {y : Option LifetimeWatcher} (hA : Agree p)
    (ha : SafeMove p a) (hx : p.code.objects o = some x)
    (hy : y.bind LifetimeWatcher.destructionMock = none)
    (h : (p.code.set o y).destruct callMock x = (s, r)) :
    Outcome p a ⟨s, p.history.finish o⟩ ∧
      Outcome p a ⟨s.construct o, (p.history.finish o).birth o⟩ := by
  have hagree := hA.finish hy h
  have hinvoked := hA.invoked_finish hx h
  constructor
  · exact ⟨hagree, fun hv => hv.finish o, _, rfl, .inl ⟨ha, hinvoked⟩⟩
  · exact ⟨hagree.construct o, fun hv => (hv.finish o).birth Ledger.held_finish_self, _, rfl,
      .inl ⟨ha, hinvoked⟩⟩

/-- A step that neither ends a life nor moves a mock. -/
lemma Agree.quiet_outcome {a : Action ω} {s : Watchers ω} (hA : Agree p)
    (ha : SafeMove p a) (hmade : s.made = p.code.made)
    (hinvoked : s.invoked = p.code.invoked) (hmock : ∀ o, s.mockOf o = p.code.mockOf o) :
    Outcome p a ⟨s, p.history⟩ :=
  ⟨⟨hA.born.trans hmade.symm, fun o => (hA.held o).trans (hmock o).symm⟩, id, [],
    (List.append_nil _).symm, .inl ⟨ha, hinvoked.trans (List.append_nil _).symm⟩⟩

/-- **Every step has its outcome.** -/
theorem step_outcome {a : Action ω} (hA : Agree p) (h : step callMock p a = some p') :
    Outcome p a p' := by
  cases a with
  | construct o =>
    rw [step] at h
    split at h
    · rename_i ho
      obtain rfl := Option.some.inj h
      exact hA.construct_outcome trivial ho
    · cases h
  | copyConstruct o source =>
    rw [step] at h
    split at h
    · rename_i hcond
      obtain rfl := Option.some.inj h
      exact hA.construct_outcome trivial hcond.1
    · cases h
  | moveConstruct o source =>
    rw [step] at h
    split at h
    · rename_i y ho hy
      obtain rfl := Option.some.inj h
      exact ⟨hA.move hy, fun hv => hv.move (.inr (hA.held_eq_none ho)), [],
        (List.append_nil _).symm, .inl ⟨trivial, (List.append_nil _).symm⟩⟩
    · cases h
  | copyAssign target source =>
    rw [step] at h
    split at h
    · rename_i x y hx hy
      rcases hdes : (p.code.set target (some x.movedFrom)).destruct callMock x
        with ⟨s, (e | _) | u⟩
      all_goals
        have hout := hA.finish_outcome (a := .copyAssign target source) trivial hx
          rfl hdes
        simp only [Watchers.copyAssign, hdes] at h
        cases h
      · exact hout.1
      · exact hout.2
    · cases h
  | moveAssign target source =>
    rw [step] at h
    split at h
    · rename_i x y hx hy
      obtain rfl := Option.some.inj h
      exact hA.moveAssign_outcome hy
    · cases h
  | destroy o =>
    rw [step] at h
    split at h
    · rename_i x hx
      rcases hdes : (p.code.set o none).destruct callMock x with ⟨s, (e | _) | u⟩
      all_goals
        have hout := hA.finish_outcome (a := .destroy o) trivial hx rfl hdes
        rw [hdes] at h
        cases h
      · exact hout.1
      · exact hout.1
    · cases h
  | expectDestruct o =>
    rw [step] at h
    split at h
    · rename_i x hx
      split at h
      · obtain rfl := Option.some.inj h
        exact hA.quiet_outcome trivial rfl rfl fun _ => rfl
      · split at h
        · cases h
        · obtain rfl := Option.some.inj h
          refine hA.quiet_outcome trivial rfl rfl fun o' => ?_
          rw [Watchers.mockOf_set]
          split
          · rw [‹o' = o›, Watchers.mockOf, hx]
            rfl
          · rfl
    · cases h
  | other rest =>
    obtain rfl := Option.some.inj h
    exact hA.quiet_outcome trivial rfl rfl fun _ => rfl

/-! ### Every lifetime is reported exactly once -/

lemma reachable_agree (h : (machine callMock).Reachable p) : Agree p ∧ p.history.Valid := by
  refine h.invariant (I := fun p => Agree p ∧ p.history.Valid) (fun p h₀ => ?_)
    fun p a p' hI hst => ⟨(step_outcome hI.1 hst).agree, (step_outcome hI.1 hst).valid hI.2⟩
  obtain ⟨hobjects, hmade, -, hhistory⟩ := h₀
  rw [hhistory]
  refine ⟨⟨?_, fun o => ?_⟩, Ledger.valid_empty⟩
  · rw [hhistory, hmade]
    rfl
  · rw [hhistory, Watchers.mockOf, hobjects]
    rfl

/-- **When a step keeps the reports exact**: unless it is a move assignment onto another
object that still holds a mock. -/
theorem exact_step_iff {a : Action ω} (hA : Agree p) (hexact : p.code.invoked = p.history.ended)
    (h : step callMock p a = some p') : p'.code.invoked = p'.history.ended ↔ SafeMove p a := by
  obtain ⟨ends, hended, ⟨hsafe, hinvoked⟩ | ⟨hsafe, hne, hinvoked⟩⟩ := (step_outcome hA h).reported
  · rw [hinvoked, hended, hexact]
    exact ⟨fun _ => hsafe, fun _ => rfl⟩
  · rw [hinvoked, hended, hexact]
    refine ⟨fun heq => absurd ?_ hne, fun h => absurd h hsafe⟩
    simpa using heq

/-- **Every watched lifetime is reported exactly once**, in every run whose move assignments
go to the source itself or to moved-from objects: the mocks called are those of the identities
whose life has ended, each once, and the end of a moved-from holder calls none. -/
theorem reported_once (h : (machine callMock).ReachableVia SafeMove p) :
    (∀ m ∈ p.history.ended, p.code.invoked.count m = 1) ∧
      (∀ m ∉ p.history.ended, p.code.invoked.count m = 0) ∧
      ∀ o p', p.history.held o = none → step callMock p (.destroy o) = some p' →
        p'.code.invoked = p.code.invoked := by
  obtain ⟨hA, hv⟩ := reachable_agree h.reachable
  have hexact : p.code.invoked = p.history.ended := by
    refine h.invariant (I := fun p => p.code.invoked = p.history.ended) (fun p h₀ => ?_)
      fun p a p' hr hexact hsafe hst => ?_
    · rw [h₀.invoked, h₀.history]
      rfl
    · exact (exact_step_iff (reachable_agree hr).1 hexact hst).mpr hsafe
  rw [hexact]
  refine ⟨fun m hm => List.count_eq_one_of_mem hv.nodup hm,
    fun m hm => List.count_eq_zero_of_not_mem hm, fun o p' hnone hst => ?_⟩
  have hsafe : SafeMove p (.destroy o) := trivial
  have hexact' := (exact_step_iff hA hexact hst).mpr hsafe
  rw [hexact']
  rw [step] at hst
  split at hst
  · split at hst
    · cases hst
    · obtain rfl := Option.some.inj hst
      simp [Ledger.finish, hnone]
  · cases hst

/-- The mocks of the watchers, as mocks of this library: mock `m` stores its expectations in
the collection `m`. -/
def callVoid {σ : Type} : CallMock (World σ Unit Unit Exc) Exc :=
  fun w m => ((w.handleCall m ()).1, (w.handleCall m ()).2.2)

/-- No watcher yet. -/
def empty (rest : ω) : State ω := ⟨⟨rest, fun _ => none, 0, []⟩, .empty⟩

lemma fresh_empty (rest : ω) : Fresh (empty rest) := ⟨fun _ => rfl, rfl, rfl, rfl⟩

instance (p : State ω) : (a : Action ω) → Decidable (SafeMove p a)
  | .moveAssign target source =>
    inferInstanceAs (Decidable (target = source ∨ p.code.mockOf target = none))
  | .construct _ | .copyConstruct _ _ | .moveConstruct _ _ | .copyAssign _ _ | .destroy _
  | .expectDestruct _ | .other _ => isTrue trivial

/-- A program whose mocks expect nothing, so that every report is an exception. -/
def unexpecting : State (World Unit Unit Unit Unit) :=
  empty (start (quietReporter ()) () fun _ => .lazy)

/-- Two watchers are swapped by way of a third one, which dies; then one of them is copied
onto the other, which leaves that one moved-from; both die. -/
def swapThenCopy : List (Action (World Unit Unit Unit Unit)) :=
  [.construct 0, .construct 1, .moveConstruct 2 0, .moveAssign 0 1, .moveAssign 1 2, .destroy 2,
    .copyAssign 0 1, .destroy 0, .destroy 1]

theorem reported_once_swapThenCopy :
    ∃ p : State (World Unit Unit Unit Unit), p.history.ended = [1, 0] ∧
      (∀ m ∈ p.history.ended, p.code.invoked.count m = 1) ∧
      (∀ m ∉ p.history.ended, p.code.invoked.count m = 0) ∧
      ∀ o p', p.history.held o = none → step callVoid p (.destroy o) = some p' →
        p'.code.invoked = p.code.invoked := by
  have hP : (machine callVoid).stepsMeet SafeMove unexpecting swapThenCopy = true := by
    decide +kernel
  have h : ((machine callVoid).replay unexpecting swapThenCopy).isSome = true := by
    decide +kernel
  obtain ⟨p, hrun⟩ := Option.isSome_iff_exists.mp h
  have hended : p.history.ended = [1, 0] := by
    cases hrun
    decide +kernel
  have hvia := (Machine.ReachableVia.init (fresh_empty _)).of_replay hP hrun
  exact ⟨p, hended, reported_once hvia⟩

/-- A watcher is moved onto another one, whose end nobody hears of. -/
theorem overwritten_unreported :
    ∃ p : State (World Unit Unit Unit Unit), (machine callVoid).Reachable p ∧
      p.history.ended = [0, 1] ∧ p.code.invoked = [1] := by
  have h : ((machine callVoid).replay unexpecting
      [.construct 0, .construct 1, .moveAssign 0 1, .destroy 0, .destroy 1]).isSome = true := by
    decide +kernel
  obtain ⟨p, hrun, hreach⟩ := Machine.exists_reachable_of_replay (fresh_empty _) h
  refine ⟨p, hreach, ?_⟩
  cases hrun
  decide +kernel

end MimicPP.Lifetime

import MimicPP.Relocation
import MimicPP.Unwinding

/-!
Watched objects: a base behind the watchers it is given, and what the special members of such a
class do when one of its parts fails.

The special members are the defaulted ones. Parts are constructed and assigned in the order they
are listed, the base after the watchers, and destroyed in reverse; what has been constructed is
destroyed again when a later part fails. The watchers take the exception specifications of the
base over.
-/

namespace MimicPP.Watched

open MimicPP.Noexcept MimicPP.Sequence MimicPP.Control MimicPP.Expectation MimicPP.Transition
open MimicPP.Runs MimicPP.Custody MimicPP.Lifetime MimicPP.Unwinding

inductive Watcher
  | lifetime | relocation
  deriving DecidableEq, Repr

inductive Part
  | watcher (k : Watcher)
  | base
  deriving DecidableEq, Repr

/-- `Watched<Base, Watchers...>`. No class can be a direct base twice. -/
structure Class where
  watchers : List Watcher
  nodup : watchers.Nodup
  isNothrowDestructible : Bool
  isNothrowMoveConstructible : Bool
  isNothrowMoveAssignable : Bool

/-- The watchers of all objects. To the lifetime watchers, the relocation watchers are a part of
the rest of the program. -/
abbrev Parts (ω : Type) := Lifetime.State (Relocation.State ω)

variable {ω Exc : Type}

namespace Parts

def relocations (s : Parts ω) : Relocation.State ω := s.code.rest

def setRelocations (s : Parts ω) (r : Relocation.State ω) : Parts ω :=
  { s with code := { s.code with rest := r } }

def rest (s : Parts ω) : ω := s.relocations.code.rest

def setRest (s : Parts ω) (rest : ω) : Parts ω :=
  s.setRelocations { s.relocations with code := { s.relocations.code with rest := rest } }

end Parts

/-- The special members, with the objects they are called for. -/
inductive Member
  | construct (o : ObjId)
  | copyConstruct (o source : ObjId)
  | moveConstruct (o source : ObjId)
  | copyAssign (target source : ObjId)
  | moveAssign (target source : ObjId)
  | destroy (o : ObjId)

/-- The member of a lifetime watcher. -/
def Member.lifetime : Member → Lifetime.Action (Relocation.State ω)
  | .construct o => .construct o
  | .copyConstruct o source => .copyConstruct o source
  | .moveConstruct o source => .moveConstruct o source
  | .copyAssign target source => .copyAssign target source
  | .moveAssign target source => .moveAssign target source
  | .destroy o => .destroy o

/-- The member of a relocation watcher. -/
def Member.relocation : Member → Relocation.Action ω
  | .construct o => .construct o
  | .copyConstruct o source => .copyConstruct o source
  | .moveConstruct o source => .moveConstruct o source
  | .copyAssign target source => .copyAssign target source
  | .moveAssign target source => .moveAssign target source
  | .destroy o => .destroy o

/-! ### The members of the parts -/

/-- A call of a destruction mock, which leaves the relocation watchers alone. -/
def besideRelocations (callMock : CallMock ω Exc) : CallMock (Relocation.State ω) Exc :=
  fun r m => ({ r with code := { r.code with rest := (callMock r.code.rest m).1 } },
    (callMock r.code.rest m).2)

section members

variable (destructionMocks relocationMocks : CallMock ω Exc)

/-- How the member of a lifetime watcher ends. -/
def lifetimeExit (s : Parts ω) : Member → Except (Exit Exc) Unit
  | .copyAssign target _ => match s.code.objects target with
    | some x => (s.code.copyAssign (besideRelocations destructionMocks) target x).2
    | none => .ok ()
  | .destroy o => match s.code.objects o with
    | some x => ((s.code.set o none).destruct (besideRelocations destructionMocks) x).2
    | none => .ok ()
  | _ => .ok ()

/-- How the member of a relocation watcher ends. -/
def relocationExit (s : Parts ω) : Member → Except (Exit Exc) Unit
  | .moveConstruct o source => (s.relocations.code.moveConstruct relocationMocks o source).2
  | .moveAssign target source => (s.relocations.code.moveAssign relocationMocks target source).2
  | _ => .ok ()

/-- A step that is not taken is one that terminates: the watchers of an object are there whenever
the object is. -/
def runLifetime (m : Member) (s : Parts ω) : Run (Parts ω) Part Exc :=
  match Lifetime.step (besideRelocations destructionMocks) s m.lifetime with
  | some s' => .single s' (.watcher .lifetime) (lifetimeExit destructionMocks s m)
  | none => .single s (.watcher .lifetime) (.error .terminate)

/-- A call through a null pointer is as good as one that terminates. -/
def runRelocation (m : Member) (s : Parts ω) : Run (Parts ω) Part Exc :=
  match Relocation.step relocationMocks s.relocations m.relocation with
  | some r => .single (s.setRelocations r) (.watcher .relocation)
      (if r.code.nullCall = true then .error .terminate else relocationExit relocationMocks s m)
  | none => .single s (.watcher .relocation) (.error .terminate)

def runWatcher (m : Member) : Watcher → Parts ω → Run (Parts ω) Part Exc
  | .lifetime => runLifetime destructionMocks m
  | .relocation => runRelocation relocationMocks m

/-- The member of the base is a piece of user code. -/
def runBase (base : ω → ω × Except Exc Unit) (s : Parts ω) : Run (Parts ω) Part Exc :=
  .single (s.setRest (base s.rest).1) .base (throwing (base s.rest).2)

/-! ### The members of the class -/

/-- A constructed part is destroyed again while an exception is in flight. -/
def unwind (o : ObjId) (k : Watcher) (exc : Exc) (s : Parts ω) : Run (Parts ω) Part Exc :=
  let r := runWatcher destructionMocks relocationMocks (.destroy o) k s
  { r with exit := match r.exit with
    | .ok () => .error (.thrown exc)
    | .error _ => .error .terminate }

/-- The constructors `m` for an object `o`. -/
def constructing (m : Member) (o : ObjId) (base : ω → ω × Except Exc Unit) :
    List Watcher → Parts ω → Run (Parts ω) Part Exc
  | [], s => runBase base s
  | k :: ks, s => (runWatcher destructionMocks relocationMocks m k s).andThen fun s =>
      (constructing m o base ks s).rescue (unwind destructionMocks relocationMocks o k)

/-- An assignment stops at the first part that fails. -/
def assigning (m : Member) (base : ω → ω × Except Exc Unit) :
    List Watcher → Parts ω → Run (Parts ω) Part Exc
  | [], s => runBase base s
  | k :: ks, s => (runWatcher destructionMocks relocationMocks m k s).andThen
      (assigning m base ks)

/-- The destructor of the base comes first. Each watcher is destroyed, whatever happened to those
destroyed before it. -/
def destroying (o : ObjId) (base : ω → ω × Except Exc Unit) :
    List Watcher → Parts ω → Run (Parts ω) Part Exc
  | [], s => runBase base s
  | k :: ks, s => (destroying o base ks s).leave 0 fun _ =>
      runWatcher destructionMocks relocationMocks (.destroy o) k

/-- A function that is `noexcept` if the flag is set. -/
def bounded (nothrow : Bool) (r : Run (Parts ω) Part Exc) : Run (Parts ω) Part Exc :=
  if nothrow = true then { r with exit := noexcept r.exit } else r

/-- A special member of the class, the base doing what `base` does. -/
def special (cls : Class) (base : ω → ω × Except Exc Unit) :
    Member → Parts ω → Run (Parts ω) Part Exc
  | .construct o, s =>
    constructing destructionMocks relocationMocks (.construct o) o base cls.watchers s
  | .copyConstruct o source, s =>
    constructing destructionMocks relocationMocks (.copyConstruct o source) o base cls.watchers s
  | .moveConstruct o source, s => bounded cls.isNothrowMoveConstructible
    (constructing destructionMocks relocationMocks (.moveConstruct o source) o base cls.watchers s)
  | .copyAssign target source, s =>
    assigning destructionMocks relocationMocks (.copyAssign target source) base cls.watchers s
  | .moveAssign target source, s => bounded cls.isNothrowMoveAssignable
    (assigning destructionMocks relocationMocks (.moveAssign target source) base cls.watchers s)
  | .destroy o, s => bounded cls.isNothrowDestructible
    (destroying destructionMocks relocationMocks o base cls.watchers s)

end members

/-! ### Runs -/

structure State (ω : Type) where
  alive : ObjId → Bool
  parts : Parts ω

inductive Action (ω Exc : Type)
  | special (m : Member) (base : ω → ω × Except Exc Unit)
  | expectDestruct (o : ObjId)
  | other (rest : ω)

def Member.isAllowed (alive : ObjId → Bool) : Member → Bool
  | .construct o => !alive o
  | .copyConstruct o source | .moveConstruct o source => !alive o && alive source
  | .copyAssign target source | .moveAssign target source => alive target && alive source
  | .destroy o => alive o

/-- A constructor that fails leaves no object behind, a destructor never does. -/
def Member.aliveAfter (alive : ObjId → Bool) (completed : Bool) : Member → ObjId → Bool
  | .construct o | .copyConstruct o _ | .moveConstruct o _ => Function.update alive o completed
  | .copyAssign _ _ | .moveAssign _ _ => alive
  | .destroy o => Function.update alive o false

/-- One action. An exception leaves the special member that it was thrown in; a member that
terminates ends the run. -/
def step (cls : Class) (destructionMocks relocationMocks : CallMock ω Exc) (p : State ω) :
    Action ω Exc → Option (State ω)
  | .special m base =>
    if m.isAllowed p.alive = true then
      let r := special destructionMocks relocationMocks cls base m p.parts
      match r.exit with
      | .error .terminate => none
      | exit => some ⟨m.aliveAfter p.alive exit.isOk, r.state⟩
    else none
  | .expectDestruct o =>
    (Lifetime.step (besideRelocations destructionMocks) p.parts (.expectDestruct o)).map
      fun s => { p with parts := s }
  | .other rest => some { p with parts := p.parts.setRest rest }

/-- There are no objects yet. -/
structure Fresh (p : State ω) : Prop where
  alive : ∀ o, p.alive o = false
  lifetimes : Lifetime.Fresh p.parts
  relocations : Relocation.Fresh p.parts.relocations

def machine (cls : Class) (destructionMocks relocationMocks : CallMock ω Exc) :
    Machine (State ω) (Action ω Exc) where
  init := Fresh
  step := step cls destructionMocks relocationMocks

variable {cls : Class} {destructionMocks relocationMocks : CallMock ω Exc}
variable {base : ω → ω × Except Exc Unit} {s s' : Parts ω} {m : Member} {o : ObjId} {k : Watcher}

/-! ### The steps of the watchers -/

/-- A lifetime watcher that does not terminate takes its step. -/
lemma runLifetime_live
    (hlive : (runLifetime destructionMocks m s).exit ≠ .error .terminate) :
    ∃ s', Lifetime.step (besideRelocations destructionMocks) s m.lifetime = some s' ∧
      runLifetime destructionMocks m s =
        .single s' (.watcher .lifetime) (lifetimeExit destructionMocks s m) := by
  unfold runLifetime at hlive ⊢
  split at hlive
  · exact ⟨_, ‹_›, rfl⟩
  · exact absurd rfl hlive

/-- So does a relocation watcher, which follows no null pointer then. -/
lemma runRelocation_live
    (hlive : (runRelocation relocationMocks m s).exit ≠ .error .terminate) :
    ∃ r, Relocation.step relocationMocks s.relocations m.relocation = some r ∧
      r.code.nullCall = false ∧ runRelocation relocationMocks m s =
        .single (s.setRelocations r) (.watcher .relocation)
          (relocationExit relocationMocks s m) := by
  unfold runRelocation at hlive ⊢
  split at hlive
  · rename_i r hst
    have hnull : r.code.nullCall = false := by
      by_contra hnull
      rw [Bool.not_eq_false] at hnull
      exact hlive (if_pos hnull)
    exact ⟨r, hst, hnull, by simp [hnull]⟩
  · exact absurd rfl hlive

/-! ### What holds of every part holds of the whole -/

lemma bounded_of_live {nothrow : Bool} {r : Run (Parts ω) Part Exc}
    (h : (bounded nothrow r).exit ≠ .error .terminate) : bounded nothrow r = r := by
  obtain ⟨state, log, exit⟩ := r
  unfold bounded at h ⊢
  split
  · rename_i hnothrow
    rcases exit with exit | ⟨⟩
    · simp [hnothrow] at h
    · rfl
  · rfl

section keeps

variable {R : Parts ω → List Part → Parts ω → Prop}

lemma unwind_keeps {exc : Exc}
    (h : Run.Keeps R s (runWatcher destructionMocks relocationMocks (.destroy o) k s)) :
    Run.Keeps R s (unwind destructionMocks relocationMocks o k exc s) := by
  intro hlive
  refine h fun hterm => ?_
  simp [unwind, hterm] at hlive

lemma bounded_keeps {nothrow : Bool} {r : Run (Parts ω) Part Exc} (h : Run.Keeps R s r) :
    Run.Keeps R s (bounded nothrow r) := by
  intro hlive
  have hsame := bounded_of_live hlive
  rw [hsame] at hlive ⊢
  exact h hlive

lemma constructing_keeps (hR : Run.Composes R)
    (hbase : ∀ s, Run.Keeps R s (runBase base s))
    (hm : ∀ k s, Run.Keeps R s (runWatcher destructionMocks relocationMocks m k s))
    (hdestroy : ∀ k s,
      Run.Keeps R s (runWatcher destructionMocks relocationMocks (.destroy o) k s))
    (ks : List Watcher) (s : Parts ω) :
    Run.Keeps R s (constructing destructionMocks relocationMocks m o base ks s) := by
  induction ks generalizing s with
  | nil => exact hbase s
  | cons k ks ih =>
    refine (hm k s).andThen hR fun _ => ?_
    exact (ih _).rescue hR fun exc _ => unwind_keeps (hdestroy k _)

lemma assigning_keeps (hR : Run.Composes R) (hbase : ∀ s, Run.Keeps R s (runBase base s))
    (hm : ∀ k s, Run.Keeps R s (runWatcher destructionMocks relocationMocks m k s))
    (ks : List Watcher) (s : Parts ω) :
    Run.Keeps R s (assigning destructionMocks relocationMocks m base ks s) := by
  induction ks generalizing s with
  | nil => exact hbase s
  | cons k ks ih => exact (hm k s).andThen hR fun _ => ih _

lemma destroying_keeps (hR : Run.Composes R) (hbase : ∀ s, Run.Keeps R s (runBase base s))
    (hdestroy : ∀ k s,
      Run.Keeps R s (runWatcher destructionMocks relocationMocks (.destroy o) k s))
    (ks : List Watcher) (s : Parts ω) :
    Run.Keeps R s (destroying destructionMocks relocationMocks o base ks s) := by
  induction ks generalizing s with
  | nil => exact hbase s
  | cons k ks ih =>
    exact (ih s).leave fun _ hs hlive => hR hs (hdestroy k _ hlive)

/-- What every member of a part keeps is kept by the members of the class. -/
theorem special_keeps (hR : Run.Composes R) (hbase : ∀ s, Run.Keeps R s (runBase base s))
    (hmembers : ∀ m k s, Run.Keeps R s (runWatcher destructionMocks relocationMocks m k s))
    (m : Member) (s : Parts ω) :
    Run.Keeps R s (special destructionMocks relocationMocks cls base m s) := by
  have hconstructing := fun m o => constructing_keeps (o := o) hR hbase (hmembers m)
    (hmembers (.destroy o)) cls.watchers s
  have hassigning := fun m => assigning_keeps hR hbase (hmembers m) cls.watchers s
  have hdestroying := fun o => destroying_keeps hR hbase (hmembers (.destroy o)) cls.watchers s
  cases m with
  | construct o => exact hconstructing _ o
  | copyConstruct o source => exact hconstructing _ o
  | moveConstruct o source => exact bounded_keeps (hconstructing _ o)
  | copyAssign target source => exact hassigning _
  | moveAssign target source => exact bounded_keeps (hassigning _)
  | destroy o => exact bounded_keeps (hdestroying o)

end keeps

/-! ### Which watchers there are -/

/-- The objects that have a watcher of the kind. -/
def present (s : Parts ω) : Watcher → ObjId → Bool
  | .lifetime => fun o => (s.code.objects o).isSome
  | .relocation => fun o => (s.relocations.code.objects o).isSome

lemma update_isSome {α : Type} (f : ObjId → Option α) (o : ObjId) (x : Option α) :
    (fun o' => (Function.update f o x o').isSome) =
      Function.update (fun o' => (f o').isSome) o x.isSome := by
  funext o'
  simp only [Function.update_apply]
  split <;> rfl

/-- An update that changes nothing. -/
lemma update_eq_of_eq {f : ObjId → Bool} {b : Bool} (h : f o = b) : Function.update f o b = f := by
  rw [← h, Function.update_eq_self]

/-- What is moved from a watcher to a place leaves the watcher where it is. -/
lemma isSome_move {α : Type} {f : ObjId → Option α} {source : ObjId}
    (hsource : (f source).isSome = true) (target : ObjId) (x y : α) :
    (fun o' => (Function.update (Function.update f source (some x)) target (some y) o').isSome) =
      Function.update (fun o' => (f o').isSome) target true := by
  have hset : (fun o' => (Function.update f source (some x) o').isSome) =
      fun o' => (f o').isSome := (update_isSome f source _).trans (update_eq_of_eq hsource)
  rw [update_isSome, hset]
  rfl

/-! ### What a watched object does is done by its watchers -/

/-- The lifetime watchers go through a run of their own, and so do the relocation watchers; to
each, the others are code around them. No null pointer is followed. -/
structure Follows (destructionMocks relocationMocks : CallMock ω Exc) (s s' : Parts ω) :
    Prop where
  nullCall : s'.relocations.code.nullCall = false
  lifetimes : (Lifetime.machine (besideRelocations destructionMocks)).Later s s'
  relocations : (Relocation.machine relocationMocks).Later s.relocations s'.relocations

/-- From a state that no null pointer has been followed in. -/
def FollowsOn (destructionMocks relocationMocks : CallMock ω Exc) (s : Parts ω)
    (_ : List Part) (s' : Parts ω) : Prop :=
  s.relocations.code.nullCall = false → Follows destructionMocks relocationMocks s s'

lemma followsOn_composes : Run.Composes (FollowsOn destructionMocks relocationMocks) :=
  fun h h' hs =>
    have hfirst := h hs
    have hsecond := h' hfirst.nullCall
    ⟨hsecond.nullCall, hfirst.lifetimes.trans hsecond.lifetimes,
      hfirst.relocations.trans hsecond.relocations⟩

lemma later_setRelocations (r : Relocation.State ω) :
    (Lifetime.machine (besideRelocations destructionMocks)).Later s (s.setRelocations r) :=
  .step (.other r) .refl rfl

/-- Code around the relocation watchers. -/
lemma later_setRest (hs : s.relocations.code.nullCall = false) (rest : ω) :
    (Relocation.machine relocationMocks).Later s.relocations (s.setRest rest).relocations := by
  have hlive : ¬ s.relocations.code.nullCall = true := by simp [hs]
  exact .step (.other rest) .refl (if_neg hlive)

lemma destruct_rest (destructionMocks : CallMock ω Exc) (s : Watchers (Relocation.State ω))
    (x : LifetimeWatcher) :
    ∃ rest, (s.destruct (besideRelocations destructionMocks) x).1.rest =
      { s.rest with code := { s.rest.code with rest := rest } } := by
  unfold Watchers.destruct
  rcases x.destructionMock with _ | m
  · exact ⟨s.rest.code.rest, rfl⟩
  · exact ⟨(destructionMocks s.rest.code.rest m).1, rfl⟩

/-- A lifetime watcher leaves the relocation watchers alone, and is there afterwards if its object
is. -/
lemma lifetime_effect
    (h : Lifetime.step (besideRelocations destructionMocks) s m.lifetime = some s') :
    (∃ rest, s'.relocations = (s.setRest rest).relocations) ∧
      present s' .lifetime = m.aliveAfter (present s .lifetime)
        (lifetimeExit destructionMocks s m).isOk := by
  cases m with
  | construct o =>
    simp only [Member.lifetime, Lifetime.step] at h
    split at h
    · obtain rfl := Option.some.inj h
      exact ⟨⟨s.rest, rfl⟩, update_isSome _ o _⟩
    · cases h
  | copyConstruct o source =>
    simp only [Member.lifetime, Lifetime.step] at h
    split at h
    · obtain rfl := Option.some.inj h
      exact ⟨⟨s.rest, rfl⟩, update_isSome _ o _⟩
    · cases h
  | moveConstruct o source =>
    simp only [Member.lifetime, Lifetime.step] at h
    split at h
    · rename_i y ho hy
      obtain rfl := Option.some.inj h
      exact ⟨⟨s.rest, rfl⟩, isSome_move (Option.isSome_iff_exists.mpr ⟨y, hy⟩) o _ _⟩
    · cases h
  | copyAssign target source =>
    simp only [Member.lifetime, Lifetime.step] at h
    split at h
    · rename_i x y hx hy
      have htarget : (s.code.objects target).isSome = true := by rw [hx]; rfl
      have hset : (fun o => ((s.code.set target (some x.movedFrom)).objects o).isSome) =
          present s .lifetime := (update_isSome _ target _).trans (update_eq_of_eq htarget)
      obtain ⟨rest, hrest⟩ :=
        destruct_rest destructionMocks (s.code.set target (some x.movedFrom)) x
      unfold Watchers.copyAssign at h
      rcases hdes : (s.code.set target (some x.movedFrom)).destruct
        (besideRelocations destructionMocks) x with ⟨u, (e | _) | v⟩
      all_goals
        have hobjects := (Watchers.destruct_spec hdes).1
        rw [hdes] at h hrest
        cases h
      · refine ⟨⟨rest, hrest⟩, ?_⟩
        simp only [present, hobjects]
        exact hset
      · refine ⟨⟨rest, hrest⟩, (update_isSome _ target _).trans ?_⟩
        simp only [hobjects, hset]
        exact update_eq_of_eq htarget
    · cases h
  | moveAssign target source =>
    simp only [Member.lifetime, Lifetime.step] at h
    split at h
    · rename_i x y hx hy
      obtain rfl := Option.some.inj h
      exact ⟨⟨s.rest, rfl⟩, (isSome_move (Option.isSome_iff_exists.mpr ⟨y, hy⟩) target _ _).trans
        (update_eq_of_eq (Option.isSome_iff_exists.mpr ⟨x, hx⟩))⟩
    · cases h
  | destroy o =>
    simp only [Member.lifetime, Lifetime.step] at h
    split at h
    · rename_i x hx
      obtain ⟨rest, hrest⟩ := destruct_rest destructionMocks (s.code.set o none) x
      rcases hdes : (s.code.set o none).destruct (besideRelocations destructionMocks) x
        with ⟨u, (e | _) | v⟩
      all_goals
        have hobjects := (Watchers.destruct_spec hdes).1
        rw [hdes] at h hrest
        cases h
      all_goals
        refine ⟨⟨rest, hrest⟩, ?_⟩
        simp only [present, hobjects]
        exact update_isSome _ o none
    · cases h

lemma runBase_follows (s : Parts ω) :
    Run.Keeps (FollowsOn destructionMocks relocationMocks) s (runBase base s) :=
  fun _ hs => ⟨hs, later_setRelocations _, later_setRest hs _⟩

lemma runWatcher_follows (m : Member) (k : Watcher) (s : Parts ω) :
    Run.Keeps (FollowsOn destructionMocks relocationMocks) s
      (runWatcher destructionMocks relocationMocks m k s) := by
  intro hlive hs
  cases k with
  | lifetime =>
    obtain ⟨s', hst, hr⟩ := runLifetime_live hlive
    obtain ⟨rest, hrest⟩ := (lifetime_effect hst).1
    rw [runWatcher, hr]
    refine ⟨?_, .step m.lifetime .refl hst, ?_⟩
    · exact (congrArg (fun r => r.code.nullCall) hrest).trans hs
    · simp only [Run.single, hrest]
      exact later_setRest hs rest
  | relocation =>
    obtain ⟨r, hst, hnull, hr⟩ := runRelocation_live hlive
    rw [runWatcher, hr]
    exact ⟨hnull, later_setRelocations r, .step m.relocation .refl hst⟩

/-! ### What becomes of the watchers -/

/-- A move of a relocation watcher, less the call. -/
lemma present_moveAssign {u u' : Relocation.Watchers ω} {target source : ObjId}
    {r : Except (Exit Exc) Unit} (htarget : (u.objects target).isSome = true)
    (hsource : (u.objects source).isSome = true)
    (h : u.moveAssign relocationMocks target source = (u', r)) :
    (fun o => (u'.objects o).isSome) = fun o => (u.objects o).isSome := by
  rcases hcall : u.call relocationMocks (u.mockOf source) with ⟨v, exit | ⟨⟩⟩
  all_goals
    have hobjects := (Relocation.call_spec hcall).1
    simp only [Relocation.Watchers.moveAssign, hcall, Prod.mk.injEq] at h
    obtain ⟨rfl, -⟩ := h
  · rw [hobjects]
  · rw [← hobjects] at htarget hsource ⊢
    exact (isSome_move hsource target _ _).trans (update_eq_of_eq htarget)

lemma present_moveConstruct {u u' : Relocation.Watchers ω} {o source : ObjId}
    {r : Except (Exit Exc) Unit} (ho : u.objects o = none) (hsource : u.objects source ≠ none)
    (h : u.moveConstruct relocationMocks o source = (u', r)) :
    (fun o' => (u'.objects o').isSome) =
      Function.update (fun o' => (u.objects o').isSome) o r.isOk := by
  have hne : source ≠ o := by rintro rfl; exact hsource ho
  have hconstruct : (fun o' => ((u.construct o).objects o').isSome) =
      Function.update (fun o' => (u.objects o').isSome) o true := update_isSome u.objects o _
  have ho' : ((u.construct o).objects o).isSome = true := by simp [Relocation.Watchers.construct]
  have hsource' : ((u.construct o).objects source).isSome = true := by
    simpa [Relocation.Watchers.construct, hne, Option.isSome_iff_ne_none] using hsource
  rcases hmove : (u.construct o).moveAssign relocationMocks o source with ⟨v, exit | ⟨⟩⟩
  all_goals
    have hpresent := present_moveAssign ho' hsource' hmove
    simp only [Relocation.Watchers.moveConstruct, hmove, Prod.mk.injEq] at h
    obtain ⟨rfl, rfl⟩ := h
  · refine (update_isSome v.objects o none).trans ?_
    rw [hpresent, hconstruct, Function.update_idem]
    rfl
  · rw [hpresent, hconstruct]
    rfl

lemma present_of_relocation {r : Relocation.State ω}
    (h : Relocation.step relocationMocks s.relocations m.relocation = some r) :
    present (s.setRelocations r) .relocation = m.aliveAfter (present s .relocation)
      (relocationExit relocationMocks s m).isOk := by
  -- a move ends without following a null pointer
  have hmoved : ∀ {held : Option MockId} {u : Relocation.Watchers ω}
      {exit : Except (Exit Exc) Unit}, Relocation.moved s.relocations held (u, exit) = some r →
      r.code = u := by
    intro held u exit hr
    rcases exit with (e | _) | ⟨⟩
    · exact congrArg Relocation.State.code (Option.some.inj hr).symm
    · simp only [Relocation.moved] at hr
      split at hr
      · exact congrArg Relocation.State.code (Option.some.inj hr).symm
      · cases hr
    · exact congrArg Relocation.State.code (Option.some.inj hr).symm
  unfold Relocation.step at h
  split at h
  · cases h
  cases m with
  | construct o =>
    simp only [Member.relocation] at h
    split at h
    · obtain rfl := Option.some.inj h
      exact update_isSome _ o _
    · cases h
  | copyConstruct o source =>
    simp only [Member.relocation] at h
    split at h
    · obtain rfl := Option.some.inj h
      exact update_isSome _ o _
    · cases h
  | moveConstruct o source =>
    simp only [Member.relocation] at h
    split at h
    · rename_i hcond
      rcases hmove : s.relocations.code.moveConstruct relocationMocks o source with ⟨u, exit⟩
      rw [hmove] at h
      have hpresent := present_moveConstruct hcond.1 hcond.2 hmove
      rw [← hmoved h] at hpresent
      simp only [relocationExit, hmove]
      exact hpresent
    · cases h
  | copyAssign target source =>
    simp only [Member.relocation] at h
    split at h
    · rename_i hcond
      obtain rfl := Option.some.inj h
      exact (update_isSome _ target _).trans
        (update_eq_of_eq (Option.isSome_iff_ne_none.mpr hcond.1))
    · cases h
  | moveAssign target source =>
    simp only [Member.relocation] at h
    split at h
    · rename_i hcond
      rcases hmove : s.relocations.code.moveAssign relocationMocks target source with ⟨u, exit⟩
      rw [hmove] at h
      have hpresent := present_moveAssign (Option.isSome_iff_ne_none.mpr hcond.1)
        (Option.isSome_iff_ne_none.mpr hcond.2) hmove
      rw [← hmoved h] at hpresent
      exact hpresent
    · cases h
  | destroy o =>
    simp only [Member.relocation] at h
    split at h
    · obtain rfl := Option.some.inj h
      exact update_isSome _ o none
    · cases h

/-- A member of a watcher concerns the watchers of its kind only. -/
lemma present_runWatcher
    (hlive : (runWatcher destructionMocks relocationMocks m k s).exit ≠ .error .terminate)
    (k' : Watcher) :
    present (runWatcher destructionMocks relocationMocks m k s).state k' =
      if k' = k then m.aliveAfter (present s k)
        (runWatcher destructionMocks relocationMocks m k s).exit.isOk
      else present s k' := by
  cases k with
  | lifetime =>
    obtain ⟨s', hst, hr⟩ := runLifetime_live hlive
    obtain ⟨⟨rest, hrest⟩, hpresent⟩ := lifetime_effect hst
    rw [runWatcher, hr]
    cases k' with
    | lifetime => exact hpresent
    | relocation =>
      simp only [present, Run.single, hrest]
      rfl
  | relocation =>
    obtain ⟨r, hst, -, hr⟩ := runRelocation_live hlive
    rw [runWatcher, hr]
    cases k' with
    | lifetime => rfl
    | relocation => exact present_of_relocation hst

lemma unwind_live {exc : Exc}
    (hlive : (unwind destructionMocks relocationMocks o k exc s).exit ≠ .error .terminate) :
    (runWatcher destructionMocks relocationMocks (.destroy o) k s).exit = .ok () ∧
      (unwind destructionMocks relocationMocks o k exc s).exit = .error (.thrown exc) := by
  rcases hexit : (runWatcher destructionMocks relocationMocks (.destroy o) k s).exit with exit | ⟨⟩
  · simp [unwind, hexit] at hlive
  · simp [unwind, hexit]

lemma present_runBase (k : Watcher) : present (runBase base s).state k = present s k := by
  cases k <;> rfl

/-- A step is refused only where the member terminates, so nothing is lost by having it terminate
there. -/
lemma lifetime_exit (hallowed : m.isAllowed (present s .lifetime) = true) :
    (runLifetime destructionMocks m s).exit = lifetimeExit destructionMocks s m := by
  unfold runLifetime
  split
  · rfl
  rename_i hst
  cases m with
  | construct o =>
    have ho : s.code.objects o = none := by simpa [Member.isAllowed, present] using hallowed
    simp [Member.lifetime, Lifetime.step, ho] at hst
  | copyConstruct o source =>
    have ho : s.code.objects o = none ∧ s.code.objects source ≠ none := by
      simpa [Member.isAllowed, present, Option.isSome_iff_ne_none] using hallowed
    simp [Member.lifetime, Lifetime.step, ho] at hst
  | moveConstruct o source =>
    have ho : s.code.objects o = none ∧ s.code.objects source ≠ none := by
      simpa [Member.isAllowed, present, Option.isSome_iff_ne_none] using hallowed
    obtain ⟨y, hy⟩ := Option.ne_none_iff_exists'.mp ho.2
    simp [Member.lifetime, Lifetime.step, ho.1, hy] at hst
  | copyAssign target source =>
    have ho : s.code.objects target ≠ none ∧ s.code.objects source ≠ none := by
      simpa [Member.isAllowed, present, Option.isSome_iff_ne_none] using hallowed
    obtain ⟨x, hx⟩ := Option.ne_none_iff_exists'.mp ho.1
    obtain ⟨y, hy⟩ := Option.ne_none_iff_exists'.mp ho.2
    simp only [Member.lifetime, Lifetime.step, hx, hy] at hst
    split at hst
    · cases hst
    · cases hst
    · rename_i hterminated
      simp [Run.single, lifetimeExit, hx, hterminated]
  | moveAssign target source =>
    have ho : s.code.objects target ≠ none ∧ s.code.objects source ≠ none := by
      simpa [Member.isAllowed, present, Option.isSome_iff_ne_none] using hallowed
    obtain ⟨x, hx⟩ := Option.ne_none_iff_exists'.mp ho.1
    obtain ⟨y, hy⟩ := Option.ne_none_iff_exists'.mp ho.2
    simp [Member.lifetime, Lifetime.step, hx, hy] at hst
  | destroy o =>
    have ho : s.code.objects o ≠ none := by
      simpa [Member.isAllowed, present, Option.isSome_iff_ne_none] using hallowed
    obtain ⟨x, hx⟩ := Option.ne_none_iff_exists'.mp ho
    simp only [Member.lifetime, Lifetime.step, hx] at hst
    split at hst
    · rename_i hterminated
      simp [Run.single, lifetimeExit, hx, hterminated]
    · cases hst

lemma moved_eq_none_iff {p : Relocation.State ω} {held : Option MockId}
    {u : Relocation.Watchers ω} {r : Except (Exit Exc) Unit} :
    Relocation.moved p held (u, r) = none ↔ r = .error .terminate ∧ u.nullCall = false := by
  rcases r with (e | _) | ⟨⟩ <;> simp [Relocation.moved]

/-- A null pointer is followed in a call, which does not return. -/
lemma relocationExit_of_null (hallowed : m.isAllowed (present s .relocation) = true)
    (hnull : ¬ Relocation.SourceHolds s.relocations (m.relocation : Relocation.Action ω)) :
    relocationExit relocationMocks s m = .error .terminate := by
  have hcall : ∀ (u : Relocation.Watchers ω) target source, u.mockOf source = none →
      (u.moveAssign relocationMocks target source).2 = .error .terminate := by
    intro u target source hmock
    simp only [Relocation.Watchers.moveAssign, hmock, Relocation.Watchers.call]
  cases m with
  | construct o | copyConstruct o source | copyAssign target source | destroy o =>
    simp [Relocation.SourceHolds, Relocation.Action.source?, Member.relocation] at hnull
  | moveConstruct o source =>
    have hmock : s.relocations.code.mockOf source = none := by
      simpa [Relocation.SourceHolds, Relocation.Action.source?, Member.relocation] using hnull
    have hne : source ≠ o := by
      rintro rfl
      simp [Member.isAllowed] at hallowed
    have hfresh := hcall (s.relocations.code.construct o) o source
      (by simpa [Relocation.Watchers.mockOf, Relocation.Watchers.construct, hne] using hmock)
    simp only [relocationExit, Relocation.Watchers.moveConstruct]
    rcases hmove : (s.relocations.code.construct o).moveAssign relocationMocks o source with ⟨u, r⟩
    rw [hmove] at hfresh
    obtain rfl : r = .error .terminate := hfresh
    rfl
  | moveAssign target source =>
    have hmock : s.relocations.code.mockOf source = none := by
      simpa [Relocation.SourceHolds, Relocation.Action.source?, Member.relocation] using hnull
    exact hcall _ target source hmock

lemma relocation_exit (hallowed : m.isAllowed (present s .relocation) = true)
    (hnull : s.relocations.code.nullCall = false) :
    (runRelocation relocationMocks m s).exit = relocationExit relocationMocks s m := by
  unfold runRelocation
  split
  · rename_i r hst
    simp only [Run.single]
    split
    · rename_i hfollowed
      exact (relocationExit_of_null hallowed
        ((Relocation.step_outcome hst).nullCall.mp hfollowed)).symm
    · rfl
  rename_i hst
  unfold Relocation.step at hst
  rw [if_neg (by simp [hnull])] at hst
  cases m with
  | construct o =>
    have ho : s.relocations.code.objects o = none := by
      simpa [Member.isAllowed, present] using hallowed
    simp [Member.relocation, ho] at hst
  | copyConstruct o source =>
    have ho : s.relocations.code.objects o = none ∧ s.relocations.code.objects source ≠ none := by
      simpa [Member.isAllowed, present, Option.isSome_iff_ne_none] using hallowed
    simp [Member.relocation, ho] at hst
  | moveConstruct o source =>
    have ho : s.relocations.code.objects o = none ∧ s.relocations.code.objects source ≠ none := by
      simpa [Member.isAllowed, present, Option.isSome_iff_ne_none] using hallowed
    simp only [Member.relocation, if_pos ho] at hst
    exact (moved_eq_none_iff.mp hst).1.symm
  | copyAssign target source =>
    have ho : s.relocations.code.objects target ≠ none ∧
        s.relocations.code.objects source ≠ none := by
      simpa [Member.isAllowed, present, Option.isSome_iff_ne_none] using hallowed
    simp [Member.relocation, ho] at hst
  | moveAssign target source =>
    have ho : s.relocations.code.objects target ≠ none ∧
        s.relocations.code.objects source ≠ none := by
      simpa [Member.isAllowed, present, Option.isSome_iff_ne_none] using hallowed
    simp only [Member.relocation, if_pos ho] at hst
    exact (moved_eq_none_iff.mp hst).1.symm
  | destroy o =>
    have ho : s.relocations.code.objects o ≠ none := by
      simpa [Member.isAllowed, present, Option.isSome_iff_ne_none] using hallowed
    simp [Member.relocation, ho] at hst

/-- The object has a watcher of each of the kinds, or of none of them; the other watchers are as
they were. -/
def Sets (o : ObjId) (ks : List Watcher) (b : Bool) (s s' : Parts ω) : Prop :=
  ∀ k, present s' k = if k ∈ ks then Function.update (present s k) o b else present s k

section sets

variable {ks ks' : List Watcher} {b b' : Bool} {t : Parts ω}

lemma Sets.congr (h : Sets o ks b s s') (hks : ∀ k, k ∈ ks ↔ k ∈ ks') : Sets o ks' b s s' := by
  intro k
  rw [h k, if_congr (hks k) rfl rfl]

lemma Sets.of_eq (h : ∀ k ∈ ks, present s k o = b) : Sets o ks b s s := by
  intro k
  split
  · rename_i hk
    exact (update_eq_of_eq (h k hk)).symm
  · rfl

lemma Sets.append (h : Sets o ks b s s') (h' : Sets o ks' b s' t) :
    Sets o (ks ++ ks') b s t := by
  intro k
  rw [h' k, h k]
  by_cases hk : k ∈ ks <;> by_cases hk' : k ∈ ks' <;> simp [hk, hk']

lemma Sets.overwrite (h : Sets o ks b s s') (h' : Sets o ks' b' s' t) (hsub : ks ⊆ ks') :
    Sets o ks' b' s t := by
  intro k
  rw [h' k, h k]
  by_cases hk : k ∈ ks
  · simp [hk, hsub hk]
  · simp [hk]

lemma Sets.present_of_not_mem (h : Sets o ks b s s') (hk : k ∉ ks) :
    present s' k = present s k := by
  rw [h k, if_neg hk]

end sets

lemma sets_runWatcher {b : Bool}
    (hm : ∀ alive, m.aliveAfter alive b = Function.update alive o b)
    (hlive : (runWatcher destructionMocks relocationMocks m k s).exit ≠ .error .terminate)
    (hb : (runWatcher destructionMocks relocationMocks m k s).exit.isOk = b) :
    Sets o [k] b s (runWatcher destructionMocks relocationMocks m k s).state := by
  intro k'
  rw [present_runWatcher hlive k', hb, hm]
  by_cases hkk : k' = k <;> simp [hkk]

/-- However a destructor ends, the watcher is gone. -/
lemma sets_destroy
    (hlive : (runWatcher destructionMocks relocationMocks (.destroy o) k s).exit ≠
      .error .terminate) :
    Sets o [k] false s (runWatcher destructionMocks relocationMocks (.destroy o) k s).state := by
  intro k'
  rw [present_runWatcher hlive k']
  by_cases hkk : k' = k <;> simp [hkk, Member.aliveAfter]

/-- A constructor makes a watcher of each kind the class lists, or leaves none behind. -/
lemma sets_constructing (hm : ∀ alive b, m.aliveAfter alive b = Function.update alive o b)
    {ks : List Watcher} (hnd : ks.Nodup) (hnone : ∀ k ∈ ks, present s k o = false)
    (hlive : (constructing destructionMocks relocationMocks m o base ks s).exit ≠
      .error .terminate) :
    Sets o ks (constructing destructionMocks relocationMocks m o base ks s).exit.isOk s
      (constructing destructionMocks relocationMocks m o base ks s).state := by
  induction ks generalizing s with
  | nil =>
    intro k
    exact present_runBase k
  | cons k ks ih =>
    obtain ⟨hk, hnd⟩ := List.nodup_cons.mp hnd
    obtain ⟨hnonek, hnone⟩ := List.forall_mem_cons.mp hnone
    simp only [constructing] at hlive ⊢
    obtain ⟨r, hr⟩ : ∃ r, runWatcher destructionMocks relocationMocks m k s = r := ⟨_, rfl⟩
    have hfirst : ∀ b, r.exit ≠ .error .terminate → r.exit.isOk = b → Sets o [k] b s r.state := by
      rw [← hr]
      exact fun b => sets_runWatcher fun alive => hm alive b
    rw [hr] at hlive ⊢
    have hothers : ∀ b, Sets o [k] b s r.state → ∀ k' ∈ ks, present r.state k' o = false := by
      intro b hset k' hk'
      rw [hset.present_of_not_mem (by simpa using ne_of_mem_of_not_mem hk' hk)]
      exact hnone k' hk'
    rcases hexit : r.exit with (exc | _) | ⟨⟩
    · rw [Run.andThen_of_error hexit, hexit]
      have hset : Sets o [k] false s r.state := hfirst false (by simp [hexit]) (by rw [hexit]; rfl)
      exact hset.append (.of_eq (hothers false hset))
    · rw [Run.andThen_of_error hexit] at hlive
      exact absurd hexit hlive
    · have hset : Sets o [k] true s r.state := hfirst true (by simp [hexit]) (by rw [hexit]; rfl)
      rw [Run.andThen_of_ok hexit] at hlive ⊢
      simp only at hlive ⊢
      have hrest := ih hnd (hothers true hset)
      obtain ⟨q, hq⟩ : ∃ q, constructing destructionMocks relocationMocks m o base ks r.state = q :=
        ⟨_, rfl⟩
      rw [hq] at hlive hrest ⊢
      rcases hinner : q.exit with (exc | _) | ⟨⟩
      · -- a later part has failed, and the watcher is destroyed again
        rw [Run.rescue_of_thrown hinner] at hlive ⊢
        simp only at hlive ⊢
        obtain ⟨hdestroyed, hthrown⟩ := unwind_live hlive
        have hundone : Sets o ks false r.state q.state := by
          have hset := hrest (by simp [hinner])
          rwa [hinner] at hset
        have hlast := sets_destroy (by rw [hdestroyed]; simp)
        rw [hthrown]
        refine (hset.overwrite (hundone.append hlast) (by simp)).congr fun k' => ?_
        simp [or_comm]
      · rw [Run.rescue_of_terminate hinner] at hlive
        exact absurd hinner hlive
      · rw [Run.rescue_of_ok hinner] at hlive ⊢
        have hmade := hrest hlive
        rw [hinner] at hmade ⊢
        exact hset.append hmade

lemma present_assigning (hm : ∀ alive b, m.aliveAfter alive b = alive) {ks : List Watcher}
    (hlive : (assigning destructionMocks relocationMocks m base ks s).exit ≠ .error .terminate)
    (k : Watcher) :
    present (assigning destructionMocks relocationMocks m base ks s).state k = present s k := by
  refine assigning_keeps (R := fun s _ s' => present s' k = present s k)
    (fun h h' => h'.trans h) (fun s _ => present_runBase k) (fun k' s hlive' => ?_) ks s hlive
  refine (present_runWatcher hlive' k).trans ?_
  rw [hm]
  split
  · rename_i hkk
    rw [hkk]
  · rfl

lemma sets_destroying (ks : List Watcher) (s : Parts ω) :
    Run.Keeps (fun s _ s' => Sets o ks false s s') s
      (destroying destructionMocks relocationMocks o base ks s) := by
  induction ks generalizing s with
  | nil => exact fun _ k => present_runBase k
  | cons k ks ih =>
    refine (ih s).leave fun _ hs hlive => ?_
    exact (hs.append (sets_destroy hlive)).congr fun k' => by simp [or_comm]

/-- **All watchers or none**: a special member leaves a watcher of each kind the class lists
where it leaves an object, and nowhere else. -/
theorem present_special (hallowed : ∀ k ∈ cls.watchers, m.isAllowed (present s k) = true)
    (hlive : (special destructionMocks relocationMocks cls base m s).exit ≠ .error .terminate)
    (k : Watcher) :
    present (special destructionMocks relocationMocks cls base m s).state k =
      if k ∈ cls.watchers then m.aliveAfter (present s k)
        (special destructionMocks relocationMocks cls base m s).exit.isOk
      else present s k := by
  cases m with
  | construct o =>
    refine sets_constructing (fun _ _ => rfl) cls.nodup (fun k hk => ?_) hlive k
    simpa [Member.isAllowed] using hallowed k hk
  | copyConstruct o source =>
    refine sets_constructing (fun _ _ => rfl) cls.nodup (fun k hk => ?_) hlive k
    have hk := hallowed k hk
    simp only [Member.isAllowed, Bool.and_eq_true, Bool.not_eq_true'] at hk
    exact hk.1
  | moveConstruct o source =>
    simp only [special] at hlive ⊢
    have hsame := bounded_of_live hlive
    rw [hsame] at hlive ⊢
    refine sets_constructing (fun _ _ => rfl) cls.nodup (fun k hk => ?_) hlive k
    have hk := hallowed k hk
    simp only [Member.isAllowed, Bool.and_eq_true, Bool.not_eq_true'] at hk
    exact hk.1
  | copyAssign target source =>
    simp only [special] at hlive ⊢
    rw [present_assigning (fun _ _ => rfl) hlive]
    exact (ite_self _).symm
  | moveAssign target source =>
    simp only [special] at hlive ⊢
    have hsame := bounded_of_live hlive
    rw [hsame] at hlive ⊢
    rw [present_assigning (fun _ _ => rfl) hlive]
    exact (ite_self _).symm
  | destroy o =>
    simp only [special] at hlive ⊢
    have hsame := bounded_of_live hlive
    rw [hsame] at hlive ⊢
    exact sets_destroying cls.watchers s hlive k

/-! ### Runs of watched objects -/

variable {p p' : State ω}

/-- The living objects have a watcher of each kind the class lists, and there are no others. -/
def InSync (cls : Class) (p : State ω) : Prop :=
  ∀ k, present p.parts k = if k ∈ cls.watchers then p.alive else fun _ => false

lemma step_special (h : step cls destructionMocks relocationMocks p (.special m base) = some p') :
    m.isAllowed p.alive = true ∧
      (special destructionMocks relocationMocks cls base m p.parts).exit ≠ .error .terminate ∧
      p' = ⟨m.aliveAfter p.alive
          (special destructionMocks relocationMocks cls base m p.parts).exit.isOk,
        (special destructionMocks relocationMocks cls base m p.parts).state⟩ := by
  simp only [step] at h
  split at h
  · rename_i hallowed
    split at h
    · cases h
    · rename_i hlive
      exact ⟨hallowed, hlive, (Option.some.inj h).symm⟩
  · cases h

lemma InSync.special (hI : InSync cls p)
    (h : step cls destructionMocks relocationMocks p (.special m base) = some p') :
    InSync cls p' := by
  obtain ⟨hallowed, hlive, rfl⟩ := step_special h
  have hpresent : ∀ k ∈ cls.watchers, present p.parts k = p.alive := fun k hk => by
    rw [hI k, if_pos hk]
  intro k
  have hk := present_special (fun k hk => by rw [hpresent k hk]; exact hallowed) hlive k
  refine hk.trans ?_
  split
  · rename_i hmem
    rw [hpresent k hmem]
  · rename_i hmem
    rw [hI k, if_neg hmem]

lemma expectDestruct_effect {callMock : CallMock (Relocation.State ω) Exc}
    (h : Lifetime.step callMock s (.expectDestruct o) = some s') :
    s'.relocations = s.relocations ∧ ∀ k, present s' k = present s k := by
  simp only [Lifetime.step] at h
  split at h
  · rename_i x hx
    split at h
    · obtain rfl := Option.some.inj h
      exact ⟨rfl, fun _ => rfl⟩
    · split at h
      · cases h
      · obtain rfl := Option.some.inj h
        refine ⟨rfl, fun k => ?_⟩
        cases k with
        | lifetime =>
          exact (update_isSome _ o _).trans
            (update_eq_of_eq (Option.isSome_iff_exists.mpr ⟨x, hx⟩))
        | relocation => rfl
  · cases h

lemma reachable_inSync (h : (machine cls destructionMocks relocationMocks).Reachable p) :
    InSync cls p := by
  induction h with
  | @init p h₀ =>
    intro k
    have halive : p.alive = fun _ => false := funext h₀.alive
    rw [halive, ite_self]
    cases k with
    | lifetime => funext o; simp [present, h₀.lifetimes.objects]
    | relocation => funext o; simp [present, h₀.relocations.objects]
  | step a _ hst ih =>
    cases a with
    | special m base => exact ih.special hst
    | expectDestruct o =>
      obtain ⟨s, hs, rfl⟩ := Option.map_eq_some_iff.mp hst
      intro k
      rw [(expectDestruct_effect hs).2 k]
      exact ih k
    | other rest =>
      obtain rfl := Option.some.inj hst
      intro k
      refine Eq.trans ?_ (ih k)
      cases k <;> rfl

/-- The watchers of either kind have gone through a run of their own. -/
lemma reachable_parts (h : (machine cls destructionMocks relocationMocks).Reachable p) :
    (Lifetime.machine (besideRelocations destructionMocks)).Reachable p.parts ∧
    (Relocation.machine relocationMocks).Reachable p.parts.relocations ∧
    p.parts.relocations.code.nullCall = false := by
  induction h with
  | init h₀ => exact ⟨.init h₀.lifetimes, .init h₀.relocations, h₀.relocations.nullCall⟩
  | step a _ hst ih =>
    obtain ⟨hlifetimes, hrelocations, hnull⟩ := ih
    cases a with
    | special m base =>
      obtain ⟨-, hlive, rfl⟩ := step_special hst
      have hfollows := special_keeps (R := FollowsOn destructionMocks relocationMocks)
        followsOn_composes runBase_follows runWatcher_follows m _ hlive hnull
      exact ⟨hlifetimes.later hfollows.lifetimes, hrelocations.later hfollows.relocations,
        hfollows.nullCall⟩
    | expectDestruct o =>
      obtain ⟨s, hs, rfl⟩ := Option.map_eq_some_iff.mp hst
      have hsame := (expectDestruct_effect hs).1
      exact ⟨.step (.expectDestruct o) hlifetimes hs, hsame ▸ hrelocations, hsame ▸ hnull⟩
    | other rest =>
      obtain rfl := Option.some.inj hst
      exact ⟨hlifetimes.later (later_setRelocations _),
        hrelocations.later (later_setRest hnull rest), hnull⟩

/-- **No watcher is refused**: in every state that a program gets to, a member that may be called
ends, in each watcher of the class, the way the mocks it calls do. -/
theorem reachable_exit (h : (machine cls destructionMocks relocationMocks).Reachable p)
    (hallowed : m.isAllowed p.alive = true) (hk : k ∈ cls.watchers) :
    (runWatcher destructionMocks relocationMocks m k p.parts).exit = match k with
      | .lifetime => lifetimeExit destructionMocks p.parts m
      | .relocation => relocationExit relocationMocks p.parts m := by
  have hpresent : m.isAllowed (present p.parts k) = true := by
    rw [reachable_inSync h k, if_pos hk]
    exact hallowed
  cases k with
  | lifetime => exact lifetime_exit hpresent
  | relocation => exact relocation_exit hpresent (reachable_parts h).2.2

/-- **A watched object is what its watchers are**: in every state that a program with watched
objects gets to, the lifetime watchers have gone through a run of lifetime watchers, and the
relocation watchers through one of relocation watchers, which followed no null pointer; and it
is the living objects that have watchers, one of each kind the class lists. -/
theorem watched_follows (h : (machine cls destructionMocks relocationMocks).Reachable p) :
    (Lifetime.machine (besideRelocations destructionMocks)).Reachable p.parts ∧
    (Relocation.machine relocationMocks).Reachable p.parts.relocations ∧
    p.parts.relocations.code.nullCall = false ∧
    ∀ k, present p.parts k = if k ∈ cls.watchers then p.alive else fun _ => false := by
  obtain ⟨hlifetimes, hrelocations, hnull⟩ := reachable_parts h
  exact ⟨hlifetimes, hrelocations, hnull, reachable_inSync h⟩

/-- Mocks of this library; those of either kind have collections of their own. -/
def mocksOf : Watcher → CallMock (World Unit Unit Unit Unit) Unit
  | .lifetime => fun w m => callVoid w (2 * m)
  | .relocation => fun w m => callVoid w (2 * m + 1)

/-- A base that can throw, though it never does, behind both watchers. -/
def bothWatchers : Class := ⟨[.lifetime, .relocation], by decide, false, false, false⟩

/-- A program in which the end of the first object is expected, and nothing else. -/
def expectingEnd : State (World Unit Unit Unit Unit) :=
  ⟨fun _ => false, Lifetime.empty Relocation.expecting⟩

lemma fresh_expectingEnd : Fresh expectingEnd :=
  ⟨fun _ => rfl, Lifetime.fresh_empty _, Relocation.fresh_expecting⟩

def quietly (m : Member) : Action (World Unit Unit Unit Unit) Unit :=
  .special m fun w => (w, .ok ())

/-- An object is copied, and cannot be moved: the relocation is not expected. The copy dies
unexpectedly. -/
def copyThenMove : List (Action (World Unit Unit Unit Unit) Unit) :=
  [quietly (.construct 0), quietly (.copyConstruct 1 0), quietly (.moveConstruct 2 0),
    quietly (.destroy 1)]

theorem watched_follows_copyThenMove :
    ∃ p : State (World Unit Unit Unit Unit),
      (p.alive 0, p.alive 1, p.alive 2) = (true, false, false) ∧
      (Lifetime.machine (besideRelocations (mocksOf .lifetime))).Reachable p.parts ∧
      (Relocation.machine (mocksOf .relocation)).Reachable p.parts.relocations ∧
      p.parts.relocations.code.nullCall = false ∧
      ∀ k, present p.parts k = if k ∈ bothWatchers.watchers then p.alive else fun _ => false := by
  have h : ((machine bothWatchers (mocksOf .lifetime) (mocksOf .relocation)).replay expectingEnd
      copyThenMove).isSome = true := by decide +kernel
  obtain ⟨p, hrun, hreach⟩ := Machine.exists_reachable_of_replay fresh_expectingEnd h
  refine ⟨p, ?_, watched_follows hreach⟩
  cases hrun
  decide +kernel

/-! ### What is reported -/

/-- The destruction mocks that have been called are those of the identities whose life has
ended. -/
structure Exact (s : Parts ω) : Prop where
  agree : Agree s
  valid : s.history.Valid
  invoked : s.code.invoked = s.history.ended

/-- A move assignment goes to the source itself, or to an object that has been moved from. -/
def SafeMove (p : State ω) : Action ω Exc → Prop
  | .special m _ => Lifetime.SafeMove p.parts m.lifetime
  | _ => True

/-- What is kept of the reports. -/
def ExactOn (s : Parts ω) (_ : List Part) (s' : Parts ω) : Prop := Exact s → Exact s'

lemma exactOn_composes : Run.Composes (ExactOn : Parts ω → List Part → Parts ω → Prop) :=
  fun h h' hs => h' (h hs)

lemma exact_setRelocations {r : Relocation.State ω} (h : Exact s) :
    Exact (s.setRelocations r) := ⟨⟨h.agree.born, h.agree.held⟩, h.valid, h.invoked⟩

lemma exact_runBase (s : Parts ω) : Run.Keeps ExactOn s (runBase base s) :=
  fun _ => exact_setRelocations

lemma runRelocation_state (relocationMocks : CallMock ω Exc) (m : Member) (s : Parts ω) :
    ∃ r, (runRelocation relocationMocks m s).state = s.setRelocations r := by
  unfold runRelocation
  split
  · exact ⟨_, rfl⟩
  · exact ⟨s.relocations, rfl⟩

lemma exact_runWatcher (hsafe : k = .lifetime → Lifetime.SafeMove s m.lifetime) :
    Run.Keeps ExactOn s (runWatcher destructionMocks relocationMocks m k s) := by
  intro hlive hs
  cases k with
  | lifetime =>
    obtain ⟨s', hst, hr⟩ := runLifetime_live hlive
    have hout := Lifetime.step_outcome hs.agree hst
    rw [runWatcher, hr]
    exact ⟨hout.agree, hout.valid hs.valid,
      (exact_step_iff hs.agree hs.invoked hst).mpr (hsafe rfl)⟩
  | relocation =>
    obtain ⟨r, -, -, hr⟩ := runRelocation_live hlive
    rw [runWatcher, hr]
    exact exact_setRelocations hs

/-- The lifetime watcher is assigned once, and nothing before it touches what it holds. -/
lemma exact_assigning {ks : List Watcher} (hnd : ks.Nodup)
    (hsafe : .lifetime ∈ ks → Lifetime.SafeMove s m.lifetime) :
    Run.Keeps ExactOn s (assigning destructionMocks relocationMocks m base ks s) := by
  induction ks generalizing s with
  | nil => exact exact_runBase s
  | cons k ks ih =>
    obtain ⟨hk, hnd⟩ := List.nodup_cons.mp hnd
    refine (exact_runWatcher fun hk => hsafe (by simp [hk])).andThen exactOn_composes fun _ => ?_
    refine ih hnd fun hmem => ?_
    cases k with
    | lifetime => exact absurd hmem hk
    | relocation =>
      obtain ⟨r, hr⟩ := runRelocation_state relocationMocks m s
      rw [runWatcher, hr]
      have hs := hsafe (List.mem_cons_of_mem _ hmem)
      cases m <;> exact hs

lemma exact_special (hsafe : Lifetime.SafeMove s m.lifetime) :
    Run.Keeps ExactOn s (special destructionMocks relocationMocks cls base m s) := by
  have hdestroy : ∀ o k s, Run.Keeps ExactOn s
      (runWatcher destructionMocks relocationMocks (.destroy o) k s) :=
    fun _ _ _ => exact_runWatcher fun _ => trivial
  have hconstructing : ∀ m o, (∀ s : Parts ω, Lifetime.SafeMove s m.lifetime) →
      Run.Keeps ExactOn s
        (constructing destructionMocks relocationMocks m o base cls.watchers s) :=
    fun m o hm => constructing_keeps (R := ExactOn) exactOn_composes exact_runBase
      (fun _ _ => exact_runWatcher fun _ => hm _) (hdestroy o) cls.watchers s
  cases m with
  | construct o => exact hconstructing _ o fun _ => trivial
  | copyConstruct o source => exact hconstructing _ o fun _ => trivial
  | moveConstruct o source => exact bounded_keeps (hconstructing _ o fun _ => trivial)
  | copyAssign target source => exact exact_assigning cls.nodup fun _ => hsafe
  | moveAssign target source => exact bounded_keeps (exact_assigning cls.nodup fun _ => hsafe)
  | destroy o =>
    exact bounded_keeps (destroying_keeps (R := ExactOn) exactOn_composes exact_runBase
      (hdestroy o) cls.watchers s)

lemma fresh_exact (h₀ : Fresh p) : Exact p.parts where
  agree := by
    refine ⟨?_, fun o => ?_⟩
    · rw [h₀.lifetimes.history, h₀.lifetimes.made]
      rfl
    · rw [h₀.lifetimes.history, Watchers.mockOf, h₀.lifetimes.objects]
      rfl
  valid := h₀.lifetimes.history ▸ Ledger.valid_empty
  invoked := by
    rw [h₀.lifetimes.invoked, h₀.lifetimes.history]
    rfl

/-- **No life is lost, and none ends twice**: whatever is thrown by mocks and by the base, and
whatever is undone, in every run whose move assignments are safe an identity is held by a living
object and has not been reported, or nobody holds it and it has been reported once. -/
theorem lives_accounted
    (h : (machine cls destructionMocks relocationMocks).ReachableVia SafeMove p) :
    ∀ id < p.parts.history.born,
      (∃ o, p.alive o = true ∧ p.parts.history.held o = some id ∧
        p.parts.code.invoked.count id = 0) ∨
      ((∀ o, p.parts.history.held o ≠ some id) ∧ p.parts.code.invoked.count id = 1) := by
  have hexact : Exact p.parts := by
    refine h.invariant (I := fun p => Exact p.parts) (fun p => fresh_exact)
      fun p a p' _ hexact hsafe hst => ?_
    cases a with
    | special m base =>
      obtain ⟨-, hlive, rfl⟩ := step_special hst
      exact exact_special hsafe hlive hexact
    | expectDestruct o =>
      obtain ⟨s, hs, rfl⟩ := Option.map_eq_some_iff.mp hst
      have hout := Lifetime.step_outcome hexact.agree hs
      exact ⟨hout.agree, hout.valid hexact.valid,
        (exact_step_iff hexact.agree hexact.invoked hs).mpr trivial⟩
    | other rest =>
      obtain rfl := Option.some.inj hst
      exact exact_setRelocations hexact
  have hsync := reachable_inSync h.reachable .lifetime
  intro id hid
  rw [hexact.invoked]
  rcases hexact.valid.complete hid with ⟨o, ho⟩ | hended
  · refine .inl ⟨o, ?_, ho, List.count_eq_zero_of_not_mem (hexact.valid.held_not_ended ho)⟩
    -- whoever holds an identity has a watcher, and so is alive
    have hmock := ho
    rw [hexact.agree.held, Watchers.mockOf] at hmock
    obtain ⟨x, hx, -⟩ := Option.bind_eq_some_iff.mp hmock
    have hpresent : present p.parts .lifetime o = true :=
      Option.isSome_iff_exists.mpr ⟨x, hx⟩
    rw [hsync] at hpresent
    split at hpresent
    · exact hpresent
    · cases hpresent
  · exact .inr ⟨fun o ho => hexact.valid.held_not_ended ho hended,
      List.count_eq_one_of_mem hexact.valid.nodup hended⟩

instance (p : State ω) : (a : Action ω Exc) → Decidable (SafeMove p a)
  | .special m _ => inferInstanceAs (Decidable (Lifetime.SafeMove p.parts m.lifetime))
  | .expectDestruct _ | .other _ => isTrue trivial

theorem lives_accounted_copyThenMove :
    ∃ p : State (World Unit Unit Unit Unit), p.parts.history.born = 2 ∧
      p.parts.code.invoked = [0, 1] ∧
      ∀ id < p.parts.history.born,
        (∃ o, p.alive o = true ∧ p.parts.history.held o = some id ∧
          p.parts.code.invoked.count id = 0) ∨
        ((∀ o, p.parts.history.held o ≠ some id) ∧ p.parts.code.invoked.count id = 1) := by
  have hP : (machine bothWatchers (mocksOf .lifetime) (mocksOf .relocation)).stepsMeet SafeMove
      expectingEnd copyThenMove = true := by decide +kernel
  have h : ((machine bothWatchers (mocksOf .lifetime) (mocksOf .relocation)).replay expectingEnd
      copyThenMove).isSome = true := by decide +kernel
  obtain ⟨p, hrun⟩ := Option.isSome_iff_exists.mp h
  have hborn : p.parts.history.born = 2 ∧ p.parts.code.invoked = [0, 1] := by
    cases hrun
    decide +kernel
  have hvia := (Machine.ReachableVia.init fresh_expectingEnd).of_replay hP hrun
  exact ⟨p, hborn.1, hborn.2, lives_accounted hvia⟩

/-! ### A move construction that fails -/

variable {source : ObjId} {ks : List Watcher} {exc : Exc}

@[simp] lemma runWatcher_log :
    (runWatcher destructionMocks relocationMocks m k s).log = [.watcher k] := by
  cases k with
  | lifetime => simp only [runWatcher, runLifetime]; split <;> rfl
  | relocation => simp only [runWatcher, runRelocation]; split <;> rfl

@[simp] lemma unwind_log :
    (unwind destructionMocks relocationMocks o k exc s).log = [.watcher k] := runWatcher_log

/-- The pointer of a lifetime watcher is taken over without a call. -/
lemma lifetime_moveConstruct
    (hlive : (runWatcher destructionMocks relocationMocks (.moveConstruct o source) .lifetime
      s).exit ≠ .error .terminate) :
    (runWatcher destructionMocks relocationMocks (.moveConstruct o source) .lifetime s).exit =
        .ok () ∧
      (runWatcher destructionMocks relocationMocks (.moveConstruct o source) .lifetime
        s).state.history = s.history.move o source := by
  obtain ⟨s', hst, hr⟩ := runLifetime_live hlive
  rw [runWatcher, hr]
  simp only [Member.lifetime, Lifetime.step] at hst
  split at hst
  · obtain rfl := Option.some.inj hst
    exact ⟨rfl, rfl⟩
  · cases hst

lemma lifetime_destroy
    (hlive : (runWatcher destructionMocks relocationMocks (.destroy o) .lifetime s).exit ≠
      .error .terminate) :
    (runWatcher destructionMocks relocationMocks (.destroy o) .lifetime s).state.history =
      s.history.finish o := by
  obtain ⟨s', hst, hr⟩ := runLifetime_live hlive
  rw [runWatcher, hr]
  simp only [Member.lifetime, Lifetime.step] at hst
  split at hst
  · split at hst
    · cases hst
    · obtain rfl := Option.some.inj hst
      rfl
  · cases hst

lemma relocation_history :
    (runWatcher destructionMocks relocationMocks m .relocation s).state.history = s.history := by
  obtain ⟨r, hr⟩ := runRelocation_state relocationMocks m s
  rw [runWatcher, hr]
  rfl

lemma mem_constructing_log
    (h : .watcher k ∈ (constructing destructionMocks relocationMocks m o base ks s).log) :
    k ∈ ks := by
  induction ks generalizing s with
  | nil => simp [constructing, runBase, Run.single] at h
  | cons k' ks ih =>
    rcases Run.mem_andThen_log h with h | ⟨-, h⟩
    · simp only [runWatcher_log, List.mem_singleton, Part.watcher.injEq] at h
      exact h ▸ List.mem_cons_self
    · rcases Run.mem_rescue_log h with h | ⟨exc, h⟩
      · exact List.mem_cons_of_mem _ (ih h)
      · rw [unwind_log, List.mem_singleton, Part.watcher.injEq] at h
        exact h ▸ List.mem_cons_self

/-- A constructor fails with its first part, or with a later one; then the first part is
destroyed again. -/
lemma constructing_thrown
    (hthrown : (constructing destructionMocks relocationMocks m o base (k :: ks) s).exit =
      .error (.thrown exc)) :
    ((runWatcher destructionMocks relocationMocks m k s).exit = .error (.thrown exc) ∧
      constructing destructionMocks relocationMocks m o base (k :: ks) s =
        runWatcher destructionMocks relocationMocks m k s) ∨
    ((runWatcher destructionMocks relocationMocks m k s).exit = .ok () ∧
      ∃ q, constructing destructionMocks relocationMocks m o base ks
          (runWatcher destructionMocks relocationMocks m k s).state = q ∧
        q.exit = .error (.thrown exc) ∧
        (runWatcher destructionMocks relocationMocks (.destroy o) k q.state).exit = .ok () ∧
        (constructing destructionMocks relocationMocks m o base (k :: ks) s).log =
          .watcher k :: (q.log ++ [.watcher k]) ∧
        (constructing destructionMocks relocationMocks m o base (k :: ks) s).state =
          (runWatcher destructionMocks relocationMocks (.destroy o) k q.state).state) := by
  simp only [constructing] at hthrown ⊢
  rcases hexit : (runWatcher destructionMocks relocationMocks m k s).exit with exit | ⟨⟩
  · rw [Run.andThen_of_error hexit] at hthrown ⊢
    exact .inl ⟨hexit.symm.trans hthrown, rfl⟩
  · rw [Run.andThen_of_ok hexit] at hthrown ⊢
    simp only at hthrown ⊢
    refine .inr ⟨trivial, _, rfl, ?_⟩
    obtain ⟨q, hq⟩ : ∃ q, constructing destructionMocks relocationMocks m o base ks
      (runWatcher destructionMocks relocationMocks m k s).state = q := ⟨_, rfl⟩
    rw [hq] at hthrown ⊢
    rcases hinner : q.exit with (exc' | _) | ⟨⟩
    · rw [Run.rescue_of_thrown hinner] at hthrown ⊢
      simp only at hthrown ⊢
      obtain ⟨hdestroyed, hrethrown⟩ := unwind_live (by rw [hthrown]; simp)
      rw [hrethrown] at hthrown
      exact ⟨hthrown, hdestroyed, by simp, rfl⟩
    · rw [Run.rescue_of_terminate hinner, hinner] at hthrown
      cases hthrown
    · rw [Run.rescue_of_ok hinner, hinner] at hthrown
      cases hthrown

/-- The history of a move construction that fails. -/
lemma history_of_failed_move (hnd : ks.Nodup)
    (hthrown : (constructing destructionMocks relocationMocks (.moveConstruct o source) o base ks
      s).exit = .error (.thrown exc)) :
    (constructing destructionMocks relocationMocks (.moveConstruct o source) o base ks
        s).state.history =
      if .watcher .lifetime ∈ (constructing destructionMocks relocationMocks
          (.moveConstruct o source) o base ks s).log then (s.history.move o source).finish o
      else s.history := by
  induction ks generalizing s with
  | nil => rfl
  | cons k ks ih =>
    obtain ⟨hk, hnd⟩ := List.nodup_cons.mp hnd
    rcases constructing_thrown hthrown with ⟨hfirst, hall⟩ | ⟨hfirst, q, hq, hinner, hundone,
      hlog, hstate⟩
    · rw [hall]
      cases k with
      | lifetime =>
        rw [(lifetime_moveConstruct (by simp [hfirst])).1] at hfirst
        cases hfirst
      | relocation => simp [relocation_history]
    · have hrest := ih hnd (hq ▸ hinner)
      rw [hq] at hrest
      rw [hlog, hstate]
      cases k with
      | lifetime =>
        -- the other parts leave the identity with the new object, which it ends with
        have hnone : .watcher .lifetime ∉ q.log := fun hmem =>
          hk (mem_constructing_log (hq ▸ hmem))
        rw [lifetime_destroy (by simp [hundone]), hrest, if_neg hnone,
          (lifetime_moveConstruct (by simp [hfirst])).2]
        simp
      | relocation =>
        rw [relocation_history, hrest, relocation_history]
        simp

/-- The lifetime watcher is out of it only if a relocation watcher in front of it fails. -/
lemma lifetime_not_mem_log_iff (hnd : ks.Nodup) (hl : .lifetime ∈ ks)
    (hthrown : (constructing destructionMocks relocationMocks (.moveConstruct o source) o base ks
      s).exit = .error (.thrown exc)) :
    .watcher .lifetime ∉ (constructing destructionMocks relocationMocks
        (.moveConstruct o source) o base ks s).log ↔
      ks = [.relocation, .lifetime] ∧ .base ∉ (constructing destructionMocks relocationMocks
        (.moveConstruct o source) o base ks s).log := by
  rcases ks with _ | ⟨k, ks⟩
  · cases hl
  obtain ⟨hk, hks⟩ := List.nodup_cons.mp hnd
  cases k with
  | lifetime =>
    rcases constructing_thrown hthrown with ⟨-, hall⟩ | ⟨-, q, -, -, -, hlog, -⟩
    · simp [hall]
    · simp [hlog]
  | relocation =>
    have hone : ks = [.lifetime] := by
      have hall : ∀ k ∈ ks, k = .lifetime := fun k hmem => by
        cases k with
        | lifetime => rfl
        | relocation => exact absurd hmem hk
      have hlength := List.eq_replicate_of_mem hall
      have hle : ks.length ≤ 1 := List.nodup_replicate.mp (hlength ▸ hks)
      have hpos : 0 < ks.length := List.length_pos_of_mem (by simpa using hl)
      rw [hlength, Nat.le_antisymm hle hpos]
      rfl
    subst hone
    rcases constructing_thrown hthrown with ⟨-, hall⟩ | ⟨-, q, hq, hinner, -, hlog, -⟩
    · simp [hall]
    · -- the lifetime watcher does not fail, so it is the base that does
      rcases constructing_thrown (hq ▸ hinner) with ⟨hfirst, -⟩ | ⟨-, q', hq', -, -, hlog', -⟩
      · rw [(lifetime_moveConstruct (by simp [hfirst])).1] at hfirst
        cases hfirst
      · have hbase : q'.log = [.base] := hq' ▸ rfl
        rw [hq, hbase] at hlog'
        simp [hlog, hlog']

/-- What is reported of the lives that end, whatever was reported before. -/
def ReportedOn (s : Parts ω) (_ : List Part) (s' : Parts ω) : Prop :=
  Agree s → Agree s' ∧ ∃ ends, s'.history.ended = s.history.ended ++ ends ∧
    s'.code.invoked = s.code.invoked ++ ends

lemma reportedOn_composes :
    Run.Composes (ReportedOn : Parts ω → List Part → Parts ω → Prop) := by
  intro a b c _ _ h h' ha
  obtain ⟨hb, ends, hended, hinvoked⟩ := h ha
  obtain ⟨hc, ends', hended', hinvoked'⟩ := h' hb
  refine ⟨hc, ends ++ ends', ?_, ?_⟩
  · rw [hended', hended, List.append_assoc]
  · rw [hinvoked', hinvoked, List.append_assoc]

lemma reportedOn_setRelocations (r : Relocation.State ω) :
    ReportedOn s [] (s.setRelocations r) :=
  fun hs => ⟨⟨hs.born, hs.held⟩, [], (List.append_nil _).symm, (List.append_nil _).symm⟩

lemma reported_runWatcher (hsafe : ∀ s : Parts ω, Lifetime.SafeMove s m.lifetime) (k : Watcher)
    (s : Parts ω) :
    Run.Keeps ReportedOn s (runWatcher destructionMocks relocationMocks m k s) := by
  intro hlive hs
  cases k with
  | lifetime =>
    obtain ⟨s', hst, hr⟩ := runLifetime_live hlive
    rw [runWatcher, hr]
    obtain ⟨hagree, -, ends, hended, ⟨-, hinvoked⟩ | ⟨hviolates, -⟩⟩ :=
      Lifetime.step_outcome hs hst
    · exact ⟨hagree, ends, hended, hinvoked⟩
    · exact absurd (hsafe s) hviolates
  | relocation =>
    obtain ⟨r, -, -, hr⟩ := runRelocation_live hlive
    rw [runWatcher, hr]
    exact reportedOn_setRelocations r hs

/-- **What a failed move construction costs**: no object comes to be and the source lives on, but
its life is reported as ended there and then, unless it is a relocation watcher in front of the
lifetime watcher that fails. -/
theorem failed_move_construction {r : Run (Parts ω) Part Exc}
    (h : (machine cls destructionMocks relocationMocks).Reachable p)
    (hl : .lifetime ∈ cls.watchers)
    (hst : step cls destructionMocks relocationMocks p
      (.special (.moveConstruct o source) base) = some p')
    (hr : special destructionMocks relocationMocks cls base (.moveConstruct o source) p.parts = r)
    (hthrown : r.exit = .error (.thrown exc)) :
    p'.alive = p.alive ∧ p.alive source = true ∧
    if cls.watchers = [.relocation, .lifetime] ∧ .base ∉ r.log then
      p'.parts.history = p.parts.history ∧ p'.parts.code.invoked = p.parts.code.invoked
    else
      p'.parts.history.held source = none ∧
      p'.parts.history.ended = p.parts.history.ended ++ (p.parts.history.held source).toList ∧
      p'.parts.code.invoked = p.parts.code.invoked ++ (p.parts.history.held source).toList := by
  obtain ⟨hallowed, hlive, rfl⟩ := step_special hst
  simp only [Member.isAllowed, Bool.and_eq_true, Bool.not_eq_true'] at hallowed
  have hsame := bounded_of_live hlive
  rw [hr] at hlive ⊢
  obtain rfl := hsame.symm.trans hr
  refine ⟨?_, hallowed.2, ?_⟩
  · rw [hthrown]
    exact update_eq_of_eq hallowed.1
  have hhistory := history_of_failed_move cls.nodup hthrown
  have hiff := lifetime_not_mem_log_iff cls.nodup hl hthrown
  have hagree := (reachable_agree (reachable_parts h).1).1
  obtain ⟨-, ends, hended, hinvoked⟩ := constructing_keeps (R := ReportedOn) reportedOn_composes
    (fun s _ => reportedOn_setRelocations _)
    (reported_runWatcher (m := .moveConstruct o source) fun _ => trivial)
    (reported_runWatcher (m := .destroy o) fun _ => trivial) cls.watchers p.parts hlive hagree
  split
  · rename_i hspared
    rw [if_neg (hiff.mpr hspared)] at hhistory
    have hnil : ends = [] := by
      rw [hhistory] at hended
      simpa using hended
    exact ⟨hhistory, by rw [hinvoked, hnil, List.append_nil]⟩
  · rename_i hspared
    rw [if_pos (not_not.mp fun hmem => hspared (hiff.mp hmem))] at hhistory
    have hfinished : ((p.parts.history.move o source).finish o).ended =
        p.parts.history.ended ++ (p.parts.history.held source).toList := by
      simp [Ledger.finish, Ledger.move]
    have hends : ends = (p.parts.history.held source).toList := by
      rw [hhistory, hfinished] at hended
      exact (List.append_cancel_left hended).symm
    refine ⟨?_, hhistory ▸ hfinished, by rw [hinvoked, hends]⟩
    have hne : source ≠ o := by
      rintro rfl
      rw [hallowed.1] at hallowed
      exact Bool.false_ne_true hallowed.2
    rw [hhistory]
    simp [Ledger.finish, Ledger.move, hne]

theorem failed_move_construction_copyThenMove :
    ∃ p p' : State (World Unit Unit Unit Unit),
      (machine bothWatchers (mocksOf .lifetime) (mocksOf .relocation)).Reachable p ∧
      step bothWatchers (mocksOf .lifetime) (mocksOf .relocation) p
        (quietly (.moveConstruct 2 0)) = some p' ∧
      p.parts.history.held 0 = some 0 ∧ p'.alive = p.alive ∧ p.alive 0 = true ∧
      p'.parts.history.held 0 = none ∧ p'.parts.history.ended = [0] ∧
      p'.parts.code.invoked = [0] := by
  let M := machine bothWatchers (mocksOf .lifetime) (mocksOf .relocation)
  have h : (M.replay expectingEnd (copyThenMove.take 2)).isSome = true := by decide +kernel
  obtain ⟨p, hrun, hreach⟩ := Machine.exists_reachable_of_replay fresh_expectingEnd h
  have hstep : (M.step p (quietly (.moveConstruct 2 0))).isSome = true := by
    cases hrun
    decide +kernel
  obtain ⟨p', hst⟩ := Option.isSome_iff_exists.mp hstep
  have hthrown : (special (mocksOf .lifetime) (mocksOf .relocation) bothWatchers
      (fun w => (w, .ok ())) (.moveConstruct 2 0) p.parts).exit = .error (.thrown ()) := by
    cases hrun
    decide +kernel
  have hbefore : p.parts.history.held 0 = some 0 ∧ p.parts.history.ended = [] ∧
      p.parts.code.invoked = [] := by
    cases hrun
    decide +kernel
  obtain ⟨halive, hsource, hcost⟩ :=
    failed_move_construction hreach (by decide) hst rfl hthrown
  rw [if_neg fun hspared => absurd hspared.1 (by decide)] at hcost
  obtain ⟨hheld, hended, hinvoked⟩ := hcost
  rw [hbefore.1] at hended hinvoked
  rw [hbefore.2.1] at hended
  rw [hbefore.2.2] at hinvoked
  exact ⟨p, p', hreach, hst, hbefore.1, halive, hsource, hheld, hended, hinvoked⟩

end MimicPP.Watched

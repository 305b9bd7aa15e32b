import MimicPP.Custody
import MimicPP.Order

/-!
Scoped expectations: the objects that own the expectations a collection stores, and what is
destroyed with them.

An expectation dies with the `Model` that owns it. That removes it from its collection, which
may report it, and then lets go of its sequences, the last owner of which destroys them. A
violation may so be signalled from inside a destructor, and has to get past the `noexcept`
members of the smart pointers in between.
-/

namespace MimicPP.Ownership

open MimicPP.Noexcept MimicPP.Sequence MimicPP.Reports MimicPP.Control MimicPP.Expectation
open MimicPP.Matching MimicPP.Transition MimicPP.Runs MimicPP.Invariant MimicPP.Custody

/-- The address of a `ScopedExpectation`. -/
abbrev ObjId := ℕ

/-- What a `Model` refers to: its storage and its expectation. -/
abbrev Model := CollId × ExpId

/-- What `remove` has found out about an expectation: whether it was satisfied, and what was
reported then. -/
structure Check (Call Exc : Type) where
  expectation : ExpId
  satisfied : Bool
  events : List (Event Call Exc)

/-- A test with its scoped expectations. `unwinding` is what the installed reporter does while
another exception is on its way. A sequence is shared by its interface and builders, which
`holders` counts, and by control policies; `useCount` counts them all. The last two take down
the checks that `remove` has made, and where `push` or `remove` missed what they are meant to
find. -/
structure Owners (σ Call Ret Exc : Type) where
  world : World σ Call Ret Exc
  unwinding : Reporter Call Exc
  objects : ObjId → Option (Option Model)
  holders : Tag → ℕ
  useCount : Tag → ℕ
  terminated : Bool
  checked : List (Check Call Exc)
  misses : List Model

variable {σ Call Ret Exc : Type}

/-- The sequences an expectation is attached to. -/
def tagsOf (w : World σ Call Ret Exc) (e : ExpId) : List Tag :=
  ((policyOf w e).map fun p => p.sequences.map Prod.fst).getD []

/-- The check a removal makes. -/
def checkOf (w : World σ Call Ret Exc) (m : Model) : Check Call Exc where
  expectation := m.2
  satisfied := w.exps[m.2]?.all fun x => x.isSatisfied w.env
  events := (w.remove m.1 m.2).2.1

namespace Owners

def set (s : Owners σ Call Ret Exc) (o : ObjId) (x : Option (Option Model)) :
    Owners σ Call Ret Exc :=
  { s with objects := Function.update s.objects o x }

/-- A `shared_ptr` lets go of a sequence, which the last one destroys; its destructor is
`noexcept`. -/
def releaseSequence (reporter : Reporter Call Exc) (s : Owners σ Call Ret Exc) (tag : Tag) :
    Owners σ Call Ret Exc × Except (Exit Exc) Unit :=
  ({ s with useCount := Function.update s.useCount tag (s.useCount tag - 1) },
    if s.useCount tag = 1 then
      match (s.world.seqs tag).destroy with
      | none => .ok ()
      | some message => noexcept (reporter.reportError message)
    else .ok ())

/-- A control policy lets go of its sequences. -/
def releaseEach (reporter : Reporter Call Exc) :
    Owners σ Call Ret Exc → List Tag → Owners σ Call Ret Exc × Except (Exit Exc) Unit
  | s, [] => (s, .ok ())
  | s, tag :: tags =>
    match s.releaseSequence reporter tag with
    | (s', .error exit) => (s', .error exit)
    | (s', .ok ()) => releaseEach reporter s' tags

/-- `~Model`. Its members die after the body, also when the body leaves by an exception;
another exception then terminates. -/
def deleteModel (s : Owners σ Call Ret Exc) (m : Model) :
    Owners σ Call Ret Exc × Except (Exit Exc) Unit :=
  let s' := { s with
    world := (s.world.remove m.1 m.2).1
    checked := s.checked ++ [checkOf s.world m]
    misses := if m.2 ∈ s.world.colls m.1 then s.misses else s.misses ++ [m] }
  match (s.world.remove m.1 m.2).2.2 with
  | .ok () => s'.releaseEach s.world.reporter (tagsOf s.world m.2)
  | .error (.thrown exc) =>
    match s'.releaseEach s.unwinding (tagsOf s.world m.2) with
    | (s'', .ok ()) => (s'', .error (.thrown exc))
    | (s'', .error _) => (s'', .error .terminate)
  | .error .terminate => (s', .error .terminate)

/-- `unique_ptr::reset` and the `delete` by hand: a null pointer is left alone. -/
def deleteInner (s : Owners σ Call Ret Exc) :
    Option Model → Owners σ Call Ret Exc × Except (Exit Exc) Unit
  | none => (s, .ok ())
  | some m => s.deleteModel m

/-- `~ScopedExpectation`. The inner object is deleted by hand, so that its exception may
leave. -/
def destroy (s : Owners σ Call Ret Exc) (o : ObjId) (inner : Option Model) :
    Owners σ Call Ret Exc × Except (Exit Exc) Unit :=
  (s.set o none).deleteInner inner

/-- The defaulted move assignment, which is that of `unique_ptr`: the source is released, the
target takes its pointer over, and what the target still holds is deleted. All of this is
`noexcept`. -/
def moveAssign (s : Owners σ Call Ret Exc) (target source : ObjId) (inner : Option Model) :
    Owners σ Call Ret Exc × Except (Exit Exc) Unit :=
  let s' := s.set source (some none)
  let r := (s'.set target (some inner)).deleteInner (s'.objects target).join
  (r.1, noexcept r.2)

/-- A builder or an interface lets go of a sequence. -/
def release (s : Owners σ Call Ret Exc) (tag : Tag) :
    Owners σ Call Ret Exc × Except (Exit Exc) Unit :=
  { s with holders := Function.update s.holders tag (s.holders tag - 1) }.releaseSequence
    s.world.reporter tag

end Owners

/-- An operation that ends an ownership. -/
inductive Op
  | destroy (o : ObjId)
  | moveAssign (target source : ObjId)
  | release (tag : Tag)

/-- The state it leaves and the way it ends, if it is allowed. -/
def perform (s : Owners σ Call Ret Exc) :
    Op → Option (Owners σ Call Ret Exc × Except (Exit Exc) Unit)
  | .destroy o => (s.objects o).map fun inner => s.destroy o inner
  | .moveAssign target source =>
    if s.objects target = none then none
    else (s.objects source).map fun inner => s.moveAssign target source inner
  | .release tag => if s.holders tag = 0 then none else some (s.release tag)

inductive Action (σ Call Ret Exc : Type)
  | create (o : ObjId) (b : Builder σ Call Ret Exc) (loc : SourceLocation)
  | moveConstruct (o source : ObjId)
  | op (op : Op)
  | hold (tag : Tag)
  | commit (c : CollId) (call : Call)
  | user (env : σ)

/-- What has terminated stays so. -/
def settle : Owners σ Call Ret Exc × Except (Exit Exc) Unit → Owners σ Call Ret Exc
  | (s, .error .terminate) => { s with terminated := true }
  | (s, _) => s

/-- One action. A builder holds the sequences it lists while it is finalized, and its control
policy shares them from then on. -/
def step (s : Owners σ Call Ret Exc) (a : Action σ Call Ret Exc) :
    Option (Owners σ Call Ret Exc) :=
  if s.terminated = true then none
  else
    match a with
    | .create o b loc =>
      if s.objects o = none ∧ ∀ tag ∈ b.sequenceConfig.sequences, s.holders tag ≠ 0 then
        match b.finalize loc s.world with
        | (w, .error _) => some { s with world := w, terminated := true }
        | (w, .ok e) =>
          some { s.set o (some (some (b.storage, e))) with
            world := w
            useCount := fun tag =>
              s.useCount tag + if tag ∈ b.sequenceConfig.sequences then 1 else 0
            misses :=
              if e ∈ s.world.colls b.storage then s.misses ++ [(b.storage, e)] else s.misses }
      else none
    | .moveConstruct o source =>
      if s.objects o = none then
        (s.objects source).map fun inner => (s.set source (some none)).set o (some inner)
      else none
    | .op op => (perform s op).map settle
    | .hold tag =>
      if s.holders tag = 0 then none
      else some { s with
        holders := Function.update s.holders tag (s.holders tag + 1)
        useCount := Function.update s.useCount tag (s.useCount tag + 1) }
    | .commit c call =>
      (Runs.step s.world (.commit c call)).map fun w => { s with world := w }
    | .user env => some { s with world := { s.world with env := env } }

/-- Every sequence is held by its interface, and nothing has been created. -/
structure Fresh (s : Owners σ Call Ret Exc) : Prop where
  world : Runs.Fresh s.world
  objects : ∀ o, s.objects o = none
  holders : ∀ tag, s.holders tag = 1
  useCount : ∀ tag, s.useCount tag = 1
  terminated : s.terminated = false
  checked : s.checked = []
  misses : s.misses = []

def machine (σ Call Ret Exc : Type) :
    Machine (Owners σ Call Ret Exc) (Action σ Call Ret Exc) where
  init := Fresh
  step := step

/-- The states a run can reach. -/
abbrev Reachable (s : Owners σ Call Ret Exc) : Prop := (machine σ Call Ret Exc).Reachable s

variable {s s' : Owners σ Call Ret Exc} {o : ObjId} {m : Model} {tag : Tag}

/-! ### The ways a step can go -/

lemma perform_cases {op : Op} {r : Except (Exit Exc) Unit} (h : perform s op = some (s', r)) :
    (∃ o inner, op = .destroy o ∧ s.objects o = some inner ∧ s.destroy o inner = (s', r)) ∨
    (∃ target source old inner, op = .moveAssign target source ∧
      s.objects target = some old ∧ s.objects source = some inner ∧
      s.moveAssign target source inner = (s', r)) ∨
    (∃ tag, op = .release tag ∧ s.holders tag ≠ 0 ∧ s.release tag = (s', r)) := by
  cases op with
  | destroy o =>
    obtain ⟨inner, ho, heq⟩ := Option.map_eq_some_iff.mp h
    exact .inl ⟨o, inner, rfl, ho, heq⟩
  | moveAssign target source =>
    rw [perform] at h
    split at h
    · cases h
    · obtain ⟨old, htarget⟩ := Option.ne_none_iff_exists'.mp ‹_›
      obtain ⟨inner, hsource, heq⟩ := Option.map_eq_some_iff.mp h
      exact .inr (.inl ⟨target, source, old, inner, rfl, htarget, hsource, heq⟩)
  | release tag =>
    rw [perform] at h
    split at h
    · cases h
    · exact .inr (.inr ⟨tag, rfl, ‹_›, Option.some.inj h⟩)

/-- **What an action can do.** A creation that fails terminates. -/
theorem step_cases {a : Action σ Call Ret Exc} (h : step s a = some s') :
    s.terminated = false ∧
    ((∃ o b loc w exit, a = .create o b loc ∧ b.finalize loc s.world = (w, .error exit) ∧
      s' = { s with world := w, terminated := true }) ∨
    (∃ o b loc w e, a = .create o b loc ∧ s.objects o = none ∧
      b.finalize loc s.world = (w, .ok e) ∧
      s' = { s.set o (some (some (b.storage, e))) with
        world := w
        useCount := fun tag =>
          s.useCount tag + if tag ∈ b.sequenceConfig.sequences then 1 else 0
        misses := if e ∈ s.world.colls b.storage then s.misses ++ [(b.storage, e)]
          else s.misses }) ∨
    (∃ o source inner, a = .moveConstruct o source ∧ s.objects o = none ∧
      s.objects source = some inner ∧ s' = (s.set source (some none)).set o (some inner)) ∨
    (∃ op s₁ r, a = .op op ∧ perform s op = some (s₁, r) ∧ s' = settle (s₁, r)) ∨
    (∃ tag, a = .hold tag ∧ s.holders tag ≠ 0 ∧ s' = { s with
      holders := Function.update s.holders tag (s.holders tag + 1)
      useCount := Function.update s.useCount tag (s.useCount tag + 1) }) ∨
    (∃ c call w, a = .commit c call ∧ Runs.step s.world (.commit c call) = some w ∧
      s' = { s with world := w }) ∨
    (∃ env, a = .user env ∧ s' = { s with world := { s.world with env := env } })) := by
  unfold step at h
  split at h
  · cases h
  rename_i hlive
  refine ⟨Bool.not_eq_true _ ▸ hlive, ?_⟩
  cases a with
  | create o b loc =>
    simp only at h
    split at h
    · rename_i hcond
      split at h
      · rename_i w exit hfin
        exact .inl ⟨o, b, loc, w, exit, rfl, hfin, (Option.some.inj h).symm⟩
      · rename_i w e hfin
        exact .inr (.inl ⟨o, b, loc, w, e, rfl, hcond.1, hfin, (Option.some.inj h).symm⟩)
    · cases h
  | moveConstruct o source =>
    simp only at h
    split at h
    · obtain ⟨inner, hsource, rfl⟩ := Option.map_eq_some_iff.mp h
      exact .inr (.inr (.inl ⟨o, source, inner, rfl, ‹_›, hsource, rfl⟩))
    · cases h
  | op op =>
    obtain ⟨⟨s₁, r⟩, hperform, rfl⟩ := Option.map_eq_some_iff.mp h
    exact .inr (.inr (.inr (.inl ⟨op, s₁, r, rfl, hperform, rfl⟩)))
  | hold tag =>
    simp only at h
    split at h
    · cases h
    · exact .inr (.inr (.inr (.inr (.inl ⟨tag, rfl, ‹_›, (Option.some.inj h).symm⟩))))
  | commit c call =>
    obtain ⟨w, hcommit, rfl⟩ := Option.map_eq_some_iff.mp h
    exact .inr (.inr (.inr (.inr (.inr (.inl ⟨c, call, w, rfl, hcommit, rfl⟩)))))
  | user env =>
    exact .inr (.inr (.inr (.inr (.inr (.inr ⟨env, rfl, (Option.some.inj h).symm⟩)))))

/-! ### What is destroyed, and what is not touched by it -/

/-- Letting go of sequences only changes their use counts. -/
lemma releaseEach_fst (reporter : Reporter Call Exc) (s : Owners σ Call Ret Exc)
    (tags : List Tag) :
    ∃ useCount, (s.releaseEach reporter tags).1 = { s with useCount := useCount } := by
  induction tags generalizing s with
  | nil => exact ⟨s.useCount, rfl⟩
  | cons tag tags ih =>
    rcases hrel : s.releaseSequence reporter tag with ⟨s', exit | u⟩
    · simp only [Owners.releaseEach, hrel]
      obtain ⟨rfl, -⟩ := Prod.mk.inj hrel
      exact ⟨_, rfl⟩
    · simp only [Owners.releaseEach, hrel]
      obtain ⟨rfl, -⟩ := Prod.mk.inj hrel
      exact ih _

/-- What a move assignment finds in its target once the source is released. -/
lemma objects_of_overwritten {target source : ObjId}
    (h : ((s.set source (some none)).objects target).join = some m) :
    s.objects target = some (some m) := by
  have hset := Option.join_eq_some_iff.mp h
  simp only [Owners.set, Function.update_apply] at hset
  split at hset
  · cases hset
  · exact hset

/-- The state in which the members of a `Model` die. -/
lemma deleteModel_fst (s : Owners σ Call Ret Exc) (m : Model) :
    ∃ useCount, (s.deleteModel m).1 = { s with
      world := (s.world.remove m.1 m.2).1
      checked := s.checked ++ [checkOf s.world m]
      misses := if m.2 ∈ s.world.colls m.1 then s.misses else s.misses ++ [m]
      useCount := useCount } := by
  rcases hrem : (s.world.remove m.1 m.2).2.2 with (exc | _) | u
  · simp only [Owners.deleteModel, hrem]
    split
    · rename_i s'' hrel
      obtain ⟨useCount, hfst⟩ := releaseEach_fst s.unwinding _ (tagsOf s.world m.2)
      rw [hrel] at hfst
      exact ⟨useCount, hfst⟩
    · rename_i s'' exit hrel
      obtain ⟨useCount, hfst⟩ := releaseEach_fst s.unwinding _ (tagsOf s.world m.2)
      rw [hrel] at hfst
      exact ⟨useCount, hfst⟩
  · simp only [Owners.deleteModel, hrem]
    exact ⟨s.useCount, rfl⟩
  · simp only [Owners.deleteModel, hrem]
    exact releaseEach_fst _ _ _

/-! ### The collections mirror the owners -/

/-- Who owns which expectation; the checked ones are those whose owner has died. -/
def custody (s : Owners σ Call Ret Exc) : Ledger ObjId :=
  ⟨s.world.exps.length, fun o => ((s.objects o).join).map Prod.snd,
    s.checked.map Check.expectation⟩

/-- What was reported is the expectation, if it was found unsatisfied, and nothing otherwise. -/
def Check.Exact (check : Check Call Exc) : Prop :=
  (check.satisfied = true ∧ check.events = []) ∨
    (check.satisfied = false ∧ ∃ report, check.events = [.unfulfilledExpectation report])

lemma checkOf_exact (w : World σ Call Ret Exc) (m : Model) : (checkOf w m).Exact := by
  rcases hx : w.exps[m.2]? with _ | x
  · refine .inl ⟨by simp [checkOf, hx], ?_⟩
    simp [checkOf, World.remove, hx]
  · rcases hsat : x.isSatisfied w.env with _ | _
    · exact .inr ⟨by simp [checkOf, hx, hsat], x.report w.env w.seqs,
        by simp [checkOf, remove_events hx, hsat]⟩
    · exact .inl ⟨by simp [checkOf, hx, hsat], by simp [checkOf, remove_events hx, hsat]⟩

/-- A collection stores what is owned by a living object, in the order of creation. -/
structure Mirror (s : Owners σ Call Ret Exc) : Prop where
  custody : (custody s).Valid
  stored_iff : ∀ c e, e ∈ s.world.colls c ↔ ∃ o, s.objects o = some (some (c, e))
  sorted : ∀ c, (s.world.colls c).Pairwise (· < ·)
  misses : s.misses = []
  exact : ∀ check ∈ s.checked, check.Exact

namespace Mirror

lemma congr (hM : Mirror s) (hlength : s'.world.exps.length = s.world.exps.length)
    (hcolls : s'.world.colls = s.world.colls) (hobjects : s'.objects = s.objects)
    (hchecked : s'.checked = s.checked) (hmisses : s'.misses = s.misses) : Mirror s' where
  custody := by
    have heq : Ownership.custody s' = Ownership.custody s := by
      rw [Ownership.custody, Ownership.custody, hlength, hobjects, hchecked]
    rw [heq]
    exact hM.custody
  stored_iff := by rw [hcolls, hobjects]; exact hM.stored_iff
  sorted := by rw [hcolls]; exact hM.sorted
  misses := hmisses.trans hM.misses
  exact := by rw [hchecked]; exact hM.exact

lemma held (ho : s.objects o = some (some m)) : (Ownership.custody s).held o = some m.2 := by
  simp [Ownership.custody, ho]

/-- What an object owns is what was written to it last. -/
lemma held_set {x : Option (Option Model)} : (Ownership.custody (s.set o x)).held =
    Function.update (Ownership.custody s).held o (x.join.map Prod.snd) := by
  funext o'
  simp only [Ownership.custody, Owners.set, Function.update_apply]
  split <;> rfl

/-- An expectation is owned by the object written to, or by another one as before. -/
lemma owner_set {x : Option (Option Model)} {n : Model} :
    (∃ o', (s.set o x).objects o' = some (some n)) ↔
      x = some (some n) ∨ ∃ o', o' ≠ o ∧ s.objects o' = some (some n) := by
  simp only [Owners.set, Function.update_apply]
  constructor
  · rintro ⟨o', ho'⟩
    split at ho'
    · exact .inl ho'
    · exact .inr ⟨o', ‹_›, ho'⟩
  · rintro (rfl | ⟨o', hne, ho'⟩)
    · exact ⟨o, if_pos rfl⟩
    · exact ⟨o', by rw [if_neg hne, ho']⟩

/-- Nothing is lost when the object written to owned nothing. -/
lemma owner_set_of_none {x : Option (Option Model)} {n : Model}
    (ho : (s.objects o).join = none) :
    (∃ o', (s.set o x).objects o' = some (some n)) ↔
      x = some (some n) ∨ ∃ o', s.objects o' = some (some n) := by
  refine owner_set.trans (or_congr_right (exists_congr fun o' => and_iff_right_of_imp fun h => ?_))
  rintro rfl
  rw [h] at ho
  cases ho

lemma lt_length (hM : Mirror s) {c : CollId} {e : ℕ} (he : e ∈ s.world.colls c) :
    e < s.world.exps.length := by
  obtain ⟨o, ho⟩ := (hM.stored_iff c e).mp he
  exact hM.custody.held_lt (held ho)

/-- An object takes over what another one owns. -/
lemma move {target source : ObjId} {inner : Option Model} (hM : Mirror s)
    (hsource : s.objects source = some inner)
    (ht : target = source ∨ (s.objects target).join = none) :
    Mirror ((s.set source (some none)).set target (some inner)) where
  custody := by
    have heq : Ownership.custody ((s.set source (some none)).set target (some inner)) =
        (Ownership.custody s).move target source := by
      have hheld : (Ownership.custody s).held source = inner.map Prod.snd := by
        simp [Ownership.custody, hsource]
      have htaken : (Ownership.custody ((s.set source (some none)).set target (some inner))).held =
          Function.update (Function.update (Ownership.custody s).held source none) target
            (inner.map Prod.snd) := by
        rw [held_set, held_set]
        rfl
      rw [Ledger.move, hheld, ← htaken]
      rfl
    rw [heq]
    refine hM.custody.move (ht.imp_right fun hnone => ?_)
    simp [Ownership.custody, hnone]
  stored_iff := by
    intro c e
    have htarget : ((s.set source (some none)).objects target).join = none := by
      simp only [Owners.set, Function.update_apply]
      split
      · rfl
      · exact ht.resolve_left ‹_›
    refine (hM.stored_iff c e).trans (Iff.trans ?_
      ((owner_set_of_none htarget).trans (or_congr_right owner_set)).symm)
    rw [← hsource]
    constructor
    · rintro ⟨o, ho⟩
      by_cases hos : o = source
      · subst hos
        exact .inl ho
      · exact .inr (.inr ⟨o, hos, ho⟩)
    · rintro (ho | ho | ⟨o, -, ho⟩)
      · exact ⟨source, ho⟩
      · cases ho
      · exact ⟨o, ho⟩
  sorted := hM.sorted
  misses := hM.misses
  exact := hM.exact

/-- An object gives up what it owns: the expectation is found, erased and checked. -/
lemma finish {x : Option (Option Model)} (hM : Mirror s) (ho : s.objects o = some (some m))
    (hx : x.join = none) :
    Mirror { s.set o x with
      world := (s.world.remove m.1 m.2).1
      checked := s.checked ++ [checkOf s.world m]
      misses := if m.2 ∈ s.world.colls m.1 then s.misses else s.misses ++ [m] } where
  custody := by
    have heq : Ownership.custody { s.set o x with
        world := (s.world.remove m.1 m.2).1
        checked := s.checked ++ [checkOf s.world m]
        misses := if m.2 ∈ s.world.colls m.1 then s.misses else s.misses ++ [m] } =
        (Ownership.custody s).finish o := by
      have hheld : (Ownership.custody (s.set o x)).held =
          Function.update (Ownership.custody s).held o none := by rw [held_set, hx, Option.map_none]
      have hchecked : (s.checked ++ [checkOf s.world m]).map Check.expectation =
          s.checked.map Check.expectation ++ [m.2] := List.map_append
      rw [Ledger.finish, held ho, Option.toList_some, ← hheld, Ownership.custody, remove_exps,
        hchecked]
      rfl
    rw [heq]
    exact hM.custody.finish o
  stored_iff := by
    intro c e
    have hnd : (s.world.colls m.1).Nodup := (hM.sorted m.1).imp Nat.ne_of_lt
    have hheld := held ho
    have hstored : e ∈ (s.world.remove m.1 m.2).1.colls c ↔ e ∈ s.world.colls c ∧ e ≠ m.2 := by
      rw [remove_colls]
      by_cases hc : c = m.1
      · rw [hc, Function.update_self, hnd.mem_erase_iff, and_comm]
      · rw [Function.update_of_ne hc, iff_self_and]
        rintro hmem rfl
        obtain ⟨o', ho'⟩ := (hM.stored_iff c m.2).mp hmem
        obtain rfl : o' = o := hM.custody.holder_unique (held ho') hheld
        rw [ho, Option.some.injEq, Option.some.injEq] at ho'
        exact hc (congrArg Prod.fst ho').symm
    have hnot : x ≠ some (some (c, e)) := by
      rintro rfl
      cases hx
    rw [hstored, hM.stored_iff]
    refine Iff.trans ?_ (owner_set.trans (or_iff_right hnot)).symm
    constructor
    · rintro ⟨⟨o', ho'⟩, hne⟩
      refine ⟨o', ?_, ho'⟩
      rintro rfl
      rw [ho, Option.some.injEq, Option.some.injEq] at ho'
      exact hne (congrArg Prod.snd ho').symm
    · rintro ⟨o', hoo, ho'⟩
      refine ⟨⟨o', ho'⟩, fun heq => hoo ?_⟩
      subst heq
      exact hM.custody.holder_unique (held ho') hheld
  sorted := by
    intro c
    simp only [remove_colls]
    by_cases hc : c = m.1
    · rw [hc, Function.update_self]
      exact (hM.sorted m.1).sublist List.erase_sublist
    · rw [Function.update_of_ne hc]
      exact hM.sorted c
  misses := by
    have hmem : m.2 ∈ s.world.colls m.1 := (hM.stored_iff m.1 m.2).mpr ⟨o, ho⟩
    simp only [if_pos hmem]
    exact hM.misses
  exact check hcheck := by
    rcases List.mem_append.mp hcheck with hold | hnew
    · exact hM.exact check hold
    · obtain rfl := List.mem_singleton.mp hnew
      exact checkOf_exact s.world m

/-- An object that owns nothing comes or goes. -/
lemma empty {x : Option (Option Model)} (hM : Mirror s) (ho : (s.objects o).join = none)
    (hx : x.join = none) : Mirror (s.set o x) where
  custody := by
    have hnone : (Ownership.custody s).held o = none := by simp [Ownership.custody, ho]
    have hheld : (Ownership.custody (s.set o x)).held = (Ownership.custody s).held := by
      rw [held_set, hx, Option.map_none, ← hnone, Function.update_eq_self]
    have heq : Ownership.custody (s.set o x) = Ownership.custody s :=
      congrArg (Ledger.mk s.world.exps.length · (s.checked.map Check.expectation)) hheld
    rw [heq]
    exact hM.custody
  stored_iff := by
    intro c e
    have hnot : x ≠ some (some (c, e)) := by
      rintro rfl
      cases hx
    exact (hM.stored_iff c e).trans ((owner_set_of_none ho).trans (or_iff_right hnot)).symm
  sorted := hM.sorted
  misses := hM.misses
  exact := hM.exact

lemma destroy {inner : Option Model} (hM : Mirror s) (ho : s.objects o = some inner) :
    Mirror (s.destroy o inner).1 := by
  rcases inner with _ | m
  · exact hM.empty (by rw [ho]; rfl) rfl
  · obtain ⟨useCount, hfst⟩ := deleteModel_fst (s.set o none) m
    rw [Owners.destroy, Owners.deleteInner, hfst]
    exact (hM.finish ho rfl).congr rfl rfl rfl rfl rfl

lemma moveAssign {target source : ObjId} {old inner : Option Model} (hM : Mirror s)
    (htarget : s.objects target = some old) (hsource : s.objects source = some inner) :
    Mirror (s.moveAssign target source inner).1 := by
  by_cases heq : target = source
  · have hnull : ((s.set source (some none)).objects target).join = none := by
      simp [Owners.set, heq]
    rw [Owners.moveAssign]
    simp only [hnull]
    exact hM.move hsource (.inl heq)
  · have hold : ((s.set source (some none)).objects target).join = old := by
      simp [Owners.set, Function.update_of_ne heq, htarget]
    rw [Owners.moveAssign]
    simp only [hold]
    rcases old with _ | m
    · exact hM.move hsource (.inr (by rw [htarget]; rfl))
    · -- the old expectation goes first, which leaves the same objects behind
      have hfinish := hM.finish (x := some none) htarget rfl
      have hsource' : (s.set target (some none)).objects source = some inner := by
        simp [Owners.set, Function.update_of_ne (Ne.symm heq), hsource]
      have hnull : ((s.set target (some none)).objects target).join = none := by
        simp [Owners.set]
      have hmove := hfinish.move hsource' (.inr hnull)
      obtain ⟨useCount, hfst⟩ :=
        deleteModel_fst ((s.set source (some none)).set target (some inner)) m
      rw [Owners.deleteInner, hfst]
      refine hmove.congr rfl rfl ?_ rfl rfl
      simp only [Owners.set]
      funext o
      simp only [Function.update_apply]
      split
      · rfl
      · split
        · rfl
        · simp [*]

lemma perform {op : Op} {r : Except (Exit Exc) Unit} (hM : Mirror s)
    (h : perform s op = some (s', r)) : Mirror s' := by
  rcases perform_cases h with ⟨o, inner, rfl, ho, heq⟩ |
    ⟨target, source, old, inner, rfl, htarget, hsource, heq⟩ | ⟨tag, rfl, -, heq⟩
  · obtain ⟨rfl, -⟩ := Prod.mk.inj heq.symm
    exact hM.destroy ho
  · obtain ⟨rfl, -⟩ := Prod.mk.inj heq.symm
    exact hM.moveAssign htarget hsource
  · obtain ⟨rfl, -⟩ := Prod.mk.inj heq.symm
    exact hM.congr rfl rfl rfl rfl rfl

lemma settle (hM : Mirror s) (r : Except (Exit Exc) Unit) : Mirror (settle (s, r)) := by
  rcases r with (exc | _) | u <;> exact hM.congr rfl rfl rfl rfl rfl

/-- The new expectation is the youngest, and nobody owned it before. -/
lemma create {b : Builder σ Call Ret Exc} {loc : SourceLocation} {w : World σ Call Ret Exc}
    {e : ExpId} {useCount : Tag → ℕ} (hM : Mirror s) (ho : s.objects o = none)
    (h : b.finalize loc s.world = (w, .ok e)) :
    Mirror { s.set o (some (some (b.storage, e))) with
      world := w
      useCount := useCount
      misses := if e ∈ s.world.colls b.storage then s.misses ++ [(b.storage, e)]
        else s.misses } := by
  obtain ⟨p, seqs, -, rfl, rfl⟩ := finalize_eq_ok h
  have hnew : ∀ c, s.world.exps.length ∉ s.world.colls c := fun c hmem =>
    absurd (hM.lt_length hmem) (Nat.lt_irrefl _)
  have hheld : (Ownership.custody s).held o = none := by simp [Ownership.custody, ho]
  refine ⟨?_, fun c e => ?_, fun c => ?_, ?_, hM.exact⟩
  · have hbirth := hM.custody.birth hheld
    have hgiven :
        (Ownership.custody (s.set o (some (some (b.storage, s.world.exps.length))))).held =
          Function.update (Ownership.custody s).held o (some s.world.exps.length) := held_set
    refine cast (congrArg Ledger.Valid ?_) hbirth
    simp only [Ownership.custody, List.length_append, List.length_singleton]
    exact congrArg
      (Ledger.mk (s.world.exps.length + 1) · (s.checked.map Check.expectation)) hgiven.symm
  · have hstored : e ∈ Function.update s.world.colls b.storage
          (s.world.colls b.storage ++ [s.world.exps.length]) c ↔
        e ∈ s.world.colls c ∨ (c = b.storage ∧ e = s.world.exps.length) := by
      by_cases hc : c = b.storage
      · simp [hc]
      · simp [hc]
    have hnone : (s.objects o).join = none := by rw [ho]; rfl
    rw [hstored, hM.stored_iff, or_comm]
    refine Iff.trans (or_congr_left ?_) (owner_set_of_none hnone).symm
    simp [Prod.ext_iff, eq_comm]
  · by_cases hc : c = b.storage
    · subst hc
      simp only [Function.update_self, List.pairwise_append]
      refine ⟨hM.sorted _, List.pairwise_singleton _ _, fun e he e' he' => ?_⟩
      rw [List.mem_singleton.mp he']
      exact hM.lt_length he
    · simp only [Function.update_of_ne hc]
      exact hM.sorted c
  · simp only [if_neg (hnew b.storage)]
    exact hM.misses

lemma step {a : Action σ Call Ret Exc} (hM : Mirror s) (h : step s a = some s') : Mirror s' := by
  obtain ⟨-, hcases⟩ := step_cases h
  rcases hcases with ⟨o, b, loc, w, exit, -, hfin, rfl⟩ | ⟨o, b, loc, w, e, -, ho, hfin, rfl⟩ |
    ⟨o, source, inner, -, ho, hsource, rfl⟩ | ⟨op, s₁, r, -, hperform, rfl⟩ | ⟨tag, -, -, rfl⟩ |
    ⟨c, call, w, -, hcommit, rfl⟩ | ⟨env, -, rfl⟩
  · -- a builder whose attachments fail does not get to the collection
    rcases hcon : ControlPolicy.construct s.world.seqs b.timesConfig b.sequenceConfig
      with ⟨seqs, exit' | p⟩
    · simp only [Builder.finalize, hcon, Prod.mk.injEq] at hfin
      obtain ⟨rfl, -⟩ := hfin
      exact hM.congr rfl rfl rfl rfl rfl
    · simp [Builder.finalize, hcon] at hfin
  · exact hM.create ho hfin
  · exact hM.move hsource (.inr (by rw [ho]; rfl))
  · exact (hM.perform hperform).settle r
  · exact hM.congr rfl rfl rfl rfl rfl
  · obtain ⟨n, -, rfl⟩ := Option.map_eq_some_iff.mp hcommit
    exact hM.congr consumeControl_length consumeControl_colls rfl rfl rfl
  · exact hM.congr rfl rfl rfl rfl rfl

lemma fresh (h : Fresh s) : Mirror s where
  custody := by
    have heq : Ownership.custody s = .empty := by
      simp [Ownership.custody, Ledger.empty, h.world.exps, h.objects, h.checked]
    rw [heq]
    exact Ledger.valid_empty
  stored_iff := by simp [h.world.colls, h.objects]
  sorted := by simp [h.world.colls]
  misses := h.misses
  exact := by simp [h.checked]

end Mirror

lemma reachable_mirror (h : Reachable s) : Mirror s :=
  h.invariant (fun _ => Mirror.fresh) fun _ _ _ hM => hM.step

/-! ### Every test is a run -/

/-- An operation removes a stored expectation, or does not touch the world. -/
lemma perform_world {op : Op} {r : Except (Exit Exc) Unit} (h : perform s op = some (s', r)) :
    s'.world = s.world ∨
      ∃ o m, s.objects o = some (some m) ∧ s'.world = (s.world.remove m.1 m.2).1 := by
  rcases perform_cases h with ⟨o, inner, rfl, ho, heq⟩ |
    ⟨target, source, old, inner, rfl, htarget, hsource, heq⟩ | ⟨tag, rfl, -, heq⟩
  · have hs' : (s.destroy o inner).1 = s' := congrArg Prod.fst heq
    rw [← hs', Owners.destroy]
    rcases inner with _ | m
    · exact .inl rfl
    · obtain ⟨useCount, hfst⟩ := deleteModel_fst (s.set o none) m
      rw [Owners.deleteInner, hfst]
      exact .inr ⟨o, m, ho, rfl⟩
  · have hs' : (s.moveAssign target source inner).1 = s' := congrArg Prod.fst heq
    rw [← hs', Owners.moveAssign]
    rcases hold : ((s.set source (some none)).objects target).join with _ | m
    · exact .inl rfl
    · obtain ⟨useCount, hfst⟩ :=
        deleteModel_fst ((s.set source (some none)).set target (some inner)) m
      exact .inr ⟨target, m, objects_of_overwritten hold, by rw [Owners.deleteInner, hfst]; rfl⟩
  · have hs' : (s.release tag).1 = s' := congrArg Prod.fst heq
    rw [← hs']
    exact .inl rfl

lemma settle_world (x : Owners σ Call Ret Exc × Except (Exit Exc) Unit) :
    (settle x).world = x.1.world := by
  obtain ⟨s, (exc | _) | u⟩ := x <;> rfl

/-- **Owners only run what collections run**: unless it has terminated, the world a test with
scoped expectations reaches is one that a run reaches. -/
theorem reachable_world (h : Reachable s) (ht : s.terminated = false) :
    Runs.Reachable s.world := by
  have hboth : Mirror s ∧ (s.terminated = false → Runs.Reachable s.world) := by
    refine h.invariant (I := fun s => Mirror s ∧ (s.terminated = false → Runs.Reachable s.world))
      (fun s h₀ => ⟨.fresh h₀, fun _ => .init (Fresh.world h₀)⟩)
      fun s a s' hI hst => ⟨hI.1.step hst, fun ht => ?_⟩
    obtain ⟨hM, hrun⟩ := hI
    obtain ⟨hlive, hcases⟩ := step_cases hst
    have hr := hrun hlive
    rcases hcases with ⟨o, b, loc, w, exit, -, -, rfl⟩ | ⟨o, b, loc, w, e, -, -, hfin, rfl⟩ |
      ⟨o, source, inner, -, -, -, rfl⟩ | ⟨op, s₁, r, -, hperform, rfl⟩ | ⟨tag, -, -, rfl⟩ |
      ⟨c, call, w, -, hcommit, rfl⟩ | ⟨env, -, rfl⟩
    · cases ht
    · exact hr.step (.create b loc) (by simp [Runs.machine, Runs.step, hfin])
    · exact hr
    · rw [settle_world]
      rcases perform_world hperform with heq | ⟨o, m, ho, heq⟩
      · rw [heq]
        exact hr
      · rw [heq]
        have hmem : m.2 ∈ s.world.colls m.1 := (hM.stored_iff m.1 m.2).mpr ⟨o, ho⟩
        exact hr.step (.destroy m.1 m.2) (by simp [Runs.machine, Runs.step, hmem])
    · exact hr
    · exact hr.step (.commit c call) hcommit
    · exact hr.step (.user env) rfl
  exact hboth.2 ht

/-- **The collections mirror the live owners**, also when a report has thrown or terminated: a
collection stores exactly the expectations whose owner is alive, each once, in the order of
creation; whatever was pushed was absent and whatever was removed was present; an expectation
has been checked by `remove` once if its owner is dead, and never before; and a check has
reported the expectation exactly if it found it unsatisfied. -/
theorem collections_mirror_owners (h : Reachable s) :
    (∀ c, (s.world.colls c).Pairwise (· < ·) ∧
      ∀ e, e ∈ s.world.colls c ↔ ∃ o, s.objects o = some (some (c, e))) ∧
    s.misses = [] ∧
    (∀ e < s.world.exps.length,
      ((∃ c o, s.objects o = some (some (c, e))) →
        (s.checked.map Check.expectation).count e = 0) ∧
      ((∀ c o, s.objects o ≠ some (some (c, e))) →
        (s.checked.map Check.expectation).count e = 1)) ∧
    ∀ check ∈ s.checked, (check.satisfied = true ∧ check.events = []) ∨
      (check.satisfied = false ∧ ∃ report, check.events = [.unfulfilledExpectation report]) := by
  have hM := reachable_mirror h
  refine ⟨fun c => ⟨hM.sorted c, hM.stored_iff c⟩, hM.misses, fun e he => ?_, hM.exact⟩
  obtain ⟨hheld, hnone⟩ := hM.custody.count_ended he
  refine ⟨?_, fun hdead => hnone fun o ho => ?_⟩
  · rintro ⟨c, o, ho⟩
    exact hheld ⟨o, Mirror.held ho⟩
  · obtain ⟨m, hm, rfl⟩ := Option.map_eq_some_iff.mp ho
    have hobj : s.objects o = some (some m) := Option.join_eq_some_iff.mp hm
    exact hdead m.1 o hobj

/-- A test whose reporter throws whatever it is told outside of stack unwinding. -/
def throwingTest : Owners Unit Unit Unit Unit where
  world := start
    { quietReporter () with
      reportUnfulfilledExpectation := fun _ => .error (.thrown ())
      reportError := fun _ => .error (.thrown ()) } () fun _ => .lazy
  unwinding := quietReporter ()
  objects _ := none
  holders _ := 1
  useCount _ := 1
  terminated := false
  checked := []
  misses := []

lemma fresh_throwingTest : Fresh throwingTest :=
  ⟨start_fresh _ _ _, fun _ => rfl, fun _ => rfl, fun _ => rfl, rfl, rfl, rfl⟩

/-- An expectation that must be matched once. -/
def requiredCall (tags : List Tag) : Builder Unit Unit Unit Unit := anyCall 0 1 1 tags ()

/-- The first object takes over what the third one owns, and dies, its report throwing. -/
def throwingDestruction : List (Action Unit Unit Unit Unit) :=
  [.create 0 (anyCall 0 0 1 [] ()) ⟨"", 0⟩, .create 1 (requiredCall []) ⟨"", 0⟩,
    .create 2 (requiredCall []) ⟨"", 0⟩, .op (.moveAssign 0 2), .op (.destroy 0)]

theorem collections_mirror_owners_throwing :
    ∃ s : Owners Unit Unit Unit Unit,
      s.world.colls 0 = [1] ∧ s.terminated = false ∧
      s.checked.map (fun check => (check.expectation, check.satisfied)) =
        [(0, true), (2, false)] ∧
      (∀ c, (s.world.colls c).Pairwise (· < ·) ∧
        ∀ e, e ∈ s.world.colls c ↔ ∃ o, s.objects o = some (some (c, e))) ∧
      s.misses = [] ∧
      (∀ e < s.world.exps.length,
        ((∃ c o, s.objects o = some (some (c, e))) →
          (s.checked.map Check.expectation).count e = 0) ∧
        ((∀ c o, s.objects o ≠ some (some (c, e))) →
          (s.checked.map Check.expectation).count e = 1)) ∧
      ∀ check ∈ s.checked, (check.satisfied = true ∧ check.events = []) ∨
        (check.satisfied = false ∧
          ∃ report, check.events = [.unfulfilledExpectation report]) := by
  have h : ((machine Unit Unit Unit Unit).replay throwingTest throwingDestruction).isSome =
      true := by decide +kernel
  obtain ⟨s, hrun, hreach⟩ := Machine.exists_reachable_of_replay fresh_throwingTest h
  have hs : s.world.colls 0 = [1] ∧ s.terminated = false ∧
      s.checked.map (fun check => (check.expectation, check.satisfied)) =
        [(0, true), (2, false)] := by
    cases hrun
    decide +kernel
  exact ⟨s, hs.1, hs.2.1, hs.2.2, collections_mirror_owners hreach⟩

end MimicPP.Ownership

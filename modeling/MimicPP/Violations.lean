import MimicPP.Ownership

/-!
Whether a violation that the reporter signals gets to the caller.

The expectation a `ScopedExpectation` owns is deleted by hand in its destructor, so that the
report of an unfulfilled expectation may throw. Every other way to end an ownership goes
through a `noexcept` member of a smart pointer.
-/

namespace MimicPP.Violations

open MimicPP.Noexcept MimicPP.Sequence MimicPP.Reports MimicPP.Control MimicPP.Expectation
open MimicPP.Transition MimicPP.Runs MimicPP.Invariant MimicPP.Ownership

variable {σ Call Ret Exc : Type}

/-- The expectation is unfulfilled, and its report ends in an exception: the reporter throws when
it is told, or a description while the report is put together. -/
def Signals (s : Owners σ Call Ret Exc) (m : Model) (exc : Exc) : Prop :=
  ∃ x, s.world.exps[m.2]? = some x ∧ x.isSatisfied s.world.env = false ∧
    (throwing (x.report s.world.env s.world.seqs)).bind
      s.world.reporter.reportUnfulfilledExpectation = .error (.thrown exc)

/-- The sequence has one owner left. -/
def LastOwned (s : Owners σ Call Ret Exc) (tag : Tag) : Prop := s.useCount tag = 1

/-- The sequence is unfulfilled, and the reporter throws when it is told. -/
def SequenceSignals (s : Owners σ Call Ret Exc) (tag : Tag) (exc : Exc) : Prop :=
  ∃ message, (s.world.seqs tag).destroy = some message ∧
    s.world.reporter.reportError message = .error (.thrown exc)

/-- What an operation deletes. -/
def deleted (s : Owners σ Call Ret Exc) : Op → Option Model
  | .destroy o => (s.objects o).join
  | .moveAssign target source => if target = source then none else (s.objects target).join
  | .release _ => none

/-- The sequences an operation lets go of. -/
def letGo (s : Owners σ Call Ret Exc) (op : Op) : List Tag :=
  match op with
  | .release tag => [tag]
  | _ => (deleted s op).elim [] fun m => tagsOf s.world m.2

/-- An expectation or a sequence that the operation ends is unfulfilled, and the reporter throws
when it is told. -/
def Signalled (s : Owners σ Call Ret Exc) (op : Op) (exc : Exc) : Prop :=
  (∃ m, deleted s op = some m ∧ Signals s m exc) ∨
    ∃ tag ∈ letGo s op, LastOwned s tag ∧ SequenceSignals s tag exc

/-- What is signalled reaches the caller. -/
def Reaches (s : Owners σ Call Ret Exc) (op : Op) (r : Except (Exit Exc) Unit) : Prop :=
  (∃ exc, Signalled s op exc) → ∃ exc, Signalled s op exc ∧ r = .error (.thrown exc)

/-- The reporter returns from every report about a listed sequence that has one owner left. -/
def Quiet (reporter : Reporter Call Exc) (s : Owners σ Call Ret Exc) (tags : List Tag) : Prop :=
  ∀ tag ∈ tags, LastOwned s tag → ∀ message, (s.world.seqs tag).destroy = some message →
    reporter.reportError message = .ok ()

/-- The operation is the destruction of an object whose own expectation is signalled, and its
sequences do not get in the way. -/
def Escapes (s : Owners σ Call Ret Exc) : Op → Prop
  | .destroy o => ∃ m exc, s.objects o = some (some m) ∧ Signals s m exc ∧
      Quiet s.unwinding s (tagsOf s.world m.2)
  | _ => False

variable {s s' : Owners σ Call Ret Exc} {o : ObjId} {m : Model} {tag : Tag} {op : Op}
variable {r : Except (Exit Exc) Unit} {exc : Exc}

/-! ### Letting go of sequences -/

lemma quiet_singleton {reporter : Reporter Call Exc} : Quiet reporter s [tag] ↔
    (LastOwned s tag → ∀ message, (s.world.seqs tag).destroy = some message →
      reporter.reportError message = .ok ()) := by
  simp [Quiet]

lemma quiet_cons {reporter : Reporter Call Exc} {tags : List Tag} :
    Quiet reporter s (tag :: tags) ↔ Quiet reporter s [tag] ∧ Quiet reporter s tags := by
  simp [Quiet]

/-- Only a sequence with one owner is destroyed, and only its report can fail. -/
lemma releaseSequence_snd (reporter : Reporter Call Exc) (s : Owners σ Call Ret Exc) (tag : Tag) :
    (Quiet reporter s [tag] ∧ (s.releaseSequence reporter tag).2 = .ok ()) ∨
      (¬ Quiet reporter s [tag] ∧ (s.releaseSequence reporter tag).2 = .error .terminate) := by
  rw [quiet_singleton]
  simp only [Owners.releaseSequence, LastOwned]
  split
  · rcases hdestroy : (s.world.seqs tag).destroy with _ | message
    · simp
    · rcases hreport : reporter.reportError message with exit | u
      · simp [*]
      · simp [*]
  · simp [*]

/-- Sequences are let go of until a report fails, and that terminates. -/
lemma releaseEach_snd (reporter : Reporter Call Exc) (s : Owners σ Call Ret Exc)
    {tags : List Tag} (hnd : tags.Nodup) :
    (Quiet reporter s tags ∧ (s.releaseEach reporter tags).2 = .ok ()) ∨
      (¬ Quiet reporter s tags ∧ (s.releaseEach reporter tags).2 = .error .terminate) := by
  induction tags generalizing s with
  | nil => exact .inl ⟨by simp [Quiet], rfl⟩
  | cons tag tags ih =>
    obtain ⟨hnot, hnd⟩ := List.nodup_cons.mp hnd
    rw [quiet_cons]
    rcases hrel : s.releaseSequence reporter tag with ⟨s', r⟩
    have hhead := releaseSequence_snd reporter s tag
    rw [hrel] at hhead
    simp only [Owners.releaseEach, hrel]
    rcases hhead with ⟨hquiet, rfl⟩ | ⟨hloud, rfl⟩
    · -- the owners of the other sequences have not changed
      have hrest : Quiet reporter s' tags ↔ Quiet reporter s tags := by
        obtain ⟨rfl, -⟩ := Prod.mk.inj hrel
        refine forall₂_congr fun t ht => ?_
        have hne : t ≠ tag := by rintro rfl; exact hnot ht
        simp [LastOwned, Function.update_of_ne hne]
      rw [← hrest]
      simpa [hquiet] using ih s' hnd
    · exact .inr ⟨fun h => hloud h.1, rfl⟩

/-- Where a listed sequence signals, the reporter does not return from every report. -/
lemma not_quiet {tags : List Tag} (htag : tag ∈ tags) (hlast : LastOwned s tag)
    (h : SequenceSignals s tag exc) : ¬ Quiet s.world.reporter s tags := by
  obtain ⟨message, hdestroy, hreport⟩ := h
  intro hquiet
  have hok := hquiet tag htag hlast message hdestroy
  rw [hreport] at hok
  cases hok

/-! ### How an operation ends -/

/-- `remove` throws what the reporter throws, and nothing else. -/
lemma remove_thrown : (s.world.remove m.1 m.2).2.2 = .error (.thrown exc) ↔ Signals s m exc := by
  simp only [World.remove, Signals]
  rcases hx : s.world.exps[m.2]? with _ | x
  · simp
  · rcases hsat : x.isSatisfied s.world.env with _ | _
    · simp [hsat]
    · simp [hsat]

/-- The way a deletion ends: by the removal, and by the sequences that are let go of then. -/
lemma deleteModel_snd (s : Owners σ Call Ret Exc) (m : Model) :
    ∃ s₁ : Owners σ Call Ret Exc, s₁.useCount = s.useCount ∧ s₁.world.seqs = s.world.seqs ∧
      (s.deleteModel m).2 =
        match (s.world.remove m.1 m.2).2.2 with
        | .ok () => (s₁.releaseEach s.world.reporter (tagsOf s.world m.2)).2
        | .error (.thrown exc) =>
          match (s₁.releaseEach s.unwinding (tagsOf s.world m.2)).2 with
          | .ok () => .error (.thrown exc)
          | .error _ => .error .terminate
        | .error .terminate => .error .terminate := by
  refine ⟨{ s with
    world := (s.world.remove m.1 m.2).1
    checked := s.checked ++ [checkOf s.world m]
    misses := if m.2 ∈ s.world.colls m.1 then s.misses else s.misses ++ [m] },
    rfl, remove_seqs _, ?_⟩
  rcases hrem : (s.world.remove m.1 m.2).2.2 with (exc | _) | u
  · simp only [Owners.deleteModel, hrem]
    split
    · rename_i hrel
      rw [hrel]
    · rename_i hrel
      rw [hrel]
  · simp only [Owners.deleteModel, hrem]
  · simp only [Owners.deleteModel, hrem]

/-- **How a deletion ends**: the report of the expectation leaves it unless a sequence gets in
the way, and the report of a sequence never does. -/
theorem deleteModel_thrown (s : Owners σ Call Ret Exc) (exc : Exc)
    (hnd : (tagsOf s.world m.2).Nodup) :
    (s.deleteModel m).2 = .error (.thrown exc) ↔
      Signals s m exc ∧ Quiet s.unwinding s (tagsOf s.world m.2) := by
  obtain ⟨s₁, huse, hseqs, hsnd⟩ := deleteModel_snd s m
  have hquiet : Quiet s.unwinding s₁ (tagsOf s.world m.2) ↔
      Quiet s.unwinding s (tagsOf s.world m.2) := by
    simp only [Quiet, LastOwned, huse, hseqs]
  rw [hsnd, ← remove_thrown, ← hquiet]
  rcases hrem : (s.world.remove m.1 m.2).2.2 with (exc' | _) | u
  · -- the members die while the exception is on its way
    rcases releaseEach_snd s.unwinding s₁ hnd with ⟨hq, hrel⟩ | ⟨hq, hrel⟩
    · simp [hq, hrel]
    · simp [hq, hrel]
  · simp
  · rcases releaseEach_snd s.world.reporter s₁ hnd with ⟨-, hrel⟩ | ⟨-, hrel⟩
    · simp [hrel]
    · simp [hrel]

/-- The sequences of an expectation are different ones. -/
lemma tagsOf_nodup (h : Ownership.Reachable s) (ht : s.terminated = false) (e : ExpId) :
    (tagsOf s.world e).Nodup := by
  rw [tagsOf]
  rcases hp : policyOf s.world e with _ | p
  · simp
  · exact ((reachable_inv (reachable_world h ht)).valid hp).nodup

/-- A move assignment and the release of a sequence never let an exception out. -/
lemma perform_thrown (hnd : ∀ e, (tagsOf s.world e).Nodup) (hp : perform s op = some (s', r)) :
    r = .error (.thrown exc) ↔ ∃ o m, op = .destroy o ∧ s.objects o = some (some m) ∧
      Signals s m exc ∧ Quiet s.unwinding s (tagsOf s.world m.2) := by
  rcases perform_cases hp with ⟨o, inner, rfl, ho, heq⟩ |
    ⟨target, source, old, inner, rfl, -, -, heq⟩ | ⟨tag, rfl, -, heq⟩
  · have hr : (s.destroy o inner).2 = r := congrArg Prod.snd heq
    rw [← hr, Owners.destroy]
    rcases inner with _ | m
    · simp [Owners.deleteInner, ho]
    · rw [Owners.deleteInner, deleteModel_thrown (s.set o none) exc (hnd m.2)]
      constructor
      · rintro ⟨hsignals, hquiet⟩
        exact ⟨o, m, rfl, ho, hsignals, hquiet⟩
      · rintro ⟨o', m', heq', ho', hsignals, hquiet⟩
        obtain rfl := Op.destroy.inj heq'
        obtain rfl : m = m' := Option.some.inj (Option.some.inj (ho.symm.trans ho'))
        exact ⟨hsignals, hquiet⟩
  · have hr : (s.moveAssign target source inner).2 = r := congrArg Prod.snd heq
    rw [← hr, Owners.moveAssign]
    rcases (Owners.deleteInner _ _).2 with exit | u
    · simp
    · simp
  · have hr : (s.release tag).2 = r := congrArg Prod.snd heq
    rw [Owners.release] at hr
    rcases releaseSequence_snd s.world.reporter { s with
      holders := Function.update s.holders tag (s.holders tag - 1) } tag with h | h
    · simp [← hr, h.2]
    · simp [← hr, h.2]

/-- A deletion during which something is signalled does not return. -/
lemma deleteModel_of_signalled (hnd : (tagsOf s.world m.2).Nodup)
    (h : Signals s m exc ∨
      ∃ tag ∈ tagsOf s.world m.2, LastOwned s tag ∧ SequenceSignals s tag exc) :
    ∃ exit, (s.deleteModel m).2 = .error exit := by
  obtain ⟨s₁, huse, hseqs, hsnd⟩ := deleteModel_snd s m
  rw [hsnd]
  rcases hrem : (s.world.remove m.1 m.2).2.2 with (exc' | _) | u
  · rcases releaseEach_snd s.unwinding s₁ hnd with ⟨-, hrel⟩ | ⟨-, hrel⟩
    · simp [hrel]
    · simp [hrel]
  · exact ⟨_, rfl⟩
  · -- the report of the expectation has returned, so a sequence signals
    have hloud : ¬ Quiet s.world.reporter s₁ (tagsOf s.world m.2) := by
      simp only [Quiet, LastOwned, huse, hseqs]
      rcases h with hsignals | ⟨tag, htag, hlast, hsignals⟩
      · rw [remove_thrown.mpr hsignals] at hrem
        cases hrem
      · exact not_quiet htag hlast hsignals
    rcases releaseEach_snd s.world.reporter s₁ hnd with ⟨hquiet, -⟩ | ⟨-, hrel⟩
    · exact absurd hquiet hloud
    · exact ⟨_, hrel⟩

/-- An operation during which something is signalled does not return. -/
lemma perform_of_signalled (hnd : ∀ e, (tagsOf s.world e).Nodup)
    (hp : perform s op = some (s', r)) (h : Signalled s op exc) : ∃ exit, r = .error exit := by
  have hdelete : ∀ m, deleted s op = some m → letGo s op = tagsOf s.world m.2 →
      Signals s m exc ∨
        ∃ tag ∈ tagsOf s.world m.2, LastOwned s tag ∧ SequenceSignals s tag exc := by
    intro m hm hlet
    rw [Signalled, hm, hlet] at h
    simpa using h
  rcases perform_cases hp with ⟨o, inner, rfl, ho, heq⟩ |
    ⟨target, source, old, inner, rfl, -, -, heq⟩ | ⟨tag, rfl, -, heq⟩
  · have hr : (s.destroy o inner).2 = r := congrArg Prod.snd heq
    rcases inner with _ | m
    · simp [Signalled, deleted, letGo, ho] at h
    · have hdel : deleted s (.destroy o) = some m := by rw [deleted, ho, Option.join_some]
      obtain ⟨exit, hexit⟩ := deleteModel_of_signalled (s := s.set o none) (hnd m.2)
        (hdelete m hdel (by simp [letGo, hdel]))
      exact ⟨exit, hr.symm.trans hexit⟩
  · have hr : (s.moveAssign target source inner).2 = r := congrArg Prod.snd heq
    rcases hdel : deleted s (.moveAssign target source) with _ | m
    · simp [Signalled, letGo, hdel] at h
    · have hold : ((s.set source (some none)).objects target).join = some m := by
        rw [deleted] at hdel
        split at hdel
        · cases hdel
        · simpa [Owners.set, Function.update_of_ne ‹_›] using hdel
      obtain ⟨exit, hexit⟩ := deleteModel_of_signalled
        (s := (s.set source (some none)).set target (some inner)) (hnd m.2)
        (hdelete m hdel (by simp [letGo, hdel]))
      refine ⟨.terminate, ?_⟩
      rw [← hr, Owners.moveAssign]
      simp only [hold, Owners.deleteInner, hexit, noexcept_error]
  · have hr : (s.release tag).2 = r := congrArg Prod.snd heq
    obtain ⟨hlast, hsignals⟩ : LastOwned s tag ∧ SequenceSignals s tag exc := by
      simpa [Signalled, deleted, letGo] using h
    rcases releaseSequence_snd s.world.reporter { s with
      holders := Function.update s.holders tag (s.holders tag - 1) } tag with hrel | hrel
    · exact absurd hrel.1 (not_quiet (List.mem_singleton_self tag) hlast hsignals)
    · exact ⟨_, hr.symm.trans hrel.2⟩

/-- **The destructor lets its own violation out**, with a reporter that is silent while another
exception is on its way. -/
theorem destroy_throws (h : Ownership.Reachable s) (ht : s.terminated = false)
    (hsilent : ∀ message, s.unwinding.reportError message = .ok ())
    (ho : s.objects o = some (some m)) (hs : Signals s m exc)
    (hp : perform s (.destroy o) = some (s', r)) : r = .error (.thrown exc) := by
  have hquiet : Quiet s.unwinding s (tagsOf s.world m.2) := fun _ _ _ message _ => hsilent message
  exact (perform_thrown (tagsOf_nodup h ht) hp).mpr ⟨o, m, rfl, ho, hs, hquiet⟩

/-- **A violation that does not escape terminates.** -/
theorem terminate_of_not_escapes (h : Ownership.Reachable s) (ht : s.terminated = false)
    (hp : perform s op = some (s', r)) (hs : Signalled s op exc) (hn : ¬ Escapes s op) :
    r = .error .terminate := by
  have hnd := tagsOf_nodup h ht
  obtain ⟨exc' | _, rfl⟩ := perform_of_signalled hnd hp hs
  · obtain ⟨o, m, rfl, ho, hsignals, hquiet⟩ := (perform_thrown hnd hp).mp rfl
    exact absurd ⟨m, exc', ho, hsignals, hquiet⟩ hn
  · rfl

/-- **A violation reaches the caller exactly** when the operation is the destruction of a
`ScopedExpectation` that owns the unfulfilled expectation, and no sequence that dies with it
makes the reporter fail in the meantime. -/
theorem violation_reaches_iff (h : Ownership.Reachable s) (ht : s.terminated = false)
    (hp : perform s op = some (s', r)) :
    Reaches s op r ↔ (∀ exc, ¬ Signalled s op exc) ∨ Escapes s op := by
  have hnd := tagsOf_nodup h ht
  constructor
  · intro hreach
    by_cases hsome : ∃ exc, Signalled s op exc
    · obtain ⟨exc, -, hr⟩ := hreach hsome
      obtain ⟨o, m, rfl, ho, hsignals, hquiet⟩ := (perform_thrown hnd hp).mp hr
      exact .inr ⟨m, exc, ho, hsignals, hquiet⟩
    · exact .inl (not_exists.mp hsome)
  · rintro (hnone | hescapes) ⟨exc, hexc⟩
    · exact absurd hexc (hnone exc)
    · cases op with
      | destroy o =>
        obtain ⟨m, exc, ho, hsignals, hquiet⟩ := hescapes
        refine ⟨exc, .inl ⟨m, by rw [deleted, ho, Option.join_some], hsignals⟩, ?_⟩
        exact (perform_thrown hnd hp).mpr ⟨o, m, rfl, ho, hsignals, hquiet⟩
      | moveAssign target source => exact hescapes.elim
      | release tag => exact hescapes.elim

/-- Two required expectations in one sequence, the first of which an object owns. -/
def twoRequired : List (Ownership.Action Unit Unit Unit Unit) :=
  [.create 0 (requiredCall [0]) ⟨"", 0⟩, .create 1 (requiredCall [0]) ⟨"", 0⟩]

theorem violation_reaches_iff_destroy :
    ∃ s s' : Owners Unit Unit Unit Unit, Ownership.Reachable s ∧
      perform s (.destroy 0) = some (s', .error (.thrown ())) ∧
      (Reaches s (.destroy 0) (.error (.thrown ())) ↔
        (∀ exc, ¬ Signalled s (.destroy 0) exc) ∨ Escapes s (.destroy 0)) := by
  have h : ((Ownership.machine Unit Unit Unit Unit).replay throwingTest twoRequired).isSome =
      true := by decide +kernel
  obtain ⟨s, hrun, hreach⟩ := Machine.exists_reachable_of_replay fresh_throwingTest h
  have ht : s.terminated = false := by cases hrun; rfl
  have hp : ∃ s', perform s (.destroy 0) = some (s', .error (.thrown ())) := by
    cases hrun
    exact ⟨_, rfl⟩
  obtain ⟨s', hp⟩ := hp
  exact ⟨s, s', hreach, hp, violation_reaches_iff hreach ht hp⟩

/-- The move assignment deletes the first expectation, whose report throws. -/
theorem violation_lost_in_move_assignment :
    ∃ s s' : Owners Unit Unit Unit Unit, Ownership.Reachable s ∧ s.terminated = false ∧
      perform s (.moveAssign 0 1) = some (s', .error .terminate) ∧
      Signalled s (.moveAssign 0 1) () ∧ ¬ Reaches s (.moveAssign 0 1) (.error .terminate) := by
  have h : ((Ownership.machine Unit Unit Unit Unit).replay throwingTest twoRequired).isSome =
      true := by decide +kernel
  obtain ⟨s, hrun, hreach⟩ := Machine.exists_reachable_of_replay fresh_throwingTest h
  have hsignalled : Signalled s (.moveAssign 0 1) () := by
    cases hrun
    exact .inl ⟨(0, 0), rfl, _, rfl, rfl, rfl⟩
  have hp : s.terminated = false ∧
      ∃ s', perform s (.moveAssign 0 1) = some (s', .error .terminate) := by
    cases hrun
    exact ⟨rfl, _, rfl⟩
  obtain ⟨ht, s', hp⟩ := hp
  refine ⟨s, s', hreach, ht, hp, hsignalled, fun hreaches => ?_⟩
  obtain ⟨exc, -, hr⟩ := hreaches ⟨(), hsignalled⟩
  cases hr

end MimicPP.Violations

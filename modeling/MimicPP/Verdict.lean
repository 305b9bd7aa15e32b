import Mathlib.Data.List.Sort
import MimicPP.Order

/-!
What a sequence says about the expectations attached to it: the state it keeps for each of
them while it lives, and the error it reports when it dies.

The entries are the states of the attached expectations in the order of their creation. So
the scan of the destructor, which starts at the cursor, is a scan over all of them.
-/

namespace MimicPP.Verdict

open MimicPP.Noexcept MimicPP.Sequence MimicPP.Reports MimicPP.Control MimicPP.Expectation
open MimicPP.Matching MimicPP.Transition MimicPP.Runs MimicPP.Invariant MimicPP.Order

variable {σ Call Ret Exc : Type}

/-! ### The state of an entry -/

/-- The state that tells how far an expectation is. -/
def stateOf (p : ControlPolicy) : State :=
  if p.count < p.min then .unsatisfied
  else if p.count = p.max then .saturated
  else .satisfied

/-- The sequence sees the expectation as its counter stands, and refuses it when it is
exhausted. -/
structure Agrees (s : BasicSequence) (id : Id) (p : ControlPolicy) : Prop where
  entry : s.entries[id]? = some (stateOf p)
  refused : p.count = p.max → s.isConsumable id = false ∧ s.priorityOf id = none

/-- Both limits are the same, and reached. -/
def Coincides (p : ControlPolicy) : Prop := p.min = p.max ∧ p.count = p.max

variable {w w' w₀ : World σ Call Ret Exc} {e : ℕ} {p : ControlPolicy} {tag : Tag} {id : ℕ}
variable {s : BasicSequence}

/-- The update asks for the minimum first, so an entry at both limits is left satisfied. -/
lemma entryState_eq_stateOf : p.entryState = stateOf p ↔ ¬ Coincides p := by
  unfold ControlPolicy.entryState stateOf Coincides
  split
  · simp; omega
  · split
    · split
      · simp; omega
      · simp; omega
    · split
      · simp; omega
      · simp; omega

lemma refused_of_saturated (h : s.entries[id]? = some .saturated) :
    s.isConsumable id = false ∧ s.priorityOf id = none := by
  have hnot : s.isConsumable id = false := by
    rw [Bool.eq_false_iff]
    intro hcons
    obtain ⟨-, -, st, hst, hne⟩ := BasicSequence.isConsumable_iff.mp hcons
    rw [h] at hst
    exact hne (Option.some.inj hst).symm
  exact ⟨hnot, BasicSequence.priorityOf_eq_none.mpr hnot⟩

/-- **A sequence's view of an expectation** is the one its counter calls for, with one
exception: an expectation whose two limits are the same is never marked as saturated. -/
theorem agrees_iff (hr : Reachable w) (ha : Attached w e p tag id) :
    Agrees (w.seqs tag) id p ↔ ¬ Coincides p := by
  have hI := reachable_inv hr
  have hle := (hI.valid ha.policy).min_le_max
  have hentry := hI.entry ha
  constructor
  · intro hagrees
    have hstate : p.entryState = stateOf p := Option.some.inj (hentry.symm.trans hagrees.entry)
    exact entryState_eq_stateOf.mp hstate
  · intro hnot
    rw [entryState_eq_stateOf.mpr hnot] at hentry
    refine ⟨hentry, fun hmax => refused_of_saturated ?_⟩
    rw [hentry, stateOf, if_neg (by omega), if_pos hmax]

/-- An expectation is matched as often as it may be, which is more often than it must be. -/
def onceOrTwice : List (Action Unit Unit Unit Unit) :=
  [.create (anyCall 0 1 2 [0] ()) ⟨"", 0⟩, .commit 0 (), .commit 0 ()]

/-- It is saturated then, and refused. -/
theorem agrees_iff_onceOrTwice :
    ∃ (w : World Unit Unit Unit Unit) (p : ControlPolicy), Reachable w ∧ Attached w 0 p 0 0 ∧
      p.min < p.count ∧ p.count = p.max ∧ Agrees (w.seqs 0) 0 p := by
  have h : ((machine Unit Unit Unit Unit).replay (start (quietReporter ()) () fun _ => .lazy)
      onceOrTwice).isSome = true := by decide +kernel
  obtain ⟨w, hrun, hr⟩ := Machine.exists_reachable_of_replay (start_fresh _ _ _) h
  have ha : Attached w 0 ⟨1, 2, 2, [(0, 0)]⟩ 0 0 := by
    cases hrun
    exact ⟨by decide +kernel, by decide⟩
  exact ⟨w, _, hr, ha, by decide, rfl, (agrees_iff hr ha).mpr (by simp [Coincides])⟩

/-- An expectation that is due once has been matched, and its sequence would take it again. -/
theorem exhausted_still_consumable :
    ∃ (w : World Unit Unit Unit Unit) (p : ControlPolicy), Reachable w ∧ Attached w 0 p 0 0 ∧
      p.count = p.max ∧ (w.seqs 0).entries[0]? = some .satisfied ∧
      (w.seqs 0).isConsumable 0 = true ∧ ¬ Agrees (w.seqs 0) 0 p := by
  have h : ((machine Unit Unit Unit Unit).replay (start (quietReporter ()) () fun _ => .lazy)
      requiredThenOptional).isSome = true := by decide +kernel
  obtain ⟨w, hrun, hr⟩ := Machine.exists_reachable_of_replay (start_fresh _ _ _) h
  have ha : Attached w 0 ⟨1, 1, 1, [(0, 0)]⟩ 0 0 := by
    cases hrun
    exact ⟨by decide +kernel, by decide⟩
  have hcons : (w.seqs 0).isConsumable 0 = true := by
    cases hrun
    decide +kernel
  have hentry : (w.seqs 0).entries[0]? = some .satisfied := by
    cases hrun
    decide +kernel
  refine ⟨w, _, hr, ha, rfl, hentry, hcons, fun hagrees => ?_⟩
  rw [(hagrees.refused rfl).1] at hcons
  cases hcons

/-! ### The end of a sequence -/

/-- The expectation was created with the sequence in its list. -/
def isAttached (w : World σ Call Ret Exc) (tag : Tag) (e : ExpId) : Bool :=
  (policyOf w e).any fun p => p.sequences.any fun entry => entry.1 == tag

/-- Every expectation ever attached to the sequence, in the order of attachment; those that
have been destroyed are among them. -/
def attachedTo (w : World σ Call Ret Exc) (tag : Tag) : List ExpId :=
  (List.range w.exps.length).filter (isAttached w tag)

/-- `m_Min`, and zero before the expectation exists. -/
def minOf (w : World σ Call Ret Exc) (e : ExpId) : ℕ :=
  ((policyOf w e).map ControlPolicy.min).getD 0

/-- The text of the report of an unfulfilled sequence. -/
def unfulfilledSequence (satisfied size : ℕ) : String :=
  "Unfulfilled sequence. " ++ toString satisfied ++ " out of " ++ toString size
    ++ " expectation(s) are satisfied."

lemma isAttached_iff : isAttached w tag e = true ↔ ∃ p id, Attached w e p tag id := by
  simp only [isAttached, Option.any_eq_true, List.any_eq_true, beq_iff_eq]
  constructor
  · rintro ⟨p, hp, ⟨tag', id⟩, hmem, rfl⟩
    exact ⟨p, id, hp, hmem⟩
  · rintro ⟨p, id, hp, hmem⟩
    exact ⟨p, hp, (tag, id), hmem, rfl⟩

lemma mem_attachedTo : e ∈ attachedTo w tag ↔ ∃ p id, Attached w e p tag id := by
  rw [attachedTo, List.mem_filter, isAttached_iff, List.mem_range, and_iff_right_iff_imp]
  rintro ⟨p, id, ha⟩
  exact policyOf_lt ha.policy

lemma attachedTo_sorted : (attachedTo w tag).Pairwise (· < ·) :=
  List.pairwise_lt_range.filter _

/-- The owners of the entries are the attached expectations, in order. -/
lemma attachedTo_getElem? (hI : Inv w) (tag : Tag) :
    (attachedTo w tag).length = (w.seqs tag).entries.length ∧
      ∀ {e : ℕ} {p} {id : ℕ}, Attached w e p tag id → (attachedTo w tag)[id]? = some e := by
  choose! owner policy howner using fun id (hid : id < (w.seqs tag).entries.length) =>
    hI.owner hid
  have hlist : attachedTo w tag = (List.range (w.seqs tag).entries.length).map owner := by
    refine List.Pairwise.eq_of_mem_iff attachedTo_sorted ?_ fun e => ?_
    · rw [List.pairwise_map]
      refine List.pairwise_lt_range.imp_of_mem fun {id id'} hid hid' hlt => ?_
      have ha := howner id (List.mem_range.mp hid)
      have ha' := howner id' (List.mem_range.mp hid')
      exact (hI.position_lt_iff ha ha').mp hlt
    · rw [mem_attachedTo, List.mem_map]
      constructor
      · rintro ⟨p, id, ha⟩
        have hid := hI.attached_lt ha
        exact ⟨id, List.mem_range.mpr hid, hI.owner_unique (howner id hid) ha⟩
      · rintro ⟨id, hid, rfl⟩
        exact ⟨_, _, howner id (List.mem_range.mp hid)⟩
  refine ⟨by simp [hlist], fun {e p id} ha => ?_⟩
  have hid := hI.attached_lt ha
  rw [hlist, List.getElem?_map, List.getElem?_range hid]
  exact congrArg some (hI.owner_unique (howner id hid) ha)

/-- The entries still open are those of the expectations matched too rarely. -/
lemma entries_map_isDone (hI : Inv w) (tag : Tag) :
    (w.seqs tag).entries.map (fun st => !st.isDone) =
      (attachedTo w tag).map fun e => decide (countOf w e < minOf w e) := by
  obtain ⟨hlen, hget⟩ := attachedTo_getElem? hI tag
  refine List.ext_getElem? fun id => ?_
  rw [List.getElem?_map, List.getElem?_map]
  rcases Nat.lt_or_ge id (w.seqs tag).entries.length with hid | hid
  · obtain ⟨e, p, ha⟩ := hI.owner hid
    have hdone := ControlPolicy.entryState_ne_unsatisfied (p := p)
    rw [← State.isDone_iff] at hdone
    rw [hI.entry ha, hget ha, Option.map_some, Option.map_some, countOf_of_policy ha.policy,
      minOf, ha.policy, Option.map_some, Option.getD_some]
    refine congrArg some ?_
    by_cases hmin : p.min ≤ p.count
    · rw [hdone.mpr hmin, decide_eq_false (Nat.not_lt.mpr hmin), Bool.not_true]
    · have hopen : p.entryState.isDone = false := by
        rw [Bool.eq_false_iff]
        exact fun h => hmin (hdone.mp h)
      rw [hopen, decide_eq_true (Nat.lt_of_not_le hmin), Bool.not_false]
  · rw [List.getElem?_eq_none hid, List.getElem?_eq_none (hlen ▸ hid)]
    rfl

/-- What the cursor has passed is done, so the scan may as well start at the front. -/
lemma destroy_eq_of_valid (h : s.Valid) :
    s.destroy = (s.entries.findIdx? fun st => !st.isDone).map fun i =>
      unfulfilledSequence i s.entries.length := by
  have hpassed : (s.entries.take s.cursor).findIdx? (fun st => !st.isDone) = none := by
    rw [List.findIdx?_eq_none_iff]
    intro st hst
    obtain ⟨i, hi⟩ := List.mem_iff_getElem?.mp hst
    rw [List.getElem?_take] at hi
    split at hi
    · have hne := h.passed ‹_›
      rw [hi, Ne, Option.some.injEq] at hne
      rw [(State.isDone_iff st).mpr hne, Bool.not_true]
    · cases hi
  have hsplit : s.entries.findIdx? (fun st => !st.isDone) =
      ((s.entries.drop s.cursor).findIdx? fun st => !st.isDone).map fun i => s.cursor + i := by
    conv_lhs => rw [← List.take_append_drop s.cursor s.entries]
    rw [List.findIdx?_append, hpassed, Option.none_or, List.length_take_of_le h.cursor_le]
    simp only [Nat.add_comm]
  rw [hsplit, Option.map_map]
  rfl

/-- **The destructor speaks of the first expectation matched too rarely.** -/
theorem destroy_eq (hI : Inv w) (tag : Tag) :
    (w.seqs tag).destroy =
      ((attachedTo w tag).findIdx? fun e => decide (countOf w e < minOf w e)).map fun i =>
        unfulfilledSequence i (attachedTo w tag).length := by
  rw [destroy_eq_of_valid (hI.valid_seqs tag), (attachedTo_getElem? hI tag).1]
  congr 1
  have hmap := congrArg (List.findIdx? id) (entries_map_isDone hI tag)
  rw [List.findIdx?_map, List.findIdx?_map] at hmap
  exact hmap

/-- **The end-of-life check of a sequence is exact**: it reports if and only if some
expectation ever attached was matched fewer than its minimal number of times, and it tells
how many were attached before the first such one, and how many in all. -/
theorem destroy_exact {run : List (Action σ Call Ret Exc)} (h₀ : Fresh w₀)
    (hrun : (machine σ Call Ret Exc).replay w₀ run = some w) (tag : Tag) :
    ((w.seqs tag).destroy ≠ none ↔
      ∃ e ∈ attachedTo w tag, dispatches w₀ run e < minOf w e) ∧
    ∀ earlier e later, attachedTo w tag = earlier ++ e :: later →
      (∀ e' ∈ earlier, minOf w e' ≤ dispatches w₀ run e') → dispatches w₀ run e < minOf w e →
      (w.seqs tag).destroy =
        some (unfulfilledSequence earlier.length (attachedTo w tag).length) := by
  have hcount : ∀ e, countOf w e = dispatches w₀ run e := fun e =>
    countOf_eq_dispatches h₀ hrun
  have hdestroy := destroy_eq (reachable_inv (reachable_of_run h₀ hrun)) tag
  simp only [hcount] at hdestroy
  rw [hdestroy]
  constructor
  · simp [List.findIdx?_eq_none_iff]
  · intro earlier e later hsplit hearlier hopen
    have hnone : earlier.findIdx? (fun e => decide (dispatches w₀ run e < minOf w e)) = none := by
      rw [List.findIdx?_eq_none_iff]
      exact fun e' he' => decide_eq_false (Nat.not_lt.mpr (hearlier e' he'))
    rw [hsplit, List.findIdx?_append, hnone, Option.none_or, List.findIdx?_cons,
      decide_eq_true hopen]
    simp

/-- An optional expectation is followed by a required one, which dies without a match. -/
def requiredDies : List (Action Unit Unit Unit Unit) :=
  [.create (anyCall 0 0 2 [0] ()) ⟨"", 0⟩,
    .create (anyCall 0 1 1 [0] ()) ⟨"", 0⟩,
    .commit 0 (),
    .destroy 0 1]

/-- The call went to the optional expectation. -/
theorem destroy_exact_requiredDies :
    ∃ w : World Unit Unit Unit Unit,
      (machine Unit Unit Unit Unit).replay (start (quietReporter ()) () fun _ => .lazy)
        requiredDies = some w ∧
      ((w.seqs 0).destroy ≠ none ↔ ∃ e ∈ attachedTo w 0,
        dispatches (start (quietReporter ()) () fun _ => .lazy) requiredDies e < minOf w e) ∧
      (w.seqs 0).destroy = some (unfulfilledSequence 1 2) := by
  have h : ((machine Unit Unit Unit Unit).replay (start (quietReporter ()) () fun _ => .lazy)
      requiredDies).isSome = true := by decide +kernel
  obtain ⟨w, hrun⟩ := Option.isSome_iff_exists.mp h
  obtain ⟨hiff, htext⟩ := destroy_exact (start_fresh _ _ _) hrun 0
  refine ⟨w, hrun, hiff, ?_⟩
  have hlist : attachedTo w 0 = [0] ++ 1 :: [] := by
    cases hrun
    decide +kernel
  have hfirst : ∀ e' ∈ [0], minOf w e' ≤
      dispatches (start (quietReporter ()) () fun _ => .lazy) requiredDies e' := by
    cases hrun
    decide +kernel
  have hsecond : dispatches (start (quietReporter ()) () fun _ => .lazy) requiredDies 1 <
      minOf w 1 := by
    cases hrun
    decide +kernel
  have hreport := htext [0] 1 [] hlist hfirst hsecond
  rw [hlist] at hreport
  exact hreport

end MimicPP.Verdict

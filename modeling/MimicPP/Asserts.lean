import MimicPP.Invariant

/-!
The functions of the matching core with their assertions: each is `none` where an assertion on
the way fails. In a reachable world they do what the functions without assertions do.
-/

namespace MimicPP.Asserts

open MimicPP.Noexcept MimicPP.Sequence MimicPP.Reports MimicPP.Control MimicPP.Expectation
open MimicPP.Matching MimicPP.Runs MimicPP.Invariant

variable {σ Call Ret Exc : Type}

/-- The value, provided that the assertion in front of it holds. -/
def asserted {α : Type} (condition : Bool) (value : α) : Option α :=
  if condition then some value else none

@[simp] lemma asserted_true {α : Type} (a : α) : asserted true a = some a := rfl

lemma asserted_of {α : Type} {b : Bool} {a : α} (h : b = true) : asserted b a = some a := by
  rw [h, asserted_true]

namespace BasicSequence

def isConsumable (s : BasicSequence) (id : Id) : Option Bool :=
  asserted (s.isValid id) (s.isConsumable id)

/-- Both strategies assert the same. -/
def strategyPriority (strategy : Strategy) (id : Id) (cursor : ℕ) : Option ℤ :=
  asserted (decide (cursor ≤ id)) (strategy.priority id cursor)

def priorityOf (s : BasicSequence) (id : Id) : Option (Option ℤ) :=
  (asserted (s.isValid id) ()).bind fun _ =>
    (isConsumable s id).bind fun consumable =>
      if consumable then (strategyPriority s.strategy id s.cursor).map some else some none

def setSatisfied (s : BasicSequence) (id : Id) : Option BasicSequence :=
  asserted (s.isValid id && decide (s.cursor ≤ id) && s.entries[id]? == some .unsatisfied)
    (s.setSatisfied id)

def setSaturated (s : BasicSequence) (id : Id) : Option BasicSequence :=
  asserted (s.isValid id && decide (s.cursor ≤ id)
    && (s.entries[id]? == some .unsatisfied || s.entries[id]? == some .satisfied))
    (s.setSaturated id)

def consume (s : BasicSequence) (id : Id) : Option BasicSequence :=
  (isConsumable s id).bind fun consumable => asserted consumable (s.consume id)

end BasicSequence

def applyEach (f : BasicSequence → Id → Option BasicSequence) :
    Sequences → List (Tag × Id) → Option Sequences
  | seqs, [] => some seqs
  | seqs, (tag, id) :: rest =>
    (f (seqs tag) id).bind fun s => applyEach f (Function.update seqs tag s) rest

namespace ControlPolicy

/-- The conjunction stops at the first sequence that does not accept its entry. -/
def allConsumable (seqs : Sequences) : List (Tag × Id) → Option Bool
  | [] => some true
  | (tag, id) :: rest =>
    (BasicSequence.isConsumable (seqs tag) id).bind fun consumable =>
      if consumable then allConsumable seqs rest else some false

def isApplicable (p : ControlPolicy) (seqs : Sequences) : Option Bool :=
  if p.count < p.max then allConsumable seqs p.sequences else some false

/-- Every sequence is asked for its priority, unless the policy is saturated. -/
def state (p : ControlPolicy) (seqs : Sequences) : Option ControlState :=
  if p.count = p.max then some (p.state seqs)
  else
    (p.sequences.mapM fun e => BasicSequence.priorityOf (seqs e.1) e.2).map fun _ => p.state seqs

def updateSequenceStates (p : ControlPolicy) (seqs : Sequences) : Option Sequences :=
  if p.count = p.min then applyEach BasicSequence.setSatisfied seqs p.sequences
  else if p.count = p.max then applyEach BasicSequence.setSaturated seqs p.sequences
  else some seqs

def consume (p : ControlPolicy) (seqs : Sequences) : Option (ControlPolicy × Sequences) :=
  (isApplicable p seqs).bind fun applicable =>
    (asserted applicable ()).bind fun _ =>
      (applyEach BasicSequence.consume seqs p.sequences).bind fun seqs =>
        (updateSequenceStates p.increment seqs).map fun seqs => (p.increment, seqs)

def construct (seqs : Sequences) (times : TimesConfig) (config : Config) :
    Option (Sequences × Except (Exit StdError) ControlPolicy) :=
  match makeSequenceEntries seqs config.sequences with
  | (seqs', .error e) => some (seqs', noexcept (.error e))
  | (seqs', .ok entries) =>
    (updateSequenceStates ⟨times.min, times.max, 0, entries⟩ seqs').map fun seqs'' =>
      (seqs'', .ok ⟨times.min, times.max, 0, entries⟩)

end ControlPolicy

/-! ### Where the assertions hold -/

variable {s : BasicSequence} {id : ℕ} {seqs : Sequences} {p : ControlPolicy}

lemma isValid_iff : s.isValid id = true ↔ id < s.entries.length := by
  simp [Sequence.BasicSequence.isValid]

lemma priorityOf_of_valid (h : id < s.entries.length) :
    BasicSequence.priorityOf s id = some (s.priorityOf id) := by
  have hv := isValid_iff.mpr h
  rw [BasicSequence.priorityOf, BasicSequence.isConsumable, asserted_of hv, asserted_of hv,
    Sequence.BasicSequence.priorityOf]
  by_cases hc : s.isConsumable id = true
  · have hcur := (Sequence.BasicSequence.isConsumable_iff.mp hc).1
    simp [hc, BasicSequence.strategyPriority, asserted_of (decide_eq_true hcur)]
  · simp [hc]

lemma consume_of_consumable (h : s.isConsumable id = true) :
    BasicSequence.consume s id = some (s.consume id) := by
  have hv := isValid_iff.mpr (Sequence.BasicSequence.isConsumable_lt h)
  simp [BasicSequence.consume, BasicSequence.isConsumable, asserted_of hv, h]

lemma setSatisfied_of_unsatisfied (hcur : s.cursor ≤ id)
    (h : s.entries[id]? = some .unsatisfied) :
    BasicSequence.setSatisfied s id = some (s.setSatisfied id) := by
  have hv := isValid_iff.mpr (List.getElem?_eq_some_iff.mp h).1
  exact asserted_of (by simp [hv, hcur, h])

lemma setSaturated_of_not_saturated {st : State} (hcur : s.cursor ≤ id)
    (h : s.entries[id]? = some st) (hst : st ≠ .saturated) :
    BasicSequence.setSaturated s id = some (s.setSaturated id) := by
  have hv := isValid_iff.mpr (List.getElem?_eq_some_iff.mp h).1
  refine asserted_of ?_
  cases st with
  | saturated => exact absurd rfl hst
  | unsatisfied => simp [hv, hcur, h]
  | satisfied => simp [hv, hcur, h]

/-- Different sequences do not get in each other's way. -/
lemma applyEach_of_mem {f : BasicSequence → Id → Option BasicSequence}
    {g : BasicSequence → Id → BasicSequence} {l : List (Tag × Id)}
    (hnd : (l.map Prod.fst).Nodup)
    (h : ∀ tag id, (tag, id) ∈ l → f (seqs tag) id = some (g (seqs tag) id)) :
    applyEach f seqs l = some (Control.applyEach g seqs l) := by
  induction l generalizing seqs with
  | nil => rfl
  | cons e l ih =>
    obtain ⟨tag, id⟩ := e
    obtain ⟨hnot, hnd⟩ := List.nodup_cons.mp hnd
    have hhead := h tag id List.mem_cons_self
    rw [applyEach, hhead, Option.bind_some, Control.applyEach]
    refine ih hnd fun tag' id' hmem => ?_
    have hne : tag' ≠ tag := by
      rintro rfl
      exact hnot (List.mem_map.mpr ⟨_, hmem, rfl⟩)
    rw [Function.update_of_ne hne]
    exact h tag' id' (List.mem_cons_of_mem _ hmem)

lemma allConsumable_of_consumable {l : List (Tag × Id)}
    (h : ∀ tag id, (tag, id) ∈ l → (seqs tag).isConsumable id = true) :
    ControlPolicy.allConsumable seqs l = some true := by
  induction l with
  | nil => rfl
  | cons e l ih =>
    obtain ⟨tag, id⟩ := e
    have hhead := h tag id List.mem_cons_self
    have hv := isValid_iff.mpr (Sequence.BasicSequence.isConsumable_lt hhead)
    simp only [ControlPolicy.allConsumable, BasicSequence.isConsumable, asserted_of hv,
      Option.bind_some, hhead, if_true]
    exact ih fun tag' id' hmem => h tag' id' (List.mem_cons_of_mem _ hmem)

lemma mapM_eq_some {α β : Type} {f : α → Option β} {g : α → β} {l : List α}
    (h : ∀ a ∈ l, f a = some (g a)) : l.mapM f = some (l.map g) := by
  induction l with
  | nil => rfl
  | cons a l ih =>
    have hhead := h a List.mem_cons_self
    have htail := ih fun b hb => h b (List.mem_cons_of_mem _ hb)
    simp [List.mapM_cons, hhead, htail]

/-! ### What the assertions need of a world -/

lemma state_of_valid (h : ∀ tag id, (tag, id) ∈ p.sequences → id < (seqs tag).entries.length) :
    ControlPolicy.state p seqs = some (p.state seqs) := by
  have hprio := mapM_eq_some (f := fun e : Tag × Id => BasicSequence.priorityOf (seqs e.1) e.2)
    (g := fun e => (seqs e.1).priorityOf e.2) (l := p.sequences)
    fun e he => priorityOf_of_valid (h e.1 e.2 he)
  rw [ControlPolicy.state, hprio]
  split <;> rfl

/-- The new count calls for a state the entries can go to: an entry is set satisfied when its
counter reaches the minimum, before which it was unsatisfied, and saturated when the counter
reaches the maximum, before which it was not. -/
lemma updateSequenceStates_of_mem (hv : p.Valid)
    (hcur : ∀ tag id, (tag, id) ∈ p.sequences → (seqs tag).cursor ≤ id)
    (hsat : p.count = p.min → ∀ tag id, (tag, id) ∈ p.sequences →
      (seqs tag).entries[id]? = some .unsatisfied)
    (hmax : p.count = p.max → p.count ≠ p.min → ∀ tag id, (tag, id) ∈ p.sequences →
      ∃ st, (seqs tag).entries[id]? = some st ∧ st ≠ .saturated) :
    ControlPolicy.updateSequenceStates p seqs = some (p.updateSequenceStates seqs) := by
  rw [ControlPolicy.updateSequenceStates, Control.ControlPolicy.updateSequenceStates]
  split
  · rename_i hcount
    refine applyEach_of_mem hv.nodup fun tag id hmem => ?_
    exact setSatisfied_of_unsatisfied (hcur tag id hmem) (hsat hcount tag id hmem)
  · rename_i hne
    split
    · rename_i hcount
      refine applyEach_of_mem hv.nodup fun tag id hmem => ?_
      obtain ⟨st, hst, hnot⟩ := hmax hcount hne tag id hmem
      exact setSaturated_of_not_saturated (hcur tag id hmem) hst hnot
    · rfl

lemma entryState_of_lt_min (h : p.count < p.min) : p.entryState = .unsatisfied := by
  rw [Control.ControlPolicy.entryState, if_pos h]

variable {w : World σ Call Ret Exc} {e : ℕ}

lemma consume_of_applicable (hI : Inv w) (hp : policyOf w e = some p)
    (happ : p.isApplicable w.seqs = true) :
    ControlPolicy.consume p w.seqs = some (p.consume w.seqs) := by
  obtain ⟨hlt, hcons⟩ := Control.ControlPolicy.isApplicable_iff.mp happ
  have hv := hI.valid hp
  have happ' : ControlPolicy.isApplicable p w.seqs = some true := by
    rw [ControlPolicy.isApplicable, if_pos hlt, allConsumable_of_consumable hcons]
  have hmove : applyEach BasicSequence.consume w.seqs p.sequences =
      some (Control.applyEach Sequence.BasicSequence.consume w.seqs p.sequences) :=
    applyEach_of_mem hv.nodup fun tag id hmem => consume_of_consumable (hcons tag id hmem)
  -- the cursors stand at the entries now, which are as they were
  have hseq : ∀ tag id, (tag, id) ∈ p.sequences →
      Control.applyEach Sequence.BasicSequence.consume w.seqs p.sequences tag =
        (w.seqs tag).consume id := fun tag id hmem => Control.applyEach_of_mem _ hv.nodup hmem
  have hupd : ControlPolicy.updateSequenceStates p.increment
      (Control.applyEach Sequence.BasicSequence.consume w.seqs p.sequences) =
      some (p.increment.updateSequenceStates
        (Control.applyEach Sequence.BasicSequence.consume w.seqs p.sequences)) := by
    refine updateSequenceStates_of_mem (hv.increment hlt) ?_ ?_ ?_
    · intro tag id hmem
      rw [hseq tag id hmem]
      exact Nat.le_refl _
    · intro hcount tag id hmem
      have hmin : p.count < p.min := by
        have : p.count + 1 = p.min := hcount
        omega
      rw [hseq tag id hmem, Sequence.BasicSequence.consume_entries, hI.entry ⟨hp, hmem⟩,
        entryState_of_lt_min hmin]
    · intro _ _ tag id hmem
      refine ⟨p.entryState, ?_, fun hsat => ?_⟩
      · rw [hseq tag id hmem, Sequence.BasicSequence.consume_entries]
        exact hI.entry ⟨hp, hmem⟩
      · have hmax := Control.ControlPolicy.entryState_eq_saturated hsat
        omega
  rw [ControlPolicy.consume, happ', Option.bind_some, asserted_true, Option.bind_some, hmove,
    Option.bind_some, hupd]
  rfl

lemma construct_of_inv (hI : Inv w) (times : TimesConfig) (config : Config) :
    ControlPolicy.construct w.seqs times config =
      some (Control.ControlPolicy.construct w.seqs times config) := by
  rcases hadd : addEach w.seqs config.sequences with ⟨seqs, exc | entries⟩
  · simp [ControlPolicy.construct, Control.ControlPolicy.construct, makeSequenceEntries, hadd]
  · obtain ⟨rfl, hin, -⟩ := addEach_eq_ok config.nodup hadd
    -- a new entry is unsatisfied, and no cursor is behind it
    have hnew : ∀ tag id, (tag, id) ∈ config.sequences.map
        (fun t => (t, (w.seqs t).entries.length)) →
        (seqs tag).cursor ≤ id ∧ (seqs tag).entries[id]? = some .unsatisfied := by
      intro tag id hmem
      obtain ⟨t, ht, heq⟩ := List.mem_map.mp hmem
      obtain ⟨rfl, rfl⟩ := Prod.mk.inj heq
      rw [(hin t ht).2]
      exact ⟨(hI.valid_seqs t).cursor_le, by simp⟩
    have hv : (⟨times.min, times.max, 0, config.sequences.map
        (fun t => (t, (w.seqs t).entries.length))⟩ : ControlPolicy).Valid :=
      ⟨times.min_le_max, Nat.zero_le _, times.max_le_intMax, by
        simpa [Function.comp_def] using config.nodup⟩
    have hupd := updateSequenceStates_of_mem hv
      (fun tag id hmem => (hnew tag id hmem).1)
      (fun _ tag id hmem => (hnew tag id hmem).2)
      (fun _ _ tag id hmem => ⟨_, (hnew tag id hmem).2, by simp⟩)
    simp [ControlPolicy.construct, Control.ControlPolicy.construct, makeSequenceEntries, hadd, hupd]

/-- **No assertion fails**: in every reachable world the state of every control policy is
computed without a failing assertion and is the applicable one exactly when `is_applicable`
holds; a call with full matches picks one of them, all of whose ratings are there to be read,
and consumes it without a failing assertion; and so is every control policy constructed. -/
theorem no_assert_fails (hr : Reachable w) :
    (∀ e p, policyOf w e = some p →
      ((p.state w.seqs).isApplicable = true ↔ p.isApplicable w.seqs = true) ∧
      ControlPolicy.state p w.seqs = some (p.state w.seqs)) ∧
    (∀ c call events b, w.collectMatches c call = (events, .ok b) → b.fullMatches ≠ [] →
      (∀ m ∈ b.fullMatches, ∃ ratings, sequenceRatings m.2 = some ratings) ∧
      ∃ m p, pickBestMatch b.fullMatches = some m ∧ policyOf w m.1 = some p ∧
        ControlPolicy.consume p w.seqs = some (p.consume w.seqs)) ∧
    (∀ times config, ControlPolicy.construct w.seqs times config =
      some (Control.ControlPolicy.construct w.seqs times config)) := by
  have hI := reachable_inv hr
  refine ⟨fun e p hp => ⟨?_, ?_⟩, fun c call events b hcoll hne => ⟨?_, ?_⟩, construct_of_inv hI⟩
  · rw [Control.ControlPolicy.state_isApplicable (hI.valid hp).count_le_max]
  · exact state_of_valid fun tag id hmem => hI.attached_lt ⟨hp, hmem⟩
  · intro m hm
    rw [collectMatches_ok hcoll] at hm
    exact sequenceRatings_of_full (fullMatches_full hm)
  · rw [collectMatches_ok hcoll] at hne ⊢
    obtain ⟨m, hm, hpick⟩ := pickBestMatch_of_full hne fun _ => fullMatches_full
    obtain ⟨p, hp, happ, -⟩ := hI.ratingsOf_full hm
    exact ⟨m, p, hpick, hp, consume_of_applicable hI hp happ⟩

/-- After the first call of two in a sequence. -/
theorem no_assert_fails_second :
    ∃ w, (machine Unit Unit Unit Unit).replay (start (quietReporter ()) () fun _ => .lazy)
        requiredThenOptional = some w ∧
      ∃ m p, pickBestMatch (fullMatches w 0 ()) = some m ∧ policyOf w m.1 = some p ∧
        ControlPolicy.consume p w.seqs = some (p.consume w.seqs) := by
  have h : ((machine Unit Unit Unit Unit).replay (start (quietReporter ()) () fun _ => .lazy)
      requiredThenOptional).isSome = true := by decide +kernel
  obtain ⟨w, hrun⟩ := Option.isSome_iff_exists.mp h
  refine ⟨w, hrun, ?_⟩
  have hcoll : ∃ b, w.collectMatches 0 () = ([], .ok b) ∧ b.fullMatches ≠ [] := by
    cases hrun
    exact ⟨_, rfl, List.cons_ne_nil _ _⟩
  obtain ⟨b, hcoll, hne⟩ := hcoll
  have hpick := ((no_assert_fails (reachable_of_run (start_fresh _ _ _) hrun)).2.1
    0 () [] b hcoll hne).2
  rw [collectMatches_ok hcoll] at hpick
  exact hpick

end MimicPP.Asserts

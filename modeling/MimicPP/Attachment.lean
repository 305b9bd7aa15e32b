import MimicPP.Control

/-!
Attaching a new expectation when sequences have run out of ids.
-/

namespace MimicPP.Attachment

open MimicPP.Noexcept MimicPP.Sequence MimicPP.Control

variable {seqs : Sequences} {times : TimesConfig} {config : Config}

/-- No further id can be handed out. -/
def Full (s : BasicSequence) : Prop := intMax < s.entries.length

/-- What `add` throws. -/
def outOfIds : StdError := .runtimeError "Sequence already holds maximum amount of elements."

lemma add_of_full {s : BasicSequence} (h : Full s) : s.add = .error outOfIds := by
  rw [BasicSequence.add, if_neg (Nat.not_le_of_lt h), outOfIds]

lemma add_of_not_full {s : BasicSequence} (h : ¬ Full s) :
    s.add = .ok (s.emplaceBack .unsatisfied, s.entries.length) := by
  rw [BasicSequence.add, if_pos (Nat.le_of_not_lt h)]

/-! ### Where an attachment stops -/

/-- The entries are allocated one after the other; the ones in front of the first full
sequence have been when `add` throws. -/
lemma addEach_full {before after : List Tag} {full : Tag} (hnd : (before ++ full :: after).Nodup)
    (hroom : ∀ t ∈ before, ¬ Full (seqs t)) (hfull : Full (seqs full)) :
    addEach seqs (before ++ full :: after) =
      (fun t => if t ∈ before then (seqs t).emplaceBack .unsatisfied else seqs t,
        .error outOfIds) := by
  induction before generalizing seqs with
  | nil => simp [addEach, add_of_full hfull]
  | cons tag before ih =>
    obtain ⟨hnot, hnd⟩ := List.nodup_cons.mp hnd
    have hne : ∀ t ∈ before ++ full :: after, t ≠ tag := by rintro t ht rfl; exact hnot ht
    have hold : ∀ t ∈ before, t ≠ tag := fun t ht => hne t (List.mem_append_left _ ht)
    have hroom' : ∀ t ∈ before,
        ¬ Full (Function.update seqs tag ((seqs tag).emplaceBack .unsatisfied) t) := by
      intro t ht
      rw [Function.update_of_ne (hold t ht)]
      exact hroom t (List.mem_cons_of_mem _ ht)
    have hfull' : Full (Function.update seqs tag ((seqs tag).emplaceBack .unsatisfied) full) := by
      rwa [Function.update_of_ne (hne full (by simp))]
    rw [List.cons_append, addEach, add_of_not_full (hroom tag List.mem_cons_self)]
    simp only [ih hnd hroom' hfull']
    congr 1
    ext t : 1
    by_cases ht : t = tag
    · subst ht
      have hout : t ∉ before := fun h => hold t h rfl
      simp [hout]
    · simp [ht]

/-- As long as there are ids, nothing can fail. -/
lemma addEach_ok {tags : List Tag} (hnd : tags.Nodup) (hroom : ∀ t ∈ tags, ¬ Full (seqs t)) :
    ∃ seqs' entries, addEach seqs tags = (seqs', .ok entries) := by
  rcases h : addEach seqs tags with ⟨seqs', e | entries⟩
  · obtain ⟨t, ht, hfull⟩ := addEach_eq_error hnd h
    exact absurd hfull (hroom t ht)
  · exact ⟨seqs', entries, rfl⟩

lemma exists_first_full {tags : List Tag} (h : ∃ t ∈ tags, Full (seqs t)) :
    ∃ before full after, tags = before ++ full :: after ∧ Full (seqs full) ∧
      ∀ t ∈ before, ¬ Full (seqs t) := by
  induction tags with
  | nil => simp at h
  | cons tag tags ih =>
    by_cases hfull : Full (seqs tag)
    · exact ⟨[], tag, tags, rfl, hfull, by simp⟩
    · have hrest : ∃ t ∈ tags, Full (seqs t) := by simpa [hfull] using h
      obtain ⟨before, full, after, rfl, hfirst, hroom⟩ := ih hrest
      refine ⟨tag :: before, full, after, rfl, hfirst, ?_⟩
      exact List.forall_mem_cons.mpr ⟨hfull, hroom⟩

/-! ### How constructing a control policy ends -/

/-- **A construction over a full sequence**: the exception of `add` reaches the `noexcept`
boundary of `make_sequence_entries`, and the sequences listed in front have been extended. -/
theorem construct_full {before after : List Tag} {full : Tag}
    (hlist : config.sequences = before ++ full :: after)
    (hroom : ∀ t ∈ before, ¬ Full (seqs t)) (hfull : Full (seqs full)) :
    ControlPolicy.construct seqs times config =
      (fun t => if t ∈ before then (seqs t).emplaceBack .unsatisfied else seqs t,
        .error .terminate) := by
  have hnd : (before ++ full :: after).Nodup := hlist ▸ config.nodup
  simp only [ControlPolicy.construct, makeSequenceEntries, hlist, addEach_full hnd hroom hfull,
    throwing_error, noexcept_error]

/-- **A construction succeeds** if and only if no listed sequence is full. -/
theorem construct_ok_iff : (∃ seqs' p, ControlPolicy.construct seqs times config = (seqs', .ok p)) ↔
    ∀ t ∈ config.sequences, ¬ Full (seqs t) := by
  constructor
  · rintro ⟨seqs', p, hcon⟩ t ht
    obtain ⟨-, hin, -⟩ := ControlPolicy.construct_eq_ok hcon
    exact Nat.not_lt_of_le (hin t ht).1
  · intro hroom
    obtain ⟨seqs', entries, hadd⟩ := addEach_ok config.nodup hroom
    simp [ControlPolicy.construct, makeSequenceEntries, hadd]

/-- The caller gets the exception of `add`, and no listed sequence has changed. -/
structure FailsCleanly (seqs : Sequences) (times : TimesConfig) (config : Config) : Prop where
  delivered : (ControlPolicy.construct seqs times config).2 = .error (.thrown outOfIds)
  unchanged : ∀ t ∈ config.sequences,
    ((ControlPolicy.construct seqs times config).1 t).entries = (seqs t).entries

/-- **Attaching to a full sequence terminates**, whatever else is listed, so it never fails
cleanly. -/
theorem attach_full_terminates (h : ∃ t ∈ config.sequences, Full (seqs t)) :
    (ControlPolicy.construct seqs times config).2 = .error .terminate ∧
      ¬ FailsCleanly seqs times config := by
  obtain ⟨before, full, after, hlist, hfull, hroom⟩ := exists_first_full h
  have hcon : ControlPolicy.construct seqs times config = _ := construct_full hlist hroom hfull
  refine ⟨by rw [hcon], fun hclean => ?_⟩
  have hdelivered := hclean.delivered
  rw [hcon] at hdelivered
  cases hdelivered

/-- A sequence all of whose ids are in use. -/
def fullSequence : BasicSequence := ⟨.lazy, List.replicate (intMax + 1) .satisfied, 0⟩

/-- The sequence at `0` is full, the others are empty. -/
def oneFull : Sequences := fun tag => if tag = 0 then fullSequence else .empty .lazy

lemma oneFull_full : Full (oneFull 0) := by simp [Full, oneFull, fullSequence]

lemma oneFull_room : ¬ Full (oneFull 1) := by simp [Full, oneFull, BasicSequence.empty]

lemma nodup_one_zero : [1, 0].Nodup := by decide

/-- An expectation that is never matched, in an empty sequence and in the full one. -/
def never : TimesConfig := ⟨0, 0, Nat.le_refl 0, Nat.zero_le _⟩
def emptyThenFull : Config := ⟨[1, 0], nodup_one_zero⟩

theorem attach_emptyThenFull :
    (ControlPolicy.construct oneFull never emptyThenFull).2 = .error .terminate ∧
      ¬ FailsCleanly oneFull never emptyThenFull :=
  attach_full_terminates ⟨0, by simp [emptyThenFull], oneFull_full⟩

/-- The empty sequence has an entry more when the full one is found to be full. -/
theorem emptyThenFull_extended :
    ¬ ∀ (seqs : Sequences) (times : TimesConfig) (config : Config),
      (∃ t ∈ config.sequences, Full (seqs t)) → FailsCleanly seqs times config := by
  intro h
  have hclean := h oneFull never emptyThenFull ⟨0, by simp [emptyThenFull], oneFull_full⟩
  have hlist : emptyThenFull.sequences = [1] ++ 0 :: [] := rfl
  have hcon : ControlPolicy.construct oneFull never emptyThenFull = _ :=
    construct_full hlist (by simp [oneFull_room]) oneFull_full
  have hunchanged := hclean.unchanged 1 (by simp [emptyThenFull])
  rw [hcon] at hunchanged
  simp [oneFull, BasicSequence.empty] at hunchanged

end MimicPP.Attachment

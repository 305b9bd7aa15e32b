import Mathlib.Data.List.Nodup
import MimicPP.Reports

/-!
Control policies: how often an expectation may be matched, and the sequences it waits for.

The sequences live outside the policies, since several policies share them; an operation
takes their current states and hands back the new ones.
-/

namespace MimicPP.Control

open MimicPP.Noexcept MimicPP.Sequence MimicPP.Reports

/-- The sequence objects, by address. -/
abbrev Sequences := Tag → BasicSequence

/-- The limits of an expectation; no other values get past the constructor. -/
structure TimesConfig where
  min : ℕ
  max : ℕ
  min_le_max : min ≤ max
  max_le_intMax : max ≤ intMax

/-- The constructor, called with two `int`s. -/
def TimesConfig.times (min max : ℤ) (hmax : max ≤ intMax) : Except StdError TimesConfig :=
  if h : min < 0 ∨ max < 0 ∨ max < min then
    .error (.invalidArgument
      "min must be less or equal to max and both must not be less than zero.")
  else .ok ⟨min.toNat, max.toNat, by omega, by omega⟩

/-- The sequences an expectation is to be attached to; the constructor rejects duplicates. -/
structure Config where
  sequences : List Tag
  nodup : sequences.Nodup

/-- Applies a member function to every listed sequence, in listing order. -/
def applyEach (f : BasicSequence → Id → BasicSequence) :
    Sequences → List (Tag × Id) → Sequences
  | seqs, [] => seqs
  | seqs, (tag, id) :: rest => applyEach f (Function.update seqs tag (f (seqs tag) id)) rest

/-- The body of `make_sequence_entries`: one new entry in every listed sequence, in listing
order. What was added before a failure stays. -/
def addEach : Sequences → List Tag → Sequences × Except StdError (List (Tag × Id))
  | seqs, [] => (seqs, .ok [])
  | seqs, tag :: tags =>
    match (seqs tag).add with
    | .error e => (seqs, .error e)
    | .ok (s, id) =>
      match addEach (Function.update seqs tag s) tags with
      | (seqs', .error e) => (seqs', .error e)
      | (seqs', .ok entries) => (seqs', .ok ((tag, id) :: entries))

def makeSequenceEntries (seqs : Sequences) (tags : List Tag) :
    Sequences × Except (Exit StdError) (List (Tag × Id)) :=
  ((addEach seqs tags).1, noexcept (throwing (addEach seqs tags).2))

/-- The ratings of the listed sequences that would accept the entry now. -/
def rate (seqs : Sequences) (entries : List (Tag × Id)) : List Rating :=
  entries.filterMap fun e => ((seqs e.1).priorityOf e.2).map fun p => ⟨p, e.1⟩

/-- The listed sequences that would not. -/
def refuse (seqs : Sequences) (entries : List (Tag × Id)) : List Tag :=
  (entries.filter fun e => ((seqs e.1).priorityOf e.2).isNone).map Prod.fst

def makeControlState (min max count : ℕ) (entries : List (Tag × Id)) (seqs : Sequences) :
    ControlState :=
  if count = max then .saturated min max count (entries.map Prod.fst)
  else if refuse seqs entries ≠ [] then
    .inapplicable min max count (rate seqs entries) (refuse seqs entries)
  else .applicable min max count (rate seqs entries)

structure ControlPolicy where
  min : ℕ
  max : ℕ
  count : ℕ
  sequences : List (Tag × Id)
  deriving DecidableEq, Repr

namespace ControlPolicy

def isSatisfied (p : ControlPolicy) : Bool := decide (p.min ≤ p.count) && decide (p.count ≤ p.max)

def isSaturated (p : ControlPolicy) : Bool := decide (p.count = p.max)

def isApplicable (p : ControlPolicy) (seqs : Sequences) : Bool :=
  decide (p.count < p.max) && p.sequences.all fun e => (seqs e.1).isConsumable e.2

def state (p : ControlPolicy) (seqs : Sequences) : ControlState :=
  makeControlState p.min p.max p.count p.sequences seqs

def updateSequenceStates (p : ControlPolicy) (seqs : Sequences) : Sequences :=
  if p.count = p.min then applyEach BasicSequence.setSatisfied seqs p.sequences
  else if p.count = p.max then applyEach BasicSequence.setSaturated seqs p.sequences
  else seqs

def increment (p : ControlPolicy) : ControlPolicy := { p with count := p.count + 1 }

/-- The cursors move first, then the count, and the new count decides the new entry states. -/
def consume (p : ControlPolicy) (seqs : Sequences) : ControlPolicy × Sequences :=
  let seqs := applyEach BasicSequence.consume seqs p.sequences
  let p := p.increment
  (p, p.updateSequenceStates seqs)

/-- The constructor. -/
def construct (seqs : Sequences) (times : TimesConfig) (config : Config) :
    Sequences × Except (Exit StdError) ControlPolicy :=
  match makeSequenceEntries seqs config.sequences with
  | (seqs', .error e) => (seqs', noexcept (.error e))
  | (seqs', .ok entries) =>
    let p : ControlPolicy := ⟨times.min, times.max, 0, entries⟩
    (p.updateSequenceStates seqs', .ok p)

/-- What the entries of an expectation say about its counter. -/
def entryState (p : ControlPolicy) : State :=
  if p.count < p.min then .unsatisfied
  else if p.count = p.min then .satisfied
  else if p.count = p.max then .saturated
  else .satisfied

end ControlPolicy

/-! ### Applying a member function to each sequence -/

variable {seqs seqs' : Sequences} {tag : Tag} {id : Id}

lemma applyEach_of_not_mem (f : BasicSequence → Id → BasicSequence) {l : List (Tag × Id)}
    (h : ∀ i, (tag, i) ∉ l) : applyEach f seqs l tag = seqs tag := by
  induction l generalizing seqs with
  | nil => rfl
  | cons e l ih =>
    have hne : tag ≠ e.1 := by rintro rfl; exact h e.2 (by simp)
    rw [applyEach, ih fun i hi => h i (List.mem_cons_of_mem _ hi), Function.update_of_ne hne]

lemma applyEach_of_mem (f : BasicSequence → Id → BasicSequence) {l : List (Tag × Id)}
    (hnd : (l.map Prod.fst).Nodup) (h : (tag, id) ∈ l) :
    applyEach f seqs l tag = f (seqs tag) id := by
  induction l generalizing seqs with
  | nil => cases h
  | cons e l ih =>
    obtain ⟨hnot, hnd⟩ := List.nodup_cons.mp hnd
    have hout : ∀ i, (e.1, i) ∉ l := fun i hi => hnot (List.mem_map.mpr ⟨_, hi, rfl⟩)
    rcases List.mem_cons.mp h with rfl | h
    · rw [applyEach, applyEach_of_not_mem f hout, Function.update_self]
    · have hne : tag ≠ e.1 := by rintro rfl; exact hout _ h
      rw [applyEach, ih hnd h, Function.update_of_ne hne]

/-- A successful attachment appends one unsatisfied entry to each listed sequence and leaves
the others alone. -/
lemma addEach_eq_ok {tags : List Tag} {entries : List (Tag × Id)} (hnd : tags.Nodup)
    (h : addEach seqs tags = (seqs', .ok entries)) :
    entries = tags.map (fun t => (t, (seqs t).entries.length)) ∧
      (∀ t ∈ tags, (seqs t).entries.length ≤ intMax ∧
        seqs' t = (seqs t).emplaceBack .unsatisfied) ∧
      ∀ t ∉ tags, seqs' t = seqs t := by
  induction tags generalizing seqs entries with
  | nil =>
    obtain ⟨rfl, rfl⟩ : seqs = seqs' ∧ entries = [] := by simpa [addEach, eq_comm] using h
    simp
  | cons tag tags ih =>
    obtain ⟨hnot, hnd⟩ := List.nodup_cons.mp hnd
    rcases hadd : (seqs tag).add with e | ⟨s, id⟩
    · simp [addEach, hadd] at h
    obtain ⟨hle, rfl, rfl⟩ := BasicSequence.add_eq_ok hadd
    rcases hrest : addEach (Function.update seqs tag ((seqs tag).emplaceBack .unsatisfied)) tags
      with ⟨seqs'', e | rest⟩
    · simp [addEach, hadd, hrest] at h
    obtain ⟨rfl, rfl⟩ : seqs'' = seqs' ∧ (tag, (seqs tag).entries.length) :: rest = entries := by
      simpa [addEach, hadd, hrest] using h
    obtain ⟨hentries, hin, hout⟩ := ih hnd hrest
    have hold : ∀ t ∈ tags, t ≠ tag := by rintro t ht rfl; exact hnot ht
    refine ⟨?_, ?_, ?_⟩
    · rw [hentries, List.map_cons, List.cons_inj_right]
      exact List.map_congr_left fun t ht => by rw [Function.update_of_ne (hold t ht)]
    · intro t ht
      rcases List.mem_cons.mp ht with rfl | ht
      · exact ⟨hle, by rw [hout t hnot, Function.update_self]⟩
      · have := hin t ht
        rwa [Function.update_of_ne (hold t ht)] at this
    · intro t ht
      rw [List.mem_cons, not_or] at ht
      rw [hout t ht.2, Function.update_of_ne ht.1]

/-- An attachment fails at a sequence that holds as many entries as there are ids. -/
lemma addEach_eq_error {tags : List Tag} {e : StdError} (hnd : tags.Nodup)
    (h : addEach seqs tags = (seqs', .error e)) :
    ∃ t ∈ tags, intMax < (seqs t).entries.length := by
  induction tags generalizing seqs seqs' e with
  | nil => simp [addEach] at h
  | cons tag tags ih =>
    obtain ⟨hnot, hnd⟩ := List.nodup_cons.mp hnd
    rcases hadd : (seqs tag).add with e' | ⟨s, id⟩
    · refine ⟨tag, List.mem_cons_self, ?_⟩
      by_contra hle
      simp [BasicSequence.add, Nat.le_of_not_lt hle] at hadd
    rcases hrest : addEach (Function.update seqs tag s) tags with ⟨seqs'', e' | rest⟩
    · obtain ⟨t, ht, hfull⟩ := ih hnd hrest
      have hne : t ≠ tag := by rintro rfl; exact hnot ht
      rw [Function.update_of_ne hne] at hfull
      exact ⟨t, List.mem_cons_of_mem _ ht, hfull⟩
    · simp [addEach, hadd, hrest] at h

/-! ### What a control policy says and does -/

namespace ControlPolicy

variable {p : ControlPolicy}

@[simp] lemma increment_min : p.increment.min = p.min := rfl
@[simp] lemma increment_max : p.increment.max = p.max := rfl
@[simp] lemma increment_count : p.increment.count = p.count + 1 := rfl
@[simp] lemma increment_sequences : p.increment.sequences = p.sequences := rfl
@[simp] lemma consume_fst : (p.consume seqs).1 = p.increment := rfl
lemma consume_snd : (p.consume seqs).2 =
    p.increment.updateSequenceStates (applyEach BasicSequence.consume seqs p.sequences) := rfl

lemma isApplicable_iff : p.isApplicable seqs = true ↔
    p.count < p.max ∧ ∀ tag id, (tag, id) ∈ p.sequences → (seqs tag).isConsumable id = true := by
  simp [isApplicable]

lemma refuse_eq_nil {entries : List (Tag × Id)} : refuse seqs entries = [] ↔
    ∀ tag id, (tag, id) ∈ entries → (seqs tag).isConsumable id = true := by
  simp only [refuse, List.map_eq_nil_iff, List.filter_eq_nil_iff, Option.isNone_iff_eq_none,
    BasicSequence.priorityOf_eq_none, Bool.not_eq_false]
  exact ⟨fun h tag id he => h (tag, id) he, fun h e he => h e.1 e.2 he⟩

/-- The rating each sequence gives an applicable policy. -/
def ratings (p : ControlPolicy) (seqs : Sequences) : List Rating :=
  p.sequences.map fun e => ⟨(seqs e.1).strategy.priority e.2 (seqs e.1).cursor, e.1⟩

lemma rate_eq_ratings
    (h : ∀ tag id, (tag, id) ∈ p.sequences → (seqs tag).isConsumable id = true) :
    rate seqs p.sequences = p.ratings seqs := by
  rw [rate, ratings, ← List.filterMap_eq_map]
  refine List.filterMap_congr fun e he => ?_
  simp [BasicSequence.priorityOf, h e.1 e.2 he]

/-- An applicable policy reports itself as applicable, with one rating per sequence. -/
lemma state_of_isApplicable (h : p.isApplicable seqs = true) :
    p.state seqs = .applicable p.min p.max p.count (p.ratings seqs) := by
  obtain ⟨hlt, hall⟩ := isApplicable_iff.mp h
  rw [state, makeControlState, if_neg (by omega), if_neg (by simpa using refuse_eq_nil.mpr hall),
    rate_eq_ratings hall]

/-- **The two ways of asking agree**: the control state is the applicable one exactly when
`is_applicable` holds. -/
theorem state_isApplicable (hle : p.count ≤ p.max) :
    (p.state seqs).isApplicable = p.isApplicable seqs := by
  by_cases h : p.isApplicable seqs = true
  · rw [state_of_isApplicable h, h, ControlState.isApplicable]
  · rw [Bool.not_eq_true] at h
    rw [h, state, makeControlState]
    split
    · rfl
    · split
      · rfl
      · rename_i hne hrefuse
        rw [not_not, refuse_eq_nil] at hrefuse
        rw [isApplicable_iff.mpr ⟨by omega, hrefuse⟩] at h
        cases h

lemma updateSequenceStates_of_not_mem (h : ∀ i, (tag, i) ∉ p.sequences) :
    p.updateSequenceStates seqs tag = seqs tag := by
  unfold updateSequenceStates
  split
  · exact applyEach_of_not_mem _ h
  · split
    · exact applyEach_of_not_mem _ h
    · rfl

lemma consume_of_not_mem (h : ∀ i, (tag, i) ∉ p.sequences) :
    (p.consume seqs).2 tag = seqs tag := by
  rw [consume_snd, updateSequenceStates_of_not_mem (by simpa using h), applyEach_of_not_mem _ h]

/-- The update writes the state the new count calls for into each of the policy's entries,
provided that an entry at neither limit has it already. -/
lemma updateSequenceStates_of_mem (hnd : (p.sequences.map Prod.fst).Nodup)
    (h : (tag, id) ∈ p.sequences) (hmin : p.min ≤ p.max)
    (hkeep : p.count ≠ p.min → p.count ≠ p.max → (seqs tag).entries[id]? = some p.entryState) :
    p.updateSequenceStates seqs tag = (seqs tag).setState id p.entryState := by
  unfold updateSequenceStates
  split
  · rw [applyEach_of_mem _ hnd h, BasicSequence.setSatisfied, entryState, if_neg (by omega),
      if_pos ‹_›]
  · split
    · rw [applyEach_of_mem _ hnd h, BasicSequence.setSaturated, entryState, if_neg (by omega),
        if_neg ‹_›, if_pos ‹_›]
    · exact (BasicSequence.setState_self (hkeep ‹_› ‹_›)).symm

/-- Strictly between the limits the entry state does not depend on the count. -/
lemma entryState_increment (hmin : p.count + 1 ≠ p.min) (hmax : p.count + 1 ≠ p.max)
    (hlt : p.count < p.max) : p.increment.entryState = p.entryState := by
  simp only [entryState, increment_min, increment_max, increment_count]
  grind

/-- **What consuming does to a sequence of the policy**: the cursor moves to the policy's
entry, and the entry gets the state of the new count. -/
theorem consume_of_mem (hnd : (p.sequences.map Prod.fst).Nodup) (h : (tag, id) ∈ p.sequences)
    (hst : (seqs tag).entries[id]? = some p.entryState) (hmin : p.min ≤ p.max)
    (hlt : p.count < p.max) :
    (p.consume seqs).2 tag = ((seqs tag).consume id).setState id p.increment.entryState := by
  have heach : applyEach BasicSequence.consume seqs p.sequences tag = (seqs tag).consume id :=
    applyEach_of_mem _ hnd h
  have hmem : (tag, id) ∈ p.increment.sequences := h
  rw [consume_snd, updateSequenceStates_of_mem (by simpa using hnd) hmem (by simpa using hmin),
    heach]
  intro hne hne'
  rw [heach, BasicSequence.consume_entries, hst, entryState_increment hne hne' hlt]

/-- **What a successful construction does**: one new entry per listed sequence, in listing
order, in the state of a fresh counter; the other sequences stay as they are. -/
theorem construct_eq_ok {times : TimesConfig} {config : Config}
    (h : construct seqs times config = (seqs', .ok p)) :
    p = ⟨times.min, times.max, 0,
        config.sequences.map fun t => (t, (seqs t).entries.length)⟩ ∧
      (∀ t ∈ config.sequences, (seqs t).entries.length ≤ intMax ∧
        seqs' t = (seqs t).emplaceBack p.entryState) ∧
      ∀ t ∉ config.sequences, seqs' t = seqs t := by
  rcases hadd : addEach seqs config.sequences with ⟨added, e | entries⟩
  · simp [construct, makeSequenceEntries, hadd] at h
  obtain ⟨hupd, rfl⟩ : updateSequenceStates ⟨times.min, times.max, 0, entries⟩ added = seqs' ∧
      ⟨times.min, times.max, 0, entries⟩ = p := by
    simpa [construct, makeSequenceEntries, hadd] using h
  obtain ⟨hentries, hin, hout⟩ := addEach_eq_ok config.nodup hadd
  have hfst : entries.map Prod.fst = config.sequences := by
    rw [hentries, List.map_map]; simp [Function.comp_def]
  refine ⟨by rw [hentries], ?_, ?_⟩
  · intro t ht
    obtain ⟨hle, hadded⟩ := hin t ht
    refine ⟨hle, ?_⟩
    have hmem : (t, (seqs t).entries.length) ∈ entries := by
      rw [hentries]; exact List.mem_map.mpr ⟨t, ht, rfl⟩
    rw [← hupd, updateSequenceStates_of_mem (by rw [hfst]; exact config.nodup) hmem
      times.min_le_max, hadded, BasicSequence.emplaceBack_setState]
    intro hne hne'
    have hpos : 0 < times.min := by simp only at hne; omega
    simp [hadded, entryState, hpos]
  · intro t ht
    have hnot : ∀ i, (t, i) ∉ entries := fun i hi =>
      ht (by rw [← hfst]; exact List.mem_map.mpr ⟨_, hi, rfl⟩)
    rw [← hupd, updateSequenceStates_of_not_mem hnot, hout t ht]

/-- A construction that fails terminates, since attaching is `noexcept`. -/
lemma construct_eq_error {times : TimesConfig} {config : Config} {exit : Exit StdError}
    (h : construct seqs times config = (seqs', .error exit)) :
    exit = .terminate ∧ ∃ t ∈ config.sequences, intMax < (seqs t).entries.length := by
  rcases hadd : addEach seqs config.sequences with ⟨added, e | entries⟩
  · obtain ⟨-, rfl⟩ : added = seqs' ∧ Exit.terminate = exit := by
      simpa [construct, makeSequenceEntries, hadd] using h
    exact ⟨rfl, addEach_eq_error config.nodup hadd⟩
  · simp [construct, makeSequenceEntries, hadd] at h

/-! ### What a control policy always satisfies -/

/-- The count stays within the limits, the limits within `int`, and no sequence is listed
twice. -/
structure Valid (p : ControlPolicy) : Prop where
  min_le_max : p.min ≤ p.max
  count_le_max : p.count ≤ p.max
  max_le_intMax : p.max ≤ intMax
  nodup : (p.sequences.map Prod.fst).Nodup

lemma Valid.increment (h : p.Valid) (hlt : p.count < p.max) : p.increment.Valid :=
  ⟨h.min_le_max, hlt, h.max_le_intMax, h.nodup⟩

lemma Valid.position_unique {id' : Id} (h : p.Valid) (hid : (tag, id) ∈ p.sequences)
    (hid' : (tag, id') ∈ p.sequences) : id = id' :=
  congrArg Prod.snd (List.inj_on_of_nodup_map h.nodup hid hid' rfl)

lemma entryState_ne_unsatisfied : p.entryState ≠ .unsatisfied ↔ p.min ≤ p.count := by
  unfold entryState
  split
  · simp; omega
  · split
    · simp; omega
    · split <;> simp <;> omega

/-- An entry is saturated only if its counter is. -/
lemma entryState_eq_saturated (h : p.entryState = .saturated) : p.count = p.max := by
  unfold entryState at h
  split at h
  · cases h
  · split at h
    · cases h
    · split at h
      · assumption
      · cases h

end ControlPolicy

end MimicPP.Control

import MimicPP.Chain

/-!
The integers of sequences and counters, computed the way the program computes them.

An `int` has 32 bits. An operation whose result is not representable is undefined, and a
conversion from a size to an id wraps around. A sequence can run out of ids, and a chain that
lists it then ends the program.
-/

namespace MimicPP.Bounds

open MimicPP.Noexcept MimicPP.Sequence MimicPP.Reports MimicPP.Control MimicPP.Expectation
open MimicPP.Matching MimicPP.Transition MimicPP.Runs MimicPP.Invariant

/-! ### Operations on machine integers -/

def intMin : ℤ := -2147483648

/-- The result of an operation on `int`s. -/
def asInt (z : ℤ) : Option ℤ := if intMin ≤ z ∧ z ≤ intMax then some z else none

/-- `static_cast<IdT>(m_Entries.size() - 1)` -/
def castId (size : ℕ) : ℤ := Int.bmod ((size : ℤ) - 1) 4294967296

/-- `BasicSequence::add`. -/
def addInt (s : BasicSequence) : Except StdError (BasicSequence × ℤ) :=
  if s.entries.length ≤ intMax then
    let s' := s.emplaceBack .unsatisfied
    .ok (s', castId s'.entries.length)
  else .error (.runtimeError "Sequence already holds maximum amount of elements.")

/-- `LazyStrategy` and `GreedyStrategy`, subtraction by subtraction. -/
def priorityInt : Strategy → ℤ → ℤ → Option ℤ
  | .lazy, index, cursor => (asInt (index - cursor)).bind fun distance => asInt (intMax - distance)
  | .greedy, index, cursor => asInt (index - cursor)

/-- `++m_Count` -/
def incrementInt (count : ℤ) : Option ℤ := asInt (count + 1)

lemma asInt_of_nonneg {z : ℤ} (h0 : 0 ≤ z) (hmax : z ≤ intMax) : asInt z = some z := by
  rw [asInt, intMin, if_pos ⟨by omega, hmax⟩]

lemma castId_succ {n : ℕ} (h : n ≤ intMax) : castId (n + 1) = n := by
  have hmax : n ≤ 2147483647 := h
  rw [castId, Int.bmod_eq_of_le] <;> omega

/-- The check in front of the insertion is the one the conversion needs. -/
lemma addInt_eq (s : BasicSequence) :
    addInt s = s.add.map fun r => (r.1, (r.2 : ℤ)) := by
  unfold addInt BasicSequence.add
  split
  · rename_i hle
    simp [Except.map, castId_succ hle]
  · rfl

variable {strategy : Strategy} {id id' cursor : ℕ}

/-- The priorities stay within `int` when the id does and the cursor has not passed it. -/
lemma priority_bounds (hcur : cursor ≤ id) (hmax : id ≤ intMax) :
    priorityInt strategy id cursor = some (strategy.priority id cursor) ∧
      0 ≤ strategy.priority id cursor ∧ strategy.priority id cursor ≤ intMax := by
  have hdistance : asInt ((id : ℤ) - cursor) = some ((id : ℤ) - cursor) :=
    asInt_of_nonneg (by omega) (by omega)
  cases strategy with
  | lazy =>
    simp only [priorityInt, Strategy.priority, hdistance, Option.bind_some]
    exact ⟨asInt_of_nonneg (by omega) (by omega), by omega, by omega⟩
  | greedy =>
    simp only [priorityInt, Strategy.priority]
    exact ⟨hdistance, by omega, by omega⟩

lemma priority_injective (h : strategy.priority id cursor = strategy.priority id' cursor) :
    id = id' := by
  cases strategy <;> simp only [Strategy.priority] at h <;> omega

/-! ### No overflow in a reachable world -/

variable {σ Call Ret Exc : Type} {w w' : World σ Call Ret Exc}

/-- What the machine integers of a world are computed to. -/
structure NoOverflow (w : World σ Call Ret Exc) : Prop where
  /-- A new id is the index of its entry, and none that was handed out before. -/
  newId : ∀ {tag s} {new : ℤ}, addInt (w.seqs tag) = .ok (s, new) →
    0 ≤ new ∧ new = (w.seqs tag).entries.length ∧
      s.entries = (w.seqs tag).entries ++ [.unsatisfied] ∧
      ∀ e p (id : Id), Attached w e p tag id → (id : ℤ) ≠ new
  count : ∀ {c call m p}, chosen w c call = some m → policyOf w m.1 = some p →
    incrementInt p.count = some (p.count + 1 : ℕ) ∧ p.count + 1 ≤ intMax
  priority : ∀ {tag} {id : Id} (strategy : Strategy), (w.seqs tag).isConsumable id = true →
    priorityInt strategy id (w.seqs tag).cursor =
        some (strategy.priority id (w.seqs tag).cursor) ∧
      0 ≤ strategy.priority id (w.seqs tag).cursor ∧
      strategy.priority id (w.seqs tag).cursor ≤ intMax
  distinct : ∀ {tag} {id id' : Id} (strategy : Strategy), (w.seqs tag).isConsumable id = true →
    (w.seqs tag).isConsumable id' = true → id ≠ id' →
    priorityInt strategy id (w.seqs tag).cursor ≠ priorityInt strategy id' (w.seqs tag).cursor

lemma consumable_bounds (hI : Inv w) {tag : Tag} (h : (w.seqs tag).isConsumable id = true) :
    (w.seqs tag).cursor ≤ id ∧ id ≤ intMax := by
  have hlt : id < (w.seqs tag).entries.length := BasicSequence.isConsumable_lt h
  have hle := (hI.valid_seqs tag).length_le
  exact ⟨(BasicSequence.isConsumable_iff.mp h).1, by omega⟩

/-- **No integer overflows** in the sequences and counters of a reachable world. -/
theorem noOverflow (h : Reachable w) : NoOverflow w := by
  have hI := reachable_inv h
  refine ⟨fun {tag s new} hadd => ?_, fun {c call m p} hm hp => ?_,
    fun strategy hc => ?_, fun strategy hc hc' hne heq => ?_⟩
  · rw [addInt_eq] at hadd
    rcases hok : (w.seqs tag).add with exc | ⟨s', id⟩
    · rw [hok] at hadd; cases hadd
    · rw [hok] at hadd
      cases hadd
      obtain ⟨-, rfl, rfl⟩ := BasicSequence.add_eq_ok hok
      refine ⟨Int.natCast_nonneg _, rfl, rfl, fun e p id ha => ?_⟩
      have hlt := hI.attached_lt ha
      simp only
      omega
  · -- what is consumed is applicable, and so has not reached its limit
    obtain ⟨q, hq, -, happ⟩ := hI.applicable_of_chosen hm
    obtain rfl : p = q := Option.some.inj (hp.symm.trans hq)
    have hlt := (ControlPolicy.isApplicable_iff.mp happ).1
    have hmax := (hI.valid hp).max_le_intMax
    have hle : p.count + 1 ≤ intMax := by omega
    exact ⟨asInt_of_nonneg (by omega) (by omega), hle⟩
  · obtain ⟨hcur, hmax⟩ := consumable_bounds hI hc
    exact priority_bounds hcur hmax
  · obtain ⟨hcur, hmax⟩ := consumable_bounds hI hc
    obtain ⟨hcur', hmax'⟩ := consumable_bounds hI hc'
    rw [(priority_bounds hcur hmax).1, (priority_bounds hcur' hmax').1, Option.some_inj] at heq
    exact hne (priority_injective heq)

/-! ### The bounds are attained -/

/-- An optional expectation without an upper limit. -/
def unlimited : Builder Unit Unit Unit Unit := anyCall 0 0 intMax [0] ()

/-- One such expectation after the other, all in one sequence. -/
def filled : ℕ → World Unit Unit Unit Unit
  | 0 => start (quietReporter ()) () fun _ => .lazy
  | n + 1 => (unlimited.finalize ⟨"", 0⟩ (filled n)).1

lemma unlimited_sequences : unlimited.sequenceConfig.sequences = [0] := by
  simp [unlimited, anyCall]

lemma unlimited_times : unlimited.timesConfig.min = 0 ∧ unlimited.timesConfig.max = intMax := by
  simp [unlimited, anyCall, limits]

/-- **A sequence can be filled** to the last id, with expectations that have no limit. -/
theorem filled_reachable {n : ℕ} (h : n ≤ intMax + 1) :
    Reachable (filled n) ∧ (filled n).seqs 0 = ⟨.lazy, List.replicate n .satisfied, 0⟩ := by
  induction n with
  | zero => exact ⟨.init (start_fresh _ _ _), rfl⟩
  | succ n ih =>
    obtain ⟨hreach, hseq⟩ := ih (by omega)
    have hroom : ∀ t ∈ unlimited.sequenceConfig.sequences,
        ((filled n).seqs t).entries.length ≤ intMax := by
      rw [unlimited_sequences, List.forall_mem_singleton, hseq, List.length_replicate]
      omega
    obtain ⟨w', e, hfin⟩ := finalize_of_room ⟨"", 0⟩ hroom
    have hfilled : filled (n + 1) = w' := by rw [filled, hfin]
    obtain ⟨-, hcreated⟩ := finalize_created hfin
    refine ⟨.step (.create unlimited ⟨"", 0⟩) hreach (by simp [machine, step, hfin, hfilled]), ?_⟩
    rcases hcreated.seqs 0 with ⟨-, -, hs⟩ | ⟨hout, -⟩
    · have hstate : (newPolicy (filled n) unlimited).entryState = .satisfied := by
        simp [newPolicy, ControlPolicy.entryState, unlimited_times]
      rw [hfilled, hs, hseq, hstate, List.replicate_succ', BasicSequence.emplaceBack]
    · exact absurd (mem_newPolicy.mpr ⟨by simp [unlimited_sequences], rfl⟩) (hout _)

/-- With all ids in use, the first and the last one have the extreme priorities. -/
theorem noOverflow_filled : NoOverflow (filled (intMax + 1)) ∧
    ((filled (intMax + 1)).seqs 0).priorityOf 0 = some (intMax : ℤ) ∧
    ((filled (intMax + 1)).seqs 0).priorityOf intMax = some 0 := by
  obtain ⟨hreach, hseq⟩ := filled_reachable (Nat.le_refl (intMax + 1))
  have hpriority : ∀ id : ℕ, id ≤ intMax →
      ((filled (intMax + 1)).seqs 0).priorityOf id = some ((intMax : ℤ) - id) := by
    intro id hid
    have hc : (⟨.lazy, List.replicate (intMax + 1) .satisfied, 0⟩ :
        BasicSequence).isConsumable id = true := by
      refine BasicSequence.isConsumable_iff.mpr
        ⟨Nat.zero_le _, fun j _ hj => ?_, .satisfied, ?_, ?_⟩
      · rw [List.getElem?_replicate]
        split <;> simp
      · rw [List.getElem?_replicate, if_pos (by omega)]
      · simp
    rw [hseq, BasicSequence.priorityOf, if_pos hc]
    simp [Strategy.priority]
  refine ⟨noOverflow hreach, ?_, ?_⟩
  · simpa using hpriority 0 (Nat.zero_le _)
  · simpa using hpriority intMax (Nat.le_refl _)

/-! ### Chains that list a sequence without ids -/

section chains

open MimicPP.Chain

variable {σ Call Ret Exc : Type}

/-- A chain throws exactly for a duplicate, over which nothing changes, and otherwise the
expectation is attached to what was listed. -/
structure Orderly (storage : CollId) (initFinalize : σ → Call → σ × Except Exc Ret)
    (steps : List (Step σ Call Ret Exc)) (loc : SourceLocation) (w : World σ Call Ret Exc) :
    Prop where
  throws_iff : (∃ what, (create (makeExpectationBuilder storage initFinalize) steps loc w).2 =
    .error (.thrown (.invalidArgument what))) ↔ ¬ (listed steps).Nodup
  unchanged : ¬ (listed steps).Nodup →
    (create (makeExpectationBuilder storage initFinalize) steps loc w).1 = w
  attached : (listed steps).Nodup → ∃ w' e,
    create (makeExpectationBuilder storage initFinalize) steps loc w = (w', .ok e) ∧
      AttachedTo w (listed steps) e w'

/-- What is attached got an id from every listed sequence. -/
lemma room_of_create {b : Builder σ Call Ret Exc} {steps : List (Step σ Call Ret Exc)}
    {loc : SourceLocation} {w w' : World σ Call Ret Exc} {e : ExpId}
    (h : create b steps loc w = (w', .ok e)) :
    ∀ t ∈ listed steps, (w.seqs t).entries.length ≤ intMax := by
  intro t ht
  rcases chain_cases b steps with ⟨-, herr⟩ | ⟨b', hok, hseqs⟩
  · simp [create, herr] at h
  · simp only [create, hok] at h
    obtain ⟨p, seqs, hcon, -, -⟩ := finalize_eq_ok h
    obtain ⟨-, hin, -⟩ := ControlPolicy.construct_eq_ok hcon
    exact (hin t (hseqs ▸ List.mem_append_right _ ht)).1

/-- **When a chain is orderly**: it lists a sequence twice, or every sequence it lists has an id
left. -/
theorem create_orderly_iff (storage : CollId) (initFinalize : σ → Call → σ × Except Exc Ret)
    (steps : List (Step σ Call Ret Exc)) (loc : SourceLocation) (w : World σ Call Ret Exc) :
    Orderly storage initFinalize steps loc w ↔
      ¬ (listed steps).Nodup ∨ ∀ t ∈ listed steps, (w.seqs t).entries.length ≤ intMax := by
  obtain ⟨hthrows, hunchanged, hattached⟩ := create_outcome storage initFinalize steps loc w
  constructor
  · intro h
    by_cases hnd : (listed steps).Nodup
    · obtain ⟨w', e, hcreate, -⟩ := h.attached hnd
      exact .inr (room_of_create hcreate)
    · exact .inl hnd
  · refine fun hcond => ⟨hthrows, hunchanged, fun hnd => ?_⟩
    rcases hattached hnd with hok | ⟨-, t, ht, hfull⟩
    · exact hok
    · exact absurd (hcond.resolve_left (not_not.mpr hnd) t ht) (Nat.not_le_of_lt hfull)

/-- The id that is missing ends the program. -/
theorem chain_of_filled_sequence :
    ¬ ∀ (steps : List (Step Unit Unit Unit Unit)) (w : World Unit Unit Unit Unit), Reachable w →
      Orderly 0 (fun env _ => (env, .ok ())) steps ⟨"", 0⟩ w := by
  intro h
  obtain ⟨hreach, hseq⟩ := filled_reachable (Nat.le_refl (intMax + 1))
  obtain ⟨w', e, hcreate, -⟩ :=
    (h [.inSequences [0]] (filled (intMax + 1)) hreach).attached (List.nodup_singleton 0)
  have hroom := room_of_create hcreate 0 (List.mem_singleton_self 0)
  rw [hseq, List.length_replicate] at hroom
  omega

end chains

end MimicPP.Bounds

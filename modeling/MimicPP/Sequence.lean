import Mathlib.Tactic.Common
import Mathlib.Logic.Function.Basic
import Mathlib.Data.List.Basic
import Mathlib.Data.Int.Basic
import MimicPP.Noexcept

/-!
Sequences, their two priority strategies, and the comparison of ratings.

A sequence keeps one state for every expectation attached to it, in the order of
attachment, and a cursor that stands at the entry consumed last. Ids are the indices of
the entries.
-/

namespace MimicPP.Sequence

open MimicPP.Noexcept

/-- The largest value of an `int`, and so of `sequence::Id`. -/
def intMax : ℕ := 2147483647

/-- The address of a sequence object. -/
abbrev Tag := ℕ
abbrev Id := ℕ

/-- The exceptions the library itself throws. -/
inductive StdError
  | runtimeError (what : String)
  | invalidArgument (what : String)
  deriving DecidableEq, Repr

inductive State
  | unsatisfied | satisfied | saturated
  deriving DecidableEq, Repr

/-- The condition under which the scans of a sequence pass an entry. -/
def State.isDone (s : State) : Bool := s == .satisfied || s == .saturated

inductive Strategy
  | lazy | greedy
  deriving DecidableEq, Repr

/-- The priority of an id relative to the cursor. -/
def Strategy.priority : Strategy → Id → ℕ → ℤ
  | .lazy, id, cursor => (intMax : ℤ) - ((id : ℤ) - (cursor : ℤ))
  | .greedy, id, cursor => (id : ℤ) - (cursor : ℤ)

structure BasicSequence where
  strategy : Strategy
  entries : List State
  cursor : ℕ
  deriving DecidableEq, Repr

namespace BasicSequence

def isValid (s : BasicSequence) (id : Id) : Bool := decide (id < s.entries.length)

def isConsumable (s : BasicSequence) (id : Id) : Bool :=
  decide (s.cursor ≤ id)
    && ((s.entries.take id).drop s.cursor).all State.isDone
    && (s.entries[id]? == some .unsatisfied || s.entries[id]? == some .satisfied)

def priorityOf (s : BasicSequence) (id : Id) : Option ℤ :=
  if s.isConsumable id then some (s.strategy.priority id s.cursor) else none

def setState (s : BasicSequence) (id : Id) (st : State) : BasicSequence :=
  { s with entries := s.entries.set id st }

def setSatisfied (s : BasicSequence) (id : Id) : BasicSequence := s.setState id .satisfied

def setSaturated (s : BasicSequence) (id : Id) : BasicSequence := s.setState id .saturated

def consume (s : BasicSequence) (id : Id) : BasicSequence := { s with cursor := id }

def emplaceBack (s : BasicSequence) (st : State) : BasicSequence :=
  { s with entries := s.entries ++ [st] }

/-- The size is checked before the insertion, so the last id handed out is `intMax`. -/
def add (s : BasicSequence) : Except StdError (BasicSequence × Id) :=
  if s.entries.length ≤ intMax then .ok (s.emplaceBack .unsatisfied, s.entries.length)
  else .error (.runtimeError "Sequence already holds maximum amount of elements.")

/-- The destructor: the text handed to `report_error`, if there is a report. -/
def destroy (s : BasicSequence) : Option String :=
  ((s.entries.drop s.cursor).findIdx? fun st => !st.isDone).map fun i =>
    "Unfulfilled sequence. " ++ toString (s.cursor + i) ++ " out of "
      ++ toString s.entries.length ++ " expectation(s) are satisfied."

end BasicSequence

/-- A sequence nothing has been attached to. -/
def BasicSequence.empty (strategy : Strategy) : BasicSequence := ⟨strategy, [], 0⟩

structure Rating where
  priority : ℤ
  tag : Tag
  deriving DecidableEq, Repr

/-- The loop of `has_better_rating`, entered with the votes counted so far. -/
def betterRatingLoop (rhs : List Rating) : ℤ → List Rating → Bool
  | rating, [] => decide (0 ≤ rating)
  | rating, l :: lhs =>
    match rhs.find? (fun r => r.tag == l.tag) with
    | some r => betterRatingLoop rhs (rating + if l.priority < r.priority then -1 else 1) lhs
    | none => true

def hasBetterRating (lhs rhs : List Rating) : Bool := betterRatingLoop rhs 0 lhs

/-! ### What the scans of a sequence decide -/

@[simp] lemma State.isDone_iff (s : State) : s.isDone = true ↔ s ≠ .unsatisfied := by
  cases s <;> simp [State.isDone]

namespace BasicSequence

variable {s : BasicSequence} {id : Id}

/-- An entry is consumable when the cursor has not passed it, everything between the cursor
and it is done, and it is not saturated itself. -/
lemma isConsumable_iff :
    s.isConsumable id = true ↔ s.cursor ≤ id ∧
      (∀ j, s.cursor ≤ j → j < id → s.entries[j]? ≠ some .unsatisfied) ∧
      ∃ st, s.entries[id]? = some st ∧ st ≠ .saturated := by
  have hscan : ((s.entries.take id).drop s.cursor).all State.isDone = true ↔
      ∀ j, s.cursor ≤ j → j < id → s.entries[j]? ≠ some .unsatisfied := by
    simp only [List.all_eq_true, State.isDone_iff]
    constructor
    · intro h j hcj hj he
      refine h .unsatisfied ?_ rfl
      refine List.mem_iff_getElem?.mpr ⟨j - s.cursor, ?_⟩
      rw [List.getElem?_drop, List.getElem?_take, if_pos (by omega)]
      rw [show s.cursor + (j - s.cursor) = j by omega, he]
    · intro h st hst
      obtain ⟨k, hk⟩ := List.mem_iff_getElem?.mp hst
      rw [List.getElem?_drop, List.getElem?_take] at hk
      by_cases hlt : s.cursor + k < id
      · rw [if_pos hlt] at hk
        rintro rfl
        exact h _ (by omega) hlt hk
      · rw [if_neg hlt] at hk; cases hk
  have hown : (s.entries[id]? == some .unsatisfied || s.entries[id]? == some .satisfied) = true ↔
      ∃ st, s.entries[id]? = some st ∧ st ≠ .saturated := by
    rcases s.entries[id]? with _ | st
    · simp
    · cases st <;> simp
  rw [isConsumable, Bool.and_eq_true, Bool.and_eq_true, hscan, hown, decide_eq_true_iff, and_assoc]

lemma isConsumable_lt (h : s.isConsumable id = true) : id < s.entries.length := by
  obtain ⟨-, -, st, hst, -⟩ := isConsumable_iff.mp h
  exact (List.getElem?_eq_some_iff.mp hst).1

lemma priorityOf_eq_none : s.priorityOf id = none ↔ s.isConsumable id = false := by
  unfold priorityOf
  split <;> simp_all

@[simp] lemma setState_strategy (st : State) : (s.setState id st).strategy = s.strategy := rfl
@[simp] lemma setState_cursor (st : State) : (s.setState id st).cursor = s.cursor := rfl
@[simp] lemma setState_entries (st : State) :
    (s.setState id st).entries = s.entries.set id st := rfl
@[simp] lemma emplaceBack_strategy (st : State) : (s.emplaceBack st).strategy = s.strategy := rfl
@[simp] lemma emplaceBack_cursor (st : State) : (s.emplaceBack st).cursor = s.cursor := rfl
@[simp] lemma emplaceBack_entries (st : State) :
    (s.emplaceBack st).entries = s.entries ++ [st] := rfl
@[simp] lemma consume_strategy : (s.consume id).strategy = s.strategy := rfl
@[simp] lemma consume_cursor : (s.consume id).cursor = id := rfl
@[simp] lemma consume_entries : (s.consume id).entries = s.entries := rfl

/-- Writing the state an entry has changes nothing. -/
lemma setState_self {st : State} (h : s.entries[id]? = some st) : s.setState id st = s := by
  obtain ⟨hlt, rfl⟩ := List.getElem?_eq_some_iff.mp h
  rw [setState, List.set_getElem_self]

/-- Writing the entry appended last. -/
lemma emplaceBack_setState (st st' : State) :
    (s.emplaceBack st).setState s.entries.length st' = s.emplaceBack st' := by
  simp [emplaceBack, setState]

lemma add_eq_ok {t : BasicSequence} (h : s.add = .ok (t, id)) :
    s.entries.length ≤ intMax ∧ id = s.entries.length ∧ t = s.emplaceBack .unsatisfied := by
  unfold add at h
  split at h
  · cases h; exact ⟨‹_›, rfl, rfl⟩
  · cases h

/-! ### What a sequence always satisfies -/

/-- The cursor stands within the entries or just behind them, ids stay within `int`, and
everything left of the cursor is done. -/
structure Valid (s : BasicSequence) : Prop where
  cursor_le : s.cursor ≤ s.entries.length
  length_le : s.entries.length ≤ intMax + 1
  passed : ∀ {i : ℕ}, i < s.cursor → s.entries[i]? ≠ some .unsatisfied

lemma valid_empty (strategy : Strategy) : (empty strategy).Valid where
  cursor_le := Nat.le_refl _
  length_le := Nat.zero_le _
  passed hi := absurd hi (Nat.not_lt_zero _)

lemma Valid.emplaceBack {st : State} (h : s.Valid) (hle : s.entries.length ≤ intMax) :
    (s.emplaceBack st).Valid where
  cursor_le := by
    have hcur := h.cursor_le
    simp only [emplaceBack_cursor, emplaceBack_entries, List.length_append,
      List.length_singleton]
    omega
  length_le := by simpa using hle
  passed := by
    intro i hi
    have hlt : i < s.entries.length := Nat.lt_of_lt_of_le hi h.cursor_le
    rw [emplaceBack_entries, List.getElem?_append_left hlt]
    exact h.passed hi

/-- Everything before an accepted entry is done, left of the cursor as well as right of it. -/
lemma Valid.done_of_consumable (h : s.Valid) (hc : s.isConsumable id = true) {i : ℕ}
    (hi : i < id) : s.entries[i]? ≠ some .unsatisfied := by
  obtain ⟨-, hscan, -⟩ := isConsumable_iff.mp hc
  rcases Nat.lt_or_ge i s.cursor with hcur | hcur
  · exact h.passed hcur
  · exact hscan i hcur hi

/-- The cursor may move to an entry the sequence accepts. -/
lemma Valid.consume {st : State} (h : s.Valid) (hc : s.isConsumable id = true) :
    ((s.consume id).setState id st).Valid where
  cursor_le := by
    have hlt := isConsumable_lt hc
    simpa using Nat.le_of_lt hlt
  length_le := by simpa using h.length_le
  passed := by
    intro i hi
    have hne : id ≠ i := Nat.ne_of_gt hi
    rw [setState_entries, consume_entries, List.getElem?_set_ne hne]
    exact h.done_of_consumable hc hi

end BasicSequence

end MimicPP.Sequence

import Mathlib.Algebra.GroupWithZero.Nat
import Mathlib.Algebra.Order.BigOperators.Group.List
import Mathlib.Algebra.Order.Group.Nat
import Mathlib.Data.List.GetD
import Mathlib.Data.Nat.Find

/-!
Bins of given capacities that are filled one unit at a time, each only when the ones before
it are full.
-/

namespace MimicPP.Filling

/-- The room in front of a bin. -/
def before (caps : List ℕ) (i : ℕ) : ℕ := (caps.take i).sum

/-- What a bin holds after `k` units. -/
def level (caps : List ℕ) (k i : ℕ) : ℕ := min (caps.getD i 0) (k - before caps i)

/-- The unit number `k`, counted from zero, goes into the bin `i`. -/
structure Turn (caps : List ℕ) (k i : ℕ) : Prop where
  before_le : before caps i ≤ k
  lt_before : k < before caps (i + 1)

variable {caps : List ℕ} {k i j : ℕ}

lemma before_succ : before caps (i + 1) = before caps i + caps.getD i 0 := by
  rw [before, before, List.take_add_one, List.sum_append, List.getD_eq_getElem?_getD]
  rcases caps[i]? with _ | cap <;> simp

lemma before_mono (caps : List ℕ) (h : i ≤ j) : before caps i ≤ before caps j :=
  List.monotone_sum_take caps h

lemma before_length : before caps caps.length = caps.sum := by rw [before, List.take_length]

lemma before_le_sum (caps : List ℕ) (i : ℕ) : before caps i ≤ caps.sum := by
  have h := List.sum_take_add_sum_drop caps i
  rw [before]
  omega

/-! ### Whose turn it is -/

/-- **A unit within the total capacity goes somewhere.** -/
theorem exists_turn (h : k < caps.sum) : ∃ i, Turn caps k i := by
  have hex : ∃ i, k < before caps (i + 1) := by
    refine ⟨caps.length, ?_⟩
    rw [← before_length] at h
    exact Nat.lt_of_lt_of_le h (before_mono caps (Nat.le_succ _))
  -- the first bin whose end lies beyond `k`
  refine ⟨Nat.find hex, ?_, Nat.find_spec hex⟩
  rcases hfind : Nat.find hex with _ | i
  · exact Nat.zero_le _
  · have hmin := Nat.find_min hex (m := i) (by omega)
    omega

lemma Turn.le_of_lt_before (h : Turn caps k i) (hj : k < before caps (j + 1)) : i ≤ j := by
  by_contra hlt
  have hmono := before_mono caps (i := j + 1) (j := i) (by omega)
  have := h.before_le
  omega

/-- **It goes into one bin only.** -/
theorem Turn.unique (h : Turn caps k i) (h' : Turn caps k j) : i = j :=
  Nat.le_antisymm (h.le_of_lt_before h'.lt_before) (h'.le_of_lt_before h.lt_before)

lemma Turn.lt_length (h : Turn caps k i) : i < caps.length := by
  by_contra hge
  have hcap : caps.getD i 0 = 0 := List.getD_eq_default _ _ (by omega)
  have hlt := h.lt_before
  have hle := h.before_le
  rw [before_succ, hcap] at hlt
  omega

/-! ### How the levels change -/

@[simp] lemma level_zero : level caps 0 i = 0 := by simp [level]

/-- A bin whose end has been reached is full. -/
lemma level_of_before_le (h : before caps (i + 1) ≤ k) : level caps k i = caps.getD i 0 := by
  rw [before_succ] at h
  rw [level]
  omega

lemma lt_before_of_level_lt (h : level caps k i < caps.getD i 0) : k < before caps (i + 1) := by
  by_contra hge
  rw [level_of_before_le (by omega)] at h
  exact Nat.lt_irrefl _ h

lemma Turn.level_lt (h : Turn caps k i) : level caps k i < caps.getD i 0 := by
  have hlt := h.lt_before
  have hle := h.before_le
  rw [before_succ] at hlt
  rw [level]
  omega

/-- The bin whose turn it is takes the unit. -/
lemma Turn.level_succ_self (h : Turn caps k i) : level caps (k + 1) i = level caps k i + 1 := by
  have hlt := h.lt_before
  have hle := h.before_le
  rw [before_succ] at hlt
  rw [level, level]
  omega

/-- The bins in front of it are full, and those behind it are empty. -/
lemma Turn.level_succ_of_ne (h : Turn caps k i) (hne : j ≠ i) :
    level caps (k + 1) j = level caps k j := by
  have hlt := h.lt_before
  have hle := h.before_le
  rcases Nat.lt_or_gt_of_ne hne with hj | hj
  · have hmono := before_mono caps (i := j + 1) (j := i) hj
    rw [level_of_before_le (by omega), level_of_before_le (by omega)]
  · have hmono := before_mono caps (i := i + 1) (j := j) hj
    rw [level, level]
    omega

/-- When all bins are full, nothing changes. -/
lemma level_succ_of_sum_le (h : caps.sum ≤ k) : level caps (k + 1) i = level caps k i := by
  have hle : before caps (i + 1) ≤ k := Nat.le_trans (before_le_sum caps _) h
  rw [level_of_before_le hle, level_of_before_le (Nat.le_succ_of_le hle)]

end MimicPP.Filling

import Mathlib.Data.List.Nodup
import Mathlib.Logic.Function.Basic

/-!
Things that are born, passed from holder to holder, and end.

Things are numbered in the order of their birth. Each has at most one holder, and a holder
holds at most one of them.
-/

namespace MimicPP.Custody

/-- Who holds what, and what has ended, in that order. -/
structure Ledger (O : Type*) where
  born : ℕ
  held : O → Option ℕ
  ended : List ℕ

namespace Ledger

variable {O : Type*} [DecidableEq O]

def empty : Ledger O := ⟨0, fun _ => none, []⟩

def birth (k : Ledger O) (o : O) : Ledger O :=
  { k with born := k.born + 1, held := Function.update k.held o (some k.born) }

/-- What the source holds is passed on, also to the source itself. -/
def move (k : Ledger O) (target source : O) : Ledger O :=
  { k with held := Function.update (Function.update k.held source none) target (k.held source) }

/-- What `o` holds ends, if it holds anything. -/
def finish (k : Ledger O) (o : O) : Ledger O :=
  { k with held := Function.update k.held o none, ended := k.ended ++ (k.held o).toList }

/-- Everything that has been born is held by one holder, or has ended once. -/
structure Valid (k : Ledger O) : Prop where
  held_lt : ∀ {o m}, k.held o = some m → m < k.born
  ended_lt : ∀ {m}, m ∈ k.ended → m < k.born
  holder_unique : ∀ {o o' m}, k.held o = some m → k.held o' = some m → o = o'
  held_not_ended : ∀ {o m}, k.held o = some m → m ∉ k.ended
  nodup : k.ended.Nodup
  complete : ∀ {m}, m < k.born → (∃ o, k.held o = some m) ∨ m ∈ k.ended

variable {k : Ledger O} {o o' : O} {m : ℕ}

/-! ### What the operations do to the holders -/

lemma held_birth : (k.birth o).held o' = some m ↔
    (o' = o ∧ m = k.born) ∨ (o' ≠ o ∧ k.held o' = some m) := by
  simp only [birth, Function.update_apply]
  split
  · simp [*, eq_comm]
  · simp [*]

lemma held_move {target source : O} : (k.move target source).held o = some m ↔
    (o = target ∧ k.held source = some m) ∨
      (o ≠ target ∧ o ≠ source ∧ k.held o = some m) := by
  simp only [move, Function.update_apply]
  by_cases ht : o = target
  · simp [ht]
  · by_cases hs : o = source
    · simp [hs]
    · simp [ht, hs]

lemma held_finish : (k.finish o).held o' = some m ↔ o' ≠ o ∧ k.held o' = some m := by
  simp only [finish, Function.update_apply]
  split
  · simp [*]
  · simp [*]

lemma held_finish_self : (k.finish o).held o = none := Function.update_self ..

lemma mem_ended_finish : m ∈ (k.finish o).ended ↔ m ∈ k.ended ∨ k.held o = some m := by
  simp [finish]

/-! ### What the operations keep -/

omit [DecidableEq O] in
lemma valid_empty : (empty : Ledger O).Valid :=
  ⟨nofun, nofun, nofun, nofun, List.nodup_nil, fun h => absurd h (Nat.not_lt_zero _)⟩

lemma Valid.birth (hv : k.Valid) (ho : k.held o = none) : (k.birth o).Valid where
  held_lt := by
    intro o' m hm
    rcases held_birth.mp hm with ⟨-, rfl⟩ | ⟨-, hm⟩
    · exact Nat.lt_succ_self _
    · exact Nat.lt_succ_of_lt (hv.held_lt hm)
  ended_lt hm := Nat.lt_succ_of_lt (hv.ended_lt hm)
  holder_unique := by
    intro o₁ o₂ m h₁ h₂
    rcases held_birth.mp h₁ with ⟨ho₁, hm₁⟩ | ⟨-, hm₁⟩
    · rcases held_birth.mp h₂ with ⟨ho₂, -⟩ | ⟨-, hm₂⟩
      · rw [ho₁, ho₂]
      · have := hv.held_lt hm₂
        omega
    · rcases held_birth.mp h₂ with ⟨-, hm₂⟩ | ⟨-, hm₂⟩
      · have := hv.held_lt hm₁
        omega
      · exact hv.holder_unique hm₁ hm₂
  held_not_ended := by
    intro o' m hm hended
    rcases held_birth.mp hm with ⟨-, rfl⟩ | ⟨-, hm⟩
    · exact absurd (hv.ended_lt hended) (Nat.lt_irrefl _)
    · exact hv.held_not_ended hm hended
  nodup := hv.nodup
  complete := by
    intro m hm
    rcases Nat.lt_succ_iff_lt_or_eq.mp hm with hm | rfl
    · rcases hv.complete hm with ⟨o', ho'⟩ | hended
      · have hne : o' ≠ o := by
          rintro rfl
          rw [ho] at ho'
          cases ho'
        exact .inl ⟨o', held_birth.mpr (.inr ⟨hne, ho'⟩)⟩
      · exact .inr hended
    · exact .inl ⟨o, held_birth.mpr (.inl ⟨rfl, rfl⟩)⟩

/-- The target must not hold anything else. -/
lemma Valid.move {target source : O} (hv : k.Valid)
    (ht : target = source ∨ k.held target = none) : (k.move target source).Valid where
  held_lt := by
    intro o m hm
    rcases held_move.mp hm with ⟨-, hm⟩ | ⟨-, -, hm⟩ <;> exact hv.held_lt hm
  ended_lt hm := hv.ended_lt hm
  holder_unique := by
    intro o₁ o₂ m h₁ h₂
    rcases held_move.mp h₁ with ⟨ho₁, hm₁⟩ | ⟨-, hne₁, hm₁⟩
    · rcases held_move.mp h₂ with ⟨ho₂, -⟩ | ⟨-, hne₂, hm₂⟩
      · rw [ho₁, ho₂]
      · exact absurd (hv.holder_unique hm₂ hm₁) hne₂
    · rcases held_move.mp h₂ with ⟨-, hm₂⟩ | ⟨-, -, hm₂⟩
      · exact absurd (hv.holder_unique hm₁ hm₂) hne₁
      · exact hv.holder_unique hm₁ hm₂
  held_not_ended := by
    intro o m hm
    rcases held_move.mp hm with ⟨-, hm⟩ | ⟨-, -, hm⟩ <;> exact hv.held_not_ended hm
  nodup := hv.nodup
  complete := by
    intro m hm
    rcases hv.complete hm with ⟨o, ho⟩ | hended
    · by_cases hsource : o = source
      · subst hsource
        exact .inl ⟨target, held_move.mpr (.inl ⟨rfl, ho⟩)⟩
      · have hne : o ≠ target := by
          rintro rfl
          rcases ht with heq | hnone
          · exact hsource heq
          · rw [hnone] at ho
            cases ho
        exact .inl ⟨o, held_move.mpr (.inr ⟨hne, hsource, ho⟩)⟩
    · exact .inr hended

lemma Valid.finish (hv : k.Valid) (o : O) : (k.finish o).Valid where
  held_lt hm := hv.held_lt (held_finish.mp hm).2
  ended_lt := by
    intro m hm
    rcases mem_ended_finish.mp hm with hm | hm
    · exact hv.ended_lt hm
    · exact hv.held_lt hm
  holder_unique h₁ h₂ := hv.holder_unique (held_finish.mp h₁).2 (held_finish.mp h₂).2
  held_not_ended := by
    intro o' m hm hended
    obtain ⟨hne, hm⟩ := held_finish.mp hm
    rcases mem_ended_finish.mp hended with hended | hended
    · exact hv.held_not_ended hm hended
    · exact hne (hv.holder_unique hm hended)
  nodup := by
    rcases hheld : k.held o with _ | m
    · simpa [Ledger.finish, hheld] using hv.nodup
    · simp only [Ledger.finish, hheld, Option.toList_some, List.nodup_append,
        List.nodup_singleton, List.mem_singleton, true_and]
      refine ⟨hv.nodup, ?_⟩
      rintro a ha b rfl rfl
      exact hv.held_not_ended hheld ha
  complete := by
    intro m hm
    rcases hv.complete hm with ⟨o', ho'⟩ | hended
    · by_cases heq : o' = o
      · subst heq
        exact .inr (mem_ended_finish.mpr (.inr ho'))
      · exact .inl ⟨o', held_finish.mpr ⟨heq, ho'⟩⟩
    · exact .inr (mem_ended_finish.mpr (.inl hended))

omit [DecidableEq O] in
/-- **Everything ends once, and not while it is held.** -/
theorem Valid.count_ended (hv : k.Valid) (hm : m < k.born) :
    ((∃ o, k.held o = some m) → k.ended.count m = 0) ∧
      ((∀ o, k.held o ≠ some m) → k.ended.count m = 1) := by
  constructor
  · rintro ⟨o, ho⟩
    exact List.count_eq_zero_of_not_mem (hv.held_not_ended ho)
  · intro hnone
    rcases hv.complete hm with ⟨o, ho⟩ | hended
    · exact absurd ho (hnone o)
    · exact List.count_eq_one_of_mem hv.nodup hended

end Ledger

end MimicPP.Custody

import Mathlib.Tactic.Common
import Mathlib.Data.List.Nodup

/-!
Signatures of mocks, the traits that take their specifications apart, and which lists of
signatures are overload sets.

The types that occur in a signature are given by their identity; a top-level `const` of a
parameter is no part of it.
-/

namespace MimicPP.Signatures

inductive RefQualifier
  | none | lvalue | rvalue
  deriving DecidableEq, Repr

inductive Constness
  | nonConst | asConst | any
  deriving DecidableEq, Repr

inductive ValueCategory
  | lvalue | rvalue | any
  deriving DecidableEq, Repr

/-- A signature without C-variadic parameters, over types `T` and registered call-conventions
`C`; `none` is the default convention. -/
structure Signature (T C : Type) where
  returnType : T
  params : List T
  isConst : Bool
  refQualifier : RefQualifier
  isNoexcept : Bool
  callConvention : Option C
  deriving DecidableEq

variable {T C : Type}

namespace Signature

/-! ### Traits -/

def removeCallConvention (s : Signature T C) : Signature T C := { s with callConvention := none }

def removeNoexcept (s : Signature T C) : Signature T C := { s with isNoexcept := false }

def removeRefQualifier (s : Signature T C) : Signature T C := { s with refQualifier := .none }

def removeConstQualifier (s : Signature T C) : Signature T C := { s with isConst := false }

def decay (s : Signature T C) : Signature T C :=
  s.removeCallConvention.removeConstQualifier.removeRefQualifier.removeNoexcept

def paramList (s : Signature T C) : List T := s.decay.params

/-- A signature is const if removing the qualifier makes another signature of it. -/
def constQualification [DecidableEq T] [DecidableEq C] (s : Signature T C) : Constness :=
  if s = s.removeConstQualifier then .nonConst else .asConst

def refQualification (s : Signature T C) : ValueCategory :=
  match s.removeCallConvention.removeConstQualifier.removeNoexcept.refQualifier with
  | .none => .any
  | .lvalue => .lvalue
  | .rvalue => .rvalue

variable {s t : Signature T C}

@[simp] lemma decay_params : s.decay.params = s.params := rfl

/-- A decayed signature is a return type and a list of parameters. -/
lemma decay_eq_decay : s.decay = t.decay ↔ s.returnType = t.returnType ∧ s.params = t.params := by
  cases s
  cases t
  simp [decay, removeCallConvention, removeConstQualifier, removeRefQualifier, removeNoexcept]

lemma constQualification_eq [DecidableEq T] [DecidableEq C] :
    s.constQualification = if s.isConst = true then .asConst else .nonConst := by
  cases s with
  | mk returnType params isConst refQualifier isNoexcept callConvention =>
    cases isConst <;> simp [constQualification, removeConstQualifier]

/-! ### Overloads -/

/-- The partial specializations of `detail::is_overloadable_with` for equal parameter lists,
given by the const- and ref-qualifiers of the two signatures. -/
def isSpecialized : Bool → RefQualifier → Bool → RefQualifier → Bool
  | false, .none, true, .none => true
  | false, .lvalue, true, .lvalue => true
  | false, .lvalue, false, .rvalue => true
  | false, .lvalue, true, .rvalue => true
  | true, .lvalue, false, .rvalue => true
  | true, .lvalue, true, .rvalue => true
  | false, .rvalue, true, .rvalue => true
  | _, _, _, _ => false

variable [DecidableEq T]

/-- The specializations name signatures that are neither `noexcept` nor of a special
call-convention, and bind the parameters of both to one pack. -/
def matchesSpecialization (first second : Signature T C) : Bool :=
  decide (first.params = second.params)
    && !first.isNoexcept && !second.isNoexcept
    && first.callConvention.isNone && second.callConvention.isNone
    && isSpecialized first.isConst first.refQualifier second.isConst second.refQualifier

/-- `detail::is_overloadable_with`; the primary template tries the other order once. -/
def detailIsOverloadableWith (first second : Signature T C) : Bool :=
  if first.decay.paramList ≠ second.decay.paramList then true
  else matchesSpecialization first second || matchesSpecialization second first

def normalizeOverload (s : Signature T C) : Signature T C := s.removeCallConvention.removeNoexcept

def isOverloadableWith (first second : Signature T C) : Bool :=
  detailIsOverloadableWith first.normalizeOverload second.normalizeOverload

/-- The template takes at least one signature. -/
def isOverloadSet : List (Signature T C) → Bool
  | [] => false
  | [_] => true
  | first :: second :: others =>
    (second :: others).all (isOverloadableWith first) && isOverloadSet (second :: others)

/-! ### What makes an overload set -/

/-- Between them, the specializations and their mirror images cover whatever can be told
apart by its qualifiers. -/
lemma isSpecialized_or_swap (c c' : Bool) (r r' : RefQualifier) :
    (isSpecialized c r c' r' = true ∨ isSpecialized c' r' c r = true) ↔
      (r = .none ↔ r' = .none) ∧ (c ≠ c' ∨ r ≠ r') := by
  cases c <;> cases c' <;> cases r <;> cases r' <;> simp [isSpecialized]

/-- **Two signatures are overloads** when their parameters differ, or when both or neither
have a ref-qualifier and their qualifiers differ. -/
theorem isOverloadableWith_iff : isOverloadableWith s t = true ↔
    s.params ≠ t.params ∨ (s.refQualifier = .none ↔ t.refQualifier = .none) ∧
      (s.isConst ≠ t.isConst ∨ s.refQualifier ≠ t.refQualifier) := by
  rw [← isSpecialized_or_swap]
  by_cases hparams : s.params = t.params
  · simp [isOverloadableWith, detailIsOverloadableWith, matchesSpecialization, normalizeOverload,
      removeCallConvention, removeNoexcept, paramList, hparams]
  · simp [isOverloadableWith, detailIsOverloadableWith, normalizeOverload,
      removeCallConvention, removeNoexcept, paramList, hparams]

lemma isOverloadableWith_symm (h : isOverloadableWith s t = true) :
    isOverloadableWith t s = true := by
  rw [isOverloadableWith_iff] at h ⊢
  rcases h with hparams | ⟨hiff, hne⟩
  · exact .inl hparams.symm
  · exact .inr ⟨hiff.symm, hne.imp Ne.symm Ne.symm⟩

lemma isOverloadSet_pairwise {sigs : List (Signature T C)} (h : isOverloadSet sigs = true) :
    sigs.Pairwise fun s t => isOverloadableWith s t = true := by
  induction sigs with
  | nil => exact List.Pairwise.nil
  | cons first others ih =>
    rcases others with _ | ⟨second, others⟩
    · exact List.pairwise_singleton _ _
    · rw [isOverloadSet, Bool.and_eq_true, List.all_eq_true] at h
      exact List.pairwise_cons.mpr ⟨h.1, ih h.2⟩

lemma isOverloadableWith_comm : isOverloadableWith s t = isOverloadableWith t s := by
  rw [Bool.eq_iff_iff]
  exact ⟨isOverloadableWith_symm, isOverloadableWith_symm⟩

lemma isOverloadSet_of_pairwise {first : Signature T C} {others : List (Signature T C)}
    (h : (first :: others).Pairwise fun s t => isOverloadableWith s t = true) :
    isOverloadSet (first :: others) = true := by
  induction others generalizing first with
  | nil => rfl
  | cons second others ih =>
    obtain ⟨hfirst, hrest⟩ := List.pairwise_cons.mp h
    rw [isOverloadSet, Bool.and_eq_true, List.all_eq_true]
    exact ⟨hfirst, ih hrest⟩

/-- What the language asks of two functions of one name and scope. -/
def LegalOverloads (s t : Signature T C) : Prop :=
  s.params ≠ t.params ∨
    s.params = t.params ∧ (s.refQualifier = .none ↔ t.refQualifier = .none) ∧
      (s.isConst ≠ t.isConst ∨ s.refQualifier ≠ t.refQualifier)

/-- What two signatures share that differ in return type, `noexcept` and call-convention at
most. -/
structure SameOverload (s t : Signature T C) : Prop where
  params : s.params = t.params
  isConst : s.isConst = t.isConst
  refQualifier : s.refQualifier = t.refQualifier

lemma isOverloadableWith_iff_legal : isOverloadableWith s t = true ↔ LegalOverloads s t := by
  rw [isOverloadableWith_iff, LegalOverloads]
  by_cases hparams : s.params = t.params <;> simp [hparams]

lemma SameOverload.isOverloadableWith {s' t' : Signature T C} (hs : SameOverload s s')
    (ht : SameOverload t t') : s.isOverloadableWith t = s'.isOverloadableWith t' := by
  rw [Bool.eq_iff_iff, isOverloadableWith_iff, isOverloadableWith_iff, hs.params, hs.isConst,
    hs.refQualifier, ht.params, ht.isConst, ht.refQualifier]

lemma isOverloadSet_congr {sigs sigs' : List (Signature T C)}
    (h : List.Forall₂ SameOverload sigs sigs') : isOverloadSet sigs = isOverloadSet sigs' := by
  induction h with
  | nil => rfl
  | @cons first first' others others' hfirst hothers ih =>
    have hall : others.all (first.isOverloadableWith ·) =
        others'.all (first'.isOverloadableWith ·) := by
      clear ih
      induction hothers with
      | nil => rfl
      | cons hsecond _ ih =>
        rw [List.all_cons, List.all_cons, hfirst.isOverloadableWith hsecond, ih]
    cases hothers with
    | nil => rfl
    | cons hsecond hothers => rw [isOverloadSet, isOverloadSet, hall, ih]

/-- The order in which the signatures are listed does not matter. -/
lemma isOverloadSet_perm {sigs sigs' : List (Signature T C)} (h : sigs.Perm sigs') :
    isOverloadSet sigs = isOverloadSet sigs' := by
  have himp : ∀ {l l' : List (Signature T C)}, l.Perm l' → isOverloadSet l = true →
      isOverloadSet l' = true := by
    intro l l' hperm hset
    cases l' with
    | nil =>
      obtain rfl := hperm.eq_nil
      exact hset
    | cons first others =>
      exact isOverloadSet_of_pairwise
        ((hperm.pairwise_iff isOverloadableWith_symm).mp (isOverloadSet_pairwise hset))
  rw [Bool.eq_iff_iff]
  exact ⟨himp h, himp h.symm⟩

/-- **Overload sets are recognised exactly**: a nonempty list of signatures is one when any two
positions hold legal overloads. Neither the order of two signatures nor that of the list has a
part in it, nor do return types, `noexcept` and call-conventions. -/
theorem isOverloadSet_exact :
    (∀ (first : Signature T C) (others : List (Signature T C)),
      isOverloadSet (first :: others) = true ↔
        ∀ (i j : ℕ) (s t : Signature T C), i ≠ j → (first :: others)[i]? = some s →
          (first :: others)[j]? = some t → LegalOverloads s t) ∧
    (∀ s t : Signature T C, isOverloadableWith s t = isOverloadableWith t s) ∧
    (∀ sigs sigs' : List (Signature T C), sigs.Perm sigs' →
      isOverloadSet sigs = isOverloadSet sigs') ∧
    ∀ sigs sigs' : List (Signature T C), List.Forall₂ SameOverload sigs sigs' →
      isOverloadSet sigs = isOverloadSet sigs' := by
  refine ⟨fun first others => ⟨fun h i j s t hij hs ht => ?_, fun h => ?_⟩,
    fun s t => isOverloadableWith_comm, fun _ _ => isOverloadSet_perm,
    fun _ _ => isOverloadSet_congr⟩
  · obtain ⟨hi, rfl⟩ := List.getElem?_eq_some_iff.mp hs
    obtain ⟨hj, rfl⟩ := List.getElem?_eq_some_iff.mp ht
    have hpair := List.pairwise_iff_getElem.mp (isOverloadSet_pairwise h)
    rw [← isOverloadableWith_iff_legal]
    -- the list is folded in one direction only
    rcases Nat.lt_or_gt_of_ne hij with hlt | hgt
    · exact hpair i j hi hj hlt
    · exact isOverloadableWith_symm (hpair j i hj hi hgt)
  · refine isOverloadSet_of_pairwise (List.pairwise_iff_getElem.mpr fun i j hi hj hlt => ?_)
    exact isOverloadableWith_iff_legal.mpr (h i j _ _ (Nat.ne_of_lt hlt)
      (List.getElem?_eq_getElem hi) (List.getElem?_eq_getElem hj))

end Signature

end MimicPP.Signatures

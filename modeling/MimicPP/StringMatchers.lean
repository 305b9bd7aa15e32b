import Mathlib.Algebra.Ring.Parity
import Mathlib.Data.List.Infix
import MimicPP.Ranges

/-!
Predicate matchers and their inversion, and the string matchers made of them.

A predicate yields `none` where evaluating it is undefined. The string matchers differ in
what they do with the views of the two strings, and in how they look at a string.
-/

namespace MimicPP.StringMatchers

open MimicPP.Ranges

/-! ### Predicate matchers -/

/-- A predicate with further arguments, and the texts that describe it and its inversion. -/
structure PredicateMatcher (Target Args : Type*) where
  predicate : Target → Args → Option Bool
  formatString : String
  invertedFormatString : String
  additionalArgs : Args

namespace PredicateMatcher

variable {Target Args : Type*}

def matchesTarget (m : PredicateMatcher Target Args) (target : Target) : Option Bool :=
  m.predicate target m.additionalArgs

/-- The arguments are printed and formatted by `vformat`. -/
def describe (vformat : String → Args → String) (m : PredicateMatcher Target Args) : String :=
  vformat m.formatString m.additionalArgs

/-- `std::not_fn` -/
def notFn (fn : Target → Args → Option Bool) (target : Target) (args : Args) : Option Bool :=
  (fn target args).map Bool.not

def makeInverted (fn : Target → Args → Option Bool) (fmt invertedFmt : String) (args : Args) :
    PredicateMatcher Target Args :=
  ⟨notFn fn, fmt, invertedFmt, args⟩

/-- `operator !` -/
def operatorNot (m : PredicateMatcher Target Args) : PredicateMatcher Target Args :=
  makeInverted m.predicate m.invertedFormatString m.formatString m.additionalArgs

variable {m : PredicateMatcher Target Args} {target : Target}

@[simp] lemma matchesTarget_operatorNot :
    m.operatorNot.matchesTarget target = (m.matchesTarget target).map Bool.not := rfl

lemma notFn_notFn (fn : Target → Args → Option Bool) : notFn (notFn fn) = fn := by
  ext target args
  simp [notFn, Function.comp_def]

/-- Inverting twice gives the matcher back, its texts included. -/
lemma operatorNot_involutive :
    Function.Involutive (operatorNot : PredicateMatcher Target Args → _) := by
  intro m
  rw [operatorNot, operatorNot, makeInverted, makeInverted, notFn_notFn]

/-- **Any number of inversions**: only their parity counts. -/
theorem matchesTarget_iterate {b : Bool} (h : m.matchesTarget target = some b) (n : ℕ) :
    (operatorNot^[n] m).matchesTarget target = some (decide (Even n ↔ b = true)) := by
  rcases Nat.even_or_odd n with heven | hodd
  · rw [operatorNot_involutive.iterate_even heven, id_eq, h]
    simp [heven]
  · rw [operatorNot_involutive.iterate_odd hodd, matchesTarget_operatorNot, h]
    simp [Nat.not_even_iff_odd.mpr hodd]

end PredicateMatcher

/-! ### What the string matchers do with two strings -/

section Predicates

variable {S β : Type*} [DecidableEq β] (view : S → List (Option β))

def equals (target stored : S) : Option Bool := equal (view target) (view stored)

/-- The pass has to reach the end of the pattern. -/
def startsWithStored (target stored : S) : Option Bool :=
  (mismatch (view target) (view stored)).map fun r => decide (r.2 = (view stored).length)

def endsWithStored (target stored : S) : Option Bool :=
  (mismatch (view target).reverse (view stored).reverse).map fun r =>
    decide (r.2 = (view stored).reverse.length)

/-- An empty subrange is what a search for the empty pattern would find as well. -/
def containsStored (target stored : S) : Option Bool :=
  if (view stored).isEmpty then some true
  else (search (view target) (view stored)).map fun r => decide (r.1 ≠ r.2)

/-! ### What they read of the two strings -/

variable {view} {S' : Type*} {view' : S' → List (Option β)} {t p : S} {t' p' : S'} {b : Bool}

lemma equals_defined : equals view t p ≠ none ↔
    ∀ x y, (view t).length = (view p).length ∧ Meets Eq (view t) (view p) x y → BothRead x y :=
  equal_defined

lemma startsWithStored_defined : startsWithStored view t p ≠ none ↔
    ∀ x y, Meets Eq (view t) (view p) x y → BothRead x y := by
  rw [← mismatch_defined, startsWithStored, ne_eq, Option.map_eq_none_iff]

lemma endsWithStored_defined : endsWithStored view t p ≠ none ↔
    ∀ x y, Meets Eq (view t).reverse (view p).reverse x y → BothRead x y := by
  rw [← mismatch_defined, endsWithStored, ne_eq, Option.map_eq_none_iff]

lemma containsStored_defined : containsStored view t p ≠ none ↔
    ∀ x y, Searches Eq (view t) (view p) x y → BothRead x y := by
  unfold containsStored
  split
  · -- nothing is compared with an empty pattern
    rename_i hempty
    rw [List.isEmpty_iff.mp hempty]
    simp
  · rw [← search_defined, ne_eq, Option.map_eq_none_iff]

lemma equals_mono (ht : List.Forall₂ ReadsAs (view t) (view' t'))
    (hp : List.Forall₂ ReadsAs (view p) (view' p')) (h : equals view t p = some b) :
    equals view' t' p' = some b :=
  equal_mono ht hp h

lemma startsWithStored_mono (ht : List.Forall₂ ReadsAs (view t) (view' t'))
    (hp : List.Forall₂ ReadsAs (view p) (view' p')) (h : startsWithStored view t p = some b) :
    startsWithStored view' t' p' = some b := by
  obtain ⟨r, hr, rfl⟩ := Option.map_eq_some_iff.mp h
  rw [startsWithStored, mismatch_mono ht hp hr, Option.map_some, hp.length_eq]

lemma endsWithStored_mono (ht : List.Forall₂ ReadsAs (view t) (view' t'))
    (hp : List.Forall₂ ReadsAs (view p) (view' p')) (h : endsWithStored view t p = some b) :
    endsWithStored view' t' p' = some b := by
  have ht' := List.forall₂_reverse_iff.mpr ht
  have hp' := List.forall₂_reverse_iff.mpr hp
  obtain ⟨r, hr, rfl⟩ := Option.map_eq_some_iff.mp h
  rw [endsWithStored, mismatch_mono ht' hp' hr, Option.map_some, hp'.length_eq]

lemma containsStored_mono (ht : List.Forall₂ ReadsAs (view t) (view' t'))
    (hp : List.Forall₂ ReadsAs (view p) (view' p')) (h : containsStored view t p = some b) :
    containsStored view' t' p' = some b := by
  have hsize : (view' p').isEmpty = (view p).isEmpty := by
    rw [Bool.eq_iff_iff, List.isEmpty_iff_length_eq_zero, List.isEmpty_iff_length_eq_zero,
      hp.length_eq]
  unfold containsStored at h ⊢
  rw [hsize]
  split at h
  · rename_i hempty
    rw [if_pos hempty]
    exact h
  · rename_i hne
    obtain ⟨r, hr, rfl⟩ := Option.map_eq_some_iff.mp h
    rw [if_neg hne, search_mono ht hp hr, Option.map_some]

end Predicates

/-! ### The case-sensitive matchers -/

section CaseSensitive

variable {α : Type*}

/-- The elements of a plain view can be read. -/
def makeView (s : List α) : List (Option α) := s.map some

variable [DecidableEq α]

def eq (pattern : List α) : PredicateMatcher (List α) (List α) where
  predicate := equals makeView
  formatString := "is equal to {}"
  invertedFormatString := "is not equal to {}"
  additionalArgs := pattern

def startsWith (pattern : List α) : PredicateMatcher (List α) (List α) where
  predicate := startsWithStored makeView
  formatString := "starts with {}"
  invertedFormatString := "starts not with {}"
  additionalArgs := pattern

def endsWith (pattern : List α) : PredicateMatcher (List α) (List α) where
  predicate := endsWithStored makeView
  formatString := "ends with {}"
  invertedFormatString := "ends not with {}"
  additionalArgs := pattern

def contains (pattern : List α) : PredicateMatcher (List α) (List α) where
  predicate := containsStored makeView
  formatString := "contains {}"
  invertedFormatString := "contains not {}"
  additionalArgs := pattern

variable (t p : List α)

lemma equals_makeView : equals makeView t p = some (decide (t = p)) := equal_map_some t p

lemma startsWithStored_makeView : startsWithStored makeView t p = some (decide (p <+: t)) := by
  obtain ⟨n, hn, hend, -⟩ := mismatch_map_some t p
  unfold startsWithStored makeView
  rw [hn, Option.map_some, List.length_map, Option.some_inj, decide_eq_decide]
  exact hend

lemma endsWithStored_makeView : endsWithStored makeView t p = some (decide (p <:+ t)) := by
  obtain ⟨n, hn, hend, -⟩ := mismatch_map_some t.reverse p.reverse
  unfold endsWithStored makeView
  rw [← List.map_reverse, ← List.map_reverse, hn, Option.map_some, List.length_map,
    Option.some_inj, decide_eq_decide, ← List.reverse_prefix]
  exact hend

lemma containsStored_makeView : containsStored makeView t p = some (decide (p <:+: t)) := by
  unfold containsStored makeView
  split
  · rename_i hempty
    obtain rfl : p = [] := by simpa using hempty
    simp
  · rename_i hne
    have hp : p ≠ [] := by simpa using hne
    obtain ⟨r, hr, hiff⟩ := search_map_some t hp
    rw [hr, Option.map_some, Option.some_inj, decide_eq_decide]
    exact hiff

/-- **The string matchers are what their names say**, and so are their inversions: an even
number of them changes nothing, an odd number turns the answer around. -/
theorem stringMatchers_exact (n : ℕ) :
    (PredicateMatcher.operatorNot^[n] (eq p)).matchesTarget t =
      some (decide (Even n ↔ t = p)) ∧
    (PredicateMatcher.operatorNot^[n] (startsWith p)).matchesTarget t =
      some (decide (Even n ↔ p <+: t)) ∧
    (PredicateMatcher.operatorNot^[n] (endsWith p)).matchesTarget t =
      some (decide (Even n ↔ p <:+ t)) ∧
    (PredicateMatcher.operatorNot^[n] (contains p)).matchesTarget t =
      some (decide (Even n ↔ p <:+: t)) := by
  refine ⟨?_, ?_, ?_, ?_⟩
  · simpa using PredicateMatcher.matchesTarget_iterate (m := eq p) (equals_makeView t p) n
  · simpa using
      PredicateMatcher.matchesTarget_iterate (m := startsWith p) (startsWithStored_makeView t p) n
  · simpa using
      PredicateMatcher.matchesTarget_iterate (m := endsWith p) (endsWithStored_makeView t p) n
  · simpa using
      PredicateMatcher.matchesTarget_iterate (m := contains p) (containsStored_makeView t p) n

/-- A self-overlapping pattern, and the empty one. -/
example : (contains [0, 0, 1]).matchesTarget [0, 0, 0, 1] = some true ∧
    (contains []).matchesTarget ([] : List ℕ) = some true := by decide

end CaseSensitive

end MimicPP.StringMatchers

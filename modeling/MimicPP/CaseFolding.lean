import MimicPP.StringMatchers

/-!
Case-insensitive string matchers, as they are when no Unicode library is configured.

A `char` is a signed integer of eight bits. The default converter folds one element when it
is read, by a call of `std::toupper`, which is defined on the values of `unsigned char` and
on `EOF` only.
-/

namespace MimicPP.CaseFolding

open MimicPP.Ranges MimicPP.StringMatchers

/-! ### Folding a string -/

/-- What the C library and its current locale decide. -/
structure CType where
  eof : ℤ
  eof_neg : eof < 0
  toupper : ℤ → ℤ

namespace CType

variable (lib : CType)

def InDomain (c : ℤ) : Prop := (0 ≤ c ∧ c ≤ 255) ∨ c = lib.eof

instance (c : ℤ) : Decidable (lib.InDomain c) := inferInstanceAs (Decidable (_ ∨ _))

/-- A call of `std::toupper`, undefined outside of its domain. -/
def callToupper (c : ℤ) : Option ℤ := if lib.InDomain c then some (lib.toupper c) else none

end CType

/-- What a `char` becomes that holds the result of `std::toupper`. -/
def resultChar (r : ℤ) : Int8 := (UInt8.ofInt r).toInt8

/-- The lambda of `string_case_fold_converter<char>`. Its argument goes to `std::toupper` as
it is; only the result is taken through `unsigned char`. -/
def foldChar (lib : CType) (c : Int8) : Option Int8 := (lib.callToupper c.toInt).map resultChar

/-- The view transformed by the converter, whose elements are folded when they are read. -/
def makeCaseFoldedString (lib : CType) (s : List Int8) : List (Option Int8) := s.map (foldChar lib)

/-! ### The case-insensitive matchers -/

section CaseInsensitive

variable (lib : CType)

def eqCaseInsensitive (pattern : List Int8) : PredicateMatcher (List Int8) (List Int8) where
  predicate := equals (makeCaseFoldedString lib)
  formatString := "is case-insensitively equal to {}"
  invertedFormatString := "is case-insensitively not equal to {}"
  additionalArgs := pattern

def startsWithCaseInsensitive (pattern : List Int8) :
    PredicateMatcher (List Int8) (List Int8) where
  predicate := startsWithStored (makeCaseFoldedString lib)
  formatString := "case-insensitively starts with {}"
  invertedFormatString := "case-insensitively starts not with {}"
  additionalArgs := pattern

def endsWithCaseInsensitive (pattern : List Int8) :
    PredicateMatcher (List Int8) (List Int8) where
  predicate := endsWithStored (makeCaseFoldedString lib)
  formatString := "case-insensitively ends with {}"
  invertedFormatString := "case-insensitively ends not with {}"
  additionalArgs := pattern

def containsCaseInsensitive (pattern : List Int8) :
    PredicateMatcher (List Int8) (List Int8) where
  predicate := containsStored (makeCaseFoldedString lib)
  formatString := "case-insensitively contains {}"
  invertedFormatString := "case-insensitively contains not {}"
  additionalArgs := pattern

end CaseInsensitive

/-- The string matchers that come in a case-sensitive and a case-insensitive version. -/
inductive StringMatcher
  | eq | startsWith | endsWith | contains
  deriving DecidableEq, Repr

namespace StringMatcher

def sensitive : StringMatcher → List Int8 → PredicateMatcher (List Int8) (List Int8)
  | .eq => StringMatchers.eq
  | .startsWith => StringMatchers.startsWith
  | .endsWith => StringMatchers.endsWith
  | .contains => StringMatchers.contains

def insensitive (lib : CType) :
    StringMatcher → List Int8 → PredicateMatcher (List Int8) (List Int8)
  | .eq => eqCaseInsensitive lib
  | .startsWith => startsWithCaseInsensitive lib
  | .endsWith => endsWithCaseInsensitive lib
  | .contains => containsCaseInsensitive lib

end StringMatcher

/-! ### What is asked of them -/

variable {lib : CType} {m : StringMatcher} {t p : List Int8} {c d : Int8}

/-- A total function that folds every `char` the converter can fold. -/
def Folds (lib : CType) (f : Int8 → Int8) : Prop := ∀ c d, foldChar lib c = some d → f c = d

/-- No call of `std::toupper` leaves its domain, and the answer is that of the case-sensitive
matcher on the folded strings. -/
structure MatchesFolded (lib : CType) (m : StringMatcher) (t p : List Int8) : Prop where
  defined : (m.insensitive lib p).matchesTarget t ≠ none
  agrees : ∀ f, Folds lib f →
    (m.insensitive lib p).matchesTarget t = (m.sensitive (p.map f)).matchesTarget (t.map f)

/-! ### Which bytes are folded -/

/-- The bytes in the domain of `std::toupper`. -/
def Foldable (lib : CType) (c : Int8) : Prop := 0 ≤ c.toInt ∨ c.toInt = lib.eof

/-- Two bytes that `std::toupper` takes to one `char`. -/
def SameUpper (lib : CType) (c d : Int8) : Prop :=
  resultChar (lib.toupper c.toInt) = resultChar (lib.toupper d.toInt)

/-- The pairs of bytes, of the target and of the pattern, that a matcher comes to compare when
bytes with the same upper case count as equal. -/
def StringMatcher.Compares (lib : CType) :
    StringMatcher → List Int8 → List Int8 → Int8 → Int8 → Prop
  | .eq, t, p, c, d => t.length = p.length ∧ Meets (SameUpper lib) t p c d
  | .startsWith, t, p, c, d => Meets (SameUpper lib) t p c d
  | .endsWith, t, p, c, d => Meets (SameUpper lib) t.reverse p.reverse c d
  | .contains, t, p, c, d => Searches (SameUpper lib) t p c d

lemma foldChar_of_foldable (h : Foldable lib c) :
    foldChar lib c = some (resultChar (lib.toupper c.toInt)) := by
  have hmax := c.toInt_lt
  have hdomain : lib.InDomain c.toInt := h.imp_left fun h0 => ⟨h0, by omega⟩
  rw [foldChar, CType.callToupper, if_pos hdomain, Option.map_some]

lemma foldChar_ne_none : foldChar lib c ≠ none ↔ Foldable lib c := by
  constructor
  · intro h
    have hdomain : lib.InDomain c.toInt := by
      by_contra hnot
      exact h (by rw [foldChar, CType.callToupper, if_neg hnot, Option.map_none])
    exact hdomain.imp_left And.left
  · intro h
    rw [foldChar_of_foldable h]
    exact Option.some_ne_none _

lemma bothRead_iff :
    BothRead (foldChar lib c) (foldChar lib d) ↔ Foldable lib c ∧ Foldable lib d := by
  rw [BothRead, foldChar_ne_none, foldChar_ne_none]

/-- As long as all bytes can be folded, comparing what they are folded to is comparing their
upper cases. -/
lemma sameFold_iff (c d : Int8) (h : Foldable lib c ∧ Foldable lib d) :
    foldChar lib c = foldChar lib d ↔ SameUpper lib c d := by
  rw [foldChar_of_foldable h.1, foldChar_of_foldable h.2, Option.some_inj, SameUpper]

/-- A pass over two folded strings reads the upper cases of the bytes it comes to. -/
lemma forall_meets_folded :
    (∀ a b, Meets Eq (makeCaseFoldedString lib t) (makeCaseFoldedString lib p) a b →
      BothRead a b) ↔
    ∀ c d, Meets (SameUpper lib) t p c d → Foldable lib c ∧ Foldable lib d := by
  rw [makeCaseFoldedString, makeCaseFoldedString, forall_meets_map]
  simp only [bothRead_iff]
  exact forall_meets_congr sameFold_iff

lemma forall_searches_folded :
    (∀ a b, Searches Eq (makeCaseFoldedString lib t) (makeCaseFoldedString lib p) a b →
      BothRead a b) ↔
    ∀ c d, Searches (SameUpper lib) t p c d → Foldable lib c ∧ Foldable lib d := by
  rw [makeCaseFoldedString, makeCaseFoldedString, forall_searches_map]
  simp only [bothRead_iff]
  exact forall_searches_congr sameFold_iff

@[simp] lemma length_makeCaseFoldedString : (makeCaseFoldedString lib t).length = t.length :=
  List.length_map _

lemma reverse_makeCaseFoldedString :
    (makeCaseFoldedString lib t).reverse = makeCaseFoldedString lib t.reverse :=
  List.map_reverse.symm

/-- **When a case-insensitive matcher is defined**: all bytes it comes to compare can be
folded. -/
theorem insensitive_defined : (m.insensitive lib p).matchesTarget t ≠ none ↔
    ∀ c d, m.Compares lib t p c d → Foldable lib c ∧ Foldable lib d := by
  cases m with
  | eq =>
    have hread : equals (makeCaseFoldedString lib) t p ≠ none ↔ _ := equals_defined
    rw [length_makeCaseFoldedString, length_makeCaseFoldedString] at hread
    refine hread.trans ?_
    by_cases hlen : t.length = p.length
    · simpa only [StringMatcher.Compares, hlen, true_and] using forall_meets_folded
    · simp [StringMatcher.Compares, hlen]
  | startsWith => exact startsWithStored_defined.trans forall_meets_folded
  | endsWith =>
    refine endsWithStored_defined.trans ?_
    rw [reverse_makeCaseFoldedString, reverse_makeCaseFoldedString]
    exact forall_meets_folded
  | contains => exact containsStored_defined.trans forall_searches_folded

/-! ### What they answer -/

/-- Folding a string at once reads as what is read of it on demand. -/
lemma readsAs_folded {f : Int8 → Int8} (hf : Folds lib f) (t : List Int8) :
    List.Forall₂ ReadsAs (makeCaseFoldedString lib t) (makeView (t.map f)) := by
  rw [makeCaseFoldedString, makeView, List.map_map, List.forall₂_map_left_iff,
    List.forall₂_map_right_iff, List.forall₂_same]
  intro c _ d hd
  exact congrArg some (hf c d hd)

/-- **A case-insensitive matcher that is defined** answers as the case-sensitive one does on
the folded strings. -/
theorem insensitive_agrees {f : Int8 → Int8} {b : Bool} (hf : Folds lib f)
    (h : (m.insensitive lib p).matchesTarget t = some b) :
    (m.sensitive (p.map f)).matchesTarget (t.map f) = some b := by
  have ht := readsAs_folded hf t
  have hp := readsAs_folded hf p
  cases m with
  | eq => exact equals_mono ht hp h
  | startsWith => exact startsWithStored_mono ht hp h
  | endsWith => exact endsWithStored_mono ht hp h
  | contains => exact containsStored_mono ht hp h

lemma matchesFolded_of_defined (h : (m.insensitive lib p).matchesTarget t ≠ none) :
    MatchesFolded lib m t p := by
  refine ⟨h, fun f hf => ?_⟩
  obtain ⟨b, hb⟩ := Option.ne_none_iff_exists'.mp h
  rw [hb, insensitive_agrees hf hb]

lemma StringMatcher.Compares.mem (h : m.Compares lib t p c d) : c ∈ t ∧ d ∈ p := by
  cases m with
  | eq => exact h.2.mem
  | startsWith => exact Meets.mem h
  | endsWith => simpa using Meets.mem h
  | contains => exact Searches.mem h

/-- **Strings without negative bytes** are matched as they should be. -/
theorem matchesFolded_of_foldable (ht : ∀ c ∈ t, Foldable lib c) (hp : ∀ d ∈ p, Foldable lib d) :
    MatchesFolded lib m t p :=
  matchesFolded_of_defined
    (insensitive_defined.mpr fun c d h => ⟨ht c h.mem.1, hp d h.mem.2⟩)

/-- **When case-insensitive matching is well defined**: a matcher hands `std::toupper` nothing
from outside of its domain, and agrees with the case-sensitive one on the folded strings,
exactly if no byte it comes to compare is negative, `EOF` excepted. -/
theorem matchesFolded_iff : MatchesFolded lib m t p ↔
    ∀ c d, m.Compares lib t p c d → Foldable lib c ∧ Foldable lib d :=
  ⟨fun h => insensitive_defined.mp h.defined,
    fun h => matchesFolded_of_defined (insensitive_defined.mpr h)⟩

/-- The locale a program starts in. -/
def cLocale : CType where
  eof := -1
  eof_neg := Int.neg_neg_of_pos Int.one_pos
  toupper c := if 97 ≤ c ∧ c ≤ 122 then c - 32 else c

/-- The byte of a letter in Latin-1 does not even compare with itself. -/
theorem not_matchesFolded_latin1 :
    ¬ ∀ (m : StringMatcher) (t p : List Int8), MatchesFolded cLocale m t p := by
  intro h
  exact (h .eq [-28] [-28]).defined (by decide)

end MimicPP.CaseFolding

import Mathlib.Data.List.Forall2
import Mathlib.Tactic.Common

/-!
Algorithms that walk over two ranges and compare their elements.

A range is given by what reading its elements yields, `none` where that is undefined.
Elements are read when they are compared, so an algorithm is undefined only if it comes to
such an element. Iterators are positions.
-/

namespace MimicPP.Ranges

/-! ### The algorithms -/

section Algorithms

variable {α : Type*} [DecidableEq α]

/-- A comparison reads both of its elements. -/
def sameElement : Option α → Option α → Option Bool
  | some a, some b => some (decide (a = b))
  | _, _ => none

/-- The loop of `equal`, for ranges of one size. -/
def equalLoop : List (Option α) → List (Option α) → Option Bool
  | x :: xs, y :: ys =>
    match sameElement x y with
    | none => none
    | some false => some false
    | some true => equalLoop xs ys
  | _, _ => some true

/-- Ranges that know their sizes are only read if these agree. -/
def equal (xs ys : List (Option α)) : Option Bool :=
  if xs.length = ys.length then equalLoop xs ys else some false

/-- The first positions at which the ranges differ, or one of them ends. -/
def mismatch : List (Option α) → List (Option α) → Option (ℕ × ℕ)
  | x :: xs, y :: ys =>
    match sameElement x y with
    | none => none
    | some false => some (0, 0)
    | some true => (mismatch xs ys).map fun r => (r.1 + 1, r.2 + 1)
  | _, _ => some (0, 0)

/-- How one attempt of a search ends. -/
inductive Attempt
  | found (length : ℕ) | exhausted | differs
  deriving DecidableEq, Repr

/-- The same outcome, seen from one position further left. -/
def Attempt.succ : Attempt → Attempt
  | .found n => .found (n + 1)
  | .exhausted => .exhausted
  | .differs => .differs

/-- The inner loop of `search`, which asks for the end of the pattern first. -/
def attempt : List (Option α) → List (Option α) → Option Attempt
  | _, [] => some (.found 0)
  | [], _ :: _ => some .exhausted
  | x :: xs, y :: ys =>
    match sameElement x y with
    | none => none
    | some false => some .differs
    | some true => (attempt xs ys).map Attempt.succ

/-- The subrange of the target at which the pattern is first found, the empty one at the end
of the target if it is not. The search is over when the target ends during an attempt. The
language leaves open which elements are compared; the order is the one of libstdc++. -/
def search : List (Option α) → List (Option α) → Option (ℕ × ℕ)
  | [], _ => some (0, 0)
  | x :: xs, pattern =>
    match attempt (x :: xs) pattern with
    | none => none
    | some (.found n) => some (0, n)
    | some .exhausted => some ((x :: xs).length, (x :: xs).length)
    | some .differs => (search xs pattern).map fun r => (r.1 + 1, r.2 + 1)

end Algorithms

/-! ### What the algorithms come to -/

section Meets

variable {α β γ δ : Type*}

/-- A pass over two ranges in step comes to a pair of elements: all pairs in front of it are
the same. -/
inductive Meets (same : α → β → Prop) : List α → List β → α → β → Prop
  | head {x y xs ys} : Meets same (x :: xs) (y :: ys) x y
  | tail {x y xs ys a b} : same x y → Meets same xs ys a b → Meets same (x :: xs) (y :: ys) a b

/-- Two ranges differ before one of them ends. -/
def Differ (same : α → β → Prop) (xs : List α) (ys : List β) : Prop :=
  ∃ a b, Meets same xs ys a b ∧ ¬ same a b

/-- A search comes to a pair of elements: at every start in front, target and pattern
differ. -/
inductive Searches (same : α → β → Prop) : List α → List β → α → β → Prop
  | here {xs ys a b} : Meets same xs ys a b → Searches same xs ys a b
  | next {x xs ys a b} : Differ same (x :: xs) ys → Searches same xs ys a b →
      Searches same (x :: xs) ys a b

variable {same : α → β → Prop} {x a : α} {y b : β} {xs : List α} {ys : List β}

@[simp] lemma not_meets_nil_left : ¬ Meets same [] ys a b := by rintro ⟨⟩
@[simp] lemma not_meets_nil_right : ¬ Meets same xs [] a b := by rintro ⟨⟩

lemma meets_cons : Meets same (x :: xs) (y :: ys) a b ↔
    (a = x ∧ b = y) ∨ (same x y ∧ Meets same xs ys a b) := by
  constructor
  · rintro (_ | ⟨hsame, hmeets⟩)
    · exact .inl ⟨rfl, rfl⟩
    · exact .inr ⟨hsame, hmeets⟩
  · rintro (⟨rfl, rfl⟩ | ⟨hsame, hmeets⟩)
    · exact .head
    · exact .tail hsame hmeets

/-- **The position of a pair a pass comes to.** -/
theorem meets_iff_getElem? : Meets same xs ys a b ↔
    ∃ i : ℕ, xs[i]? = some a ∧ ys[i]? = some b ∧
      ∀ j c d, j < i → xs[j]? = some c → ys[j]? = some d → same c d := by
  constructor
  · intro h
    induction h with
    | head => exact ⟨0, rfl, rfl, fun j _ _ hj => absurd hj (Nat.not_lt_zero _)⟩
    | tail hsame _ ih =>
      obtain ⟨i, ha, hb, hall⟩ := ih
      refine ⟨i + 1, ha, hb, fun j c d hj hc hd => ?_⟩
      cases j with
      | zero =>
        obtain rfl := Option.some.inj hc
        obtain rfl := Option.some.inj hd
        exact hsame
      | succ j => exact hall j c d (Nat.lt_of_succ_lt_succ hj) hc hd
  · rintro ⟨i, ha, hb, hall⟩
    induction xs generalizing ys i with
    | nil => cases ha
    | cons x xs ih =>
      cases ys with
      | nil => cases hb
      | cons y ys =>
        cases i with
        | zero =>
          obtain rfl := Option.some.inj ha
          obtain rfl := Option.some.inj hb
          exact .head
        | succ i =>
          refine .tail (hall 0 x y (Nat.succ_pos i) rfl rfl) (ih i ha hb fun j c d hj => ?_)
          exact hall (j + 1) c d (Nat.succ_lt_succ hj)

lemma Meets.mem (h : Meets same xs ys a b) : a ∈ xs ∧ b ∈ ys := by
  obtain ⟨i, ha, hb, -⟩ := meets_iff_getElem?.mp h
  exact ⟨List.mem_of_getElem? ha, List.mem_of_getElem? hb⟩

lemma differ_cons : Differ same (x :: xs) (y :: ys) ↔
    ¬ same x y ∨ same x y ∧ Differ same xs ys := by
  simp only [Differ, meets_cons]
  grind

@[simp] lemma not_differ_nil_left : ¬ Differ same [] ys := by simp [Differ]
@[simp] lemma not_differ_nil_right : ¬ Differ same xs [] := by simp [Differ]

lemma searches_cons : Searches same (x :: xs) ys a b ↔
    Meets same (x :: xs) ys a b ∨ Differ same (x :: xs) ys ∧ Searches same xs ys a b := by
  constructor
  · rintro (hmeets | ⟨hdiffer, hsearches⟩)
    · exact .inl hmeets
    · exact .inr ⟨hdiffer, hsearches⟩
  · rintro (hmeets | ⟨hdiffer, hsearches⟩)
    · exact .here hmeets
    · exact .next hdiffer hsearches

@[simp] lemma not_searches_nil : ¬ Searches same [] ys a b := by
  rintro (hmeets | _)
  exact not_meets_nil_left hmeets

@[simp] lemma not_searches_nil_right : ¬ Searches same xs [] a b := by
  rintro (hmeets | ⟨hdiffer, -⟩)
  · exact not_meets_nil_right hmeets
  · exact not_differ_nil_right hdiffer

lemma Searches.mem (h : Searches same xs ys a b) : a ∈ xs ∧ b ∈ ys := by
  induction h with
  | here hmeets => exact hmeets.mem
  | next _ _ ih => exact ⟨List.mem_cons_of_mem _ ih.1, ih.2⟩

/-! ### Conditions on all that is come to -/

variable {same' : α → β → Prop} {P : α → β → Prop}

lemma forall_meets_cons : (∀ a b, Meets same (x :: xs) (y :: ys) a b → P a b) ↔
    P x y ∧ (same x y → ∀ a b, Meets same xs ys a b → P a b) := by
  simp only [meets_cons]
  grind

lemma forall_searches_cons : (∀ a b, Searches same (x :: xs) ys a b → P a b) ↔
    (∀ a b, Meets same (x :: xs) ys a b → P a b) ∧
      (Differ same (x :: xs) ys → ∀ a b, Searches same xs ys a b → P a b) := by
  simp only [searches_cons]
  grind

/-- What counts as the same matters only where the condition holds: a pass has broken it
already when it comes to anything else. -/
lemma forall_meets_congr (hsame : ∀ a b, P a b → (same a b ↔ same' a b)) :
    (∀ a b, Meets same xs ys a b → P a b) ↔ ∀ a b, Meets same' xs ys a b → P a b := by
  induction xs generalizing ys with
  | nil => simp
  | cons x xs ih =>
    cases ys with
    | nil => simp
    | cons y ys =>
      rw [forall_meets_cons, forall_meets_cons, ih]
      exact and_congr_right fun hP => by rw [hsame x y hP]

lemma differ_congr (hsame : ∀ a b, P a b → (same a b ↔ same' a b))
    (h : ∀ a b, Meets same xs ys a b → P a b) : Differ same xs ys ↔ Differ same' xs ys := by
  induction xs generalizing ys with
  | nil => simp
  | cons x xs ih =>
    cases ys with
    | nil => simp
    | cons y ys =>
      obtain ⟨hP, hrest⟩ := forall_meets_cons.mp h
      rw [differ_cons, differ_cons, ← hsame x y hP]
      exact or_congr_right (and_congr_right fun hxy => ih (hrest hxy))

lemma forall_searches_congr (hsame : ∀ a b, P a b → (same a b ↔ same' a b)) :
    (∀ a b, Searches same xs ys a b → P a b) ↔ ∀ a b, Searches same' xs ys a b → P a b := by
  induction xs with
  | nil => simp
  | cons x xs ih =>
    rw [forall_searches_cons, forall_searches_cons, ih, ← forall_meets_congr hsame]
    exact and_congr_right fun hmeets => by rw [differ_congr hsame hmeets]

/-! ### Images of ranges -/

/-- What a pass comes to in the images of two ranges. -/
lemma forall_meets_map {f : γ → α} {g : δ → β} {xs : List γ} {ys : List δ} :
    (∀ a b, Meets same (xs.map f) (ys.map g) a b → P a b) ↔
      ∀ c d, Meets (fun c d => same (f c) (g d)) xs ys c d → P (f c) (g d) := by
  induction xs generalizing ys with
  | nil => simp
  | cons x xs ih =>
    cases ys with
    | nil => simp
    | cons y ys =>
      rw [List.map_cons, List.map_cons, forall_meets_cons, ih,
        forall_meets_cons (P := fun c d => P (f c) (g d))]

lemma differ_map {f : γ → α} {g : δ → β} {xs : List γ} {ys : List δ} :
    Differ same (xs.map f) (ys.map g) ↔ Differ (fun c d => same (f c) (g d)) xs ys := by
  have hall : (∀ a b, Meets same (xs.map f) (ys.map g) a b → same a b) ↔
      ∀ c d, Meets (fun c d => same (f c) (g d)) xs ys c d → same (f c) (g d) := forall_meets_map
  simp only [Differ]
  grind

lemma forall_searches_map {f : γ → α} {g : δ → β} {xs : List γ} {ys : List δ} :
    (∀ a b, Searches same (xs.map f) (ys.map g) a b → P a b) ↔
      ∀ c d, Searches (fun c d => same (f c) (g d)) xs ys c d → P (f c) (g d) := by
  induction xs with
  | nil => simp
  | cons x xs ih =>
    rw [List.map_cons, forall_searches_cons, ih, ← List.map_cons, forall_meets_map, differ_map,
      forall_searches_cons (P := fun c d => P (f c) (g d))]

end Meets

/-! ### When the algorithms are defined -/

/-- Both elements of a pair can be read. -/
def BothRead {α : Type*} (x y : Option α) : Prop := x ≠ none ∧ y ≠ none

section Defined

variable {α : Type*} [DecidableEq α] {x y : Option α} {xs ys : List (Option α)}

lemma sameElement_cases (x y : Option α) :
    (sameElement x y = none ∧ ¬ BothRead x y) ∨
    (sameElement x y = some true ∧ BothRead x y ∧ x = y) ∨
    (sameElement x y = some false ∧ BothRead x y ∧ x ≠ y) := by
  rcases x with _ | a
  · exact .inl ⟨rfl, fun h => h.1 rfl⟩
  · rcases y with _ | b
    · exact .inl ⟨rfl, fun h => h.2 rfl⟩
    · by_cases hab : a = b <;> simp [sameElement, BothRead, hab]

/-- The loop of `equal` asks whether the pass gets to an end. -/
lemma equalLoop_eq : equalLoop xs ys =
    (mismatch xs ys).map fun r => decide (r.1 = xs.length ∨ r.2 = ys.length) := by
  induction xs generalizing ys with
  | nil => simp [equalLoop, mismatch]
  | cons x xs ih =>
    cases ys with
    | nil => simp [equalLoop, mismatch]
    | cons y ys =>
      rw [equalLoop, mismatch]
      rcases sameElement x y with _ | _ | _
      · rfl
      · simp
      · simp [ih, Function.comp_def]

/-- An attempt asks to whose end. -/
lemma attempt_eq : attempt xs ys = (mismatch xs ys).map fun r =>
    if r.2 = ys.length then .found r.2 else if r.1 = xs.length then .exhausted else .differs := by
  induction xs generalizing ys with
  | nil => cases ys <;> simp [attempt, mismatch]
  | cons x xs ih =>
    cases ys with
    | nil => simp [attempt, mismatch]
    | cons y ys =>
      rw [attempt, mismatch]
      rcases sameElement x y with _ | _ | _
      · rfl
      · simp
      · rw [ih, Option.map_map, Option.map_map]
        refine Option.map_congr fun r _ => ?_
        simp only [Function.comp_def, List.length_cons, Nat.add_right_cancel_iff]
        split
        · rfl
        · split <;> rfl

/-- **A pass is defined** if all it comes to can be read. -/
theorem mismatch_defined : mismatch xs ys ≠ none ↔ ∀ a b, Meets Eq xs ys a b → BothRead a b := by
  induction xs generalizing ys with
  | nil => simp [mismatch]
  | cons x xs ih =>
    cases ys with
    | nil => simp [mismatch]
    | cons y ys =>
      rw [forall_meets_cons, ← ih, mismatch]
      rcases sameElement_cases x y with ⟨hsame, hread⟩ | ⟨hsame, hread, heq⟩ | ⟨hsame, hread, hne⟩
      · simp [hsame, hread]
      · simp only [hsame, hread, true_and, ne_eq, Option.map_eq_none_iff]
        simp [heq]
      · simp [hsame, hread, hne]

/-- It stops before either end where the ranges differ. -/
lemma mismatch_differ {r : ℕ × ℕ} (h : mismatch xs ys = some r) :
    Differ Eq xs ys ↔ r.1 ≠ xs.length ∧ r.2 ≠ ys.length := by
  induction xs generalizing ys r with
  | nil =>
    obtain rfl : (0, 0) = r := by simpa [mismatch] using h
    simp
  | cons x xs ih =>
    cases ys with
    | nil =>
      obtain rfl : (0, 0) = r := by simpa [mismatch] using h
      simp
    | cons y ys =>
      rw [mismatch] at h
      rw [differ_cons]
      rcases sameElement_cases x y with ⟨hsame, -⟩ | ⟨hsame, -, heq⟩ | ⟨hsame, -, hne⟩
      · simp [hsame] at h
      · simp only [hsame] at h
        obtain ⟨r', hr', rfl⟩ := Option.map_eq_some_iff.mp h
        simp [heq, ih hr']
      · simp only [hsame] at h
        obtain rfl := Option.some.inj h
        simp [hne]

/-- Ranges of different sizes are not read at all. -/
theorem equal_defined : equal xs ys ≠ none ↔
    ∀ a b, xs.length = ys.length ∧ Meets Eq xs ys a b → BothRead a b := by
  unfold equal
  split
  · rename_i hlen
    simp only [equalLoop_eq, ne_eq, Option.map_eq_none_iff, hlen, true_and]
    exact mismatch_defined
  · rename_i hlen
    simp [hlen]

lemma attempt_defined : attempt xs ys ≠ none ↔ ∀ a b, Meets Eq xs ys a b → BothRead a b := by
  rw [attempt_eq, ne_eq, Option.map_eq_none_iff]
  exact mismatch_defined

lemma attempt_differs {r : Attempt} (h : attempt xs ys = some r) :
    Differ Eq xs ys ↔ r = .differs := by
  rw [attempt_eq] at h
  obtain ⟨q, hq, rfl⟩ := Option.map_eq_some_iff.mp h
  rw [mismatch_differ hq]
  split
  · simp [*]
  · split <;> simp [*]

/-- **A search is defined** if all it comes to can be read. -/
theorem search_defined : search xs ys ≠ none ↔ ∀ a b, Searches Eq xs ys a b → BothRead a b := by
  induction xs with
  | nil => simp [search]
  | cons x xs ih =>
    rw [search, forall_searches_cons, ← attempt_defined]
    rcases hattempt : attempt (x :: xs) ys with _ | r
    · simp
    · rw [attempt_differs hattempt]
      -- only a difference leads on to the next start
      cases r with
      | found n => simp
      | exhausted => simp
      | differs => simpa using ih

end Defined

/-! ### What the algorithms return -/

section Results

variable {α : Type*} [DecidableEq α] {x x' y y' : Option α} {xs xs' ys ys' : List (Option α)}
variable {as bs : List α}

/-- What can be read in the first place reads the same in the second. -/
def ReadsAs (x x' : Option α) : Prop := ∀ a, x = some a → x' = some a

lemma sameElement_mono {b : Bool} (hx : ReadsAs x x') (hy : ReadsAs y y')
    (h : sameElement x y = some b) : sameElement x' y' = some b := by
  rcases x with _ | a
  · cases h
  · rcases y with _ | c
    · cases h
    · rw [hx a rfl, hy c rfl]
      exact h

/-- **A pass that is defined does not depend on what it does not read.** -/
theorem mismatch_mono {r : ℕ × ℕ} (hxs : List.Forall₂ ReadsAs xs xs')
    (hys : List.Forall₂ ReadsAs ys ys') (h : mismatch xs ys = some r) :
    mismatch xs' ys' = some r := by
  induction hxs generalizing ys ys' r with
  | nil => cases hys <;> simpa [mismatch] using h
  | cons hx _ ih =>
    cases hys with
    | nil => simpa [mismatch] using h
    | cons hy hys =>
      rw [mismatch] at h ⊢
      split at h
      · cases h
      · rename_i hsame
        simpa only [sameElement_mono hx hy hsame] using h
      · rename_i hsame
        obtain ⟨r', hr', rfl⟩ := Option.map_eq_some_iff.mp h
        simp only [sameElement_mono hx hy hsame, ih hys hr', Option.map_some]

lemma equal_mono {b : Bool} (hxs : List.Forall₂ ReadsAs xs xs')
    (hys : List.Forall₂ ReadsAs ys ys') (h : equal xs ys = some b) : equal xs' ys' = some b := by
  unfold equal at h ⊢
  rw [← hxs.length_eq, ← hys.length_eq]
  split at h
  · rename_i hlen
    rw [equalLoop_eq] at h
    obtain ⟨r, hr, rfl⟩ := Option.map_eq_some_iff.mp h
    rw [if_pos hlen, equalLoop_eq, mismatch_mono hxs hys hr, Option.map_some, hxs.length_eq,
      hys.length_eq]
  · rename_i hlen
    rw [if_neg hlen]
    exact h

lemma attempt_mono {r : Attempt} (hxs : List.Forall₂ ReadsAs xs xs')
    (hys : List.Forall₂ ReadsAs ys ys') (h : attempt xs ys = some r) :
    attempt xs' ys' = some r := by
  rw [attempt_eq] at h ⊢
  obtain ⟨r', hr', rfl⟩ := Option.map_eq_some_iff.mp h
  rw [mismatch_mono hxs hys hr', Option.map_some, hxs.length_eq, hys.length_eq]

lemma search_mono {r : ℕ × ℕ} (hxs : List.Forall₂ ReadsAs xs xs')
    (hys : List.Forall₂ ReadsAs ys ys') (h : search xs ys = some r) :
    search xs' ys' = some r := by
  induction hxs generalizing r with
  | nil => simpa [search] using h
  | @cons x x' xs xs' hx hxs ih =>
    have hattempt : ∀ {q}, attempt (x :: xs) ys = some q → attempt (x' :: xs') ys' = some q :=
      attempt_mono (.cons hx hxs) hys
    rw [search] at h ⊢
    split at h
    · cases h
    · rename_i hfound
      simpa only [hattempt hfound] using h
    · rename_i hexhausted
      simpa only [hattempt hexhausted, List.length_cons, hxs.length_eq] using h
    · rename_i hdiffers
      obtain ⟨r', hr', rfl⟩ := Option.map_eq_some_iff.mp h
      simp only [hattempt hdiffers, ih hr', Option.map_some]

/-- **A pass over readable ranges** gets to the end of one that is a prefix of the other. -/
theorem mismatch_map_some (as bs : List α) :
    ∃ n, mismatch (as.map some) (bs.map some) = some (n, n) ∧
      (n = bs.length ↔ bs <+: as) ∧ (n = as.length ↔ as <+: bs) := by
  induction as generalizing bs with
  | nil => exact ⟨0, by simp [mismatch], by cases bs <;> simp, by simp⟩
  | cons a as ih =>
    cases bs with
    | nil => exact ⟨0, by simp [mismatch], by simp, by simp⟩
    | cons b bs =>
      by_cases hab : a = b
      · obtain ⟨n, hn, hbs, has⟩ := ih bs
        exact ⟨n + 1, by simp [mismatch, sameElement, hab, hn], by simp [hab, hbs],
          by simp [hab, has]⟩
      · exact ⟨0, by simp [mismatch, sameElement, hab], by simp [Ne.symm hab], by simp [hab]⟩

theorem equal_map_some (as bs : List α) :
    equal (as.map some) (bs.map some) = some (decide (as = bs)) := by
  unfold equal
  split
  · rename_i hlen
    rw [List.length_map, List.length_map] at hlen
    obtain ⟨n, hn, hbs, has⟩ := mismatch_map_some as bs
    rw [equalLoop_eq, hn, Option.map_some, List.length_map, List.length_map, Option.some_inj,
      decide_eq_decide, hbs, has]
    constructor
    · rintro (hpre | hpre)
      · exact hpre.eq_of_length hlen
      · exact (hpre.eq_of_length hlen.symm).symm
    · rintro rfl
      exact .inl List.prefix_rfl
  · rename_i hlen
    have hne : as ≠ bs := by rintro rfl; exact hlen rfl
    simp [hne]

/-- **A search over readable ranges** ends in an empty subrange unless the pattern occurs. -/
theorem search_map_some (as : List α) (hbs : bs ≠ []) :
    ∃ r, search (as.map some) (bs.map some) = some r ∧ (r.1 ≠ r.2 ↔ bs <:+: as) := by
  induction as with
  | nil => exact ⟨(0, 0), by simp [search], by simp [hbs]⟩
  | cons a as ih =>
    obtain ⟨n, hn, hend, hexhausted⟩ := mismatch_map_some (a :: as) bs
    have hattempt : attempt ((a :: as).map some) (bs.map some) = _ := attempt_eq
    rw [hn, Option.map_some, List.length_map, List.length_map] at hattempt
    rw [List.map_cons] at hattempt ⊢
    rw [search, hattempt]
    by_cases hpre : bs <+: a :: as
    · -- found at the first start
      have hpos : 0 ≠ n := by
        rw [hend.mpr hpre]
        exact Nat.ne_of_lt (List.length_pos_of_ne_nil hbs)
      refine ⟨(0, n), by simp [hend.mpr hpre], ?_⟩
      exact iff_of_true hpos hpre.isInfix
    · have hne : n ≠ bs.length := fun h => hpre (hend.mp h)
      rw [if_neg hne]
      by_cases hlen : n = (a :: as).length
      · -- what is left of the target is a proper prefix of the pattern
        have hnot : ¬ bs <:+: a :: as := by
          intro hinfix
          have htarget := hexhausted.mp hlen
          have hle := hinfix.length_le
          rw [htarget.eq_of_length_le hle] at hpre
          exact hpre List.prefix_rfl
        rw [if_pos hlen]
        exact ⟨_, rfl, by simp [hnot]⟩
      · obtain ⟨r, hr, hiff⟩ := ih
        rw [if_neg hlen]
        exact ⟨(r.1 + 1, r.2 + 1), by simp [hr], by simp [List.infix_cons_iff, hpre, hiff]⟩

end Results

end MimicPP.Ranges

import Mathlib.Tactic.Common

/-!
Words of which only the order of dependent letters matters.

Two words are the same up to commutation if one becomes the other by letting neighbours that are
independent change places. What goes through a word letter by letter makes the same of both, if
it makes the same of two independent letters in either order.
-/

namespace MimicPP.Commutation

variable {α S T : Type*}

/-- The words differ in the order of independent letters at most. -/
inductive Commuted (I : α → α → Prop) : List α → List α → Prop
  | nil : Commuted I [] []
  | cons (a : α) {l l' : List α} : Commuted I l l' → Commuted I (a :: l) (a :: l')
  | swap {a b : α} (l : List α) : I a b → Commuted I (a :: b :: l) (b :: a :: l)
  | trans {l₁ l₂ l₃ : List α} : Commuted I l₁ l₂ → Commuted I l₂ l₃ → Commuted I l₁ l₃

namespace Commuted

variable {I : α → α → Prop} {l l' : List α}

lemma refl (l : List α) : Commuted I l l := by
  induction l with
  | nil => exact .nil
  | cons a l ih => exact ih.cons a

lemma append_left (k : List α) (h : Commuted I l l') : Commuted I (k ++ l) (k ++ l') := by
  induction k with
  | nil => exact h
  | cons a k ih => exact ih.cons a

lemma append_right (h : Commuted I l l') (k : List α) : Commuted I (l ++ k) (l' ++ k) := by
  induction h with
  | nil => exact refl k
  | cons a _ ih => exact ih.cons a
  | swap l hab => exact .swap (l ++ k) hab
  | trans _ _ ih ih' => exact ih.trans ih'

/-- **What a run leaves behind does not depend on the order of independent letters**, up to `R`,
if two steps do not. -/
theorem run {R : S → S → Prop} {f : S → α → S} (hrefl : ∀ s, R s s)
    (htrans : ∀ {s t u}, R s t → R t u → R s u) (hstep : ∀ {s s'} a, R s s' → R (f s a) (f s' a))
    (hswap : ∀ s {a b}, I a b → R (f (f s a) b) (f (f s b) a)) (h : Commuted I l l') (s : S) :
    R (l.foldl f s) (l'.foldl f s) := by
  induction h generalizing s with
  | nil => exact hrefl s
  | cons a _ ih => exact ih (f s a)
  | swap l hab => exact List.foldl_rel (hswap s hab) fun a _ _ _ => hstep a
  | trans _ _ ih ih' => exact htrans (ih s) (ih' s)

/-- The same for what is computed from the end of a word. -/
theorem eq_of_step {F : List α → T} {G : α → T → T} (hF : ∀ a l, F (a :: l) = G a (F l))
    (hG : ∀ {a b}, I a b → ∀ t, G a (G b t) = G b (G a t)) (h : Commuted I l l') :
    F l = F l' := by
  induction h with
  | nil => rfl
  | cons a _ ih => rw [hF, hF, ih]
  | swap l hab => rw [hF, hF, hF, hF, hG hab]
  | trans _ _ ih ih' => exact ih.trans ih'

end Commuted

end MimicPP.Commutation

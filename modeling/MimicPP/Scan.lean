import Mathlib.Data.List.Basic
import Mathlib.Tactic.Common

/-!
Choosing from a list by one pass that keeps a candidate and replaces it when the comparison
with the next element goes against it.

The comparison need not be transitive or antisymmetric, so in general the pass may miss the
best element. Two situations are settled here in which it does not: the comparison depends
on the order of the list in a staged way, or only the elements of one class ever replace
each other.
-/

namespace MimicPP.Scan

variable {α : Type*}

/-- The candidate left at the end, the pass being entered with a candidate. -/
def scan (keeps : α → α → Bool) : α → List α → α
  | best, [] => best
  | best, a :: l => if keeps best a then scan keeps best l else scan keeps a l

variable {keeps : α → α → Bool}

lemma scan_mem (best : α) (l : List α) : scan keeps best l ∈ best :: l := by
  induction l generalizing best with
  | nil => simp [scan]
  | cons a l ih =>
    rw [scan]
    split
    · rcases List.mem_cons.mp (ih best) with h | h
      · exact List.mem_cons.mpr (Or.inl h)
      · exact List.mem_cons_of_mem _ (List.mem_cons_of_mem _ h)
    · exact List.mem_cons_of_mem _ (ih a)

/-- A candidate nothing goes against is never replaced. -/
lemma scan_of_keeps {best : α} {l : List α} (h : ∀ a ∈ l, keeps best a = true) :
    scan keeps best l = best := by
  induction l with
  | nil => rfl
  | cons a l ih =>
    rw [scan, if_pos (h a (by simp)), ih fun b hb => h b (List.mem_cons_of_mem _ hb)]

/-- The comparison of two elements is decided by an inclusion `sub` and by a property of the
first of the two, `up` if it stands before the other in the list and `down` if behind. -/
structure Staged (keeps : α → α → Bool) (sub : α → α → Prop) (up down : α → Prop)
    (l : List α) : Prop where
  refl : ∀ a ∈ l, keeps a a = true
  trans : ∀ a b c, sub a b → sub b c → sub a c
  forward : l.Pairwise fun a b => (keeps a b = false ↔ sub a b ∧ up a)
  backward : l.Pairwise fun a b => (keeps b a = false → sub b a ∧ down b)
  exclusive : ∀ a ∈ l, ∀ b ∈ l, sub a b → sub b a → up a → ¬ down b

/-- The invariant of the pass: the candidate holds against everything seen so far, and what
includes a candidate that may still be replaced is included in it. -/
def Leads (keeps : α → α → Bool) (sub : α → α → Prop) (up : α → Prop) (best : α)
    (seen : List α) : Prop :=
  ∀ a ∈ seen, keeps best a = true ∧ (up best → sub best a → sub a best)

variable {sub : α → α → Prop} {up down : α → Prop}

lemma Leads.keep {best a : α} {seen l : List α} (hs : Staged keeps sub up down (seen ++ a :: l))
    (hb : best ∈ seen) (h : Leads keeps sub up best seen) (hk : keeps best a = true) :
    Leads keeps sub up best (seen ++ [a]) := by
  intro m hm
  rcases List.mem_append.mp hm with hm | hm
  · exact h m hm
  · obtain rfl := List.mem_singleton.mp hm
    have hfwd := (List.pairwise_append.mp hs.forward).2.2 best hb m (by simp)
    refine ⟨hk, fun hup hsub => ?_⟩
    rw [hfwd.mpr ⟨hsub, hup⟩] at hk
    cases hk

lemma Leads.replace {best a : α} {seen l : List α}
    (hs : Staged keeps sub up down (seen ++ a :: l)) (hb : best ∈ seen)
    (h : Leads keeps sub up best seen) (hk : keeps best a = false) :
    Leads keeps sub up a (seen ++ [a]) := by
  have ha : a ∈ seen ++ a :: l := by simp
  obtain ⟨hsub, hup⟩ := ((List.pairwise_append.mp hs.forward).2.2 best hb a (by simp)).mp hk
  -- what includes the new candidate includes the old one, and so is included in it
  have hback : ∀ m ∈ seen, sub a m → sub m best := fun m hm ham =>
    (h m hm).2 hup (hs.trans _ _ _ hsub ham)
  intro m hm
  rcases List.mem_append.mp hm with hm | hm
  · refine ⟨?_, fun _ ham => hs.trans _ _ _ (hback m hm ham) hsub⟩
    by_contra hne
    have hbwd := (List.pairwise_append.mp hs.backward).2.2 m hm a (by simp)
    obtain ⟨ham, hdown⟩ := hbwd (by simpa using hne)
    have hab : sub a best := hs.trans _ _ _ ham (hback m hm ham)
    exact hs.exclusive best (List.mem_append_left _ hb) a ha hsub hab hup hdown
  · obtain rfl := List.mem_singleton.mp hm
    exact ⟨hs.refl m ha, fun _ h => h⟩

lemma Leads.scan {best : α} {seen l : List α} (hs : Staged keeps sub up down (seen ++ l))
    (hb : best ∈ seen) (h : Leads keeps sub up best seen) :
    ∀ m ∈ seen ++ l, keeps (scan keeps best l) m = true := by
  induction l generalizing best seen with
  | nil => intro m hm; exact (h m (by simpa using hm)).1
  | cons a l ih =>
    have hassoc : seen ++ a :: l = (seen ++ [a]) ++ l := by simp
    rw [hassoc] at hs ⊢
    rw [Scan.scan]
    by_cases hk : keeps best a = true
    · rw [if_pos hk]
      exact ih hs (by simp [hb]) (h.keep (by rwa [hassoc]) hb hk)
    · rw [if_neg hk]
      exact ih hs (by simp) (h.replace (by rwa [hassoc]) hb (by simpa using hk))

/-- **A staged comparison leads to an undominated choice**, also against the elements the
choice was never compared with. -/
theorem scan_undominated {best : α} {l : List α} (hs : Staged keeps sub up down (best :: l)) :
    ∀ m ∈ best :: l, keeps (scan keeps best l) m = true := by
  have hlead : Leads keeps sub up best [best] := by
    intro m hm
    obtain rfl := List.mem_singleton.mp hm
    exact ⟨hs.refl m (by simp), fun _ h => h⟩
  exact hlead.scan hs (by simp)

/-- **A class whose later elements replace the earlier ones**: the choice is its last
element. -/
theorem scan_last {best : α} {l : List α} (cls : α → Prop) (hbest : cls best)
    (hs : (best :: l).Pairwise fun a b => cls a → (keeps a b = false ↔ cls b)) :
    cls (scan keeps best l) ∧
      ∃ before after, best :: l = before ++ scan keeps best l :: after ∧
        ∀ a ∈ after, ¬ cls a := by
  induction l generalizing best with
  | nil => exact ⟨hbest, [], [], rfl, by simp⟩
  | cons a l ih =>
    obtain ⟨hhead, htail⟩ := List.pairwise_cons.mp hs
    have hstep := hhead a (by simp) hbest
    rw [Scan.scan]
    by_cases hk : keeps best a = true
    · rw [if_pos hk]
      have ha : ¬ cls a := by rw [← hstep]; simp [hk]
      obtain ⟨hcls, before, after, hsplit, hafter⟩ := ih hbest
        (List.pairwise_cons.mpr ⟨fun b hb => hhead b (List.mem_cons_of_mem _ hb),
          (List.pairwise_cons.mp htail).2⟩)
      refine ⟨hcls, ?_⟩
      rcases before with _ | ⟨b, before⟩
      · -- the candidate itself is left, and the skipped element is not of its class
        obtain ⟨hb, hl⟩ : best = scan keeps best l ∧ l = after := by simpa using hsplit
        refine ⟨[], a :: l, by rw [← hb]; rfl, fun m hm => ?_⟩
        rcases List.mem_cons.mp hm with rfl | hm
        · exact ha
        · exact hafter m (hl ▸ hm)
      · obtain ⟨rfl, hl⟩ : best = b ∧ l = before ++ scan keeps best l :: after := by
          simpa using hsplit
        exact ⟨best :: a :: before, after, by rw [List.cons_append, List.cons_append, ← hl],
          hafter⟩
    · rw [if_neg hk]
      have ha : cls a := hstep.mp (by simpa using hk)
      obtain ⟨hcls, before, after, hsplit, hafter⟩ := ih ha htail
      exact ⟨hcls, best :: before, after, by rw [hsplit, List.cons_append], hafter⟩

end MimicPP.Scan

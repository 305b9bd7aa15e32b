import Mathlib.Algebra.Group.Nat.Defs
import Mathlib.Data.List.OfFn
import Mathlib.Tactic.Common

/-!
Printers whose output can be told apart from what is put behind it.

A printer writes words over some alphabet. It is readable, where certain words may follow its
outputs, if no two printed words followed by such words look alike unless the printed things
and what follows are the same. Printers that are put together from readable ones are readable.
-/

namespace MimicPP.Delimited

variable {α β γ δ : Type*}

/-- What satisfies `P` can be read off what `print` makes of it, whatever follows that `K`
allows. -/
def Readable (P : β → Prop) (K : List α → Prop) (print : β → List α) : Prop :=
  ∀ a b r s, P a → P b → K r → K s → print a ++ r = print b ++ s → a = b ∧ r = s

/-- Nothing that satisfies `D` stands in front. -/
def Stops (D : α → Prop) (r : List α) : Prop := ∀ c ∈ r.head?, ¬ D c

variable {P P' : β → Prop} {Q : γ → Prop} {K K' : List α → Prop} {D : α → Prop}
variable {p : β → List α} {q : γ → List α}

@[simp] lemma stops_nil : Stops D [] := by simp [Stops]

@[simp] lemma stops_cons {c : α} {r : List α} : Stops D (c :: r) ↔ ¬ D c := by simp [Stops]

namespace Readable

lemma injective (h : Readable P K p) (hK : K []) {a b : β} (ha : P a) (hb : P b)
    (heq : p a = p b) : a = b :=
  (h a b [] [] ha hb hK hK (by rw [heq])).1

lemma mono (h : Readable P K p) (hP : ∀ b, P' b → P b) (hK : ∀ r, K' r → K r) :
    Readable P' K' p :=
  fun a b r s ha hb hr hs => h a b r s (hP a ha) (hP b hb) (hK r hr) (hK s hs)

lemma congr {p' : β → List α} (h : Readable P K p) (hp : ∀ b, p' b = p b) : Readable P K p' := by
  rwa [funext hp]

lemma comap (h : Readable P K p) {f : δ → β} (hf : ∀ a b, P (f a) → P (f b) → f a = f b → a = b) :
    Readable (fun d => P (f d)) K fun d => p (f d) := by
  intro a b r s ha hb hr hs heq
  obtain ⟨hab, hrs⟩ := h _ _ r s ha hb hr hs heq
  exact ⟨hf a b ha hb hab, hrs⟩

/-- A fixed word in front. -/
lemma literal (h : Readable P K p) (l : List α) : Readable P K fun b => l ++ p b := by
  intro a b r s ha hb hr hs heq
  rw [List.append_assoc, List.append_assoc] at heq
  exact h a b r s ha hb hr hs (List.append_cancel_left heq)

/-- A fixed word behind. -/
lemma close (h : Readable P K p) (l : List α) (hl : ∀ r, K' r → K (l ++ r)) :
    Readable P K' fun b => p b ++ l := by
  intro a b r s ha hb hr hs heq
  rw [List.append_assoc, List.append_assoc] at heq
  obtain ⟨hab, hrs⟩ := h a b _ _ ha hb (hl r hr) (hl s hs) heq
  exact ⟨hab, List.append_cancel_left hrs⟩

/-- One after the other. -/
lemma append (hp : Readable P K p) (hq : Readable Q K' q)
    (hK : ∀ c s, Q c → K' s → K (q c ++ s)) :
    Readable (fun x : β × γ => P x.1 ∧ Q x.2) K' fun x => p x.1 ++ q x.2 := by
  rintro ⟨a, c⟩ ⟨b, d⟩ r s ⟨ha, hc⟩ ⟨hb, hd⟩ hr hs heq
  simp only [List.append_assoc] at heq
  obtain ⟨rfl, hrest⟩ := hp a b _ _ ha hb (hK c r hc hr) (hK d s hd hs) heq
  obtain ⟨rfl, hrs⟩ := hq c d r s hc hd hr hs hrest
  exact ⟨rfl, hrs⟩

/-- Any number of them, until something comes that none of them starts like. -/
lemma many (h : Readable P K p) (hnext : ∀ b s, P b → K (p b ++ s)) (hstop : ∀ s, K' s → K s)
    (hne : ∀ b r s, P b → K' s → p b ++ r ≠ s) :
    Readable (fun l : List β => ∀ b ∈ l, P b) K' fun l => l.flatMap p := by
  have hK : ∀ (l : List β) (s : List α), (∀ b ∈ l, P b) → K' s → K (l.flatMap p ++ s) := by
    rintro (_ | ⟨b, l⟩) s hl hs
    · exact hstop s hs
    · rw [List.flatMap_cons, List.append_assoc]
      exact hnext b _ (hl b List.mem_cons_self)
  intro l l' r s hl hl' hr hs heq
  dsimp only at heq
  induction l generalizing l' with
  | nil =>
    rcases l' with _ | ⟨b, l'⟩
    · exact ⟨rfl, heq⟩
    · rw [List.flatMap_nil, List.nil_append, List.flatMap_cons, List.append_assoc] at heq
      exact absurd heq.symm (hne b _ _ (hl' b List.mem_cons_self) hr)
  | cons a l ih =>
    have ⟨ha, hrest⟩ := List.forall_mem_cons.mp hl
    rcases l' with _ | ⟨b, l'⟩
    · rw [List.flatMap_nil, List.nil_append, List.flatMap_cons, List.append_assoc] at heq
      exact absurd heq (hne a _ _ ha hs)
    · have ⟨hb, hrest'⟩ := List.forall_mem_cons.mp hl'
      simp only [List.flatMap_cons, List.append_assoc] at heq
      obtain ⟨rfl, htail⟩ := h a b _ _ ha hb (hK l r hrest hr) (hK l' s hrest' hs) heq
      obtain ⟨rfl, hrs⟩ := ih l' hrest hrest' htail
      exact ⟨rfl, hrs⟩

end Readable

/-! ### Words that end where a letter of a kind comes -/

/-- Two words of letters of one kind, each followed by something else. -/
lemma append_eq_of_stops {l l' r s : List α} (hl : ∀ c ∈ l, D c) (hl' : ∀ c ∈ l', D c)
    (hr : Stops D r) (hs : Stops D s) (heq : l ++ r = l' ++ s) : l = l' ∧ r = s := by
  induction l generalizing l' with
  | nil =>
    rcases l' with _ | ⟨c, l'⟩
    · exact ⟨rfl, heq⟩
    · rw [List.nil_append] at heq
      rw [heq, List.cons_append, stops_cons] at hr
      exact absurd (hl' c List.mem_cons_self) hr
  | cons c l ih =>
    obtain ⟨hc, hl⟩ := List.forall_mem_cons.mp hl
    rcases l' with _ | ⟨d, l'⟩
    · rw [List.nil_append] at heq
      rw [← heq, List.cons_append, stops_cons] at hs
      exact absurd hc hs
    · obtain ⟨rfl, hrest⟩ := List.cons.inj heq
      obtain ⟨rfl, hrs⟩ := ih hl (fun c' hc' => hl' c' (List.mem_cons_of_mem _ hc')) hrest
      exact ⟨rfl, hrs⟩

/-- Words of letters of one kind, followed by something else. -/
lemma readable_span : Readable (fun l : List α => ∀ c ∈ l, D c) (Stops D) fun l => l :=
  fun _ _ _ _ hl hl' hr hs heq => append_eq_of_stops hl hl' hr hs heq

/-- Words without a certain letter, closed by that letter. -/
lemma readable_terminated (c : α) :
    Readable (fun l : List α => c ∉ l) (fun _ => True) fun l => l ++ [c] := by
  refine Readable.close (K := Stops (· ≠ c)) ?_ [c] fun r _ => by simp
  refine readable_span.mono (fun l hl d hd => ?_) fun _ hr => hr
  rintro rfl
  exact hl hd

/-- **Lines are read back**: a text made of terminated words determines the words. -/
theorem flatMap_terminated_injective {c : α} {ls ls' : List (List α)} (h : ∀ l ∈ ls, c ∉ l)
    (h' : ∀ l ∈ ls', c ∉ l) (heq : (ls.flatMap fun l => l ++ [c]) = ls'.flatMap fun l => l ++ [c]) :
    ls = ls' := by
  have hmany : Readable (fun ls : List (List α) => ∀ l ∈ ls, c ∉ l) (· = [])
      fun ls => ls.flatMap fun l => l ++ [c] :=
    (readable_terminated c).many (fun _ _ _ => trivial) (fun _ _ => trivial)
      fun l r s _ hs => by simp [hs]
  exact hmany.injective rfl h h' heq

/-! ### Lists with separators -/

/-- The elements with `sep` between them. -/
def separated (sep : List α) (p : β → List α) : List β → List α
  | [] => []
  | b :: bs => p b ++ bs.flatMap fun b => sep ++ p b

lemma separated_map (sep : List α) (f : δ → β) (l : List δ) :
    separated sep p (l.map f) = separated sep (fun d => p (f d)) l := by
  cases l <;> simp [separated, List.flatMap_map]

/-- **Lists are read back**, from the closing word on if it looks neither like the separator nor
like an element. -/
theorem Readable.separated (sep final : List α) (h : Readable P K p)
    (hsep : ∀ r, K (sep ++ r)) (hfinal : ∀ r, K (final ++ r))
    (hne : ∀ r s, sep ++ r ≠ final ++ s) (hfirst : ∀ b r s, P b → p b ++ r ≠ final ++ s) :
    Readable (fun l : List β => ∀ b ∈ l, P b) (fun _ => True)
      fun l => separated sep p l ++ final := by
  have htail : Readable (fun l : List β => ∀ b ∈ l, P b) (fun _ => True)
      fun l => (l.flatMap fun b => sep ++ p b) ++ final := by
    refine Readable.close (K := fun r => ∃ s, r = final ++ s) ?_ final fun r _ => ⟨r, rfl⟩
    refine (h.literal sep).many (fun b s _ => ?_) ?_ ?_
    · rw [List.append_assoc]
      exact hsep _
    · rintro _ ⟨s, rfl⟩
      exact hfinal s
    · rintro b r _ _ ⟨s, rfl⟩
      rw [List.append_assoc]
      exact hne _ _
  have hK : ∀ (l : List β) r, K ((l.flatMap fun b => sep ++ p b) ++ final ++ r) := by
    rintro (_ | ⟨b, l⟩) r
    · exact hfinal r
    · simp only [List.flatMap_cons, List.append_assoc]
      exact hsep _
  rintro (_ | ⟨a, l⟩) (_ | ⟨b, l'⟩) r s hl hl' - - heq
  · exact ⟨rfl, List.append_cancel_left heq⟩
  · simp only [Delimited.separated, List.nil_append, List.append_assoc] at heq
    exact absurd heq.symm (hfirst b _ _ (hl' b List.mem_cons_self))
  · simp only [Delimited.separated, List.nil_append, List.append_assoc] at heq
    exact absurd heq (hfirst a _ _ (hl a List.mem_cons_self))
  · have ⟨ha, hrest⟩ := List.forall_mem_cons.mp hl
    have ⟨hb, hrest'⟩ := List.forall_mem_cons.mp hl'
    simp only [Delimited.separated, List.append_assoc] at heq
    simp only [← List.append_assoc _ final] at heq
    obtain ⟨rfl, hbehind⟩ := h a b _ _ ha hb (hK l r) (hK l' s) heq
    obtain ⟨rfl, hrs⟩ := htail l l' r s hrest hrest' trivial trivial hbehind
    exact ⟨rfl, hrs⟩

/-- What stands at places with printers of their own, each behind a separator. -/
lemma readable_places (sep final : List α) (hsep : ∀ r, K (sep ++ r))
    (hfinal : ∀ r, K (final ++ r)) {n : ℕ} {τ : Fin n → Type*} {P : ∀ i, τ i → Prop}
    {p : ∀ i, τ i → List α} (h : ∀ i, Readable (P i) K (p i)) :
    (∀ (v : ∀ i, τ i) r,
      K (((List.ofFn fun i => p i (v i)).flatMap fun l => sep ++ l) ++ final ++ r)) ∧
    Readable (fun v : ∀ i, τ i => ∀ i, P i (v i)) (fun _ => True)
      fun v => ((List.ofFn fun i => p i (v i)).flatMap fun l => sep ++ l) ++ final := by
  induction n with
  | zero =>
    refine ⟨fun v r => by simpa using hfinal r, fun v v' r s _ _ _ _ heq => ?_⟩
    exact ⟨funext fun i => i.elim0, List.append_cancel_left heq⟩
  | succ n ih =>
    obtain ⟨hK, hread⟩ := ih fun i => h i.succ
    refine ⟨fun v r => ?_, fun v v' r s hv hv' _ _ heq => ?_⟩
    · simp only [List.ofFn_succ, List.flatMap_cons, List.append_assoc]
      exact hsep _
    · simp only [List.ofFn_succ, List.flatMap_cons, List.append_assoc] at heq
      simp only [← List.append_assoc _ final] at heq
      obtain ⟨hhead, hbehind⟩ := h 0 (v 0) (v' 0) _ _ (hv 0) (hv' 0)
        (hK (fun i => v i.succ) r) (hK (fun i => v' i.succ) s) (List.append_cancel_left heq)
      obtain ⟨hrest, hrs⟩ := hread _ _ r s (fun i => hv i.succ) (fun i => hv' i.succ) trivial
        trivial hbehind
      refine ⟨funext fun i => ?_, hrs⟩
      cases i using Fin.cases with
      | zero => exact hhead
      | succ i => exact congrFun hrest i

/-- **Tuples are read back**, with a printer of its own for every place. -/
theorem readable_tuple (sep final : List α) (hsep : ∀ r, K (sep ++ r))
    (hfinal : ∀ r, K (final ++ r)) {n : ℕ} {τ : Fin n → Type*} {P : ∀ i, τ i → Prop}
    {p : ∀ i, τ i → List α} (h : ∀ i, Readable (P i) K (p i)) :
    Readable (fun v : ∀ i, τ i => ∀ i, P i (v i)) (fun _ => True)
      fun v => separated sep (fun l => l) (List.ofFn fun i => p i (v i)) ++ final := by
  intro v v' r s hv hv' _ _ heq
  rcases n with _ | n
  · exact ⟨funext fun i => i.elim0, List.append_cancel_left heq⟩
  · refine (readable_places sep final hsep hfinal h).2 v v' r s hv hv' trivial trivial ?_
    simpa [List.ofFn_succ, Delimited.separated] using heq

/-! ### Numbers -/

/-- The digits of numbers to the base `b`. -/
def IsDigit (b : ℕ) (c : Char) : Prop := ∃ d < b, c = Nat.digitChar d

instance (b : ℕ) (c : Char) : Decidable (IsDigit b c) := by unfold IsDigit; infer_instance

lemma digitChar_injective : ∀ d < 16, ∀ e < 16, Nat.digitChar d = Nat.digitChar e → d = e := by
  decide

lemma isDigit_of_mem_toDigits {b n : ℕ} (hb : 1 < b) {c : Char} (hc : c ∈ Nat.toDigits b n) :
    IsDigit b c := by
  induction n using Nat.strongRecOn with
  | ind n ih =>
    rw [Nat.toDigits_eq_if hb] at hc
    split at hc
    · rename_i hlt
      exact ⟨n, hlt, by simpa using hc⟩
    · rcases List.mem_append.mp hc with hc | hc
      · exact ih (n / b) (Nat.div_lt_self (by omega) hb) hc
      · exact ⟨n % b, Nat.mod_lt _ (by omega), by simpa using hc⟩

/-- A number begins with a digit. -/
lemma toDigits_eq_cons {b : ℕ} (hb : 1 < b) (n : ℕ) :
    ∃ c l, IsDigit b c ∧ Nat.toDigits b n = c :: l := by
  rcases hn : Nat.toDigits b n with _ | ⟨c, l⟩
  · exact absurd hn Nat.toDigits_ne_nil
  · exact ⟨c, l, isDigit_of_mem_toDigits hb (hn ▸ List.mem_cons_self), rfl⟩

lemma cons_ne_toDigits {b : ℕ} (hb : 1 < b) {c : Char} (hc : ¬ IsDigit b c) (n : ℕ)
    (r s : List Char) : c :: r ≠ Nat.toDigits b n ++ s := by
  obtain ⟨d, l, hd, hn⟩ := toDigits_eq_cons hb n
  rw [hn]
  intro heq
  rw [(List.cons.inj heq).1] at hc
  exact hc hd

lemma toDigits_injective {b : ℕ} (hb : 1 < b) (hb16 : b ≤ 16) {m n : ℕ}
    (h : Nat.toDigits b m = Nat.toDigits b n) : m = n := by
  induction m using Nat.strongRecOn generalizing n with
  | ind m ih =>
    rw [Nat.toDigits_eq_if hb, Nat.toDigits_eq_if (n := n) hb] at h
    split at h <;> split at h
    · exact digitChar_injective m (by omega) n (by omega) (by simpa using h)
    · -- one digit against at least two
      have hlen := congrArg List.length h
      simp at hlen
    · have hlen := congrArg List.length h
      simp at hlen
    · obtain ⟨hdiv, hmod⟩ := List.append_inj' h rfl
      have hm := Nat.mod_lt m (show 0 < b by omega)
      have hn := Nat.mod_lt n (show 0 < b by omega)
      have hdigit : m % b = n % b :=
        digitChar_injective _ (by omega) _ (by omega) (by simpa using hmod)
      have hrest : m / b = n / b := ih (m / b) (Nat.div_lt_self (by omega) hb) hdiv
      rw [← Nat.div_add_mod m b, ← Nat.div_add_mod n b, hdigit, hrest]

/-- Only the number zero is written with a zero in front. -/
lemma toDigits_zero_in_front {b n : ℕ} (hb : 1 < b) {l : List Char}
    (h : Nat.toDigits b n = '0' :: l) : l = [] := by
  induction n using Nat.strongRecOn generalizing l with
  | ind n ih =>
    rw [Nat.toDigits_eq_if hb] at h
    split at h
    · simp_all
    · rename_i hlt
      rcases hd : Nat.toDigits b (n / b) with _ | ⟨c, cs⟩
      · exact absurd hd Nat.toDigits_ne_nil
      · rw [hd, List.cons_append] at h
        obtain ⟨rfl, -⟩ := List.cons.inj h
        obtain rfl := ih (n / b) (Nat.div_lt_self (by omega) hb) hd
        have hzero : n / b = 0 := by
          by_contra hne
          have hbase := Nat.toDigits_eq_if (n := n / b) hb
          rw [hd] at hbase
          split at hbase
          · have := Nat.digitChar_eq_zero.mp (List.cons.inj hbase).1.symm
            exact hne this
          · have hlen := congrArg List.length hbase
            simp at hlen
        rw [Nat.div_eq_zero_iff] at hzero
        omega

/-- A number with zeros in front, up to the width `w`. -/
def padded (w b n : ℕ) : List Char :=
  List.replicate (w - (Nat.toDigits b n).length) '0' ++ Nat.toDigits b n

lemma padded_injective {w b : ℕ} (hb : 1 < b) (hb16 : b ≤ 16) {m n : ℕ}
    (h : padded w b m = padded w b n) : m = n := by
  -- a difference in the number of zeros is a zero in front of a longer number
  have hzeros : ∀ {j k m n : ℕ}, List.replicate j '0' ++ Nat.toDigits b m =
      List.replicate (j + (k + 1)) '0' ++ Nat.toDigits b n → False := by
    intro j k m n heq
    rw [← List.replicate_append_replicate, List.append_assoc] at heq
    have hfront := toDigits_zero_in_front hb (List.append_cancel_left heq)
    simp at hfront
  unfold padded at h
  rcases Nat.lt_trichotomy (w - (Nat.toDigits b m).length) (w - (Nat.toDigits b n).length)
    with hlt | heq | hlt
  · obtain ⟨k, hk⟩ := Nat.exists_eq_add_of_lt hlt
    rw [hk, Nat.add_assoc] at h
    exact (hzeros h).elim
  · rw [heq] at h
    exact toDigits_injective hb hb16 (List.append_cancel_left h)
  · obtain ⟨k, hk⟩ := Nat.exists_eq_add_of_lt hlt
    rw [hk, Nat.add_assoc] at h
    exact (hzeros h.symm).elim

/-- **Numbers of one width are read back**, whatever follows. -/
theorem readable_padded {w b : ℕ} (hw : 0 < w) (hb : 1 < b) (hb16 : b ≤ 16) :
    Readable (fun n => n < b ^ w) (fun _ => True) (padded w b) := by
  have hlen : ∀ n < b ^ w, (padded w b n).length = w := by
    intro n hn
    have := (Nat.length_toDigits_le_iff hb hw).mpr hn
    simp only [padded, List.length_append, List.length_replicate]
    omega
  intro m n r s hm hn _ _ heq
  obtain ⟨hmn, hrs⟩ := List.append_inj heq (by rw [hlen m hm, hlen n hn])
  exact ⟨padded_injective hb hb16 hmn, hrs⟩

/-- **Numbers are read back**, if no digit follows. -/
theorem readable_toDigits {b : ℕ} (hb : 1 < b) (hb16 : b ≤ 16) :
    Readable (fun _ => True) (Stops (IsDigit b)) (Nat.toDigits b) := by
  refine (readable_span.comap (f := Nat.toDigits b) fun _ _ _ _ => toDigits_injective hb hb16).mono
    (fun n _ c hc => isDigit_of_mem_toDigits hb hc) fun _ hr => hr

end MimicPP.Delimited

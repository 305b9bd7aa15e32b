import MimicPP.Invariant

/-!
The order a sequence enforces: what a match had to wait for, and what it rules out for the
rest of the run.
-/

namespace MimicPP.Order

open MimicPP.Noexcept MimicPP.Sequence MimicPP.Reports MimicPP.Control MimicPP.Expectation
open MimicPP.Matching MimicPP.Transition MimicPP.Runs MimicPP.Invariant

variable {σ Call Ret Exc : Type}

/-- `m_Count`, and zero before the expectation exists. -/
def countOf (w : World σ Call Ret Exc) (e : ExpId) : ℕ :=
  ((policyOf w e).map ControlPolicy.count).getD 0

/-- One, if the action is a call that consumes the expectation. -/
def dispatched (e : ExpId) (w : World σ Call Ret Exc) : Action σ Call Ret Exc → ℕ
  | .commit c call => if (chosen w c call).map Prod.fst = some e then 1 else 0
  | _ => 0

/-- The number of calls of a run that consume the expectation. -/
def dispatches (w : World σ Call Ret Exc) (run : List (Action σ Call Ret Exc)) (e : ExpId) : ℕ :=
  (machine σ Call Ret Exc).tally (dispatched e) w run

variable {w w' w₀ : World σ Call Ret Exc} {run : List (Action σ Call Ret Exc)}
variable {c : CollId} {call : Call} {e : ℕ} {p : ControlPolicy} {tag : Tag} {id : ℕ}

lemma countOf_of_policy (h : policyOf w e = some p) : countOf w e = p.count := by
  simp [countOf, h]

lemma countOf_of_none (h : policyOf w e = none) : countOf w e = 0 := by
  simp [countOf, h]

lemma countOf_congr (h : w'.exps = w.exps) : countOf w' e = countOf w e := by
  simp [countOf, policyOf, h]

/-- A consume counts for the consumed expectation and for no other. -/
lemma countOf_consumeControl {e₀ : ℕ} (hI : Inv w) (hp : policyOf w e₀ = some p)
    (hlt : p.count < p.max) :
    countOf (w.consumeControl e₀) e = countOf w e + if e₀ = e then 1 else 0 := by
  have hc := hI.consumed hp hlt
  by_cases he : e₀ = e
  · subst he
    have hnew := hc.policy.mpr (.inl ⟨rfl, rfl⟩)
    rw [countOf_of_policy hnew, countOf_of_policy hp]
    simp
  · rcases hold : policyOf w e with _ | q
    · have hnew : policyOf (w.consumeControl e₀) e = none := by
        by_contra hne
        obtain ⟨q, hq⟩ := Option.ne_none_iff_exists'.mp hne
        rcases hc.policy.mp hq with ⟨heq, -⟩ | ⟨-, hq⟩
        · exact he heq.symm
        · rw [hold] at hq
          cases hq
      rw [countOf_of_none hnew, countOf_of_none hold]
      simp [he]
    · have hnew := hc.policy.mpr (.inr ⟨Ne.symm he, hold⟩)
      rw [countOf_of_policy hnew, countOf_of_policy hold]
      simp [he]

lemma countOf_created {q : ControlPolicy} (hq : q.count = 0) (hc : Created w q c w') :
    countOf w' e = countOf w e := by
  rcases hold : policyOf w e with _ | p
  · rcases hnew : policyOf w' e with _ | p
    · rw [countOf_of_none hnew, countOf_of_none hold]
    · rcases hc.policy.mp hnew with hp | ⟨-, rfl⟩
      · rw [hold] at hp
        cases hp
      · rw [countOf_of_none hold, countOf_of_policy hnew, hq]
  · rw [countOf_of_policy (hc.policy.mpr (.inl hold)), countOf_of_policy hold]

lemma countOf_step {a : Action σ Call Ret Exc} (hI : Inv w) (h : step w a = some w') :
    countOf w' e = countOf w e + dispatched e w a := by
  rcases step_cases h with ⟨b, loc, e', rfl, hfin⟩ | ⟨c, call, m, rfl, hm, rfl⟩ |
    ⟨env, rfl, rfl⟩ | ⟨c, e', rfl, -, rfl⟩
  · exact countOf_created (q := newPolicy w b) rfl (finalize_created hfin).2
  · obtain ⟨p, hp, -, happ⟩ := hI.applicable_of_chosen hm
    rw [countOf_consumeControl hI hp (ControlPolicy.isApplicable_iff.mp happ).1]
    simp [dispatched, hm]
  · exact countOf_congr rfl
  · exact countOf_congr (remove_exps c)

/-- **The count is the number of matches**: what a counter stands at is the number of calls of
the run that consumed its expectation. -/
theorem countOf_eq_dispatches (h₀ : Fresh w₀)
    (h : (machine σ Call Ret Exc).replay w₀ run = some w) : countOf w e = dispatches w₀ run e := by
  have htally := Machine.tally_of_replay (I := Inv) (μ := fun w => countOf w e)
    (f := dispatched e) (fun _ _ _ hI => hI.step) (fun _ _ _ hI => countOf_step hI)
    (Inv.fresh h₀) h
  have hzero : countOf w₀ e = 0 := countOf_of_none (by simp [policyOf, h₀.exps])
  rw [hzero, Nat.zero_add] at htally
  exact htally

/-- The limits and the attachments of an expectation are fixed, and its count only grows. -/
structure Advances (p p' : ControlPolicy) : Prop where
  min : p'.min = p.min
  max : p'.max = p.max
  sequences : p'.sequences = p.sequences
  count_le : p.count ≤ p'.count

lemma Advances.refl (p : ControlPolicy) : Advances p p := ⟨rfl, rfl, rfl, Nat.le_refl _⟩

lemma Advances.trans {p p' p'' : ControlPolicy} (h : Advances p p') (h' : Advances p' p'') :
    Advances p p'' :=
  ⟨h'.min.trans h.min, h'.max.trans h.max, h'.sequences.trans h.sequences,
    Nat.le_trans h.count_le h'.count_le⟩

lemma advances_increment (p : ControlPolicy) : Advances p p.increment :=
  ⟨rfl, rfl, rfl, Nat.le_succ _⟩

lemma policy_step {a : Action σ Call Ret Exc} (hI : Inv w) (h : step w a = some w')
    (hp : policyOf w e = some p) : ∃ p', policyOf w' e = some p' ∧ Advances p p' := by
  rcases step_cases h with ⟨b, loc, e', rfl, hfin⟩ | ⟨c, call, m, rfl, hm, rfl⟩ |
    ⟨env, rfl, rfl⟩ | ⟨c, e', rfl, -, rfl⟩
  · exact ⟨p, (finalize_created hfin).2.policy.mpr (.inl hp), .refl p⟩
  · obtain ⟨q, hq, -, happ⟩ := hI.applicable_of_chosen hm
    have hc := hI.consumed hq (ControlPolicy.isApplicable_iff.mp happ).1
    by_cases he : e = m.1
    · subst he
      obtain rfl : p = q := Option.some.inj (hp.symm.trans hq)
      exact ⟨p.increment, hc.policy.mpr (.inl ⟨rfl, rfl⟩), advances_increment p⟩
    · exact ⟨p, hc.policy.mpr (.inr ⟨he, hp⟩), .refl p⟩
  · exact ⟨p, hp, .refl p⟩
  · exact ⟨p, by rw [policyOf, remove_exps]; exact hp, .refl p⟩

/-- **A counter never runs backwards**, and its limits never change. -/
theorem policy_later (hr : Reachable w) (h : Later w w') (hp : policyOf w e = some p) :
    ∃ p', policyOf w' e = some p' ∧ Advances p p' := by
  refine h.preserves (R := fun w w' => ∀ e p, policyOf w e = some p →
    ∃ p', policyOf w' e = some p' ∧ Advances p p') (fun w e p hp => ⟨p, hp, .refl p⟩) ?_
    (fun w a w' hr hst e p hp => policy_step (reachable_inv hr) hst hp) hr e p hp
  intro w w' w'' h h' e p hp
  obtain ⟨p', hp', hadv⟩ := h e p hp
  obtain ⟨p'', hp'', hadv'⟩ := h' e p' hp'
  exact ⟨p'', hp'', hadv.trans hadv'⟩

lemma cursor_le_step {a : Action σ Call Ret Exc} (hI : Inv w) (h : step w a = some w')
    (tag : Tag) : (w.seqs tag).cursor ≤ (w'.seqs tag).cursor := by
  rcases step_cases h with ⟨b, loc, e', rfl, hfin⟩ | ⟨c, call, m, rfl, hm, rfl⟩ |
    ⟨env, rfl, rfl⟩ | ⟨c, e', rfl, -, rfl⟩
  · rcases (finalize_created hfin).2.seqs tag with ⟨-, -, hs⟩ | ⟨-, hs⟩ <;> simp [hs]
  · obtain ⟨p, hp, -, happ⟩ := hI.applicable_of_chosen hm
    obtain ⟨hlt, hcons⟩ := ControlPolicy.isApplicable_iff.mp happ
    rcases (hI.consumed hp hlt).seqs tag with ⟨id, hid, hs⟩ | ⟨-, hs⟩
    · rw [hs]
      exact (BasicSequence.isConsumable_iff.mp (hcons tag id hid)).1
    · rw [hs]
  · exact Nat.le_refl _
  · rw [remove_seqs]

/-- **A cursor never moves backwards.** -/
theorem cursor_le_of_later (hr : Reachable w) (h : Later w w') (tag : Tag) :
    (w.seqs tag).cursor ≤ (w'.seqs tag).cursor :=
  h.preserves (R := fun w w' => (w.seqs tag).cursor ≤ (w'.seqs tag).cursor)
    (fun _ => Nat.le_refl _) (fun _ _ _ => Nat.le_trans)
    (fun _ _ _ hr hst => cursor_le_step (reachable_inv hr) hst tag) hr

lemma strategy_step {a : Action σ Call Ret Exc} (hI : Inv w) (h : step w a = some w')
    (tag : Tag) : (w'.seqs tag).strategy = (w.seqs tag).strategy := by
  rcases step_cases h with ⟨b, loc, e', rfl, hfin⟩ | ⟨c, call, m, rfl, hm, rfl⟩ |
    ⟨env, rfl, rfl⟩ | ⟨c, e', rfl, -, rfl⟩
  · rcases (finalize_created hfin).2.seqs tag with ⟨-, -, hs⟩ | ⟨-, hs⟩ <;> simp [hs]
  · obtain ⟨p, hp, -, happ⟩ := hI.applicable_of_chosen hm
    rcases (hI.consumed hp (ControlPolicy.isApplicable_iff.mp happ).1).seqs tag with
      ⟨id, -, hs⟩ | ⟨-, hs⟩ <;> simp [hs]
  · rfl
  · rw [remove_seqs]

/-- **A sequence keeps its flavour.** -/
theorem strategy_later (hr : Reachable w) (h : Later w w') (tag : Tag) :
    (w'.seqs tag).strategy = (w.seqs tag).strategy := by
  refine h.preserves (R := fun w w' => (w'.seqs tag).strategy = (w.seqs tag).strategy)
    (fun _ => rfl) ?_ (fun _ _ _ hr hst => strategy_step (reachable_inv hr) hst tag) hr
  intro w₁ w₂ w₃ h₁₂ h₂₃
  rw [h₂₃, h₁₂]

/-- What a call consumes stands at or behind the cursor of each of its sequences. -/
lemma cursor_le_of_chosen (hr : Reachable w) {m : ExpId × MatchReport}
    (hm : chosen w c call = some m) (ha : Attached w m.1 p tag id) :
    (w.seqs tag).cursor ≤ id := by
  obtain ⟨q, hq, -, happ⟩ := (reachable_inv hr).applicable_of_chosen hm
  obtain rfl : p = q := Option.some.inj (ha.policy.symm.trans hq)
  have hcons := (ControlPolicy.isApplicable_iff.mp happ).2 tag id ha.mem
  exact (BasicSequence.isConsumable_iff.mp hcons).1

/-- **Sequences are consumed in order**: a match at the entry `id` of a sequence comes after
the required matches of everything attached before it, and nothing attached before it is
matched later; and the cursors never move backwards. -/
theorem matched_in_order (h₀ : Fresh w₀) (hrun : (machine σ Call Ret Exc).replay w₀ run = some w)
    {m : ExpId × MatchReport} (hm : chosen w c call = some m) :
    (∀ tag w', Later w w' → (w.seqs tag).cursor ≤ (w'.seqs tag).cursor) ∧
      ∃ p, policyOf w m.1 = some p ∧ ∀ tag id, (tag, id) ∈ p.sequences →
        (∀ e' p' id', Attached w e' p' tag id' → id' < id → p'.min ≤ dispatches w₀ run e') ∧
        ∀ w', Later (w.consumeControl m.1) w' → ∀ c' call' m' p' id',
          chosen w' c' call' = some m' → Attached w' m'.1 p' tag id' → id ≤ id' := by
  have hr : Reachable w := reachable_of_run h₀ hrun
  have hI := reachable_inv hr
  obtain ⟨p, hp, -, happ⟩ := hI.applicable_of_chosen hm
  obtain ⟨hlt, hcons⟩ := ControlPolicy.isApplicable_iff.mp happ
  refine ⟨fun tag w' h => cursor_le_of_later hr h tag, p, hp, fun tag id hid => ⟨?_, ?_⟩⟩
  · intro e' p' id' ha' hlt'
    rw [← countOf_eq_dispatches h₀ hrun, countOf_of_policy ha'.policy]
    exact hI.min_le_count_of_consumable (hcons tag id hid) ha' hlt'
  · -- the match moves the cursor to its own entry, and from there it only moves on
    intro w' hlater c' call' m' p' id' hm' ha'
    have hcommit : step w (.commit c call) = some (w.consumeControl m.1) := by simp [step, hm]
    have hr' : Reachable (w.consumeControl m.1) := .step (.commit c call) hr hcommit
    have hcur : ((w.consumeControl m.1).seqs tag).cursor = id := by
      rw [(hI.consumed hp hlt).seqs_of_mem (hI.valid hp) hid]
      rfl
    have hmono := cursor_le_of_later hr' hlater tag
    have hbound := cursor_le_of_chosen (hr'.later hlater) hm' ha'
    rw [hcur] at hmono
    exact Nat.le_trans hmono hbound

/-- The second call is for the optional expectation. -/
theorem matched_in_order_second :
    ∃ w m, (machine Unit Unit Unit Unit).replay (start (quietReporter ()) () fun _ => .lazy)
        requiredThenOptional = some w ∧ chosen w 0 () = some m ∧
      ∃ p, policyOf w m.1 = some p ∧ ∀ tag id, (tag, id) ∈ p.sequences →
        (∀ e' p' id', Attached w e' p' tag id' → id' < id →
          p'.min ≤ dispatches (start (quietReporter ()) () fun _ => .lazy)
            requiredThenOptional e') ∧
        ∀ w', Later (w.consumeControl m.1) w' → ∀ c' call' m' p' id',
          chosen w' c' call' = some m' → Attached w' m'.1 p' tag id' → id ≤ id' := by
  have h : (((machine Unit Unit Unit Unit).replay (start (quietReporter ()) () fun _ => .lazy)
      requiredThenOptional).bind fun w => chosen w 0 ()).isSome = true := by decide +kernel
  obtain ⟨m, h⟩ := Option.isSome_iff_exists.mp h
  obtain ⟨w, hrun, hm⟩ := Option.bind_eq_some_iff.mp h
  exact ⟨w, m, hrun, hm, (matched_in_order (start_fresh _ _ _) hrun hm).2⟩

end MimicPP.Order

import MimicPP.Runs

/-!
What holds in every world a run reaches.

The counters stay within their limits, and an entry of a sequence says what the counter of
the expectation attached there says. So the states a sequence scans can be read as counters,
also left of the cursor, where a sequence no longer looks.
-/

namespace MimicPP.Invariant

open MimicPP.Noexcept MimicPP.Sequence MimicPP.Reports MimicPP.Control MimicPP.Expectation
open MimicPP.Matching MimicPP.Transition MimicPP.Runs

variable {σ Call Ret Exc : Type}

def policyOf (w : World σ Call Ret Exc) (e : ExpId) : Option ControlPolicy :=
  (w.exps[e]?).map fun x => x.controlPolicy

/-- The expectation `e`, whose control policy stands at `p`, has the entry `id` of `tag`. -/
structure Attached (w : World σ Call Ret Exc) (e : ExpId) (p : ControlPolicy) (tag : Tag)
    (id : Id) : Prop where
  policy : policyOf w e = some p
  mem : (tag, id) ∈ p.sequences

/-- Entries and counters agree, every entry has an owner, and the owners stand in the order
of their creation. -/
structure Inv (w : World σ Call Ret Exc) : Prop where
  valid : ∀ {e p}, policyOf w e = some p → p.Valid
  valid_seqs : ∀ tag, (w.seqs tag).Valid
  entry : ∀ {e p tag id}, Attached w e p tag id →
    (w.seqs tag).entries[id]? = some p.entryState
  owner : ∀ {tag} {id : ℕ}, id < (w.seqs tag).entries.length → ∃ e p, Attached w e p tag id
  ordered : ∀ {e e' : ℕ} {p p' tag} {id id' : ℕ}, Attached w e p tag id →
    Attached w e' p' tag id' → e < e' → id < id'
  stored_lt : ∀ {c} {e : ℕ}, e ∈ w.colls c → e < w.exps.length
  stored_sorted : ∀ c, (w.colls c).Pairwise (· < ·)

variable {w w' : World σ Call Ret Exc} {e e' : ℕ} {p p' q : ControlPolicy}
variable {tag : Tag} {id id' : ℕ} {c : CollId} {call : Call}

lemma policyOf_of_some {x : BasicExpectation σ Call Ret Exc} (h : w.exps[e]? = some x) :
    policyOf w e = some x.controlPolicy := by
  simp [policyOf, h]

lemma policyOf_eq_some : policyOf w e = some p ↔
    ∃ x, w.exps[e]? = some x ∧ x.controlPolicy = p := by
  simp [policyOf]

lemma policyOf_lt (h : policyOf w e = some p) : e < w.exps.length := by
  obtain ⟨x, hx, -⟩ := policyOf_eq_some.mp h
  exact (List.getElem?_eq_some_iff.mp hx).1

/-! ### What the invariant says about the sequences -/

namespace Inv

lemma attached_lt (hI : Inv w) (ha : Attached w e p tag id) :
    id < (w.seqs tag).entries.length :=
  (List.getElem?_eq_some_iff.mp (hI.entry ha)).1

/-- An expectation has one entry in a sequence. -/
lemma position_unique (hI : Inv w) (ha : Attached w e p tag id) (ha' : Attached w e p' tag id') :
    id = id' := by
  obtain rfl : p = p' := Option.some.inj (ha.policy.symm.trans ha'.policy)
  exact (hI.valid ha.policy).position_unique ha.mem ha'.mem

/-- An entry has one owner. -/
lemma owner_unique (hI : Inv w) (ha : Attached w e p tag id) (ha' : Attached w e' p' tag id) :
    e = e' := by
  rcases Nat.lt_trichotomy e e' with h | h | h
  · exact absurd (hI.ordered ha ha' h) (Nat.lt_irrefl _)
  · exact h
  · exact absurd (hI.ordered ha' ha h) (Nat.lt_irrefl _)

/-- Positions in a sequence follow the order of creation. -/
lemma position_lt_iff (hI : Inv w) (ha : Attached w e p tag id)
    (ha' : Attached w e' p' tag id') : id < id' ↔ e < e' := by
  refine ⟨fun h => ?_, hI.ordered ha ha'⟩
  rcases Nat.lt_trichotomy e e' with hlt | rfl | hlt
  · exact hlt
  · have := hI.position_unique ha ha'
    omega
  · have := hI.ordered ha' ha hlt
    omega

/-- **What a sequence accepts, read as counters**: everything before the accepted entry, left
of the cursor or right of it, has reached its minimum. -/
theorem min_le_count_of_consumable (hI : Inv w) (hc : (w.seqs tag).isConsumable id = true)
    (ha : Attached w e p tag id') (hlt : id' < id) : p.min ≤ p.count := by
  have hstate := (hI.valid_seqs tag).done_of_consumable hc hlt
  rw [hI.entry ha] at hstate
  exact ControlPolicy.entryState_ne_unsatisfied.mp fun h => hstate (congrArg some h)

/-- A sequence accepts an entry whose counter is not exhausted once the cursor has not passed
it and everything between them has reached its minimum. -/
lemma consumable_of_min_le_count (hI : Inv w) (ha : Attached w e p tag id)
    (hcur : (w.seqs tag).cursor ≤ id) (hlt : p.count < p.max)
    (hmin : ∀ {e' p'} {id' : ℕ}, Attached w e' p' tag id' → (w.seqs tag).cursor ≤ id' →
      id' < id → p'.min ≤ p'.count) : (w.seqs tag).isConsumable id = true := by
  refine BasicSequence.isConsumable_iff.mpr ⟨hcur, fun j hj hjid => ?_, _, hI.entry ha, ?_⟩
  · have hjlen : j < (w.seqs tag).entries.length := Nat.lt_trans hjid (hI.attached_lt ha)
    obtain ⟨e', p', ha'⟩ := hI.owner hjlen
    rw [hI.entry ha']
    have hne := ControlPolicy.entryState_ne_unsatisfied.mpr (hmin ha' hj hjid)
    simpa using hne
  · intro hsat
    have := ControlPolicy.entryState_eq_saturated hsat
    omega

end Inv

/-! ### Consuming -/

/-- What consuming the expectation `e` does when its policy stands at `p`. -/
structure Consumed (w : World σ Call Ret Exc) (e : ExpId) (p : ControlPolicy)
    (w' : World σ Call Ret Exc) : Prop where
  policy : ∀ {e' : ℕ} {p'}, policyOf w' e' = some p' ↔
    (e' = e ∧ p' = p.increment) ∨ (e' ≠ e ∧ policyOf w e' = some p')
  length : w'.exps.length = w.exps.length
  seqs : ∀ tag, (∃ id, (tag, id) ∈ p.sequences ∧
      w'.seqs tag = ((w.seqs tag).consume id).setState id p.increment.entryState) ∨
    ((∀ id, (tag, id) ∉ p.sequences) ∧ w'.seqs tag = w.seqs tag)
  colls : w'.colls = w.colls

lemma Inv.consumed (hI : Inv w) (hp : policyOf w e = some p) (hlt : p.count < p.max) :
    Consumed w e p (w.consumeControl e) := by
  obtain ⟨x, hx, rfl⟩ := policyOf_eq_some.mp hp
  have hseqs : (w.consumeControl e).seqs = (x.controlPolicy.consume w.seqs).2 := by
    rw [consumeControl_of_some hx]
  refine ⟨fun {e' p'} => ?_, consumeControl_length, fun tag => ?_, consumeControl_colls⟩
  · by_cases he : e' = e
    · subst he
      rw [policyOf_of_some (consumeControl_exps_self hx)]
      simp [eq_comm]
    · simp [policyOf, consumeControl_exps_of_ne he, he]
  · rw [hseqs]
    by_cases hmem : ∃ id, (tag, id) ∈ x.controlPolicy.sequences
    · obtain ⟨id, hid⟩ := hmem
      exact .inl ⟨id, hid, ControlPolicy.consume_of_mem (hI.valid hp).nodup hid
        (hI.entry ⟨hp, hid⟩) (hI.valid hp).min_le_max hlt⟩
    · have hout : ∀ id, (tag, id) ∉ x.controlPolicy.sequences := fun id hid => hmem ⟨id, hid⟩
      exact .inr ⟨hout, ControlPolicy.consume_of_not_mem hout⟩

namespace Consumed

/-- No attachment moves. -/
lemma attached (hc : Consumed w e p w') (hp : policyOf w e = some p) :
    (∃ q, Attached w' e' q tag id) ↔ ∃ q, Attached w e' q tag id := by
  constructor
  · rintro ⟨q, hq, hmem⟩
    rcases hc.policy.mp hq with ⟨rfl, rfl⟩ | ⟨-, hold⟩
    · exact ⟨p, hp, hmem⟩
    · exact ⟨q, hold, hmem⟩
  · rintro ⟨q, hq, hmem⟩
    by_cases he : e' = e
    · subst he
      obtain rfl : p = q := Option.some.inj (hp.symm.trans hq)
      exact ⟨p.increment, hc.policy.mpr (.inl ⟨rfl, rfl⟩), hmem⟩
    · exact ⟨q, hc.policy.mpr (.inr ⟨he, hq⟩), hmem⟩

lemma entries_length (hc : Consumed w e p w') :
    (w'.seqs tag).entries.length = (w.seqs tag).entries.length := by
  rcases hc.seqs tag with ⟨id, -, hs⟩ | ⟨-, hs⟩ <;> simp [hs]

lemma seqs_of_mem (hc : Consumed w e p w') (hv : p.Valid) (hid : (tag, id) ∈ p.sequences) :
    w'.seqs tag = ((w.seqs tag).consume id).setState id p.increment.entryState := by
  rcases hc.seqs tag with ⟨id', hid', hs⟩ | ⟨hout, -⟩
  · obtain rfl : id = id' := hv.position_unique hid hid'
    exact hs
  · exact absurd hid (hout id)

lemma seqs_of_not_mem (hc : Consumed w e p w') (hout : ∀ id, (tag, id) ∉ p.sequences) :
    w'.seqs tag = w.seqs tag := by
  rcases hc.seqs tag with ⟨id, hid, -⟩ | ⟨-, hs⟩
  · exact absurd hid (hout id)
  · exact hs

/-- The entry of the consumed expectation is rewritten, the others are kept. -/
lemma entry (hc : Consumed w e p w') (hI : Inv w) (hp : policyOf w e = some p)
    (ha : Attached w' e' p' tag id) : (w'.seqs tag).entries[id]? = some p'.entryState := by
  rcases hc.policy.mp ha.policy with ⟨rfl, rfl⟩ | ⟨hne, hold⟩
  · have hid : (tag, id) ∈ p.sequences := ha.mem
    rw [hc.seqs_of_mem (hI.valid hp) hid, BasicSequence.setState_entries]
    exact List.getElem?_set_self (hI.attached_lt ⟨hp, hid⟩)
  · have hold' : Attached w e' p' tag id := ⟨hold, ha.mem⟩
    rcases hc.seqs tag with ⟨id₀, hid₀, hs⟩ | ⟨-, hs⟩
    · have hid : id₀ ≠ id := by
        rintro rfl
        exact hne (hI.owner_unique hold' ⟨hp, hid₀⟩)
      rw [hs, BasicSequence.setState_entries, List.getElem?_set_ne hid]
      exact hI.entry hold'
    · rw [hs]
      exact hI.entry hold'

end Consumed

lemma Inv.consumeControl (hI : Inv w) (hp : policyOf w e = some p)
    (happ : p.isApplicable w.seqs = true) : Inv (w.consumeControl e) := by
  obtain ⟨hlt, hcons⟩ := ControlPolicy.isApplicable_iff.mp happ
  have hc := hI.consumed hp hlt
  refine ⟨fun {e' p'} h => ?_, fun tag => ?_, hc.entry hI hp, fun {tag id} hid => ?_, ?_, ?_, ?_⟩
  · rcases hc.policy.mp h with ⟨-, rfl⟩ | ⟨-, hold⟩
    · exact (hI.valid hp).increment hlt
    · exact hI.valid hold
  · rcases hc.seqs tag with ⟨id, hid, hs⟩ | ⟨-, hs⟩
    · rw [hs]
      exact (hI.valid_seqs tag).consume (hcons tag id hid)
    · rw [hs]
      exact hI.valid_seqs tag
  · rw [hc.entries_length] at hid
    obtain ⟨e', p', ha⟩ := hI.owner hid
    exact ⟨e', (hc.attached hp).mpr ⟨p', ha⟩⟩
  · intro e₁ e₂ p₁ p₂ tag id₁ id₂ h₁ h₂ hlt'
    obtain ⟨q₁, hq₁⟩ := (hc.attached hp).mp ⟨p₁, h₁⟩
    obtain ⟨q₂, hq₂⟩ := (hc.attached hp).mp ⟨p₂, h₂⟩
    exact hI.ordered hq₁ hq₂ hlt'
  · intro c e' he'
    rw [hc.colls] at he'
    rw [hc.length]
    exact hI.stored_lt he'
  · intro c
    rw [hc.colls]
    exact hI.stored_sorted c

/-! ### Creating -/

/-- The control policy of an expectation that is about to be created. -/
def newPolicy (w : World σ Call Ret Exc) (b : Builder σ Call Ret Exc) : ControlPolicy :=
  ⟨b.timesConfig.min, b.timesConfig.max, 0,
    b.sequenceConfig.sequences.map fun tag => (tag, (w.seqs tag).entries.length)⟩

lemma mem_newPolicy {b : Builder σ Call Ret Exc} : (tag, id) ∈ (newPolicy w b).sequences ↔
    tag ∈ b.sequenceConfig.sequences ∧ id = (w.seqs tag).entries.length := by
  simp only [newPolicy, List.mem_map, Prod.mk.injEq]
  constructor
  · rintro ⟨t, ht, rfl, rfl⟩
    exact ⟨ht, rfl⟩
  · rintro ⟨ht, rfl⟩
    exact ⟨tag, ht, rfl, rfl⟩

lemma newPolicy_valid {b : Builder σ Call Ret Exc} : (newPolicy w b).Valid where
  min_le_max := b.timesConfig.min_le_max
  count_le_max := Nat.zero_le _
  max_le_intMax := b.timesConfig.max_le_intMax
  nodup := by simpa [newPolicy, Function.comp_def] using b.sequenceConfig.nodup

/-- What creating an expectation with the control policy `q` does: it stands last in its
collection and in each of its sequences. -/
structure Created (w : World σ Call Ret Exc) (q : ControlPolicy) (c : CollId)
    (w' : World σ Call Ret Exc) : Prop where
  policy : ∀ {e : ℕ} {p}, policyOf w' e = some p ↔
    policyOf w e = some p ∨ (e = w.exps.length ∧ p = q)
  length : w'.exps.length = w.exps.length + 1
  seqs : ∀ tag, ((∀ id, (tag, id) ∈ q.sequences ↔ id = (w.seqs tag).entries.length) ∧
      (w.seqs tag).entries.length ≤ intMax ∧
      w'.seqs tag = (w.seqs tag).emplaceBack q.entryState) ∨
    ((∀ id, (tag, id) ∉ q.sequences) ∧ w'.seqs tag = w.seqs tag)
  colls : w'.colls = Function.update w.colls c (w.colls c ++ [w.exps.length])

lemma finalize_created {b : Builder σ Call Ret Exc} {loc : SourceLocation}
    (h : b.finalize loc w = (w', .ok e)) :
    e = w.exps.length ∧ Created w (newPolicy w b) b.storage w' := by
  obtain ⟨q, seqs, hcon, rfl, rfl⟩ := finalize_eq_ok h
  obtain ⟨rfl, hin, hout⟩ := ControlPolicy.construct_eq_ok hcon
  refine ⟨rfl, fun {e p} => ?_, by simp, fun tag => ?_, rfl⟩
  · rcases Nat.lt_trichotomy e w.exps.length with he | rfl | he
    · have hne : e ≠ w.exps.length := Nat.ne_of_lt he
      simp [policyOf, List.getElem?_append_left he, hne]
    · simp [policyOf, newPolicy, eq_comm]
    · constructor
      · intro hp
        have hlt := policyOf_lt hp
        simp only [List.length_append, List.length_singleton] at hlt
        omega
      · rintro (hp | ⟨rfl, -⟩)
        · exact absurd (policyOf_lt hp) (Nat.lt_asymm he)
        · exact absurd he (Nat.lt_irrefl _)
  · by_cases htag : tag ∈ b.sequenceConfig.sequences
    · obtain ⟨hle, hs⟩ := hin tag htag
      exact .inl ⟨fun id => by simp [mem_newPolicy, htag], hle, hs⟩
    · exact .inr ⟨fun id hid => htag (mem_newPolicy.mp hid).1, hout tag htag⟩

namespace Created

lemma attached (hc : Created w q c w') : Attached w' e p tag id ↔
    Attached w e p tag id ∨ (e = w.exps.length ∧ p = q ∧ (tag, id) ∈ q.sequences) := by
  constructor
  · rintro ⟨hp, hmem⟩
    rcases hc.policy.mp hp with hold | ⟨rfl, rfl⟩
    · exact .inl ⟨hold, hmem⟩
    · exact .inr ⟨rfl, rfl, hmem⟩
  · rintro (⟨hold, hmem⟩ | ⟨rfl, rfl, hmem⟩)
    · exact ⟨hc.policy.mpr (.inl hold), hmem⟩
    · exact ⟨hc.policy.mpr (.inr ⟨rfl, rfl⟩), hmem⟩

lemma position (hc : Created w q c w') (hid : (tag, id) ∈ q.sequences) :
    id = (w.seqs tag).entries.length := by
  rcases hc.seqs tag with ⟨hpos, -⟩ | ⟨hout, -⟩
  · exact (hpos id).mp hid
  · exact absurd hid (hout id)

/-- The new entries stand in the state of a fresh counter, the others are kept. -/
lemma entry (hc : Created w q c w') (hI : Inv w) (ha : Attached w' e p tag id) :
    (w'.seqs tag).entries[id]? = some p.entryState := by
  rcases hc.attached.mp ha with ha | ⟨-, rfl, hid⟩
  · have hlt := hI.attached_lt ha
    rcases hc.seqs tag with ⟨-, -, hs⟩ | ⟨-, hs⟩
    · rw [hs, BasicSequence.emplaceBack_entries, List.getElem?_append_left hlt]
      exact hI.entry ha
    · rw [hs]
      exact hI.entry ha
  · rcases hc.seqs tag with ⟨hpos, -, hs⟩ | ⟨hout, -⟩
    · rw [hs, (hpos id).mp hid]
      simp
    · exact absurd hid (hout id)

lemma owner (hc : Created w q c w') (hI : Inv w) (hid : id < (w'.seqs tag).entries.length) :
    ∃ e p, Attached w' e p tag id := by
  rcases Nat.lt_or_ge id (w.seqs tag).entries.length with h | h
  · obtain ⟨e, p, ha⟩ := hI.owner h
    exact ⟨e, p, hc.attached.mpr (.inl ha)⟩
  · rcases hc.seqs tag with ⟨hpos, -, hs⟩ | ⟨-, hs⟩
    · simp only [hs, BasicSequence.emplaceBack_entries, List.length_append,
        List.length_singleton] at hid
      have hlast : id = (w.seqs tag).entries.length := by omega
      exact ⟨_, q, hc.attached.mpr (.inr ⟨rfl, rfl, (hpos id).mpr hlast⟩)⟩
    · rw [hs] at hid
      omega

/-- The new expectation is the youngest, and stands last. -/
lemma ordered (hc : Created w q c w') (hI : Inv w) (ha : Attached w' e p tag id)
    (ha' : Attached w' e' p' tag id') (hlt : e < e') : id < id' := by
  rcases hc.attached.mp ha with ha | ⟨rfl, -, -⟩
  · rcases hc.attached.mp ha' with ha' | ⟨-, -, hid'⟩
    · exact hI.ordered ha ha' hlt
    · rw [hc.position hid']
      exact hI.attached_lt ha
  · have := policyOf_lt ha'.policy
    have := hc.length
    omega

end Created

lemma Inv.created (hI : Inv w) (hq : q.Valid) (hc : Created w q c w') : Inv w' := by
  refine ⟨fun {e p} hp => ?_, fun tag => ?_, hc.entry hI, hc.owner hI, hc.ordered hI, ?_, ?_⟩
  · rcases hc.policy.mp hp with hp | ⟨-, rfl⟩
    · exact hI.valid hp
    · exact hq
  · rcases hc.seqs tag with ⟨-, hle, hs⟩ | ⟨-, hs⟩
    · rw [hs]
      exact (hI.valid_seqs tag).emplaceBack hle
    · rw [hs]
      exact hI.valid_seqs tag
  · intro c' e he
    rw [hc.length]
    rw [hc.colls] at he
    by_cases hcc : c' = c
    · subst hcc
      rw [Function.update_self, List.mem_append, List.mem_singleton] at he
      rcases he with he | rfl
      · exact Nat.lt_succ_of_lt (hI.stored_lt he)
      · exact Nat.lt_succ_self _
    · rw [Function.update_of_ne hcc] at he
      exact Nat.lt_succ_of_lt (hI.stored_lt he)
  · intro c'
    rw [hc.colls]
    by_cases hcc : c' = c
    · subst hcc
      rw [Function.update_self, List.pairwise_append]
      refine ⟨hI.stored_sorted _, List.pairwise_singleton _ _, fun e he e' he' => ?_⟩
      rw [List.mem_singleton.mp he']
      exact hI.stored_lt he
    · rw [Function.update_of_ne hcc]
      exact hI.stored_sorted c'

/-! ### Everything else -/

/-- The invariant does not depend on the variables of user code, and a collection may lose
expectations. -/
lemma Inv.congr (hI : Inv w) (hexps : w'.exps = w.exps) (hseqs : w'.seqs = w.seqs)
    (hcolls : ∀ c, (w'.colls c).Sublist (w.colls c)) : Inv w' := by
  have hpol : ∀ e, policyOf w' e = policyOf w e := fun e => by rw [policyOf, policyOf, hexps]
  have hatt : ∀ {e p tag id}, Attached w' e p tag id ↔ Attached w e p tag id := by
    intro e p tag id
    exact ⟨fun ⟨hp, hm⟩ => ⟨hpol e ▸ hp, hm⟩, fun ⟨hp, hm⟩ => ⟨(hpol e).symm ▸ hp, hm⟩⟩
  refine ⟨fun hp => hI.valid (hpol _ ▸ hp), fun tag => hseqs ▸ hI.valid_seqs tag,
    fun ha => hseqs ▸ hI.entry (hatt.mp ha), fun {tag id} hid => ?_,
    fun ha ha' => hI.ordered (hatt.mp ha) (hatt.mp ha'), fun he => ?_,
    fun c => (hI.stored_sorted c).sublist (hcolls c)⟩
  · rw [hseqs] at hid
    obtain ⟨e, p, ha⟩ := hI.owner hid
    exact ⟨e, p, hatt.mpr ha⟩
  · rw [hexps]
    exact hI.stored_lt ((hcolls _).subset he)

lemma Inv.remove (hI : Inv w) : Inv (w.remove c e).1 := by
  refine hI.congr (remove_exps c) (remove_seqs c) fun c' => ?_
  rw [remove_colls]
  by_cases hcc : c' = c
  · subst hcc
    rw [Function.update_self]
    exact List.erase_sublist
  · rw [Function.update_of_ne hcc]

lemma Inv.fresh (h : Fresh w) : Inv w := by
  have hpol : ∀ e, policyOf w e = none := fun e => by simp [policyOf, h.exps]
  have hatt : ∀ {e p tag id}, ¬ Attached w e p tag id := by
    intro e p tag id ha
    have hp := ha.policy
    rw [hpol] at hp
    cases hp
  refine ⟨fun {e p} hp => ?_, fun tag => ?_, fun ha => absurd ha hatt, fun {tag id} hid => ?_,
    fun ha => absurd ha hatt, fun {c e} he => ?_, fun c => ?_⟩
  · rw [hpol] at hp
    cases hp
  · rw [h.seqs]
    exact BasicSequence.valid_empty _
  · rw [h.seqs] at hid
    exact absurd hid (Nat.not_lt_zero _)
  · rw [h.colls] at he
    cases he
  · rw [h.colls]
    exact List.Pairwise.nil

/-! ### Every run -/

/-- A full match belongs to a stored expectation whose control policy is applicable. -/
lemma Inv.applicable_of_full (hI : Inv w) {m : ExpId × MatchReport}
    (h : m ∈ fullMatches w c call) : ∃ x, m.1 ∈ w.colls c ∧ w.exps[m.1]? = some x ∧
      x.matchesCall w.env w.seqs call = .ok m.2 ∧
      x.controlPolicy.isApplicable w.seqs = true := by
  obtain ⟨x, hmem, hx, hmatch, hfull⟩ := mem_fullMatches.mp h
  refine ⟨x, hmem, hx, hmatch, ?_⟩
  have happ := (evaluateMatchReport_full.mp hfull).2
  rw [matchesCall_controlReport hmatch,
    ControlPolicy.state_isApplicable (hI.valid (policyOf_of_some hx)).count_le_max] at happ
  exact happ

/-- So does the match a call consumes. -/
lemma Inv.applicable_of_chosen (hI : Inv w) {m : ExpId × MatchReport}
    (h : chosen w c call = some m) :
    ∃ p, policyOf w m.1 = some p ∧ m.1 ∈ w.colls c ∧ p.isApplicable w.seqs = true := by
  obtain ⟨x, hmem, hx, -, happ⟩ := hI.applicable_of_full (chosen_eq_some h).2
  exact ⟨_, policyOf_of_some hx, hmem, happ⟩

/-- The ratings of a full match are the ones its expectation has now. -/
lemma Inv.ratingsOf_full (hI : Inv w) {m : ExpId × MatchReport}
    (h : m ∈ fullMatches w c call) : ∃ p, policyOf w m.1 = some p ∧
      p.isApplicable w.seqs = true ∧ ratingsOf m = p.ratings w.seqs := by
  obtain ⟨x, -, hx, hmatch, happ⟩ := hI.applicable_of_full h
  refine ⟨_, policyOf_of_some hx, happ, ?_⟩
  rw [ratingsOf, sequenceRatings, matchesCall_controlReport hmatch,
    ControlPolicy.state_of_isApplicable happ]
  rfl

/-- The expectation would be a full match for the call. -/
def Accepts (w : World σ Call Ret Exc) (call : Call) (e : ExpId) : Prop :=
  ∃ x r, w.exps[e]? = some x ∧ x.matchesCall w.env w.seqs call = .ok r ∧
    evaluateMatchReport r = .full

/-- The most recently created full match of a call. -/
structure NewestMatch (w : World σ Call Ret Exc) (c : CollId) (call : Call) (e : ℕ) : Prop where
  stored : e ∈ w.colls c
  accepts : Accepts w call e
  newest : ∀ {e' : ℕ}, e' ∈ w.colls c → Accepts w call e' → e' ≤ e

lemma accepts_iff : (∃ r, (e, r) ∈ fullMatches w c call) ↔ e ∈ w.colls c ∧ Accepts w call e := by
  simp only [mem_fullMatches, Accepts]
  constructor
  · rintro ⟨r, x, hmem, hx, hmatch, hfull⟩
    exact ⟨hmem, x, r, hx, hmatch, hfull⟩
  · rintro ⟨hmem, x, r, hx, hmatch, hfull⟩
    exact ⟨r, x, hmem, hx, hmatch, hfull⟩

/-- The full matches come newest first. -/
lemma Inv.fullMatches_sorted (hI : Inv w) (c : CollId) (call : Call) :
    (fullMatches w c call).Pairwise fun m n => n.1 < m.1 := by
  have hstored : (w.stored c).Pairwise fun p q => p.1 < q.1 := by
    refine List.Pairwise.filterMap _ (fun e e' hlt p hp q hq => ?_) (hI.stored_sorted c)
    obtain ⟨x, -, rfl⟩ := Option.map_eq_some_iff.mp hp
    obtain ⟨y, -, rfl⟩ := Option.map_eq_some_iff.mp hq
    exact hlt
  have hrev : (w.stored c).reverse.Pairwise fun p q => q.1 < p.1 :=
    List.pairwise_reverse.mpr hstored
  exact reportsOf_pairwise (R := fun e e' => e' < e) hrev

/-- The scan over the full matches starts at the newest. -/
lemma Inv.newestMatch_head (hI : Inv w) {r : MatchReport} {rest : List (ExpId × MatchReport)}
    (h : fullMatches w c call = (e, r) :: rest) : NewestMatch w c call e := by
  have hhead : (e, r) ∈ fullMatches w c call := by rw [h]; exact List.mem_cons_self
  obtain ⟨hmem, hacc⟩ := accepts_iff.mp ⟨r, hhead⟩
  refine ⟨hmem, hacc, fun {e'} hmem' hacc' => ?_⟩
  obtain ⟨r', hr'⟩ := accepts_iff.mpr ⟨hmem', hacc'⟩
  have hsorted := hI.fullMatches_sorted c call
  rw [h] at hr' hsorted
  rcases List.mem_cons.mp hr' with heq | hr'
  · exact Nat.le_of_eq (congrArg Prod.fst heq)
  · exact Nat.le_of_lt ((List.pairwise_cons.mp hsorted).1 _ hr')

/-- **Every step keeps the invariant.** -/
theorem Inv.step {a : Action σ Call Ret Exc} (hI : Inv w) (h : step w a = some w') : Inv w' := by
  rcases step_cases h with ⟨b, loc, e, -, hfin⟩ | ⟨c, call, m, -, hm, rfl⟩ | ⟨env, -, rfl⟩ |
    ⟨c, e, -, -, rfl⟩
  · exact hI.created newPolicy_valid (finalize_created hfin).2
  · obtain ⟨p, hp, -, happ⟩ := hI.applicable_of_chosen hm
    exact hI.consumeControl hp happ
  · exact hI.congr rfl rfl fun c => List.Sublist.refl _
  · exact hI.remove

/-- **Every reachable world satisfies the invariant.** -/
theorem reachable_inv (h : Reachable w) : Inv w :=
  h.invariant (fun _ => Inv.fresh) fun _ _ _ hI => hI.step

end MimicPP.Invariant

import MimicPP.Choice
import MimicPP.Filling
import MimicPP.Outcome

/-!
A lazy sequence is filled strictly from the front: expectations of one collection that accept
every call and are attached to one lazy sequence only take the calls like bins that are filled
one after the other.
-/

namespace MimicPP.Front

open MimicPP.Noexcept MimicPP.Sequence MimicPP.Reports MimicPP.Control MimicPP.Expectation
open MimicPP.Matching MimicPP.Transition MimicPP.Runs MimicPP.Invariant MimicPP.Ratings
open MimicPP.Choice MimicPP.Outcome MimicPP.Filling

variable {σ Call Ret Exc : Type}

/-! ### Counting calls, the rejected ones included -/

/-- As a step of a run, but a call without a match to consume is a step, too, which changes
nothing. -/
def attempt (w : World σ Call Ret Exc) : Action σ Call Ret Exc → Option (World σ Call Ret Exc)
  | .commit c call => some ((step w (.commit c call)).getD w)
  | a => step w a

def attempts (σ Call Ret Exc : Type) : Machine (World σ Call Ret Exc) (Action σ Call Ret Exc) where
  init := Fresh
  step := attempt

/-- One, if the action is a call of the collection. -/
def called (c : CollId) (_ : World σ Call Ret Exc) : Action σ Call Ret Exc → ℕ
  | .commit c' _ => if c' = c then 1 else 0
  | _ => 0

/-- The number of calls of the collection in a run. A call made by user code inside of another
call comes after it. -/
def calls (c : CollId) (w : World σ Call Ret Exc) (run : List (Action σ Call Ret Exc)) : ℕ :=
  (attempts σ Call Ret Exc).tally (called c) w run

variable {w w' w₀ w₁ : World σ Call Ret Exc} {run : List (Action σ Call Ret Exc)}
variable {c : CollId} {call : Call} {tag : Tag}

lemma attempt_of_chosen {m : ExpId × MatchReport} (h : chosen w c call = some m) :
    attempt w (.commit c call) = some (w.consumeControl m.1) := by
  simp [attempt, step, h]

lemma attempt_of_not_chosen (h : chosen w c call = none) :
    attempt w (.commit c call) = some w := by
  simp [attempt, step, h]

/-- **Every whole call is one attempt** with user code behind it. -/
theorem handleCall_attempt : ∃ env, (attempts σ Call Ret Exc).replay w
    [.commit c call, .user env] = some (w.handleCall c call).1 := by
  rcases h : chosen w c call with _ | m
  · refine ⟨w.env, Option.bind_eq_some_iff.mpr ⟨w, attempt_of_not_chosen h, ?_⟩⟩
    rw [handleCall_of_not_chosen h]
    rfl
  · obtain ⟨env, henv⟩ := handleCall_of_chosen h
    refine ⟨env, Option.bind_eq_some_iff.mpr ⟨_, attempt_of_chosen h, ?_⟩⟩
    rw [henv]
    rfl

/-! ### The expectations of the sequence -/

/-- The policies accept every call, without an exception. -/
def AcceptEveryCall (ps : List (Policy σ Call Exc)) : Prop :=
  ∀ p ∈ ps, ∀ env call, Agrees p env call

/-- What is created belongs to the collection, accepts every call, and is attached to the
sequence and to no other. -/
structure Element (c : CollId) (tag : Tag) (b : Builder σ Call Ret Exc) : Prop where
  storage : b.storage = c
  sequences : b.sequenceConfig.sequences = [tag]
  accepts : AcceptEveryCall b.expectationPolicies

/-- The creation of the listed expectations, in this order. -/
def creations (bs : List (Builder σ Call Ret Exc × SourceLocation)) :
    List (Action σ Call Ret Exc) :=
  bs.map fun b => .create b.1 b.2

def caps (bs : List (Builder σ Call Ret Exc × SourceLocation)) : List ℕ :=
  bs.map fun b => b.1.timesConfig.max

/-- An expectation of the sequence, with the entry `i` and the count it stands at. -/
def element (tag : Tag) (b : Builder σ Call Ret Exc × SourceLocation) (i count : ℕ) :
    BasicExpectation σ Call Ret Exc :=
  ⟨b.2, ⟨b.1.timesConfig.min, b.1.timesConfig.max, count, [(tag, i)]⟩, b.1.expectationPolicies,
    b.1.finalizePolicy⟩

/-- The action neither adds to nor takes from the collection and the sequence. -/
def Apart (c : CollId) (tag : Tag) : Action σ Call Ret Exc → Prop
  | .create b _ => b.storage ≠ c ∧ tag ∉ b.sequenceConfig.sequences
  | .commit _ _ => True
  | .user _ => True
  | .destroy c' _ => c' ≠ c

variable {bs : List (Builder σ Call Ret Exc × SourceLocation)}
variable {b : Builder σ Call Ret Exc × SourceLocation} {base k i : ℕ}

/-- The world after `k` calls: the expectations have taken them like bins that are filled from
the front, and the cursor has passed none that has room left. -/
structure Filled (c : CollId) (tag : Tag) (base : ℕ)
    (bs : List (Builder σ Call Ret Exc × SourceLocation)) (k : ℕ) (w : World σ Call Ret Exc) :
    Prop where
  inv : Inv w
  lazy : (w.seqs tag).strategy = .lazy
  elements : ∀ b ∈ bs, Element c tag b.1
  colls : w.colls c = (List.range bs.length).map (base + ·)
  elsewhere : ∀ c' ≠ c, ∀ i < bs.length, base + i ∉ w.colls c'
  created : base + bs.length ≤ w.exps.length
  exps : ∀ {i : ℕ} {b}, bs[i]? = some b →
    w.exps[base + i]? = some (element tag b i (level (caps bs) k i))
  entries : (w.seqs tag).entries.length = bs.length
  cursor : ∀ {i : ℕ}, k < before (caps bs) (i + 1) → (w.seqs tag).cursor ≤ i

lemma caps_getD (h : bs[i]? = some b) : (caps bs).getD i 0 = b.1.timesConfig.max := by
  simp [caps, List.getD_eq_getElem?_getD, h]

@[simp] lemma caps_length : (caps bs).length = bs.length := by simp [caps]

namespace Filled

lemma policy (h : Filled c tag base bs k w) (hb : bs[i]? = some b) : policyOf w (base + i) =
    some ⟨b.1.timesConfig.min, b.1.timesConfig.max, level (caps bs) k i, [(tag, i)]⟩ :=
  policyOf_of_some (h.exps hb)

lemma attached (h : Filled c tag base bs k w) (hb : bs[i]? = some b) : Attached w (base + i)
    ⟨b.1.timesConfig.min, b.1.timesConfig.max, level (caps bs) k i, [(tag, i)]⟩ tag i :=
  ⟨h.policy hb, List.mem_cons_self⟩

/-- Nothing else is attached to the sequence. -/
lemma eq_of_attached (h : Filled c tag base bs k w) {e id : ℕ} {p : ControlPolicy}
    (ha : Attached w e p tag id) : id < bs.length ∧ e = base + id := by
  have hlt : id < bs.length := by
    rw [← h.entries]
    exact h.inv.attached_lt ha
  exact ⟨hlt, h.inv.owner_unique ha (h.attached (List.getElem?_eq_getElem hlt))⟩

lemma mem_colls (h : Filled c tag base bs k w) {e : ℕ} :
    e ∈ w.colls c ↔ ∃ i b, bs[i]? = some b ∧ e = base + i := by
  rw [h.colls, List.mem_map]
  constructor
  · rintro ⟨i, hi, rfl⟩
    exact ⟨i, _, List.getElem?_eq_getElem (List.mem_range.mp hi), rfl⟩
  · rintro ⟨i, b, hb, rfl⟩
    exact ⟨i, List.mem_range.mpr (List.getElem?_eq_some_iff.mp hb).1, rfl⟩

end Filled

/-! ### What the expectations make of a call -/

namespace Filled

/-- Each of the expectations matches, and only its control policy can object. -/
lemma matchesCall (h : Filled c tag base bs k w) (hb : bs[i]? = some b) (call : Call) :
    ∃ r, (element tag b i (level (caps bs) k i)).matchesCall w.env w.seqs call = .ok r ∧
      evaluateMatchReport r = if (element tag b i (level (caps bs) k i)).controlPolicy.isApplicable
        w.seqs then .full else .inapplicable := by
  have haccepts := (h.elements b (List.mem_of_getElem? hb)).accepts
  obtain ⟨reports, hreports, hall⟩ := policyReports_all_iff.mpr fun p hp => haccepts p hp w.env call
  have hcount := (h.inv.valid (h.policy hb)).count_le_max
  refine ⟨⟨some b.2, none, (element tag b i (level (caps bs) k i)).controlPolicy.state w.seqs,
    reports⟩, by simp only [BasicExpectation.matchesCall, element, hreports], ?_⟩
  have hstate : ((element tag b i (level (caps bs) k i)).controlPolicy.state
      w.seqs).isApplicable = _ := ControlPolicy.state_isApplicable hcount
  split
  · rename_i happ
    exact evaluateMatchReport_full.mpr ⟨hall, hstate.trans happ⟩
  · rename_i happ
    rw [Bool.not_eq_true] at happ
    exact evaluateMatchReport_inapplicable.mpr ⟨hall, hstate.trans happ⟩

lemma reported (h : Filled c tag base bs k w) (call : Call) :
    Reported w call (w.stored c).reverse ∧
    unhandledOf w call (w.stored c).reverse = [] := by
  have hok : ∀ p ∈ (w.stored c).reverse, ∃ r, p.2.matchesCall w.env w.seqs call = .ok r := by
    rintro ⟨e, x⟩ hmem
    obtain ⟨hstored, hx⟩ := mem_stored.mp (List.mem_reverse.mp hmem)
    obtain ⟨i, b, hb, rfl⟩ := h.mem_colls.mp hstored
    obtain rfl : element tag b i (level (caps bs) k i) = x :=
      Option.some.inj ((h.exps hb).symm.trans hx)
    obtain ⟨r, hr, -⟩ := h.matchesCall hb call
    exact ⟨r, hr⟩
  constructor
  · intro p hp exc hexc
    obtain ⟨r, hr⟩ := hok p hp
    rw [hr] at hexc
    cases hexc
  · refine List.filterMap_eq_nil_iff.mpr fun p hp => ?_
    obtain ⟨r, hr⟩ := hok p hp
    rw [hr]

/-- The expectation whose turn it is can be consumed: everything before it is full. -/
lemma isApplicable_of_turn (h : Filled c tag base bs k w) (ht : Turn (caps bs) k i)
    (hb : bs[i]? = some b) :
    (element tag b i (level (caps bs) k i)).controlPolicy.isApplicable w.seqs = true := by
  have hlt := ht.level_lt
  rw [caps_getD hb] at hlt
  refine ControlPolicy.isApplicable_iff.mpr ⟨hlt, fun tag' id hid => ?_⟩
  obtain ⟨rfl, rfl⟩ : tag' = tag ∧ id = i := by simpa [element] using hid
  refine h.inv.consumable_of_min_le_count (h.attached hb) (h.cursor ht.lt_before) hlt ?_
  intro e' p' j ha _ hj
  obtain ⟨hjlen, rfl⟩ := h.eq_of_attached ha
  have hbj := List.getElem?_eq_getElem hjlen
  obtain rfl := Option.some.inj ((h.policy hbj).symm.trans ha.policy)
  have hfull : before (caps bs) (j + 1) ≤ k := Nat.le_trans (before_mono _ hj) ht.before_le
  have hlevel := level_of_before_le hfull
  rw [caps_getD hbj] at hlevel
  exact Nat.le_trans bs[j].1.timesConfig.min_le_max (Nat.le_of_eq hlevel.symm)

/-- A full match is one of the expectations, and has room left. -/
lemma lt_before_of_full (h : Filled c tag base bs k w) {m : ExpId × MatchReport}
    (hm : m ∈ fullMatches w c call) :
    ∃ i b, bs[i]? = some b ∧ m.1 = base + i ∧ k < before (caps bs) (i + 1) := by
  obtain ⟨x, hstored, hx, -, happ⟩ := h.inv.applicable_of_full hm
  obtain ⟨i, b, hb, he⟩ := h.mem_colls.mp hstored
  rw [he] at hx
  obtain rfl : element tag b i (level (caps bs) k i) = x :=
    Option.some.inj ((h.exps hb).symm.trans hx)
  have hlt := (ControlPolicy.isApplicable_iff.mp happ).1
  refine ⟨i, b, hb, he, lt_before_of_level_lt ?_⟩
  rw [caps_getD hb]
  exact hlt

/-- **The one whose turn it is is picked.** -/
theorem pick_of_turn (h : Filled c tag base bs k w) (ht : Turn (caps bs) k i) (call : Call) :
    ∃ r, (base + i, r) ∈ fullMatches w c call ∧
      pickBestMatch (fullMatches w c call) = some (base + i, r) := by
  have hi : i < bs.length := by simpa using ht.lt_length
  have hb := List.getElem?_eq_getElem hi
  obtain ⟨r, hr, hverdict⟩ := h.matchesCall hb call
  rw [if_pos (h.isApplicable_of_turn ht hb)] at hverdict
  have hmem : (base + i, r) ∈ fullMatches w c call :=
    mem_fullMatches.mpr ⟨_, h.mem_colls.mpr ⟨i, _, hb, rfl⟩, h.exps hb, hr, hverdict⟩
  have htags : ∀ n ∈ fullMatches w c call, tag ∈ tags (ratingsOf n) := by
    intro n hn
    obtain ⟨j, b', hb', hj, -⟩ := h.lt_before_of_full hn
    have hp := h.policy hb'
    rw [← hj] at hp
    exact (mem_tags_iff h.inv hn hp).mpr ⟨j, List.mem_cons_self⟩
  have hsingle : ∀ e p, e ∈ w.colls c → policyOf w e = some p → p.sequences.length ≤ 1 := by
    intro e p he hp
    obtain ⟨j, b', hb', rfl⟩ := h.mem_colls.mp he
    obtain rfl := Option.some.inj ((h.policy hb').symm.trans hp)
    exact Nat.le_refl _
  obtain ⟨best, ms, hsplit⟩ := List.exists_cons_of_ne_nil (List.ne_nil_of_mem hmem)
  have hbest : best ∈ fullMatches w c call := by
    rw [hsplit]
    exact List.mem_cons_self
  obtain ⟨⟨e, r'⟩, hpicked, hpick⟩ := pickBestMatch_of_full (List.ne_nil_of_mem hmem)
    fun _ => fullMatches_full
  -- the pick is the oldest full match, and nothing before the one whose turn it is has room
  obtain ⟨-, holdest⟩ := pick_of_lazy h.inv hsingle hsplit (htags best hbest) h.lazy hpick
  obtain ⟨j, b', -, rfl, hroom⟩ := h.lt_before_of_full hpicked
  have hle := Nat.le_of_add_le_add_left (holdest _ hmem (htags _ hmem))
  obtain rfl : i = j := Nat.le_antisymm (ht.le_of_lt_before hroom) hle
  exact ⟨r', hpicked, hpick⟩

/-- When all are full there is no full match left. -/
lemma fullMatches_of_sum_le (h : Filled c tag base bs k w) (hk : (caps bs).sum ≤ k)
    (call : Call) :
    fullMatches w c call = [] := by
  refine List.eq_nil_iff_forall_not_mem.mpr fun m hm => ?_
  obtain ⟨i, -, -, -, hlt⟩ := h.lt_before_of_full hm
  have hle := before_le_sum (caps bs) (i + 1)
  omega

/-- Without a full match, every one of them is inapplicable. -/
lemma reportsWith_ne_nil (h : Filled c tag base bs k w) (hnone : fullMatches w c call = [])
    (hne : bs ≠ []) : reportsWith w c call .inapplicable ≠ [] := by
  obtain ⟨b, rest, rfl⟩ := List.exists_cons_of_ne_nil hne
  have hb : (b :: rest)[0]? = some b := rfl
  obtain ⟨r, hr, hverdict⟩ := h.matchesCall hb call
  have hstored := h.mem_colls.mpr ⟨0, b, hb, rfl⟩
  rw [reportsWith, ne_eq, List.map_eq_nil_iff]
  refine List.ne_nil_of_mem (mem_reportsOf.mpr
    ⟨_, List.mem_reverse.mpr (mem_stored.mpr ⟨hstored, h.exps hb⟩), hr, ?_⟩)
  split at hverdict
  · have hmem := mem_fullMatches.mpr ⟨_, hstored, h.exps hb, hr, hverdict⟩
    rw [hnone] at hmem
    cases hmem
  · exact hverdict

end Filled

/-! ### What an action does to the levels -/

namespace Filled

variable {e : ℕ}

lemma chosen_of_turn (h : Filled c tag base bs k w) (ht : Turn (caps bs) k i) (call : Call) :
    ∃ r, chosen w c call = some (base + i, r) := by
  obtain ⟨r, -, hpick⟩ := h.pick_of_turn ht call
  exact ⟨r, by rw [chosen_of_reported (h.reported call).1, hpick]⟩

/-- A call fills the bin whose turn it is, and the cursor moves there. -/
lemma consume (h : Filled c tag base bs k w) (ht : Turn (caps bs) k i) :
    Filled c tag base bs (k + 1) (w.consumeControl (base + i)) := by
  have hi : i < bs.length := by simpa using ht.lt_length
  have hb := List.getElem?_eq_getElem hi
  have hp := h.policy hb
  have happ := h.isApplicable_of_turn ht hb
  have hc := h.inv.consumed hp (ControlPolicy.isApplicable_iff.mp happ).1
  have hseq := hc.seqs_of_mem (h.inv.valid hp) (h.attached hb).mem
  refine ⟨h.inv.consumeControl hp happ, ?_, h.elements, ?_, ?_, ?_, ?_, ?_, ?_⟩
  · rw [hseq]
    exact h.lazy
  · rw [hc.colls]
    exact h.colls
  · rw [hc.colls]
    exact h.elsewhere
  · rw [hc.length]
    exact h.created
  · intro j b hbj
    by_cases hj : j = i
    · subst hj
      obtain rfl := Option.some.inj (hb.symm.trans hbj)
      rw [consumeControl_exps_self (h.exps hb), ht.level_succ_self]
      rfl
    · have hne : base + j ≠ base + i := by omega
      rw [consumeControl_exps_of_ne hne, ht.level_succ_of_ne hj]
      exact h.exps hbj
  · rw [hc.entries_length]
    exact h.entries
  · intro j hj
    rw [hseq]
    exact ht.le_of_lt_before (Nat.lt_of_succ_lt hj)

/-- A call behind the last bin changes nothing. -/
lemma overflow (h : Filled c tag base bs k w) (hk : (caps bs).sum ≤ k) :
    Filled c tag base bs (k + 1) w where
  inv := h.inv
  lazy := h.lazy
  elements := h.elements
  colls := h.colls
  elsewhere := h.elsewhere
  created := h.created
  exps hb := by
    rw [level_succ_of_sum_le hk]
    exact h.exps hb
  entries := h.entries
  cursor hlt := h.cursor (Nat.lt_of_succ_lt hlt)

/-- What happens apart from the collection and the sequence leaves the levels as they are. -/
lemma congr (h : Filled c tag base bs k w) (hinv : Inv w') (hseq : w'.seqs tag = w.seqs tag)
    (hcoll : w'.colls c = w.colls c)
    (helse : ∀ c' ≠ c, ∀ i < bs.length, base + i ∉ w'.colls c')
    (hlen : w.exps.length ≤ w'.exps.length)
    (hexps : ∀ i < bs.length, w'.exps[base + i]? = w.exps[base + i]?) :
    Filled c tag base bs k w' where
  inv := hinv
  lazy := by
    rw [hseq]
    exact h.lazy
  elements := h.elements
  colls := by
    rw [hcoll]
    exact h.colls
  elsewhere := helse
  created := Nat.le_trans h.created hlen
  exps hb := by
    rw [hexps _ (List.getElem?_eq_some_iff.mp hb).1]
    exact h.exps hb
  entries := by
    rw [hseq]
    exact h.entries
  cursor hlt := by
    rw [hseq]
    exact h.cursor hlt

/-- A call of another collection consumes something that is not in the sequence. -/
lemma consume_elsewhere {c' : CollId} {m : ExpId × MatchReport} (h : Filled c tag base bs k w)
    (hne : c' ≠ c) (hm : chosen w c' call = some m) :
    Filled c tag base bs k (w.consumeControl m.1) := by
  obtain ⟨p, hp, hstored, happ⟩ := h.inv.applicable_of_chosen hm
  have hother : ∀ j < bs.length, base + j ≠ m.1 := by
    intro j hj heq
    rw [← heq] at hstored
    exact h.elsewhere c' hne j hj hstored
  have hout : ∀ id, (tag, id) ∉ p.sequences := by
    intro id hid
    obtain ⟨hlt, heq⟩ := h.eq_of_attached ⟨hp, hid⟩
    exact hother id hlt heq.symm
  have hc := h.inv.consumed hp (ControlPolicy.isApplicable_iff.mp happ).1
  refine h.congr (h.inv.consumeControl hp happ) (hc.seqs_of_not_mem hout) (by rw [hc.colls]) ?_
    (Nat.le_of_eq hc.length.symm) fun j hj => consumeControl_exps_of_ne (hother j hj)
  rw [hc.colls]
  exact h.elsewhere

lemma create_elsewhere {b : Builder σ Call Ret Exc} {loc : SourceLocation}
    (h : Filled c tag base bs k w) (hcoll : b.storage ≠ c)
    (htag : tag ∉ b.sequenceConfig.sequences) (hfin : b.finalize loc w = (w', .ok e)) :
    Filled c tag base bs k w' := by
  obtain ⟨-, hc⟩ := finalize_created hfin
  obtain ⟨p, seqs, -, -, rfl⟩ := finalize_eq_ok hfin
  refine h.congr (h.inv.created newPolicy_valid hc) ?_ ?_ ?_ ?_ fun j hj => ?_
  · rcases hc.seqs tag with ⟨hpos, -⟩ | ⟨-, hs⟩
    · exact absurd (mem_newPolicy.mp ((hpos _).mpr rfl)).1 htag
    · exact hs
  · exact Function.update_of_ne hcoll.symm _ _
  · intro c' hne j hj
    rw [hc.colls]
    by_cases hcc : c' = b.storage
    · subst hcc
      have hcreated := h.created
      rw [Function.update_self, List.mem_append, List.mem_singleton, not_or]
      exact ⟨h.elsewhere _ hne j hj, by omega⟩
    · rw [Function.update_of_ne hcc]
      exact h.elsewhere c' hne j hj
  · rw [hc.length]
    exact Nat.le_succ _
  · have hcreated := h.created
    exact List.getElem?_append_left (by omega)

lemma remove_elsewhere {c' : CollId} (h : Filled c tag base bs k w) (hne : c' ≠ c) :
    Filled c tag base bs k (w.remove c' e).1 := by
  refine h.congr h.inv.remove (by rw [remove_seqs]) ?_ ?_ (by rw [remove_exps]) fun j _ => by
    rw [remove_exps]
  · rw [remove_colls, Function.update_of_ne hne.symm]
  · intro c'' hne' j hj hmem
    rw [remove_colls] at hmem
    refine h.elsewhere c'' hne' j hj ?_
    by_cases hcc : c'' = c'
    · subst hcc
      rw [Function.update_self] at hmem
      exact List.mem_of_mem_erase hmem
    · rwa [Function.update_of_ne hcc] at hmem

/-- **What a step does to the levels**: a call of the collection adds a unit, everything else
leaves them. -/
theorem step {a : Action σ Call Ret Exc} (h : Filled c tag base bs k w) (ha : Apart c tag a)
    (hst : attempt w a = some w') : Filled c tag base bs (k + called c w a) w' := by
  cases a with
  | create b loc =>
    change Runs.step w (.create b loc) = some w' at hst
    rcases step_cases hst with ⟨b', loc', e, hact, hfin⟩ | ⟨_, _, _, hact, -⟩ | ⟨_, hact, -⟩ |
      ⟨_, _, hact, -⟩ <;> cases hact
    exact h.create_elsewhere ha.1 ha.2 hfin
  | commit c' call =>
    by_cases hcc : c' = c
    · subst hcc
      rw [called, if_pos rfl]
      rcases Nat.lt_or_ge k (caps bs).sum with hk | hk
      · obtain ⟨i, ht⟩ := exists_turn hk
        obtain ⟨r, hm⟩ := h.chosen_of_turn ht call
        obtain rfl := Option.some.inj ((attempt_of_chosen hm).symm.trans hst)
        exact h.consume ht
      · have hnone : chosen w c' call = none := by
          rw [chosen_of_reported (h.reported call).1, h.fullMatches_of_sum_le hk call]
          rfl
        obtain rfl := Option.some.inj ((attempt_of_not_chosen hnone).symm.trans hst)
        exact h.overflow hk
    · rw [called, if_neg hcc]
      rcases hm : chosen w c' call with _ | m
      · obtain rfl := Option.some.inj ((attempt_of_not_chosen hm).symm.trans hst)
        exact h
      · obtain rfl := Option.some.inj ((attempt_of_chosen hm).symm.trans hst)
        exact h.consume_elsewhere hcc hm
  | user env =>
    obtain rfl := Option.some.inj hst
    exact h.congr (h.inv.congr rfl rfl fun _ => List.Sublist.refl _) rfl rfl h.elsewhere
      (Nat.le_refl _) fun _ _ => rfl
  | destroy c' e =>
    change Runs.step w (.destroy c' e) = some w' at hst
    rcases step_cases hst with ⟨_, _, _, hact, -⟩ | ⟨_, _, _, hact, -⟩ | ⟨_, hact, -⟩ |
      ⟨c'', e', hact, -, rfl⟩ <;> cases hact
    exact h.remove_elsewhere ha

end Filled

/-! ### The creation of the expectations -/

lemma filled_nil (hr : Reachable w₀) (hc : w₀.colls c = []) (hs : w₀.seqs tag = .empty .lazy) :
    Filled c tag w₀.exps.length [] 0 w₀ where
  inv := reachable_inv hr
  lazy := by rw [hs]; rfl
  elements b hb := by cases hb
  colls := hc
  elsewhere c' _ i hi := absurd hi (Nat.not_lt_zero _)
  created := Nat.le_refl _
  exps hb := by cases hb
  entries := by rw [hs]; rfl
  cursor _ := by rw [hs]; exact Nat.zero_le _

namespace Filled

/-- The sequence has room for one more. -/
lemma finalize_ok (h : Filled c tag base bs k w) (hb : Element c tag b.1)
    (hlen : bs.length ≤ intMax) : ∃ w' e, b.1.finalize b.2 w = (w', .ok e) := by
  have hroom : ∀ t ∈ b.1.sequenceConfig.sequences, (w.seqs t).entries.length ≤ intMax := by
    rw [hb.sequences, List.forall_mem_singleton, h.entries]
    exact hlen
  exact finalize_of_room b.2 hroom

/-- What the creation of one more expectation appends. -/
lemma appended {e : ℕ} (h : Filled c tag base bs k w) (hb : Element c tag b.1)
    (hfin : b.1.finalize b.2 w = (w', .ok e)) :
    w'.exps = w.exps ++ [element tag b bs.length 0] ∧
      w'.seqs tag = (w.seqs tag).emplaceBack (newPolicy w b.1).entryState := by
  obtain ⟨-, hc⟩ := finalize_created hfin
  constructor
  · obtain ⟨p, seqs, hcon, -, rfl⟩ := finalize_eq_ok hfin
    obtain ⟨rfl, -⟩ := ControlPolicy.construct_eq_ok hcon
    simp [element, hb.sequences, h.entries]
  · rcases hc.seqs tag with ⟨-, -, hs⟩ | ⟨hout, -⟩
    · exact hs
    · exact absurd (mem_newPolicy.mpr ⟨by simp [hb.sequences], rfl⟩) (hout _)

/-- The expectations with the new one behind them, before the first call. -/
lemma exps_appended {b' : Builder σ Call Ret Exc × SourceLocation}
    (h : Filled c tag base bs 0 w) (hlen : w.exps.length = base + bs.length)
    (hb' : (bs ++ [b])[i]? = some b') :
    (w.exps ++ [element tag b bs.length 0])[base + i]? = some (element tag b' i 0) := by
  rcases Nat.lt_or_ge i bs.length with hi | hi
  · rw [List.getElem?_append_left hi] at hb'
    have hold := h.exps hb'
    rw [level_zero] at hold
    rw [List.getElem?_append_left (by omega), hold]
  · have hi' := (List.getElem?_eq_some_iff.mp hb').1
    rw [List.length_append, List.length_singleton] at hi'
    obtain rfl : i = bs.length := by omega
    obtain rfl : b = b' := by simpa using hb'
    rw [← hlen, List.getElem?_concat_length]

/-- A new expectation of the sequence stands behind the others. -/
lemma create {e : ℕ} (h : Filled c tag base bs 0 w) (hlen : w.exps.length = base + bs.length)
    (hb : Element c tag b.1) (hfin : b.1.finalize b.2 w = (w', .ok e)) :
    Filled c tag base (bs ++ [b]) 0 w' := by
  obtain ⟨-, hc⟩ := finalize_created hfin
  obtain ⟨hexps, hseq⟩ := h.appended hb hfin
  refine ⟨h.inv.created newPolicy_valid hc, ?_, ?_, ?_, ?_, ?_, ?_, ?_, ?_⟩
  · rw [hseq]
    exact h.lazy
  · intro b' hb'
    rcases List.mem_append.mp hb' with hb' | hb'
    · exact h.elements b' hb'
    · rw [List.mem_singleton.mp hb']
      exact hb
  · rw [hc.colls, hb.storage, Function.update_self, h.colls, hlen]
    simp [List.range_succ]
  · intro c' hne i hi hmem
    rw [hc.colls, hb.storage, Function.update_of_ne hne] at hmem
    rw [List.length_append, List.length_singleton] at hi
    rcases Nat.lt_succ_iff_lt_or_eq.mp hi with hi | rfl
    · exact h.elsewhere c' hne i hi hmem
    · have hlt := h.inv.stored_lt hmem
      omega
  · rw [hc.length, hlen, List.length_append, List.length_singleton, Nat.add_assoc]
  · intro i b' hb'
    rw [level_zero, hexps]
    exact h.exps_appended hlen hb'
  · rw [hseq]
    simp [h.entries]
  · intro i hi
    rw [hseq, BasicSequence.emplaceBack_cursor]
    rcases Nat.lt_or_ge i bs.length with hlt | hge
    · refine h.cursor ?_
      rwa [before, caps, List.map_append, List.take_append_of_le_length
        (by rw [List.length_map]; exact hlt)] at hi
    · have hcur := (h.inv.valid_seqs tag).cursor_le
      rw [h.entries] at hcur
      omega

end Filled

lemma filled_creations {rest : List (Builder σ Call Ret Exc × SourceLocation)}
    (h : Filled c tag base bs 0 w) (hexps : w.exps.length = base + bs.length)
    (hrest : ∀ b ∈ rest, Element c tag b.1) (hlen : (bs ++ rest).length ≤ intMax + 1) :
    ∃ w₁, (machine σ Call Ret Exc).replay w (creations rest) = some w₁ ∧
      Filled c tag base (bs ++ rest) 0 w₁ := by
  induction rest generalizing bs w with
  | nil => exact ⟨w, rfl, by rwa [List.append_nil]⟩
  | cons b rest ih =>
    have hb := hrest b List.mem_cons_self
    have hroom : bs.length ≤ intMax := by
      rw [List.length_append, List.length_cons] at hlen
      omega
    obtain ⟨w', e, hfin⟩ := h.finalize_ok hb hroom
    have hassoc : bs ++ b :: rest = (bs ++ [b]) ++ rest := by simp
    rw [hassoc] at hlen ⊢
    have hexps' : w'.exps.length = base + (bs ++ [b]).length := by
      rw [(finalize_created hfin).2.length, hexps, List.length_append, List.length_singleton,
        Nat.add_assoc]
    obtain ⟨w₁, hrun, hfilled⟩ := ih (h.create hexps hb hfin) hexps'
      (fun b' hb' => hrest b' (List.mem_cons_of_mem _ hb')) hlen
    refine ⟨w₁, Option.bind_eq_some_iff.mpr ⟨w', ?_, hrun⟩, hfilled⟩
    simp [machine, Runs.step, hfin]

/-! ### Whole runs -/

/-- **A lazy sequence is filled strictly from the front.** Expectations that accept every call
are created in one collection and attached to one lazy sequence only. In every run from there,
the call number `k` is dispatched to the one expectation whose turn it is, as long as there is
room; behind that it is rejected as inapplicable, or as no match when there is no expectation. -/
theorem filled_from_the_front (hr : Reachable w₀) (hc : w₀.colls c = [])
    (hs : w₀.seqs tag = .empty .lazy) (hbs : ∀ b ∈ bs, Element c tag b.1)
    (hlen : bs.length ≤ intMax + 1) :
    ∃ w₁, (machine σ Call Ret Exc).replay w₀ (creations bs) = some w₁ ∧
      ∀ run w, (attempts σ Call Ret Exc).replay w₁ run = some w → (∀ a ∈ run, Apart c tag a) →
        ∀ call k, calls c w₁ run = k →
          (k < (caps bs).sum → ∃ i, Turn (caps bs) k i ∧ (∀ j, Turn (caps bs) k j → j = i) ∧
            ∃ x r, w.exps[w₀.exps.length + i]? = some x ∧
              Dispatched w call (w₀.exps.length + i) x [.fullMatch call r]
                (w.handleCall c call)) ∧
          ((caps bs).sum ≤ k → bs ≠ [] → ∃ reports, w.handleCall c call =
            (w, [.inapplicableMatches call reports],
              .error (w.reporter.reportInapplicableMatches call reports))) ∧
          (bs = [] → w.handleCall c call =
            (w, [.noMatches call []], .error (w.reporter.reportNoMatches call []))) := by
  obtain ⟨w₁, hrun₁, hcreated⟩ :=
    filled_creations (filled_nil hr hc hs) rfl hbs (by simpa using hlen)
  rw [List.nil_append] at hcreated
  refine ⟨w₁, hrun₁, fun run w hrun hapart call k hk => ?_⟩
  have h : Filled c tag w₀.exps.length bs k w := by
    have hcount := Machine.count_of_replay (I := Filled c tag w₀.exps.length bs) (f := called c)
      (fun _ _ _ _ h ha hst => h.step ha hst) hapart hcreated hrun
    rwa [Nat.zero_add, ← calls, hk] at hcount
  obtain ⟨hrep, hunhandled⟩ := h.reported call
  refine ⟨fun hlt => ?_, fun hge hne => ?_, fun hnil => ?_⟩
  · obtain ⟨i, ht⟩ := exists_turn hlt
    have hi : i < bs.length := by simpa using ht.lt_length
    have hx := h.exps (List.getElem?_eq_getElem hi)
    obtain ⟨r, hmem, hpick⟩ := h.pick_of_turn ht call
    have hdisp := handleCall_of_pick hrep hmem hpick hx
    rw [hunhandled] at hdisp
    exact ⟨i, ht, fun j hj => hj.unique ht, _, r, hx, hdisp⟩
  · have hnone := h.fullMatches_of_sum_le hge call
    have hin := h.reportsWith_ne_nil hnone hne
    have hcall := handleCall_of_inapplicable hrep hnone hin
    rw [hunhandled] at hcall
    exact ⟨_, hcall⟩
  · subst hnil
    have hstored : w.stored c = [] := by simp [World.stored, h.colls]
    have hcall := handleCall_of_no_match hrep (by simp [fullMatches, hstored, reportsOf])
      (by simp [reportsWith, hstored, reportsOf])
    rw [hunhandled] at hcall
    simpa [reportsWith, hstored, reportsOf] using hcall

/-- A required expectation between two optional ones, the first of which may never be used. -/
def threeElements : List (Builder Unit Unit Unit Unit × SourceLocation) :=
  [(anyCall 0 0 0 [0] (), ⟨"", 0⟩),
    (anyCall 0 1 2 [0] (), ⟨"", 0⟩),
    (anyCall 0 0 1 [0] (), ⟨"", 0⟩)]

/-- The third call is for the last of them. -/
theorem filled_from_the_front_third :
    ∃ w₁ w, (machine Unit Unit Unit Unit).replay (start (quietReporter ()) () fun _ => .lazy)
        (creations threeElements) = some w₁ ∧
      (attempts Unit Unit Unit Unit).replay w₁ [.commit 0 (), .commit 0 ()] = some w ∧
      ∃ i, Turn (caps threeElements) 2 i ∧ (∀ j, Turn (caps threeElements) 2 j → j = i) ∧
        ∃ x r, w.exps[i]? = some x ∧
          Dispatched w () i x [.fullMatch () r] (w.handleCall 0 ()) := by
  have hbs : ∀ b ∈ threeElements, Element 0 0 b.1 := by
    intro b hb
    rcases List.mem_cons.mp hb with rfl | hb
    · exact ⟨rfl, rfl, fun p hp => by cases hp⟩
    rcases List.mem_cons.mp hb with rfl | hb
    · exact ⟨rfl, rfl, fun p hp => by cases hp⟩
    rcases List.mem_cons.mp hb with rfl | hb
    · exact ⟨rfl, rfl, fun p hp => by cases hp⟩
    · cases hb
  have hs : (start (quietReporter ()) () fun _ => .lazy : World Unit Unit Unit Unit).seqs 0 =
      .empty .lazy := rfl
  obtain ⟨w₁, hrun₁, hruns⟩ :=
    filled_from_the_front (.init (start_fresh _ _ _)) rfl hs hbs (by decide)
  have h : ((attempts Unit Unit Unit Unit).replay w₁ [.commit 0 (), .commit 0 ()]).isSome
      = true := by
    rfl
  obtain ⟨w, hrun⟩ := Option.isSome_iff_exists.mp h
  have hcalls : calls 0 w₁ [.commit 0 (), .commit 0 ()] = 2 := by rfl
  have hdisp := (hruns _ w hrun (by simp [Apart]) () 2 hcalls).1 (by decide)
  simp only [start, List.length_nil, Nat.zero_add] at hdisp
  exact ⟨w₁, w, hrun₁, hrun, hdisp⟩

end MimicPP.Front

import MimicPP.Ratings
import MimicPP.Order

/-!
Which of the full matches of a call is consumed: where every expectation is in one sequence at
most, and where all sequences are lazy.
-/

namespace MimicPP.Choice

open MimicPP.Noexcept MimicPP.Sequence MimicPP.Reports MimicPP.Control MimicPP.Expectation
open MimicPP.Matching MimicPP.Transition MimicPP.Runs MimicPP.Invariant MimicPP.Scan
open MimicPP.Ratings MimicPP.Order

variable {σ Call Ret Exc : Type}
variable {w : World σ Call Ret Exc} {c : CollId} {call : Call} {e e' : ℕ}
variable {p q : ControlPolicy} {tag : Tag} {id id' : ℕ} {m n : ExpId × MatchReport}

/-- The rating tags of a full match are the sequences of its expectation. -/
lemma tags_full (hI : Inv w) (hm : m ∈ fullMatches w c call) (hp : policyOf w m.1 = some p) :
    tags (ratingsOf m) = p.sequences.map Prod.fst := by
  obtain ⟨p', hp', -, hr⟩ := hI.ratingsOf_full hm
  obtain rfl : p = p' := Option.some.inj (hp.symm.trans hp')
  rw [hr, tags_ratings]

lemma exists_policy_of_full (hI : Inv w) (hm : m ∈ fullMatches w c call) :
    ∃ p, policyOf w m.1 = some p := by
  obtain ⟨p, hp, -⟩ := hI.ratingsOf_full hm
  exact ⟨p, hp⟩

/-- The first full match of the scan is the newest. -/
lemma head_of_newest (hI : Inv w) (hN : NewestMatch w c call e) :
    ∃ r ms, fullMatches w c call = (e, r) :: ms := by
  obtain ⟨r, hr⟩ := accepts_iff.mpr ⟨hN.stored, hN.accepts⟩
  obtain ⟨⟨e', r'⟩, ms, hsplit⟩ := List.exists_cons_of_ne_nil (List.ne_nil_of_mem hr)
  have hhead := hI.newestMatch_head hsplit
  have hle : e' ≤ e := hN.newest hhead.stored hhead.accepts
  have hge : e ≤ e' := hhead.newest hN.stored hN.accepts
  obtain rfl : e' = e := Nat.le_antisymm hle hge
  exact ⟨r', ms, hsplit⟩

lemma laziness_nonpos_of_greedy (hI : Inv w) (hm : m ∈ fullMatches w c call)
    (hp : policyOf w m.1 = some p)
    (h : ∀ tag id, (tag, id) ∈ p.sequences → (w.seqs tag).strategy = .greedy) :
    laziness w.seqs (ratingsOf m) ≤ 0 := by
  have hle : ∀ e ∈ p.sequences, (tagLaziness w.seqs ∘ Prod.fst) e ≤ (0 : ℤ) := by
    intro e he
    simp [tagLaziness, h e.1 e.2 he]
  have hsum := List.sum_le_sum hle
  rw [laziness, tags_full hI hm hp, List.map_map]
  simpa using hsum

/-- A newest match that is in no lazy sequence is picked. -/
lemma pick_of_greedy (hI : Inv w) {r : MatchReport} {ms : List (ExpId × MatchReport)}
    (hsplit : fullMatches w c call = (e, r) :: ms) (hp : policyOf w e = some p)
    (h : ∀ tag id, (tag, id) ∈ p.sequences → (w.seqs tag).strategy = .greedy) :
    pickBestMatch (fullMatches w c call) = some (e, r) := by
  have hhead : (e, r) ∈ fullMatches w c call := by
    rw [hsplit]
    exact List.mem_cons_self
  have hlazy := laziness_nonpos_of_greedy hI hhead hp h
  rw [pickBestMatch_eq_scan hsplit, scan_of_keeps]
  intro n hn
  have hmem : n ∈ fullMatches w c call := by
    rw [hsplit]
    exact List.mem_cons_of_mem _ hn
  have hsorted := hI.fullMatches_sorted c call
  rw [hsplit] at hsorted
  have hlt : n.1 < e := (List.pairwise_cons.mp hsorted).1 n hn
  by_contra hk
  have hneg := ((keeps_newer hI hhead hmem hlt).mp (by simpa using hk)).2
  omega

/-- With one sequence each, the sequences of one match are among those of another when the
other is attached to it. -/
lemma tags_singleton (hI : Inv w) (hm : m ∈ fullMatches w c call)
    (hsingle : ∀ e p, e ∈ w.colls c → policyOf w e = some p → p.sequences.length ≤ 1)
    (htag : tag ∈ tags (ratingsOf m)) : tags (ratingsOf m) = [tag] := by
  obtain ⟨p, hp⟩ := exists_policy_of_full hI hm
  have hstored : m.1 ∈ w.colls c := (accepts_iff.mp ⟨m.2, hm⟩).1
  have hlen := hsingle m.1 p hstored hp
  rw [tags_full hI hm hp] at htag ⊢
  rcases hseq : p.sequences with _ | ⟨s, _ | ⟨s', rest⟩⟩
  · rw [hseq] at htag
    cases htag
  · rw [hseq] at htag
    rw [List.map_singleton, List.mem_singleton.mp htag]
  · rw [hseq] at hlen
    simp only [List.length_cons] at hlen
    omega

/-- A full match is attached to the sequences it is rated in. -/
lemma mem_tags_iff (hI : Inv w) (hm : m ∈ fullMatches w c call) (hp : policyOf w m.1 = some p) :
    tag ∈ tags (ratingsOf m) ↔ ∃ id, (tag, id) ∈ p.sequences := by
  rw [tags_full hI hm hp, List.mem_map]
  constructor
  · rintro ⟨⟨t, id⟩, hmem, rfl⟩
    exact ⟨id, hmem⟩
  · rintro ⟨id, hmem⟩
    exact ⟨_, hmem, rfl⟩

/-- Along the scan the matches of one lazy sequence replace each other, down to the oldest. -/
lemma pick_of_lazy (hI : Inv w)
    (hsingle : ∀ e p, e ∈ w.colls c → policyOf w e = some p → p.sequences.length ≤ 1)
    {best : ExpId × MatchReport} {ms : List (ExpId × MatchReport)}
    (hsplit : fullMatches w c call = best :: ms) (htag : tag ∈ tags (ratingsOf best))
    (hlazy : (w.seqs tag).strategy = .lazy)
    (hpick : pickBestMatch (fullMatches w c call) = some m) :
    tag ∈ tags (ratingsOf m) ∧ ∀ n ∈ fullMatches w c call,
      tag ∈ tags (ratingsOf n) → m.1 ≤ n.1 := by
  rw [pickBestMatch_eq_scan hsplit] at hpick
  obtain rfl := Option.some.inj hpick
  have hsorted := hI.fullMatches_sorted c call
  have hpair : (fullMatches w c call).Pairwise fun a b => tag ∈ tags (ratingsOf a) →
      (keeps a b = false ↔ tag ∈ tags (ratingsOf b)) := by
    refine List.Pairwise.imp_of_mem ?_ hsorted
    intro a b ha hb hlt htaga
    have htags := tags_singleton hI ha hsingle htaga
    have hlaz : laziness w.seqs (ratingsOf a) = 1 := by
      simp [laziness, htags, tagLaziness, hlazy]
    rw [keeps_newer hI ha hb hlt, hlaz, htags]
    simp
  rw [hsplit] at hpair hsorted ⊢
  obtain ⟨hin, before, after, hlist, hafter⟩ :=
    scan_last (fun n => tag ∈ tags (ratingsOf n)) htag hpair
  refine ⟨hin, fun n hn htagn => ?_⟩
  rw [hlist] at hn hsorted
  rcases List.mem_append.mp hn with hbefore | hrest
  · have hlt := (List.pairwise_append.mp hsorted).2.2 _ hbefore _ List.mem_cons_self
    exact Nat.le_of_lt hlt
  · rcases List.mem_cons.mp hrest with rfl | hrest
    · exact Nat.le_refl _
    · exact absurd htagn (hafter _ hrest)

/-- **Which expectation wins where each is in one sequence at most**: the newest full match, or
if that is in a lazy sequence, the oldest full match of this sequence. -/
theorem newest_or_front (hr : Reachable w)
    (hsingle : ∀ e p, e ∈ w.colls c → policyOf w e = some p → p.sequences.length ≤ 1)
    (hN : NewestMatch w c call e) (hp : policyOf w e = some p) :
    (Reported w call (w.stored c).reverse → ∃ m, chosen w c call = some m) ∧
    ∀ m, chosen w c call = some m →
      ((∀ tag id, (tag, id) ∈ p.sequences → (w.seqs tag).strategy = .greedy) → m.1 = e) ∧
      ∀ tag id, (tag, id) ∈ p.sequences → (w.seqs tag).strategy = .lazy →
        (∃ q i, Attached w m.1 q tag i) ∧
        ∀ e' q i, e' ∈ w.colls c → Accepts w call e' → Attached w e' q tag i → m.1 ≤ e' := by
  have hI := reachable_inv hr
  obtain ⟨r, ms, hsplit⟩ := head_of_newest hI hN
  have hhead : (e, r) ∈ fullMatches w c call := by
    rw [hsplit]
    exact List.mem_cons_self
  refine ⟨fun hrep => ?_, fun m hm => ?_⟩
  · obtain ⟨m, -, hpick⟩ := pickBestMatch_of_full (List.ne_nil_of_mem hhead)
      fun _ => fullMatches_full
    exact ⟨m, by rw [chosen_of_reported hrep, hpick]⟩
  · obtain ⟨hpick, hmem⟩ := chosen_eq_some hm
    refine ⟨fun hgreedy => ?_, fun tag id hid hlazy => ?_⟩
    · rw [pick_of_greedy hI hsplit hp hgreedy] at hpick
      exact congrArg Prod.fst (Option.some.inj hpick).symm
    · have htag := (mem_tags_iff hI hhead hp).mpr ⟨id, hid⟩
      obtain ⟨hin, hfront⟩ := pick_of_lazy hI hsingle hsplit htag hlazy hpick
      obtain ⟨q, hq⟩ := exists_policy_of_full hI hmem
      obtain ⟨i, hi⟩ := (mem_tags_iff hI hmem hq).mp hin
      refine ⟨⟨q, i, hq, hi⟩, fun e' q' i' hstored hacc hatt => ?_⟩
      obtain ⟨r', hr'⟩ := accepts_iff.mpr ⟨hstored, hacc⟩
      exact hfront _ hr' ((mem_tags_iff hI hr' hatt.policy).mpr ⟨i', hatt.mem⟩)

/-- Two optional expectations in a sequence, and one in none between them. -/
def interleaved : List (Action Unit Unit Unit Unit) :=
  [.create (anyCall 0 0 1 [0] ()) ⟨"", 0⟩,
    .create (anyCall 0 0 1 [] ()) ⟨"", 0⟩,
    .create (anyCall 0 0 1 [0] ()) ⟨"", 0⟩]

/-- The newest leads to the oldest. -/
theorem newest_or_front_interleaved :
    ∃ w, (machine Unit Unit Unit Unit).replay (start (quietReporter ()) () fun _ => .lazy)
        interleaved = some w ∧ NewestMatch w 0 () 2 ∧
      ∃ m, chosen w 0 () = some m ∧
        ∀ e' q i, e' ∈ w.colls 0 → Accepts w () e' → Attached w e' q 0 i → m.1 ≤ e' := by
  have h : ((machine Unit Unit Unit Unit).replay (start (quietReporter ()) () fun _ => .lazy)
      interleaved).isSome = true := by decide +kernel
  obtain ⟨w, hrun⟩ := Option.isSome_iff_exists.mp h
  have hr := reachable_of_run (start_fresh _ _ _) hrun
  have hsingle : ∀ e p, e ∈ w.colls 0 → policyOf w e = some p → p.sequences.length ≤ 1 := by
    cases hrun
    intro e p he hp
    have hmem : e ∈ [0, 1, 2] := he
    simp only [List.mem_cons, List.not_mem_nil, or_false] at hmem
    rcases hmem with rfl | rfl | rfl <;> obtain rfl := Option.some.inj hp <;> decide
  have hN : NewestMatch w 0 () 2 := by
    have hsplit : ∃ r ms, fullMatches w 0 () = (2, r) :: ms := by
      cases hrun
      exact ⟨_, _, rfl⟩
    obtain ⟨r, ms, hsplit⟩ := hsplit
    exact (reachable_inv hr).newestMatch_head hsplit
  have hp : policyOf w 2 = some ⟨0, 1, 0, [(0, 1)]⟩ := by
    cases hrun
    rfl
  have hlazy : (w.seqs 0).strategy = .lazy :=
    strategy_later (.init (start_fresh _ _ _)) (Machine.later_of_replay hrun) 0
  have hm : (chosen w 0 ()).isSome = true := by
    cases hrun
    rfl
  obtain ⟨m, hm⟩ := Option.isSome_iff_exists.mp hm
  have hfront := ((newest_or_front hr hsingle hN hp).2 m hm).2 0 1 List.mem_cons_self hlazy
  exact ⟨w, hrun, hN, m, hm, hfront.2⟩

/-! ### Lazy sequences only -/

/-- What a call comes to holds against every full match. -/
lemma keeps_of_chosen (hI : Inv w) (hm : chosen w c call = some m)
    (hn : n ∈ fullMatches w c call) : keeps m n = true := by
  obtain ⟨hpick, hmem⟩ := chosen_eq_some hm
  have hstaged := staged hI c call
  obtain ⟨best, ms, hsplit⟩ := List.exists_cons_of_ne_nil (List.ne_nil_of_mem hmem)
  rw [pickBestMatch_eq_scan hsplit, Option.some.injEq] at hpick
  rw [hsplit] at hstaged hn
  exact hpick ▸ scan_undominated hstaged n hn

/-- **What a lazy sequence is not skipped for**: where all sequences are lazy, no other full
match that is attached to all sequences of the consumed one stands before it in one of them. -/
theorem no_match_before_in_all (hr : Reachable w) (hlazy : ∀ tag, (w.seqs tag).strategy = .lazy)
    (hm : chosen w c call = some m) (hp : policyOf w m.1 = some p) :
    ¬ ∃ n ∈ fullMatches w c call, ∃ q tag id id', policyOf w n.1 = some q ∧
      (tag, id) ∈ p.sequences ∧ (tag, id') ∈ q.sequences ∧ id' < id ∧
      ∀ t i, (t, i) ∈ p.sequences → ∃ i', (t, i') ∈ q.sequences := by
  rintro ⟨n, hn, q, tag, id, id', hq, hid, hid', hlt, hall⟩
  have hI := reachable_inv hr
  obtain ⟨-, hmem⟩ := chosen_eq_some hm
  have holder : n.1 < m.1 := (hI.position_lt_iff ⟨hq, hid'⟩ ⟨hp, hid⟩).mp hlt
  have hsub : tags (ratingsOf m) ⊆ tags (ratingsOf n) := by
    intro t ht
    obtain ⟨i, hi⟩ := (mem_tags_iff hI hmem hp).mp ht
    exact (mem_tags_iff hI hn hq).mpr (hall t i hi)
  have hpos : 0 < laziness w.seqs (ratingsOf m) := by
    have hone : (tags (ratingsOf m)).map (tagLaziness w.seqs) =
        (tags (ratingsOf m)).map fun _ => (1 : ℤ) :=
      List.map_congr_left fun t _ => by simp [tagLaziness, hlazy t]
    have hlen : 0 < (tags (ratingsOf m)).length :=
      List.length_pos_of_mem ((mem_tags_iff hI hmem hp).mpr ⟨id, hid⟩)
    rw [laziness, hone]
    simpa using hlen
  -- so the comparison with the older match goes against the pick
  have hlost := (keeps_newer hI hmem hn holder).mpr ⟨hsub, hpos⟩
  have hwon : keeps m n = true := keeps_of_chosen hI hm hn
  rw [hlost] at hwon
  cases hwon

/-- The consumed one is in a sequence more than the one before it. -/
theorem no_match_before_in_all_overlapping :
    ∃ w m p, (machine Unit Unit Unit Unit).replay (start (quietReporter ()) () fun _ => .lazy)
        overlapping = some w ∧ chosen w 0 () = some m ∧ policyOf w m.1 = some p ∧
      p.sequences = [(0, 1), (1, 0)] ∧
      ¬ ∃ n ∈ fullMatches w 0 (), ∃ q tag id id', policyOf w n.1 = some q ∧
        (tag, id) ∈ p.sequences ∧ (tag, id') ∈ q.sequences ∧ id' < id ∧
        ∀ t i, (t, i) ∈ p.sequences → ∃ i', (t, i') ∈ q.sequences := by
  have h : ((machine Unit Unit Unit Unit).replay (start (quietReporter ()) () fun _ => .lazy)
      overlapping).isSome = true := by decide +kernel
  obtain ⟨w, hrun⟩ := Option.isSome_iff_exists.mp h
  have hr := reachable_of_run (start_fresh _ _ _) hrun
  have hlazy : ∀ tag, (w.seqs tag).strategy = .lazy := fun tag =>
    strategy_later (.init (start_fresh _ _ _)) (Machine.later_of_replay hrun) tag
  obtain ⟨m, p, hm, hp, hseqs⟩ : ∃ m p, chosen w 0 () = some m ∧ policyOf w m.1 = some p ∧
      p.sequences = [(0, 1), (1, 0)] := by
    cases hrun
    exact ⟨_, _, rfl, rfl, rfl⟩
  exact ⟨w, m, p, hrun, hm, hp, hseqs, no_match_before_in_all hr hlazy hm hp⟩

/-- **A usable element may be skipped**: of two full matches that share a lazy sequence the
later is consumed, when it is in another sequence as well. -/
theorem usable_element_skipped :
    ¬ ∀ (w : World Unit Unit Unit Unit) c call m n p q tag id id', Reachable w →
      (∀ tag, (w.seqs tag).strategy = .lazy) → chosen w c call = some m →
      n ∈ fullMatches w c call → policyOf w m.1 = some p → policyOf w n.1 = some q →
      (tag, id) ∈ p.sequences → (tag, id') ∈ q.sequences → ¬ id' < id := by
  intro h
  have hrun : ((machine Unit Unit Unit Unit).replay (start (quietReporter ()) () fun _ => .lazy)
      overlapping).isSome = true := by decide +kernel
  obtain ⟨w, hrun⟩ := Option.isSome_iff_exists.mp hrun
  have hr := reachable_of_run (start_fresh _ _ _) hrun
  have hlazy : ∀ tag, (w.seqs tag).strategy = .lazy := fun tag =>
    strategy_later (.init (start_fresh _ _ _)) (Machine.later_of_replay hrun) tag
  cases hrun
  exact h _ 0 () _ _ _ _ 0 1 0 hr hlazy rfl (List.mem_cons_of_mem _ List.mem_cons_self) rfl rfl
    List.mem_cons_self List.mem_cons_self (by decide)

end MimicPP.Choice

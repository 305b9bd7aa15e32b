import Mathlib.Algebra.BigOperators.Ring.List
import Mathlib.Algebra.Ring.Int.Defs
import Mathlib.Algebra.Order.BigOperators.Group.List
import MimicPP.Invariant

/-!
How the ratings of two full matches compare, and why the scan of `pick_best_match` is enough.

The sequences two matches share vote on them. Since positions follow the order of creation, a
lazy sequence always votes for the older match and a greedy one for the newer. So the vote of
a match against another depends on which of the two is older, and on the surplus of lazy over
greedy sequences it is attached to, its laziness.
-/

namespace MimicPP.Ratings

open MimicPP.Noexcept MimicPP.Sequence MimicPP.Reports MimicPP.Control MimicPP.Expectation
open MimicPP.Matching MimicPP.Runs MimicPP.Invariant MimicPP.Scan

variable {σ Call Ret Exc : Type}

def tags (rs : List Rating) : List Tag := rs.map Rating.tag

/-- The contribution of a rating to the vote; without a counterpart it ends the vote. -/
def vote (rhs : List Rating) (l : Rating) : ℤ :=
  match rhs.find? fun r => r.tag == l.tag with
  | some r => if l.priority < r.priority then -1 else 1
  | none => 0

def tagLaziness (seqs : Sequences) (tag : Tag) : ℤ :=
  match (seqs tag).strategy with
  | .lazy => 1
  | .greedy => -1

/-- The surplus of lazy over greedy sequences. -/
def laziness (seqs : Sequences) (rs : List Rating) : ℤ := ((tags rs).map (tagLaziness seqs)).sum

variable {lhs rhs : List Rating} {seqs : Sequences} {tag : Tag}

lemma find?_tag_isSome : (rhs.find? fun r => r.tag == tag).isSome = true ↔ tag ∈ tags rhs := by
  simp [tags, List.find?_isSome]

/-- A vote is lost when every rating has a counterpart and the contributions are negative. -/
lemma betterRatingLoop_eq_false {acc : ℤ} : betterRatingLoop rhs acc lhs = false ↔
    tags lhs ⊆ tags rhs ∧ acc + (lhs.map (vote rhs)).sum < 0 := by
  induction lhs generalizing acc with
  | nil => simp [betterRatingLoop, tags]
  | cons l lhs ih =>
    rcases hfind : rhs.find? (fun r => r.tag == l.tag) with _ | r
    · have hnot : l.tag ∉ tags rhs := by
        rw [← find?_tag_isSome, hfind]
        simp
      simp [betterRatingLoop, hfind, tags] at hnot ⊢
      grind
    · have hmem : l.tag ∈ tags rhs := by
        rw [← find?_tag_isSome, hfind]
        rfl
      have hvote : vote rhs l = if l.priority < r.priority then -1 else 1 := by
        simp [vote, hfind]
      have hsub : tags (l :: lhs) ⊆ tags rhs ↔ tags lhs ⊆ tags rhs := by
        simp only [tags, List.map_cons] at hmem ⊢
        exact ⟨fun h => (List.cons_subset.mp h).2, fun h => List.cons_subset.mpr ⟨hmem, h⟩⟩
      simp only [betterRatingLoop, hfind]
      rw [ih, hsub, ← hvote, List.map_cons, List.sum_cons, add_assoc]

lemma hasBetterRating_eq_false : hasBetterRating lhs rhs = false ↔
    tags lhs ⊆ tags rhs ∧ (lhs.map (vote rhs)).sum < 0 := by
  rw [hasBetterRating, betterRatingLoop_eq_false, zero_add]

/-- The vote when all sequences take the same side, up to their laziness. -/
lemma sum_vote {s : ℤ} (h : ∀ l ∈ lhs, vote rhs l = s * tagLaziness seqs l.tag) :
    (lhs.map (vote rhs)).sum = s * laziness seqs lhs := by
  have hmap : lhs.map (vote rhs) = lhs.map fun l => s * tagLaziness seqs l.tag :=
    List.map_congr_left h
  rw [hmap, laziness, tags, List.map_map]
  exact List.sum_map_mul_left lhs _ s

/-- Laziness is a matter of which sequences are rated. -/
lemma laziness_congr (seqs : Sequences) (hl : (tags lhs).Nodup) (hr : (tags rhs).Nodup)
    (h : tags lhs ⊆ tags rhs) (h' : tags rhs ⊆ tags lhs) :
    laziness seqs lhs = laziness seqs rhs := by
  have hperm : (tags lhs).Perm (tags rhs) :=
    (List.perm_ext_iff_of_nodup hl hr).mpr fun t => ⟨fun ht => h ht, fun ht => h' ht⟩
  exact (hperm.map _).sum_eq

/-! ### The ratings of control policies -/

variable {p q : ControlPolicy} {id id' : ℕ}

lemma tags_ratings : tags (p.ratings seqs) = p.sequences.map Prod.fst := by
  simp [tags, ControlPolicy.ratings, Function.comp_def]

lemma mem_ratings {r : Rating} : r ∈ p.ratings seqs ↔ ∃ id, (r.tag, id) ∈ p.sequences ∧
    r.priority = (seqs r.tag).strategy.priority id (seqs r.tag).cursor := by
  simp only [ControlPolicy.ratings, List.mem_map]
  constructor
  · rintro ⟨⟨tag, id⟩, hmem, rfl⟩
    exact ⟨id, hmem, rfl⟩
  · rintro ⟨id, hmem, hp⟩
    exact ⟨(r.tag, id), hmem, by rw [← hp]⟩

lemma vote_ratings (seqs : Sequences) (id : ℕ) (hq : q.Valid) (hid' : (tag, id') ∈ q.sequences) :
    vote (q.ratings seqs) ⟨(seqs tag).strategy.priority id (seqs tag).cursor, tag⟩ =
      if (seqs tag).strategy.priority id (seqs tag).cursor <
        (seqs tag).strategy.priority id' (seqs tag).cursor then -1 else 1 := by
  have hmem : tag ∈ tags (q.ratings seqs) := by
    rw [tags_ratings]
    exact List.mem_map.mpr ⟨_, hid', rfl⟩
  obtain ⟨r, hr⟩ := Option.isSome_iff_exists.mp (find?_tag_isSome.mpr hmem)
  have htag : r.tag = tag := by simpa using List.find?_some hr
  subst htag
  obtain ⟨id'', hid'', hp⟩ := mem_ratings.mp (List.mem_of_find?_eq_some hr)
  obtain rfl : id'' = id' := hq.position_unique hid'' hid'
  simp only [vote, hr, hp]

/-- A lazy sequence votes against the later of two positions, a greedy one for it. -/
lemma vote_later (seqs : Sequences) (hq : q.Valid) (hid' : (tag, id') ∈ q.sequences)
    (h : id' < id) :
    vote (q.ratings seqs) ⟨(seqs tag).strategy.priority id (seqs tag).cursor, tag⟩ =
      -1 * tagLaziness seqs tag := by
  rw [vote_ratings seqs id hq hid', tagLaziness]
  rcases (seqs tag).strategy with _ | _
  · have hlt : Strategy.priority .lazy id (seqs tag).cursor <
        Strategy.priority .lazy id' (seqs tag).cursor := by
      simp only [Strategy.priority]
      omega
    rw [if_pos hlt]
    rfl
  · have hle : ¬ Strategy.priority .greedy id (seqs tag).cursor <
        Strategy.priority .greedy id' (seqs tag).cursor := by
      simp only [Strategy.priority]
      omega
    rw [if_neg hle]
    rfl

/-- A lazy sequence votes for the earlier of two positions, a greedy one against it. -/
lemma vote_earlier (seqs : Sequences) (hq : q.Valid) (hid' : (tag, id') ∈ q.sequences)
    (h : id < id') :
    vote (q.ratings seqs) ⟨(seqs tag).strategy.priority id (seqs tag).cursor, tag⟩ =
      1 * tagLaziness seqs tag := by
  rw [vote_ratings seqs id hq hid', tagLaziness]
  rcases (seqs tag).strategy with _ | _
  · have hle : ¬ Strategy.priority .lazy id (seqs tag).cursor <
        Strategy.priority .lazy id' (seqs tag).cursor := by
      simp only [Strategy.priority]
      omega
    rw [if_neg hle]
    rfl
  · have hlt : Strategy.priority .greedy id (seqs tag).cursor <
        Strategy.priority .greedy id' (seqs tag).cursor := by
      simp only [Strategy.priority]
      omega
    rw [if_pos hlt]
    rfl

/-- Against itself a match gets the vote of each of its sequences. -/
lemma hasBetterRating_self (hp : p.Valid) :
    hasBetterRating (p.ratings seqs) (p.ratings seqs) = true := by
  have hvote : ∀ r ∈ p.ratings seqs, 0 ≤ vote (p.ratings seqs) r := by
    intro r hr
    obtain ⟨id, hid, hprio⟩ := mem_ratings.mp hr
    have hself := vote_ratings seqs id hp hid
    rw [if_neg (lt_irrefl _), ← hprio] at hself
    rw [hself]
    exact zero_le_one
  have hsum : 0 ≤ ((p.ratings seqs).map (vote (p.ratings seqs))).sum := by
    refine List.sum_nonneg fun v hv => ?_
    obtain ⟨r, hr, rfl⟩ := List.mem_map.mp hv
    exact hvote r hr
  by_contra h
  have hneg := (hasBetterRating_eq_false.mp (by simpa using h)).2
  omega

variable {w : World σ Call Ret Exc} {c : CollId} {call : Call} {e e' : ℕ}

/-- Where the counterpart of a rating stands. -/
lemma exists_counterpart (h : tags (p.ratings seqs) ⊆ tags (q.ratings seqs))
    (hid : (tag, id) ∈ p.sequences) : ∃ id', (tag, id') ∈ q.sequences := by
  rw [tags_ratings, tags_ratings] at h
  obtain ⟨⟨t, id'⟩, hid', rfl⟩ := List.mem_map.mp (h (List.mem_map.mpr ⟨_, hid, rfl⟩))
  exact ⟨id', hid'⟩

/-- The newer match gives way to an older one that is attached to all of its sequences, if it
is lazy. -/
lemma hasBetterRating_newer (hI : Inv w) (hp : policyOf w e = some p)
    (hq : policyOf w e' = some q) (h : e' < e) :
    hasBetterRating (p.ratings w.seqs) (q.ratings w.seqs) = false ↔
      tags (p.ratings w.seqs) ⊆ tags (q.ratings w.seqs) ∧
        0 < laziness w.seqs (p.ratings w.seqs) := by
  rw [hasBetterRating_eq_false]
  refine and_congr_right fun hsub => ?_
  have hsum : ((p.ratings w.seqs).map (vote (q.ratings w.seqs))).sum =
      -1 * laziness w.seqs (p.ratings w.seqs) := sum_vote fun r hr => by
      obtain ⟨id, hid, hprio⟩ := mem_ratings.mp hr
      obtain ⟨id', hid'⟩ := exists_counterpart hsub hid
      have hlt : id' < id := hI.ordered ⟨hq, hid'⟩ ⟨hp, hid⟩ h
      have hvote := vote_later w.seqs (hI.valid hq) hid' hlt
      rwa [← hprio] at hvote
  rw [hsum]
  omega

/-- The older match gives way to a newer one that is attached to all of its sequences, if it
is greedy. -/
lemma hasBetterRating_older (hI : Inv w) (hp : policyOf w e = some p)
    (hq : policyOf w e' = some q) (h : e < e') :
    hasBetterRating (p.ratings w.seqs) (q.ratings w.seqs) = false ↔
      tags (p.ratings w.seqs) ⊆ tags (q.ratings w.seqs) ∧
        laziness w.seqs (p.ratings w.seqs) < 0 := by
  rw [hasBetterRating_eq_false]
  refine and_congr_right fun hsub => ?_
  have hsum : ((p.ratings w.seqs).map (vote (q.ratings w.seqs))).sum =
      1 * laziness w.seqs (p.ratings w.seqs) := sum_vote fun r hr => by
      obtain ⟨id, hid, hprio⟩ := mem_ratings.mp hr
      obtain ⟨id', hid'⟩ := exists_counterpart hsub hid
      have hlt : id < id' := hI.ordered ⟨hp, hid⟩ ⟨hq, hid'⟩ h
      have hvote := vote_earlier w.seqs (hI.valid hq) hid' hlt
      rwa [← hprio] at hvote
  rw [hsum]
  omega

/-! ### The scan over the full matches -/

variable {m n : ExpId × MatchReport}

/-- The match so far stands before the next one in the scan, so it is the newer. -/
lemma keeps_newer (hI : Inv w) (hm : m ∈ fullMatches w c call) (hn : n ∈ fullMatches w c call)
    (h : n.1 < m.1) : keeps m n = false ↔
      tags (ratingsOf m) ⊆ tags (ratingsOf n) ∧ 0 < laziness w.seqs (ratingsOf m) := by
  obtain ⟨p, hp, -, hrm⟩ := hI.ratingsOf_full hm
  obtain ⟨q, hq, -, hrn⟩ := hI.ratingsOf_full hn
  rw [keeps, hrm, hrn]
  exact hasBetterRating_newer hI hp hq h

lemma keeps_older (hI : Inv w) (hm : m ∈ fullMatches w c call) (hn : n ∈ fullMatches w c call)
    (h : m.1 < n.1) : keeps m n = false ↔
      tags (ratingsOf m) ⊆ tags (ratingsOf n) ∧ laziness w.seqs (ratingsOf m) < 0 := by
  obtain ⟨p, hp, -, hrm⟩ := hI.ratingsOf_full hm
  obtain ⟨q, hq, -, hrn⟩ := hI.ratingsOf_full hn
  rw [keeps, hrm, hrn]
  exact hasBetterRating_older hI hp hq h

lemma keeps_self (hI : Inv w) (hm : m ∈ fullMatches w c call) : keeps m m = true := by
  obtain ⟨p, hp, -, hr⟩ := hI.ratingsOf_full hm
  rw [keeps, hr]
  exact hasBetterRating_self (hI.valid hp)

/-- The comparison is staged: by the inclusion of the sequences, and by the sign of the
laziness, which matches attached to the same sequences share. -/
lemma staged (hI : Inv w) (c : CollId) (call : Call) :
    Staged keeps (fun m n => tags (ratingsOf m) ⊆ tags (ratingsOf n))
    (fun m => 0 < laziness w.seqs (ratingsOf m)) (fun m => laziness w.seqs (ratingsOf m) < 0)
    (fullMatches w c call) where
  refl m hm := keeps_self hI hm
  trans m n o hmn hno := fun t ht => hno (hmn ht)
  forward := by
    refine List.Pairwise.imp_of_mem ?_ (hI.fullMatches_sorted c call)
    intro m n hm hn hlt
    exact keeps_newer hI hm hn hlt
  backward := by
    refine List.Pairwise.imp_of_mem ?_ (hI.fullMatches_sorted c call)
    intro m n hm hn hlt
    exact (keeps_older hI hn hm hlt).mp
  exclusive := by
    intro m hm n hn hmn hnm hup hdown
    obtain ⟨p, hp, -, hrm⟩ := hI.ratingsOf_full hm
    obtain ⟨q, hq, -, hrn⟩ := hI.ratingsOf_full hn
    have hm_nodup : (tags (ratingsOf m)).Nodup := by
      rw [hrm, tags_ratings]
      exact (hI.valid hp).nodup
    have hn_nodup : (tags (ratingsOf n)).Nodup := by
      rw [hrn, tags_ratings]
      exact (hI.valid hq).nodup
    have heq := laziness_congr w.seqs hm_nodup hn_nodup hmn hnm
    omega

/-- **The pick is undominated**: it holds against every full match of the call, also against
those it has not been compared with. -/
theorem pick_undominated (hr : Reachable w) (hne : fullMatches w c call ≠ []) :
    ∃ m ∈ fullMatches w c call, pickBestMatch (fullMatches w c call) = some m ∧
      ∀ n ∈ fullMatches w c call, hasBetterRating (ratingsOf m) (ratingsOf n) = true := by
  have hstaged := staged (reachable_inv hr) c call
  obtain ⟨best, ms, hsplit⟩ := List.exists_cons_of_ne_nil hne
  have hpick := pickBestMatch_eq_scan hsplit
  have hmem : scan keeps best ms ∈ fullMatches w c call := by
    rw [hsplit]
    exact scan_mem best ms
  rw [hsplit] at hstaged
  refine ⟨scan keeps best ms, hmem, hpick, fun n hn => ?_⟩
  rw [hsplit] at hn
  exact scan_undominated hstaged n hn

/-- Two optional expectations, the second in one more sequence than the first. -/
def overlapping : List (Action Unit Unit Unit Unit) :=
  [.create (anyCall 0 0 1 [0] ()) ⟨"", 0⟩,
    .create (anyCall 0 0 1 [0, 1] ()) ⟨"", 0⟩]

theorem pick_undominated_overlapping :
    ∃ w, (Runs.machine Unit Unit Unit Unit).replay (start (quietReporter ()) () fun _ => .lazy)
        overlapping = some w ∧
      ∃ m ∈ fullMatches w 0 (), pickBestMatch (fullMatches w 0 ()) = some m ∧
        ∀ n ∈ fullMatches w 0 (), hasBetterRating (ratingsOf m) (ratingsOf n) = true := by
  have h : ((Runs.machine Unit Unit Unit Unit).replay
      (start (quietReporter ()) () fun _ => .lazy) overlapping).isSome = true := by decide +kernel
  obtain ⟨w, hrun⟩ := Option.isSome_iff_exists.mp h
  have hne : fullMatches w 0 () ≠ [] := by
    cases hrun
    exact List.cons_ne_nil _ _
  exact ⟨w, hrun, pick_undominated (reachable_of_run (start_fresh _ _ _) hrun) hne⟩

end MimicPP.Ratings

import MimicPP.Invariant

/-!
Calls from several threads to one collection.

`handle_call` holds the lock of the collection for its loop only. So a call is two steps: one
that collects the full matches, and one that picks among them and consumes the pick; other
threads may come in between. The expectations are attached to no sequence.
-/

namespace MimicPP.Concurrent

open MimicPP.Noexcept MimicPP.Sequence MimicPP.Reports MimicPP.Control MimicPP.Expectation
open MimicPP.Matching MimicPP.Transition MimicPP.Runs MimicPP.Invariant

variable {σ Call Ret Exc : Type}

abbrev ThreadId := ℕ

/-- A call between its two steps. -/
structure InFlight (Call : Type) where
  thread : ThreadId
  call : Call
  fullMatches : List (ExpId × MatchReport)

structure Shared (σ Call Ret Exc : Type) where
  world : World σ Call Ret Exc
  inFlight : List (InFlight Call)

inductive Action (σ Call Ret Exc : Type)
  | push (times : TimesConfig) (finalizer : σ → Call → σ × Except Exc Ret)
      (policies : List (Policy σ Call Exc)) (loc : SourceLocation)
  | remove (e : ExpId)
  | collect (t : ThreadId) (call : Call)
  | consume (t : ThreadId)
  | user (env : σ)

/-- The collection is `c`. A thread collects for one call at a time. -/
def step (c : CollId) (s : Shared σ Call Ret Exc) :
    Action σ Call Ret Exc → Option (Shared σ Call Ret Exc)
  | .push times finalizer policies loc =>
    match Builder.finalize ⟨c, times, ⟨[], List.nodup_nil⟩, finalizer, policies⟩ loc s.world with
    | (w, .ok _) => some { s with world := w }
    | (_, .error _) => none
  | .remove e =>
    if e ∈ s.world.colls c then some { s with world := (s.world.remove c e).1 } else none
  | .collect t call =>
    match (s.world.collectMatches c call).2 with
    | .error _ => none
    | .ok b =>
      if s.inFlight.any fun f => f.thread == t then none
      else if b.fullMatches = [] then some s
      else some { s with inFlight := ⟨t, call, b.fullMatches⟩ :: s.inFlight }
  | .consume t =>
    match s.inFlight.find? fun f => f.thread == t with
    | none => none
    | some f =>
      (pickBestMatch f.fullMatches).map fun m =>
        ⟨s.world.consumeControl m.1, s.inFlight.eraseP fun f => f.thread == t⟩
  | .user env => some { s with world := { s.world with env := env } }

def machine (σ Call Ret Exc : Type) (c : CollId) :
    Machine (Shared σ Call Ret Exc) (Action σ Call Ret Exc) where
  init s := Fresh s.world ∧ s.inFlight = []
  step := step c

/-- What is wanted of every state: whatever is about to be consumed is still stored and
applicable, and nothing has been matched too often. -/
structure Safe (c : CollId) (s : Shared σ Call Ret Exc) : Prop where
  stored : ∀ f ∈ s.inFlight, ∃ m, pickBestMatch f.fullMatches = some m ∧ m.1 ∈ s.world.colls c
  applicable : ∀ f ∈ s.inFlight, ∃ m p, pickBestMatch f.fullMatches = some m ∧
    policyOf s.world m.1 = some p ∧ p.isApplicable s.world.seqs = true
  count_le_max : ∀ {e p}, policyOf s.world e = some p → p.count ≤ p.max

/-! ### The window between the two steps -/

/-- An expectation that is to be matched once at most. -/
def pushOnce : Action Unit Unit Unit Unit :=
  .push (limits 0 1) (fun env _ => (env, .ok ())) [] ⟨"", 0⟩

def initial : Shared Unit Unit Unit Unit := ⟨start (quietReporter ()) () fun _ => .lazy, []⟩

lemma initial_init : (machine Unit Unit Unit Unit 0).init initial := ⟨start_fresh _ _ _, rfl⟩

/-- **The window is open**: a second thread may collect before the first consumes, and the
expectation may be removed before it is consumed. -/
theorem consume_may_come_too_late :
    (¬ ∀ s, (machine Unit Unit Unit Unit 0).Reachable s →
      ∀ f ∈ s.inFlight, ∃ m, pickBestMatch f.fullMatches = some m ∧ m.1 ∈ s.world.colls 0) ∧
    (¬ ∀ s, (machine Unit Unit Unit Unit 0).Reachable s →
      ∀ f ∈ s.inFlight, ∃ m p, pickBestMatch f.fullMatches = some m ∧
        policyOf s.world m.1 = some p ∧ p.isApplicable s.world.seqs = true) ∧
    ¬ ∀ s, (machine Unit Unit Unit Unit 0).Reachable s →
      ∀ e p, policyOf s.world e = some p → p.count ≤ p.max := by
  have hreach := fun ls h =>
    Machine.reachable_of_replay (M := machine Unit Unit Unit Unit 0) initial_init ls h
  refine ⟨fun h => ?_, fun h => ?_, fun h => ?_⟩
  · obtain ⟨m, hm, hmem⟩ := h _ (hreach [pushOnce, .collect 0 (), .remove 0] rfl) _
      List.mem_cons_self
    cases hmem
  · obtain ⟨m, p, hm, hp, happ⟩ := h _
      (hreach [pushOnce, .collect 0 (), .collect 1 (), .consume 0] rfl) _ List.mem_cons_self
    obtain rfl := Option.some.inj hm
    obtain rfl := Option.some.inj hp
    cases happ
  · have hle := h _ (hreach [pushOnce, .collect 0 (), .collect 1 (), .consume 0, .consume 1] rfl)
      0 _ rfl
    exact absurd hle (by decide)

/-! ### When the window does no harm -/

/-- The number of calls in flight whose newest full match is the expectation. -/
def headedFor (s : Shared σ Call Ret Exc) (e : ExpId) : ℕ :=
  s.inFlight.countP fun f => (f.fullMatches.head?.map Prod.fst) == some e

/-- Calls are spaced out: one is let in only while the newest expectation that accepts it has
matches left for it besides the calls in flight, and an expectation is removed only while no
call in flight is headed for it. -/
def Spaced (c : CollId) (s : Shared σ Call Ret Exc) : Action σ Call Ret Exc → Prop
  | .collect _ call => ∀ e p, NewestMatch s.world c call e → policyOf s.world e = some p →
      p.count + headedFor s e < p.max
  | .remove e => headedFor s e = 0
  | _ => True

/-- Every call in flight has its match reserved. -/
structure Reserved (c : CollId) (s : Shared σ Call Ret Exc) : Prop where
  inv : Inv s.world
  unsequenced : ∀ {e p}, policyOf s.world e = some p → p.sequences = []
  budget : ∀ {e p}, policyOf s.world e = some p → p.count + headedFor s e ≤ p.max
  headed : ∀ f ∈ s.inFlight, ∃ m, f.fullMatches.head? = some m ∧
    pickBestMatch f.fullMatches = some m ∧ m.1 ∈ s.world.colls c

variable {c : CollId} {s s' : Shared σ Call Ret Exc} {e : ℕ} {p : ControlPolicy}
variable {w : World σ Call Ret Exc} {call : Call}

lemma headedFor_pos {f : InFlight Call} {m : ExpId × MatchReport} (hf : f ∈ s.inFlight)
    (hm : f.fullMatches.head? = some m) : 0 < headedFor s m.1 :=
  List.countP_pos_iff.mpr ⟨f, hf, by simp [hm]⟩

/-- Among expectations without sequences the newest is picked. -/
lemma pickBestMatch_unsequenced (hI : Inv w)
    (hun : ∀ {e p}, policyOf w e = some p → p.sequences = []) {m : ExpId × MatchReport}
    {rest : List (ExpId × MatchReport)} (h : fullMatches w c call = m :: rest) :
    pickBestMatch (m :: rest) = some m := by
  have hm : m ∈ fullMatches w c call := by
    rw [h]
    exact List.mem_cons_self
  obtain ⟨p, hp, -, hr⟩ := hI.ratingsOf_full hm
  have hkeeps : ∀ n ∈ rest, keeps m n = true := by
    intro n _
    simp [keeps, hr, ControlPolicy.ratings, hun hp, hasBetterRating, betterRatingLoop]
  rw [← h, pickBestMatch_eq_scan h, Scan.scan_of_keeps hkeeps]

/-- What a state guarantees to the call in flight on a thread. -/
lemma Reserved.applicable (h : Reserved c s) {f : InFlight Call} (hf : f ∈ s.inFlight) :
    ∃ m p, f.fullMatches.head? = some m ∧ pickBestMatch f.fullMatches = some m ∧
      m.1 ∈ s.world.colls c ∧ policyOf s.world m.1 = some p ∧ p.count < p.max ∧
      p.isApplicable s.world.seqs = true := by
  obtain ⟨m, hhead, hpick, hmem⟩ := h.headed f hf
  have hlt := h.inv.stored_lt hmem
  obtain ⟨p, hp⟩ : ∃ p, policyOf s.world m.1 = some p :=
    ⟨_, policyOf_of_some (List.getElem?_eq_getElem hlt)⟩
  have hpos := headedFor_pos hf hhead
  have hbudget := h.budget hp
  have hroom : p.count < p.max := by omega
  refine ⟨m, p, hhead, hpick, hmem, hp, hroom, ControlPolicy.isApplicable_iff.mpr ⟨hroom, ?_⟩⟩
  simp [h.unsequenced hp]

lemma Reserved.safe (h : Reserved c s) : Safe c s := by
  refine ⟨fun f hf => ?_, fun f hf => ?_, fun hp => (h.inv.valid hp).count_le_max⟩
  · obtain ⟨m, p, -, hpick, hmem, -⟩ := h.applicable hf
    exact ⟨m, hpick, hmem⟩
  · obtain ⟨m, p, -, hpick, -, hp, -, happ⟩ := h.applicable hf
    exact ⟨m, p, hpick, hp, happ⟩

lemma Reserved.push {b : Builder σ Call Ret Exc} {loc : SourceLocation} (h : Reserved c s)
    (hb : b.sequenceConfig.sequences = []) (hfin : b.finalize loc s.world = (w, .ok e)) :
    Reserved c { s with world := w } := by
  have hc := (finalize_created hfin).2
  have hfresh : headedFor s s.world.exps.length = 0 := by
    refine List.countP_eq_zero.mpr fun f hf => ?_
    obtain ⟨m, hhead, -, hmem⟩ := h.headed f hf
    have hlt := h.inv.stored_lt hmem
    have hne : m.1 ≠ s.world.exps.length := Nat.ne_of_lt hlt
    simp [hhead, hne]
  refine ⟨h.inv.created newPolicy_valid hc, fun {e p} hp => ?_, fun {e p} hp => ?_,
    fun f hf => ?_⟩
  · rcases hc.policy.mp hp with hold | ⟨-, rfl⟩
    · exact h.unsequenced hold
    · simp [newPolicy, hb]
  · change p.count + headedFor s e ≤ p.max
    rcases hc.policy.mp hp with hold | ⟨rfl, rfl⟩
    · exact h.budget hold
    · rw [hfresh]
      exact newPolicy_valid.count_le_max
  · obtain ⟨m, hhead, hpick, hmem⟩ := h.headed f hf
    refine ⟨m, hhead, hpick, ?_⟩
    change m.1 ∈ w.colls c
    rw [hc.colls]
    by_cases hcc : c = b.storage
    · subst hcc
      rw [Function.update_self]
      exact List.mem_append_left _ hmem
    · rwa [Function.update_of_ne hcc]

lemma Reserved.remove (h : Reserved c s) (hnone : headedFor s e = 0) :
    Reserved c { s with world := (s.world.remove c e).1 } := by
  have hpol : ∀ e', policyOf (s.world.remove c e).1 e' = policyOf s.world e' := by
    intro e'
    rw [policyOf, policyOf, remove_exps]
  refine ⟨h.inv.remove, fun hp => h.unsequenced (hpol _ ▸ hp), fun hp => h.budget (hpol _ ▸ hp),
    fun f hf => ?_⟩
  obtain ⟨m, hhead, hpick, hmem⟩ := h.headed f hf
  have hne : m.1 ≠ e := by
    rintro rfl
    have hpos : 0 < headedFor s m.1 := headedFor_pos hf hhead
    omega
  refine ⟨m, hhead, hpick, ?_⟩
  change m.1 ∈ (s.world.remove c e).1.colls c
  rw [remove_colls, Function.update_self]
  exact (List.mem_erase_of_ne hne).mpr hmem

lemma Reserved.collect (h : Reserved c s) {t : ThreadId} {m : ExpId × MatchReport}
    {rest : List (ExpId × MatchReport)} (hfull : fullMatches s.world c call = m :: rest)
    (hroom : ∀ p, policyOf s.world m.1 = some p → p.count + headedFor s m.1 < p.max) :
    Reserved c { s with inFlight := ⟨t, call, m :: rest⟩ :: s.inFlight } := by
  have hmem : m.1 ∈ s.world.colls c :=
    (accepts_iff.mp ⟨m.2, by rw [hfull]; exact List.mem_cons_self⟩).1
  refine ⟨h.inv, h.unsequenced, fun {e p} hp => ?_, fun f hf => ?_⟩
  · have hcount : headedFor { s with inFlight := ⟨t, call, m :: rest⟩ :: s.inFlight } e =
        headedFor s e + if m.1 = e then 1 else 0 := by
      simp [headedFor, List.countP_cons]
    have hbudget := h.budget hp
    rw [hcount]
    split
    · rename_i he
      subst he
      have hlt := hroom p hp
      omega
    · exact hbudget
  · rcases List.mem_cons.mp hf with rfl | hf
    · exact ⟨m, rfl, pickBestMatch_unsequenced h.inv h.unsequenced hfull, hmem⟩
    · exact h.headed f hf

/-- A consume takes its call out of flight, and no other. -/
lemma eraseP_of_find? {α : Type} {q : α → Bool} {l : List α} {a : α} (h : l.find? q = some a) :
    ∃ before after, l = before ++ a :: after ∧ l.eraseP q = before ++ after := by
  obtain ⟨ha, before, after, rfl, hbefore⟩ := List.find?_eq_some_iff_append.mp h
  refine ⟨before, after, rfl, ?_⟩
  have hnot : ∀ b ∈ before, ¬ q b = true := fun b hb => by simpa using hbefore b hb
  rw [List.eraseP_append_right _ hnot, List.eraseP_cons_of_pos ha]

lemma Reserved.consume (h : Reserved c s) {t : ThreadId} {f : InFlight Call}
    {m : ExpId × MatchReport} (hfind : s.inFlight.find? (fun f => f.thread == t) = some f)
    (hpick : pickBestMatch f.fullMatches = some m) :
    Reserved c ⟨s.world.consumeControl m.1, s.inFlight.eraseP fun f => f.thread == t⟩ := by
  have hf : f ∈ s.inFlight := List.mem_of_find?_eq_some hfind
  obtain ⟨m', p, hhead, hpick', hmem, hp, hlt, happ⟩ := h.applicable hf
  obtain rfl : m = m' := Option.some.inj (hpick.symm.trans hpick')
  obtain ⟨before, after, hsplit, herase⟩ := eraseP_of_find? hfind
  have hc := h.inv.consumed hp hlt
  refine ⟨h.inv.consumeControl hp happ, fun {e q} hq => ?_, fun {e q} hq => ?_, fun g hg => ?_⟩
  · rcases hc.policy.mp hq with ⟨-, rfl⟩ | ⟨-, hold⟩
    · rw [ControlPolicy.increment_sequences]
      exact h.unsequenced hp
    · exact h.unsequenced hold
  · have hcount : headedFor s e = headedFor ⟨s.world.consumeControl m.1,
        s.inFlight.eraseP fun f => f.thread == t⟩ e + if m.1 = e then 1 else 0 := by
      simp only [headedFor, herase]
      rw [hsplit, List.countP_append, List.countP_append, List.countP_cons, hhead]
      simp only [Option.map_some, beq_iff_eq, Option.some.injEq]
      omega
    rcases hc.policy.mp hq with ⟨rfl, rfl⟩ | ⟨hne, hold⟩
    · have hbudget := h.budget hp
      rw [hcount, if_pos rfl] at hbudget
      simp only [ControlPolicy.increment_count, ControlPolicy.increment_max]
      omega
    · have hbudget := h.budget hold
      rw [hcount, if_neg (Ne.symm hne)] at hbudget
      exact hbudget
  · have hg' : g ∈ s.inFlight := List.mem_of_mem_eraseP hg
    obtain ⟨n, hn, hpickn, hmemn⟩ := h.headed g hg'
    exact ⟨n, hn, hpickn, by rw [hc.colls]; exact hmemn⟩

lemma Reserved.step {a : Action σ Call Ret Exc} (h : Reserved c s) (hsp : Spaced c s a)
    (hst : step c s a = some s') : Reserved c s' := by
  cases a with
  | push times finalizer policies loc =>
    rcases hfin : Builder.finalize ⟨c, times, ⟨[], List.nodup_nil⟩, finalizer, policies⟩ loc
      s.world with ⟨w, exit | e⟩
    · simp [Concurrent.step, hfin] at hst
    · obtain rfl : { s with world := w } = s' := by simpa [Concurrent.step, hfin] using hst
      exact h.push rfl hfin
  | remove e =>
    rw [Concurrent.step] at hst
    split at hst
    · obtain rfl := Option.some.inj hst
      exact h.remove hsp
    · cases hst
  | collect t call =>
    rcases hcoll : s.world.collectMatches c call with ⟨events, exit | b⟩
    · simp [Concurrent.step, hcoll] at hst
    · simp only [Concurrent.step, hcoll] at hst
      rw [collectMatches_ok hcoll] at hst
      split at hst
      · cases hst
      · split at hst
        · obtain rfl := Option.some.inj hst
          exact h
        · obtain ⟨m, rest, hfull⟩ := List.exists_cons_of_ne_nil ‹¬ fullMatches s.world c call = []›
          obtain rfl := Option.some.inj hst
          have hnewest := h.inv.newestMatch_head (e := m.1) (r := m.2) hfull
          rw [hfull]
          exact h.collect hfull fun p hp => hsp m.1 p hnewest hp
  | consume t =>
    rcases hfind : s.inFlight.find? (fun f => f.thread == t) with _ | f
    · simp [Concurrent.step, hfind] at hst
    · simp only [Concurrent.step, hfind] at hst
      obtain ⟨m, hpick, rfl⟩ := Option.map_eq_some_iff.mp hst
      exact h.consume hfind hpick
  | user env =>
    obtain rfl := Option.some.inj hst
    exact ⟨h.inv.congr rfl rfl fun c => List.Sublist.refl _, h.unsequenced, h.budget, h.headed⟩

lemma Reserved.init (h : (machine σ Call Ret Exc c).init s) : Reserved c s := by
  obtain ⟨hfresh, hnone⟩ := h
  have hpol : ∀ e, policyOf s.world e = none := fun e => by simp [policyOf, hfresh.exps]
  refine ⟨Inv.fresh hfresh, fun {e p} hp => ?_, fun {e p} hp => ?_, fun f hf => ?_⟩
  · rw [hpol] at hp
    cases hp
  · rw [hpol] at hp
    cases hp
  · rw [hnone] at hf
    cases hf

/-- **Calls that are spaced out are safe**: in every state such a run reaches, whatever is
about to be consumed is still stored and applicable, and no expectation has been matched more
often than it may. -/
theorem spaced_safe (h : (machine σ Call Ret Exc c).ReachableVia (Spaced c) s) : Safe c s := by
  have hres : Reserved c s :=
    h.invariant (fun _ => Reserved.init) fun _ _ _ _ hres hsp hst => hres.step hsp hst
  exact hres.safe

/-- An expectation that is to be matched twice at most. -/
def pushTwice : Action Unit Unit Unit Unit :=
  .push (limits 0 2) (fun env _ => (env, .ok ())) [] ⟨"", 0⟩

/-- Two threads are between their steps at once, and the one that came second consumes first. -/
theorem spaced_safe_two_threads :
    ∃ s s' : Shared Unit Unit Unit Unit,
      (machine Unit Unit Unit Unit 0).replay initial [pushTwice, .collect 0 (), .collect 1 ()] =
        some s ∧ s.inFlight.map InFlight.thread = [1, 0] ∧ Safe 0 s ∧
      step 0 s (.consume 1) = some s' ∧ s'.inFlight.map InFlight.thread = [0] ∧ Safe 0 s' := by
  let M := machine Unit Unit Unit Unit 0
  obtain ⟨s₁, h₁⟩ : ∃ s, M.step initial pushTwice = some s := ⟨_, rfl⟩
  obtain ⟨s₂, h₂⟩ : ∃ s, M.step s₁ (.collect 0 ()) = some s := by cases h₁; exact ⟨_, rfl⟩
  obtain ⟨s₃, h₃⟩ : ∃ s, M.step s₂ (.collect 1 ()) = some s := by
    cases h₁; cases h₂; exact ⟨_, rfl⟩
  obtain ⟨s₄, h₄⟩ : ∃ s, M.step s₃ (.consume 1) = some s := by
    cases h₁; cases h₂; cases h₃; exact ⟨_, rfl⟩
  have hfirst : Spaced 0 s₁ (.collect 0 ()) := by
    cases h₁
    intro e p hnew hp
    have hmem : e ∈ [0] := hnew.stored
    obtain rfl := List.mem_singleton.mp hmem
    obtain rfl := Option.some.inj hp
    decide
  -- the call in flight takes one of the two matches
  have hsecond : Spaced 0 s₂ (.collect 1 ()) := by
    cases h₁
    cases h₂
    intro e p hnew hp
    have hmem : e ∈ [0] := hnew.stored
    obtain rfl := List.mem_singleton.mp hmem
    obtain rfl := Option.some.inj hp
    decide
  have hrun : M.replay initial [pushTwice, .collect 0 (), .collect 1 ()] = some s₃ := by
    simp [Machine.replay, h₁, h₂, h₃]
  have hvia : M.ReachableVia (Spaced 0) s₃ :=
    .step (.collect 1 ()) (.step (.collect 0 ()) (.step pushTwice (.init initial_init) trivial h₁)
      hfirst h₂) hsecond h₃
  have hafter : M.ReachableVia (Spaced 0) s₄ := .step (.consume 1) hvia trivial h₄
  refine ⟨s₃, s₄, hrun, ?_, spaced_safe hvia, h₄, ?_, spaced_safe hafter⟩
  · cases h₁; cases h₂; cases h₃; rfl
  · cases h₁; cases h₂; cases h₃; cases h₄; rfl

end MimicPP.Concurrent

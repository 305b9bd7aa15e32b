import MimicPP.Chain
import MimicPP.Interleaving

/-!
Tests whose expectations are set up by chains in another order.

A chain sets limits, sequences, policies and a finalizer. Clauses that are about different things
can change places, and so can a requirement and a side effect: the chain is accepted in either
order, and a test goes the same way.
-/

namespace MimicPP.Clauses

open MimicPP.Noexcept MimicPP.Sequence MimicPP.Reports MimicPP.Control MimicPP.Expectation
open MimicPP.Runs MimicPP.Invariant MimicPP.Chain MimicPP.Signatures MimicPP.Overloads
open MimicPP.ReportTexts MimicPP.Reporting MimicPP.Unwinding MimicPP.Scoped MimicPP.Arguments
open MimicPP.Effects MimicPP.Commutation MimicPP.Interleaving

variable {σ Call Ret Exc : Type} {printLocation : SourceLocation → String}

/-! ### Builder chains -/

/-- What a clause is about. -/
inductive Kind
  | sequences | times | finalizer | policy
  deriving DecidableEq

def kindOf : Step σ Call Ret Exc → Kind
  | .inSequences _ => .sequences
  | .times _ => .times
  | .finalizer _ => .finalizer
  | .policy _ => .policy

/-- Two clauses are about different things, or a requirement and a side effect. -/
inductive Independent : Step σ Call Ret Exc → Step σ Call Ret Exc → Prop
  | kinds {s t : Step σ Call Ret Exc} : kindOf s ≠ kindOf t → Independent s t
  | policies {p q : Policy σ Call Exc} : Apart p q → Independent (.policy p) (.policy q)

/-- Two builders that differ in the order of their policies at most. -/
structure SameBuilder (b b' : Builder σ Call Ret Exc) : Prop where
  storage : b.storage = b'.storage
  timesConfig : b.timesConfig = b'.timesConfig
  sequenceConfig : b.sequenceConfig = b'.sequenceConfig
  finalizePolicy : b.finalizePolicy = b'.finalizePolicy
  expectationPolicies : Commuted Apart b.expectationPolicies b'.expectationPolicies

section chains

variable {b b' c c' : Builder σ Call Ret Exc} {steps steps' : List (Step σ Call Ret Exc)}

lemma SameBuilder.refl (b : Builder σ Call Ret Exc) : SameBuilder b b :=
  ⟨rfl, rfl, rfl, rfl, .refl _⟩

lemma SameBuilder.trans (h : SameBuilder b b') (h' : SameBuilder b' c) : SameBuilder b c :=
  ⟨h.storage.trans h'.storage, h.timesConfig.trans h'.timesConfig,
    h.sequenceConfig.trans h'.sequenceConfig, h.finalizePolicy.trans h'.finalizePolicy,
    h.expectationPolicies.trans h'.expectationPolicies⟩

/-- What a clause sets, sequences apart. -/
def settle (b : Builder σ Call Ret Exc) : Step σ Call Ret Exc → Builder σ Call Ret Exc
  | .inSequences _ => b
  | .times config => { b with timesConfig := config }
  | .finalizer f => { b with finalizePolicy := f }
  | .policy p => { b with expectationPolicies := b.expectationPolicies ++ [p] }

lemma SameBuilder.settle (h : SameBuilder b b') (s : Step σ Call Ret Exc) :
    SameBuilder (settle b s) (settle b' s) := by
  cases s with
  | inSequences tags => exact h
  | times config => exact { h with timesConfig := rfl }
  | finalizer f => exact { h with finalizePolicy := rfl }
  | policy p => exact { h with expectationPolicies := h.expectationPolicies.append_right [p] }

lemma settle_swap (b : Builder σ Call Ret Exc) {s t : Step σ Call Ret Exc}
    (h : Independent s t) : SameBuilder (settle (settle b s) t) (settle (settle b t) s) := by
  cases h with
  | kinds hkind =>
    cases s <;> cases t <;> first | exact absurd rfl hkind | exact .refl _
  | @policies p q hpq =>
    refine ⟨rfl, rfl, rfl, rfl, ?_⟩
    simp only [settle, List.append_assoc]
    exact Commuted.append_left _ (.swap [] hpq)

lemma settle_commuted (h : Commuted Independent steps steps') (b : Builder σ Call Ret Exc) :
    SameBuilder (steps.foldl settle b) (steps'.foldl settle b) :=
  h.run SameBuilder.refl SameBuilder.trans (fun s hb => hb.settle s) (fun b _ _ => settle_swap b) b

lemma listed_commuted (h : Commuted Independent steps steps') :
    listed steps = listed steps' := by
  refine h.eq_of_step (F := listed) (G := fun s rest => s.tags ++ rest)
    (fun _ _ => List.flatMap_cons) ?_
  rintro s t (hkind | _) rest
  · cases s <;> cases t <;> first | exact absurd rfl hkind | rfl
  · rfl

lemma foldl_settle_sequences (config : Config) (b : Builder σ Call Ret Exc) :
    steps.foldl settle { b with sequenceConfig := config } =
      { steps.foldl settle b with sequenceConfig := config } := by
  induction steps generalizing b with
  | nil => rfl
  | cons s steps ih =>
    have hs : settle { b with sequenceConfig := config } s =
        { settle b s with sequenceConfig := config } := by cases s <;> rfl
    rw [List.foldl_cons, List.foldl_cons, hs, ih]

lemma andThen_settles {s : Step σ Call Ret Exc} (h : andThen b s = .ok c) :
    c = { settle b s with sequenceConfig := c.sequenceConfig } := by
  cases s with
  | inSequences tags =>
    simp only [andThen] at h
    split at h
    · cases h
    · split at h
      · cases h
      · obtain rfl := Except.ok.inj h
        rfl
  | times config =>
    obtain rfl := Except.ok.inj h
    rfl
  | finalizer f =>
    obtain rfl := Except.ok.inj h
    rfl
  | policy p =>
    obtain rfl := Except.ok.inj h
    rfl

/-- What the builder at the end of a chain has, its sequences apart. -/
lemma chain_settles (h : chain b steps = .ok c) :
    c = { steps.foldl settle b with sequenceConfig := c.sequenceConfig } := by
  induction steps generalizing b with
  | nil =>
    obtain rfl := Except.ok.inj h
    rfl
  | cons s steps ih =>
    rcases hs : andThen b s with err | b₁
    · simp only [chain, hs] at h
      cases h
    · simp only [chain, hs] at h
      have hc := ih h
      rw [andThen_settles hs, foldl_settle_sequences] at hc
      exact hc

/-- **A chain is accepted in either order, or in none**, and both orders give the same builder,
up to the order of requirements and side effects. -/
theorem chain_commuted (h : Commuted Independent steps steps') (b : Builder σ Call Ret Exc) :
    (chain b steps = .error duplicateSequence ∧ chain b steps' = .error duplicateSequence) ∨
      ∃ c c', chain b steps = .ok c ∧ chain b steps' = .ok c' ∧ SameBuilder c c' := by
  have hlisted := listed_commuted h
  rcases chain_cases b steps with ⟨hdup, herr⟩ | ⟨c, hc, hseqs⟩
  · rcases chain_cases b steps' with ⟨-, herr'⟩ | ⟨c', -, hseqs'⟩
    · exact .inl ⟨herr, herr'⟩
    · rw [hlisted, ← hseqs'] at hdup
      exact absurd c'.sequenceConfig.nodup hdup
  · rcases chain_cases b steps' with ⟨hdup, -⟩ | ⟨c', hc', hseqs'⟩
    · rw [← hlisted, ← hseqs] at hdup
      exact absurd c.sequenceConfig.nodup hdup
    · refine .inr ⟨c, c', hc, hc', ?_⟩
      have hconfig : c.sequenceConfig = c'.sequenceConfig := by
        rw [Config.mk.injEq, hseqs, hseqs', hlisted]
      have hsettle := settle_commuted h b
      rw [chain_settles hc, chain_settles hc', hconfig]
      exact { hsettle with sequenceConfig := rfl }

end chains

/-- Two builders create the same expectation, or both terminate. -/
lemma finalize_same {w w' : World σ Call Ret Exc} {b b' : Builder σ Call Ret Exc}
    (h : SameWorld w w') (hb : SameBuilder b b') (loc : SourceLocation) :
    (∃ w₁ w₁' e, b.finalize loc w = (w₁, .ok e) ∧ b'.finalize loc w' = (w₁', .ok e) ∧
        SameWorld w₁ w₁') ∨
      ∃ w₁ w₁' exit, b.finalize loc w = (w₁, .error exit) ∧
        b'.finalize loc w' = (w₁', .error exit) ∧ SameWorld w₁ w₁' := by
  unfold Builder.finalize
  rw [← hb.timesConfig, ← hb.sequenceConfig, ← h.seqs, ← hb.storage, ← h.length]
  rcases ControlPolicy.construct w.seqs b.timesConfig b.sequenceConfig with ⟨seqs, exit | p⟩
  · exact .inr ⟨_, _, exit, rfl, rfl, { h with seqs := rfl }⟩
  · refine .inl ⟨_, _, w.exps.length, rfl, rfl, ?_⟩
    refine ⟨h.reporter, h.env, rfl, by simp [World.push, h.length], fun e => ?_,
      by simp [World.push, h.colls]⟩
    simp only [World.push]
    rcases Nat.lt_trichotomy e w.exps.length with he | rfl | he
    · rw [List.getElem?_append_left he, List.getElem?_append_left (h.length ▸ he)]
      exact h.exps e
    · rw [List.getElem?_concat_length, h.length, List.getElem?_concat_length]
      exact .some ⟨rfl, rfl, hb.expectationPolicies, hb.finalizePolicy⟩
    · rw [List.getElem?_eq_none (by simpa using Nat.succ_le_of_lt he),
        List.getElem?_eq_none (by simpa [← h.length] using Nat.succ_le_of_lt he)]
      exact .none

/-! ### Tests -/

/-- Two tests whose expectations are set up by chains that differ in the order of independent
clauses at most. -/
inductive Reordered : Test σ Call Ret Exc → Test σ Call Ret Exc → Prop
  | done : Reordered .done .done
  | expect {b c c' : Builder σ Call Ret Exc} {steps steps' : List (Step σ Call Ret Exc)}
      (loc : SourceLocation) {rest rest' : Test σ Call Ret Exc} :
    Commuted Independent steps steps' → chain b steps = .ok c → chain b steps' = .ok c' →
      Reordered rest rest' → Reordered (.expect c loc rest) (.expect c' loc rest')
  | sequence {rest rest' : Tag → Test σ Call Ret Exc} :
    (∀ tag, Reordered (rest tag) (rest' tag)) → Reordered (.sequence rest) (.sequence rest')
  | call (c : CollId) (call : Call) {rest rest' : Ret → Test σ Call Ret Exc} :
    (∀ ret, Reordered (rest ret) (rest' ret)) → Reordered (.call c call rest) (.call c call rest')
  | user (f : σ → σ × Except Exc Unit) {rest rest' : σ → Test σ Call Ret Exc} :
    (∀ env, Reordered (rest env) (rest' env)) → Reordered (.user f rest) (.user f rest')
  | scope {body body' rest rest' : Test σ Call Ret Exc} :
    Reordered body body' → Reordered rest rest' → Reordered (.scope body rest) (.scope body' rest')
  | attempt {body body' rest rest' : Test σ Call Ret Exc}
      {handler handler' : Exc → Test σ Call Ret Exc} :
    Reordered body body' → (∀ exc, Reordered (handler exc) (handler' exc)) →
      Reordered rest rest' → Reordered (.attempt body handler rest) (.attempt body' handler' rest')

/-- An occurrence, less the reports and the policies consumed in it. -/
def outline : Occurrence Call Exc → Occurrence Call Exc
  | .called c call _ exit => .called c call [] exit
  | .removed e n _ exit => .removed e n [] exit
  | o => o

structure SameStatus (s s' : Status σ Call Ret Exc) : Prop where
  world : SameWorld s.world s'.world
  constructed : s.constructed = s'.constructed

section exec

variable {reporters : ℕ → Reporter Call Exc} {s s' : Status σ Call Ret Exc}

lemma destroyExpectation_same (hr : ∀ n, ReadsTexts printLocation (reporters n)) (c : CollId)
    (e : ExpId) (n : ℕ) (h : SameStatus s s') :
    Run.Lockstep SameStatus outline (destroyExpectation reporters c e n s)
      (destroyExpectation reporters c e n s') := by
  obtain ⟨hworld, hexit⟩ := (h.world.install (reporters n)).remove (hr n) c e
  simp only [destroyExpectation, ← hexit]
  exact .single ⟨hworld, h.constructed⟩ rfl

lemma destroySequence_same (tag : Tag) (n : ℕ) (h : SameStatus s s') :
    Run.Lockstep SameStatus outline (destroySequence reporters tag n s)
      (destroySequence reporters tag n s') := by
  simp only [destroySequence, ← h.world.seqs]
  exact .single h rfl

/-- Two tests in lockstep. -/
theorem exec_same (hr : ∀ n, ReadsTexts printLocation (reporters n))
    {test test' : Test σ Call Ret Exc} (ht : Reordered test test') (n : ℕ) (h : SameStatus s s') :
    Run.Lockstep SameStatus outline (exec reporters test n s) (exec reporters test' n s') := by
  induction ht generalizing s s' with
  | done => exact .skip h
  | @expect b c c' steps steps' loc rest rest' hsteps hc hc' _ ih =>
    have hb : SameBuilder c c' := by
      rcases chain_commuted hsteps b with ⟨herr, -⟩ | ⟨d, d', hd, hd', hb⟩
      · rw [hc] at herr
        cases herr
      · obtain rfl : c = d := Except.ok.inj (hc.symm.trans hd)
        obtain rfl : c' = d' := Except.ok.inj (hc'.symm.trans hd')
        exact hb
    simp only [exec]
    rcases finalize_same h.world hb loc with
      ⟨w, w', e, hw, hw', hsame⟩ | ⟨w, w', exit, hw, hw', hsame⟩
    · rw [hw, hw', ← hb.storage]
      have hnext : SameStatus { s with world := w } { s' with world := w' } :=
        ⟨hsame, h.constructed⟩
      exact ((ih hnext).leave fun m _ _ ht => destroyExpectation_same hr _ e m ht).behind rfl
    · rw [hw, hw']
      exact .single ⟨hsame, h.constructed⟩ rfl
  | @sequence rest rest' _ ih =>
    have hnext : SameStatus { s with constructed := s.constructed + 1 }
        { s' with constructed := s.constructed + 1 } := ⟨h.world, rfl⟩
    simp only [exec, ← h.constructed]
    exact (ih s.constructed hnext).leave fun m _ _ ht => destroySequence_same _ m ht
  | @call c call rest rest' _ ih =>
    have hcall := (h.world.install (reporters n)).handleCall (hr n) c call
    simp only [exec]
    generalize World.handleCall { s.world with reporter := reporters n } c call = r at hcall
    generalize World.handleCall { s'.world with reporter := reporters n } c call = r' at hcall
    obtain ⟨w, events, exit⟩ := r
    obtain ⟨w', events', exit'⟩ := r'
    obtain ⟨hworld, rfl⟩ : SameWorld w w' ∧ exit = exit' := hcall
    have hnext : SameStatus { s with world := w } { s' with world := w' } :=
      ⟨hworld, h.constructed⟩
    rcases exit with exit | ret
    · exact .single hnext rfl
    · exact (ih ret hnext).behind rfl
  | @user f rest rest' _ ih =>
    simp only [exec, ← h.world.env]
    rcases f s.world.env with ⟨env, exit⟩
    have hnext : SameStatus { s with world := { s.world with env := env } }
        { s' with world := { s'.world with env := env } } := ⟨h.world.withEnv env, h.constructed⟩
    rcases exit with exc | ⟨⟩
    · exact .single hnext rfl
    · exact (ih env hnext).behind rfl
  | scope _ _ ihb ihr => exact (ihb h).andThen fun ht => ihr ht
  | attempt _ _ _ ihb ihh ihr =>
    exact ((ihb h).rescue fun exc _ _ ht => ihh exc ht).andThen fun ht => ihr ht

/-- **The order of independent clauses does not matter.** With a reporter that goes by texts,
two tests that differ in no more than that end in the same way and with the same occurrences, one
by one, and leave the same objects, sequences and counters behind, whatever is rejected, thrown
and caught on the way. -/
theorem reordered_test (hr : ∀ n, ReadsTexts printLocation (reporters n))
    {test test' : Test σ Call Ret Exc} (ht : Reordered test test') (n : ℕ)
    (s : Status σ Call Ret Exc) :
    (exec reporters test n s).exit = (exec reporters test' n s).exit ∧
    (exec reporters test n s).log.map outline = (exec reporters test' n s).log.map outline ∧
    (exec reporters test n s).state.world.env = (exec reporters test' n s).state.world.env ∧
    (exec reporters test n s).state.world.seqs = (exec reporters test' n s).state.world.seqs ∧
    ∀ e, policyOf (exec reporters test n s).state.world e =
      policyOf (exec reporters test' n s).state.world e := by
  have hsame := exec_same hr ht n (s := s) ⟨.refl _, rfl⟩
  exact ⟨hsame.exit, hsame.log, hsame.state.world.env, hsame.state.world.seqs,
    hsame.state.world.policy⟩

end exec

/-! ### A requirement, a side effect and a limit -/

/-- Numbers are compared as such, and none of them is a string. -/
def numbers : Operations ℕ Unit (Thrown Unit) where
  equalTo a b := .ok (a == b)
  print a := .ok (toString a)
  view _ := []

def expectThree : Policy (Store ℕ Unit) (ArgsInfo 1) (Thrown Unit) :=
  makeArgPolicy numbers false onlyArg (.value false 3)

def tripleClauses : List (Step (Store ℕ Unit) (ArgsInfo 1) Unit (Thrown Unit)) :=
  [.policy expectThree, .policy (applyArg onlyArg double), .times (limits 1 1)]

def turnedClauses : List (Step (Store ℕ Unit) (ArgsInfo 1) Unit (Thrown Unit)) :=
  [.policy (applyArg onlyArg double), .times (limits 1 1), .policy expectThree]

lemma clauses_commuted : Commuted Independent tripleClauses turnedClauses :=
  (Commuted.swap _ (.policies (.requirementFirst (argsRequirement_inert _ _ _)
    (sideEffectAction_mute _)))).trans (.cons _ (.swap _ (.kinds (by decide))))

/-- A call that meets the requirement. -/
def testOf (policies : List (Policy (Store ℕ Unit) (ArgsInfo 1) (Thrown Unit))) :
    Test (Store ℕ Unit) (ArgsInfo 1) Unit (Thrown Unit) :=
  .expect ⟨0, limits 1 1, ⟨[], List.nodup_nil⟩, initFinalize, policies⟩ ⟨"", 0⟩
    (.call 0 (callInfo unary fun _ => 3) fun _ => .done)

def textReporters : ℕ → Reporter (ArgsInfo 1) (Thrown Unit) :=
  basicReporter SourceLocation.fileName (fun _ => emptyCallReport) (fun _ => none)
    (fun _ => .ok ()) fun text => .thrown (.error text)

lemma textReporters_readTexts (n : ℕ) : ReadsTexts SourceLocation.fileName (textReporters n) :=
  basicReporter_readsTexts _ _ _ _ n

lemma tests_reordered : Reordered (testOf [expectThree, applyArg onlyArg double])
    (testOf [applyArg onlyArg double, expectThree]) :=
  .expect (b := makeExpectationBuilder 0 initFinalize) _ clauses_commuted rfl rfl
    (.call 0 _ fun _ => .done)

theorem reordered_test_doubling :
    (exec textReporters (testOf [expectThree, applyArg onlyArg double]) 0 doublingStart).exit =
        (exec textReporters (testOf [applyArg onlyArg double, expectThree]) 0 doublingStart).exit ∧
      (exec textReporters (testOf [applyArg onlyArg double, expectThree]) 0
        doublingStart).state.world.env.memory 3 = 6 :=
  ⟨(reordered_test textReporters_readTexts tests_reordered 0 doublingStart).1, rfl⟩

end MimicPP.Clauses

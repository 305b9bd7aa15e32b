import Mathlib.Data.List.Dedup
import MimicPP.Matching
import MimicPP.Transition

/-!
Single-threaded runs: expectations are created and destroyed, calls are handled, and user
code runs in between.

A call is split where user code comes in. `commit` is what `handle_call` does to the
expectations and the sequences: it matches, and consumes the control policy of the match it
picks. The side effects and the finalizer behind it are user code, which changes its own
variables and may itself make further calls. So every run of whole calls is a run here, calls
from side effects and finalizers included, with all the states these can observe. Calls that
a matcher or a printer makes, while the expectations are still asked, are not covered.
-/

namespace MimicPP.Runs

open MimicPP.Noexcept MimicPP.Sequence MimicPP.Reports MimicPP.Control MimicPP.Expectation
open MimicPP.Matching MimicPP.Transition

variable {σ Call Ret Exc : Type}

inductive Action (σ Call Ret Exc : Type)
  | create (b : Builder σ Call Ret Exc) (loc : SourceLocation)
  | commit (c : CollId) (call : Call)
  | user (env : σ)
  | destroy (c : CollId) (e : ExpId)

/-- One action. An attachment that terminates, a call without a match to consume and the
destruction of an expectation the collection does not store are not enabled. -/
def step (w : World σ Call Ret Exc) : Action σ Call Ret Exc → Option (World σ Call Ret Exc)
  | .create b loc =>
    match b.finalize loc w with
    | (w', .ok _) => some w'
    | (_, .error _) => none
  | .commit c call => (chosen w c call).map fun m => w.consumeControl m.1
  | .user env => some { w with env := env }
  | .destroy c e => if e ∈ w.colls c then some (w.remove c e).1 else none

/-- No expectation has been created yet; the sequences are of either flavour. -/
structure Fresh (w : World σ Call Ret Exc) : Prop where
  exps : w.exps = []
  colls : ∀ c, w.colls c = []
  seqs : ∀ tag, w.seqs tag = BasicSequence.empty (w.seqs tag).strategy

def machine (σ Call Ret Exc : Type) : Machine (World σ Call Ret Exc) (Action σ Call Ret Exc) where
  init := Fresh
  step := step

/-- The worlds a run can reach. -/
abbrev Reachable (w : World σ Call Ret Exc) : Prop := (machine σ Call Ret Exc).Reachable w

/-- The worlds a run can get to from `w`. -/
abbrev Later (w w' : World σ Call Ret Exc) : Prop := (machine σ Call Ret Exc).Later w w'

/-- The world a test starts in. -/
def start (reporter : Reporter Call Exc) (env : σ) (flavour : Tag → Strategy) :
    World σ Call Ret Exc :=
  ⟨reporter, env, fun tag => .empty (flavour tag), [], fun _ => []⟩

lemma start_fresh (reporter : Reporter Call Exc) (env : σ) (flavour : Tag → Strategy) :
    Fresh (start reporter env flavour : World σ Call Ret Exc) :=
  ⟨rfl, fun _ => rfl, fun _ => rfl⟩

/-- A reporter that leaves a rejected call by an exception and takes note of everything else. -/
def quietReporter (exc : Exc) : Reporter Call Exc where
  reportNoMatches _ _ := .thrown exc
  reportInapplicableMatches _ _ := .thrown exc
  reportUnfulfilledExpectation _ := .ok ()
  reportError _ := .ok ()
  reportUnhandledException _ _ _ := .ok ()

/-- Limits, cut off where they would not get past the constructor. -/
def limits (min max : ℕ) : TimesConfig where
  min := Nat.min min (Nat.min max intMax)
  max := Nat.min max intMax
  min_le_max := Nat.min_le_right _ _
  max_le_intMax := Nat.min_le_right _ _

/-- An expectation without policies, which so accepts every call. -/
def anyCall (c : CollId) (min max : ℕ) (tags : List Tag) (ret : Ret) : Builder σ Call Ret Exc :=
  ⟨c, limits min max, ⟨tags.dedup, tags.nodup_dedup⟩, fun env _ => (env, .ok ret), []⟩

/-- A required and an optional expectation in one sequence, and a call. -/
def requiredThenOptional : List (Action Unit Unit Unit Unit) :=
  [.create (anyCall 0 1 1 [0] ()) ⟨"", 0⟩,
    .create (anyCall 0 0 2 [0] ()) ⟨"", 0⟩,
    .commit 0 ()]

lemma reachable_of_run {w₀ w : World σ Call Ret Exc} {run : List (Action σ Call Ret Exc)}
    (h₀ : Fresh w₀) (h : (machine σ Call Ret Exc).replay w₀ run = some w) : Reachable w :=
  .of_replay h₀ h

/-! ### What the parts of a step do -/

variable {w w' : World σ Call Ret Exc} {e : ExpId} {x : BasicExpectation σ Call Ret Exc}

@[simp] lemma remove_exps (c : CollId) : (w.remove c e).1.exps = w.exps := by
  unfold World.remove; split
  · rfl
  · split <;> rfl

@[simp] lemma remove_seqs (c : CollId) : (w.remove c e).1.seqs = w.seqs := by
  unfold World.remove; split
  · rfl
  · split <;> rfl

@[simp] lemma remove_colls (c : CollId) :
    (w.remove c e).1.colls = Function.update w.colls c ((w.colls c).erase e) := by
  unfold World.remove; split
  · rfl
  · split <;> rfl

/-- The report of a removal. -/
lemma remove_events {c : CollId} (hx : w.exps[e]? = some x) : (w.remove c e).2.1 =
    if x.isSatisfied w.env then [] else [.unfulfilledExpectation (x.report w.env w.seqs)] := by
  unfold World.remove
  rw [hx]
  simp only
  split <;> rfl

lemma consumeControl_of_some (hx : w.exps[e]? = some x) : w.consumeControl e =
    { w with
      seqs := (x.controlPolicy.consume w.seqs).2
      exps := w.exps.set e { x with controlPolicy := x.controlPolicy.increment } } := by
  simp only [World.consumeControl, hx, ControlPolicy.consume_fst]

@[simp] lemma consumeControl_colls : (w.consumeControl e).colls = w.colls := by
  unfold World.consumeControl; split <;> rfl

@[simp] lemma consumeControl_env : (w.consumeControl e).env = w.env := by
  unfold World.consumeControl; split <;> rfl

@[simp] lemma consumeControl_length : (w.consumeControl e).exps.length = w.exps.length := by
  unfold World.consumeControl; split <;> simp

lemma consumeControl_exps_self (hx : w.exps[e]? = some x) : (w.consumeControl e).exps[e]? =
    some { x with controlPolicy := x.controlPolicy.increment } := by
  rw [consumeControl_of_some hx]
  simp [List.getElem?_set_self (List.getElem?_eq_some_iff.mp hx).1]

lemma consumeControl_exps_of_ne {e' : ExpId} (h : e' ≠ e) :
    (w.consumeControl e).exps[e']? = w.exps[e']? := by
  unfold World.consumeControl
  split
  · rfl
  · simp [List.getElem?_set_ne h.symm]

/-- The new expectation, and what its creation leaves behind. -/
lemma finalize_eq_ok {b : Builder σ Call Ret Exc} {loc : SourceLocation}
    (h : b.finalize loc w = (w', .ok e)) :
    ∃ p seqs, ControlPolicy.construct w.seqs b.timesConfig b.sequenceConfig = (seqs, .ok p) ∧
      e = w.exps.length ∧
      w' = { w with
        seqs := seqs
        exps := w.exps ++ [⟨loc, p, b.expectationPolicies, b.finalizePolicy⟩]
        colls := Function.update w.colls b.storage (w.colls b.storage ++ [e]) } := by
  rcases hcon : ControlPolicy.construct w.seqs b.timesConfig b.sequenceConfig with ⟨seqs, exit | p⟩
  · simp [Builder.finalize, hcon] at h
  · simp only [Builder.finalize, hcon, Prod.mk.injEq, Except.ok.injEq] at h
    obtain ⟨rfl, rfl⟩ := h
    exact ⟨p, seqs, rfl, rfl, rfl⟩

/-- A builder whose attachments fail terminates. -/
lemma finalize_eq_error {b : Builder σ Call Ret Exc} {loc : SourceLocation}
    {exit : Exit StdError} (h : b.finalize loc w = (w', .error exit)) :
    exit = .terminate ∧ ∃ t ∈ b.sequenceConfig.sequences, intMax < (w.seqs t).entries.length := by
  rcases hcon : ControlPolicy.construct w.seqs b.timesConfig b.sequenceConfig
    with ⟨seqs, exit' | p⟩
  · simp only [Builder.finalize, hcon, Prod.mk.injEq, Except.error.injEq] at h
    obtain ⟨-, rfl⟩ := h
    exact ControlPolicy.construct_eq_error hcon
  · simp [Builder.finalize, hcon] at h

lemma finalize_of_room {b : Builder σ Call Ret Exc} (loc : SourceLocation)
    (hroom : ∀ t ∈ b.sequenceConfig.sequences, (w.seqs t).entries.length ≤ intMax) :
    ∃ w' e, b.finalize loc w = (w', .ok e) := by
  rcases hfin : b.finalize loc w with ⟨w', exit | e⟩
  · obtain ⟨-, t, ht, hfull⟩ := finalize_eq_error hfin
    exact absurd (hroom t ht) (Nat.not_le_of_lt hfull)
  · exact ⟨w', e, rfl⟩

/-- **The four ways a world can change.** -/
theorem step_cases {a : Action σ Call Ret Exc} (h : step w a = some w') :
    (∃ b loc e, a = .create b loc ∧ b.finalize loc w = (w', .ok e)) ∨
    (∃ c call m, a = .commit c call ∧ chosen w c call = some m ∧ w' = w.consumeControl m.1) ∨
    (∃ env, a = .user env ∧ w' = { w with env := env }) ∨
    (∃ c e, a = .destroy c e ∧ e ∈ w.colls c ∧ w' = (w.remove c e).1) := by
  cases a with
  | create b loc =>
    rcases hfin : b.finalize loc w with ⟨w'', exit | e⟩
    · simp [step, hfin] at h
    · obtain rfl : w'' = w' := by simpa [step, hfin] using h
      exact .inl ⟨b, loc, e, rfl, hfin⟩
  | commit c call =>
    obtain ⟨m, hm, rfl⟩ := Option.map_eq_some_iff.mp h
    exact .inr (.inl ⟨c, call, m, rfl, hm, rfl⟩)
  | user env =>
    obtain rfl := Option.some.inj h
    exact .inr (.inr (.inl ⟨env, rfl, rfl⟩))
  | destroy c e =>
    rw [step] at h
    split at h
    · obtain rfl := Option.some.inj h
      exact .inr (.inr (.inr ⟨c, e, rfl, ‹_›, rfl⟩))
    · cases h

/-- The policies an expectation was given are what it has ever after. -/
lemma step_policies {a : Action σ Call Ret Exc} (h : step w a = some w')
    (hx : w.exps[e]? = some x) : ∃ x', w'.exps[e]? = some x' ∧ x'.policies = x.policies := by
  rcases step_cases h with ⟨b, loc, e', -, hfin⟩ | ⟨c, call, m, -, -, rfl⟩ | ⟨env, -, rfl⟩ |
    ⟨c, e', -, -, rfl⟩
  · obtain ⟨p, seqs, -, -, rfl⟩ := finalize_eq_ok hfin
    exact ⟨x, by rw [List.getElem?_append_left (List.getElem?_eq_some_iff.mp hx).1, hx], rfl⟩
  · by_cases he : e = m.1
    · subst he
      exact ⟨_, consumeControl_exps_self hx, rfl⟩
    · exact ⟨x, by rw [consumeControl_exps_of_ne he, hx], rfl⟩
  · exact ⟨x, hx, rfl⟩
  · exact ⟨x, by rw [remove_exps, hx], rfl⟩

lemma later_policies (h : Later w w') (hx : w.exps[e]? = some x) :
    ∃ x', w'.exps[e]? = some x' ∧ x'.policies = x.policies := by
  induction h with
  | refl => exact ⟨x, hx, rfl⟩
  | step a _ hstep ih =>
    obtain ⟨y, hy, hpolicies⟩ := ih
    obtain ⟨x', hx', hsame⟩ := step_policies hstep hy
    exact ⟨x', hx', hsame.trans hpolicies⟩

/-! ### Whole calls -/

variable {c : CollId} {call : Call} {m : ExpId × MatchReport}

/-- Policies are consumed behind a `noexcept` boundary. -/
lemma consumePolicies_error {ps : List (Policy σ Call Exc)} {index : ℕ} {env env' : σ}
    {events : List (Event Call Exc)} {exit : Exit Exc}
    (h : consumePolicies call e index ps env = (env', events, .error exit)) :
    exit = .terminate := by
  induction ps generalizing index env events with
  | nil => simp [consumePolicies] at h
  | cons p ps ih =>
    rcases hp : p.consume env call with ⟨env'', exc | u⟩
    · simp only [consumePolicies, hp, throwing_error, noexcept_error, Prod.mk.injEq,
        Except.error.injEq] at h
      exact h.2.2.symm
    · rcases hrest : consumePolicies call e (index + 1) ps env'' with ⟨env₁, events₁, r₁⟩
      simp only [consumePolicies, hp, hrest, Prod.mk.injEq] at h
      obtain ⟨rfl, -, rfl⟩ := h
      exact ih hrest

lemma consumeAndFinalize_world (call : Call) (h : w.exps[e]? = some x) :
    ∃ env, (w.consumeAndFinalize call e).1 = { w.consumeControl e with env := env } := by
  rcases hpol : consumePolicies call e 0 x.policies (w.consumeControl e).env
    with ⟨env, events, exit | u⟩
  · exact ⟨env, by simp only [World.consumeAndFinalize, h, hpol]⟩
  · exact ⟨(x.finalizer env call).1, by simp only [World.consumeAndFinalize, h, hpol]⟩

/-- A call that comes to a match leaves what its commit leaves, but for the variables of user
code. -/
lemma handleCall_of_chosen (h : chosen w c call = some m) :
    ∃ env, (w.handleCall c call).1 = { w.consumeControl m.1 with env := env } := by
  obtain ⟨hpick, hmem⟩ := chosen_eq_some h
  obtain ⟨y, -, hy, -⟩ := mem_fullMatches.mp hmem
  have hne : fullMatches w c call ≠ [] := List.ne_nil_of_mem hmem
  rcases hcoll : w.collectMatches c call with ⟨events, exit | b⟩
  · simp [chosen, hcoll] at h
  · rw [← collectMatches_ok hcoll] at hpick hne
    obtain ⟨env, henv⟩ := consumeAndFinalize_world call hy
    exact ⟨env, by simp only [World.handleCall, hcoll, hpick, if_pos hne, henv]⟩

/-- A call that does not come to a match leaves the world as it was. -/
lemma handleCall_of_not_chosen (h : chosen w c call = none) : (w.handleCall c call).1 = w := by
  rcases hcoll : w.collectMatches c call with ⟨events, exit | b⟩
  · simp only [World.handleCall, hcoll]
  · have hpick : pickBestMatch b.fullMatches = none := by simpa [chosen, hcoll] using h
    simp only [World.handleCall, hcoll, hpick]
    split
    · rfl
    · split <;> rfl

/-- **Whole calls are runs**: whatever handling a call does to the world is a commit with user
code behind it, or nothing. -/
theorem handleCall_later : Later w (w.handleCall c call).1 := by
  rcases h : chosen w c call with _ | m
  · rw [handleCall_of_not_chosen h]
    exact .refl
  · obtain ⟨env, henv⟩ := handleCall_of_chosen h
    have hcommit : step w (.commit c call) = some (w.consumeControl m.1) := by simp [step, h]
    rw [henv]
    exact .step (.user env) (.step (.commit c call) .refl hcommit) rfl

end MimicPP.Runs

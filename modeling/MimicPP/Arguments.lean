import MimicPP.Delimited
import MimicPP.Overloads
import MimicPP.StringMatchers

/-!
Policies on the arguments of a call: which arguments they select, what they do with them, and
how they are described.

A call hands over references, so a policy sees an argument as the policies before it have left
it. The values of all types are one type here; a selected index is within the parameters, which
the compiler checks.
-/

namespace MimicPP.Arguments

open MimicPP.Noexcept MimicPP.Sequence MimicPP.Reports MimicPP.Control MimicPP.Expectation
open MimicPP.Matching MimicPP.Runs MimicPP.Invariant MimicPP.Chain MimicPP.Transition
open MimicPP.Signatures MimicPP.Overloads MimicPP.Delimited

abbrev Address := ℕ

/-- The objects a test can get at, and the variables user code has captured. -/
structure Store (Val τ : Type) where
  memory : Address → Val
  captured : τ

/-- An object as a matcher or a projection gets it. -/
structure Lvalue (Val : Type) where
  address : Address
  value : Val
  deriving DecidableEq

/-- A call with `n` arguments, each passed by reference. -/
abbrev ArgsInfo (n : ℕ) := Info (Fin n → Address)

variable {n : ℕ} {Val τ Ret Exc : Type}

def Store.load (s : Store Val τ) (a : Address) : Lvalue Val := ⟨a, s.memory a⟩

def Store.assign (s : Store Val τ) (a : Address) (v : Val) : Store Val τ :=
  { s with memory := Function.update s.memory a v }

/-! ### Argument lists -/

/-- `args_selector_fn` -/
def argsSelector (indices : List (Fin n)) (info : ArgsInfo n) : List Address :=
  indices.map info.args

/-- `all_args_selector_fn` -/
def allArgsSelector (info : ArgsInfo n) : List Address := argsSelector (List.finRange n) info

/-- `apply_args_fn` -/
def applyArgsFn {α β γ : Type} (argSelector : ArgsInfo n → α) (applyStrategy : β → α → γ)
    (action : β) (info : ArgsInfo n) : γ :=
  applyStrategy action (argSelector info)

/-- `arg_list_forward_apply_fn` -/
def argListForwardApply {α β : Type} (fn : α → β) (argList : α) : β := fn argList

abbrev Projection (Val Exc : Type) := Lvalue Val → Except Exc (Lvalue Val)

/-- `std::identity` -/
def identity : Projection Val Exc := .ok

/-- The arguments, each behind its projection, from left to right. -/
def invokeProjections :
    List (Projection Val Exc) → List (Lvalue Val) → Except Exc (List (Lvalue Val))
  | projection :: projections, arg :: args =>
    match projection arg with
    | .error exc => .error exc
    | .ok value =>
      match invokeProjections projections args with
      | .error exc => .error exc
      | .ok values => .ok (value :: values)
  | _, _ => .ok []

/-- `arg_list_indirect_apply_fn` -/
def argListIndirectApply {α : Type} (projections : List (Projection Val Exc))
    (fn : List (Lvalue Val) → Except Exc α) (argList : List (Lvalue Val)) : Except Exc α :=
  match invokeProjections projections argList with
  | .error exc => .error exc
  | .ok args => fn args

/-- `expand_tuple` -/
def expandTuple {α : Type} (fill : α) (n : ℕ) (elements : List α) : List α :=
  elements ++ List.replicate (n - elements.length) fill

/-! ### Requirements -/

structure Matcher (Val Exc : Type) where
  matchesArgs : List (Lvalue Val) → Except Exc Bool
  description : Except Exc String

/-- `expectation_policies::ArgsRequirement` -/
def argsRequirement (matcher : Matcher Val Exc)
    (matchesStrategy : Store Val τ → (List (Lvalue Val) → Except Exc Bool) → ArgsInfo n →
      Except Exc Bool)
    (describeStrategy : String → String) : Policy (Store Val τ) (ArgsInfo n) Exc where
  isSatisfied _ := true
  matchesCall s info := matchesStrategy s matcher.matchesArgs info
  describe _ := matcher.description.map fun text => some (describeStrategy text)
  consume s _ := (s, .ok ())

def argRequirementDescriber (index : ℕ) (others : List ℕ) (matcherDescription : String) :
    String :=
  "expect: arg[" ++ toString index ++ String.join (others.map fun other => ", " ++ toString other)
    ++ "] " ++ matcherDescription

def allArgsRequirementDescriber (matcherDescription : String) : String :=
  "expect: arg[all] " ++ matcherDescription

def makeArgsPolicy (index : Fin n) (others : List (Fin n)) (matcher : Matcher Val Exc)
    (projections : List (Projection Val Exc)) : Policy (Store Val τ) (ArgsInfo n) Exc :=
  argsRequirement matcher
    (fun s => applyArgsFn (fun info => (argsSelector (index :: others) info).map s.load)
      (argListIndirectApply projections))
    (argRequirementDescriber index (others.map Fin.val))

/-- `expect::arg` -/
def arg (index : Fin n) (matcher : Matcher Val Exc) (projection : Projection Val Exc) :
    Policy (Store Val τ) (ArgsInfo n) Exc :=
  makeArgsPolicy index [] matcher [projection]

/-- `expect::args`; there may be fewer projections than arguments. -/
def args (first : Fin n) (others : List (Fin n)) (matcher : Matcher Val Exc)
    (projections : List (Projection Val Exc)) : Policy (Store Val τ) (ArgsInfo n) Exc :=
  makeArgsPolicy first others matcher (expandTuple identity (1 + others.length) projections)

/-- `expect::all_args` -/
def allArgs (matcher : Matcher Val Exc) : Policy (Store Val τ) (ArgsInfo n) Exc :=
  argsRequirement matcher
    (fun s => applyArgsFn (fun info => (allArgsSelector info).map s.load) argListForwardApply)
    allArgsRequirementDescriber

/-! ### Expected arguments -/

/-- What the types of the arguments come with: `operator==`, the printer, and the code units of
a string. -/
structure Operations (Val β Exc : Type) where
  equalTo : Val → Val → Except Exc Bool
  print : Val → Except Exc String
  view : Val → List β

/-- What `expect_call` is given for an argument: a matcher, or an object, whose type may be one
of the strings. -/
inductive Expected (Val Exc : Type)
  | matcher (m : Matcher Val Exc)
  | value (isString : Bool) (v : Val)

section expected

variable {β : Type} [DecidableEq β] (ops : Operations Val β Exc)

/-- A `PredicateMatcher` with one stored object, for one target. -/
def storedMatcher (predicate : Val → Val → Except Exc Bool) (text : String) (stored : Val) :
    Matcher Val Exc where
  matchesArgs
    | [target] => predicate target.value stored
    | _ => .ok false
  description := (ops.print stored).map fun printed => text ++ printed

/-- `matches::eq` -/
def eqMatcher (value : Val) : Matcher Val Exc := storedMatcher ops ops.equalTo "== " value

/-- `matches::str::eq`, which is defined for all strings. -/
def strEqMatcher (pattern : Val) : Matcher Val Exc :=
  storedMatcher ops
    (fun target stored =>
      .ok ((StringMatchers.eq (ops.view stored)).matchesTarget (ops.view target) == some true))
    "is equal to " pattern

/-- `make_arg_matcher`: a matcher is taken as it is, two strings are compared by their code
units, and anything else by `operator==`. -/
def makeArgMatcher (paramIsString : Bool) : Expected Val Exc → Matcher Val Exc
  | .matcher m => m
  | .value isString v =>
    if paramIsString && isString then strEqMatcher ops v else eqMatcher ops v

/-- `make_arg_policy` -/
def makeArgPolicy (paramIsString : Bool) (index : Fin n) (expected : Expected Val Exc) :
    Policy (Store Val τ) (ArgsInfo n) Exc :=
  arg index (makeArgMatcher ops paramIsString expected) identity

/-- `extend_builder_with_arg_policies`; the flags tell which parameters are strings. -/
def argPolicies (strings : Fin n → Bool) (expected : Fin n → Expected Val Exc) :
    List (Policy (Store Val τ) (ArgsInfo n) Exc) :=
  List.ofFn fun i => makeArgPolicy ops (strings i) i (expected i)

end expected

/-! ### What a description says -/

/-- **A requirement names its arguments**: the indices and the description of the matcher can be
read off. -/
theorem argRequirementDescriber_injective {i j : ℕ} {is js : List ℕ} {d d' : String}
    (h : argRequirementDescriber i is d = argRequirementDescriber j js d') :
    i :: is = j :: js ∧ d = d' := by
  have hstop : ∀ c ∈ [',', ']'], ∀ r, Stops (IsDigit 10) (c :: r) := by
    simp only [List.forall_mem_cons, stops_cons]
    exact ⟨fun _ => by decide, fun _ => by decide, by simp⟩
  have hclose : ∀ (k : ℕ) r s, Nat.toDigits 10 k ++ r ≠ [']', ' '] ++ s := fun k r s heq =>
    cons_ne_toDigits (b := 10) (c := ']') (by omega) (by decide) k (' ' :: s) r heq.symm
  have hlist := (readable_toDigits (b := 10) (by omega) (by omega)).separated [',', ' '] [']', ' ']
    (fun r => hstop ',' (by simp) _) (fun r => hstop ']' (by simp) _) (by simp)
    fun k r s _ => hclose k r s
  have htext : ∀ (i : ℕ) (is : List ℕ) (d : String), (argRequirementDescriber i is d).toList =
      "expect: arg[".toList ++
        ((separated [',', ' '] (Nat.toDigits 10) (i :: is) ++ [']', ' ']) ++ d.toList) := by
    intro i is d
    simp [argRequirementDescriber, separated, List.flatMap_map]
  have heq := congrArg String.toList h
  rw [htext, htext] at heq
  obtain ⟨hindices, hd⟩ := hlist (i :: is) (j :: js) _ _ (by simp) (by simp) trivial trivial
    (List.append_cancel_left heq)
  exact ⟨hindices, String.toList_inj.mp hd⟩

/-! ### Which calls an expectation accepts -/

section accepts

variable {Call σ : Type} {w : World σ Call Ret Exc} {call : Call} {e : ExpId}
variable {x : BasicExpectation σ Call Ret Exc}

/-- An expectation accepts a call exactly if all its policies do and it is applicable. -/
theorem accepts_iff_policies (hI : Inv w) (hx : w.exps[e]? = some x) : Accepts w call e ↔
    (∀ p ∈ x.policies, Agrees p w.env call) ∧ x.controlPolicy.isApplicable w.seqs = true := by
  have happ : (x.controlPolicy.state w.seqs).isApplicable = x.controlPolicy.isApplicable w.seqs :=
    ControlPolicy.state_isApplicable (hI.valid (policyOf_of_some hx)).count_le_max
  rw [← policyReports_all_iff]
  constructor
  · rintro ⟨y, r, hy, hmatch, hfull⟩
    obtain rfl : x = y := Option.some.inj (hx.symm.trans hy)
    obtain ⟨hall, happlicable⟩ := evaluateMatchReport_full.mp hfull
    rw [matchesCall_controlReport hmatch, happ] at happlicable
    refine ⟨?_, happlicable⟩
    unfold BasicExpectation.matchesCall at hmatch
    split at hmatch
    · cases hmatch
    · rename_i reports hreports
      obtain rfl := Except.ok.inj hmatch
      exact ⟨reports, hreports, hall⟩
  · rintro ⟨⟨reports, hreports, hall⟩, happlicable⟩
    refine ⟨x, ⟨some x.sourceLocation, none, x.controlPolicy.state w.seqs, reports⟩, hx, ?_, ?_⟩
    · simp only [BasicExpectation.matchesCall, hreports]
    · exact evaluateMatchReport_full.mpr ⟨hall, happ.trans happlicable⟩

end accepts

section meets

variable {β : Type} [DecidableEq β] (ops : Operations Val β Exc)

/-- The object is what was expected of it, and what was expected can be described: a matcher
accepts it, a string has the code units of the expected one, and anything else compares equal. -/
def Meets (paramIsString : Bool) (object : Lvalue Val) : Expected Val Exc → Prop
  | .matcher m => m.matchesArgs [object] = .ok true ∧ ∃ text, m.description = .ok text
  | .value isString v =>
    (if paramIsString = true ∧ isString = true then ops.view object.value = ops.view v
      else ops.equalTo object.value v = .ok true) ∧ ∃ text, ops.print v = .ok text

variable {ops}

lemma strEqMatcher_matches {pattern : Val} {object : Lvalue Val} :
    (strEqMatcher ops pattern).matchesArgs [object] = .ok true ↔
      ops.view object.value = ops.view pattern := by
  have hview := StringMatchers.equals_makeView (ops.view object.value) (ops.view pattern)
  simp [strEqMatcher, storedMatcher, StringMatchers.eq,
    StringMatchers.PredicateMatcher.matchesTarget, hview]

/-- What the policy of an argument says, and what it asks. -/
lemma makeArgPolicy_agrees {paramIsString : Bool} {i : Fin n} {expected : Expected Val Exc}
    {store : Store Val τ} {info : ArgsInfo n} :
    Agrees (makeArgPolicy ops paramIsString i expected) store info ↔
      Meets ops paramIsString (store.load (info.args i)) expected := by
  have harg : ∀ m : Matcher Val Exc,
      Agrees (arg i m identity : Policy (Store Val τ) (ArgsInfo n) Exc) store info ↔
        m.matchesArgs [store.load (info.args i)] = .ok true ∧
          ∃ text, m.description = .ok text := by
    intro m
    rcases hd : m.description with exc | text <;>
      simp [Agrees, arg, makeArgsPolicy, argsRequirement, applyArgsFn, argsSelector,
        argListIndirectApply, invokeProjections, identity, hd, Except.map]
  have hdescription : ∀ (predicate : Val → Val → Except Exc Bool) text v,
      (∃ d, (storedMatcher ops predicate text v).description = .ok d) ↔
        ∃ d, ops.print v = .ok d := by
    intro predicate text v
    rcases hprint : ops.print v with exc | d <;> simp [storedMatcher, hprint, Except.map]
  rw [makeArgPolicy, harg]
  cases expected with
  | matcher m => rfl
  | value isString v =>
    rw [makeArgMatcher, Meets]
    by_cases hstrings : paramIsString = true ∧ isString = true
    · rw [if_pos hstrings, if_pos (by simpa using hstrings), strEqMatcher_matches]
      exact and_congr_right fun _ => hdescription _ _ _
    · rw [if_neg hstrings, if_neg (by simpa using hstrings)]
      exact and_congr_right fun _ => hdescription _ _ _

end meets

section expectations

variable {β : Type} [DecidableEq β] {ops : Operations Val β Exc}
variable {T C : Type} [DecidableEq T] [DecidableEq C]
variable {sigs : List (Signature T C)} {s t : Signature T C}

/-- The two policies on the qualification agree exactly on the calls through the overload. -/
lemma qualificationPolicies_agree {σ Args : Type} (h : Signature.isOverloadSet sigs = true)
    (hs : s ∈ sigs) (ht : t ∈ sigs) (hcoll : collectionOf sigs s = collectionOf sigs t) (env : σ)
    (args : Args) : (∀ p ∈ (qualificationPolicies t : List (Policy σ (Info Args) Exc)),
      Agrees p env (callInfo s args)) ↔ s = t := by
  have hreaches : Reaches Exc sigs env args s t ↔ s = t := reaches_iff h env args hs ht
  rw [← hreaches]
  simp only [qualificationPolicies, List.forall_mem_cons, List.not_mem_nil, false_imp_iff,
    implies_true, and_true]
  constructor
  · rintro ⟨⟨hcat, -⟩, hconst, -⟩
    exact ⟨⟨_, collectionOf_of_mem hs, hcoll ▸ collectionOf_of_mem hs⟩, hcat, hconst⟩
  · exact fun hreach => ⟨⟨hreach.category, _, rfl⟩, hreach.constness, _, rfl⟩

/-- **What `expect_call` stands for**: whatever is chained to the builder it returns, and
wherever a run gets to from there, the expectation accepts a call exactly if the call goes
through the same overload, every argument is what was expected of it, whatever was chained
agrees, and the expectation is due. -/
theorem expectCall_accepts_iff {storage : CollId} {strings : Fin n → Bool}
    {initFinalize : Store Val τ → ArgsInfo n → Store Val τ × Except Exc Ret}
    {expected : Fin n → Expected Val Exc} {b b' : Builder (Store Val τ) (ArgsInfo n) Ret Exc}
    {steps : List (Step (Store Val τ) (ArgsInfo n) Ret Exc)} {loc : SourceLocation}
    {w₀ w₁ w : World (Store Val τ) (ArgsInfo n) Ret Exc} {e : ExpId}
    (h : Signature.isOverloadSet sigs = true) (hs : s ∈ sigs) (ht : t ∈ sigs)
    (hcoll : collectionOf sigs s = collectionOf sigs t)
    (hcall : expectCall storage initFinalize t (argPolicies ops strings expected) = .ok b)
    (hchain : chain b steps = .ok b') (hr : Reachable w₀)
    (hfin : b'.finalize loc w₀ = (w₁, .ok e)) (hw : Later w₁ w) :
    ∃ x, w.exps[e]? = some x ∧ ∀ args : Fin n → Address, Accepts w (callInfo s args) e ↔
      s = t ∧ (∀ i, Meets ops (strings i) (w.env.load (args i)) (expected i)) ∧
        (∀ p ∈ addedPolicies steps, Agrees p w.env (callInfo s args)) ∧
        x.controlPolicy.isApplicable w.seqs = true := by
  have hpolicies : b'.expectationPolicies =
      argPolicies ops strings expected ++ qualificationPolicies t ++ addedPolicies steps := by
    rw [expectCall_eq] at hcall
    rw [chain_policies hchain, ← Except.ok.inj hcall]
  have hreach : Reachable w₁ :=
    .step (.create b' loc) hr (by simp [machine, Runs.step, hfin])
  obtain ⟨p, seqs, -, rfl, rfl⟩ := finalize_eq_ok hfin
  obtain ⟨x, hx, hsame⟩ := later_policies hw List.getElem?_concat_length
  refine ⟨x, hx, fun args => ?_⟩
  have hargs : (∀ p ∈ (argPolicies ops strings expected : List (Policy (Store Val τ) _ Exc)),
      Agrees p w.env (callInfo s args)) ↔
        ∀ i, Meets ops (strings i) (w.env.load (args i)) (expected i) := by
    simp only [argPolicies, List.forall_mem_ofFn_iff]
    exact forall_congr' fun i => makeArgPolicy_agrees
  rw [accepts_iff_policies (reachable_inv (hreach.later hw)) hx, hsame]
  simp only [hpolicies, List.mem_append, or_imp, forall_and, hargs,
    qualificationPolicies_agree h hs ht hcoll]
  tauto

end expectations

/-! ### An example -/

/-- A number that may not be one, or a string at some place in memory. -/
inductive Object
  | number (value : Option ℕ)
  | text (address : Address) (units : List Char)
  deriving DecidableEq

/-- What is not a number is not equal to itself, and pointers are compared by where they point. -/
def objectOperations : Operations Object Char Empty where
  equalTo
    | .number (some a), .number (some b) => .ok (decide (a = b))
    | .text a _, .text b _ => .ok (decide (a = b))
    | _, _ => .ok false
  print _ := .ok ""
  view
    | .number _ => []
    | .text _ units => units

/-- `void(double, const char*)` -/
def measurement : Signature ℕ Unit := ⟨0, [1, 2], false, .none, false, none⟩

/-- A value and a unit are expected. -/
def expectedMeasurement (i : Fin 2) : Expected Object Empty :=
  if i.val = 0 then .value false (.number (some 42)) else .value true (.text 0 ['m'])

/-- The objects a test has: two strings that read alike, and two numbers. -/
def measurements : Store Object Unit where
  memory
    | 0 => .number (some 42)
    | 1 => .number none
    | a => .text a ['m']
  captured := ()

def beforeMeasurement : World (Store Object Unit) (ArgsInfo 2) Unit Empty :=
  start ⟨fun _ _ => .terminate, fun _ _ => .terminate, fun _ => .ok (), fun _ => .ok (),
    fun _ _ _ => .ok ()⟩ ⟨fun _ => .number none, ()⟩ fun _ => .lazy

/-- The measurement is expected once or twice. -/
def expectMeasurement : Builder (Store Object Unit) (ArgsInfo 2) Unit Empty where
  storage := 0
  timesConfig := limits 1 2
  sequenceConfig := ⟨[], List.nodup_nil⟩
  finalizePolicy store _ := (store, .ok ())
  expectationPolicies :=
    argPolicies objectOperations (fun i => decide (i.val = 1)) expectedMeasurement ++
      qualificationPolicies measurement

/-- The string is accepted wherever it stands, and what is not a number is rejected. -/
theorem expectCall_accepts_iff_measurement :
    ∃ w : World (Store Object Unit) (ArgsInfo 2) Unit Empty, Reachable w ∧
      Accepts w (callInfo measurement fun i => if i.val = 0 then 0 else 7) 0 ∧
      ¬ Accepts w (callInfo measurement fun i => if i.val = 0 then 1 else 7) 0 := by
  have hset : Signature.isOverloadSet [measurement] = true := by decide
  have hmem : measurement ∈ [measurement] := List.mem_singleton_self measurement
  obtain ⟨w₁, e, hfin⟩ := finalize_of_room (b := expectMeasurement) (w := beforeMeasurement)
    ⟨"", 0⟩ nofun
  have hr₀ : Reachable beforeMeasurement := .init (start_fresh _ _ _)
  have hr₁ : Reachable w₁ := by
    refine .step (.create expectMeasurement ⟨"", 0⟩) hr₀ ?_
    simp [machine, Runs.step, hfin]
  have huser : Runs.step w₁ (.user measurements) = some { w₁ with env := measurements } := rfl
  have hlater : Later w₁ { w₁ with env := measurements } := .step (.user measurements) .refl huser
  have hchain : chain { expectMeasurement with timesConfig := limits 1 1 } [.times (limits 1 2)] =
      .ok expectMeasurement := rfl
  obtain ⟨x, hx, hiff⟩ := expectCall_accepts_iff hset hmem hmem rfl expectCall_eq hchain hr₀ hfin
    hlater
  obtain ⟨p, seqs, hcon, rfl, rfl⟩ := finalize_eq_ok hfin
  cases hcon
  obtain rfl := Option.some.inj hx
  refine ⟨_, hr₁.later hlater, (hiff _).mpr ⟨rfl, ?_, by simp [addedPolicies, Step.policies], rfl⟩,
    fun haccepts => ?_⟩
  · rw [Fin.forall_fin_two]
    exact ⟨⟨rfl, _, rfl⟩, ⟨rfl, _, rfl⟩⟩
  · have hnumber : (Except.ok false : Except Empty Bool) = .ok true :=
      (((hiff _).mp haccepts).2.1 0).1
    cases hnumber

end MimicPP.Arguments

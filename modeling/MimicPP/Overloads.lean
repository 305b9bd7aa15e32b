import Mathlib.Data.List.Count
import MimicPP.Chain
import MimicPP.Signatures

/-!
Mocks of several overloads: the collections they share, and the two policies that keep apart
what shares a collection.
-/

namespace MimicPP.Overloads

open MimicPP.Noexcept MimicPP.Sequence MimicPP.Reports MimicPP.Control MimicPP.Expectation
open MimicPP.Matching MimicPP.Chain MimicPP.Signatures

/-! ### Masks -/

def constnessToUnderlying : Constness → ℕ
  | .nonConst => 0b01
  | .asConst => 0b10
  | .any => 0b01 ||| 0b10

def valueCategoryToUnderlying : ValueCategory → ℕ
  | .lvalue => 0b01
  | .rvalue => 0b10
  | .any => 0b01 ||| 0b10

def isMatchingConstness (lhs rhs : Constness) : Bool :=
  decide (0 ≠ constnessToUnderlying lhs &&& constnessToUnderlying rhs)

def isMatchingValueCategory (lhs rhs : ValueCategory) : Bool :=
  decide (0 ≠ valueCategoryToUnderlying lhs &&& valueCategoryToUnderlying rhs)

def constnessToString : Constness → String
  | .nonConst => "mutable"
  | .asConst => "const"
  | .any => "any"

def valueCategoryToString : ValueCategory → String
  | .lvalue => "lvalue"
  | .rvalue => "rvalue"
  | .any => "any"

/-! ### Collections -/

/-- `detail::unique`, entered with the types found so far. -/
def unique {α : Type} [DecidableEq α] : List α → List α → List α
  | uniques, [] => uniques
  | uniques, first :: others =>
    unique (if first ∈ uniques then uniques else uniques ++ [first]) others

def uniqueList {α : Type} [DecidableEq α] (types : List α) : List α := unique [] types

/-- `std::get` by type: the element, if the type occurs exactly once. -/
def getByType {α : Type} [DecidableEq α] (types : List α) (a : α) : Option ℕ :=
  if types.count a = 1 then some (types.idxOf a) else none

variable {T C : Type} [DecidableEq T] [DecidableEq C]

/-- The types the collections of a mock are made for. -/
def collections (sigs : List (Signature T C)) : List (Signature T C) :=
  uniqueList (sigs.map Signature.decay)

/-- The collection handed to the overload `s`. -/
def collectionOf (sigs : List (Signature T C)) (s : Signature T C) : Option ℕ :=
  getByType (collections sigs) s.decay

/-! ### Calls and expectations -/

/-- `call::Info`, less the source location and the stacktrace. -/
structure Info (Args : Type) where
  args : Args
  fromCategory : ValueCategory
  fromConstness : Constness

variable {σ Args Ret Exc : Type}

/-- `BasicMock::handle_call`: what a call through the `operator()` of `s` is seen as. -/
def callInfo (s : Signature T C) (args : Args) : Info Args where
  args := args
  fromCategory := s.removeCallConvention.refQualification
  fromConstness := s.removeCallConvention.constQualification

/-- `expectation_policies::Category`. -/
def category (expected : ValueCategory) : Policy σ (Info Args) Exc where
  isSatisfied _ := true
  matchesCall _ info := .ok (isMatchingValueCategory info.fromCategory expected)
  describe _ :=
    .ok (some ("expect: from " ++ valueCategoryToString expected ++ " category overload"))
  consume env _ := (env, .ok ())

/-- `expectation_policies::Constness`. -/
def constness (expected : Constness) : Policy σ (Info Args) Exc where
  isSatisfied _ := true
  matchesCall _ info := .ok (isMatchingConstness info.fromConstness expected)
  describe _ := .ok (some ("expect: from " ++ constnessToString expected ++ " qualified overload"))
  consume env _ := (env, .ok ())

/-- The policies that `expect_call` of `t` adds behind those of the arguments. -/
def qualificationPolicies (t : Signature T C) : List (Policy σ (Info Args) Exc) :=
  [category t.removeCallConvention.refQualification,
    constness t.removeCallConvention.constQualification]

/-- `BasicMock::make_expectation_builder`. -/
def expectCall (storage : CollId) (initFinalize : σ → Info Args → σ × Except Exc Ret)
    (t : Signature T C) (args : List (Policy σ (Info Args) Exc)) :
    Except StdError (Builder σ (Info Args) Ret Exc) :=
  chain (makeExpectationBuilder storage initFinalize)
    ((args ++ qualificationPolicies t).map Step.policy)

variable {sigs : List (Signature T C)} {s t : Signature T C}

/-- An expectation of `t` may be asked about a call through `s`, and its policies on the
qualification accept it. -/
structure Reaches (Exc : Type) (sigs : List (Signature T C)) (env : σ) (args : Args)
    (s t : Signature T C) : Prop where
  collection : ∃ i, collectionOf sigs s = some i ∧ collectionOf sigs t = some i
  category : (category t.removeCallConvention.refQualification :
    Policy σ (Info Args) Exc).matchesCall env (callInfo s args) = .ok true
  constness : (constness t.removeCallConvention.constQualification :
    Policy σ (Info Args) Exc).matchesCall env (callInfo s args) = .ok true

/-! ### Which collection an overload has -/

lemma unique_spec {α : Type} [DecidableEq α] {uniques : List α} (types : List α)
    (h : uniques.Nodup) :
    (unique uniques types).Nodup ∧
      ∀ a, a ∈ unique uniques types ↔ a ∈ uniques ∨ a ∈ types := by
  induction types generalizing uniques with
  | nil => simpa [unique] using h
  | cons first others ih =>
    rw [unique]
    split
    · rename_i hmem
      obtain ⟨hnd, hiff⟩ := ih h
      refine ⟨hnd, fun a => ?_⟩
      rw [hiff, List.mem_cons]
      constructor
      · rintro (ha | ha)
        · exact .inl ha
        · exact .inr (.inr ha)
      · rintro (ha | rfl | ha)
        · exact .inl ha
        · exact .inl hmem
        · exact .inr ha
    · rename_i hnot
      have hnd' : (uniques ++ [first]).Nodup := by
        rw [List.nodup_append]
        refine ⟨h, List.nodup_singleton _, fun a ha b hb => ?_⟩
        rw [List.mem_singleton.mp hb]
        rintro rfl
        exact hnot ha
      obtain ⟨hnd, hiff⟩ := ih hnd'
      refine ⟨hnd, fun a => ?_⟩
      rw [hiff, List.mem_append, List.mem_singleton, List.mem_cons, or_assoc]

/-- Each decayed signature has one collection. -/
lemma count_collections (hs : s ∈ sigs) : (collections sigs).count s.decay = 1 := by
  obtain ⟨hnd, hiff⟩ := unique_spec (sigs.map Signature.decay) List.nodup_nil
  refine List.count_eq_one_of_mem hnd ((hiff _).mpr (.inr ?_))
  exact List.mem_map.mpr ⟨s, hs, rfl⟩

lemma collectionOf_of_mem (hs : s ∈ sigs) :
    collectionOf sigs s = some ((collections sigs).idxOf s.decay) :=
  if_pos (count_collections hs)

/-- **Overloads share a collection** exactly when they decay to the same signature. -/
theorem collectionOf_eq (hs : s ∈ sigs) (ht : t ∈ sigs) :
    (∃ i, collectionOf sigs s = some i ∧ collectionOf sigs t = some i) ↔ s.decay = t.decay := by
  rw [collectionOf_of_mem hs, collectionOf_of_mem ht]
  have hmem : s.decay ∈ collections sigs :=
    List.count_pos_iff.mp (by rw [count_collections hs]; exact Nat.one_pos)
  constructor
  · rintro ⟨i, hi, hi'⟩
    exact (List.idxOf_inj hmem).mp (Option.some.inj (hi.trans hi'.symm))
  · intro heq
    rw [heq]
    exact ⟨_, rfl, rfl⟩

/-! ### What the masks let through -/

lemma category_matches (env : σ) (args : Args) :
    (category t.removeCallConvention.refQualification :
        Policy σ (Info Args) Exc).matchesCall env (callInfo s args) = .ok true ↔
      s.refQualifier = .none ∨ t.refQualifier = .none ∨ s.refQualifier = t.refQualifier := by
  have hs : (callInfo s args).fromCategory = s.refQualification := rfl
  have ht : t.removeCallConvention.refQualification = t.refQualification := rfl
  simp only [category, hs, ht, Except.ok.injEq]
  cases hsr : s.refQualifier <;> cases htr : t.refQualifier <;>
    simp [Signature.refQualification, Signature.removeCallConvention,
      Signature.removeConstQualifier, Signature.removeNoexcept, hsr, htr,
      isMatchingValueCategory, valueCategoryToUnderlying]

lemma constness_matches (env : σ) (args : Args) :
    (constness t.removeCallConvention.constQualification :
        Policy σ (Info Args) Exc).matchesCall env (callInfo s args) = .ok true ↔
      s.isConst = t.isConst := by
  have hs : (callInfo s args).fromConstness = s.removeCallConvention.constQualification := rfl
  simp only [constness, hs, Signature.constQualification_eq, Except.ok.injEq]
  cases hsc : s.isConst <;> cases htc : t.isConst <;>
    simp [Signature.removeCallConvention, hsc, htc, isMatchingConstness, constnessToUnderlying]

/-! ### Overloads do not leak -/

lemma reaches_iff (h : Signature.isOverloadSet sigs = true) (env : σ) (args : Args)
    (hs : s ∈ sigs) (ht : t ∈ sigs) : Reaches Exc sigs env args s t ↔ s = t := by
  constructor
  · intro hreach
    by_contra hne
    have hsymm : Std.Symm fun s t : Signature T C => s.isOverloadableWith t = true :=
      ⟨fun _ _ => Signature.isOverloadableWith_symm⟩
    have hover := (Signature.isOverloadSet_pairwise h).forall hs ht hne
    have hdecay := (collectionOf_eq hs ht).mp hreach.collection
    obtain ⟨-, hparams⟩ := Signature.decay_eq_decay.mp hdecay
    have hcat := (category_matches env args).mp hreach.category
    have hconst := (constness_matches env args).mp hreach.constness
    rcases Signature.isOverloadableWith_iff.mp hover with hdiff | ⟨hiff, hconst' | href⟩
    · exact hdiff hparams
    · exact hconst' hconst
    · rcases hcat with hs | ht | heq
      · exact href (hs.trans (hiff.mp hs).symm)
      · exact href ((hiff.mpr ht).trans ht.symm)
      · exact href heq
  · rintro rfl
    exact ⟨(collectionOf_eq hs hs).mpr rfl, (category_matches env args).mpr (.inr (.inr rfl)),
      (constness_matches env args).mpr rfl⟩

/-- **Overloads of one mock do not leak into each other**: a call through one of them can be
matched only by an expectation of the same one, and each has exactly one collection. -/
theorem overloads_apart (h : Signature.isOverloadSet sigs = true) (env : σ) (args : Args) :
    (∀ s ∈ sigs, ∀ t ∈ sigs, Reaches Exc sigs env args s t ↔ s = t) ∧
      ∀ s ∈ sigs, (collections sigs).count s.decay = 1 :=
  ⟨fun _ hs _ ht => reaches_iff h env args hs ht, fun _ hs => count_collections hs⟩

/-- `void(int) &`, `void(int) const &`, `void(int) && noexcept` and `void()`. -/
def qualified : List (Signature ℕ Unit) :=
  [⟨0, [1], false, .lvalue, false, none⟩, ⟨0, [1], true, .lvalue, false, none⟩,
    ⟨0, [1], false, .rvalue, true, none⟩, ⟨0, [], false, .none, false, none⟩]

/-- Three of these overloads share a collection. -/
theorem overloads_apart_qualified :
    (∀ s ∈ qualified, ∀ t ∈ qualified, Reaches Unit qualified () () s t ↔ s = t) ∧
      ∀ s ∈ qualified, (collections qualified).count s.decay = 1 :=
  overloads_apart (by decide) () ()

/-! ### Runs -/

/-- The builder of an overload has its arguments' policies and the two on the qualification. -/
lemma expectCall_eq {storage : CollId} {initFinalize : σ → Info Args → σ × Except Exc Ret}
    {policies : List (Policy σ (Info Args) Exc)} :
    expectCall storage initFinalize t policies =
      .ok { makeExpectationBuilder storage initFinalize with
        expectationPolicies := policies ++ qualificationPolicies t } := by
  have hchain : ∀ (ps : List (Policy σ (Info Args) Exc)) (b : Builder σ (Info Args) Ret Exc),
      chain b (ps.map Step.policy) =
        .ok { b with expectationPolicies := b.expectationPolicies ++ ps } := by
    intro ps
    induction ps with
    | nil => simp [chain]
    | cons p ps ih =>
      intro b
      simp only [List.map_cons, chain, andThen, ih, List.append_assoc, List.singleton_append]
  rw [expectCall, hchain]
  rfl

/-- **A call is dispatched to its own overload**: whatever a call through `s` comes to, it is
not an expectation of another overload. -/
theorem chosen_overload {w : World σ (Info Args) Ret Exc} {c : CollId} {args : Args}
    {m : ExpId × MatchReport} {x : BasicExpectation σ (Info Args) Ret Exc}
    (h : Signature.isOverloadSet sigs = true) (hs : s ∈ sigs) (ht : t ∈ sigs)
    (hcoll : collectionOf sigs s = collectionOf sigs t)
    (hm : chosen w c (callInfo s args) = some m) (hx : w.exps[m.1]? = some x)
    (hpolicies : qualificationPolicies t ⊆ x.policies) : s = t := by
  obtain ⟨y, -, hy, hmatch, hfull⟩ := mem_fullMatches.mp (chosen_eq_some hm).2
  obtain rfl : x = y := Option.some.inj (hx.symm.trans hy)
  rcases hreports : BasicExpectation.policyReports w.env (callInfo s args) x.policies
    with exc | reports
  · simp [BasicExpectation.matchesCall, hreports] at hmatch
  have hall : reports.all PolicyReport.isMatching = true := by
    have hr : m.2 = ⟨some x.sourceLocation, none, x.controlPolicy.state w.seqs, reports⟩ := by
      simpa [BasicExpectation.matchesCall, hreports, eq_comm] using hmatch
    rw [hr] at hfull
    exact (evaluateMatchReport_full.mp hfull).1
  have hasked := policyReports_all_iff.mp ⟨reports, hreports, hall⟩
  refine (reaches_iff h w.env args hs ht).mp (⟨?_, ?_, ?_⟩ : Reaches Exc sigs _ _ s t)
  · exact ⟨_, collectionOf_of_mem hs, hcoll ▸ collectionOf_of_mem hs⟩
  · exact (hasked _ (hpolicies List.mem_cons_self)).1
  · exact (hasked _ (hpolicies (List.mem_cons_of_mem _ List.mem_cons_self))).1

end MimicPP.Overloads

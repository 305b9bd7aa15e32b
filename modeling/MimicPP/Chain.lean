import Mathlib.Data.List.Destutter
import Mathlib.Data.List.Sort
import MimicPP.Invariant

/-!
How an expectation comes by its sequences: the configs of a builder chain, which are merged
step by step, and the builder at the end of it.
-/

namespace MimicPP.Chain

open MimicPP.Noexcept MimicPP.Sequence MimicPP.Reports MimicPP.Control MimicPP.Expectation
open MimicPP.Runs MimicPP.Invariant

/-! ### The check for duplicates -/

/-- Sorting brings duplicates together; `std::ranges::unique` then leaves a rest behind. -/
def hasDuplicates (tags : List Tag) : Bool :=
  decide (((tags.insertionSort (· ≤ ·)).destutter (· ≠ ·)).length < tags.length)

lemma hasDuplicates_eq_false {tags : List Tag} : hasDuplicates tags = false ↔ tags.Nodup := by
  have hperm := List.perm_insertionSort (· ≤ ·) tags
  have hsorted := List.pairwise_insertionSort (· ≤ ·) tags
  have hsub := List.destutter_sublist (· ≠ ·) (tags.insertionSort (· ≤ ·))
  have hself := List.destutter_eq_self_iff (· ≠ ·) (tags.insertionSort (· ≤ ·))
  rw [← hperm.nodup_iff, hasDuplicates, decide_eq_false_iff_not, Nat.not_lt, ← hperm.length_eq]
  constructor
  · intro hlen
    have hne := hself.mp (hsub.eq_of_length_le hlen)
    have hlt : (tags.insertionSort (· ≤ ·)).IsChain (· < ·) :=
      List.isChain_iff_getElem.mpr fun i hi =>
        Nat.lt_of_le_of_ne (hsorted.isChain.getElem i hi) (hne.getElem i hi)
    exact hlt.pairwise.imp Nat.ne_of_lt
  · intro hnd
    rw [hself.mpr hnd.isChain]

/-- One sequence alone is not checked. -/
def isRejected (tags : List Tag) : Bool := decide (1 < tags.length) && hasDuplicates tags

/-- **The check finds every duplicate**, however far apart the two are. -/
theorem isRejected_eq_false {tags : List Tag} : isRejected tags = false ↔ tags.Nodup := by
  rw [isRejected, Bool.and_eq_false_iff, decide_eq_false_iff_not, hasDuplicates_eq_false,
    or_iff_right_iff_imp]
  intro hlen
  rcases tags with _ | ⟨tag, _ | ⟨tag', rest⟩⟩
  · exact List.nodup_nil
  · exact List.nodup_singleton tag
  · simp at hlen

example : isRejected [3, 1, 3] = true := by decide

/-! ### Configs and builders -/

def duplicateSequence : StdError :=
  .invalidArgument "Expectations can not be assigned to the same sequence multiple times."

/-- The constructor. -/
def construct (tags : List Tag) : Except StdError Config :=
  if h : isRejected tags = false then .ok ⟨tags, isRejected_eq_false.mp h⟩
  else .error duplicateSequence

/-- The constructor checks the merged list once more. -/
def concat (config other : Config) : Except StdError Config :=
  construct (config.sequences ++ other.sequences)

/-- What stands to the right of an `&&`. A second times limit and a second finalizer do not
get past the compiler; here the last one counts. -/
inductive Step (σ Call Ret Exc : Type)
  | inSequences (tags : List Tag)
  | times (config : TimesConfig)
  | finalizer (f : σ → Call → σ × Except Exc Ret)
  | policy (p : Policy σ Call Exc)

variable {σ Call Ret Exc : Type}

/-- The sequences a step lists. -/
def Step.tags : Step σ Call Ret Exc → List Tag
  | .inSequences tags => tags
  | _ => []

/-- The policy a step adds. -/
def Step.policies : Step σ Call Ret Exc → List (Policy σ Call Exc)
  | .policy p => [p]
  | _ => []

/-- `operator&&`; the config on the right is constructed before it is merged. -/
def andThen (b : Builder σ Call Ret Exc) :
    Step σ Call Ret Exc → Except StdError (Builder σ Call Ret Exc)
  | .inSequences tags =>
    match construct tags with
    | .error e => .error e
    | .ok config =>
      match concat b.sequenceConfig config with
      | .error e => .error e
      | .ok newConfig => .ok { b with sequenceConfig := newConfig }
  | .times config => .ok { b with timesConfig := config }
  | .finalizer f => .ok { b with finalizePolicy := f }
  | .policy p => .ok { b with expectationPolicies := b.expectationPolicies ++ [p] }

def chain (b : Builder σ Call Ret Exc) :
    List (Step σ Call Ret Exc) → Except StdError (Builder σ Call Ret Exc)
  | [] => .ok b
  | step :: steps =>
    match andThen b step with
    | .error e => .error e
    | .ok b' => chain b' steps

lemma one_le_intMax : 1 ≤ intMax := by decide

/-- `make_expectation_builder`, before the argument policies are added: limits of once, no
sequence, and the initial finalizer. -/
def makeExpectationBuilder (storage : CollId) (initFinalize : σ → Call → σ × Except Exc Ret) :
    Builder σ Call Ret Exc :=
  ⟨storage, ⟨1, 1, Nat.le_refl 1, one_le_intMax⟩, ⟨[], List.nodup_nil⟩, initFinalize, []⟩

/-- A whole chain: every step is accepted before the builder is finalized. -/
def create (b : Builder σ Call Ret Exc) (steps : List (Step σ Call Ret Exc))
    (loc : SourceLocation) (w : World σ Call Ret Exc) :
    World σ Call Ret Exc × Except (Exit StdError) ExpId :=
  match chain b steps with
  | .error e => (w, throwing (.error e))
  | .ok b' => b'.finalize loc w

/-! ### What a chain accepts -/

variable {b b' : Builder σ Call Ret Exc} {steps : List (Step σ Call Ret Exc)}
variable {step : Step σ Call Ret Exc} {w w' : World σ Call Ret Exc}

/-- The sequences a chain lists, from left to right. -/
def listed (steps : List (Step σ Call Ret Exc)) : List Tag := steps.flatMap Step.tags

lemma construct_of_nodup {tags : List Tag} (h : tags.Nodup) : construct tags = .ok ⟨tags, h⟩ :=
  dif_pos (isRejected_eq_false.mpr h)

lemma construct_of_not_nodup {tags : List Tag} (h : ¬ tags.Nodup) :
    construct tags = .error duplicateSequence :=
  dif_neg fun hrej => h (isRejected_eq_false.mp hrej)

/-- One step: the sequences are appended if that makes no duplicates. -/
lemma andThen_cases (b : Builder σ Call Ret Exc) (step : Step σ Call Ret Exc) :
    (¬ (b.sequenceConfig.sequences ++ step.tags).Nodup ∧
      andThen b step = .error duplicateSequence) ∨
    ∃ b', andThen b step = .ok b' ∧
      b'.sequenceConfig.sequences = b.sequenceConfig.sequences ++ step.tags := by
  cases step with
  | inSequences tags =>
    by_cases htags : tags.Nodup
    · by_cases hall : (b.sequenceConfig.sequences ++ tags).Nodup
      · refine .inr ⟨{ b with sequenceConfig := ⟨_, hall⟩ }, ?_, rfl⟩
        simp only [andThen, construct_of_nodup htags, concat, construct_of_nodup hall]
      · refine .inl ⟨hall, ?_⟩
        simp only [andThen, construct_of_nodup htags, concat, construct_of_not_nodup hall]
    · refine .inl ⟨fun hall => htags hall.of_append_right, ?_⟩
      simp only [andThen, construct_of_not_nodup htags]
  | times config => exact .inr ⟨_, rfl, (List.append_nil _).symm⟩
  | finalizer f => exact .inr ⟨_, rfl, (List.append_nil _).symm⟩
  | policy p => exact .inr ⟨_, rfl, (List.append_nil _).symm⟩

/-- **A chain is rejected exactly for a duplicate** among the sequences it lists; otherwise
the builder at its end has them all, in the order they were listed. -/
theorem chain_cases (b : Builder σ Call Ret Exc) (steps : List (Step σ Call Ret Exc)) :
    (¬ (b.sequenceConfig.sequences ++ listed steps).Nodup ∧
      chain b steps = .error duplicateSequence) ∨
    ∃ b', chain b steps = .ok b' ∧
      b'.sequenceConfig.sequences = b.sequenceConfig.sequences ++ listed steps := by
  induction steps generalizing b with
  | nil => exact .inr ⟨b, rfl, (List.append_nil _).symm⟩
  | cons step steps ih =>
    have hlisted : listed (step :: steps) = step.tags ++ listed steps := List.flatMap_cons
    rw [hlisted, ← List.append_assoc]
    rcases andThen_cases b step with ⟨hdup, herr⟩ | ⟨b₁, hok, hseqs⟩
    · refine .inl ⟨fun hall => hdup hall.of_append_left, ?_⟩
      simp only [chain, herr]
    · rw [← hseqs]
      simp only [chain, hok]
      exact ih b₁

/-- The policies a chain adds, from left to right. -/
def addedPolicies (steps : List (Step σ Call Ret Exc)) : List (Policy σ Call Exc) :=
  steps.flatMap Step.policies

lemma andThen_policies (h : andThen b step = .ok b') :
    b'.expectationPolicies = b.expectationPolicies ++ step.policies := by
  cases step with
  | inSequences tags =>
    simp only [andThen] at h
    split at h
    · cases h
    · split at h
      · cases h
      · obtain rfl := Except.ok.inj h
        exact (List.append_nil _).symm
  | times config => obtain rfl := Except.ok.inj h; exact (List.append_nil _).symm
  | finalizer f => obtain rfl := Except.ok.inj h; exact (List.append_nil _).symm
  | policy p => obtain rfl := Except.ok.inj h; rfl

/-- The policies come in the order they were attached. -/
lemma chain_policies (h : chain b steps = .ok b') :
    b'.expectationPolicies = b.expectationPolicies ++ addedPolicies steps := by
  induction steps generalizing b with
  | nil => obtain rfl := Except.ok.inj h; exact (List.append_nil _).symm
  | cons step steps ih =>
    simp only [chain] at h
    split at h
    · cases h
    · rename_i b₁ hb₁
      rw [ih h, andThen_policies hb₁, List.append_assoc]
      rfl

/-- The new expectation is attached to the listed sequences, in that order, each of which
has one entry more; no other sequence has changed. -/
structure AttachedTo (w : World σ Call Ret Exc) (tags : List Tag) (e : ExpId)
    (w' : World σ Call Ret Exc) : Prop where
  new : policyOf w e = none
  policy : ∃ p, policyOf w' e = some p ∧
    p.sequences = tags.map fun t => (t, (w.seqs t).entries.length)
  listed : ∀ t ∈ tags, ∃ st, w'.seqs t = (w.seqs t).emplaceBack st
  others : ∀ t ∉ tags, w'.seqs t = w.seqs t

lemma finalize_attachedTo {loc : SourceLocation} {e : ExpId}
    (h : b.finalize loc w = (w', .ok e)) :
    AttachedTo w b.sequenceConfig.sequences e w' := by
  obtain ⟨rfl, hcre⟩ := finalize_created h
  refine ⟨?_, ⟨_, hcre.policy.mpr (.inr ⟨rfl, rfl⟩), rfl⟩, fun t ht => ?_, fun t ht => ?_⟩
  · simp [policyOf]
  · rcases hcre.seqs t with ⟨-, -, hs⟩ | ⟨hout, -⟩
    · exact ⟨_, hs⟩
    · exact absurd (mem_newPolicy.mpr ⟨ht, rfl⟩) (hout _)
  · rcases hcre.seqs t with ⟨hpos, -, -⟩ | ⟨-, hs⟩
    · exact absurd (mem_newPolicy.mp ((hpos _).mpr rfl)).1 ht
    · exact hs

/-- **What becomes of a chain.** It throws `std::invalid_argument` if and only if some
sequence is listed twice, and then nothing has changed. Otherwise the expectation is attached
to the listed sequences in their order, with one new entry in each, unless one of them has no
id left, which terminates. -/
theorem create_outcome (storage : CollId) (initFinalize : σ → Call → σ × Except Exc Ret)
    (steps : List (Step σ Call Ret Exc)) (loc : SourceLocation) (w : World σ Call Ret Exc) :
    ((∃ what, (create (makeExpectationBuilder storage initFinalize) steps loc w).2 =
        .error (.thrown (.invalidArgument what))) ↔ ¬ (listed steps).Nodup) ∧
    (¬ (listed steps).Nodup →
      (create (makeExpectationBuilder storage initFinalize) steps loc w).1 = w) ∧
    ((listed steps).Nodup →
      (∃ w' e, create (makeExpectationBuilder storage initFinalize) steps loc w = (w', .ok e) ∧
        AttachedTo w (listed steps) e w') ∨
      (create (makeExpectationBuilder storage initFinalize) steps loc w).2 =
          .error .terminate ∧
        ∃ t ∈ listed steps, intMax < (w.seqs t).entries.length) := by
  rcases chain_cases (makeExpectationBuilder storage initFinalize) steps with
    ⟨hdup, herr⟩ | ⟨b, hok, hseqs⟩
  · have hdup' : ¬ (listed steps).Nodup := hdup
    simp only [create, herr, throwing_error]
    exact ⟨⟨fun _ => hdup', fun _ => ⟨_, rfl⟩⟩, fun _ => trivial, fun hnd => absurd hnd hdup'⟩
  · have hlisted : b.sequenceConfig.sequences = listed steps := hseqs
    have hnd : (listed steps).Nodup := hlisted ▸ b.sequenceConfig.nodup
    simp only [create, hok]
    rcases hfin : b.finalize loc w with ⟨w', exit | e⟩
    · obtain ⟨rfl, hfull⟩ := finalize_eq_error hfin
      rw [hlisted] at hfull
      refine ⟨⟨?_, fun hdup => absurd hnd hdup⟩, fun hdup => absurd hnd hdup, fun _ => ?_⟩
      · rintro ⟨what, heq⟩
        cases heq
      · exact .inr ⟨rfl, hfull⟩
    · have hatt := finalize_attachedTo hfin
      rw [hlisted] at hatt
      refine ⟨⟨?_, fun hdup => absurd hnd hdup⟩, fun hdup => absurd hnd hdup, fun _ => ?_⟩
      · rintro ⟨what, heq⟩
        cases heq
      · exact .inl ⟨w', e, rfl, hatt⟩

end MimicPP.Chain

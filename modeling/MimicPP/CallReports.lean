import MimicPP.Diagnoses
import MimicPP.Printing

/-!
Call reports: what the arguments of a call are made into, and that the message of a rejected
call gives them away again.
-/

namespace MimicPP.CallReports

open MimicPP.Noexcept MimicPP.Sequence MimicPP.Reports MimicPP.Control MimicPP.Expectation
open MimicPP.Matching MimicPP.Runs MimicPP.Signatures MimicPP.Delimited MimicPP.Printing
open MimicPP.ReportTexts MimicPP.ReportReading MimicPP.MessageReading MimicPP.Reporting
open MimicPP.Diagnoses

variable {n : ℕ} {shapes : Fin n → Shape}

/-- `call::Info`, for parameters that are printed as the shapes say. -/
structure CallInfo (shapes : Fin n → Shape) where
  args : (i : Fin n) → (shapes i).Value
  fromCategory : ValueCategory
  fromConstness : Constness
  fromSourceLocation : SourceLocation
  stacktrace : Stacktrace

/-- `make_call_report`, for the types of the signature. -/
def makeCallReport (returnType : TypeIndex) (params : Fin n → TypeIndex)
    (callInfo : CallInfo shapes) : CallReport where
  returnTypeIndex := returnType
  argDetails := List.ofFn fun i => ⟨params i, (shapes i).print (callInfo.args i)⟩
  fromLoc := callInfo.fromSourceLocation
  stacktrace := callInfo.stacktrace
  fromCategory := callInfo.fromCategory
  fromConstness := callInfo.fromConstness

/-! ### Texts of one line -/

/-- No string in it has a line break. -/
def OneLine : (s : Shape) → s.Value → Prop
  | .boolean | .integer | .pointer | .wideString _ | .unprintable => fun _ => True
  | .string => Single
  | .optional s => fun o : Option s.Value => ∀ v ∈ o, OneLine s v
  | .range s => fun vs : List s.Value => ∀ v ∈ vs, OneLine s v
  | .tuple _ elements => fun vs => ∀ i, OneLine (elements i) (vs i)

lemma single_hex (k : ℕ) : Single (hex k) := by
  intro h
  have hdigit : IsDigit 16 '\n' :=
    isDigit_of_mem_toDigits (n := k) (by omega) (by simpa [hex] using h)
  revert hdigit
  decide

lemma single_hexPadded (k : ℕ) : Single (hexPadded k) := by
  refine single_append.mpr ⟨?_, single_hex k⟩
  simp [Single]

lemma single_join {ts : List String} (h : ∀ t ∈ ts, Single t) : Single (String.join ts) := by
  induction ts with
  | nil => simp [Single]
  | cons t ts ih =>
    obtain ⟨ht, hts⟩ := List.forall_mem_cons.mp h
    rw [String.join_cons]
    exact single_append.mpr ⟨ht, ih hts⟩

lemma single_printElements {ts : List String} (h : ∀ t ∈ ts, Single t) :
    Single (printElements ts) := by
  cases ts with
  | nil => simp [printElements, Single]
  | cons t ts =>
    obtain ⟨ht, hts⟩ := List.forall_mem_cons.mp h
    refine single_append.mpr ⟨ht, single_join fun t' ht' => ?_⟩
    obtain ⟨u, hu, rfl⟩ := List.mem_map.mp ht'
    exact single_append.mpr ⟨by simp [Single], hts u hu⟩

lemma single_printList {ts : List String} (h : ∀ t ∈ ts, Single t) : Single (printList ts) := by
  simp only [printList, single_append, single_printElements h, and_true]
  simp [Single]

/-- **Line breaks come from strings only.** -/
theorem single_print (s : Shape) {v : s.Value} (h : OneLine s v) : Single (s.print v) := by
  induction s with
  | boolean => rcases (v : Bool) with _ | _ <;> simp [Shape.print, printBoolean, Single]
  | integer =>
    rcases (v : ℤ) with k | k
    · exact single_repr k
    · exact single_append.mpr ⟨by simp [Single], single_repr (k + 1)⟩
  | pointer => exact single_append.mpr ⟨by simp [Single], single_hexPadded _⟩
  | string =>
    exact single_append.mpr ⟨single_append.mpr ⟨by simp [Single], h⟩, by simp [Single]⟩
  | wideString char =>
    have helements : Single (printElements ((v : List ℕ).map fun u => "0x" ++ hex u)) := by
      refine single_printElements fun t ht => ?_
      obtain ⟨u, -, rfl⟩ := List.mem_map.mp ht
      exact single_append.mpr ⟨by simp [Single], single_hex u⟩
    simp only [Shape.print, printWideString, single_append, helements, and_true]
    cases char <;> simp [stringLiteralPrefix, Single]
  | optional s ih =>
    rcases (v : Option s.Value) with _ | v
    · simp [Shape.print, printOptional, Single]
    · have hv : Single (s.print v) := ih (h v rfl)
      simp only [Shape.print, printOptional, single_append, hv, and_true]
      simp [Single]
  | range s ih =>
    refine single_printList fun t ht => ?_
    obtain ⟨v', hv', rfl⟩ := List.mem_map.mp ht
    exact ih (h v' hv')
  | tuple n elements ih =>
    refine single_printList fun t ht => ?_
    obtain ⟨i, rfl⟩ := List.mem_ofFn.mp ht
    exact ih i (h i)
  | unprintable => simp [Shape.print, Single]

/-! ### What a report tells of a call -/

/-- A call whose arguments can be printed legibly, and on one line. -/
structure PlainInfo (printLocation : SourceLocation → String) (callInfo : CallInfo shapes) :
    Prop where
  location : Single (printLocation callInfo.fromSourceLocation)
  frames : ∀ f ∈ callInfo.stacktrace, Single (printFrame f)
  plain : ∀ i, (shapes i).Plain (callInfo.args i)
  oneLine : ∀ i, OneLine (shapes i) (callInfo.args i)

variable {printLocation : SourceLocation → String} {returnType : TypeIndex}
variable {params : Fin n → TypeIndex} {call call' : CallInfo shapes}

lemma plainCall_makeCallReport (hreturn : Single returnType.name)
    (hparams : ∀ i, Single (params i).name) (h : PlainInfo printLocation call) :
    PlainCall printLocation (makeCallReport returnType params call) where
  location := h.location
  frames := h.frames
  returnType := hreturn
  args := by
    intro arg harg
    obtain ⟨i, rfl⟩ := List.mem_ofFn.mp harg
    exact ⟨hparams i, single_print _ (h.oneLine i)⟩

/-- What the view of a call shows of its arguments is the arguments. -/
lemma args_eq_of_viewCall_eq (h : PlainInfo printLocation call)
    (h' : PlainInfo printLocation call')
    (heq : viewCall printLocation (makeCallReport returnType params call) =
      viewCall printLocation (makeCallReport returnType params call')) :
    call.args = call'.args := by
  have hargs := congrArg CallView.args heq
  simp only [viewCall, makeCallReport, List.map_ofFn] at hargs
  funext i
  have htexts := congrArg Prod.snd (congrFun (List.ofFn_injective hargs) i)
  exact (legible_print (shapes i)).injective (by simp) (h.plain i) (h'.plain i)
    (congrArg String.toList htexts)

variable {σ Ret E : Type} {w w' : World σ (CallInfo shapes) Ret (Thrown E)} {k k' : ℕ}
variable {c c' : CollId}

/-- **The message of a rejected call tells what it was called with**: in worlds that runs reach,
with the default reporter, two calls that are rejected with the same message had the same
arguments, and came through overloads of the same qualification. -/
theorem rejection_tells_args (hr : Reachable w) (hr' : Reachable w')
    (hw : w.reporter = defaultReporter printLocation (makeCallReport returnType params) k)
    (hw' : w'.reporter = defaultReporter printLocation (makeCallReport returnType params) k')
    (hl : SingleLines printLocation w) (hl' : SingleLines printLocation w')
    (hreturn : Single returnType.name) (hparams : ∀ i, Single (params i).name)
    (hc : PlainInfo printLocation call) (hc' : PlainInfo printLocation call')
    (hfull : fullMatches w c call = []) (hfull' : fullMatches w' c' call' = []) :
    ∃ what data loc what' data' loc',
      (w.handleCall c call).2.2 = .error (.thrown (.unmatchedCall what data loc)) ∧
      (w'.handleCall c' call').2.2 = .error (.thrown (.unmatchedCall what' data' loc')) ∧
      (what = what' → call.args = call'.args ∧ call.fromCategory = call'.fromCategory ∧
        call.fromConstness = call'.fromConstness) := by
  obtain ⟨what, data, loc, what', data', loc', hrej, hrej', hiff⟩ :=
    rejection_what_eq_iff hr hr' hl hl' (plainCall_makeCallReport hreturn hparams hc)
      (plainCall_makeCallReport hreturn hparams hc')
  rw [(handleCall_rejected hw (hl.describable c call) hfull).2,
    (handleCall_rejected hw' (hl'.describable c' call') hfull').2, hrej, hrej']
  refine ⟨what, data, loc, what', data', loc', rfl, rfl, fun heq => ?_⟩
  have hcall := congrArg (fun s => s.2.call) (hiff.mp heq)
  exact ⟨args_eq_of_viewCall_eq hc hc' hcall, congrArg CallView.fromCategory hcall,
    congrArg CallView.fromConstness hcall⟩

/-- A call with a vector of strings. -/
def listing (names : List String) : CallInfo (fun _ : Fin 1 => .range .string) where
  args := fun _ => names
  fromCategory := .any
  fromConstness := .any
  fromSourceLocation := ⟨"listing.cpp", 3⟩
  stacktrace := []

def listingReport : CallInfo (fun _ : Fin 1 => .range .string) → CallReport :=
  makeCallReport ⟨0, "void"⟩ fun _ => ⟨1, "std::vector<std::string>"⟩

lemma plain_listing {names : List String} (hplain : ∀ t ∈ names, '"' ∉ t.toList)
    (hline : ∀ t ∈ names, Single t) : PlainInfo SourceLocation.fileName (listing names) where
  location := by simp [listing, Single]
  frames := by simp [listing]
  plain _ := hplain
  oneLine _ := hline

/-- A world without expectations. -/
def listings : World Unit (CallInfo (fun _ : Fin 1 => .range .string)) Unit (Thrown Unit) :=
  start (defaultReporter SourceLocation.fileName listingReport 0) () fun _ => .lazy

/-- The comma inside of a string is told from the one between two strings. -/
theorem rejection_tells_args_listings :
    ∃ what data loc what' data' loc',
      (listings.handleCall 0 (listing ["a, b", "c"])).2.2 =
        .error (.thrown (.unmatchedCall what data loc)) ∧
      (listings.handleCall 0 (listing ["a", "b, c"])).2.2 =
        .error (.thrown (.unmatchedCall what' data' loc')) ∧ what ≠ what' := by
  have hr : Reachable listings := .init (start_fresh _ _ _)
  have hlines : SingleLines SourceLocation.fileName listings := ⟨nofun, nofun⟩
  have hplain : PlainInfo SourceLocation.fileName (listing ["a, b", "c"]) :=
    plain_listing (by simp) (by simp [Single])
  have hplain' : PlainInfo SourceLocation.fileName (listing ["a", "b, c"]) :=
    plain_listing (by simp) (by simp [Single])
  obtain ⟨what, data, loc, what', data', loc', hthrown, hthrown', htells⟩ :=
    rejection_tells_args hr hr rfl rfl hlines hlines (by simp [Single])
      (fun _ => by simp [Single]) hplain hplain' rfl rfl
  refine ⟨what, data, loc, what', data', loc', hthrown, hthrown', fun heq => ?_⟩
  have hnames : ["a, b", "c"] = ["a", "b, c"] := congrFun (htells heq).1 ⟨0, Nat.zero_lt_one⟩
  simp at hnames

end MimicPP.CallReports

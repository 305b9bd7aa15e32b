import MimicPP.ReportReading

/-!
What can be read off the message of a rejected call.

The message has a line for each part of the call, the lines of every report, and the
stacktrace. An empty line stands behind the call and behind each report, and nowhere else.
-/

namespace MimicPP.MessageReading

open MimicPP.Reports MimicPP.Signatures MimicPP.Overloads MimicPP.Delimited
open MimicPP.ReportTexts MimicPP.ReportReading

/-! ### Calls -/

/-- What a call report shows: where the call comes from, the qualification of the overload, and
the names of the types and the texts of the arguments. -/
structure CallView where
  origin : String
  fromConstness : Constness
  fromCategory : ValueCategory
  returnType : String
  args : List (String × String)
  deriving DecidableEq, Repr

variable (printLocation : SourceLocation → String)

def viewCall (call : CallReport) : CallView where
  origin := match call.stacktrace with
    | [] => printLocation call.fromLoc
    | f :: _ => printFrame f
  fromConstness := call.fromConstness
  fromCategory := call.fromCategory
  returnType := call.returnTypeIndex.name
  args := call.argDetails.map fun arg => (arg.typeIndex.name, arg.stateString)

/-- The lines on the arguments from the index `i` on. -/
def argLines : ℕ → List (String × String) → List String
  | _, [] => []
  | i, (type, value) :: args =>
    ["\targ[" ++ toString i ++ "]: \x7b", "\t\ttype: " ++ type ++ ",", "\t\tvalue: " ++ value,
      "\t\x7d,"] ++ argLines (i + 1) args

/-- The lines behind the first one. -/
def CallView.tail (v : CallView) : List String :=
  ["constness: " ++ constnessToString v.fromConstness,
    "value category: " ++ valueCategoryToString v.fromCategory,
    "return type: " ++ v.returnType] ++ if v.args.isEmpty then [] else "args:" :: argLines 0 v.args

def CallView.lines (head : String) (v : CallView) : List String :=
  (head ++ "call from " ++ v.origin) :: v.tail

lemma printArgs_eq (i : ℕ) (args : List Arg) :
    String.join (args.mapIdx fun j => printArg (i + j)) =
      unlines (argLines i (args.map fun arg => (arg.typeIndex.name, arg.stateString))) := by
  induction args generalizing i with
  | nil => rfl
  | cons arg args ih =>
    have hnext : (fun j => printArg (i + (j + 1))) = fun j => printArg (i + 1 + j) := by
      funext j
      congr 1
      omega
    rw [List.mapIdx_cons, String.join_cons, hnext, ih]
    simp [printArg, argLines, ← String.toList_inj]

lemma printCallReport_eq (head : String) (call : CallReport) :
    head ++ printCallReport printLocation call =
      unlines ((viewCall printLocation call).lines head) := by
  have hargs := printArgs_eq 0 call.argDetails
  simp only [Nat.zero_add] at hargs
  unfold printCallReport
  rcases hdetails : call.argDetails with _ | ⟨arg, args⟩
  · rcases hs : call.stacktrace with _ | ⟨f, fs⟩ <;>
      simp [viewCall, CallView.lines, CallView.tail, hdetails, hs, ← String.toList_inj]
  · rw [hdetails] at hargs
    replace hargs := congrArg String.toList hargs
    simp only [String.toList_join, List.mapIdx_cons, List.flatMap_cons, List.map_cons] at hargs
    rcases hs : call.stacktrace with _ | ⟨f, fs⟩ <;>
      simp [viewCall, CallView.lines, CallView.tail, hdetails, hs, hargs, ← String.toList_inj]

/-! ### Messages -/

/-- What the message of a rejected call shows. -/
structure MessageView where
  call : CallView
  reports : List View
  stacktrace : List String
  deriving DecidableEq, Repr

def viewMessage (call : CallReport) (reports : List MatchReport) : MessageView where
  call := viewCall printLocation call
  reports := reports.map (view printLocation)
  stacktrace := call.stacktrace.map printFrame

def stacktraceLines : List String → List String
  | [] => []
  | f :: fs => "Stacktrace:" :: f :: fs

/-- The lines of a message, `head` being what the first one begins with and `title` what stands
above the reports. -/
def MessageView.lines (head title : String) (v : MessageView) : List String :=
  v.call.lines head ++ ("" :: title ::
    (v.reports.flatMap (fun r => r.lines ++ [""]) ++ stacktraceLines v.stacktrace))

def noMatchTitle (reports : List MatchReport) : String :=
  if reports.isEmpty then "No expectations available."
  else toString reports.length ++ " available expectation(s):"

lemma printEach_eq (reports : List MatchReport) :
    printEach printLocation reports =
      unlines ((reports.map (view printLocation)).flatMap fun r => r.lines ++ [""]) := by
  induction reports with
  | nil => rfl
  | cons r rs ih =>
    have hcons : printEach printLocation (r :: rs) =
        printMatchReport printLocation r ++ "\n" ++ printEach printLocation rs := by
      simp [printEach]
    rw [hcons, ih, printMatchReport_eq]
    simp [← String.toList_inj]

lemma stringifyStacktrace_eq (stacktrace : Stacktrace) :
    stringifyStacktrace stacktrace = unlines (stacktraceLines (stacktrace.map printFrame)) := by
  cases stacktrace with
  | nil => rfl
  | cons f fs =>
    simp [stringifyStacktrace, printStacktrace, stacktraceLines, unlines, Function.comp_def]

lemma stringifyNoMatchReport_eq (call : CallReport) (reports : List MatchReport) :
    stringifyNoMatchReport printLocation call reports =
      unlines ((viewMessage printLocation call reports).lines "No match for "
        (noMatchTitle reports)) := by
  unfold stringifyNoMatchReport
  rw [printCallReport_eq, stringifyStacktrace_eq]
  rcases reports with _ | ⟨r, rs⟩
  · simp [MessageView.lines, viewMessage, noMatchTitle, ← String.toList_inj]
  · simp [MessageView.lines, viewMessage, noMatchTitle, printEach_eq, ← String.toList_inj]

lemma stringifyInapplicableMatchReport_eq (call : CallReport) (reports : List MatchReport) :
    stringifyInapplicableMatchReport printLocation call reports =
      unlines ((viewMessage printLocation call reports).lines "No applicable match for "
        "Tested expectations:") := by
  unfold stringifyInapplicableMatchReport
  rw [printCallReport_eq, stringifyStacktrace_eq, printEach_eq]
  simp [MessageView.lines, viewMessage, ← String.toList_inj]

/-! ### Reading a message -/

lemma argLines_injective {i : ℕ} {args args' : List (String × String)}
    (heq : argLines i args = argLines i args') : args = args' := by
  induction args generalizing i args' with
  | nil =>
    rcases args' with _ | ⟨⟨type, value⟩, args'⟩
    · rfl
    · cases heq
  | cons arg args ih =>
    obtain ⟨type, value⟩ := arg
    rcases args' with _ | ⟨⟨type', value'⟩, args'⟩
    · cases heq
    · simp only [argLines, List.cons_append, List.nil_append, List.cons.injEq, true_and,
        String.append_left_inj, String.append_right_inj] at heq
      obtain ⟨rfl, rfl, hrest⟩ := heq
      rw [ih hrest]

lemma constnessToString_injective : Function.Injective constnessToString := by
  rintro (_ | _ | _) (_ | _ | _) h <;> simp_all [constnessToString]

lemma valueCategoryToString_injective : Function.Injective valueCategoryToString := by
  rintro (_ | _ | _) (_ | _ | _) h <;> simp_all [valueCategoryToString]

lemma CallView.lines_injective (head : String) : Function.Injective (CallView.lines head) := by
  intro v v' heq
  simp only [CallView.lines, CallView.tail, List.cons_append, List.nil_append, List.cons.injEq,
    String.append_right_inj] at heq
  obtain ⟨horigin, hconstness, hcategory, htype, hargs⟩ := heq
  have hargs : v.args = v'.args := by
    rcases h : v.args with _ | ⟨arg, args⟩ <;> rcases h' : v'.args with _ | ⟨arg', args'⟩ <;>
      simp only [h, h', List.isEmpty_nil, List.isEmpty_cons, if_true, Bool.false_eq_true,
        if_false] at hargs
    · rfl
    · cases hargs
    · cases hargs
    · exact argLines_injective (List.cons.inj hargs).2
  have hconstness := constnessToString_injective hconstness
  have hcategory := valueCategoryToString_injective hcategory
  cases v
  cases v'
  simp_all

lemma empty_not_mem_argLines (i : ℕ) (args : List (String × String)) : "" ∉ argLines i args := by
  induction args generalizing i with
  | nil => simp [argLines]
  | cons arg args ih => simp [argLines, ih, ← String.toList_inj]

lemma empty_not_mem_lines (head : String) (v : CallView) : "" ∉ v.lines head := by
  have htail : "" ∉ v.tail := by
    have hargs := empty_not_mem_argLines 0 v.args
    unfold CallView.tail
    rcases h : v.args with _ | ⟨arg, args⟩
    · simp [← String.toList_inj]
    · rw [h] at hargs
      simp [hargs, ← String.toList_inj]
  have hfirst : head ++ "call from " ++ v.origin ≠ "" := by
    intro heq
    have hl := congrArg String.toList heq
    simp at hl
  intro h
  rcases List.mem_cons.mp h with h | h
  · exact hfirst h.symm
  · exact htail h

lemma heading_ne_stacktrace (r : View) (ls : List String) (fs : List String) :
    r.lines ++ ls ≠ stacktraceLines fs := by
  intro heq
  have hhead := congrArg List.head? heq
  rcases fs with _ | ⟨f, fs⟩ <;> rcases hr : r.heading with _ | ⟨t, role⟩ | _ <;>
    simp [View.lines, hr, stacktraceLines, Heading.lines] at hhead
  all_goals rcases hline : role.line with _ | line <;> simp [hline] at hhead

lemma readable_reports : Readable (fun rs : List View => ∀ r ∈ rs, r.heading.Valid)
    (fun s => ∃ fs, s = stacktraceLines fs) fun rs => rs.flatMap fun r => r.lines ++ [""] := by
  have hitem : Readable (fun r : View => r.heading.Valid) (fun _ => True)
      fun r => r.lines ++ [""] := readable_view.close _ fun _ _ => trivial
  refine hitem.many (fun _ _ _ => trivial) (fun _ _ => trivial) ?_
  rintro r ls _ - ⟨fs, rfl⟩
  rw [List.append_assoc]
  exact heading_ne_stacktrace r _ fs

/-- What a message shows can be read off its lines. -/
lemma MessageView.lines_injective {head title title' : String} {v v' : MessageView}
    (h : ∀ r ∈ v.reports, r.heading.Valid) (h' : ∀ r ∈ v'.reports, r.heading.Valid)
    (heq : v.lines head title = v'.lines head title') : v = v' := by
  unfold MessageView.lines at heq
  -- the call ends at the first empty line
  obtain ⟨hcall, hrest⟩ := readable_terminated "" (v.call.lines head) (v'.call.lines head) _ _
    (empty_not_mem_lines _ _) (empty_not_mem_lines _ _) trivial trivial (by simpa using heq)
  have hbody := (List.cons.inj hrest).2
  obtain ⟨hreports, hstack⟩ := readable_reports _ _ _ _ h h' ⟨_, rfl⟩ ⟨_, rfl⟩ hbody
  have hframes : v.stacktrace = v'.stacktrace := by
    rcases hs : v.stacktrace with _ | ⟨f, fs⟩ <;> rcases hs' : v'.stacktrace with _ | ⟨f', fs'⟩ <;>
      simp_all [stacktraceLines]
  have hview := CallView.lines_injective head hcall
  cases v
  cases v'
  simp_all

/-- A call report whose parts have no line breaks of their own. -/
structure PlainCall (call : CallReport) : Prop where
  location : Single (printLocation call.fromLoc)
  frames : ∀ f ∈ call.stacktrace, Single (printFrame f)
  returnType : Single call.returnTypeIndex.name
  args : ∀ arg ∈ call.argDetails, Single arg.typeIndex.name ∧ Single arg.stateString

variable {printLocation}

lemma single_argLines {i : ℕ} {args : List (String × String)}
    (h : ∀ arg ∈ args, Single arg.1 ∧ Single arg.2) : ∀ l ∈ argLines i args, Single l := by
  induction args generalizing i with
  | nil => simp [argLines]
  | cons arg args ih =>
    obtain ⟨⟨htype, hvalue⟩, hargs⟩ := List.forall_mem_cons.mp h
    intro l hl
    simp only [argLines, List.cons_append, List.nil_append, List.mem_cons] at hl
    rcases hl with rfl | rfl | rfl | rfl | hl
    · simp only [single_append, Nat.toString_eq_repr, single_repr, and_true]
      simp [Single]
    · simp only [single_append, htype, and_true]
      simp [Single]
    · simp only [single_append, hvalue, and_true]
      simp [Single]
    · simp [Single]
    · exact ih hargs l hl

lemma single_callLines {head : String} {call : CallReport} (hhead : Single head)
    (h : PlainCall printLocation call) :
    ∀ l ∈ (viewCall printLocation call).lines head, Single l := by
  have horigin : Single (viewCall printLocation call).origin := by
    simp only [viewCall]
    rcases hs : call.stacktrace with _ | ⟨f, fs⟩
    · exact h.location
    · exact h.frames f (hs ▸ List.mem_cons_self)
  have hargs : ∀ l ∈ argLines 0 (viewCall printLocation call).args, Single l := by
    refine single_argLines fun arg harg => ?_
    obtain ⟨a, ha, rfl⟩ := List.mem_map.mp harg
    exact h.args a ha
  intro l hl
  simp only [CallView.lines, CallView.tail, List.cons_append, List.nil_append, List.mem_cons] at hl
  rcases hl with rfl | rfl | rfl | rfl | hl
  · simp only [single_append, hhead, horigin, and_true, true_and]
    simp [Single]
  · cases (viewCall printLocation call).fromConstness <;> simp [constnessToString, Single]
  · cases (viewCall printLocation call).fromCategory <;> simp [valueCategoryToString, Single]
  · refine single_append.mpr ⟨by simp [Single], h.returnType⟩
  · split at hl
    · cases hl
    · rcases List.mem_cons.mp hl with rfl | hl
      · simp [Single]
      · exact hargs l hl

lemma single_messageLines {head title : String} {call : CallReport} {reports : List MatchReport}
    (hhead : Single head) (htitle : Single title) (hc : PlainCall printLocation call)
    (hr : ∀ r ∈ reports, Plain printLocation r) :
    ∀ l ∈ (viewMessage printLocation call reports).lines head title, Single l := by
  intro l hl
  simp only [MessageView.lines, viewMessage, List.mem_append, List.mem_cons] at hl
  rcases hl with hl | rfl | rfl | hl | hl
  · exact single_callLines hhead hc l hl
  · simp [Single]
  · exact htitle
  · obtain ⟨v, hv, hl⟩ := List.mem_flatMap.mp hl
    obtain ⟨r, hr', rfl⟩ := List.mem_map.mp hv
    rcases List.mem_append.mp hl with hl | hl
    · exact single_lines (hr r hr') l hl
    · obtain rfl := List.mem_singleton.mp hl
      simp [Single]
  · rcases hs : call.stacktrace with _ | ⟨f, fs⟩
    · simp [hs, stacktraceLines] at hl
    · rw [hs, List.map_cons, stacktraceLines, List.mem_cons, ← List.map_cons, ← hs] at hl
      rcases hl with rfl | hl
      · simp [Single]
      · obtain ⟨g, hg, rfl⟩ := List.mem_map.mp hl
        exact hc.frames g hg

lemma viewMessage_valid {call : CallReport} {reports : List MatchReport}
    (hr : ∀ r ∈ reports, Plain printLocation r) :
    ∀ r ∈ (viewMessage printLocation call reports).reports, r.heading.Valid := by
  intro v hv
  obtain ⟨r, hr', rfl⟩ := List.mem_map.mp hv
  exact heading_valid (hr r hr')

lemma single_noMatchTitle (reports : List MatchReport) : Single (noMatchTitle reports) := by
  unfold noMatchTitle
  split
  · simp [Single]
  · simp only [single_append, Nat.toString_eq_repr, single_repr, true_and]
    simp [Single]

lemma noMatchTitle_congr {reports reports' : List MatchReport}
    (h : reports.length = reports'.length) : noMatchTitle reports = noMatchTitle reports' := by
  rcases reports with _ | ⟨r, rs⟩ <;> rcases reports' with _ | ⟨r', rs'⟩ <;>
    simp_all [noMatchTitle]

/-- **The message of a rejected call says everything**: the call, its arguments, what every
report shows, in the order in which the expectations were asked, and the stacktrace. The two
kinds of rejection are never mistaken for each other. -/
theorem rejection_message_eq_iff {call call' : CallReport} {rs rs' : List MatchReport}
    (hc : PlainCall printLocation call) (hc' : PlainCall printLocation call')
    (hr : ∀ r ∈ rs, Plain printLocation r) (hr' : ∀ r ∈ rs', Plain printLocation r) :
    (stringifyNoMatchReport printLocation call rs =
        stringifyNoMatchReport printLocation call' rs' ↔
      viewMessage printLocation call rs = viewMessage printLocation call' rs') ∧
    (stringifyInapplicableMatchReport printLocation call rs =
        stringifyInapplicableMatchReport printLocation call' rs' ↔
      viewMessage printLocation call rs = viewMessage printLocation call' rs') ∧
    stringifyNoMatchReport printLocation call rs ≠
      stringifyInapplicableMatchReport printLocation call' rs' := by
  have hno := single_messageLines (by simp [Single] : Single "No match for ")
    (single_noMatchTitle rs) hc hr
  have hno' := single_messageLines (by simp [Single] : Single "No match for ")
    (single_noMatchTitle rs') hc' hr'
  have hin := single_messageLines (by simp [Single] : Single "No applicable match for ")
    (by simp [Single] : Single "Tested expectations:") hc hr
  have hin' := single_messageLines (by simp [Single] : Single "No applicable match for ")
    (by simp [Single] : Single "Tested expectations:") hc' hr'
  have hread : ∀ {head title title' : String},
      (viewMessage printLocation call rs).lines head title =
        (viewMessage printLocation call' rs').lines head title' →
      viewMessage printLocation call rs = viewMessage printLocation call' rs' := fun heq =>
    MessageView.lines_injective (viewMessage_valid hr) (viewMessage_valid hr') heq
  simp only [stringifyNoMatchReport_eq, stringifyInapplicableMatchReport_eq]
  refine ⟨⟨fun heq => ?_, fun heq => ?_⟩, ⟨fun heq => ?_, fun heq => by rw [heq]⟩, fun heq => ?_⟩
  · exact hread (unlines_injective hno hno' heq)
  · have hlength : rs.length = rs'.length := by
      simpa [viewMessage] using congrArg (fun v => v.reports.length) heq
    rw [heq, noMatchTitle_congr hlength]
  · exact hread (unlines_injective hin hin' heq)
  · -- the first lines tell the two kinds apart
    have hfirst := congrArg List.head? (unlines_injective hno hin' heq)
    simp [MessageView.lines, CallView.lines, ← String.toList_inj] at hfirst

/-- A call with a number. -/
def question (value : String) : CallReport where
  returnTypeIndex := ⟨0, "void"⟩
  argDetails := [⟨⟨1, "int"⟩, value⟩]
  fromLoc := ⟨"question.cpp", 7⟩
  stacktrace := []
  fromCategory := .any
  fromConstness := .any

lemma plain_question {value : String} (h : Single value) :
    PlainCall SourceLocation.fileName (question value) where
  location := by simp [question, Single]
  frames f hf := by simp [question] at hf
  returnType := by simp [question, Single]
  args arg harg := by
    obtain rfl := List.mem_singleton.mp harg
    exact ⟨by simp [Single], h⟩

end MimicPP.MessageReading

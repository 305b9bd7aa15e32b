import MimicPP.ReportTexts

/-!
What can be read off the texts of reports.

A text is a list of lines. The lines of a match report are made from its view, which is what a
reader gets to know: the verdict, the reason of an inapplicable match, the location, and the
descriptions of the policies that failed and passed.
-/

namespace MimicPP.ReportReading

open MimicPP.Reports MimicPP.Delimited MimicPP.ReportTexts

/-! ### Counters -/

/-- What the text on a counter shows of it. -/
inductive Times
  | saturated (current : ℕ)
  | accepting (current max : ℕ)
  | expected (current min max : ℕ)
  deriving DecidableEq, Repr

def timesOf (current min max : ℕ) : Times :=
  if current = max then .saturated current
  else if min ≤ current then .accepting current max
  else .expected current min max

def Times.print : Times → String
  | .saturated current => "already saturated (matched " ++ verbalizeValue current ++ ")"
  | .accepting current max => "accepts further matches (matched " ++ toString current
      ++ " out of " ++ toString max ++ " times)"
  | .expected current min max => "matched " ++ verbalizeValue current ++ " - "
      ++ verbalizeInterval min max ++ " is expected"

@[simp] lemma Times.print_saturated (c : ℕ) :
    (saturated c).print = "already saturated (matched " ++ verbalizeValue c ++ ")" := rfl

@[simp] lemma Times.print_accepting (c m : ℕ) : (accepting c m).print =
    "accepts further matches (matched " ++ toString c ++ " out of " ++ toString m
      ++ " times)" := rfl

@[simp] lemma Times.print_expected (c a b : ℕ) : (expected c a b).print =
    "matched " ++ verbalizeValue c ++ " - " ++ verbalizeInterval a b ++ " is expected" := rfl

/-- The limits are in order, as far as they are shown. -/
def Times.Valid : Times → Prop
  | .expected _ min max => min ≤ max
  | _ => True

lemma printTimesState_eq (current min max : ℕ) :
    printTimesState current min max = (timesOf current min max).print := by
  unfold printTimesState timesOf
  split_ifs <;> rfl

/-- No number is written like one of the words, and what follows never matters. -/
lemma readable_verbalizeValue :
    Readable (fun _ => True) (fun _ => True) fun n => (verbalizeValue n).toList := by
  have hdigits := readable_toDigits (b := 10) (by omega) (by omega)
  have htimes : Readable (fun _ => True) (fun _ => True)
      fun n => Nat.toDigits 10 n ++ " times".toList :=
    hdigits.close _ fun r _ => by simp; decide
  have hword : ∀ c ∈ ['n', 'o', 't'], ¬ IsDigit 10 c := by
    simp only [List.forall_mem_cons]
    exact ⟨by decide, by decide, by decide, by simp⟩
  have hne : ∀ c ∈ ['n', 'o', 't'], ∀ (n : ℕ) r s, c :: r ≠ Nat.toDigits 10 n ++ s :=
    fun c hc => cons_ne_toDigits (by omega) (hword c hc)
  intro m n r s _ _ _ _ heq
  rcases m with _ | _ | _ | m <;> rcases n with _ | _ | _ | n <;>
    simp [verbalizeValue] at heq
  · exact ⟨rfl, heq⟩
  · exact absurd heq (hne 'n' (by simp) _ _ _)
  · exact ⟨rfl, heq⟩
  · exact absurd heq (hne 'o' (by simp) _ _ _)
  · exact ⟨rfl, heq⟩
  · exact absurd heq (hne 't' (by simp) _ _ _)
  · exact absurd heq.symm (hne 'n' (by simp) _ _ _)
  · exact absurd heq.symm (hne 'o' (by simp) _ _ _)
  · exact absurd heq.symm (hne 't' (by simp) _ _ _)
  · obtain ⟨hmn, hrs⟩ := htimes _ _ r s trivial trivial trivial trivial (by simpa using heq)
    exact ⟨hmn, hrs⟩

lemma number_then_space {m n : ℕ} {r s : List Char}
    (h : Nat.toDigits 10 m ++ ' ' :: r = Nat.toDigits 10 n ++ ' ' :: s) : m = n ∧ r = s := by
  have hspace : ∀ r, Stops (IsDigit 10) (' ' :: r) := fun r => stops_cons.mpr (by decide)
  obtain ⟨rfl, hrest⟩ := readable_toDigits (by omega) (by omega) m n _ _ trivial trivial
    (hspace r) (hspace s) h
  exact ⟨rfl, (List.cons.inj hrest).2⟩

lemma value_then {m n : ℕ} {r s : List Char}
    (h : (verbalizeValue m).toList ++ r = (verbalizeValue n).toList ++ s) : m = n ∧ r = s :=
  readable_verbalizeValue m n r s trivial trivial trivial trivial h

lemma interval_then {min max min' max' : ℕ} (h : min ≤ max) (h' : min' ≤ max') {r s : List Char}
    (heq : (verbalizeInterval min max).toList ++ r = (verbalizeInterval min' max').toList ++ s) :
    min = min' ∧ max = max' := by
  unfold verbalizeInterval at heq
  split_ifs at heq with hlt hlt'
  · -- between
    simp at heq
    obtain ⟨hmin, hrest⟩ := number_then_space heq
    simp at hrest
    exact ⟨hmin, (number_then_space hrest).1⟩
  · simp at heq
  · simp at heq
  · -- exactly
    simp at heq
    obtain ⟨hmax, -⟩ := value_then heq
    exact ⟨by omega, hmax⟩

/-- The text shows all it is made from. -/
lemma Times.eq_of_print_eq {t t' : Times} (h : t.Valid) (h' : t'.Valid)
    (heq : t.print = t'.print) : t = t' := by
  have hl := congrArg String.toList heq
  rcases t with c | ⟨c, m⟩ | ⟨c, a, b⟩ <;> rcases t' with c' | ⟨c', m'⟩ | ⟨c', a', b'⟩ <;>
    simp at hl
  case saturated.saturated =>
    have hclosed : (verbalizeValue c).toList ++ [')'] = (verbalizeValue c').toList ++ [')'] := by
      rw [hl]
    rw [(value_then hclosed).1]
  case accepting.accepting =>
    obtain ⟨rfl, hrest⟩ := number_then_space hl
    simp at hrest
    rw [toDigits_injective (by omega) (by omega) hrest]
  case expected.expected =>
    obtain ⟨rfl, hrest⟩ := value_then hl
    simp at hrest
    obtain ⟨rfl, rfl⟩ := interval_then h h' (congrArg (· ++ []) hrest)
    rfl

/-- What the text on a control state shows of its sequences. -/
inductive Role
  | unattached
  | current (sequences : ℕ)
  | notCurrent (sequences total : ℕ)
  | part (sequences : ℕ)
  deriving DecidableEq, Repr

/-- The second line, if there is one. -/
def Role.line : Role → Option String
  | .unattached => none
  | .current n => some ("\tand is the current element of " ++ toString n ++ " sequence(s).")
  | .notCurrent n total => some ("\tbut is not the current element of " ++ toString n
      ++ " sequence(s) (" ++ toString total ++ " total).")
  | .part n => some ("\tand is part of " ++ toString n ++ " sequence(s).")

@[simp] lemma Role.line_unattached : unattached.line = none := rfl

@[simp] lemma Role.line_current (n : ℕ) : (current n).line =
    some ("\tand is the current element of " ++ toString n ++ " sequence(s).") := rfl

@[simp] lemma Role.line_notCurrent (n total : ℕ) : (notCurrent n total).line =
    some ("\tbut is not the current element of " ++ toString n ++ " sequence(s) ("
      ++ toString total ++ " total).") := rfl

@[simp] lemma Role.line_part (n : ℕ) : (part n).line =
    some ("\tand is part of " ++ toString n ++ " sequence(s).") := rfl

lemma Role.line_injective : Function.Injective Role.line := by
  intro r r' heq
  rcases r with _ | n | ⟨n, m⟩ | n <;> rcases r' with _ | n' | ⟨n', m'⟩ | n' <;>
    simp [← String.toList_inj] at heq
  case unattached.unattached => rfl
  case current.current => rw [toDigits_injective (by omega) (by omega) heq]
  case part.part => rw [toDigits_injective (by omega) (by omega) heq]
  case notCurrent.notCurrent =>
    obtain ⟨rfl, hrest⟩ := number_then_space heq
    simp at hrest
    rw [toDigits_injective (by omega) (by omega) hrest]

/-- What the text on a control state shows of it. -/
def viewControl : ControlState → Times × Role
  | .applicable min max count ratings =>
    (timesOf count min max, if 0 < ratings.length then .current ratings.length else .unattached)
  | .inapplicable min max count ratings tags =>
    (timesOf count min max, .notCurrent tags.length (ratings.length + tags.length))
  | .saturated min max count tags =>
    (timesOf count min max, if 0 < tags.length then .part tags.length else .unattached)

/-! ### Lines -/

/-- The text of the listed lines. -/
def unlines (lines : List String) : String := String.join (lines.map fun l => l ++ "\n")

/-- A text without line breaks. -/
def Single (text : String) : Prop := '\n' ∉ text.toList

@[simp] lemma unlines_nil : unlines [] = "" := rfl

@[simp] lemma unlines_cons (l : String) (ls : List String) :
    unlines (l :: ls) = l ++ "\n" ++ unlines ls := by
  simp [unlines]

@[simp] lemma unlines_append (ls ls' : List String) :
    unlines (ls ++ ls') = unlines ls ++ unlines ls' := by
  simp [unlines]

@[simp] lemma single_append {t t' : String} : Single (t ++ t') ↔ Single t ∧ Single t' := by
  simp [Single, not_or]

/-- **A text is its lines.** -/
theorem unlines_injective {ls ls' : List String} (h : ∀ l ∈ ls, Single l)
    (h' : ∀ l ∈ ls', Single l) (heq : unlines ls = unlines ls') : ls = ls' := by
  have hlist : ∀ ls : List String, (unlines ls).toList =
      (ls.map String.toList).flatMap fun l => l ++ ['\n'] := by
    intro ls
    simp [unlines, List.flatMap_map]
  have hterm : ((ls.map String.toList).flatMap fun l => l ++ ['\n']) =
      (ls'.map String.toList).flatMap fun l => l ++ ['\n'] := by
    rw [← hlist, ← hlist, heq]
  have hmap := flatMap_terminated_injective (by simpa [Single] using h)
    (by simpa [Single] using h') hterm
  exact List.map_injective_iff.mpr (fun _ _ => String.toList_inj.mp) hmap

/-! ### Views -/

/-- The first lines of a match report. -/
inductive Heading
  | full
  | inapplicable (reason : Times × Role)
  | none
  deriving DecidableEq, Repr

def Heading.lines : Heading → List String
  | .full => ["Matched expectation: \x7b"]
  | .inapplicable reason => match reason.2.line with
    | .none => ["Inapplicable, but otherwise matched expectation: \x7b",
        "reason: " ++ reason.1.print]
    | .some line => ["Inapplicable, but otherwise matched expectation: \x7b",
        "reason: " ++ reason.1.print ++ ",", line]
  | .none => ["Unmatched expectation: \x7b"]

/-- What a match report shows. -/
structure View where
  heading : Heading
  location : Option String
  failed : List String
  passed : List String
  deriving DecidableEq, Repr

def fromLines : Option String → List String
  | none => []
  | some text => ["from: " ++ text]

def descriptionLines (title : String) : List String → List String
  | [] => []
  | d :: ds => title :: (d :: ds).map fun desc => "\t" ++ desc ++ ","

def View.lines (v : View) : List String :=
  v.heading.lines ++ (fromLines v.location ++ (descriptionLines "failed:" v.failed
    ++ (descriptionLines "passed:" v.passed ++ ["\x7d"])))

variable (printLocation : SourceLocation → String)

def viewHeading (report : MatchReport) : Heading :=
  match evaluateMatchReport report with
  | .full => .full
  | .inapplicable => .inapplicable (viewControl report.controlReport)
  | .none => .none

def view (report : MatchReport) : View where
  heading := viewHeading report
  location := report.sourceLocation.map printLocation
  failed := descriptionsOf false report.expectationReports
  passed := descriptionsOf true report.expectationReports

lemma printHeading_eq (report : MatchReport) :
    printHeading report = unlines (viewHeading report).lines := by
  unfold printHeading viewHeading
  cases evaluateMatchReport report with
  | full => simp [Heading.lines]
  | none => simp [Heading.lines]
  | inapplicable =>
    cases report.controlReport with
    | inapplicable min max count ratings tags =>
      simp [controlStatePrinter, viewControl, printTimesState_eq, Heading.lines,
        ← String.toList_inj]
    | applicable min max count ratings =>
      by_cases h : 0 < ratings.length <;>
        simp [controlStatePrinter, viewControl, printTimesState_eq, Heading.lines, h,
          ← String.toList_inj]
    | saturated min max count tags =>
      by_cases h : 0 < tags.length <;>
        simp [controlStatePrinter, viewControl, printTimesState_eq, Heading.lines, h,
          ← String.toList_inj]

lemma printFrom_eq (loc : Option SourceLocation) :
    printFrom printLocation loc = unlines (fromLines (loc.map printLocation)) := by
  cases loc <;> simp [printFrom, fromLines]

lemma printDescriptions_eq (title : String) (ds : List String) :
    printDescriptions title ds = unlines (descriptionLines title ds) := by
  cases ds with
  | nil => rfl
  | cons d ds =>
    simp [printDescriptions, descriptionLines, unlines, Function.comp_def, ← String.toList_inj,
      List.flatMap_map]

lemma printMatchReport_eq (report : MatchReport) :
    printMatchReport printLocation report = unlines (view printLocation report).lines := by
  simp [printMatchReport, View.lines, view, printHeading_eq, printFrom_eq, printDescriptions_eq,
    ← String.toList_inj]

/-! ### Reading a match report -/

def Indented (line : String) : Prop := line.toList.head? = some '\t'

def IsFrom (line : String) : Prop := "from: ".toList <+: line.toList

/-- The limits shown are in order. -/
def Heading.Valid : Heading → Prop
  | .inapplicable reason => reason.1.Valid
  | _ => True

@[simp] lemma indented_append (t : String) : Indented ("\t" ++ t) := by simp [Indented]

@[simp] lemma isFrom_append (t : String) : IsFrom ("from: " ++ t) := by simp [IsFrom]

lemma indented_of_line {role : Role} {line : String} (h : role.line = some line) :
    Indented line := by
  cases role <;> simp at h <;> subst h <;> simp [Indented]

lemma stops_fromLines {D : String → Prop} {o : Option String} {r : List String}
    (h : ∀ t, ¬ D ("from: " ++ t)) (hr : Stops D r) : Stops D (fromLines o ++ r) := by
  cases o with
  | none => exact hr
  | some t => exact stops_cons.mpr (h t)

lemma stops_descriptionLines {D : String → Prop} {title : String} {ds r : List String}
    (h : ¬ D title) (hr : Stops D r) : Stops D (descriptionLines title ds ++ r) := by
  cases ds with
  | nil => exact hr
  | cons d ds => exact stops_cons.mpr h

lemma readable_heading : Readable Heading.Valid (Stops Indented) Heading.lines := by
  rintro (_ | ⟨t, role⟩ | _) (_ | ⟨t', role'⟩ | _) r s h h' hr hs heq
  case full.full => exact ⟨rfl, (List.cons.inj heq).2⟩
  case none.none => exact ⟨rfl, (List.cons.inj heq).2⟩
  case inapplicable.inapplicable =>
    rcases hline : role.line with _ | line <;> rcases hline' : role'.line with _ | line' <;>
      simp only [Heading.lines, hline, hline', List.cons_append, List.nil_append, List.cons.injEq,
        true_and] at heq
    · obtain ⟨hreason, hrs⟩ := heq
      obtain rfl := Times.eq_of_print_eq h h' (String.append_right_inj _ |>.mp hreason)
      obtain rfl := Role.line_injective (hline.trans hline'.symm)
      exact ⟨rfl, hrs⟩
    · -- only one of them has a second line
      rw [heq.2, stops_cons] at hr
      exact absurd (indented_of_line hline') hr
    · rw [← heq.2, stops_cons] at hs
      exact absurd (indented_of_line hline) hs
    · obtain ⟨hreason, rfl, hrs⟩ := heq
      rw [String.append_left_inj, String.append_right_inj] at hreason
      obtain rfl := Times.eq_of_print_eq h h' hreason
      obtain rfl := Role.line_injective (hline.trans hline'.symm)
      exact ⟨rfl, hrs⟩
  all_goals
    first
    | (rcases hline : role.line with _ | line <;>
        simp [Heading.lines, hline] at heq)
    | (rcases hline : role'.line with _ | line <;>
        simp [Heading.lines, hline] at heq)
    | simp [Heading.lines] at heq

lemma readable_fromLines : Readable (fun _ => True) (Stops IsFrom) fromLines := by
  rintro (_ | t) (_ | t') r s - - hr hs heq
  · exact ⟨rfl, heq⟩
  · rw [show r = ("from: " ++ t') :: s from heq, stops_cons] at hr
    exact absurd (isFrom_append t') hr
  · rw [show s = ("from: " ++ t) :: r from heq.symm, stops_cons] at hs
    exact absurd (isFrom_append t) hs
  · obtain ⟨ht, hrs⟩ := List.cons.inj heq
    exact ⟨congrArg some (String.append_right_inj _ |>.mp ht), hrs⟩

lemma readable_descriptionLines (title : String) :
    Readable (fun _ => True) (Stops fun l => l = title ∨ Indented l) (descriptionLines title) := by
  have hitem : Readable (fun _ => True) (fun _ => True) fun d : String => ["\t" ++ d ++ ","] := by
    intro d d' r s _ _ _ _ heq
    obtain ⟨hd, hrs⟩ := List.cons.inj heq
    rw [String.append_left_inj, String.append_right_inj] at hd
    exact ⟨hd, hrs⟩
  have hitems : Readable (fun _ => True) (Stops fun l => l = title ∨ Indented l)
      fun ds : List String => ds.flatMap fun d => ["\t" ++ d ++ ","] := by
    refine (hitem.many (fun _ _ _ => trivial) (fun _ _ => trivial) ?_).mono
      (fun _ _ _ _ => trivial) fun _ h => h
    rintro d r _ - hs rfl
    rw [List.singleton_append, stops_cons, String.append_assoc] at hs
    exact hs (.inr (indented_append _))
  rintro (_ | ⟨d, ds⟩) (_ | ⟨d', ds'⟩) r s - - hr hs heq
  · exact ⟨rfl, heq⟩
  · rw [show r = title :: _ from heq, stops_cons] at hr
    exact absurd (.inl rfl) hr
  · rw [show s = title :: _ from heq.symm, stops_cons] at hs
    exact absurd (.inl rfl) hs
  · refine hitems _ _ r s trivial trivial hr hs ?_
    simpa [descriptionLines, List.map_eq_flatMap] using heq

/-- What a report shows can be read off its lines, whatever lines follow. -/
lemma readable_view : Readable (fun v : View => v.heading.Valid) (fun _ => True) View.lines := by
  have hclose : Readable (fun _ => True) (fun _ => True) fun _ : Unit => ["\x7d"] :=
    fun _ _ _ _ _ _ _ _ heq => ⟨rfl, (List.cons.inj heq).2⟩
  have hpassed := (readable_descriptionLines "passed:").append hclose fun _ _ _ _ =>
    stops_cons.mpr (by simp [Indented])
  have hfailed := (readable_descriptionLines "failed:").append hpassed fun x r _ _ => by
    rw [List.append_assoc]
    exact stops_descriptionLines (by simp [Indented]) (stops_cons.mpr (by simp [Indented]))
  have hfrom := readable_fromLines.append hfailed fun x r _ _ => by
    simp only [List.append_assoc]
    exact stops_descriptionLines (by simp [IsFrom]) (stops_descriptionLines (by simp [IsFrom])
      (stops_cons.mpr (by simp [IsFrom])))
  have hall := readable_heading.append hfrom fun x r _ _ => by
    simp only [List.append_assoc]
    exact stops_fromLines (by simp [Indented]) (stops_descriptionLines (by simp [Indented])
      (stops_descriptionLines (by simp [Indented]) (stops_cons.mpr (by simp [Indented]))))
  have hview := hall.comap (f := fun v : View =>
    (v.heading, v.location, v.failed, v.passed, ())) fun v v' _ _ heq => by
      simp only [Prod.mk.injEq] at heq
      obtain ⟨hheading, hlocation, hfailed, hpassed, -⟩ := heq
      cases v; cases v'; simp_all
  exact (hview.mono (fun v hv => ⟨hv, trivial, trivial, trivial, trivial⟩) fun _ h => h)

/-- A report whose parts have no line breaks of their own. -/
structure Plain (report : MatchReport) : Prop where
  location : ∀ loc ∈ report.sourceLocation, Single (printLocation loc)
  descriptions : ∀ p ∈ report.expectationReports, ∀ d ∈ p.description, Single d
  limits : (viewControl report.controlReport).1.Valid

@[simp] lemma single_repr (n : ℕ) : Single n.repr := by
  intro h
  have hdigit : IsDigit 10 '\n' :=
    isDigit_of_mem_toDigits (n := n) (by omega) (by simpa using h)
  revert hdigit
  decide

@[simp] lemma single_verbalizeValue (n : ℕ) : Single (verbalizeValue n) := by
  have hnumber : Single (toString n ++ " times") :=
    single_append.mpr ⟨single_repr n, by simp [Single]⟩
  rcases n with _ | _ | _ | n
  · simp [verbalizeValue, Single]
  · simp [verbalizeValue, Single]
  · simp [verbalizeValue, Single]
  · exact hnumber

@[simp] lemma single_verbalizeInterval (a b : ℕ) : Single (verbalizeInterval a b) := by
  unfold verbalizeInterval
  split
  · simp only [single_append, Nat.toString_eq_repr, single_repr, and_true]
    simp [Single]
  · simp only [single_append, single_verbalizeValue, and_true]
    simp [Single]

@[simp] lemma Times.single_print (t : Times) : Single t.print := by
  cases t with
  | saturated c =>
    simp only [print_saturated, single_append, single_verbalizeValue, and_true]
    simp [Single]
  | accepting c m =>
    simp only [print_accepting, single_append, Nat.toString_eq_repr, single_repr, and_true]
    simp [Single]
  | expected c a b =>
    simp only [print_expected, single_append, single_verbalizeValue, single_verbalizeInterval,
      and_true]
    simp [Single]

lemma Role.single_line {role : Role} {line : String} (h : role.line = some line) :
    Single line := by
  cases role with
  | unattached => cases h
  | current n | part n =>
    obtain rfl := Option.some.inj h
    simp only [single_append, Nat.toString_eq_repr, single_repr, and_true]
    simp [Single]
  | notCurrent n m =>
    obtain rfl := Option.some.inj h
    simp only [single_append, Nat.toString_eq_repr, single_repr, and_true]
    simp [Single]

variable {printLocation}

lemma single_lines {report : MatchReport} (h : Plain printLocation report) :
    ∀ l ∈ (view printLocation report).lines, Single l := by
  have hdescriptions : ∀ (title : String) (b : Bool), Single title →
      ∀ l ∈ descriptionLines title (descriptionsOf b report.expectationReports), Single l := by
    intro title b htitle l hl
    have hall : ∀ d ∈ descriptionsOf b report.expectationReports, Single d := by
      intro d hd
      obtain ⟨p, hp, hpd⟩ := List.mem_filterMap.mp hd
      exact h.descriptions p (List.mem_of_mem_filter hp) d hpd
    generalize descriptionsOf b report.expectationReports = ds at hl hall
    rcases ds with _ | ⟨d, ds⟩
    · simp [descriptionLines] at hl
    · rcases List.mem_cons.mp hl with rfl | hl
      · exact htitle
      · obtain ⟨d', hd', rfl⟩ := List.mem_map.mp hl
        simp only [single_append, hall d' hd', and_true]
        simp [Single]
  have hheading : ∀ l ∈ (viewHeading report).lines, Single l := by
    unfold viewHeading
    cases evaluateMatchReport report with
    | full => simp [Heading.lines, Single]
    | none => simp [Heading.lines, Single]
    | inapplicable =>
      rcases hline : (viewControl report.controlReport).2.line with _ | line
      · simp [Heading.lines, hline]
        simp [Single]
      · have := Role.single_line hline
        simp [Heading.lines, hline, this]
        simp [Single]
  have hfrom : ∀ l ∈ fromLines (report.sourceLocation.map printLocation), Single l := by
    intro l hl
    rcases hloc : report.sourceLocation with _ | loc
    · simp [hloc, fromLines] at hl
    · obtain rfl : l = "from: " ++ printLocation loc := by simpa [hloc, fromLines] using hl
      exact single_append.mpr ⟨by simp [Single], h.location loc hloc⟩
  intro l hl
  simp only [View.lines, view, List.mem_append, List.mem_singleton] at hl
  rcases hl with hl | hl | hl | hl | rfl
  · exact hheading l hl
  · exact hfrom l hl
  · exact hdescriptions _ _ (by simp [Single]) l hl
  · exact hdescriptions _ _ (by simp [Single]) l hl
  · simp [Single]

lemma heading_valid {report : MatchReport} (h : Plain printLocation report) :
    (view printLocation report).heading.Valid := by
  simp only [view, viewHeading]
  cases evaluateMatchReport report with
  | full => trivial
  | none => trivial
  | inapplicable => exact h.limits

/-- **The text of a match report says what it is made of**: the verdict, why an otherwise matched
expectation is inapplicable, where it stands, and which policies failed and which passed, in the
order in which the expectation lists them. -/
theorem printMatchReport_eq_iff {r r' : MatchReport} (h : Plain printLocation r)
    (h' : Plain printLocation r') :
    printMatchReport printLocation r = printMatchReport printLocation r' ↔
      view printLocation r = view printLocation r' := by
  rw [printMatchReport_eq, printMatchReport_eq]
  constructor
  · intro heq
    have hlines := unlines_injective (single_lines h) (single_lines h') heq
    exact readable_view.injective trivial (heading_valid h) (heading_valid h') hlines
  · exact fun heq => by rw [heq]

/-- An expectation for one call, with an argument that has to be 42 on any overload. -/
def answer (isMatching : Bool) (count : ℕ) : MatchReport where
  sourceLocation := some ⟨"answer.cpp", 42⟩
  finalizeReport := none
  controlReport := if count = 0 then .applicable 1 1 0 [] else .saturated 1 1 count []
  expectationReports :=
    [⟨isMatching, some "expect: arg[0] == 42"⟩, ⟨true, some "expect: from any value category"⟩]

lemma plain_answer (isMatching : Bool) (count : ℕ) :
    Plain SourceLocation.fileName (answer isMatching count) where
  location loc hloc := by
    obtain rfl : ⟨"answer.cpp", 42⟩ = loc := by simpa [answer] using hloc
    simp [Single]
  descriptions p hp d hd := by
    simp only [answer, List.mem_cons, List.not_mem_nil, or_false] at hp
    rcases hp with rfl | rfl <;> obtain rfl := Option.some.inj hd <;> simp [Single]
  limits := by
    unfold answer
    split_ifs with h
    · subst h
      simp [viewControl, timesOf, Times.Valid]
    · simp only [viewControl, timesOf]
      split_ifs with h1 h2
      · trivial
      · trivial
      · exact le_rfl

/-- A failed policy is told from a saturated expectation. -/
theorem printMatchReport_answers :
    printMatchReport SourceLocation.fileName (answer false 0) ≠
      printMatchReport SourceLocation.fileName (answer true 1) := by
  intro heq
  have hview := (printMatchReport_eq_iff (plain_answer false 0) (plain_answer true 1)).mp heq
  have hfailed := congrArg View.failed hview
  simp [view, answer, descriptionsOf] at hfailed

end MimicPP.ReportReading

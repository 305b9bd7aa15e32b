import MimicPP.Delimited
import MimicPP.Overloads

/-!
The texts reports are printed as, and the messages that are made of them.

How a source location is printed is a parameter, since a location is known by its file and
line here, and a program may bring a printer of its own.
-/

namespace MimicPP.ReportTexts

open MimicPP.Reports MimicPP.Signatures MimicPP.Overloads MimicPP.Delimited

/-- An entry of a stacktrace. -/
structure Frame where
  sourceFile : String
  sourceLine : ℕ
  description : String
  deriving DecidableEq, Repr

abbrev Stacktrace := List Frame

/-- `std::type_index`: types of one name may differ. -/
structure TypeIndex where
  id : ℕ
  name : String
  deriving DecidableEq, Repr

/-- `CallReport::Arg` -/
structure Arg where
  typeIndex : TypeIndex
  stateString : String
  deriving DecidableEq, Repr

structure CallReport where
  returnTypeIndex : TypeIndex
  argDetails : List Arg
  fromLoc : SourceLocation
  stacktrace : Stacktrace
  fromCategory : ValueCategory
  fromConstness : Constness
  deriving DecidableEq, Repr

variable (printLocation : SourceLocation → String)

/-! ### Reports -/

def printFrame (f : Frame) : String :=
  f.sourceFile ++ " [" ++ toString f.sourceLine ++ "], " ++ f.description

def printStacktrace : Stacktrace → String
  | [] => "empty"
  | f :: fs => String.join ((f :: fs).map fun f => printFrame f ++ "\n")

def printArg (i : ℕ) (arg : Arg) : String :=
  "\targ[" ++ toString i ++ "]: \x7b\n\t\ttype: " ++ arg.typeIndex.name ++ ",\n\t\tvalue: "
    ++ arg.stateString ++ "\n\t\x7d,\n"

def printCallReport (report : CallReport) : String :=
  "call from "
    ++ (match report.stacktrace with
      | [] => printLocation report.fromLoc
      | f :: _ => printFrame f)
    ++ "\n"
    ++ "constness: " ++ constnessToString report.fromConstness
    ++ "\nvalue category: " ++ valueCategoryToString report.fromCategory
    ++ "\nreturn type: " ++ report.returnTypeIndex.name ++ "\n"
    ++ if report.argDetails.isEmpty then ""
      else "args:\n" ++ String.join (report.argDetails.mapIdx printArg)

def printFrom : Option SourceLocation → String
  | none => ""
  | some loc => "from: " ++ printLocation loc ++ "\n"

/-- A title and the listed descriptions; without descriptions there is no title. -/
def printDescriptions (title : String) (descriptions : List String) : String :=
  if descriptions.isEmpty then ""
  else title ++ "\n" ++ String.join (descriptions.map fun desc => "\t" ++ desc ++ ",\n")

def printExpectationReport (report : ExpectationReport) : String :=
  "Expectation report:\n"
    ++ printFrom printLocation report.sourceLocation
    ++ (match report.timesDescription with
      | none => ""
      | some desc => "times: " ++ desc ++ "\n")
    ++ printDescriptions "expects:" (report.expectationDescriptions.filterMap id)
    ++ match report.finalizerDescription with
      | none => ""
      | some desc => "finally: " ++ desc ++ "\n"

/-- The descriptions of the policies with the given verdict. -/
def descriptionsOf (isMatching : Bool) (reports : List PolicyReport) : List String :=
  (reports.filter fun p => p.isMatching == isMatching).filterMap PolicyReport.description

def printHeading (report : MatchReport) : String :=
  match evaluateMatchReport report with
  | .full => "Matched expectation: \x7b\n"
  | .inapplicable => "Inapplicable, but otherwise matched expectation: \x7b\nreason: "
      ++ controlStatePrinter report.controlReport ++ "\n"
  | .none => "Unmatched expectation: \x7b\n"

def printMatchReport (report : MatchReport) : String :=
  printHeading report
    ++ printFrom printLocation report.sourceLocation
    ++ printDescriptions "failed:" (descriptionsOf false report.expectationReports)
    ++ printDescriptions "passed:" (descriptionsOf true report.expectationReports)
    ++ "\x7d\n"

/-! ### Messages -/

def stringifyStacktrace (stacktrace : Stacktrace) : String :=
  if stacktrace.isEmpty then "" else "Stacktrace:\n" ++ printStacktrace stacktrace

/-- Each report, with an empty line behind it. -/
def printEach (reports : List MatchReport) : String :=
  String.join (reports.map fun report => printMatchReport printLocation report ++ "\n")

def stringifyNoMatchReport (call : CallReport) (matchReports : List MatchReport) : String :=
  "No match for " ++ printCallReport printLocation call ++ "\n"
    ++ (if matchReports.isEmpty then "No expectations available.\n"
      else toString matchReports.length ++ " available expectation(s):\n"
        ++ printEach printLocation matchReports)
    ++ stringifyStacktrace call.stacktrace

def stringifyInapplicableMatchReport (call : CallReport) (matchReports : List MatchReport) :
    String :=
  "No applicable match for " ++ printCallReport printLocation call ++ "\n"
    ++ "Tested expectations:\n"
    ++ printEach printLocation matchReports
    ++ stringifyStacktrace call.stacktrace

def stringifyUnfulfilledExpectation (expectationReport : ExpectationReport) : String :=
  "Unfulfilled expectation:\n" ++ printExpectationReport printLocation expectationReport ++ "\n"

/-- `what` is what the exception says about itself, if it is a `std::exception`. -/
def stringifyUnhandledException (call : CallReport) (expectationReport : ExpectationReport)
    (what : Option String) : String :=
  "Unhandled exception: "
    ++ (match what with
      | some text => "what: " ++ text ++ "\n"
      | none => "Unknown exception type.\n")
    ++ "while checking expectation:\n"
    ++ printExpectationReport printLocation expectationReport ++ "\n"
    ++ "For " ++ printCallReport printLocation call ++ "\n"

example : printMatchReport (fun _ => "test.cpp") ⟨some ⟨"", 0⟩, none, .applicable 1 1 0 [],
      [⟨true, some "expect: arg[0] == 1"⟩, ⟨true, none⟩, ⟨false, some "expect: arg[1] > 2"⟩]⟩ =
    "Unmatched expectation: \x7b\nfrom: test.cpp\nfailed:\n\texpect: arg[1] > 2,\npassed:\n" ++
      "\texpect: arg[0] == 1,\n\x7d\n" := by decide

end MimicPP.ReportTexts

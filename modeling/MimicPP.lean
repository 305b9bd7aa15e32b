import MimicPP.Transition
import MimicPP.Noexcept
import MimicPP.Sequence
import MimicPP.Control
import MimicPP.Expectation
import MimicPP.Matching
import MimicPP.Runs
import MimicPP.Invariant
import MimicPP.Order
import MimicPP.Outcome
import MimicPP.Concurrent
import MimicPP.Reentrant
import MimicPP.Asserts
import MimicPP.Ratings
import MimicPP.Choice
import MimicPP.Exact
import MimicPP.Filling
import MimicPP.Front
import MimicPP.Verdict
import MimicPP.Progress
import MimicPP.Chain
import MimicPP.Overloads
import MimicPP.Lifetime
import MimicPP.Relocation
import MimicPP.Ownership
import MimicPP.Violations
import MimicPP.Permuted
import MimicPP.Ranges
import MimicPP.StringMatchers
import MimicPP.CaseFolding
import MimicPP.Attachment
import MimicPP.Bounds
import MimicPP.Delimited
import MimicPP.MessageReading
import MimicPP.Printing
import MimicPP.Diagnoses
import MimicPP.Passing
import MimicPP.Arguments
import MimicPP.Effects
import MimicPP.Clauses
import MimicPP.Matchers
import MimicPP.CallReports
import MimicPP.Watched

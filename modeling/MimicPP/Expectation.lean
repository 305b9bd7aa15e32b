import MimicPP.Control

/-!
Expectations, the collections that store them, and what a collection does with a call.

What the user supplies (matchers, side effects, finalizers, the reporter) is a function
that may throw, and so may the description of a policy. The variables such functions capture
are the environment `σ`: matchers read it, side effects and finalizers change it. To print the
arguments of a call is taken not to fail.
-/

namespace MimicPP.Expectation

open MimicPP.Noexcept MimicPP.Sequence MimicPP.Reports MimicPP.Control

/-- The address of an expectation; addresses are numbered in the order of creation. -/
abbrev ExpId := ℕ
/-- The address of an `ExpectationCollection`. -/
abbrev CollId := ℕ

/-- An expectation policy, `matchesCall` being its member `matches`. -/
structure Policy (σ Call Exc : Type) where
  isSatisfied : σ → Bool
  matchesCall : σ → Call → Except Exc Bool
  describe : σ → Except Exc (Option String)
  consume : σ → Call → σ × Except Exc Unit

structure BasicExpectation (σ Call Ret Exc : Type) where
  sourceLocation : SourceLocation
  controlPolicy : ControlPolicy
  policies : List (Policy σ Call Exc)
  finalizer : σ → Call → σ × Except Exc Ret

/-- `IReporter`, less `report_full_match`, which is `noexcept` and returns nothing. The two
functions that must not return are given by the way they end the call. -/
structure Reporter (Call Exc : Type) where
  reportNoMatches : Call → List MatchReport → Exit Exc
  reportInapplicableMatches : Call → List MatchReport → Exit Exc
  reportUnfulfilledExpectation : ExpectationReport → Except (Exit Exc) Unit
  reportError : String → Except (Exit Exc) Unit
  reportUnhandledException : Call → ExpectationReport → Exc → Except (Exit Exc) Unit

/-- Everything a test shares with the library: the installed reporter, the variables of user
code, the sequences, the expectations ever created, and what each collection stores. Where
collections differ in signature, `Call` and `Ret` are sums. -/
structure World (σ Call Ret Exc : Type) where
  reporter : Reporter Call Exc
  env : σ
  seqs : Sequences
  exps : List (BasicExpectation σ Call Ret Exc)
  colls : CollId → List ExpId

/-- What can be observed while a call is handled or an expectation removed: the calls to the
reporter, and the steps of the chosen expectation. In place of the report of an unfulfilled
expectation there may be the exception that came up while it was put together. -/
inductive Event (Call Exc : Type)
  | unhandledException (call : Call) (e : ExpId) (report : ExpectationReport) (exc : Exc)
  | fullMatch (call : Call) (report : MatchReport)
  | inapplicableMatches (call : Call) (reports : List MatchReport)
  | noMatches (call : Call) (reports : List MatchReport)
  | unfulfilledExpectation (report : Except Exc ExpectationReport)
  | controlConsumed (e : ExpId)
  | policyConsumed (e : ExpId) (index : ℕ)
  | finalized (e : ExpId)
  deriving DecidableEq

variable {σ Call Ret Exc : Type}

namespace BasicExpectation

def describeTimes (x : BasicExpectation σ Call Ret Exc) (seqs : Sequences) : String :=
  controlStatePrinter (x.controlPolicy.state seqs)

/-- The descriptions of the policies, in order; the first exception ends it. -/
def descriptions (env : σ) : List (Policy σ Call Exc) → Except Exc (List (Option String))
  | [] => .ok []
  | p :: ps =>
    match p.describe env with
    | .error exc => .error exc
    | .ok description => (descriptions env ps).map (description :: ·)

def report (x : BasicExpectation σ Call Ret Exc) (env : σ) (seqs : Sequences) :
    Except Exc ExpectationReport :=
  (descriptions env x.policies).map fun expectationDescriptions => {
    sourceLocation := some x.sourceLocation
    finalizerDescription := none
    timesDescription := some (x.describeTimes seqs)
    expectationDescriptions }

def isSatisfied (x : BasicExpectation σ Call Ret Exc) (env : σ) : Bool :=
  x.controlPolicy.isSatisfied && x.policies.all fun p => p.isSatisfied env

/-- The verdicts of the policies, each with its description, in order; the first exception ends
it. -/
def policyReports (env : σ) (call : Call) :
    List (Policy σ Call Exc) → Except Exc (List PolicyReport)
  | [] => .ok []
  | p :: ps =>
    match p.matchesCall env call with
    | .error exc => .error exc
    | .ok isMatching =>
      match p.describe env with
      | .error exc => .error exc
      | .ok description =>
        match policyReports env call ps with
        | .error exc => .error exc
        | .ok reports => .ok (⟨isMatching, description⟩ :: reports)

def matchesCall (x : BasicExpectation σ Call Ret Exc) (env : σ) (seqs : Sequences) (call : Call) :
    Except Exc MatchReport :=
  match policyReports env call x.policies with
  | .error exc => .error exc
  | .ok reports => .ok ⟨some x.sourceLocation, none, x.controlPolicy.state seqs, reports⟩

end BasicExpectation

/-- The side effects of a match, in order of attachment. They run inside a `noexcept` lambda,
so the first exception terminates. -/
def consumePolicies (call : Call) (e : ExpId) :
    ℕ → List (Policy σ Call Exc) → σ → σ × List (Event Call Exc) × Except (Exit Exc) Unit
  | _, [], env => (env, [], .ok ())
  | index, p :: ps, env =>
    match p.consume env call with
    | (env', .error exc) =>
      (env', [.policyConsumed e index], noexcept (throwing (.error exc)))
    | (env', .ok ()) =>
      let rest := consumePolicies call e (index + 1) ps env'
      (rest.1, .policyConsumed e index :: rest.2.1, rest.2.2)

/-- The three accumulators of `handle_call`; `fullMatches` is the one named `matches`. -/
structure Buckets where
  fullMatches : List (ExpId × MatchReport)
  noMatches : List MatchReport
  inapplicableMatches : List MatchReport

def Buckets.empty : Buckets := ⟨[], [], []⟩

def Buckets.emplaceBack (b : Buckets) (e : ExpId) (report : MatchReport) : Buckets :=
  match evaluateMatchReport report with
  | .none => { b with noMatches := b.noMatches ++ [report] }
  | .inapplicable => { b with inapplicableMatches := b.inapplicableMatches ++ [report] }
  | .full => { b with fullMatches := b.fullMatches ++ [(e, report)] }

/-- The loop of `pick_best_match`, entered with the best match so far. -/
def pickBestLoop : ExpId × MatchReport → List (ExpId × MatchReport) → Option (ExpId × MatchReport)
  | best, [] => some best
  | best, m :: ms =>
    (sequenceRatings best.2).bind fun lhs =>
      (sequenceRatings m.2).bind fun rhs =>
        if hasBetterRating lhs rhs then pickBestLoop best ms else pickBestLoop m ms

/-- The match to be consumed. There is none when the list is empty, which the source does not
check, or when a match has no ratings to be read. -/
def pickBestMatch : List (ExpId × MatchReport) → Option (ExpId × MatchReport)
  | [] => none
  | best :: ms => pickBestLoop best ms

namespace World

/-- The expectations a collection stores, in the order they were pushed. -/
def stored (w : World σ Call Ret Exc) (c : CollId) :
    List (ExpId × BasicExpectation σ Call Ret Exc) :=
  (w.colls c).filterMap fun e => (w.exps[e]?).map fun x => (e, x)

def push (w : World σ Call Ret Exc) (c : CollId) (e : ExpId) : World σ Call Ret Exc :=
  { w with colls := Function.update w.colls c (w.colls c ++ [e]) }

/-- The expectation is erased before it is asked whether it is satisfied. An exception of a
description leaves `remove` as one of the reporter does. -/
def remove (w : World σ Call Ret Exc) (c : CollId) (e : ExpId) :
    World σ Call Ret Exc × List (Event Call Exc) × Except (Exit Exc) Unit :=
  let w' := { w with colls := Function.update w.colls c ((w.colls c).erase e) }
  match w.exps[e]? with
  | none => (w', [], .ok ())
  | some x =>
    if x.isSatisfied w.env then (w', [], .ok ())
    else
      (w', [.unfulfilledExpectation (x.report w.env w.seqs)],
        (throwing (x.report w.env w.seqs)).bind w.reporter.reportUnfulfilledExpectation)

/-- `make_match_report`, which is `noexcept`: an exception of a policy goes to the reporter.
An exception of the reporter terminates, and so does one that comes up in the handler, while the
report is put together. -/
def makeMatchReport (w : World σ Call Ret Exc) (call : Call) (e : ExpId)
    (x : BasicExpectation σ Call Ret Exc) :
    List (Event Call Exc) × Except (Exit Exc) (Option MatchReport) :=
  match x.matchesCall w.env w.seqs call with
  | .ok report => ([], .ok (some report))
  | .error exc =>
    match x.report w.env w.seqs with
    | .error exc' => ([], noexcept (throwing (.error exc')))
    | .ok report =>
      ([.unhandledException call e report exc],
        noexcept ((w.reporter.reportUnhandledException call report exc).map fun _ => none))

/-- The loop of `handle_call` over the stored expectations. -/
def matchLoop (w : World σ Call Ret Exc) (call : Call) :
    List (ExpId × BasicExpectation σ Call Ret Exc) → Buckets →
      List (Event Call Exc) × Except (Exit Exc) Buckets
  | [], b => ([], .ok b)
  | (e, x) :: rest, b =>
    match w.makeMatchReport call e x with
    | (events, .error exit) => (events, .error exit)
    | (events, .ok none) =>
      let r := matchLoop w call rest b
      (events ++ r.1, r.2)
    | (events, .ok (some report)) =>
      let r := matchLoop w call rest (b.emplaceBack e report)
      (events ++ r.1, r.2)

/-- The newest expectation is asked first. -/
def collectMatches (w : World σ Call Ret Exc) (c : CollId) (call : Call) :
    List (Event Call Exc) × Except (Exit Exc) Buckets :=
  w.matchLoop call (w.stored c).reverse Buckets.empty

/-- The control policy of an expectation is consumed. -/
def consumeControl (w : World σ Call Ret Exc) (e : ExpId) : World σ Call Ret Exc :=
  match w.exps[e]? with
  | none => w
  | some x =>
    { w with
      seqs := (x.controlPolicy.consume w.seqs).2
      exps := w.exps.set e { x with controlPolicy := (x.controlPolicy.consume w.seqs).1 } }

/-- `exp.consume(call)`, then `exp.finalize_call(call)`. -/
def consumeAndFinalize (w : World σ Call Ret Exc) (call : Call) (e : ExpId) :
    World σ Call Ret Exc × List (Event Call Exc) × Except (Exit Exc) Ret :=
  match w.exps[e]? with
  | none => (w, [], .error .terminate)
  | some x =>
    let w' := w.consumeControl e
    match consumePolicies call e 0 x.policies w'.env with
    | (env, events, .error exit) =>
      ({ w' with env := env }, .controlConsumed e :: events, .error exit)
    | (env, events, .ok ()) =>
      ({ w' with env := (x.finalizer env call).1 },
        .controlConsumed e :: events ++ [.finalized e], throwing (x.finalizer env call).2)

def handleCall (w : World σ Call Ret Exc) (c : CollId) (call : Call) :
    World σ Call Ret Exc × List (Event Call Exc) × Except (Exit Exc) Ret :=
  match w.collectMatches c call with
  | (events, .error exit) => (w, events, .error exit)
  | (events, .ok b) =>
    if b.fullMatches ≠ [] then
      match pickBestMatch b.fullMatches with
      | none => (w, events, .error .terminate)
      | some (e, report) =>
        let r := w.consumeAndFinalize call e
        (r.1, events ++ .fullMatch call report :: r.2.1, r.2.2)
    else if b.inapplicableMatches ≠ [] then
      (w, events ++ [.inapplicableMatches call b.inapplicableMatches],
        .error (w.reporter.reportInapplicableMatches call b.inapplicableMatches))
    else
      (w, events ++ [.noMatches call b.noMatches],
        .error (w.reporter.reportNoMatches call b.noMatches))

end World

/-- `BasicExpectationBuilder`, as it stands when `finalize` is called. -/
structure Builder (σ Call Ret Exc : Type) where
  storage : CollId
  timesConfig : TimesConfig
  sequenceConfig : Config
  finalizePolicy : σ → Call → σ × Except Exc Ret
  expectationPolicies : List (Policy σ Call Exc)

/-- The control policy is constructed first, then the expectation is pushed. -/
def Builder.finalize (b : Builder σ Call Ret Exc) (loc : SourceLocation)
    (w : World σ Call Ret Exc) : World σ Call Ret Exc × Except (Exit StdError) ExpId :=
  match ControlPolicy.construct w.seqs b.timesConfig b.sequenceConfig with
  | (seqs, .error exit) => ({ w with seqs := seqs }, .error exit)
  | (seqs, .ok p) =>
    let x : BasicExpectation σ Call Ret Exc := ⟨loc, p, b.expectationPolicies, b.finalizePolicy⟩
    (({ w with seqs := seqs, exps := w.exps ++ [x] }).push b.storage w.exps.length,
      .ok w.exps.length)

end MimicPP.Expectation

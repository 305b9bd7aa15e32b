import MimicPP.Reporting
import MimicPP.Unwinding
import MimicPP.Verdict

/-!
Tests with scoped expectations: the blocks of a test, and what happens when one is left.

A `ScopedExpectation` and a sequence live to the end of the block they are declared in and are
destroyed in the reverse order of their declaration, by an exception as well as by running off
the end. A sequence is declared before the expectations attached to it, so its interface is the
last of its owners.
-/

namespace MimicPP.Scoped

open MimicPP.Noexcept MimicPP.Sequence MimicPP.Reports MimicPP.Control MimicPP.Expectation
open MimicPP.Transition MimicPP.Runs MimicPP.Invariant MimicPP.Order MimicPP.Reporting
open MimicPP.Unwinding

/-- A test, up to the end of the block it stands in. -/
inductive Test (σ Call Ret Exc : Type)
  | done
  | expect (b : Builder σ Call Ret Exc) (loc : SourceLocation) (rest : Test σ Call Ret Exc)
  | sequence (rest : Tag → Test σ Call Ret Exc)
  | call (c : CollId) (call : Call) (rest : Ret → Test σ Call Ret Exc)
  | user (f : σ → σ × Except Exc Unit) (rest : σ → Test σ Call Ret Exc)
  | scope (body rest : Test σ Call Ret Exc)
  | attempt (body : Test σ Call Ret Exc) (handler : Exc → Test σ Call Ret Exc)
      (rest : Test σ Call Ret Exc)

/-- The world, and how many sequences have been constructed; their addresses are the smaller
numbers. -/
structure Status (σ Call Ret Exc : Type) where
  world : World σ Call Ret Exc
  constructed : ℕ

/-- What occurs in a test. Both kinds of destruction say how many exceptions were in flight. -/
inductive Occurrence (Call Exc : Type)
  | created (e : ExpId)
  | refused
  | called (c : CollId) (call : Call) (events : List (Event Call Exc))
      (exit : Except (Exit Exc) Unit)
  | user (exit : Except Exc Unit)
  | removed (e : ExpId) (uncaughtExceptions : ℕ) (events : List (Event Call Exc))
      (exit : Except (Exit Exc) Unit)
  | sequenceEnded (tag : Tag) (uncaughtExceptions : ℕ) (message : Option String)
      (exit : Except (Exit Exc) Unit)

variable {σ Call Ret Exc : Type}

/-- How an occurrence ended. A sequence that is full already terminates the attachment. -/
def Occurrence.exit : Occurrence Call Exc → Except (Exit Exc) Unit
  | .created _ => .ok ()
  | .refused => .error .terminate
  | .called _ _ _ exit => exit
  | .user exit => throwing exit
  | .removed _ _ _ exit => exit
  | .sequenceEnded _ _ _ exit => exit

section exec

variable (reporters : ℕ → Reporter Call Exc)

/-- `~ScopedExpectation`, with `n` exceptions in flight. -/
def destroyExpectation (c : CollId) (e : ExpId) (n : ℕ) (s : Status σ Call Ret Exc) :
    Run (Status σ Call Ret Exc) (Occurrence Call Exc) Exc :=
  let r := World.remove { s.world with reporter := reporters n } c e
  .single { s with world := r.1 } (.removed e n r.2.1 r.2.2) r.2.2

/-- The interface of a sequence dies. The `shared_ptr` deletes the sequence, which is
`noexcept`. -/
def destroySequence (tag : Tag) (n : ℕ) (s : Status σ Call Ret Exc) :
    Run (Status σ Call Ret Exc) (Occurrence Call Exc) Exc :=
  let exit := match (s.world.seqs tag).destroy with
    | none => .ok ()
    | some message => noexcept ((reporters n).reportError message)
  .single s (.sequenceEnded tag n (s.world.seqs tag).destroy exit) exit

/-- Runs a test while `n` exceptions are in flight. -/
def exec : Test σ Call Ret Exc → ℕ → Status σ Call Ret Exc →
    Run (Status σ Call Ret Exc) (Occurrence Call Exc) Exc
  | .done, _, s => .skip s
  | .expect b loc rest, n, s =>
    match b.finalize loc s.world with
    | (w, .error _) => .single { s with world := w } .refused (.error .terminate)
    | (w, .ok e) =>
      let block := exec rest n { s with world := w }
      (block.leave n (destroyExpectation reporters b.storage e)).behind (.created e)
  | .sequence rest, n, s =>
    (exec (rest s.constructed) n { s with constructed := s.constructed + 1 }).leave n
      (destroySequence reporters s.constructed)
  | .call c call rest, n, s =>
    match World.handleCall { s.world with reporter := reporters n } c call with
    | (w, events, .error exit) =>
      .single { s with world := w } (.called c call events (.error exit)) (.error exit)
    | (w, events, .ok ret) =>
      (exec (rest ret) n { s with world := w }).behind (.called c call events (.ok ()))
  | .user f rest, n, s =>
    match f s.world.env with
    | (env, .error exc) =>
      .single { s with world := { s.world with env := env } } (.user (.error exc))
        (.error (.thrown exc))
    | (env, .ok ()) =>
      (exec (rest env) n { s with world := { s.world with env := env } }).behind (.user (.ok ()))
  | .scope body rest, n, s => (exec body n s).andThen fun s => exec rest n s
  | .attempt body handler rest, n, s =>
    ((exec body n s).rescue fun exc s => exec (handler exc) n s).andThen fun s => exec rest n s

end exec

/-- A test that catches no exceptions. -/
def Test.Straight : Test σ Call Ret Exc → Prop
  | .done => True
  | .expect _ _ rest => rest.Straight
  | .sequence rest => ∀ tag, (rest tag).Straight
  | .call _ _ rest => ∀ ret, (rest ret).Straight
  | .user _ rest => ∀ env, (rest env).Straight
  | .scope body rest => body.Straight ∧ rest.Straight
  | .attempt _ _ _ => False

/-- A test whose policies say what they stand for without an exception. -/
def Test.Described : Test σ Call Ret Exc → Prop
  | .done => True
  | .expect b _ rest => (∀ p ∈ b.expectationPolicies, ∀ env, ∃ d, p.describe env = .ok d) ∧
      rest.Described
  | .sequence rest => ∀ tag, (rest tag).Described
  | .call _ _ rest => ∀ ret, (rest ret).Described
  | .user _ rest => ∀ env, (rest env).Described
  | .scope body rest => body.Described ∧ rest.Described
  | .attempt body handler rest => body.Described ∧ (∀ exc, (handler exc).Described) ∧
      rest.Described

/-- An expectation is attached to the listed sequences only, and those declared since. -/
def Test.WellScoped : List Tag → Test σ Call Ret Exc → Prop
  | _, .done => True
  | tags, .expect b _ rest => (∀ tag ∈ b.sequenceConfig.sequences, tag ∈ tags) ∧
      rest.WellScoped tags
  | tags, .sequence rest => ∀ tag, (rest tag).WellScoped (tag :: tags)
  | tags, .call _ _ rest => ∀ ret, (rest ret).WellScoped tags
  | tags, .user _ rest => ∀ env, (rest env).WellScoped tags
  | tags, .scope body rest => body.WellScoped tags ∧ rest.WellScoped tags
  | tags, .attempt body handler rest => body.WellScoped tags ∧
      (∀ exc, (handler exc).WellScoped tags) ∧ rest.WellScoped tags

end MimicPP.Scoped

import Mathlib.Tactic.Common

/-!
How a call ends when exceptions and `noexcept` boundaries are around.
-/

namespace MimicPP.Noexcept

/-- The ways a call ends without returning: an exception leaves it, or the program stops in
`std::terminate`. -/
inductive Exit (E : Type*)
  | thrown (e : E)
  | terminate
  deriving DecidableEq, Repr

variable {E F α : Type*}

/-- The boundary of a `noexcept` function: an exception that reaches it terminates. -/
def noexcept : Except (Exit E) α → Except (Exit F) α
  | .ok a => .ok a
  | .error _ => .error .terminate

/-- A body that can only throw, called where its exception may leave. -/
def throwing : Except E α → Except (Exit E) α
  | .ok a => .ok a
  | .error e => .error (.thrown e)

@[simp] lemma noexcept_ok (a : α) : noexcept (E := E) (F := F) (.ok a) = .ok a := rfl
@[simp] lemma noexcept_error (x : Exit E) :
    noexcept (F := F) (.error x : Except (Exit E) α) = .error .terminate := rfl
@[simp] lemma throwing_ok (a : α) : throwing (E := E) (.ok a) = .ok a := rfl
@[simp] lemma throwing_error (e : E) : throwing (.error e : Except E α) = .error (.thrown e) := rfl

end MimicPP.Noexcept

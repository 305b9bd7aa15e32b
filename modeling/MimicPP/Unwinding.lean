import Mathlib.Tactic.Common
import MimicPP.Noexcept

/-!
Blocks with destructors: what occurs in a block, how the block ends, and what is run on the
way out of it.

A destructor runs when its block is left, with an exception in flight or without one; it is
told how many there are. An exception that leaves a destructor while another one is in flight
terminates, and what has terminated is not left at all.
-/

namespace MimicPP.Unwinding

open MimicPP.Noexcept

/-- How a piece of a program went: the state it leaves, what occurred in it, in order, and the
way it ended. -/
structure Run (S O E : Type*) where
  state : S
  log : List O
  exit : Except (Exit E) Unit

variable {S O E : Type*}

namespace Run

def skip (s : S) : Run S O E := ⟨s, [], .ok ()⟩

def single (s : S) (o : O) (exit : Except (Exit E) Unit) : Run S O E := ⟨s, [o], exit⟩

/-- What ran behind the occurrence `o`. -/
def behind (o : O) (r : Run S O E) : Run S O E := { r with log := o :: r.log }

def andThen (r : Run S O E) (next : S → Run S O E) : Run S O E :=
  match r.exit with
  | .ok () => ⟨(next r.state).state, r.log ++ (next r.state).log, (next r.state).exit⟩
  | .error _ => r

/-- A block is left, in which `n` exceptions were in flight already. -/
def leave (n : ℕ) (destroy : ℕ → S → Run S O E) (r : Run S O E) : Run S O E :=
  match r.exit with
  | .ok () => r.andThen (destroy n)
  | .error (.thrown exc) =>
    ⟨(destroy (n + 1) r.state).state, r.log ++ (destroy (n + 1) r.state).log,
      match (destroy (n + 1) r.state).exit with
      | .ok () => .error (.thrown exc)
      | .error _ => .error .terminate⟩
  | .error .terminate => r

/-- An exception is caught. -/
def rescue (handler : E → S → Run S O E) (r : Run S O E) : Run S O E :=
  match r.exit with
  | .error (.thrown exc) =>
    ⟨(handler exc r.state).state, r.log ++ (handler exc r.state).log,
      (handler exc r.state).exit⟩
  | _ => r

variable {r : Run S O E} {next : S → Run S O E} {destroy : ℕ → S → Run S O E}
variable {handler : E → S → Run S O E} {n : ℕ} {exc : E} {s : S} {o : O}

@[simp] lemma skip_state : (skip s : Run S O E).state = s := rfl
@[simp] lemma skip_log : (skip s : Run S O E).log = [] := rfl
@[simp] lemma skip_exit : (skip s : Run S O E).exit = .ok () := rfl

@[simp] lemma behind_state : (behind o r).state = r.state := rfl
@[simp] lemma behind_log : (behind o r).log = o :: r.log := rfl
@[simp] lemma behind_exit : (behind o r).exit = r.exit := rfl

lemma andThen_of_ok (h : r.exit = .ok ()) : r.andThen next =
    ⟨(next r.state).state, r.log ++ (next r.state).log, (next r.state).exit⟩ := by
  simp only [andThen, h]

lemma andThen_of_error {exit : Exit E} (h : r.exit = .error exit) : r.andThen next = r := by
  simp only [andThen, h]

lemma leave_of_ok (h : r.exit = .ok ()) : r.leave n destroy = r.andThen (destroy n) := by
  simp only [leave, h]

lemma leave_of_thrown (h : r.exit = .error (.thrown exc)) : r.leave n destroy =
    ⟨(destroy (n + 1) r.state).state, r.log ++ (destroy (n + 1) r.state).log,
      match (destroy (n + 1) r.state).exit with
      | .ok () => .error (.thrown exc)
      | .error _ => .error .terminate⟩ := by
  simp only [leave, h]

lemma leave_of_terminate (h : r.exit = .error .terminate) : r.leave n destroy = r := by
  simp only [leave, h]

lemma rescue_of_thrown (h : r.exit = .error (.thrown exc)) : r.rescue handler =
    ⟨(handler exc r.state).state, r.log ++ (handler exc r.state).log,
      (handler exc r.state).exit⟩ := by
  simp only [rescue, h]

lemma rescue_of_ok (h : r.exit = .ok ()) : r.rescue handler = r := by
  simp only [rescue, h]

lemma rescue_of_terminate (h : r.exit = .error .terminate) : r.rescue handler = r := by
  simp only [rescue, h]

/-- A block is left in good order if nothing failed in it, nor in the destructor. -/
lemma leave_exit_eq_ok : (r.leave n destroy).exit = .ok () ↔
    r.exit = .ok () ∧ (destroy n r.state).exit = .ok () := by
  rcases hexit : r.exit with (exc | _) | ⟨⟩
  · rw [leave_of_thrown hexit]
    rcases (destroy (n + 1) r.state).exit with exit | ⟨⟩ <;> simp
  · rw [leave_of_terminate hexit]
    simp [hexit]
  · rw [leave_of_ok hexit, andThen_of_ok hexit]
    simp

lemma andThen_exit_eq_ok : (r.andThen next).exit = .ok () ↔
    r.exit = .ok () ∧ (next r.state).exit = .ok () := by
  rcases hexit : r.exit with exit | ⟨⟩
  · rw [andThen_of_error hexit]
    simp [hexit]
  · rw [andThen_of_ok hexit]
    simp

lemma mem_andThen_log (h : o ∈ (r.andThen next).log) :
    o ∈ r.log ∨ r.exit = .ok () ∧ o ∈ (next r.state).log := by
  rcases hexit : r.exit with exit | ⟨⟩
  · rw [andThen_of_error hexit] at h
    exact .inl h
  · rw [andThen_of_ok hexit] at h
    exact (List.mem_append.mp h).imp_right fun hn => ⟨rfl, hn⟩

/-- What occurs in a block, or in the destructor that is run when it is left. -/
lemma mem_leave_log (h : o ∈ (r.leave n destroy).log) : o ∈ r.log ∨
    (r.exit = .ok () ∧ o ∈ (destroy n r.state).log) ∨ o ∈ (destroy (n + 1) r.state).log := by
  rcases hexit : r.exit with (exc | _) | ⟨⟩
  · rw [leave_of_thrown hexit] at h
    exact (List.mem_append.mp h).imp_right .inr
  · rw [leave_of_terminate hexit] at h
    exact .inl h
  · rw [leave_of_ok hexit] at h
    exact (mem_andThen_log h).imp_right fun hd => .inl ⟨rfl, hd.2⟩

lemma mem_rescue_log (h : o ∈ (r.rescue handler).log) :
    o ∈ r.log ∨ ∃ exc, o ∈ (handler exc r.state).log := by
  rcases hexit : r.exit with (exc | _) | ⟨⟩
  · rw [rescue_of_thrown hexit] at h
    exact (List.mem_append.mp h).imp_right fun hh => ⟨exc, hh⟩
  · rw [rescue_of_terminate hexit] at h
    exact .inl h
  · rw [rescue_of_ok hexit] at h
    exact .inl h

/-! ### What holds between the start and the end of a run that has not terminated -/

/-- The relation holds between the start, what occurred, and the end. -/
def Keeps (R : S → List O → S → Prop) (s : S) (r : Run S O E) : Prop :=
  r.exit ≠ .error .terminate → R s r.log r.state

/-- What holds along two runs holds along both of them together. -/
def Composes (R : S → List O → S → Prop) : Prop :=
  ∀ {a b c os os'}, R a os b → R b os' c → R a (os ++ os') c

section keeps

variable {R Q : S → List O → S → Prop}

lemma Keeps.skip (h : R s [] s) : Keeps R s (skip s : Run S O E) := fun _ => h

lemma Keeps.behind {s' : S} (h : Keeps R s' r)
    (ho : R s' r.log r.state → Q s (o :: r.log) r.state) : Keeps Q s (r.behind o) :=
  fun hlive => ho (h hlive)

lemma Keeps.andThen (hR : Composes R) (h : Keeps R s r)
    (hnext : R s r.log r.state → Keeps R r.state (next r.state)) :
    Keeps R s (r.andThen next) := by
  rcases hexit : r.exit with exit | ⟨⟩
  · rw [andThen_of_error hexit]
    exact h
  · rw [andThen_of_ok hexit]
    have hs : R s r.log r.state := h (by simp [hexit])
    exact fun hlive => hR hs (hnext hs hlive)

/-- A destructor is run in the state the block ends in, however it ends. -/
lemma Keeps.leave {s' : S} (h : Keeps R s' r)
    (hdestroy : ∀ m, R s' r.log r.state → (destroy m r.state).exit ≠ .error .terminate →
      Q s (r.log ++ (destroy m r.state).log) (destroy m r.state).state) :
    Keeps Q s (r.leave n destroy) := by
  rcases hexit : r.exit with (exc | _) | ⟨⟩
  · rw [leave_of_thrown hexit]
    have hs : R s' r.log r.state := h (by simp [hexit])
    intro hlive
    refine hdestroy (n + 1) hs fun hterm => ?_
    simp [hterm] at hlive
  · rw [leave_of_terminate hexit]
    exact fun hlive => absurd hexit hlive
  · rw [leave_of_ok hexit, andThen_of_ok hexit]
    exact hdestroy n (h (by simp [hexit]))

lemma Keeps.rescue (hR : Composes R) (h : Keeps R s r)
    (hhandler : ∀ exc, R s r.log r.state → Keeps R r.state (handler exc r.state)) :
    Keeps R s (r.rescue handler) := by
  rcases hexit : r.exit with (exc | _) | ⟨⟩
  · rw [rescue_of_thrown hexit]
    have hs : R s r.log r.state := h (by simp [hexit])
    exact fun hlive => hR hs (hhandler exc hs hlive)
  · rw [rescue_of_terminate hexit]
    exact h
  · rw [rescue_of_ok hexit]
    exact h

end keeps

/-! ### Two runs in lockstep -/

/-- The runs end in related states and in the same way, and the same occurred in both, as far as
`f` tells. -/
structure Lockstep {V : Type*} (R : S → S → Prop) (f : O → V) (r r' : Run S O E) : Prop where
  state : R r.state r'.state
  log : r.log.map f = r'.log.map f
  exit : r.exit = r'.exit

section lockstep

variable {V : Type*} {R : S → S → Prop} {f : O → V} {r r' : Run S O E} {s s' : S}

lemma Lockstep.skip (h : R s s') : Lockstep R f (skip s : Run S O E) (skip s') := ⟨h, rfl, rfl⟩

lemma Lockstep.single {o o' : O} {exit : Except (Exit E) Unit} (h : R s s') (ho : f o = f o') :
    Lockstep R f (single s o exit) (single s' o' exit) := by
  refine ⟨h, ?_, rfl⟩
  simp only [Run.single, List.map_cons, ho, List.map_nil]

lemma Lockstep.behind {o o' : O} (h : Lockstep R f r r') (ho : f o = f o') :
    Lockstep R f (r.behind o) (r'.behind o') :=
  ⟨h.state, by simp only [behind_log, List.map_cons, ho, h.log], h.exit⟩

/-- What runs on from related states. -/
lemma Lockstep.append {q q' : Run S O E} (h : Lockstep R f r r') (hq : Lockstep R f q q')
    {exit exit' : Except (Exit E) Unit} (hexit : exit = exit') :
    Lockstep R f ⟨q.state, r.log ++ q.log, exit⟩ ⟨q'.state, r'.log ++ q'.log, exit'⟩ :=
  ⟨hq.state, by simp only [List.map_append, h.log, hq.log], hexit⟩

lemma Lockstep.andThen {next next' : S → Run S O E} (h : Lockstep R f r r')
    (hnext : ∀ {t t'}, R t t' → Lockstep R f (next t) (next' t')) :
    Lockstep R f (r.andThen next) (r'.andThen next') := by
  have hn := hnext h.state
  rcases hexit : r.exit with exit | ⟨⟩
  · rw [andThen_of_error hexit, andThen_of_error (h.exit.symm.trans hexit)]
    exact h
  · rw [andThen_of_ok hexit, andThen_of_ok (h.exit.symm.trans hexit)]
    exact h.append hn hn.exit

lemma Lockstep.leave {n : ℕ} {destroy destroy' : ℕ → S → Run S O E} (h : Lockstep R f r r')
    (hdestroy : ∀ m {t t'}, R t t' → Lockstep R f (destroy m t) (destroy' m t')) :
    Lockstep R f (r.leave n destroy) (r'.leave n destroy') := by
  have hd := hdestroy (n + 1) h.state
  rcases hexit : r.exit with (exc | _) | ⟨⟩
  · rw [leave_of_thrown hexit, leave_of_thrown (h.exit.symm.trans hexit)]
    exact h.append hd (by rw [hd.exit])
  · rw [leave_of_terminate hexit, leave_of_terminate (h.exit.symm.trans hexit)]
    exact h
  · rw [leave_of_ok hexit, leave_of_ok (h.exit.symm.trans hexit)]
    exact h.andThen (hdestroy n)

lemma Lockstep.rescue {handler handler' : E → S → Run S O E} (h : Lockstep R f r r')
    (hhandler : ∀ exc {t t'}, R t t' → Lockstep R f (handler exc t) (handler' exc t')) :
    Lockstep R f (r.rescue handler) (r'.rescue handler') := by
  rcases hexit : r.exit with (exc | _) | ⟨⟩
  · have hh := hhandler exc h.state
    rw [rescue_of_thrown hexit, rescue_of_thrown (h.exit.symm.trans hexit)]
    exact h.append hh hh.exit
  · rw [rescue_of_terminate hexit, rescue_of_terminate (h.exit.symm.trans hexit)]
    exact h
  · rw [rescue_of_ok hexit, rescue_of_ok (h.exit.symm.trans hexit)]
    exact h

end lockstep

/-! ### What decides how a run ends -/

/-- No run fails without an occurrence that failed. -/
def Traced (exitOf : O → Except (Exit E) Unit) (r : Run S O E) : Prop :=
  (∀ o ∈ r.log, exitOf o = .ok ()) → r.exit = .ok ()

section traced

variable {exitOf : O → Except (Exit E) Unit}

lemma Traced.skip : Traced exitOf (skip s : Run S O E) := fun _ => rfl

lemma Traced.single (exitOf : O → Except (Exit E) Unit) (s : S) (o : O) :
    Traced exitOf (single s o (exitOf o)) := fun h => h o (List.mem_singleton_self o)

lemma Traced.behind (h : Traced exitOf r) : Traced exitOf (r.behind o) := fun hlog =>
  h fun o' ho' => hlog o' (List.mem_cons_of_mem _ ho')

lemma Traced.andThen (h : Traced exitOf r) (hnext : Traced exitOf (next r.state)) :
    Traced exitOf (r.andThen next) := by
  rcases hexit : r.exit with exit | ⟨⟩
  · rw [andThen_of_error hexit]
    exact h
  · rw [andThen_of_ok hexit]
    exact fun hlog => hnext fun o ho => hlog o (List.mem_append_right _ ho)

lemma Traced.leave (h : Traced exitOf r) (hdestroy : ∀ m, Traced exitOf (destroy m r.state)) :
    Traced exitOf (r.leave n destroy) := by
  rcases hexit : r.exit with (exc | _) | ⟨⟩
  · rw [leave_of_thrown hexit]
    intro hlog
    have hok := h fun o ho => hlog o (List.mem_append_left _ ho)
    rw [hexit] at hok
    cases hok
  · rw [leave_of_terminate hexit]
    exact h
  · rw [leave_of_ok hexit]
    exact h.andThen (hdestroy n)

lemma Traced.rescue (h : Traced exitOf r) : Traced exitOf (r.rescue handler) := by
  rcases hexit : r.exit with (exc | _) | ⟨⟩
  · rw [rescue_of_thrown hexit]
    intro hlog
    have hok := h fun o ho => hlog o (List.mem_append_left _ ho)
    rw [hexit] at hok
    cases hok
  · rw [rescue_of_terminate hexit]
    exact h
  · rw [rescue_of_ok hexit]
    exact h

end traced

/-- How the first occurrence that failed ended. -/
def firstFailure (exitOf : O → Except (Exit E) Unit) : List O → Except (Exit E) Unit
  | [] => .ok ()
  | o :: os => match exitOf o with
    | .ok () => firstFailure exitOf os
    | .error exit => .error exit

/-- A run ends the way its first failure does. -/
def Decided (exitOf : O → Except (Exit E) Unit) (r : Run S O E) : Prop :=
  r.exit = firstFailure exitOf r.log

section decided

variable {exitOf : O → Except (Exit E) Unit}

lemma firstFailure_append (os os' : List O) : firstFailure exitOf (os ++ os') =
    match firstFailure exitOf os with
    | .ok () => firstFailure exitOf os'
    | .error exit => .error exit := by
  induction os with
  | nil => rfl
  | cons o os ih =>
    rcases ho : exitOf o with exit | ⟨⟩
    · simp only [List.cons_append, firstFailure, ho]
    · simp only [List.cons_append, firstFailure, ho, ih]

/-- Nothing failed exactly if every occurrence went well. -/
lemma firstFailure_eq_ok {os : List O} :
    firstFailure exitOf os = .ok () ↔ ∀ o ∈ os, exitOf o = .ok () := by
  induction os with
  | nil => simp [firstFailure]
  | cons o os ih =>
    rcases ho : exitOf o with exit | ⟨⟩
    · simp [firstFailure, ho]
    · simp [firstFailure, ho, ih]

/-- The first failure, with what went well before it. -/
lemma firstFailure_eq_error {os : List O} {exit : Exit E} :
    firstFailure exitOf os = .error exit ↔ ∃ before o after, os = before ++ o :: after ∧
      (∀ o' ∈ before, exitOf o' = .ok ()) ∧ exitOf o = .error exit := by
  constructor
  · intro h
    induction os with
    | nil => cases h
    | cons o os ih =>
      rcases ho : exitOf o with exit' | ⟨⟩
      · simp only [firstFailure, ho] at h
        exact ⟨[], o, os, rfl, by simp, ho.trans h⟩
      · simp only [firstFailure, ho] at h
        obtain ⟨before, o', after, rfl, hbefore, hexit⟩ := ih h
        refine ⟨o :: before, o', after, rfl, ?_, hexit⟩
        exact List.forall_mem_cons.mpr ⟨ho, hbefore⟩
  · rintro ⟨before, o, after, rfl, hbefore, ho⟩
    simp only [firstFailure_append, firstFailure_eq_ok.mpr hbefore, firstFailure, ho]

lemma Decided.skip : Decided exitOf (skip s : Run S O E) := rfl

lemma Decided.single (exitOf : O → Except (Exit E) Unit) (s : S) (o : O) :
    Decided exitOf (single s o (exitOf o)) := by
  rcases ho : exitOf o with exit | ⟨⟩ <;> simp [Decided, Run.single, firstFailure, ho]

lemma Decided.behind (h : Decided exitOf r) (ho : exitOf o = .ok ()) :
    Decided exitOf (r.behind o) := by
  simpa [Decided, firstFailure, ho] using h

lemma Decided.andThen (h : Decided exitOf r)
    (hnext : r.exit = .ok () → Decided exitOf (next r.state)) :
    Decided exitOf (r.andThen next) := by
  rcases hexit : r.exit with exit | ⟨⟩
  · rw [andThen_of_error hexit]
    exact h
  · have hlog : firstFailure exitOf r.log = .ok () := h.symm.trans hexit
    rw [andThen_of_ok hexit]
    simp only [Decided, firstFailure_append, hlog]
    exact hnext hexit

/-- **The first failure stays the one that counts** while the blocks around it are left, as long
as no destructor fails with an exception in flight. -/
theorem Decided.leave (h : Decided exitOf r) (hdestroy : Decided exitOf (destroy n r.state))
    (hsilent : ∀ exc, r.exit = .error (.thrown exc) → (destroy (n + 1) r.state).exit = .ok ()) :
    Decided exitOf (r.leave n destroy) := by
  rcases hexit : r.exit with (exc | _) | ⟨⟩
  · have hlog : firstFailure exitOf r.log = .error (.thrown exc) := h.symm.trans hexit
    rw [leave_of_thrown hexit]
    simp only [Decided, hsilent exc hexit, firstFailure_append, hlog]
  · rw [leave_of_terminate hexit]
    exact h
  · rw [leave_of_ok hexit]
    exact h.andThen fun _ => hdestroy

end decided

end Run

end MimicPP.Unwinding

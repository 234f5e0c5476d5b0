/-
# Operations that change a state, report, and may fail

A failed operation is not undone: what it did before the failure stays, and so do its reports.
`Run ε σ α` is therefore a function from a state to an `Outcome`, which always has a state and
reports and only its result may be a failure.

`Run` is a monad.  The laws that say what a composite run does to the state are the equations
`pure_apply`, `bind_apply` and those of the primitive runs below; a proof about an operation starts
from them and not from the monad's definition.
-/
import BehaviorGraph.Report

namespace BehaviorGraph

/-! ## 1. Outcomes -/

/-- What an operation leaves behind: its result, **the state as it then is, also after a failure**,
and the reports it made, in order. -/
structure Outcome (ε σ α : Type) where
  result : Except ε α
  state : σ
  reports : List Report

/-- Put earlier reports in front. -/
def Outcome.after {ε σ α : Type} (earlier : List Report) (o : Outcome ε σ α) : Outcome ε σ α :=
  { o with reports := earlier ++ o.reports }

/-- An operation on a state of type `σ` that may fail with `ε`. -/
def Run (ε σ α : Type) : Type := σ → Outcome ε σ α

namespace Run

variable {ε ε' σ τ α β : Type}

/-! ## 2. Composition -/

/-- Do nothing and return `a`. -/
protected def pure (a : α) : Run ε σ α := fun s => ⟨.ok a, s, []⟩

/-- Run `m`, then what `f` makes of its value.  A failure of `m` ends the run. -/
protected def bind (m : Run ε σ α) (f : α → Run ε σ β) : Run ε σ β := fun s =>
  match m s with
  | ⟨.ok a, s', reports⟩ => (f a s').after reports
  | ⟨.error e, s', reports⟩ => ⟨.error e, s', reports⟩

instance : Monad (Run ε σ) where
  pure := Run.pure
  bind := Run.bind

/-- Read the state. -/
def state : Run ε σ σ := fun s => ⟨.ok s, s, []⟩

/-- Replace the state. -/
def put (s : σ) : Run ε σ Unit := fun _ => ⟨.ok (), s, []⟩

/-- Change the state by a function. -/
def update (f : σ → σ) : Run ε σ Unit := fun s => ⟨.ok (), f s, []⟩

/-- Fail; the state stays. -/
def fail (e : ε) : Run ε σ α := fun s => ⟨.error e, s, []⟩

/-- Make one report. -/
def report (r : Report) : Run ε σ Unit := fun s => ⟨.ok (), s, [r]⟩

/-- Make one log entry. -/
def log (level : Level) (text : String) : Run ε σ Unit := report (.entry level (some text))

/-- Succeed or fail as a given result says. -/
def ofExcept : Except ε α → Run ε σ α
  | .ok a => Run.pure a
  | .error e => fail e

/-- Read a part of the state. -/
def read (f : σ → α) : Run ε σ α := fun s => ⟨.ok (f s), s, []⟩

/-- Run `m` on a part of a larger state: `view` reads the part, `store` writes it back, and `blame`
turns a failure of the part into one of the whole. -/
def within (view : τ → σ) (store : σ → τ → τ) (blame : ε → ε') (m : Run ε σ α) : Run ε' τ α :=
  fun t =>
    match m (view t) with
    | ⟨.ok a, s, reports⟩ => ⟨.ok a, store s t, reports⟩
    | ⟨.error e, s, reports⟩ => ⟨.error (blame e), store s t, reports⟩

/-- Change only how failures are named. -/
def mapFailure (blame : ε → ε') (m : Run ε σ α) : Run ε' σ α :=
  within id (fun s _ => s) blame m

/-- Run `m` for every element of a list, in order. -/
def each (m : α → Run ε σ Unit) : List α → Run ε σ Unit
  | [] => Run.pure ()
  | a :: rest => Run.bind (m a) fun _ => each m rest

/-! ## 3. What the pieces do -/

theorem pure_apply (a : α) (s : σ) : (pure a : Run ε σ α) s = ⟨.ok a, s, []⟩ := rfl

theorem state_apply (s : σ) : (state : Run ε σ σ) s = ⟨.ok s, s, []⟩ := rfl

theorem bind_ok {m : Run ε σ α} {f : α → Run ε σ β} {s s' : σ} {a : α} {reports : List Report}
    (h : m s = ⟨.ok a, s', reports⟩) : (m >>= f) s = (f a s').after reports := by
  show Run.bind m f s = _
  simp [Run.bind, h]

theorem bind_error {m : Run ε σ α} {f : α → Run ε σ β} {s s' : σ} {e : ε} {reports : List Report}
    (h : m s = ⟨.error e, s', reports⟩) : (m >>= f) s = ⟨.error e, s', reports⟩ := by
  show Run.bind m f s = _
  simp [Run.bind, h]

end Run

end BehaviorGraph

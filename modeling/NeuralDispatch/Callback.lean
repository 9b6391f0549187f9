import NeuralDispatch.Execution

/-!
# Callbacks

Preparations and executions report through a callback, which keeps the first notification it gets
and ignores all others: `result?_notifyAll` says so of any series of notifications.
-/

namespace NeuralDispatch

/-- A place for one result (`Slot`). -/
structure Callback (α : Type) where
  result? : Option α := none

namespace Callback

variable {α : Type}

/-- A callback that nothing has been reported to. -/
def new : Callback α := {}

def isNotified (c : Callback α) : Bool := c.result?.isSome

/-- Reports a result, and says whether it was the first (`set`). -/
def notify (c : Callback α) (a : α) : Callback α × Bool :=
  match c.result? with
  | some _ => (c, false)
  | none => (⟨some a⟩, true)

/-- The callback after a series of notifications. -/
def notifyAll (c : Callback α) (results : List α) : Callback α :=
  results.foldl (fun c a => (c.notify a).1) c

@[simp] theorem result?_notify (c : Callback α) (a : α) :
    (c.notify a).1.result? = c.result?.or (some a) := by
  rcases c with ⟨_ | b⟩ <;> rfl

@[simp] theorem isNotified_notify (c : Callback α) (a : α) :
    (c.notify a).1.isNotified = true := by
  rcases c with ⟨_ | b⟩ <;> rfl

/-- A notification is accepted if it is the first. -/
@[simp] theorem notify_snd (c : Callback α) (a : α) : (c.notify a).2 = !c.isNotified := by
  rcases c with ⟨_ | b⟩ <;> rfl

theorem result?_notifyAll (c : Callback α) (results : List α) :
    (c.notifyAll results).result? = c.result?.or results.head? := by
  induction results generalizing c with
  | nil => simp [notifyAll]
  | cons a rest ih =>
    have h : c.notifyAll (a :: rest) = (c.notify a).1.notifyAll rest := rfl
    rw [h, ih, result?_notify]
    cases c.result? <;> rfl

end Callback

/-- How a preparation ended, with the prepared model if it succeeded (`PreparedResult`). -/
structure Preparation (μ : Type) where
  status : Status
  model? : Option μ := none

/-- A preparation as a callback keeps it: no model without success. -/
def Preparation.sanitize {μ : Type} (p : Preparation μ) : Preparation μ :=
  if p.status.isOk then p else ⟨p.status, none⟩

/-- A callback for the preparation of a model (`PreparedModelCallback`). -/
abbrev PrepareCallback (μ : Type) := Callback (Preparation μ)

/-- Reports the end of a preparation, and says whether it was the first report (`notify`). -/
def PrepareCallback.report {μ : Type} (c : PrepareCallback μ) (p : Preparation μ) :
    PrepareCallback μ × Bool :=
  c.notify p.sanitize

/-- The callback after a series of reports. -/
def PrepareCallback.reportAll {μ : Type} (c : PrepareCallback μ) (ps : List (Preparation μ)) :
    PrepareCallback μ :=
  c.notifyAll (ps.map (·.sanitize))

/-- A callback for an execution (`ExecutionCallback`). -/
abbrev ExecuteCallback := Callback Execution

end NeuralDispatch

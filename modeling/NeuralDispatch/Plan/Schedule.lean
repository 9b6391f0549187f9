import NeuralDispatch.Model.Basic

/-!
# Schedules

Once every operation is assigned to a device, operations are put into groups that run on one device
without a break.  An operation is ready when everything it reads is computed.  Ready operations wait
in a queue for their device; the first queue that is not empty is emptied into a new group, and what
becomes ready on the way joins the end of its own queue, so that it may still get into the group.
-/

namespace NeuralDispatch

/-- Operations of one device that run without a break. -/
structure Group where
  /-- The position of the device. -/
  device : Nat
  operations : List Nat
  deriving DecidableEq, Inhabited, Repr

/-- What is known while groups are made. -/
structure Frontier where
  /-- How many inputs of each operation are still to be computed. -/
  missing : List Nat
  /-- The ready operations of each device, in the order in which they became ready. -/
  queues : List (List Nat)
  deriving DecidableEq, Inhabited, Repr

namespace Frontier

/-- Puts a ready operation at the end of the queue of its device. -/
def enqueue (f : Frontier) (assignment : List Nat) (i : Nat) : Frontier :=
  { f with queues := f.queues.modify (assignment.getD i 0) (· ++ [i]) }

/-- How many inputs of each operation are computed by operations. -/
def initialCounts (m : Model) : List Nat :=
  m.operations.map fun op => op.inputs.countP fun o => (m.producer? o).isSome

/-- The frontier before the first group: operations that read nothing computed are ready. -/
def initial (m : Model) (assignment : List Nat) (deviceCount : Nat) : Frontier :=
  let missing := initialCounts m
  let ready := (List.range m.operations.length).filter fun i => missing.getD i 0 == 0
  ready.foldl (fun f i => f.enqueue assignment i)
    { missing, queues := List.replicate deviceCount [] }

/-- One more input of an operation is computed.  With the last one it becomes ready. -/
def arrive (assignment : List Nat) (f : Frontier) (i : Nat) : Frontier :=
  let left := f.missing.getD i 0 - 1
  let f := { f with missing := f.missing.set i left }
  if left = 0 then f.enqueue assignment i else f

/-- An operation is put into a group, so everything it writes is computed. -/
def complete (m : Model) (assignment : List Nat) (f : Frontier) (i : Nat) : Frontier :=
  match m.operations[i]? with
  | none => f
  | some op => (op.outputs.flatMap m.readers).foldl (arrive assignment) f

/-- Empties the queue of a device: the operations in order, and the frontier afterwards. -/
def drain (m : Model) (assignment : List Nat) (device : Nat) :
    (fuel : Nat) → Frontier → List Nat × Frontier
  | 0, f => ([], f)
  | fuel + 1, f =>
    match f.queues.getD device [] with
    | [] => ([], f)
    | i :: rest =>
      let f := { f with queues := f.queues.set device rest }
      let (operations, f) := drain m assignment device fuel (f.complete m assignment i)
      (i :: operations, f)

/-- The groups from a frontier on.  `fuel` bounds the number of groups, and `size` that of the
operations in one. -/
def groups (m : Model) (assignment : List Nat) (size : Nat) : (fuel : Nat) → Frontier → List Group
  | 0, _ => []
  | fuel + 1, f =>
    match f.queues.findIdx? (!·.isEmpty) with
    | none => []
    | some device =>
      let (operations, f) := drain m assignment device size f
      ⟨device, operations⟩ :: groups m assignment size fuel f

end Frontier

/-- The groups that an assignment leads to.  Every operation is in at most one group and no group is
empty, so there are no more groups than operations, and no group has more. -/
def schedule (m : Model) (assignment : List Nat) (deviceCount : Nat) : List Group :=
  let count := m.operations.length
  Frontier.groups m assignment count count (Frontier.initial m assignment deviceCount)

end NeuralDispatch

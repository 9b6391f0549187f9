import NeuralDispatch.Model.Basic

/-!
# Evaluation order

An operation depends on the producer of each of its inputs.  `topologicalOrder` lists the
operations so that each one follows those it depends on, by a walk with a stack: the top is taken,
listed unless it was before, and every dependent whose last dependency this was is put on the
stack.  Which of several possible orders comes out is part of the behaviour, so the order in which
dependents are pushed is fixed: the first dependent in order of reading ends up on top.
-/

namespace NeuralDispatch

namespace Model

/-- The dependencies, as pairs of the operation that writes and the one that reads: one for each
input that is computed, in the order of the operations and of their inputs. -/
def edges (m : Model) : List (Nat × Nat) :=
  m.operations.zipIdx.flatMap fun (op, reader) =>
    op.inputs.filterMap fun o => (m.producer? o).map (·, reader)

/-- The operations that depend on one, in order of reading. -/
def dependents (edges : List (Nat × Nat)) (i : Nat) : List Nat :=
  (edges.filter (·.1 == i)).map (·.2)

/-- Whether all that an operation depends on is among the listed ones. -/
def isReady (edges : List (Nat × Nat)) (listed : List Nat) (i : Nat) : Bool :=
  edges.all fun e => e.2 != i || listed.contains e.1

/-- The walk (`Topo`).  `listed` holds what is listed so far, the latest first.  Every turn takes
one entry off the stack, and no more entries are ever pushed than there are operations and
dependencies, so `fuel` of that number is enough. -/
def walk (edges : List (Nat × Nat)) : (fuel : Nat) → (stack listed : List Nat) → List Nat
  | 0, _, listed => listed
  | _ + 1, [], listed => listed
  | fuel + 1, i :: stack, listed =>
    if listed.contains i then walk edges fuel stack listed
    else
      let listed := i :: listed
      walk edges fuel ((dependents edges i).filter (isReady edges listed) ++ stack) listed

/-- The order of the walk, complete or not: what lies on a cycle, or behind one, is never
reached. -/
def walkOrder (m : Model) : List Nat :=
  let count := m.operations.length
  let roots := (List.range count).filter (isReady m.edges [])
  (walk m.edges (count + m.edges.length) roots.reverse []).reverse

/-- The operations in an order in which each follows those it depends on (`topological_order`). -/
def topologicalOrder (m : Model) : Except ModelError (List Nat) :=
  if m.walkOrder.length = m.operations.length then .ok m.walkOrder else .error .cycle

end Model

end NeuralDispatch

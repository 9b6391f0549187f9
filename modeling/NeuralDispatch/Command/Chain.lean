import NeuralDispatch.Model.Builder

/-!
# The chain

The model that the `partition` command splits: operations in a row that add one half and round down
by turns, on a tensor of four numbers.  `Chain.expected` is what must come out, computed number by
number without any model.
-/

namespace NeuralDispatch.Chain

/-- The numbers that go into the chain: -1.5, -0.25, 0.5 and 2.75. -/
def start : List Single := [⟨0xbfc00000⟩, ⟨0xbe800000⟩, ⟨0x3f000000⟩, ⟨0x40300000⟩]

/-- What is added in every other operation: one half. -/
def addend : Single := ⟨0x3f000000⟩

/-- A tensor of the chain. -/
def tensor : Operand := { type := .tensorFloat32, dimensions := [4] }

/-- Appends operations to a chain that ends in the operand `last`, counting from `i`: the model, and
the operand in which it ends. -/
def extend : (count i last : Nat) → Model → Except ModelError (Model × Nat)
  | 0, _, last, m => .ok (m, last)
  | count + 1, i, last, m => do
    let next := m.operands.length
    let m := m.addOperand tensor
    let m ←
      if i % 2 = 0 then m.addOperation .add [last, 1] [next]
      else m.addOperation .floor [last] [next]
    extend count (i + 1) next m

/-- The chain of a number of operations (`build_chain`).  The input is operand 0 and the addend
operand 1. -/
def model (length : Nat) : Except ModelError Model := do
  let m := (Model.addOperand {} tensor).addOperand tensor
  let m ← m.setValue 1 (Bytes.ofSingles (List.replicate 4 addend))
  let (m, last) ← extend length 0 0 m
  match m.identify [0] [last] with
  | (m, .ok ()) => return m
  | (_, .error e) => throw e

/-- What operation `i` of a chain makes of a number. -/
def advance (x : Single) (i : Nat) : Single := if i % 2 = 0 then x.add addend else x.floor

/-- What a chain makes of its input (`reference`). -/
def expected (length : Nat) : List Single :=
  start.map fun x => (List.range length).foldl advance x

end NeuralDispatch.Chain

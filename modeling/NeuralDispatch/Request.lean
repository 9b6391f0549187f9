import NeuralDispatch.Bytes

/-!
# Execution requests

A request binds each input and output of a model to a region of one of its memory pools.

* `read` gives the bytes of a region that lies inside its pool.
* `write?` fills a region from its start with no more bytes than it has.  Only the bytes that are
  written have to lie inside the pool.
* `ofBuffers` makes a pool of each buffer.  A region states its length in 32 bits, so that the
  region over a longer buffer spans only the beginning of it.
-/

namespace NeuralDispatch

/-- A region of memory that an input or output is bound to (`RequestArgument`, `DataLocation`). -/
structure Argument where
  pool : Nat := 0
  offset : Nat := 0
  length : Nat := 0
  /-- The extents of the value, where they differ from those that the model states. -/
  dimensions : List UInt32 := []
  hasNoValue : Bool := false
  deriving DecidableEq, Inhabited, Repr

/-- The arguments of one execution and the memory they lie in. -/
structure Request where
  inputs : List Argument := []
  outputs : List Argument := []
  pools : List Bytes := []
  deriving DecidableEq, Inhabited, Repr

namespace Request

/-- The length that a region states for a buffer.  It has 32 bits, and wraps around. -/
def regionLength (length : Nat) : Nat := length % UInt32.size

theorem regionLength_of_lt {length : Nat} (h : length < UInt32.size) :
    regionLength length = length := Nat.mod_eq_of_lt h

theorem regionLength_lt (length : Nat) : regionLength length < UInt32.size :=
  Nat.mod_lt _ (by decide)

theorem regionLength_le (length : Nat) : regionLength length ≤ length := Nat.mod_le _ _

/-- A request with one pool for each input, filled with it, and one pool of zeros for each output,
as long as it is stated to be (`from_buffers`).  Each region starts where its pool does. -/
def ofBuffers (inputs : List Bytes) (outputLengths : List Nat) : Request where
  inputs := inputs.zipIdx.map fun (bytes, i) => { pool := i, length := regionLength bytes.length }
  outputs := outputLengths.zipIdx.map fun (length, i) =>
    { pool := inputs.length + i, length := regionLength length }
  pools := inputs ++ outputLengths.map fun length => List.replicate length 0

/-- The bytes of a region, unless it sticks out of its pool. -/
def read (r : Request) (a : Argument) : Option Bytes := do
  let pool ← r.pools[a.pool]?
  if a.offset + a.length ≤ pool.length then some ((pool.drop a.offset).take a.length) else none

/-- The pool with bytes put over those from `offset` on. -/
def overwrite (pool : Bytes) (offset : Nat) (bytes : Bytes) : Bytes :=
  pool.take offset ++ bytes ++ pool.drop (offset + bytes.length)

theorem length_overwrite {pool : Bytes} {offset : Nat} {bytes : Bytes}
    (inside : offset + bytes.length ≤ pool.length) :
    (overwrite pool offset bytes).length = pool.length := by
  simp only [overwrite, List.length_append, List.length_take, List.length_drop]
  omega

/-- The request after writing into a region, unless the bytes are more than the region has or do
not all fall into the pool. -/
def write? (r : Request) (a : Argument) (bytes : Bytes) : Option Request :=
  if a.length < bytes.length then none
  else do
    let pool ← r.pools[a.pool]?
    if a.offset + bytes.length ≤ pool.length then
      some { r with pools := r.pools.set a.pool (overwrite pool a.offset bytes) }
    else none

/-- The bytes of an output, if there is such an output and its region can be read. -/
def output (r : Request) (i : Nat) : Option Bytes := do r.read (← r.outputs[i]?)

end Request

end NeuralDispatch

import NeuralDispatch.Proofs.Buffers
import NeuralDispatch.Proofs.Regions

/-!
# What a run leaves in memory

A run computes all values first and then writes the outputs one after the other.  An output that
does not fit its region is left out, and the run goes on; an output that has no region or no value
ends the run, and what has been written before it stays.

* `Outgoing` — a value with the region that it is to leave through.
* `writeOutputs_append` — the writes of some outputs, and then those of the rest.
* `Leaves` — the outputs that a run gets to, by how it ends.
* `run_footprint` — a run changes the bytes that those of them take which fit, and nothing else.
* `run_spilled` — a run that fails and has written an output.
-/

namespace NeuralDispatch.Interpreter

open Answer Model

/-! ## Values on their way out -/

/-- A value with the region of an output. -/
structure Outgoing where
  region : Argument
  value : Tensor
  deriving DecidableEq, Repr

namespace Outgoing

def write (x : Outgoing) : Write := ⟨x.region, Bytes.ofSingles x.value.data⟩

/-- What is reported of an output. -/
def shape (r : Request) (x : Outgoing) : OutputShape :=
  ⟨x.value.dimensions, decide (r.Admits x.write)⟩

theorem shape_congr {r r' : Request} (hsizes : r'.sizes = r.sizes) : shape r' = shape r := by
  funext x
  rw [shape, shape, decide_eq_decide.2 (Request.admits_congr hsizes)]

end Outgoing

/-- The value of an output with its region, if it has both. -/
def outgoing (v : Valuation) (r : Request) (entry : Nat × Nat) : Option Outgoing :=
  r.outputs[entry.2]?.bind fun region => (v entry.1).map (⟨region, ·⟩)

theorem outgoing_congr {v : Valuation} {r r' : Request} (houtputs : r'.outputs = r.outputs) :
    outgoing v r' = outgoing v r := by
  funext entry
  rw [outgoing, outgoing, houtputs]

/-! ## Writing -/

section Writing

variable {v : Valuation} {r : Request}

theorem writeOutputs_cons_some {e : Nat × Nat} {x : Outgoing} (h : outgoing v r e = some x)
    (rest : List (Nat × Nat)) :
    writeOutputs v (e :: rest) r =
      ((writeOutputs v rest (r.offer x.write)).1,
        (writeOutputs v rest (r.offer x.write)).2.map (x.shape r :: ·)) := by
  obtain ⟨region, hregion, hvalue⟩ := Option.bind_eq_some_iff.1 h
  obtain ⟨t, ht, rfl⟩ := Option.map_eq_some_iff.1 hvalue
  obtain ⟨o, position⟩ := e
  have hfits : (r.write? region (Bytes.ofSingles t.data)).isSome =
      decide (r.Admits ⟨region, Bytes.ofSingles t.data⟩) :=
    Bool.eq_iff_iff.2 ((Request.isSome_write? (w := ⟨region, _⟩)).trans decide_eq_true_iff.symm)
  rw [writeOutputs, show r.outputs[position]? = some region from hregion,
    show v o = some t from ht]
  dsimp only
  rw [hfits]
  rfl

theorem writeOutputs_cons_none {e : Nat × Nat} (h : outgoing v r e = none)
    (rest : List (Nat × Nat)) : writeOutputs v (e :: rest) r = (r, none) := by
  obtain ⟨o, position⟩ := e
  rw [writeOutputs]
  split
  · next region t hregion ht => simp [outgoing, hregion, ht] at h
  · rfl

/-- The writes of some outputs, and then those of the rest. -/
theorem writeOutputs_append {before : List (Nat × Nat)} {xs : List Outgoing}
    (h : before.mapM (outgoing v r) = some xs) (rest : List (Nat × Nat)) :
    writeOutputs v (before ++ rest) r =
      ((writeOutputs v rest (r.offerAll (xs.map (·.write)))).1,
        (writeOutputs v rest (r.offerAll (xs.map (·.write)))).2.map (xs.map (·.shape r) ++ ·)) := by
  have hbound := mapM_eq_some.1 h
  clear h
  induction before generalizing r xs with
  | nil =>
    obtain rfl := List.forall₂_nil_left_iff.1 hbound
    simp
  | cons e before ih =>
    obtain ⟨x, xs, hx, hxs, rfl⟩ := List.forall₂_cons_left_iff.1 hbound
    -- a write neither moves a region nor makes another one fit
    have hmoved : List.Forall₂ (fun e y => outgoing v (r.offer x.write) e = some y) before xs :=
      hxs.imp fun e' y hy => by rwa [outgoing_congr Request.outputs_offer]
    rw [List.cons_append, writeOutputs_cons_some hx, ih hmoved,
      Outgoing.shape_congr Request.sizes_offer, List.map_cons, Request.offerAll_cons,
      Option.map_map, List.map_cons]
    rfl

/-- Outputs that all have a region and a value are all written, as far as they fit. -/
theorem writeOutputs_of_bound {entries : List (Nat × Nat)} {xs : List Outgoing}
    (h : entries.mapM (outgoing v r) = some xs) :
    writeOutputs v entries r =
      (r.offerAll (xs.map (·.write)), some (xs.map (·.shape r))) := by
  have happend := writeOutputs_append h []
  rw [List.append_nil] at happend
  rw [happend, writeOutputs]
  simp

/-- The first output without a region or a value ends the writing. -/
theorem writeOutputs_of_unbound {before : List (Nat × Nat)} {xs : List Outgoing}
    (h : before.mapM (outgoing v r) = some xs) {e : Nat × Nat} (he : outgoing v r e = none)
    (after : List (Nat × Nat)) :
    writeOutputs v (before ++ e :: after) r = (r.offerAll (xs.map (·.write)), none) := by
  have he' : outgoing v (r.offerAll (xs.map (·.write))) e = none := by
    rw [outgoing_congr (r.offerAll_keeps _).2.1, he]
  rw [writeOutputs_append h, writeOutputs_cons_none he', Option.map_none]

end Writing

/-! ## Runs -/

section Runs

variable (m : Model) (r : Request)

/-- The outputs that a run gets to, with its report. -/
inductive Leaves : List Outgoing → Execution → Prop
  /-- No values are found. -/
  | refused {status : Status} (hvalues : values m r = .error status) : Leaves [] { status }
  /-- One of the outputs has no region or no value. -/
  | broken {v : Valuation} {before after : List (Nat × Nat)} {e : Nat × Nat} {xs : List Outgoing}
      (hvalues : values m r = .ok v) (hsplit : m.outputs.zipIdx = before ++ e :: after)
      (hbound : before.mapM (outgoing v r) = some xs) (hunbound : outgoing v r e = none) :
      Leaves xs { status := .invalidArgument }
  | complete {v : Valuation} {xs : List Outgoing} (hvalues : values m r = .ok v)
      (hbound : m.outputs.zipIdx.mapM (outgoing v r) = some xs) :
      Leaves xs {
        status := if ∀ x ∈ xs, r.Admits x.write then .success else .outputInsufficientSize
        shapes := xs.map (·.shape r) }

/-- What stays of the outputs that a run gets to. -/
def landed (xs : List Outgoing) : List Write :=
  (xs.map (·.write)).filter fun w => decide (r.Admits w)

variable {m r}

/-- A run whose outputs all have a region and a value writes those that fit. -/
theorem run_of_bound {v : Valuation} {xs : List Outgoing} (hvalues : values m r = .ok v)
    (hbound : m.outputs.zipIdx.mapM (outgoing v r) = some xs) :
    run m r = (r.offerAll (xs.map (·.write)), {
      status := if ∀ x ∈ xs, r.Admits x.write then .success else .outputInsufficientSize
      shapes := xs.map (·.shape r) }) := by
  have hall : (xs.map (·.shape r)).all (·.isSufficient) =
      decide (∀ x ∈ xs, r.Admits x.write) := by
    simp [Outgoing.shape, List.all_eq]
  rw [run, hvalues]
  dsimp only
  rw [writeOutputs_of_bound hbound]
  dsimp only
  simp only [hall, decide_eq_true_eq]

variable (m r)

theorem exists_leaves :
    ∃ xs, Leaves m r xs (run m r).2 ∧ (run m r).1 = r.offerAll (xs.map (·.write)) := by
  cases hvalues : values m r with
  | error status =>
    rw [run, hvalues]
    exact ⟨[], .refused hvalues, rfl⟩
  | ok v =>
    cases hbound : m.outputs.zipIdx.mapM (outgoing v r) with
    | some xs =>
      rw [run_of_bound hvalues hbound]
      exact ⟨xs, .complete hvalues hbound, rfl⟩
    | none =>
      obtain ⟨before, e, after, xs, hsplit, hbefore, he⟩ := exists_of_mapM_eq_none hbound
      rw [run, hvalues]
      dsimp only
      rw [hsplit, writeOutputs_of_unbound hbefore he]
      exact ⟨xs, .broken hvalues hsplit hbefore he, rfl⟩

variable {m r}

/-- A run that fails has written nothing, unless an output has no region or no value. -/
theorem Leaves.of_failed {xs : List Outgoing} {e : Execution} (h : Leaves m r xs e)
    (hfull : e.status ≠ .success) (hpartial : e.status ≠ .outputInsufficientSize) :
    xs = [] ∨ e.status = .invalidArgument ∧
      ∃ v entry, values m r = .ok v ∧ m.outputs.zipIdx[xs.length]? = some entry ∧
        outgoing v r entry = none := by
  cases h with
  | refused hvalues => exact .inl rfl
  | broken hvalues hsplit hbound hunbound =>
    refine .inr ⟨rfl, _, _, hvalues, ?_, hunbound⟩
    rw [hsplit, ← (mapM_eq_some.1 hbound).length_eq]
    simp
  | complete hvalues hbound =>
    split at hfull
    · exact absurd rfl hfull
    · next hnot =>
      rw [if_neg hnot] at hpartial
      exact absurd rfl hpartial

/-- A run that wants room has found a value and a region for every output. -/
theorem Leaves.exists_values {xs : List Outgoing} {e : Execution} (h : Leaves m r xs e)
    (hstatus : e.status = .outputInsufficientSize) :
    ∃ v, values m r = .ok v ∧ m.outputs.zipIdx.mapM (outgoing v r) = some xs ∧
      e.shapes = xs.map (·.shape r) := by
  cases h with
  | refused hvalues =>
    rcases values_cases m r with ⟨_, _, _, _, _, _, _, _, hv⟩ | hv | hv <;>
      cases hv.symm.trans hvalues <;> cases hstatus
  | broken hvalues hsplit hbound hunbound => cases hstatus
  | complete hvalues hbound => exact ⟨_, hvalues, hbound, rfl⟩

/-- A run that wants room has come to all outputs, and reports those as sufficient that it has
written. -/
theorem Leaves.of_insufficient {xs : List Outgoing} {e : Execution} (h : Leaves m r xs e)
    (hstatus : e.status = .outputInsufficientSize) :
    xs.length = m.outputs.length ∧ e.shapes = xs.map (·.shape r) := by
  obtain ⟨v, -, hbound, hshapes⟩ := h.exists_values hstatus
  refine ⟨?_, hshapes⟩
  rw [← (mapM_eq_some.1 hbound).length_eq, List.length_zipIdx]

variable (m r)

/-- A run changes the bytes that the outputs it gets to take, as far as they fit, and nothing else:
at each place the last of them counts.  So it leaves the memory as it was just if all that stays of
them was there before.  A run that ends neither with success nor for want of room has written
nothing, unless an output has no region or no value; then it has written those before.  One that
ends for want of room has written the outputs that it reports as sufficient. -/
theorem run_footprint :
    ∃ xs, Leaves m r xs (run m r).2 ∧
      (run m r).1.inputs = r.inputs ∧ (run m r).1.outputs = r.outputs ∧
      (run m r).1.sizes = r.sizes ∧
      (∀ p k, (run m r).1.byte? p k = (Write.overlay (landed r xs) p k).or (r.byte? p k)) ∧
      ((run m r).1 = r ↔
        ∀ p k b, Write.overlay (landed r xs) p k = some b → r.byte? p k = some b) ∧
      ((run m r).2.status ≠ .success → (run m r).2.status ≠ .outputInsufficientSize →
        xs = [] ∨ (run m r).2.status = .invalidArgument ∧
          ∃ v entry, values m r = .ok v ∧ m.outputs.zipIdx[xs.length]? = some entry ∧
            outgoing v r entry = none) ∧
      ((run m r).2.status = .outputInsufficientSize →
        xs.length = m.outputs.length ∧ (run m r).2.shapes = xs.map (·.shape r)) := by
  obtain ⟨xs, hleaves, hmemory⟩ := exists_leaves m r
  obtain ⟨hinputs, houtputs, hsizes⟩ := r.offerAll_keeps (xs.map (·.write))
  refine ⟨xs, hleaves, ?_⟩
  rw [hmemory]
  exact ⟨hinputs, houtputs, hsizes, r.byte?_offerAll _, Request.offerAll_eq_self_iff,
    hleaves.of_failed, hleaves.of_insufficient⟩

end Runs

/-! ## An output without a value -/

/-- An operation with two outputs, of which it computes the first. -/
def twins : Model := performAll {}
  (List.replicate 3 (.addOperand { type := .tensorFloat32, dimensions := [1] }) ++
    [.addOperation .relu [0] [1, 2], .identify [0] [1, 2]])

/-- The first output is written, and then the run fails for the second one. -/
theorem run_spilled :
    Built twins ∧ twins.validate = .ok () ∧
      (run twins (.ofBuffers [[0, 0, 0xc0, 0x3f]] [4, 4])).2.status = .invalidArgument ∧
      (Request.ofBuffers [[0, 0, 0xc0, 0x3f]] [4, 4]).output 0 = some [0, 0, 0, 0] ∧
      (run twins (.ofBuffers [[0, 0, 0xc0, 0x3f]] [4, 4])).1.output 0 =
        some [0, 0, 0xc0, 0x3f] :=
  ⟨⟨_, rfl⟩, by decide, by decide, by decide, by decide⟩

end NeuralDispatch.Interpreter

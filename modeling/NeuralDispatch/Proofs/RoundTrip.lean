import NeuralDispatch.Proofs.Growth
import NeuralDispatch.Proofs.Restore

/-!
# The round trip through the cache files

Encoding a model and decoding the two files gives the model back if the lifetimes of its operands
say what its lists of inputs and outputs say, exactly the constants hold bytes, and these are as
many as each takes.  Such a model need not be valid.

* `Settled` — the models that say so.
* `recounted` — a model whose readers are counted anew, as decoding counts them.
* `decode_encode_settled` — the two files of a settled model are decoded to the recounted model, or
  refused for the first operand that holds another number of bytes than it takes.
* `decode_encode_misfit` — a model whose files are refused for that.
-/

namespace NeuralDispatch

namespace Model

/-- Whether lifetimes and bytes agree with the lists of inputs and outputs and with each other. -/
structure Settled (m : Model) : Prop where
  output : ∀ (i : Nat) o, m.operands[i]? = some o → (o.lifetime = .modelOutput ↔ i ∈ m.outputs)
  input : ∀ (i : Nat) o, m.operands[i]? = some o →
    (o.lifetime = .modelInput ↔ i ∈ m.inputs ∧ i ∉ m.outputs)
  value : ∀ (i : Nat) o, m.operands[i]? = some o → (o.value.isSome = true ↔ o.isConstant = true)

instance (m : Model) : Decidable (Settled m) :=
  decidable_of_iff
    (∀ p ∈ m.operands.zipIdx, (p.1.lifetime = .modelOutput ↔ p.2 ∈ m.outputs) ∧
      (p.1.lifetime = .modelInput ↔ p.2 ∈ m.inputs ∧ p.2 ∉ m.outputs) ∧
      (p.1.value.isSome = true ↔ p.1.isConstant = true))
    ⟨fun h => ⟨fun i o ho => (h (o, i) (List.mem_zipIdx_iff_getElem?.2 ho)).1,
        fun i o ho => (h (o, i) (List.mem_zipIdx_iff_getElem?.2 ho)).2.1,
        fun i o ho => (h (o, i) (List.mem_zipIdx_iff_getElem?.2 ho)).2.2⟩,
      fun h p hp => by
        have ho := List.mem_zipIdx_iff_getElem?.1 hp
        exact ⟨h.output p.2 p.1 ho, h.input p.2 p.1 ho, h.value p.2 p.1 ho⟩⟩

/-- The model with the readers of each operand counted anew. -/
def recounted (m : Model) : Model :=
  { m with operands := m.operands.mapIdx fun i o => { o with consumers := m.readCount i } }

theorem recounted_operand {m : Model} {i : Nat} {o' : Operand}
    (h : m.recounted.operands[i]? = some o') :
    ∃ o, m.operands[i]? = some o ∧ o' = { o with consumers := m.readCount i } := by
  simp only [recounted, List.getElem?_mapIdx, Option.map_eq_some_iff] at h
  obtain ⟨o, ho, rfl⟩ := h
  exact ⟨o, ho, rfl⟩

theorem recounted_eq_self {m : Model}
    (h : ∀ (i : Nat) o, m.operands[i]? = some o → o.consumers = m.readCount i) :
    m.recounted = m := by
  refine Model.mk.injEq .. |>.mpr ⟨List.ext_getElem? fun i => ?_, rfl, rfl, rfl, rfl⟩
  rw [List.getElem?_mapIdx]
  cases ho : m.operands[i]? with
  | none => rfl
  | some o => rw [Option.map_some, ← h i o ho]

end Model

namespace Cache

open Answer Model

/-! ## What the files say of a settled model -/

/-- The lists of inputs and outputs tell each lifetime that a payload does not. -/
theorem restoredLifetime_of_settled {m : Model} (settled : Settled m) {i : Nat} {o : Operand}
    (ho : m.operands[i]? = some o) :
    Structure.restoredLifetime m i o.lifetime = o.lifetime := by
  have houtput := settled.output i o ho
  have hinput := settled.input i o ho
  unfold Structure.restoredLifetime
  by_cases hout : i ∈ m.outputs
  · have hlifetime : o.lifetime = .modelOutput := houtput.2 hout
    simp [hlifetime, hout]
  · by_cases hin : i ∈ m.inputs
    · have hlifetime : o.lifetime = .modelInput := hinput.2 ⟨hin, hout⟩
      simp [hlifetime, hout, hin]
    · -- neither list names the operand, so no call has marked it since it got its lifetime
      have hnotOutput : o.lifetime ≠ .modelOutput := fun h => hout (houtput.1 h)
      have hnotInput : o.lifetime ≠ .modelInput := fun h => hin (hinput.1 h).1
      revert hnotOutput hnotInput
      cases o.lifetime <;> simp [hout, hin, Lifetime.isConstant]

theorem skeleton_of_settled {m : Model} (settled : Settled m) :
    Structure.skeleton m =
      { m.recounted with operands := m.recounted.operands.map Constants.blank } := by
  refine Model.mk.injEq .. |>.mpr ⟨List.ext_getElem? fun i => ?_, rfl, rfl, rfl, rfl⟩
  rw [List.getElem?_map, recounted, List.getElem?_mapIdx, List.getElem?_mapIdx, Option.map_map]
  refine Option.map_congr fun o ho => ?_
  have hlifetime := restoredLifetime_of_settled settled ho
  simp only [Structure.restored, hlifetime]
  rfl

/-- A data cache depends on the bytes of the operands only. -/
theorem records_eq_filterMap (m : Model) :
    Constants.records m =
      (m.operands.map (·.value)).zipIdx.filterMap fun (value, i) => value.map (i, ·) := by
  unfold Constants.records
  rw [List.zipIdx_map, List.filterMap_map]
  rfl

theorem write_recounted (m : Model) : Constants.write m.recounted = Constants.write m := by
  have hvalues : m.recounted.operands.map (·.value) = m.operands.map (·.value) := by
    apply List.ext_getElem?
    intro i
    simp only [recounted, List.getElem?_map, List.getElem?_mapIdx, Option.map_map]
    rfl
  unfold Constants.write
  rw [records_eq_filterMap, hvalues, ← records_eq_filterMap]

theorem firstMisfit?_recounted (m : Model) :
    Constants.firstMisfit? m.recounted = Constants.firstMisfit? m := by
  have hzip : m.recounted.operands.zipIdx =
      m.operands.zipIdx.map fun p => ({ p.1 with consumers := m.readCount p.2 }, p.2) := by
    apply List.ext_getElem?
    intro i
    simp only [recounted, List.getElem?_zipIdx, List.getElem?_map, List.getElem?_mapIdx,
      Option.map_map, Nat.zero_add]
    rfl
  rw [Constants.firstMisfit?, hzip, List.findSome?_map]
  rfl

/-! ## Decoding what has been encoded -/

/-- The two files of a settled model are decoded to the model with its readers counted anew, unless
an operand holds another number of bytes than it takes: the first such operand is refused.  The
calls that give an operand bytes see to their number themselves, so it must have been added with
them.  The counts stay as they are if no reader was counted when an operand was added. -/
theorem decode_encode_settled {calls : List Call} {m : Model} (built : m = performAll {} calls)
    (settled : Settled m) (short : (Structure.write m).length < UInt32.size)
    (values : ∀ o ∈ m.operands, ∀ bytes ∈ o.value, bytes.length < UInt32.size)
    (token : Token) (key : Key) :
    decode (encodeModel m token key) (encodeData m) token key =
        Constants.refilled m.recounted (Constants.firstMisfit? m) ∧
      (Constants.firstMisfit? m = none ↔ ∀ o ∈ m.operands, o.Fits) ∧
      ((∀ o, .addOperand o ∈ calls → o.Fits) → ∀ o ∈ m.operands, o.Fits) ∧
      ((∀ o, .addOperand o ∈ calls → o.consumers = 0) → m.recounted = m) := by
  refine ⟨?_, Constants.firstMisfit?_eq_none_iff, fun added o ho => ?_, fun added => ?_⟩
  · have sound : Sound m := Built.sound ⟨calls, built⟩
    have hlength := (Structure.compact_of_length short).operands
    rw [decode_encode sound token key short, skeleton_of_settled settled, ← write_recounted,
      ← firstMisfit?_recounted]
    apply Constants.attach_write
    · simpa [recounted] using hlength
    · intro o' ho' bytes hbytes
      obtain ⟨i, hi⟩ := List.mem_iff_getElem?.1 ho'
      obtain ⟨o, ho, rfl⟩ := recounted_operand hi
      exact values o (List.mem_of_getElem? ho) bytes hbytes
    · intro o' ho'
      obtain ⟨i, hi⟩ := List.mem_iff_getElem?.1 ho'
      obtain ⟨o, ho, rfl⟩ := recounted_operand hi
      exact Option.isSome_iff_ne_none.symm.trans (settled.value i o ho)
  · obtain ⟨i, hi⟩ := List.mem_iff_getElem?.1 ho
    rw [built] at hi
    exact fits_performAll added hi
  · apply recounted_eq_self
    intro i o ho
    rw [built] at ho ⊢
    exact counted_performAll added ho

/-- A constant of unknown extent in shared memory, with a scale that is no number and a zero point
below zero; an operand that is input and output; one that is left out; and a result. -/
def mixed : List Call := [
  .addOperand { type := .tensorQuant8Asymm, dimensions := [0], scale := ⟨0x7fc00001⟩,
                zeroPoint := -5 },
  .addOperand { type := .tensorFloat32, dimensions := [2] },
  .addOperand { type := .int32, dimensions := [] },
  .addOperand { type := .tensorFloat32, dimensions := [1], lifetime := .modelOutput },
  .setReference 0 [0x01, 0x02, 0x03],
  .setNoValue 2,
  .addOperation .add [1, 0, 2, 1] [3],
  .identify [1] [3, 1],
  .setRelaxed true]

/-- All of it comes back. -/
theorem decode_encode_mixed :
    decode (encodeModel (performAll {} mixed) (Vector.replicate 32 7) (Vector.replicate 32 0))
      (encodeData (performAll {} mixed)) (Vector.replicate 32 7) (Vector.replicate 32 0) =
      .ok (performAll {} mixed) := by
  have fresh : ∀ o, .addOperand o ∈ mixed → o.value = none ∧ o.consumers = 0 := by
    intro o ho
    simp only [mixed, List.mem_cons, Call.addOperand.injEq, reduceCtorEq, List.not_mem_nil,
      or_false] at ho
    rcases ho with rfl | rfl | rfl | rfl <;> exact ⟨rfl, rfl⟩
  have fits : ∀ o, .addOperand o ∈ mixed → o.Fits := by
    intro o ho bytes hbytes
    rw [(fresh o ho).1] at hbytes
    cases hbytes
  obtain ⟨hdecode, hfirst, hfits, hsame⟩ := @decode_encode_settled mixed _ rfl
    (by decide) (by decide +kernel) (by decide) (Vector.replicate 32 7) (Vector.replicate 32 0)
  rw [hdecode, hfirst.2 (hfits fits), hsame fun o ho => (fresh o ho).2]
  rfl

/-- A constant that is added with three bytes and takes four, and a result. -/
def misfit : List Call := [
  .addOperand { type := .tensorFloat32, dimensions := [1], lifetime := .constantCopy,
                value := some [0x00, 0x00, 0x80] },
  .addOperand { type := .tensorFloat32, dimensions := [1] },
  .addOperation .relu [0] [1],
  .identify [] [1]]

/-- Its files are written, and then refused. -/
theorem decode_encode_misfit :
    Settled (performAll {} misfit) ∧ (Structure.write (performAll {} misfit)).length < UInt32.size ∧
      (∀ o ∈ (performAll {} misfit).operands, ∀ bytes ∈ o.value, bytes.length < UInt32.size) ∧
      decode (encodeModel (performAll {} misfit) (Vector.replicate 32 7) (Vector.replicate 32 0))
        (encodeData (performAll {} misfit)) (Vector.replicate 32 7) (Vector.replicate 32 0) =
        .error (.mismatch (.model (.wrongLength 0 4 3))) := by
  have short : (Structure.write (performAll {} misfit)).length < UInt32.size := by decide +kernel
  refine ⟨by decide, short, by decide, ?_⟩
  rw [decode_encode (Built.sound ⟨misfit, rfl⟩) _ _ short]
  rfl

end Cache

end NeuralDispatch

import NeuralDispatch.Proofs.Builder
import NeuralDispatch.Proofs.Wire
import Mathlib.Data.List.Induction

/-!
# What a payload keeps of a model

A payload keeps all of a model but the bytes of its constants and the lifetimes that follow from its
inputs and outputs.

* `restoredLifetime` — the lifetime that an operand gets when it is read.
* `skeleton` — a model without its bytes, with the lifetimes and counts that reading gives.
* `reads_body` — the description of a model is read as its skeleton, whatever follows.
* `reads_structure` — a payload whose length fits into a word is read as the skeleton of its model.
-/

namespace NeuralDispatch.Cache.Structure

open Answer Model

/-! ## Lengths -/

theorem length_le_flatMap {α : Type} (write : α → Bytes) {xs : List α} {x : α} (hx : x ∈ xs) :
    (write x).length ≤ (xs.flatMap write).length := by
  induction xs with
  | nil => cases hx
  | cons y rest ih =>
    rw [List.flatMap_cons, List.length_append]
    rcases List.mem_cons.1 hx with rfl | hx
    · exact Nat.le_add_right _ _
    · exact Nat.le_trans (ih hx) (Nat.le_add_left _ _)

theorem length_le_length_flatMap {α : Type} (write : α → Bytes) (h : ∀ x, 0 < (write x).length)
    (xs : List α) : xs.length ≤ (xs.flatMap write).length := by
  induction xs with
  | nil => exact Nat.le_refl _
  | cons x rest ih =>
    have hx := h x
    rw [List.flatMap_cons, List.length_append, List.length_cons]
    omega

theorem length_writeWords (ws : List UInt32) : (writeWords ws).length = 4 + 4 * ws.length := by
  have hall : (ws.flatMap Bytes.le32).length = 4 * ws.length := by
    induction ws with
    | nil => rfl
    | cons w rest ih =>
      rw [List.flatMap_cons, List.length_append, ih, Bytes.length_le32, List.length_cons]
      omega
  rw [writeWords, List.length_append, Bytes.length_le32, hall]

theorem length_writePositions (ps : List Nat) :
    (writePositions ps).length = 4 + 4 * ps.length := by
  rw [writePositions, length_writeWords, List.length_map]

theorem length_writeOperand (o : Operand) :
    (writeOperand o).length = 17 + 4 * o.dimensions.length := by
  simp only [writeOperand, List.length_append, Bytes.length_le32, length_writeWords,
    List.length_singleton]
  omega

theorem length_writeOperation (op : Operation) :
    (writeOperation op).length = 12 + 4 * (op.inputs.length + op.outputs.length) := by
  simp only [writeOperation, List.length_append, Bytes.length_le32, length_writePositions]
  omega

/-- Whether the lengths that a payload states fit into words. -/
structure Compact (m : Model) : Prop where
  operands : m.operands.length < UInt32.size
  dimensions : ∀ o ∈ m.operands, o.dimensions.length < UInt32.size
  operations : m.operations.length < UInt32.size
  operationInputs : ∀ op ∈ m.operations, op.inputs.length < UInt32.size
  operationOutputs : ∀ op ∈ m.operations, op.outputs.length < UInt32.size
  inputs : m.inputs.length < UInt32.size
  outputs : m.outputs.length < UInt32.size

instance (m : Model) : Decidable (Compact m) :=
  decidable_of_iff
    (m.operands.length < UInt32.size ∧ (∀ o ∈ m.operands, o.dimensions.length < UInt32.size) ∧
      m.operations.length < UInt32.size ∧
      (∀ op ∈ m.operations, op.inputs.length < UInt32.size) ∧
      (∀ op ∈ m.operations, op.outputs.length < UInt32.size) ∧
      m.inputs.length < UInt32.size ∧ m.outputs.length < UInt32.size)
    ⟨fun ⟨ho, hd, hn, hin, hout, hi, hu⟩ => ⟨ho, hd, hn, hin, hout, hi, hu⟩,
      fun h => ⟨h.operands, h.dimensions, h.operations, h.operationInputs, h.operationOutputs,
        h.inputs, h.outputs⟩⟩

/-- Each stated length is at most that of the whole payload. -/
theorem compact_of_length {m : Model} (h : (write m).length < UInt32.size) : Compact m := by
  have hoperands := length_le_length_flatMap writeOperand
    (fun o => by rw [length_writeOperand]; omega) m.operands
  have hoperations := length_le_length_flatMap writeOperation
    (fun op => by rw [length_writeOperation]; omega) m.operations
  simp only [write, List.length_append, Bytes.length_le32, length_writePositions,
    List.length_singleton] at h
  refine ⟨by omega, fun o ho => ?_, by omega, fun op hop => ?_, fun op hop => ?_, by omega,
    by omega⟩
  · have hle := length_le_flatMap writeOperand ho
    rw [length_writeOperand] at hle
    omega
  · have hle := length_le_flatMap writeOperation hop
    rw [length_writeOperation] at hle
    omega
  · have hle := length_le_flatMap writeOperation hop
    rw [length_writeOperation] at hle
    omega

/-! ## Operands and operations -/

/-- An operand as a payload keeps it. -/
def bare (o : Operand) : Operand :=
  { type := o.type, dimensions := o.dimensions, scale := o.scale, zeroPoint := o.zeroPoint,
    lifetime := o.lifetime }

theorem reads_operand {o : Operand} (h : o.dimensions.length < UInt32.size) :
    Reads readOperand (writeOperand o) (bare o) := by
  simp only [writeOperand, List.append_assoc]
  refine (reads_word _).bind ?_
  rw [OperandType.ofCode?_code]
  refine (reads_words h).bind ((reads_word _).bind ((reads_word _).bind ((reads_byte _).bind ?_)))
  rw [Lifetime.ofCode?_code]
  exact Reads.pure _

theorem reads_operands {operands : List Operand}
    (h : ∀ o ∈ operands, o.dimensions.length < UInt32.size) :
    Reads (Reader.times readOperand operands.length) (operands.flatMap writeOperand)
      (operands.map bare) := by
  have hall : ∀ o ∈ operands.map bare, Reads readOperand (writeOperand o) o := by
    intro o ho
    obtain ⟨original, horiginal, rfl⟩ := List.mem_map.1 ho
    exact reads_operand (h original horiginal)
  have hread := Reads.times hall
  rwa [List.length_map, List.flatMap_map] at hread

theorem countReads_append (m : Model) (before after : List Nat) :
    (m.countReads before).countReads after = m.countReads (before ++ after) := by
  rw [← foldl_addReader, ← foldl_addReader, ← foldl_addReader, List.foldl_append]

/-- The model with further operations, all of whose reads are counted. -/
def withOperations (m : Model) (ops : List Operation) : Model :=
  { m.countReads (ops.flatMap (·.inputs)) with operations := m.operations ++ ops }

@[simp] theorem length_operands_withOperations (m : Model) (ops : List Operation) :
    (withOperations m ops).operands.length = m.operands.length := List.length_mapIdx ..

theorem withOperations_nil (m : Model) : withOperations m [] = m := by
  rw [withOperations, List.flatMap_nil, ← foldl_addReader, List.append_nil]
  rfl

theorem withOperations_cons (m : Model) (op : Operation) (rest : List Operation) :
    withOperations (withOperations m [op]) rest = withOperations m (op :: rest) := by
  have hcount := congrArg Model.operands
    (countReads_append m op.inputs (rest.flatMap (·.inputs)))
  simp only [withOperations, countReads, List.flatMap_cons, List.flatMap_nil, List.append_nil,
    List.append_assoc, List.singleton_append, Model.mk.injEq, and_true] at hcount ⊢
  exact hcount

/-- Whether an operation can be stored and added to a model of this many operands. -/
structure Addable (size : Nat) (op : Operation) : Prop where
  exist : ∀ o ∈ op.inputs ++ op.outputs, o < size
  computes : op.outputs ≠ []
  inputs : op.inputs.length < UInt32.size
  outputs : op.outputs.length < UInt32.size

theorem reads_operations {ops : List Operation} {m : Model}
    (h : ∀ op ∈ ops, Addable m.operands.length op) (hsize : m.operands.length < UInt32.size) :
    Reads (readOperations ops.length m) (ops.flatMap writeOperation) (withOperations m ops) := by
  induction ops generalizing m with
  | nil =>
    rw [withOperations_nil]
    exact Reads.pure m
  | cons op rest ih =>
    obtain ⟨hop, hrest⟩ := List.forall_mem_cons.1 h
    have hadd : m.addOperation op.type op.inputs op.outputs = .ok (withOperations m [op]) :=
      addOperation_eq_ok.2 ⟨hop.exist, hop.computes, by
        rw [withOperations, List.flatMap_singleton]⟩
    have hlength := length_operands_withOperations m [op]
    have hplaces : ∀ o ∈ op.inputs ++ op.outputs, o < UInt32.size := fun o ho =>
      Nat.lt_trans (hop.exist o ho) hsize
    rw [List.flatMap_cons, writeOperation, List.append_assoc, List.append_assoc]
    refine (reads_word _).bind ?_
    rw [OperationType.ofCode?_code]
    refine (reads_positions hop.inputs fun o ho => hplaces o (List.mem_append_left _ ho)).bind ?_
    refine (reads_positions hop.outputs fun o ho => hplaces o (List.mem_append_right _ ho)).bind ?_
    have hread := ih (m := withOperations m [op]) (by rwa [hlength]) (by rwa [hlength])
    rw [withOperations_cons] at hread
    rw [hadd]
    exact (Reads.pure _).bind hread

/-! ## Operands that are left out -/

/-- An operand after those that are stored as left out have been left out. -/
def omitted (stored : List Operand) (i : Nat) (o : Operand) : Operand :=
  if stored[i]?.map (·.lifetime) = some .noValue then { o with lifetime := .noValue, value := none }
  else o

theorem omitted_concat (before : List Operand) (last o : Operand) (i : Nat) :
    omitted (before ++ [last]) i o =
      if i = before.length ∧ last.lifetime = .noValue then
        { o with lifetime := .noValue, value := none }
      else omitted before i o := by
  rw [omitted, omitted]
  rcases Nat.lt_trichotomy i before.length with hlt | rfl | hgt
  · rw [List.getElem?_append_left hlt]
    simp [Nat.ne_of_lt hlt]
  · simp
  · rw [List.getElem?_eq_none (Nat.le_of_lt hgt),
      List.getElem?_eq_none (by simpa using Nat.succ_le_of_lt hgt)]
    simp [Nat.ne_of_gt hgt]

/-- The operands are left out one by one, each whatever becomes of the others. -/
theorem leaveOut_eq_ok {m : Model} {stored : List Operand}
    (h : stored.length ≤ m.operands.length) :
    leaveOut m stored = .ok { m with operands := m.operands.mapIdx (omitted stored) } := by
  induction stored using List.reverseRecOn with
  | nil =>
    refine congrArg Except.ok (Model.mk.injEq .. |>.mpr ⟨?_, rfl, rfl, rfl, rfl⟩)
    exact (List.mapIdx_eq_iff.2 fun i => by cases m.operands[i]? <;> rfl).symm
  | append_singleton before last ih =>
    rw [List.length_append, List.length_singleton] at h
    obtain ⟨o, ho⟩ := exists_operand (m := m) h
    have hbefore := ih (Nat.le_of_succ_le h)
    rw [leaveOut] at hbefore ⊢
    rw [List.zipIdx_append, List.foldlM_append, hbefore, ok_bind, List.zipIdx_singleton,
      List.foldlM_cons, Nat.zero_add]
    dsimp only
    split
    · next hnone =>
      have hold : (m.operands.mapIdx (omitted before))[before.length]? = some o := by
        rw [List.getElem?_mapIdx, ho]
        simp [omitted]
      rw [setNoValue_eq_ok.2 ⟨o, hold, rfl⟩, ok_bind, List.foldlM_nil]
      refine congrArg Except.ok (Model.mk.injEq .. |>.mpr ⟨?_, rfl, rfl, rfl, rfl⟩)
      refine List.ext_getElem? fun i => ?_
      rw [List.getElem?_set, List.getElem?_mapIdx, List.getElem?_mapIdx]
      by_cases hi : before.length = i
      · subst hi
        rw [if_pos rfl, if_pos (List.getElem?_eq_some_iff.1 hold).1, ho, Option.map_some,
          omitted_concat, if_pos ⟨rfl, hnone⟩]
      · rw [if_neg hi]
        refine Option.map_congr fun old _ => ?_
        rw [omitted_concat, if_neg fun hlast => hi hlast.1.symm]
    · next hkept =>
      have hsame : omitted (before ++ [last]) = omitted before :=
        funext fun i => funext fun o => by rw [omitted_concat, if_neg fun hlast => hkept hlast.2]
      rw [hsame, pure_bind, List.foldlM_nil]
      rfl

/-! ## Whole models -/

/-- The lifetime that an operand gets when it is read. -/
def restoredLifetime (m : Model) (i : Nat) (stored : Lifetime) : Lifetime :=
  if stored = .noValue then .noValue
  else if i ∈ m.outputs then .modelOutput
  else if i ∈ m.inputs then .modelInput
  else if stored.isConstant then stored
  else .temporary

/-- What a payload says of an operand. -/
def restored (m : Model) (i : Nat) (o : Operand) : Operand :=
  { bare o with lifetime := restoredLifetime m i o.lifetime, consumers := m.readCount i }

/-- A model without its bytes, with the lifetimes and counts that reading gives. -/
def skeleton (m : Model) : Model := { m with operands := m.operands.mapIdx (restored m) }

theorem skeleton_operand {m : Model} {i : Nat} {o : Operand} (ho : m.operands[i]? = some o) :
    (skeleton m).operands[i]? = some (restored m i o) := by
  rw [skeleton, List.getElem?_mapIdx, ho]
  rfl

theorem value_of_skeleton {m : Model} : ∀ o ∈ (skeleton m).operands, o.value = none := by
  intro o ho
  obtain ⟨i, hi⟩ := List.mem_iff_getElem?.1 ho
  rw [skeleton, List.getElem?_mapIdx] at hi
  obtain ⟨original, -, rfl⟩ := Option.map_eq_some_iff.1 hi
  rfl

/-- The operands of a model before anything else of it is read. -/
def entered (m : Model) : Model := { operands := (m.operands.map bare).map provisional }

@[simp] theorem length_operands_entered (m : Model) :
    (entered m).operands.length = m.operands.length := by
  rw [entered, List.length_map, List.length_map]

/-- The operands of a model after all of it is read. -/
theorem operands_of_reading (m : Model) :
    ((withOperations (entered m) m.operations).identified m.inputs m.outputs).operands.mapIdx
      (omitted (m.operands.map bare)) = (skeleton m).operands := by
  refine List.ext_getElem? fun i => ?_
  simp only [skeleton, entered, identified, relabel, withOperations, countReads,
    List.getElem?_mapIdx, List.getElem?_map, Option.map_map]
  cases ho : m.operands[i]? with
  | none => rfl
  | some o =>
    simp only [Option.map_some, Function.comp_apply, omitted, List.getElem?_map, ho, restored,
      restoredLifetime, Option.some.injEq]
    by_cases hnone : o.lifetime = .noValue
    · by_cases hout : i ∈ m.outputs <;> by_cases hin : i ∈ m.inputs <;>
        simp [hnone, hout, hin, bare, provisional, Operand.isConstant, Lifetime.isConstant,
          readCount]
    · by_cases hout : i ∈ m.outputs <;> by_cases hin : i ∈ m.inputs <;>
        by_cases hconstant : o.lifetime.isConstant = true <;>
        simp [hnone, hout, hin, hconstant, bare, provisional, Operand.isConstant, readCount]

/-- Whether the description of a model can be read: its positions exist, its operations compute
something, and its lengths fit into words. -/
structure Readable (m : Model) : Prop where
  exist : ∀ op ∈ m.operations, ∀ o ∈ op.inputs ++ op.outputs, o < m.operands.length
  computes : ∀ op ∈ m.operations, op.outputs ≠ []
  exchanged : ∀ o ∈ m.inputs ++ m.outputs, o < m.operands.length
  compact : Compact m

instance (m : Model) : Decidable (Readable m) :=
  decidable_of_iff
    ((∀ op ∈ m.operations, ∀ o ∈ op.inputs ++ op.outputs, o < m.operands.length) ∧
      (∀ op ∈ m.operations, op.outputs ≠ []) ∧
      (∀ o ∈ m.inputs ++ m.outputs, o < m.operands.length) ∧ Compact m)
    ⟨fun ⟨he, hc, hx, hl⟩ => ⟨he, hc, hx, hl⟩,
      fun h => ⟨h.exist, h.computes, h.exchanged, h.compact⟩⟩

/-- The payload that describes a model, but for its last byte. -/
def body (m : Model) : Bytes :=
  Bytes.le32 (UInt32.ofNat m.operands.length) ++ m.operands.flatMap writeOperand ++
    Bytes.le32 (UInt32.ofNat m.operations.length) ++ m.operations.flatMap writeOperation ++
    writePositions m.inputs ++ writePositions m.outputs

theorem write_eq_body (m : Model) : write m = body m ++ [if m.relaxed then 1 else 0] := rfl

theorem identified_entered {m : Model} (h : Readable m) :
    (withOperations (entered m) m.operations).identify m.inputs m.outputs =
      ((withOperations (entered m) m.operations).identified m.inputs m.outputs, .ok ()) := by
  refine identify_eq_ok.2 ⟨?_, ?_, rfl⟩
  · intro o ho
    simpa using h.exchanged o (List.mem_append_left _ ho)
  · intro o ho
    simpa using h.exchanged o (List.mem_append_right _ ho)

theorem leaveOut_entered (m : Model) :
    leaveOut (((withOperations (entered m) m.operations).identified m.inputs m.outputs).setRelaxed
      m.relaxed) (m.operands.map bare) = .ok (skeleton m) := by
  rw [leaveOut_eq_ok (by simp [setRelaxed, identified])]
  have hskeleton : skeleton m = { m with operands := (skeleton m).operands } := rfl
  rw [hskeleton, ← operands_of_reading]
  rfl

/-- A description is read as the skeleton of its model, whatever byte other than zero stands for a
flag that is set. -/
theorem reads_body {m : Model} (h : Readable m) {flag : UInt8} (hflag : m.relaxed = (flag != 0)) :
    Reads read (body m ++ [flag]) (skeleton m) := by
  have hlengths : ∀ o ∈ m.inputs ++ m.outputs, o < UInt32.size := fun o ho =>
    Nat.lt_trans (h.exchanged o ho) h.compact.operands
  have hlength := length_operands_entered m
  have haddable : ∀ op ∈ m.operations, Addable m.operands.length op := fun op hop =>
    ⟨h.exist op hop, h.computes op hop, h.compact.operationInputs op hop,
      h.compact.operationOutputs op hop⟩
  simp only [body, List.append_assoc]
  refine (reads_number h.compact.operands).bind ((reads_operands h.compact.dimensions).bind ?_)
  refine (reads_number h.compact.operations).bind ?_
  refine Reads.bind (reads_operations (m := entered m) (by rwa [hlength])
    (by rw [hlength]; exact h.compact.operands)) ?_
  refine (reads_positions h.compact.inputs fun o ho =>
    hlengths o (List.mem_append_left _ ho)).bind ?_
  refine (reads_positions h.compact.outputs fun o ho =>
    hlengths o (List.mem_append_right _ ho)).bind ?_
  rw [identified_entered h]
  refine (Reads.pure ()).bind ((reads_byte flag).bind ?_)
  show Reads (accept (leaveOut (setRelaxed _ (flag != 0)) _)) [] (skeleton m)
  rw [← hflag, leaveOut_entered]
  exact Reads.pure _

/-- A payload whose length fits into a word is read as the skeleton of its model. -/
theorem reads_structure {m : Model} (sound : Sound m)
    (h : (write m).length < UInt32.size) : Reads read (write m) (skeleton m) := by
  have hreadable : Readable m := by
    refine ⟨sound.exist, sound.computes, ?_, compact_of_length h⟩
    intro o ho
    obtain ⟨operand, hoperand, -⟩ := sound.exchanged o ho
    exact (List.getElem?_eq_some_iff.1 hoperand).1
  rw [write_eq_body]
  apply reads_body hreadable
  cases m.relaxed <;> rfl

end NeuralDispatch.Cache.Structure

import NeuralDispatch.Model.Validation
import NeuralDispatch.Proofs.Builder
import NeuralDispatch.Proofs.Order

/-!
# What validation accepts

`Model.validate` answers with the first fault it meets.  Here its success is stated without an
order of checks.

* `validate_eq_ok_iff` — validation succeeds on the well-formed models and on no others.
* `Valid.mem_written_of_read` — in a well-formed model, whatever an operation reads and only an
  operation can give is written by one.
* `Valid.output_lifetime` — the outputs of a well-formed model are marked as such.
-/

namespace NeuralDispatch.Lifetime

theorem needsProducer_iff {l : Lifetime} :
    l.needsProducer = true ↔ l = .temporary ∨ l = .modelOutput := by
  cases l <;> decide

/-- What only an operation can give is not given with the model. -/
theorem not_given_of_needsProducer {l : Lifetime} (h : l.needsProducer = true) :
    ¬ (l.isConstant = true ∨ l = .noValue) := by
  cases l <;> revert h <;> decide

end NeuralDispatch.Lifetime

namespace NeuralDispatch.Model

open Answer

/-- Whether an operand exists and an operation may write it. -/
def Writable (m : Model) (o : Nat) : Prop :=
  ∃ operand, m.operands[o]? = some operand ∧ operand.lifetime.needsProducer = true

/-- The models that can be run. -/
structure Valid (m : Model) : Prop where
  operations_ne : m.operations ≠ []
  outputs_ne : m.outputs ≠ []
  exist : ∀ op ∈ m.operations, ∀ o ∈ op.inputs ++ op.outputs, o < m.operands.length
  writable : ∀ o ∈ m.written, m.Writable o
  single : m.written.Nodup
  produced : ∀ o (operand : Operand), m.operands[o]? = some operand →
    operand.lifetime.needsProducer = true → operand.consumers ≠ 0 → o ∈ m.written
  valued : ∀ (o : Nat) operand, m.operands[o]? = some operand →
    operand.isConstant = true → operand.value ≠ none
  outputs_written : ∀ o ∈ m.outputs, o ∈ m.written
  acyclic : ∃ order, m.topologicalOrder = .ok order

/-! ## The checks -/

theorem checkOutput_eq_ok {m : Model} {i o : Nat} {before after : List Nat} :
    m.checkOutput i before o = .ok after ↔ m.Writable o ∧ o ∉ before ∧ after = o :: before := by
  rw [checkOutput, bind_eq_ok]
  simp only [operand_eq_ok]
  constructor
  · rintro ⟨operand, hoperand, h⟩
    split at h
    · exact absurd h (by simp)
    · next hneeds =>
      split at h
      · exact absurd h (by simp)
      · next hfresh =>
        exact ⟨⟨operand, hoperand, by simpa using hneeds⟩, hfresh, (pure_eq_ok.1 h).symm⟩
  · rintro ⟨⟨operand, hoperand, hneeds⟩, hfresh, rfl⟩
    refine ⟨operand, hoperand, ?_⟩
    rw [hneeds, if_neg (by simp), if_neg hfresh, pure_eq_ok]

theorem foldlM_checkOutput {m : Model} {i : Nat} {outputs before after : List Nat}
    (single : before.Nodup) :
    outputs.foldlM (m.checkOutput i) before = .ok after ↔
      (∀ o ∈ outputs, m.Writable o) ∧ (outputs.reverse ++ before).Nodup ∧
        after = outputs.reverse ++ before := by
  induction outputs generalizing before with
  | nil => simp [single, eq_comm, pure, Except.pure]
  | cons o rest ih =>
    rw [List.foldlM_cons, bind_eq_ok, List.reverse_cons, List.append_assoc, List.singleton_append,
      List.forall_mem_cons]
    constructor
    · rintro ⟨noted, ho, hrest⟩
      obtain ⟨hwritable, hfresh, rfl⟩ := checkOutput_eq_ok.1 ho
      obtain ⟨hall, hnodup, rfl⟩ := (ih (List.nodup_cons.2 ⟨hfresh, single⟩)).1 hrest
      exact ⟨⟨hwritable, hall⟩, hnodup, rfl⟩
    · rintro ⟨⟨hwritable, hall⟩, hnodup, rfl⟩
      have hcons : (o :: before).Nodup := (List.nodup_append.1 hnodup).2.1
      refine ⟨o :: before, checkOutput_eq_ok.2 ⟨hwritable, (List.nodup_cons.1 hcons).1, rfl⟩, ?_⟩
      exact (ih hcons).2 ⟨hall, hnodup, rfl⟩

theorem foldlM_checkOperation {m : Model} {entries : List (Operation × Nat)}
    {before after : List Nat} (single : before.Nodup) :
    entries.foldlM m.checkOperation before = .ok after ↔
      (∀ e ∈ entries, ∀ o ∈ e.1.inputs ++ e.1.outputs, o < m.operands.length) ∧
        (∀ e ∈ entries, ∀ o ∈ e.1.outputs, m.Writable o) ∧
        ((entries.flatMap (·.1.outputs)).reverse ++ before).Nodup ∧
        after = (entries.flatMap (·.1.outputs)).reverse ++ before := by
  induction entries generalizing before with
  | nil => simp [single, eq_comm, pure, Except.pure]
  | cons e rest ih =>
    rw [List.foldlM_cons, bind_eq_ok, List.flatMap_cons, List.reverse_append, List.append_assoc,
      List.forall_mem_cons, List.forall_mem_cons]
    simp only [checkOperation, bind_eq_ok, forM_operand_eq_ok]
    constructor
    · rintro ⟨noted, ⟨-, hlt, houtputs⟩, hrest⟩
      obtain ⟨hwritable, hnodup, rfl⟩ := (foldlM_checkOutput single).1 houtputs
      obtain ⟨hexist, hall, hnodup, rfl⟩ := (ih hnodup).1 hrest
      exact ⟨⟨hlt, hexist⟩, ⟨hwritable, hall⟩, hnodup, rfl⟩
    · rintro ⟨⟨hlt, hexist⟩, ⟨hwritable, hall⟩, hnodup, rfl⟩
      have hnoted := (List.nodup_append.1 hnodup).2.1
      refine ⟨_, ⟨(), hlt, (foldlM_checkOutput single).2 ⟨hwritable, hnoted, rfl⟩⟩, ?_⟩
      exact (ih hnoted).2 ⟨hexist, hall, hnodup, rfl⟩

theorem checkOperand_eq_ok {noted : List Nat} {operand : Operand} {o : Nat} :
    checkOperand noted (operand, o) = .ok () ↔
      (operand.lifetime.needsProducer = true → operand.consumers ≠ 0 → o ∈ noted) ∧
        (operand.isConstant = true → operand.value ≠ none) := by
  rw [checkOperand]
  constructor
  · intro h
    split at h
    · exact absurd h (by simp)
    · next hread =>
      split at h
      · exact absurd h (by simp)
      · next hvalue =>
        constructor
        · intro hneeds hconsumers
          simpa [hneeds, hconsumers] using hread
        · intro hconstant
          simpa [hconstant] using hvalue
  · rintro ⟨hproduced, hvalued⟩
    rw [if_neg, if_neg]
    · rfl
    · simpa using hvalued
    · simpa using hproduced

/-- The checks of a whole model, one by one. -/
theorem validate_eq_ok {m : Model} :
    m.validate = .ok () ↔
      m.operations ≠ [] ∧ m.outputs ≠ [] ∧
        ∃ noted, m.operations.zipIdx.foldlM m.checkOperation [] = .ok noted ∧
          (∀ e ∈ m.operands.zipIdx, checkOperand noted e = .ok ()) ∧
          (∀ o ∈ m.outputs, o ∈ noted) ∧ ∃ order, m.topologicalOrder = .ok order := by
  have houtput : ∀ (noted : List Nat) (o : Nat),
      (if o ∈ noted then pure () else throw (.outputNeverWritten o) : Except ModelError Unit) =
        .ok () ↔ o ∈ noted := fun noted o => by
    split <;> simp [*]
  rw [validate]
  constructor
  · intro h
    split at h
    · exact absurd h (by simp)
    · next hops =>
      split at h
      · exact absurd h (by simp)
      · next houts =>
        simp only [bind_eq_ok, forM_eq_ok, houtput, pure_eq_ok, and_true] at h
        obtain ⟨noted, hnoted, -, hoperands, -, houtputs, horder⟩ := h
        exact ⟨by simpa using hops, by simpa using houts, noted, hnoted, hoperands, houtputs,
          horder⟩
  · rintro ⟨hops, houts, noted, hnoted, hoperands, houtputs, horder⟩
    rw [if_neg (by simpa using hops), if_neg (by simpa using houts)]
    simp only [bind_eq_ok, forM_eq_ok, houtput, pure_eq_ok, and_true]
    exact ⟨noted, hnoted, (), hoperands, (), houtputs, horder⟩

/-- Validation succeeds on well-formed models only, and on all of them. -/
theorem validate_eq_ok_iff {m : Model} : m.validate = .ok () ↔ Valid m := by
  have hentry : ∀ P : Operation → Prop,
      (∀ e ∈ m.operations.zipIdx, P e.1) ↔ ∀ op ∈ m.operations, P op := fun P => by
    conv_rhs => rw [← List.zipIdx_map_fst 0 m.operations]
    exact List.forall_mem_map.symm
  have hwritten : m.operations.zipIdx.flatMap (·.1.outputs) = m.written := by
    conv_rhs => rw [written, ← List.zipIdx_map_fst 0 m.operations, List.flatMap_map]
  rw [validate_eq_ok]
  simp only [foldlM_checkOperation List.nodup_nil, hwritten, List.append_nil,
    List.nodup_reverse]
  constructor
  · rintro ⟨hops, houts, -, ⟨hexist, hwritable, hsingle, rfl⟩, hoperands, houtputs, horder⟩
    have hoperand : ∀ (o : Nat) operand, m.operands[o]? = some operand →
        checkOperand m.written.reverse (operand, o) = .ok () := fun o operand ho =>
      hoperands (operand, o) (List.mem_zipIdx_iff_getElem?.2 ho)
    refine ⟨hops, houts, (hentry _).1 hexist, fun o ho => ?_, hsingle, fun o operand ho => ?_,
      fun o operand ho => (checkOperand_eq_ok.1 (hoperand o operand ho)).2,
      fun o ho => List.mem_reverse.1 (houtputs o ho), horder⟩
    · obtain ⟨op, hop, ho⟩ := mem_written.1 ho
      exact (hentry fun op => ∀ o ∈ op.outputs, m.Writable o).1 hwritable op hop o ho
    · simpa using (checkOperand_eq_ok.1 (hoperand o operand ho)).1
  · intro h
    refine ⟨h.operations_ne, h.outputs_ne, _, ⟨(hentry _).2 h.exist, ?_, h.single, rfl⟩, ?_,
      fun o ho => List.mem_reverse.2 (h.outputs_written o ho), h.acyclic⟩
    · refine (hentry fun op => ∀ o ∈ op.outputs, m.Writable o).2 fun op hop o ho => ?_
      exact h.writable o (mem_written.2 ⟨op, hop, ho⟩)
    · rintro ⟨operand, o⟩ he
      have ho := List.mem_zipIdx_iff_getElem?.1 he
      refine checkOperand_eq_ok.2 ⟨fun hneeds hconsumers => ?_, h.valued o operand ho⟩
      exact List.mem_reverse.2 (h.produced o operand ho hneeds hconsumers)

/-- A model that runs something but returns nothing. -/
theorem validate_noOutputs {m : Model} (hops : m.operations ≠ []) (houts : m.outputs = []) :
    m.validate = .error .noOutputs := by
  rw [validate, if_neg (by simpa using hops), if_pos (by simpa using houts)]
  rfl

/-! ## Well-formed models that calls have built -/

/-- What is read and has its value from operations only is written by one. -/
theorem Valid.mem_written_of_read {m : Model} (h : Valid m) (sound : Sound m) {op : Operation}
    {o : Nat} {operand : Operand} (hop : op ∈ m.operations) (ho : o ∈ op.inputs)
    (hoperand : m.operands[o]? = some operand) (hneeds : operand.lifetime.needsProducer = true) :
    o ∈ m.written := by
  refine h.produced o operand hoperand hneeds ?_
  have hread := readCount_pos hop ho
  have hcount := sound.counted o operand hoperand
  omega

/-- No operation writes what has its value from elsewhere. -/
theorem Valid.not_written {m : Model} (h : Valid m) {o : Nat} {operand : Operand}
    (ho : m.operands[o]? = some operand) (hgiven : operand.lifetime.needsProducer = false) :
    o ∉ m.written := by
  intro hwritten
  obtain ⟨operand', ho', hneeds⟩ := h.writable o hwritten
  obtain rfl := Option.some.inj (ho.symm.trans ho')
  exact Bool.false_ne_true (hgiven.symm.trans hneeds)

/-- The outputs of a well-formed model are marked as such. -/
theorem Valid.output_lifetime {m : Model} (h : Valid m) (sound : Sound m) {o : Nat}
    (ho : o ∈ m.outputs) :
    ∃ operand, m.operands[o]? = some operand ∧ operand.lifetime = .modelOutput := by
  obtain ⟨operand, hoperand, hlifetime⟩ := sound.exchanged o (List.mem_append_right _ ho)
  obtain ⟨operand', hoperand', hneeds⟩ := h.writable o (h.outputs_written o ho)
  obtain rfl := Option.some.inj (hoperand.symm.trans hoperand')
  exact ⟨operand, hoperand, (Lifetime.needsProducer_iff.1 hneeds).resolve_left hlifetime⟩

end NeuralDispatch.Model

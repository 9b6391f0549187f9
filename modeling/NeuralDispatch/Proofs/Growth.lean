import NeuralDispatch.Proofs.Edits
import Mathlib.Data.List.Induction

/-!
# What a call changes of an operand

A call neither removes nor moves an operand.  Of one that is there it may change the lifetime, the
bytes and the number of readers, and nothing else.

* `perform_operand` — an operand after a call is one from before, changed in that way, or the one
  that the call adds.
* `fits_performAll` — the bytes of an operand stay as many as it takes.
* `counted_performAll` — the readers that are counted are the reads of the operations, if none is
  counted when an operand is added.
-/

namespace NeuralDispatch

/-- Whether the bytes of an operand, if it has any, are as many as it takes. -/
def Operand.Fits (o : Operand) : Prop := ∀ bytes ∈ o.value, ∀ n ∈ o.byteLength, n = bytes.length

namespace Model

open Answer

/-! ## One call -/

/-- Whether an operand differs from what it was by its lifetime, its bytes and further readers
only. -/
structure Changed (reads : Nat) (o o' : Operand) : Prop where
  same : ∃ lifetime value, o' = { o with lifetime, consumers := o.consumers + reads, value }
  fits : o.Fits → o'.Fits

theorem Changed.refl (o : Operand) : Changed 0 o o := ⟨⟨_, _, rfl⟩, id⟩

theorem Changed.relabeled (o : Operand) (lifetime : Lifetime) :
    Changed 0 o { o with lifetime } := ⟨⟨_, _, rfl⟩, id⟩

theorem Changed.consumers_eq {reads : Nat} {o o' : Operand} (h : Changed reads o o') :
    o'.consumers = o.consumers + reads := by
  obtain ⟨_, _, hsame⟩ := h.same
  rw [hsame]

theorem setOperand_operand {m : Model} {j i : Nat} {old new o' : Operand}
    (hold : m.operands[j]? = some old) (hnew : Changed 0 old new)
    (h : (m.setOperand j new).operands[i]? = some o') :
    ∃ o, m.operands[i]? = some o ∧ Changed 0 o o' := by
  rw [setOperand, List.getElem?_set] at h
  by_cases hji : j = i
  · subst hji
    rw [if_pos rfl, if_pos (List.getElem?_eq_some_iff.1 hold).1] at h
    cases h
    exact ⟨old, hold, hnew⟩
  · rw [if_neg hji] at h
    exact ⟨o', h, Changed.refl o'⟩

/-- Whether an answer, unless it is a refusal, is the model with one operand changed. -/
def SetsOne (m : Model) (answer : Except ModelError Model) : Prop :=
  ∀ m', answer = .ok m' →
    ∃ j old new, m.operands[j]? = some old ∧ Changed 0 old new ∧ m' = m.setOperand j new

theorem setsOne_setConstant (m : Model) (j : Nat) (bytes : Bytes) (lifetime : Lifetime) :
    SetsOne m (m.setConstant j bytes lifetime) := by
  intro m' hset
  obtain ⟨old, hold, hlength, rfl⟩ := setConstant_eq_ok.1 hset
  refine ⟨j, old, _, hold, ⟨⟨_, _, rfl⟩, ?_⟩, rfl⟩
  intro _ given hgiven
  cases hgiven
  exact hlength

theorem setsOne_setNoValue (m : Model) (j : Nat) : SetsOne m (m.setNoValue j) := by
  intro m' hset
  obtain ⟨old, hold, rfl⟩ := setNoValue_eq_ok.1 hset
  refine ⟨j, old, _, hold, ⟨⟨_, _, rfl⟩, ?_⟩, rfl⟩
  intro _ given hgiven
  cases hgiven

theorem settle_operand {m : Model} {answer : Except ModelError Model} {i : Nat} {o' : Operand}
    (hanswer : SetsOne m answer) (h : (m.settle answer).1.operands[i]? = some o') :
    ∃ o, m.operands[i]? = some o ∧ Changed 0 o o' := by
  cases answer with
  | error e => exact ⟨o', h, Changed.refl o'⟩
  | ok m' =>
    obtain ⟨j, old, new, hold, hnew, rfl⟩ := hanswer m' rfl
    exact setOperand_operand hold hnew h

theorem operations_settle {m : Model} {answer : Except ModelError Model}
    (hanswer : SetsOne m answer) : (m.settle answer).1.operations = m.operations := by
  cases answer with
  | error e => rfl
  | ok m' =>
    obtain ⟨j, old, new, -, -, rfl⟩ := hanswer m' rfl
    rfl

theorem identify_operand {m : Model} {inputs outputs : List Nat} {i : Nat} {o' : Operand}
    (h : (m.identify inputs outputs).1.operands[i]? = some o') :
    ∃ o, m.operands[i]? = some o ∧ Changed 0 o o' := by
  rw [identify_operands, Option.map_eq_some_iff] at h
  obtain ⟨o, ho, rfl⟩ := h
  exact ⟨o, ho, Changed.relabeled o _⟩

/-- A call that adds an operation, or is refused. -/
theorem settle_addOperation_operand {m : Model} {type : OperationType} {inputs outputs : List Nat}
    {i : Nat} {o' : Operand}
    (h : (m.settle (m.addOperation type inputs outputs)).1.operands[i]? = some o') :
    ∃ o reads, m.operands[i]? = some o ∧ Changed reads o o' ∧
      (m.settle (m.addOperation type inputs outputs)).1.readCount i = m.readCount i + reads := by
  cases hadd : m.addOperation type inputs outputs with
  | error e =>
    rw [hadd] at h
    exact ⟨o', 0, h, Changed.refl o', rfl⟩
  | ok m' =>
    rw [hadd] at h
    obtain ⟨-, -, rfl⟩ := addOperation_eq_ok.1 hadd
    simp only [settle, countReads, List.getElem?_mapIdx, Option.map_eq_some_iff] at h
    obtain ⟨o, ho, rfl⟩ := h
    refine ⟨o, inputs.count i, ho, ⟨⟨_, _, rfl⟩, id⟩, ?_⟩
    simp only [settle, readCount, List.flatMap_append, List.count_append, List.flatMap_singleton]

theorem operations_identify (m : Model) (inputs outputs : List Nat) :
    (m.identify inputs outputs).1.operations = m.operations := by
  rcases m.identify_cases inputs outputs with ⟨-, e, hm⟩ | ⟨-, -, e, hm⟩ | ⟨-, -, hm⟩ <;>
  · rw [hm]
    rfl

/-- A call that adds no operation counts no further reads. -/
theorem kept_of_operations {m m' : Model} {i : Nat} {o' : Operand}
    (hoperations : m'.operations = m.operations)
    (h : ∃ o, m.operands[i]? = some o ∧ Changed 0 o o') :
    ∃ o reads, m.operands[i]? = some o ∧ Changed reads o o' ∧
      m'.readCount i = m.readCount i + reads := by
  obtain ⟨o, ho, hchanged⟩ := h
  refine ⟨o, 0, ho, hchanged, ?_⟩
  rw [readCount, hoperations]
  rfl

/-- An operand after a call is one from before, with the further reads counted, or the one that the
call adds. -/
theorem perform_operand {m : Model} {call : Call} {i : Nat} {o' : Operand}
    (h : (m.perform call).1.operands[i]? = some o') :
    (∃ o reads, m.operands[i]? = some o ∧ Changed reads o o' ∧
      (m.perform call).1.readCount i = m.readCount i + reads) ∨
    (i = m.operands.length ∧ call = .addOperand o') := by
  cases call with
  | addOperand o =>
    simp only [perform, Model.addOperand, List.getElem?_append] at h
    by_cases hlt : i < m.operands.length
    · rw [if_pos hlt] at h
      exact Or.inl ⟨o', 0, h, Changed.refl o', rfl⟩
    · rw [if_neg hlt, List.getElem?_singleton] at h
      split at h
      · cases h
        exact Or.inr ⟨by omega, rfl⟩
      · cases h
  | setValue j bytes =>
    have hsets : SetsOne m (m.setValue j bytes) := setsOne_setConstant m j bytes _
    exact Or.inl (kept_of_operations (operations_settle hsets) (settle_operand hsets h))
  | setReference j bytes =>
    have hsets : SetsOne m (m.setReference j bytes) := setsOne_setConstant m j bytes _
    exact Or.inl (kept_of_operations (operations_settle hsets) (settle_operand hsets h))
  | setNoValue j =>
    have hsets := setsOne_setNoValue m j
    exact Or.inl (kept_of_operations (operations_settle hsets) (settle_operand hsets h))
  | addOperation type inputs outputs => exact Or.inl (settle_addOperation_operand h)
  | identify inputs outputs =>
    exact Or.inl (kept_of_operations (operations_identify m inputs outputs) (identify_operand h))
  | setRelaxed relaxed => exact Or.inl ⟨o', 0, h, Changed.refl o', rfl⟩

/-! ## A sequence of calls -/

theorem performAll_concat (m : Model) (calls : List Call) (call : Call) :
    performAll m (calls ++ [call]) = ((performAll m calls).perform call).1 := by
  simp [performAll, List.foldl_append]

/-- The bytes of an operand stay as many as it takes. -/
theorem fits_performAll {calls : List Call} (added : ∀ o, .addOperand o ∈ calls → o.Fits) {i : Nat}
    {o' : Operand} (h : (performAll {} calls).operands[i]? = some o') : o'.Fits := by
  induction calls using List.reverseRecOn generalizing i o' with
  | nil => cases h
  | append_singleton before call ih =>
    rw [performAll_concat] at h
    rcases perform_operand h with ⟨o, reads, ho, hchanged, -⟩ | ⟨-, rfl⟩
    · exact hchanged.fits (ih (fun o ho => added o (List.mem_append_left _ ho)) ho)
    · exact added o' (by simp)

/-- The readers that are counted are the reads of the operations, if none is counted when an operand
is added. -/
theorem counted_performAll {calls : List Call}
    (added : ∀ o, .addOperand o ∈ calls → o.consumers = 0) {i : Nat} {o' : Operand}
    (h : (performAll {} calls).operands[i]? = some o') :
    o'.consumers = (performAll {} calls).readCount i := by
  induction calls using List.reverseRecOn generalizing i o' with
  | nil => cases h
  | append_singleton before call ih =>
    rw [performAll_concat] at h ⊢
    rcases perform_operand h with ⟨o, reads, ho, hchanged, hreads⟩ | ⟨rfl, rfl⟩
    · have hbefore := ih (fun o ho => added o (List.mem_append_left _ ho)) ho
      rw [hchanged.consumers_eq, hbefore, hreads]
    · have hsound : Sound (performAll {} before) := Built.sound ⟨before, rfl⟩
      rw [added o' (by simp)]
      exact (hsound.readCount_eq_zero (Nat.le_refl _)).symm

end Model

end NeuralDispatch

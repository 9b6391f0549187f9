import NeuralDispatch.Model.Builder
import NeuralDispatch.Proofs.Answers
import Mathlib.Data.List.TakeWhile

/-!
# Models that calls have built

What each call does to a model, in closed form, and what therefore holds of every model that a
caller can hold.

* `mark_fst`, `mark_eq_ok_iff` — marking changes the lifetimes of the listed operands, up to the
  first that does not exist.
* `identify_cases` — what an identification leaves behind, accepted or not.
* `addOperation_eq_ok` — an operation is added when it writes something and names operands that
  exist, and each of its reads is counted.
* `Built.sound` — operations name operands that exist and write at least one, every read is
  counted, and what is listed as an input or output of the model is no longer a temporary.
-/

namespace NeuralDispatch.Model

open Answer

/-! ## Look-up -/

theorem operand_eq_ok {m : Model} {i : Nat} {o : Operand} :
    m.operand i = .ok o ↔ m.operands[i]? = some o := by
  rw [operand]
  split
  · next o' ho => rw [ho, Except.ok.injEq, Option.some.injEq]
  · next ho => simp [ho]

theorem exists_operand {m : Model} {i : Nat} (h : i < m.operands.length) :
    ∃ o, m.operands[i]? = some o :=
  ⟨m.operands[i], List.getElem?_eq_getElem h⟩

/-- The check that all listed operands exist. -/
theorem forM_operand_eq_ok {m : Model} {is : List Nat} {u : Unit} :
    (is.forM fun i => do let _ ← m.operand i) = .ok u ↔ ∀ i ∈ is, i < m.operands.length := by
  rw [forM_eq_ok]
  refine forall₂_congr fun i _ => ?_
  simp only [bind_eq_ok, pure_eq_ok, and_true, operand_eq_ok]
  constructor
  · rintro ⟨o, ho⟩
    exact (List.getElem?_eq_some_iff.1 ho).1
  · exact exists_operand

/-- How often operations read an operand. -/
def readCount (m : Model) (o : Nat) : Nat := (m.operations.flatMap (·.inputs)).count o

theorem readCount_pos {m : Model} {op : Operation} {o : Nat} (hop : op ∈ m.operations)
    (ho : o ∈ op.inputs) : 0 < m.readCount o :=
  List.count_pos_iff.2 (List.mem_flatMap.2 ⟨op, hop, ho⟩)

/-! ## Marking operands -/

/-- The model with a lifetime for the listed operands. -/
def relabel (m : Model) (lifetime : Lifetime) (marked : List Nat) : Model :=
  { m with
    operands := m.operands.mapIdx fun i o => if i ∈ marked then { o with lifetime } else o }

@[simp] theorem relabel_nil (m : Model) (lifetime : Lifetime) : m.relabel lifetime [] = m := by
  cases m
  simp only [relabel, List.not_mem_nil, if_false, Model.mk.injEq, and_true]
  exact List.mapIdx_eq_iff.2 fun i => by cases ‹List Operand›[i]? <;> rfl

@[simp] theorem length_operands_relabel (m : Model) (lifetime : Lifetime) (marked : List Nat) :
    (m.relabel lifetime marked).operands.length = m.operands.length := by simp [relabel]

theorem getElem?_relabel (m : Model) (lifetime : Lifetime) (marked : List Nat) (i : Nat) :
    (m.relabel lifetime marked).operands[i]? = m.operands[i]?.map fun o =>
      { o with lifetime := if i ∈ marked then lifetime else o.lifetime } := by
  rw [relabel, List.getElem?_mapIdx]
  split <;> rfl

theorem relabel_cons {m : Model} {lifetime : Lifetime} {i : Nat} {rest : List Nat} {o : Operand}
    (h : m.operands[i]? = some o) :
    (m.setOperand i { o with lifetime }).relabel lifetime rest =
      m.relabel lifetime (i :: rest) := by
  simp only [relabel, setOperand, Model.mk.injEq, and_true]
  refine List.ext_getElem? fun j => ?_
  rw [List.getElem?_mapIdx, List.getElem?_mapIdx, List.getElem?_set]
  by_cases hij : i = j
  · subst hij
    rw [if_pos rfl, if_pos (List.getElem?_eq_some_iff.1 h).1, h]
    simp
  · rw [if_neg hij]
    simp [Ne.symm hij]

/-- The listed operands before the first that does not exist. -/
def reached (m : Model) (is : List Nat) : List Nat :=
  is.takeWhile fun i => decide (i < m.operands.length)

theorem reached_eq_self_iff {m : Model} {is : List Nat} :
    m.reached is = is ↔ ∀ i ∈ is, i < m.operands.length := by
  rw [reached, List.takeWhile_eq_self_iff]
  simp only [decide_eq_true_eq]

/-- Marking goes as far as the listed operands exist. -/
theorem mark_fst (lifetime : Lifetime) (is : List Nat) (m : Model) :
    (mark lifetime is m).1 =
      m.relabel lifetime (m.reached is) := by
  induction is generalizing m with
  | nil => simp [mark, reached]
  | cons i rest ih =>
    rw [mark]
    split
    · next e he =>
      have hlt : ¬ i < m.operands.length := fun hlt => by
        obtain ⟨o, ho⟩ := exists_operand hlt
        rw [operand_eq_ok.2 ho] at he
        cases he
      rw [reached, List.takeWhile_cons_of_neg (by simpa using hlt), relabel_nil]
    · next o ho =>
      have ho := operand_eq_ok.1 ho
      have hlt := (List.getElem?_eq_some_iff.1 ho).1
      rw [reached, List.takeWhile_cons_of_pos (by simpa using hlt), ih, ← relabel_cons ho]
      simp [reached, setOperand]

theorem mark_snd_eq_ok {lifetime : Lifetime} {is : List Nat} {m : Model} :
    (mark lifetime is m).2 = .ok () ↔ ∀ i ∈ is, i < m.operands.length := by
  induction is generalizing m with
  | nil => simp [mark]
  | cons i rest ih =>
    rw [mark, List.forall_mem_cons]
    split
    · next e he =>
      simp only [reduceCtorEq, false_iff, not_and]
      intro hlt
      obtain ⟨o, ho⟩ := exists_operand hlt
      rw [operand_eq_ok.2 ho] at he
      cases he
    · next o ho =>
      have hlt := (List.getElem?_eq_some_iff.1 (operand_eq_ok.1 ho)).1
      rw [ih]
      simp [setOperand, hlt]

theorem mark_eq_ok_iff {lifetime : Lifetime} {is : List Nat} {m m' : Model} :
    mark lifetime is m = (m', .ok ()) ↔
      (∀ i ∈ is, i < m.operands.length) ∧ m' = m.relabel lifetime is := by
  rw [Prod.ext_iff, mark_fst, mark_snd_eq_ok, and_comm]
  refine and_congr_right fun hlt => ?_
  rw [reached_eq_self_iff.2 hlt, eq_comm]

/-- An identification that is refused on its inputs has marked those before. -/
theorem mark_eq_error {lifetime : Lifetime} {is : List Nat} {m m' : Model} {e : ModelError}
    (h : mark lifetime is m = (m', .error e)) :
    m.reached is ≠ is ∧ m' = m.relabel lifetime (m.reached is) := by
  constructor
  · intro hall
    have hok : (mark lifetime is m).2 = .ok () := mark_snd_eq_ok.2 (reached_eq_self_iff.1 hall)
    rw [h] at hok
    cases hok
  · exact (congrArg Prod.fst h).symm.trans (mark_fst lifetime is m)

/-- The model in which inputs and outputs are named. -/
def identified (m : Model) (inputs outputs : List Nat) : Model :=
  { (m.relabel .modelInput inputs).relabel .modelOutput outputs with inputs, outputs }

/-- The model after an identification: the inputs are marked as far as they exist, then the outputs
if all inputs do, and the lists are set only if all outputs do as well. -/
theorem identify_cases (m : Model) (inputs outputs : List Nat) :
    (m.reached inputs ≠ inputs ∧
      ∃ e, m.identify inputs outputs = (m.relabel .modelInput (m.reached inputs), .error e)) ∨
    (m.reached inputs = inputs ∧ m.reached outputs ≠ outputs ∧ ∃ e, m.identify inputs outputs =
      ((m.relabel .modelInput inputs).relabel .modelOutput (m.reached outputs), .error e)) ∨
    (m.reached inputs = inputs ∧ m.reached outputs = outputs ∧
      m.identify inputs outputs = (m.identified inputs outputs, .ok ())) := by
  rw [identify]
  split
  · next m₁ e h₁ =>
    obtain ⟨hmissing, rfl⟩ := mark_eq_error h₁
    exact .inl ⟨hmissing, e, rfl⟩
  · next m₁ h₁ =>
    obtain ⟨hinputs, rfl⟩ := mark_eq_ok_iff.1 h₁
    have hsame : (m.relabel .modelInput inputs).reached outputs = m.reached outputs := by
      rw [reached, length_operands_relabel, reached]
    have hinputs := reached_eq_self_iff.2 hinputs
    split
    · next m₂ e h₂ =>
      obtain ⟨hmissing, rfl⟩ := mark_eq_error h₂
      rw [hsame] at hmissing ⊢
      exact .inr (.inl ⟨hinputs, hmissing, e, rfl⟩)
    · next m₂ h₂ =>
      obtain ⟨houtputs, rfl⟩ := mark_eq_ok_iff.1 h₂
      rw [← hsame]
      exact .inr (.inr ⟨hinputs, reached_eq_self_iff.2 houtputs, rfl⟩)

theorem identify_eq_ok {m m' : Model} {inputs outputs : List Nat} :
    m.identify inputs outputs = (m', .ok ()) ↔
      (∀ i ∈ inputs, i < m.operands.length) ∧ (∀ i ∈ outputs, i < m.operands.length) ∧
        m' = m.identified inputs outputs := by
  rw [← reached_eq_self_iff, ← reached_eq_self_iff]
  rcases m.identify_cases inputs outputs with ⟨hin, e, h⟩ | ⟨hin, hout, e, h⟩ | ⟨hin, hout, h⟩
  · simp [h, hin]
  · simp [h, hout]
  · simp [h, hin, hout, eq_comm]

/-! ## Calls -/

theorem setConstant_eq_ok {m m' : Model} {i : Nat} {bytes : Bytes} {lifetime : Lifetime} :
    m.setConstant i bytes lifetime = .ok m' ↔
      ∃ o, m.operands[i]? = some o ∧ (∀ n ∈ o.byteLength, n = bytes.length) ∧
        m' = m.setOperand i { o with lifetime, value := some bytes } := by
  rw [setConstant, bind_eq_ok]
  refine exists_congr fun o => ?_
  rw [operand_eq_ok]
  refine and_congr_right fun _ => ?_
  cases o.byteLength with
  | none => simp [pure, Except.pure, eq_comm]
  | some n =>
    by_cases hn : n = bytes.length
    · simp [hn, pure, Except.pure, eq_comm]
    · simp [hn]

theorem setNoValue_eq_ok {m m' : Model} {i : Nat} :
    m.setNoValue i = .ok m' ↔
      ∃ o, m.operands[i]? = some o ∧
        m' = m.setOperand i { o with lifetime := .noValue, value := none } := by
  rw [setNoValue, bind_eq_ok]
  refine exists_congr fun o => ?_
  rw [operand_eq_ok, pure_eq_ok]
  exact and_congr_right fun _ => eq_comm

/-- The model in which reads are counted. -/
def countReads (m : Model) (reads : List Nat) : Model :=
  { m with
    operands := m.operands.mapIdx fun i o => { o with consumers := o.consumers + reads.count i } }

theorem foldl_addReader (reads : List Nat) (m : Model) :
    reads.foldl addReader m = m.countReads reads := by
  induction reads generalizing m with
  | nil =>
    refine Model.mk.injEq .. |>.mpr ⟨(List.mapIdx_eq_iff.2 fun i => ?_).symm, rfl, rfl, rfl, rfl⟩
    cases m.operands[i]? <;> simp
  | cons i rest ih =>
    rw [List.foldl_cons, ih]
    simp only [countReads, addReader, Model.mk.injEq, and_true]
    refine List.ext_getElem? fun j => ?_
    rw [List.getElem?_mapIdx, List.getElem?_mapIdx, List.getElem?_modify]
    by_cases hij : i = j
    · subst hij
      cases m.operands[i]? <;> simp [Nat.add_comm, Nat.add_left_comm]
    · simp [hij]

theorem addOperation_eq_ok {m m' : Model} {type : OperationType} {inputs outputs : List Nat} :
    m.addOperation type inputs outputs = .ok m' ↔
      (∀ o ∈ inputs ++ outputs, o < m.operands.length) ∧ outputs ≠ [] ∧
        m' = { m.countReads inputs with
          operations := m.operations ++ [⟨type, inputs, outputs⟩] } := by
  rw [addOperation, bind_eq_ok]
  simp only [forM_operand_eq_ok]
  constructor
  · rintro ⟨-, hlt, h⟩
    split at h
    · exact absurd h (by simp)
    · next hne =>
      rw [pure_eq_ok, foldl_addReader] at h
      exact ⟨hlt, by simpa using hne, h.symm⟩
  · rintro ⟨hlt, hne, rfl⟩
    refine ⟨(), hlt, ?_⟩
    rw [if_neg (by simpa using hne), pure_eq_ok, foldl_addReader]
    rfl

/-! ## What holds of every model that is built -/

/-- A model as a caller can hold it: calls on an empty one have made it. -/
def Built (m : Model) : Prop := ∃ calls, m = performAll {} calls

theorem Built.perform {m : Model} (h : Built m) (call : Call) : Built (m.perform call).1 := by
  obtain ⟨calls, rfl⟩ := h
  exact ⟨calls ++ [call], by simp [performAll, List.foldl_append]⟩

/-- What holds of an empty model and is kept by every call holds of every model that is built. -/
theorem Built.induction {P : Model → Prop} (start : P {})
    (step : ∀ m call, P m → P (m.perform call).1) {m : Model} (h : Built m) : P m := by
  obtain ⟨calls, rfl⟩ := h
  have hall : ∀ m, P m → P (performAll m calls) := by
    induction calls with
    | nil => exact fun m hm => hm
    | cons call rest ih => exact fun m hm => ih _ (step m call hm)
  exact hall {} start

/-- What holds of every model that is built, whether it is complete or not. -/
structure Sound (m : Model) : Prop where
  exist : ∀ op ∈ m.operations, ∀ o ∈ op.inputs ++ op.outputs, o < m.operands.length
  computes : ∀ op ∈ m.operations, op.outputs ≠ []
  counted : ∀ o operand, m.operands[o]? = some operand → m.readCount o ≤ operand.consumers
  /-- What the model exchanges with its caller is no temporary. -/
  exchanged : ∀ o ∈ m.inputs ++ m.outputs,
    ∃ operand, m.operands[o]? = some operand ∧ operand.lifetime ≠ .temporary

/-- No operation can name an operand before it is added. -/
theorem Sound.readCount_eq_zero {m : Model} (h : Sound m) {i : Nat} (hi : m.operands.length ≤ i) :
    m.readCount i = 0 := by
  refine List.count_eq_zero.2 fun hmem => ?_
  obtain ⟨op, hop, hread⟩ := List.mem_flatMap.1 hmem
  exact Nat.not_lt_of_le hi (h.exist op hop i (List.mem_append_left _ hread))

/-- An operand after a call: no read is uncounted, and it does not become a temporary. -/
def Grown (o o' : Operand) : Prop :=
  o.consumers ≤ o'.consumers ∧ (o.lifetime ≠ .temporary → o'.lifetime ≠ .temporary)

theorem Sound.of_grown {m : Model} (h : Sound m) {operands : List Operand}
    (same : operands.length = m.operands.length)
    (grown : ∀ (i : Nat) o, m.operands[i]? = some o → ∃ o', operands[i]? = some o' ∧ Grown o o')
    (relaxed : Bool) : Sound { m with operands, relaxed } where
  exist := fun op hop o ho => (h.exist op hop o ho).trans_eq same.symm
  computes := h.computes
  counted := fun o operand ho => by
    obtain ⟨old, hold⟩ := exists_operand ((List.getElem?_eq_some_iff.1 ho).1.trans_eq same)
    obtain ⟨new, hnew, hgrown⟩ := grown o old hold
    obtain rfl := Option.some.inj (ho.symm.trans hnew)
    exact (h.counted o old hold).trans hgrown.1
  exchanged := fun o ho => by
    obtain ⟨old, hold, hlifetime⟩ := h.exchanged o ho
    obtain ⟨new, hnew, hgrown⟩ := grown o old hold
    exact ⟨new, hnew, hgrown.2 hlifetime⟩

theorem Sound.relabel {m : Model} (h : Sound m) {lifetime : Lifetime}
    (hlifetime : lifetime ≠ .temporary) (marked : List Nat) :
    Sound (m.relabel lifetime marked) := by
  refine h.of_grown (List.length_mapIdx ..) (fun i o ho => ?_) m.relaxed
  rw [List.getElem?_mapIdx, ho]
  refine ⟨_, rfl, ?_⟩
  split
  · exact ⟨Nat.le_refl _, fun _ => hlifetime⟩
  · exact ⟨Nat.le_refl _, id⟩

theorem Sound.setOperand {m : Model} (h : Sound m) {i : Nat} {o o' : Operand}
    (ho : m.operands[i]? = some o) (hgrown : Grown o o') : Sound (m.setOperand i o') := by
  refine h.of_grown (List.length_set ..) (fun j old hold => ?_) m.relaxed
  rw [List.getElem?_set]
  by_cases hij : i = j
  · subst hij
    obtain rfl := Option.some.inj (ho.symm.trans hold)
    rw [if_pos rfl, if_pos (List.getElem?_eq_some_iff.1 ho).1]
    exact ⟨o', rfl, hgrown⟩
  · rw [if_neg hij]
    exact ⟨old, hold, Nat.le_refl _, id⟩

theorem Sound.identified {m : Model} (h : Sound m) {inputs outputs : List Nat}
    (hinputs : ∀ i ∈ inputs, i < m.operands.length)
    (houtputs : ∀ i ∈ outputs, i < m.operands.length) : Sound (m.identified inputs outputs) := by
  have hmarked := (h.relabel (by decide : Lifetime.modelInput ≠ .temporary) inputs).relabel
    (by decide : Lifetime.modelOutput ≠ .temporary) outputs
  refine ⟨hmarked.exist, hmarked.computes, hmarked.counted, fun o ho => ?_⟩
  have hlt : o < m.operands.length := (List.mem_append.1 ho).elim (hinputs o) (houtputs o)
  obtain ⟨operand, hoperand⟩ := exists_operand hlt
  simp only [Model.identified, Model.relabel, List.getElem?_mapIdx, hoperand, Option.map_some]
  refine ⟨_, rfl, ?_⟩
  by_cases hout : o ∈ outputs
  · simp [hout]
  · have hin : o ∈ inputs := (List.mem_append.1 ho).resolve_right hout
    simp [hout, hin]

theorem Sound.addOperand {m : Model} (h : Sound m) (o : Operand) : Sound (m.addOperand o) where
  exist := fun op hop i hi => by
    simpa [Model.addOperand] using Nat.lt_succ_of_lt (h.exist op hop i hi)
  computes := h.computes
  counted := fun i operand hi => by
    by_cases hlt : i < m.operands.length
    · rw [Model.addOperand, List.getElem?_append_left hlt] at hi
      exact h.counted i operand hi
    · have hnone : m.readCount i = 0 := h.readCount_eq_zero (Nat.le_of_not_lt hlt)
      exact hnone.trans_le (Nat.zero_le _)
  exchanged := fun i hi => by
    obtain ⟨operand, hoperand, hlifetime⟩ := h.exchanged i hi
    refine ⟨operand, ?_, hlifetime⟩
    rw [Model.addOperand, List.getElem?_append_left (List.getElem?_eq_some_iff.1 hoperand).1]
    exact hoperand

theorem Sound.addOperation {m m' : Model} (h : Sound m) {type : OperationType}
    {inputs outputs : List Nat} (hadd : m.addOperation type inputs outputs = .ok m') :
    Sound m' := by
  obtain ⟨hlt, hne, rfl⟩ := addOperation_eq_ok.1 hadd
  have hoperand : ∀ i : Nat, (m.countReads inputs).operands[i]? =
      m.operands[i]?.map fun o => { o with consumers := o.consumers + inputs.count i } :=
    fun i => by rw [countReads, List.getElem?_mapIdx]
  refine ⟨fun op hop o ho => ?_, fun op hop => ?_, fun o operand ho => ?_, fun o ho => ?_⟩
  · rw [countReads, List.length_mapIdx]
    rcases List.mem_append.1 hop with hop | hop
    · exact h.exist op hop o ho
    · obtain rfl := List.mem_singleton.1 hop
      exact hlt o ho
  · rcases List.mem_append.1 hop with hop | hop
    · exact h.computes op hop
    · obtain rfl := List.mem_singleton.1 hop
      exact hne
  · obtain ⟨old, hold, rfl⟩ := Option.map_eq_some_iff.1 ((hoperand o).symm.trans ho)
    have hcount := h.counted o old hold
    rw [readCount] at hcount ⊢
    rw [List.flatMap_append, List.count_append, List.flatMap_singleton]
    exact Nat.add_le_add_right hcount _
  · obtain ⟨old, hold, hlifetime⟩ := h.exchanged o ho
    exact ⟨_, (hoperand o).trans (congrArg _ hold), hlifetime⟩

theorem Sound.settle {m : Model} (h : Sound m) {answer : Except ModelError Model}
    (accepted : ∀ m', answer = .ok m' → Sound m') : Sound (m.settle answer).1 := by
  cases answer with
  | ok m' => exact accepted m' rfl
  | error e => exact h

theorem Sound.perform {m : Model} (h : Sound m) (call : Call) : Sound (m.perform call).1 := by
  cases call with
  | addOperand o => exact h.addOperand o
  | setValue i bytes =>
    refine h.settle fun m' hm' => ?_
    obtain ⟨o, ho, -, rfl⟩ := setConstant_eq_ok.1 hm'
    exact h.setOperand ho ⟨Nat.le_refl _, fun _ => by simp⟩
  | setReference i bytes =>
    refine h.settle fun m' hm' => ?_
    obtain ⟨o, ho, -, rfl⟩ := setConstant_eq_ok.1 hm'
    exact h.setOperand ho ⟨Nat.le_refl _, fun _ => by simp⟩
  | setNoValue i =>
    refine h.settle fun m' hm' => ?_
    obtain ⟨o, ho, rfl⟩ := setNoValue_eq_ok.1 hm'
    exact h.setOperand ho ⟨Nat.le_refl _, fun _ => by simp⟩
  | addOperation type inputs outputs => exact h.settle fun m' hm' => h.addOperation hm'
  | identify inputs outputs =>
    rw [Model.perform]
    rcases m.identify_cases inputs outputs with ⟨-, e, hm⟩ | ⟨-, -, e, hm⟩ | ⟨hin, hout, hm⟩
    · rw [hm]
      exact h.relabel (by decide) _
    · rw [hm]
      exact (h.relabel (by decide) _).relabel (by decide) _
    · rw [hm]
      exact h.identified (reached_eq_self_iff.1 hin) (reached_eq_self_iff.1 hout)
  | setRelaxed relaxed =>
    exact ⟨h.exist, h.computes, h.counted, h.exchanged⟩

theorem Built.sound {m : Model} (h : Built m) : Sound m :=
  h.induction ⟨by simp, by simp, by simp, by simp⟩ fun _ call hm => hm.perform call

end NeuralDispatch.Model

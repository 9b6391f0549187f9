import NeuralDispatch.Proofs.Builder

/-!
# Calls that are refused half-way

A call on a model looks operands up, checks them, and writes.  Here the calls are written out as
those single steps, taken on the model itself, so that what has been written when a check fails
stays written.  All checks of a call come before its first write, with the exception of `identify`,
which marks each listed operand before it looks at the next one.

* `Edit`, `Edit.ofCall` — the calls, step by step.
* `Edit.run_ofCall` — step by step they do what `perform` says, whether they are accepted or not.
* `Edit.ReadsOnly.atomic_bind` — a computation that checks before it writes is atomic.
* `identify_operands` — what an identification marks, accepted or not.
* `refused_iff` — when a refused call leaves the model as it was.
* `identify_half_done` — a refused call that does not.
-/

namespace NeuralDispatch.Model

open Answer

/-! ## Calls, step by step -/

/-- A computation on a model.  What it has written stays written if it fails. -/
abbrev Edit (α : Type) := EStateM ModelError Model α

namespace Edit

/-- Looks an operand up. -/
def demand (i : Nat) : Edit Operand := do
  match (← get).operand i with
  | .ok o => return o
  | .error e => throw e

/-- Overwrites an operand. -/
def revise (i : Nat) (f : Operand → Operand) : Edit Unit :=
  modify fun m => { m with operands := m.operands.modify i f }

/-- Checks that bytes are as many as an operand takes, if that is known. -/
def checkLength (i : Nat) (o : Operand) (bytes : Bytes) : Edit Unit :=
  match o.byteLength with
  | some expected =>
    if expected ≠ bytes.length then throw (.wrongLength i expected bytes.length) else pure ()
  | none => pure ()

def setConstant (i : Nat) (bytes : Bytes) (lifetime : Lifetime) : Edit Unit := do
  let o ← demand i
  checkLength i o bytes
  revise i fun o => { o with lifetime }
  revise i fun o => { o with value := some bytes }

def setNoValue (i : Nat) : Edit Unit := do
  let _ ← demand i
  revise i fun o => { o with lifetime := .noValue }
  revise i fun o => { o with value := none }

/-- Checks that an operation computes something. -/
def checkOutputs (type : OperationType) (outputs : List Nat) : Edit Unit :=
  if outputs.isEmpty then throw (.idleOperation type) else pure ()

def addOperation (type : OperationType) (inputs outputs : List Nat) : Edit Unit := do
  (inputs ++ outputs).forM fun i => do let _ ← demand i
  checkOutputs type outputs
  inputs.forM fun i => revise i fun o => { o with consumers := o.consumers + 1 }
  modify fun m => { m with operations := m.operations ++ [⟨type, inputs, outputs⟩] }

/-- Marks one operand. -/
def markOne (lifetime : Lifetime) (i : Nat) : Edit Unit := do
  let _ ← demand i
  revise i fun o => { o with lifetime }

def identify (inputs outputs : List Nat) : Edit Unit := do
  inputs.forM (markOne .modelInput)
  outputs.forM (markOne .modelOutput)
  modify fun m => { m with inputs, outputs }

/-- A call, step by step. -/
def ofCall : Call → Edit Unit
  | .addOperand o => modify fun m => m.addOperand o
  | .setValue i bytes => setConstant i bytes .constantCopy
  | .setReference i bytes => setConstant i bytes .constantReference
  | .setNoValue i => setNoValue i
  | .addOperation type inputs outputs => addOperation type inputs outputs
  | .identify inputs outputs => identify inputs outputs
  | .setRelaxed relaxed => modify fun m => m.setRelaxed relaxed

/-! ## What the steps amount to -/

/-- A model with the answer to a call, as the outcome of a computation. -/
def outcome : Model × Except ModelError Unit → EStateM.Result ModelError Model Unit
  | (m, .ok ()) => .ok () m
  | (m, .error e) => .error e m

theorem run_demand (i : Nat) (m : Model) :
    (demand i).run m =
      match m.operand i with
      | .ok o => .ok o m
      | .error e => .error e m := by
  rw [demand, EStateM.run_bind, EStateM.run_get]
  dsimp only
  split <;> rfl

/-- An operand that is there is replaced. -/
theorem run_revise {i : Nat} {m : Model} {o : Operand} (h : m.operands[i]? = some o)
    (f : Operand → Operand) : (revise i f).run m = .ok () (m.setOperand i (f o)) := by
  have hmodify : m.operands.modify i f = m.operands.set i (f o) := by
    refine List.ext_getElem? fun j => ?_
    rw [List.getElem?_modify, List.getElem?_set]
    split
    · next hij =>
      subst hij
      rw [h, if_pos (List.getElem?_eq_some_iff.1 h).1]
      rfl
    · cases m.operands[j]? <;> rfl
  rw [revise, EStateM.run_modify, hmodify]
  rfl

/-- Two revisions of one operand are one. -/
theorem run_revise_twice {i : Nat} {m : Model} {o : Operand} (h : m.operands[i]? = some o)
    (f g : Operand → Operand) :
    (do revise i f; revise i g : Edit Unit).run m = .ok () (m.setOperand i (g (f o))) := by
  have hnew : (m.setOperand i (f o)).operands[i]? = some (f o) := by
    rw [setOperand, List.getElem?_set_self (List.getElem?_eq_some_iff.1 h).1]
  rw [EStateM.run_bind, run_revise h]
  dsimp only
  rw [run_revise hnew, setOperand, setOperand, List.set_set]
  rfl

theorem run_setConstant (i : Nat) (bytes : Bytes) (lifetime : Lifetime) (m : Model) :
    (setConstant i bytes lifetime).run m = outcome (m.settle (m.setConstant i bytes lifetime)) := by
  rw [setConstant, EStateM.run_bind, run_demand, Model.setConstant]
  cases ho : m.operand i with
  | error e => rfl
  | ok o =>
    have hwritten := run_revise_twice (operand_eq_ok.1 ho) (fun o => { o with lifetime })
      (fun o => { o with value := some bytes })
    dsimp only
    rw [EStateM.run_bind, checkLength, ok_bind]
    cases o.byteLength with
    | none => exact hwritten
    | some n =>
      dsimp only
      by_cases hn : n = bytes.length
      · rw [if_neg (not_not_intro hn), if_neg (not_not_intro hn)]
        exact hwritten
      · rw [if_pos hn, if_pos hn]
        rfl

theorem run_setNoValue (i : Nat) (m : Model) :
    (setNoValue i).run m = outcome (m.settle (m.setNoValue i)) := by
  rw [setNoValue, EStateM.run_bind, run_demand, Model.setNoValue]
  cases ho : m.operand i with
  | error e => rfl
  | ok o =>
    exact run_revise_twice (operand_eq_ok.1 ho) (fun o => { o with lifetime := .noValue })
      (fun o => { o with value := none })

/-- Looking operands up one by one stops at the first that does not exist. -/
theorem run_forM_demand (is : List Nat) (m : Model) :
    (is.forM fun i => (do let _ ← demand i : Edit Unit)).run m =
      outcome (m, is.forM fun i => do let _ ← m.operand i) := by
  induction is with
  | nil => rfl
  | cons i rest ih =>
    rw [List.forM_eq_forM, List.forM_cons, List.forM_eq_forM, List.forM_cons, EStateM.run_bind,
      EStateM.run_bind, run_demand]
    cases m.operand i with
    | error e => rfl
    | ok o => exact ih

/-- Counting the reads of an operation never fails. -/
theorem run_forM_addReader (is : List Nat) (m : Model) :
    (is.forM fun i => revise i fun o => { o with consumers := o.consumers + 1 }).run m =
      .ok () (is.foldl addReader m) := by
  induction is generalizing m with
  | nil => rfl
  | cons i rest ih =>
    rw [List.forM_eq_forM, List.forM_cons, EStateM.run_bind]
    exact ih (m.addReader i)

theorem run_addOperation (type : OperationType) (inputs outputs : List Nat) (m : Model) :
    (addOperation type inputs outputs).run m =
      outcome (m.settle (m.addOperation type inputs outputs)) := by
  rw [addOperation, EStateM.run_bind, run_forM_demand, Model.addOperation]
  cases (inputs ++ outputs).forM fun i => (do let _ ← m.operand i : Except ModelError Unit) with
  | error e => rfl
  | ok u =>
    rw [ok_bind, outcome]
    dsimp only
    rw [EStateM.run_bind, checkOutputs]
    by_cases hidle : outputs.isEmpty = true
    · rw [if_pos hidle, if_pos hidle]
      rfl
    · rw [if_neg hidle, if_neg hidle, EStateM.run_pure]
      dsimp only
      rw [EStateM.run_bind, run_forM_addReader]
      rfl

/-- Marking stops at the first operand that does not exist, and keeps what it has marked. -/
theorem run_forM_markOne (lifetime : Lifetime) (is : List Nat) (m : Model) :
    (is.forM (markOne lifetime)).run m = outcome (mark lifetime is m) := by
  induction is generalizing m with
  | nil => rfl
  | cons i rest ih =>
    rw [List.forM_eq_forM, List.forM_cons, EStateM.run_bind, markOne, EStateM.run_bind,
      run_demand, mark]
    cases ho : m.operand i with
    | error e => rfl
    | ok o =>
      dsimp only
      rw [run_revise (operand_eq_ok.1 ho)]
      exact ih (m.setOperand i { o with lifetime })

theorem run_identify (inputs outputs : List Nat) (m : Model) :
    (identify inputs outputs).run m = outcome (m.identify inputs outputs) := by
  rw [identify, EStateM.run_bind, run_forM_markOne, Model.identify]
  obtain ⟨m₁, answer⟩ := mark .modelInput inputs m
  cases answer with
  | error e => rfl
  | ok u =>
    rw [outcome]
    dsimp only
    rw [EStateM.run_bind, run_forM_markOne]
    obtain ⟨m₂, answer⟩ := mark .modelOutput outputs m₁
    cases answer <;> rfl

/-- Step by step, a call leaves the model and gives the answer that `perform` says. -/
theorem run_ofCall (call : Call) (m : Model) : (ofCall call).run m = outcome (m.perform call) := by
  cases call with
  | addOperand o => rfl
  | setValue i bytes => exact run_setConstant i bytes .constantCopy m
  | setReference i bytes => exact run_setConstant i bytes .constantReference m
  | setNoValue i => exact run_setNoValue i m
  | addOperation type inputs outputs => exact run_addOperation type inputs outputs m
  | identify inputs outputs => exact run_identify inputs outputs m
  | setRelaxed relaxed => rfl

/-! ## Checks before writes -/

section Atomic

variable {α β : Type} {x : Edit α} {f : α → Edit β}

/-- Whether a computation leaves the model as it is, also where it succeeds. -/
def ReadsOnly (x : Edit α) : Prop :=
  ∀ m, (∃ a, x.run m = .ok a m) ∨ ∃ e, x.run m = .error e m

/-- Whether a computation never fails. -/
def Succeeds (x : Edit α) : Prop := ∀ m, ∃ a m', x.run m = .ok a m'

/-- Whether a computation leaves the model as it is where it fails. -/
def Atomic (x : Edit α) : Prop := ∀ m e m', x.run m = .error e m' → m' = m

theorem Succeeds.atomic (h : Succeeds x) : Atomic x := by
  intro m e m' hrun
  obtain ⟨a, m₁, hok⟩ := h m
  rw [hok] at hrun
  cases hrun

theorem Succeeds.bind (hx : Succeeds x) (hf : ∀ a, Succeeds (f a)) : Succeeds (x >>= f) := by
  intro m
  obtain ⟨a, m₁, hok⟩ := hx m
  rw [EStateM.run_bind, hok]
  exact hf a m₁

/-- A check in front of an atomic computation leaves it atomic. -/
theorem ReadsOnly.atomic_bind (hx : ReadsOnly x) (hf : ∀ a, Atomic (f a)) : Atomic (x >>= f) := by
  intro m e m' hrun
  rw [EStateM.run_bind] at hrun
  rcases hx m with ⟨a, hok⟩ | ⟨e', herror⟩
  · rw [hok] at hrun
    exact hf a m e m' hrun
  · rw [herror] at hrun
    cases hrun
    rfl

end Atomic

theorem readsOnly_demand (i : Nat) : ReadsOnly (demand i) := by
  intro m
  rw [run_demand]
  cases m.operand i with
  | ok o => exact .inl ⟨o, rfl⟩
  | error e => exact .inr ⟨e, rfl⟩

theorem readsOnly_checkLength (i : Nat) (o : Operand) (bytes : Bytes) :
    ReadsOnly (checkLength i o bytes) := by
  intro m
  unfold checkLength
  split
  · split
    · exact .inr ⟨_, rfl⟩
    · exact .inl ⟨(), rfl⟩
  · exact .inl ⟨(), rfl⟩

theorem readsOnly_forM_demand (is : List Nat) :
    ReadsOnly (is.forM fun i => (do let _ ← demand i : Edit Unit)) := by
  intro m
  rw [run_forM_demand]
  cases is.forM fun i => (do let _ ← m.operand i : Except ModelError Unit) with
  | ok u => exact .inl ⟨(), rfl⟩
  | error e => exact .inr ⟨e, rfl⟩

theorem readsOnly_checkOutputs (type : OperationType) (outputs : List Nat) :
    ReadsOnly (checkOutputs type outputs) := by
  intro m
  unfold checkOutputs
  split
  · exact .inr ⟨_, rfl⟩
  · exact .inl ⟨(), rfl⟩

theorem succeeds_modify (f : Model → Model) : Succeeds (modify f : Edit Unit) :=
  fun m => ⟨(), f m, rfl⟩

theorem atomic_setConstant (i : Nat) (bytes : Bytes) (lifetime : Lifetime) :
    Atomic (setConstant i bytes lifetime) := by
  refine (readsOnly_demand i).atomic_bind fun o => ?_
  refine (readsOnly_checkLength i o bytes).atomic_bind fun _ => ?_
  exact ((succeeds_modify _).bind fun _ => succeeds_modify _).atomic

theorem atomic_setNoValue (i : Nat) : Atomic (setNoValue i) := by
  refine (readsOnly_demand i).atomic_bind fun _ => ?_
  exact ((succeeds_modify _).bind fun _ => succeeds_modify _).atomic

theorem atomic_addOperation (type : OperationType) (inputs outputs : List Nat) :
    Atomic (addOperation type inputs outputs) := by
  refine (readsOnly_forM_demand _).atomic_bind fun _ => ?_
  refine (readsOnly_checkOutputs type outputs).atomic_bind fun _ => ?_
  have hcounting : Succeeds
      (inputs.forM fun i => revise i fun o => { o with consumers := o.consumers + 1 }) :=
    fun m => ⟨(), _, run_forM_addReader inputs m⟩
  exact (hcounting.bind fun _ => succeeds_modify _).atomic

/-- All checks of a call come before its first write, unless it is an identification. -/
theorem atomic_ofCall {call : Call} (h : ∀ inputs outputs, call ≠ .identify inputs outputs) :
    Atomic (ofCall call) := by
  cases call with
  | addOperand o => exact (succeeds_modify _).atomic
  | setValue i bytes => exact atomic_setConstant i bytes _
  | setReference i bytes => exact atomic_setConstant i bytes _
  | setNoValue i => exact atomic_setNoValue i
  | addOperation type inputs outputs => exact atomic_addOperation type inputs outputs
  | identify inputs outputs => exact absurd rfl (h inputs outputs)
  | setRelaxed relaxed => exact (succeeds_modify _).atomic

end Edit

/-! ## What an identification marks -/

/-- The lifetime that an identification gives to an operand, if it comes to it.  Outputs are marked
after all inputs have been found. -/
def markedAs (m : Model) (inputs outputs : List Nat) (i : Nat) : Option Lifetime :=
  if m.reached inputs = inputs ∧ i ∈ m.reached outputs then some .modelOutput
  else if i ∈ m.reached inputs then some .modelInput
  else none

/-- Accepted or not, an identification gives operands the lifetimes that it comes to, and changes
nothing else about them. -/
theorem identify_operands (m : Model) (inputs outputs : List Nat) (i : Nat) :
    (m.identify inputs outputs).1.operands[i]? = m.operands[i]?.map fun o =>
      { o with lifetime := (m.markedAs inputs outputs i).getD o.lifetime } := by
  have hboth : ∀ a b : List Nat,
      ((m.relabel .modelInput a).relabel .modelOutput b).operands[i]? = m.operands[i]?.map fun o =>
        { o with lifetime :=
            if i ∈ b then .modelOutput else if i ∈ a then .modelInput else o.lifetime } := by
    intro a b
    rw [getElem?_relabel, getElem?_relabel, Option.map_map]
    rfl
  unfold markedAs
  rcases m.identify_cases inputs outputs with ⟨hin, e, h⟩ | ⟨hin, hout, e, h⟩ | ⟨hin, hout, h⟩
  · rw [h, getElem?_relabel]
    simp only [hin, false_and, if_false]
    split <;> rfl
  · rw [h, hboth]
    simp only [hin, true_and]
    split
    · rfl
    · split <;> rfl
  · rw [h]
    show ((m.relabel .modelInput inputs).relabel .modelOutput outputs).operands[i]? = _
    rw [hboth]
    simp only [hin, hout, true_and]
    split
    · rfl
    · split <;> rfl

/-- A refused identification changes lifetimes and nothing else. -/
theorem identify_refused {m m' : Model} {inputs outputs : List Nat} {e : ModelError}
    (h : m.identify inputs outputs = (m', .error e)) :
    m' = { m with operands := m'.operands } := by
  rcases m.identify_cases inputs outputs with ⟨-, e', hcase⟩ | ⟨-, -, e', hcase⟩ | ⟨-, -, hcase⟩
  · obtain ⟨rfl, -⟩ := Prod.mk.inj (hcase.symm.trans h)
    rfl
  · obtain ⟨rfl, -⟩ := Prod.mk.inj (hcase.symm.trans h)
    rfl
  · cases hcase.symm.trans h

/-- A refused identification leaves the model as it was just if it has come to no operand that had
another lifetime. -/
theorem identify_refused_eq_self_iff {m m' : Model} {inputs outputs : List Nat} {e : ModelError}
    (h : m.identify inputs outputs = (m', .error e)) :
    m' = m ↔ ∀ (i : Nat) o, m.operands[i]? = some o →
      ∀ lifetime ∈ m.markedAs inputs outputs i, o.lifetime = lifetime := by
  have hoperands : ∀ i : Nat, m'.operands[i]? = m.operands[i]?.map fun o =>
      { o with lifetime := (m.markedAs inputs outputs i).getD o.lifetime } := fun i => by
    rw [← identify_operands, h]
  constructor
  · rintro rfl i o ho lifetime hmarked
    have hsame := hoperands i
    rw [ho, Option.mem_def.1 hmarked] at hsame
    exact congrArg Operand.lifetime (Option.some.inj hsame)
  · intro hall
    rw [identify_refused h]
    suffices hsame : m'.operands = m.operands by rw [hsame]
    refine List.ext_getElem? fun i => ?_
    rw [hoperands]
    cases ho : m.operands[i]? with
    | none => rfl
    | some o =>
      cases hmarked : m.markedAs inputs outputs i with
      | none => rfl
      | some lifetime =>
        rw [← hall i o ho lifetime hmarked]
        rfl

/-! ## Refused calls -/

/-- A refused call, step by step, ends with the model and the error that `perform` says.  The model
is as it was, unless the call is an identification that has come to operands of other lifetimes
before it found one that does not exist; and then only their lifetimes have changed. -/
theorem refused_iff {m m' : Model} {call : Call} {e : ModelError}
    (h : m.perform call = (m', .error e)) :
    (Edit.ofCall call).run m = .error e m' ∧
      (m' = m ↔ ∀ inputs outputs, call = .identify inputs outputs →
        ∀ (i : Nat) o, m.operands[i]? = some o →
          ∀ lifetime ∈ m.markedAs inputs outputs i, o.lifetime = lifetime) ∧
      m' = { m with operands := m'.operands } ∧
      ∀ i : Nat, m'.operands[i]?.map ({ · with lifetime := .temporary }) =
        m.operands[i]?.map ({ · with lifetime := .temporary }) := by
  have hrun : (Edit.ofCall call).run m = .error e m' := by
    rw [Edit.run_ofCall, h]
    rfl
  refine ⟨hrun, ?_⟩
  by_cases hcall : ∃ inputs outputs, call = .identify inputs outputs
  · obtain ⟨inputs, outputs, rfl⟩ := hcall
    refine ⟨?_, identify_refused h, fun i => ?_⟩
    · rw [identify_refused_eq_self_iff h]
      refine ⟨?_, fun hall => hall inputs outputs rfl⟩
      intro hall inputs' outputs' hsame
      cases hsame
      exact hall
    · have hoperand := identify_operands m inputs outputs i
      rw [show (m.identify inputs outputs).1 = m' from congrArg Prod.fst h] at hoperand
      rw [hoperand, Option.map_map]
      rfl
  · have hother : ∀ inputs outputs, call ≠ .identify inputs outputs :=
      fun inputs outputs hsame => hcall ⟨inputs, outputs, hsame⟩
    obtain rfl := Edit.atomic_ofCall hother m e m' hrun
    exact ⟨⟨fun _ inputs outputs hsame => absurd hsame (hother inputs outputs), fun _ => rfl⟩,
      rfl, fun _ => rfl⟩

/-- A model of one operand, which nothing has marked. -/
def lone : Model := performAll {} [.addOperand { type := .tensorFloat32, dimensions := [1] }]

/-- The one operand is marked before the second input turns out not to exist. -/
theorem refused_iff_lone :
    lone.perform (.identify [0, 7] []) =
        (lone.relabel .modelInput [0], .error (.unknownOperand 7)) ∧
      (Edit.ofCall (.identify [0, 7] [])).run lone =
        .error (.unknownOperand 7) (lone.relabel .modelInput [0]) ∧
      lone.relabel .modelInput [0] ≠ lone ∧
      lone.relabel .modelInput [0] =
        { lone with operands := (lone.relabel .modelInput [0]).operands } := by
  have hrefused : lone.perform (.identify [0, 7] []) =
      (lone.relabel .modelInput [0], .error (.unknownOperand 7)) := by decide
  obtain ⟨hrun, hiff, hsame, -⟩ := refused_iff hrefused
  refine ⟨hrefused, hrun, fun heq => ?_, hsame⟩
  have hlifetime := hiff.1 heq [0, 7] [] rfl 0 _ rfl .modelInput (by decide)
  exact absurd hlifetime (by decide)

/-- A call that is refused, on a model that calls have built, and changes it all the same. -/
theorem identify_half_done :
    Built lone ∧ (lone.perform (.identify [0, 7] [])).2 = .error (.unknownOperand 7) ∧
      (lone.perform (.identify [0, 7] [])).1 ≠ lone := by
  exact ⟨⟨_, rfl⟩, by decide, by decide⟩

end NeuralDispatch.Model

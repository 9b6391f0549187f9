import NeuralDispatch.Proofs.Growth

/-!
# What holds of a model after any calls

Whatever calls are made on a model, accepted or refused, its indices stay in bounds and its counts
right, and every constant has bytes of the right length.  The converse, that only constants have
bytes, fails in one way: an identification overwrites the lifetime of a constant and leaves its
bytes behind.

* `Handled`, `handled_perform` — what a call does to the lifetime and the bytes of an operand.
* `performAll_handled` — what therefore holds of all operands after any calls.
* `MarkedOver`, `stale_iff` — an operand that is no constant has bytes just if it has been marked
  while it held them, and no call has set them or taken them since.
* `Arena`, `arena` — what holds after any calls.
* `arena_stale` — a constant that has become an input with bytes.
-/

namespace NeuralDispatch

/-- An operand as it is added: nothing reads it, and it is no constant and has no bytes. -/
structure Operand.Fresh (o : Operand) : Prop where
  unread : o.consumers = 0
  mutable : o.isConstant = false
  blank : o.value = none

namespace Model

open Answer

/-! ## One call -/

/-- The operand whose bytes a call sets or takes. -/
def Call.target? : Call → Option Nat
  | .setValue i _ | .setReference i _ | .setNoValue i => some i
  | .addOperand _ | .addOperation .. | .identify .. | .setRelaxed _ => none

/-- Whether a call sets the bytes of an operand or takes them, and is accepted. -/
def Sets (m : Model) (call : Call) (i : Nat) : Prop :=
  call.target? = some i ∧ (m.perform call).2 = .ok ()

/-- Whether a call marks an operand as an input or output, even if it is refused later on. -/
def Marks (m : Model) (call : Call) (i : Nat) : Prop :=
  ∃ inputs outputs, call = .identify inputs outputs ∧ m.markedAs inputs outputs i ≠ none

/-- What a call may do to the lifetime and the bytes of an operand. -/
inductive Handled (m : Model) (call : Call) (i : Nat) (o o' : Operand) : Prop where
  | kept (hsets : ¬ Sets m call i) (hmarks : ¬ Marks m call i)
    (hlifetime : o'.lifetime = o.lifetime) (hvalue : o'.value = o.value)
  | given (hsets : Sets m call i) (hconstant : o'.isConstant = true) (hvalue : o'.value ≠ none)
  | taken (hsets : Sets m call i) (hlifetime : o'.lifetime = .noValue) (hvalue : o'.value = none)
  | marked (hmarks : Marks m call i)
    (hlifetime : o'.lifetime = .modelInput ∨ o'.lifetime = .modelOutput)
    (hvalue : o'.value = o.value)

theorem markedAs_eq_some {m : Model} {inputs outputs : List Nat} {i : Nat} {lifetime : Lifetime}
    (h : m.markedAs inputs outputs i = some lifetime) :
    lifetime = .modelInput ∨ lifetime = .modelOutput := by
  unfold markedAs at h
  split at h
  · exact .inr (Option.some.inj h).symm
  · split at h
    · exact .inl (Option.some.inj h).symm
    · cases h

theorem not_marks {m : Model} {call : Call} {i : Nat}
    (h : ∀ inputs outputs, call ≠ .identify inputs outputs) : ¬ Marks m call i := by
  rintro ⟨inputs, outputs, rfl, -⟩
  exact h inputs outputs rfl

theorem not_sets_of_marks {m : Model} {call : Call} {i : Nat} (h : Marks m call i) :
    ¬ Sets m call i := by
  obtain ⟨inputs, outputs, rfl, -⟩ := h
  rintro ⟨htarget, -⟩
  cases htarget

section Handled

variable {m : Model} {call : Call} {i : Nat} {o : Operand}

/-- A call that is refused, or is about another operand, leaves this one alone. -/
theorem handled_same (hsets : ¬ Sets m call i) (hmarks : ¬ Marks m call i) :
    Handled m call i o o := .kept hsets hmarks rfl rfl

/-- A call that sets one operand, or is refused. -/
theorem handled_settle {j : Nat} {answer : Except ModelError Model}
    (ho : m.operands[i]? = some o) (hperform : m.perform call = m.settle answer)
    (htarget : call.target? = some j)
    (haccepted : ∀ m', answer = .ok m' → ∃ new : Operand, m' = m.setOperand j new ∧
      (new.isConstant = true ∧ new.value ≠ none ∨ new.lifetime = .noValue ∧ new.value = none)) :
    ∃ o', (m.perform call).1.operands[i]? = some o' ∧ Handled m call i o o' := by
  have hmarks : ¬ Marks m call i := not_marks fun inputs outputs heq => by
    rw [heq] at htarget
    cases htarget
  cases answer with
  | error e =>
    refine ⟨o, ?_, handled_same (fun hsets => ?_) hmarks⟩
    · rw [hperform]
      exact ho
    · have hok := hsets.2
      rw [hperform] at hok
      cases hok
  | ok m' =>
    obtain ⟨new, rfl, hnew⟩ := haccepted m' rfl
    have hlt := (List.getElem?_eq_some_iff.1 ho).1
    rw [hperform]
    show ∃ o', (m.operands.set j new)[i]? = some o' ∧ _
    rw [List.getElem?_set]
    by_cases hji : j = i
    · subst hji
      have hsets : Sets m call j := ⟨htarget, by rw [hperform]; rfl⟩
      rw [if_pos rfl, if_pos hlt]
      rcases hnew with ⟨hconstant, hvalue⟩ | ⟨hlifetime, hvalue⟩
      · exact ⟨new, rfl, .given hsets hconstant hvalue⟩
      · exact ⟨new, rfl, .taken hsets hlifetime hvalue⟩
    · rw [if_neg hji]
      refine ⟨o, ho, handled_same (fun hsets => hji ?_) hmarks⟩
      exact Option.some.inj (htarget.symm.trans hsets.1)

theorem handled_setConstant {j : Nat} {bytes : Bytes} {lifetime : Lifetime}
    (ho : m.operands[i]? = some o) (hlifetime : lifetime.isConstant = true)
    (hperform : m.perform call = m.settle (m.setConstant j bytes lifetime))
    (htarget : call.target? = some j) :
    ∃ o', (m.perform call).1.operands[i]? = some o' ∧ Handled m call i o o' := by
  refine handled_settle ho hperform htarget fun m' hm' => ?_
  obtain ⟨old, -, -, rfl⟩ := setConstant_eq_ok.1 hm'
  exact ⟨_, rfl, .inl ⟨hlifetime, by simp⟩⟩

/-- What a call does to an operand that is there. -/
theorem handled_perform (call : Call) (ho : m.operands[i]? = some o) :
    ∃ o', (m.perform call).1.operands[i]? = some o' ∧ Handled m call i o o' := by
  cases call with
  | addOperand new =>
    refine ⟨o, ?_, handled_same (fun hsets => by cases hsets.1) (not_marks fun _ _ => by simp)⟩
    show (m.operands ++ [new])[i]? = some o
    rw [List.getElem?_append_left (List.getElem?_eq_some_iff.1 ho).1, ho]
  | setValue j bytes => exact handled_setConstant ho rfl rfl rfl
  | setReference j bytes => exact handled_setConstant ho rfl rfl rfl
  | setNoValue j =>
    refine handled_settle ho rfl rfl fun m' hm' => ?_
    obtain ⟨old, -, rfl⟩ := setNoValue_eq_ok.1 hm'
    exact ⟨_, rfl, .inr ⟨rfl, rfl⟩⟩
  | addOperation type inputs outputs =>
    have hsets : ¬ Sets m (.addOperation type inputs outputs) i := fun hsets => by cases hsets.1
    show ∃ o', (m.settle (m.addOperation type inputs outputs)).1.operands[i]? = some o' ∧ _
    cases hadd : m.addOperation type inputs outputs with
    | error e => exact ⟨o, ho, handled_same hsets (not_marks fun _ _ => by simp)⟩
    | ok m' =>
      obtain ⟨-, -, rfl⟩ := addOperation_eq_ok.1 hadd
      refine ⟨{ o with consumers := o.consumers + inputs.count i }, ?_,
        .kept hsets (not_marks fun _ _ => by simp) rfl rfl⟩
      show (m.countReads inputs).operands[i]? = _
      rw [countReads, List.getElem?_mapIdx, ho]
      rfl
  | identify inputs outputs =>
    have hoperand := identify_operands m inputs outputs i
    rw [ho] at hoperand
    refine ⟨_, hoperand, ?_⟩
    cases hmarked : m.markedAs inputs outputs i with
    | none =>
      have hmarks : ¬ Marks m (.identify inputs outputs) i := by
        rintro ⟨inputs', outputs', heq, hsome⟩
        cases heq
        exact hsome hmarked
      exact .kept (fun hsets => by cases hsets.1) hmarks rfl rfl
    | some lifetime =>
      have hmarks : Marks m (.identify inputs outputs) i :=
        ⟨inputs, outputs, rfl, by simp [hmarked]⟩
      exact .marked hmarks (markedAs_eq_some hmarked) rfl
  | setRelaxed relaxed =>
    exact ⟨o, ho, handled_same (fun hsets => by cases hsets.1) (not_marks fun _ _ => by simp)⟩

/-- An operand after a call has been there before, or is the one that the call adds. -/
theorem handled_of_perform {o' : Operand} (h : (m.perform call).1.operands[i]? = some o') :
    (∃ o, m.operands[i]? = some o ∧ Handled m call i o o') ∨
      (i = m.operands.length ∧ call = .addOperand o') := by
  rcases perform_operand h with ⟨o, -, ho, -, -⟩ | hadded
  · obtain ⟨o'', ho'', hhandled⟩ := handled_perform call ho
    obtain rfl := Option.some.inj (h.symm.trans ho'')
    exact .inl ⟨o, ho, hhandled⟩
  · exact .inr hadded

end Handled

/-! ## Bytes and lifetimes -/

/-- Whether an operand has bytes if it is a constant, and has none if nothing has been said of it
or it is left out. -/
structure Equipped (o : Operand) : Prop where
  constant : o.isConstant = true → o.value ≠ none
  bare : o.lifetime = .temporary ∨ o.lifetime = .noValue → o.value = none

theorem equipped_of_fresh {o : Operand} (h : o.Fresh) : Equipped o :=
  ⟨fun hconstant => absurd (h.mutable.symm.trans hconstant) (by decide), fun _ => h.blank⟩

theorem Handled.equipped {m : Model} {call : Call} {i : Nat} {o o' : Operand}
    (h : Handled m call i o o') (ho : Equipped o) : Equipped o' := by
  cases h with
  | kept _ _ hlifetime hvalue =>
    constructor
    · rw [Operand.isConstant, hlifetime, hvalue]
      exact ho.constant
    · rw [hlifetime, hvalue]
      exact ho.bare
  | given _ hconstant hvalue =>
    refine ⟨fun _ => hvalue, ?_⟩
    rw [Operand.isConstant] at hconstant
    rintro (h | h) <;> · rw [h] at hconstant; cases hconstant
  | taken _ hlifetime hvalue =>
    refine ⟨?_, fun _ => hvalue⟩
    rw [Operand.isConstant, hlifetime]
    nofun
  | marked _ hlifetime hvalue =>
    constructor
    · rw [Operand.isConstant]
      rcases hlifetime with h | h <;> · rw [h]; nofun
    · rcases hlifetime with h | h <;> · rw [h]; rintro (h | h) <;> cases h

/-- What holds of every operand that is added, and of an operand after a call if it did before,
holds of all operands after any calls. -/
theorem performAll_handled {P : Operand → Prop}
    (kept : ∀ {m call i o o'}, Handled m call i o o' → P o → P o') {calls : List Call}
    (added : ∀ o, .addOperand o ∈ calls → P o) : ∀ o ∈ (performAll {} calls).operands, P o := by
  induction calls using List.reverseRecOn with
  | nil => exact fun o ho => absurd ho List.not_mem_nil
  | append_singleton before call ih =>
    intro o' ho'
    rw [performAll_concat] at ho'
    obtain ⟨i, hi⟩ := List.mem_iff_getElem?.1 ho'
    rcases handled_of_perform hi with ⟨o, ho, hhandled⟩ | ⟨-, rfl⟩
    · refine kept hhandled (ih (fun o ho => added o (List.mem_append_left _ ho)) o ?_)
      exact List.mem_of_getElem? ho
    · exact added o' (by simp)

/-! ## Bytes of what is no constant -/

/-- Whether an operand has bytes. -/
def HasBytes (m : Model) (i : Nat) : Prop := ∃ o, m.operands[i]? = some o ∧ o.value ≠ none

/-- Whether an operand has bytes although it is no constant. -/
def Stale (m : Model) (i : Nat) : Prop :=
  ∃ o, m.operands[i]? = some o ∧ o.value ≠ none ∧ o.isConstant = false

/-- Whether an operand has been marked as an input or output while it held bytes, and no call has
set them or taken them since. -/
inductive MarkedOver (i : Nat) : List Call → Prop where
  | mark {before : List Call} {call : Call} (hmarks : Marks (performAll {} before) call i)
    (hbytes : HasBytes (performAll {} before) i) : MarkedOver i (before ++ [call])
  | since {before : List Call} {call : Call} (h : MarkedOver i before)
    (hsets : ¬ Sets (performAll {} before) call i) : MarkedOver i (before ++ [call])

theorem markedOver_concat {i : Nat} {before : List Call} {call : Call} :
    MarkedOver i (before ++ [call]) ↔
      Marks (performAll {} before) call i ∧ HasBytes (performAll {} before) i ∨
        MarkedOver i before ∧ ¬ Sets (performAll {} before) call i := by
  constructor
  · intro h
    generalize hall : before ++ [call] = calls at h
    cases h with
    | mark hmarks hbytes =>
      obtain ⟨rfl, hcall⟩ := List.append_inj' hall rfl
      cases hcall
      exact .inl ⟨hmarks, hbytes⟩
    | since h hsets =>
      obtain ⟨rfl, hcall⟩ := List.append_inj' hall rfl
      cases hcall
      exact .inr ⟨h, hsets⟩
  · rintro (⟨hmarks, hbytes⟩ | ⟨h, hsets⟩)
    · exact .mark hmarks hbytes
    · exact .since h hsets

/-- Bytes are left behind by a call that marks the operand, and stay until a call sets them or takes
them. -/
theorem stale_perform {m : Model} {call : Call} {i : Nat}
    (fresh : ∀ o, call = .addOperand o → o.Fresh) :
    Stale (m.perform call).1 i ↔
      Marks m call i ∧ HasBytes m i ∨ Stale m i ∧ ¬ Sets m call i := by
  constructor
  · rintro ⟨o', ho', hvalue, hconstant⟩
    rcases handled_of_perform ho' with ⟨o, ho, hhandled⟩ | ⟨-, rfl⟩
    · cases hhandled with
      | kept hsets _ hlifetime hsame =>
        rw [hsame] at hvalue
        rw [Operand.isConstant, hlifetime] at hconstant
        exact .inr ⟨⟨o, ho, hvalue, hconstant⟩, hsets⟩
      | given _ hgiven _ => exact absurd (hconstant.symm.trans hgiven) (by decide)
      | taken _ _ hnone => exact absurd hnone hvalue
      | marked hmarks _ hsame =>
        rw [hsame] at hvalue
        exact .inl ⟨hmarks, o, ho, hvalue⟩
    · exact absurd (fresh o' rfl).blank hvalue
  · rintro (⟨hmarks, o, ho, hvalue⟩ | ⟨⟨o, ho, hvalue, hconstant⟩, hsets⟩)
    · obtain ⟨o', ho', hhandled⟩ := handled_perform call ho
      cases hhandled with
      | kept _ hnot => exact absurd hmarks hnot
      | given hsets => exact absurd hsets (not_sets_of_marks hmarks)
      | taken hsets => exact absurd hsets (not_sets_of_marks hmarks)
      | marked _ hlifetime hsame =>
        refine ⟨o', ho', by rwa [hsame], ?_⟩
        rw [Operand.isConstant]
        rcases hlifetime with h | h <;> · rw [h]; rfl
    · obtain ⟨o', ho', hhandled⟩ := handled_perform call ho
      cases hhandled with
      | kept _ _ hlifetime hsame =>
        refine ⟨o', ho', by rwa [hsame], ?_⟩
        rwa [Operand.isConstant, hlifetime]
      | given hgiven => exact absurd hgiven hsets
      | taken htaken => exact absurd htaken hsets
      | marked _ hlifetime hsame =>
        refine ⟨o', ho', by rwa [hsame], ?_⟩
        rw [Operand.isConstant]
        rcases hlifetime with h | h <;> · rw [h]; rfl

/-- An operand that is no constant has bytes just if they have been left behind. -/
theorem stale_iff {calls : List Call} (fresh : ∀ o, .addOperand o ∈ calls → o.Fresh) {i : Nat} :
    Stale (performAll {} calls) i ↔ MarkedOver i calls := by
  induction calls using List.reverseRecOn with
  | nil =>
    constructor
    · rintro ⟨o, ho, -⟩
      cases ho
    · intro h
      generalize hnil : ([] : List Call) = calls at h
      cases h with
      | mark => simp at hnil
      | since => simp at hnil
  | append_singleton before call ih =>
    have hadded : ∀ o, call = .addOperand o → o.Fresh := by
      rintro o rfl
      exact fresh o (by simp)
    rw [performAll_concat, stale_perform hadded, markedOver_concat,
      ih fun o ho => fresh o (List.mem_append_left _ ho)]

/-! ## The whole model -/

/-- What holds of a model after any calls. -/
structure Arena (m : Model) : Prop where
  exist : ∀ op ∈ m.operations, ∀ o ∈ op.inputs ++ op.outputs, o < m.operands.length
  listed : ∀ o ∈ m.inputs ++ m.outputs, o < m.operands.length
  computes : ∀ op ∈ m.operations, op.outputs ≠ []
  /-- Every read of an operand is counted, as often as it is read. -/
  counted : ∀ (i : Nat) o, m.operands[i]? = some o →
    o.consumers = (m.operations.flatMap (·.inputs)).count i
  /-- A constant has bytes. -/
  valued : ∀ o ∈ m.operands, o.isConstant = true → o.value ≠ none
  /-- Whatever has bytes is a constant, or an input or output. -/
  given : ∀ o ∈ m.operands, o.value ≠ none →
    o.isConstant = true ∨ o.lifetime = .modelInput ∨ o.lifetime = .modelOutput
  /-- Bytes are as many as the operand takes, if that is known. -/
  fits : ∀ o ∈ m.operands, ∀ bytes ∈ o.value, ∀ n ∈ o.byteLength, n = bytes.length

/-- After any calls, accepted or refused, the indices of a model are in bounds, its counts are
right, and its constants have bytes that fit.  An operand has bytes just if it is a constant, unless
an identification has marked it while it held them. -/
theorem arena {calls : List Call} (fresh : ∀ o, .addOperand o ∈ calls → o.Fresh) :
    Arena (performAll {} calls) ∧
      ∀ (i : Nat) o, (performAll {} calls).operands[i]? = some o →
        ((o.value ≠ none ↔ o.isConstant = true) ↔ ¬ MarkedOver i calls) := by
  have hsound : Sound (performAll {} calls) := Built.sound ⟨calls, rfl⟩
  have hequipped : ∀ o ∈ (performAll {} calls).operands, Equipped o :=
    performAll_handled Handled.equipped fun o ho => equipped_of_fresh (fresh o ho)
  refine ⟨⟨hsound.exist, fun o ho => ?_, hsound.computes, fun i o ho => ?_,
    fun o ho => (hequipped o ho).constant, fun o ho hvalue => ?_, fun o ho => ?_⟩, fun i o ho => ?_⟩
  · obtain ⟨operand, hoperand, -⟩ := hsound.exchanged o ho
    exact (List.getElem?_eq_some_iff.1 hoperand).1
  · exact counted_performAll (fun o ho => (fresh o ho).unread) ho
  · have hbare := (hequipped o ho).bare
    cases hlifetime : o.lifetime with
    | temporary => exact absurd (hbare (.inl hlifetime)) hvalue
    | noValue => exact absurd (hbare (.inr hlifetime)) hvalue
    | modelInput => exact .inr (.inl rfl)
    | modelOutput => exact .inr (.inr rfl)
    | constantCopy => exact .inl (by rw [Operand.isConstant, hlifetime]; rfl)
    | constantReference => exact .inl (by rw [Operand.isConstant, hlifetime]; rfl)
  · obtain ⟨i, hi⟩ := List.mem_iff_getElem?.1 ho
    refine fits_performAll (fun new hnew bytes hbytes => ?_) hi
    rw [(fresh new hnew).blank] at hbytes
    cases hbytes
  · rw [← stale_iff fresh]
    have hconstant := (hequipped o (List.mem_of_getElem? ho)).constant
    constructor
    · rintro hiff ⟨o', ho', hvalue, hmutable⟩
      obtain rfl := Option.some.inj (ho.symm.trans ho')
      exact absurd (hmutable.symm.trans (hiff.1 hvalue)) (by decide)
    · intro hstale
      refine ⟨fun hvalue => ?_, hconstant⟩
      by_contra hmutable
      exact hstale ⟨o, ho, hvalue, by simpa using hmutable⟩

/-- Calls that make an input of a constant.  One of them is refused, for bytes that are too few. -/
def overmarking : List Call := [
  .addOperand { type := .tensorFloat32, dimensions := [1] },
  .addOperand { type := .tensorFloat32, dimensions := [1] },
  .setValue 1 [0],
  .setValue 0 [0, 0, 128, 63],
  .addOperation .relu [0] [1],
  .identify [0] [1]]

theorem fresh_overmarking : ∀ o, .addOperand o ∈ overmarking → o.Fresh := by
  intro o ho
  obtain rfl : o = { type := .tensorFloat32, dimensions := [1] } := by
    simpa [overmarking] using ho
  exact ⟨rfl, rfl, rfl⟩

/-- All indices and counts are right, and yet an input has bytes: it has been marked over. -/
theorem arena_overmarking :
    (∀ o, .addOperand o ∈ overmarking → o.Fresh) ∧ Arena (performAll {} overmarking) ∧
      MarkedOver 0 overmarking := by
  obtain ⟨harena, hiff⟩ := arena fresh_overmarking
  refine ⟨fresh_overmarking, harena, ?_⟩
  by_contra hkept
  have hconstant := ((hiff 0 _ rfl).2 hkept).1 (by decide)
  exact absurd hconstant (by decide)

/-- An input with bytes, in a model that calls have built from fresh operands. -/
theorem arena_stale :
    (∀ o, .addOperand o ∈ overmarking → o.Fresh) ∧
      ∃ o, (performAll {} overmarking).operands[0]? = some o ∧
        o.value = some [0, 0, 128, 63] ∧ o.lifetime = .modelInput ∧ o.isConstant = false := by
  exact ⟨fresh_overmarking, _, rfl, by decide, by decide, by decide⟩

end Model

end NeuralDispatch

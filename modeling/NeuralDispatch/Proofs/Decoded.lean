import NeuralDispatch.Proofs.DataCache
import NeuralDispatch.Proofs.Growth
import NeuralDispatch.Proofs.Seal

/-!
# What decoding can bring in

Cache files can hold anything, but a model that is decoded from them is one that calls build.  So
its positions exist, and what is counted in it fits into a word because a payload does.

* `Model.Reaches` — whether calls make one model of another, and how many reads they add.
* `Reader.Shrinks` — a reading never gives back more bytes than it was given.
* `reaches_of_decode` — calls make every model that is decoded, from an empty one.
* `intact_of_decode` — it can be worked on without looking outside of it.
-/

namespace NeuralDispatch

open Answer

namespace Model

/-! ## Models that calls reach -/

/-- How many inputs the operations have in all. -/
def totalReads (m : Model) : Nat := (m.operations.flatMap (·.inputs)).length

/-- Whether calls make a model of another one and add so many reads.  Operands are added without
bytes, and without readers. -/
structure Reaches (reads : Nat) (m m' : Model) : Prop where
  calls : ∃ calls, (∀ o, .addOperand o ∈ calls → o.value = none ∧ o.consumers = 0) ∧
    m' = performAll m calls
  reads : m'.totalReads = m.totalReads + reads

theorem Reaches.refl (m : Model) : Reaches 0 m m := ⟨⟨[], by simp, rfl⟩, rfl⟩

theorem Reaches.trans {reads further : Nat} {m between m' : Model} (h : Reaches reads m between)
    (h' : Reaches further between m') : Reaches (reads + further) m m' := by
  obtain ⟨calls, fresh, hcalls⟩ := h.calls
  obtain ⟨calls', fresh', hcalls'⟩ := h'.calls
  refine ⟨⟨calls ++ calls', ?_, ?_⟩, ?_⟩
  · intro o ho
    rcases List.mem_append.1 ho with ho | ho
    · exact fresh o ho
    · exact fresh' o ho
  · rw [hcalls', hcalls, performAll, performAll, performAll, List.foldl_append]
  · rw [h'.reads, h.reads, Nat.add_assoc]

/-- One call that adds no operand. -/
theorem reaches_perform {reads : Nat} {m m' : Model} (call : Call)
    (hcall : ∀ o, call ≠ .addOperand o) (h : (m.perform call).1 = m')
    (hreads : m'.totalReads = m.totalReads + reads) : Reaches reads m m' := by
  refine ⟨⟨[call], ?_, h.symm⟩, hreads⟩
  intro o ho
  exact absurd (List.mem_singleton.1 ho).symm (hcall o)

theorem reaches_addOperation {m m' : Model} {type : OperationType} {inputs outputs : List Nat}
    (h : m.addOperation type inputs outputs = .ok m') : Reaches inputs.length m m' := by
  apply reaches_perform (.addOperation type inputs outputs)
  · simp
  · rw [perform, h, settle]
  · obtain ⟨-, -, rfl⟩ := addOperation_eq_ok.1 h
    simp [totalReads]

theorem reaches_setConstant {m m' : Model} {i : Nat} {bytes : Bytes} {lifetime : Lifetime}
    (hlifetime : lifetime.isConstant = true) (h : m.setConstant i bytes lifetime = .ok m') :
    Reaches 0 m m' := by
  have hreads : m'.totalReads = m.totalReads := by
    obtain ⟨o, -, -, rfl⟩ := setConstant_eq_ok.1 h
    rfl
  cases lifetime with
  | constantCopy =>
    apply reaches_perform (.setValue i bytes) (by simp) ?_ hreads
    rw [perform, setValue, h, settle]
  | constantReference =>
    apply reaches_perform (.setReference i bytes) (by simp) ?_ hreads
    rw [perform, setReference, h, settle]
  | temporary => cases hlifetime
  | modelInput => cases hlifetime
  | modelOutput => cases hlifetime
  | noValue => cases hlifetime

theorem reaches_setNoValue {m m' : Model} {i : Nat} (h : m.setNoValue i = .ok m') :
    Reaches 0 m m' := by
  apply reaches_perform (.setNoValue i)
  · simp
  · rw [perform, h, settle]
  · obtain ⟨o, -, rfl⟩ := setNoValue_eq_ok.1 h
    rfl

theorem reaches_identify (m : Model) (inputs outputs : List Nat) :
    Reaches 0 m (m.identify inputs outputs).1 := by
  apply reaches_perform (.identify inputs outputs)
  · simp
  · rfl
  · rw [totalReads, operations_identify]
    rfl

theorem reaches_setRelaxed (m : Model) (relaxed : Bool) : Reaches 0 m (m.setRelaxed relaxed) := by
  apply reaches_perform (.setRelaxed relaxed)
  · simp
  · rfl
  · rfl

theorem performAll_addOperand (operands : List Operand) (m : Model) :
    performAll m (operands.map .addOperand) = { m with operands := m.operands ++ operands } := by
  induction operands generalizing m with
  | nil => simp [performAll]
  | cons o rest ih =>
    have hfirst : performAll m ((o :: rest).map .addOperand) =
        performAll (m.addOperand o) (rest.map .addOperand) := rfl
    rw [hfirst, ih]
    simp [Model.addOperand]

theorem reaches_operands {operands : List Operand}
    (fresh : ∀ o ∈ operands, o.value = none ∧ o.consumers = 0) :
    Reaches 0 {} { operands := operands } := by
  refine ⟨⟨operands.map .addOperand, ?_, ?_⟩, rfl⟩
  · intro o ho
    obtain ⟨o', ho', heq⟩ := List.mem_map.1 ho
    cases heq
    exact fresh o ho'
  · rw [performAll_addOperand]
    rfl

/-- Steps each of which calls can take, and which add no reads. -/
theorem reaches_foldlM {α ε : Type} {step : Model → α → Except ε Model}
    (hstep : ∀ m x m', step m x = .ok m' → Reaches 0 m m') {xs : List α} {m m' : Model}
    (h : xs.foldlM step m = .ok m') : Reaches 0 m m' := by
  induction xs generalizing m with
  | nil =>
    cases h
    exact Reaches.refl _
  | cons x rest ih =>
    rw [List.foldlM_cons, bind_eq_ok] at h
    obtain ⟨between, hfirst, hrest⟩ := h
    exact (hstep m x between hfirst).trans (ih hrest)

/-- Whether all that a model names is in it, and the readers it counts are those it has, no more
than fit into a word. -/
structure Intact (m : Model) : Prop where
  exist : ∀ op ∈ m.operations, ∀ o ∈ op.inputs ++ op.outputs, o < m.operands.length
  exchanged : ∀ o ∈ m.inputs ++ m.outputs, o < m.operands.length
  counted : ∀ (i : Nat) o, m.operands[i]? = some o →
    o.consumers = m.readCount i ∧ o.consumers < UInt32.size

theorem Reaches.intact {reads : Nat} {m : Model} (h : Reaches reads {} m)
    (hreads : reads < UInt32.size) : Intact m := by
  obtain ⟨calls, fresh, hcalls⟩ := h.calls
  have sound : Sound m := Built.sound ⟨calls, hcalls⟩
  refine ⟨sound.exist, ?_, ?_⟩
  · intro o ho
    obtain ⟨operand, hoperand, -⟩ := sound.exchanged o ho
    exact (List.getElem?_eq_some_iff.1 hoperand).1
  · intro i o ho
    have hcount : o.consumers = m.readCount i := by
      rw [hcalls] at ho ⊢
      exact counted_performAll (fun o ho => (fresh o ho).2) ho
    have hle : m.readCount i ≤ m.totalReads := List.count_le_length
    have htotal : m.totalReads = 0 + reads := h.reads
    exact ⟨hcount, by omega⟩

end Model

namespace Cache

open Model

/-! ## Readings that give nothing back -/

namespace Reader

/-- Whether a reading leaves no more bytes than there were. -/
def Shrinks {α : Type} (reader : Reader α) : Prop :=
  ∀ bytes a rest, reader bytes = .ok (a, rest) → rest.length ≤ bytes.length

section Combinators

variable {α β : Type} {reader : Reader α}

theorem Shrinks.pure (a : α) : Shrinks (pure a) := by
  intro bytes a' rest h
  cases h
  exact Nat.le_refl _

theorem Shrinks.throw (e : CacheError) : Shrinks (throw e : Reader α) := by
  intro bytes a rest h
  cases h

theorem Shrinks.bind {next : α → Reader β} (h : Shrinks reader) (h' : ∀ a, Shrinks (next a)) :
    Shrinks (reader >>= next) := by
  intro bytes b rest hread
  obtain ⟨a, between, hfirst, hsecond⟩ := bind_eq_ok.1 hread
  exact Nat.le_trans (h' a between b rest hsecond) (h bytes a between hfirst)

theorem Shrinks.times (h : Shrinks reader) (n : Nat) : Shrinks (times reader n) := by
  induction n with
  | zero => exact Shrinks.pure []
  | succ n ih => exact h.bind fun a => ih.bind fun as => Shrinks.pure (a :: as)

end Combinators

theorem length_of_word {bytes rest : Bytes} {w : UInt32} (h : word bytes = .ok (w, rest)) :
    bytes.length = 4 + rest.length := by
  rw [word_eq_ok.1 h, List.length_append, Bytes.length_le32]

theorem shrinks_word : Shrinks word := by
  intro bytes w rest h
  have := length_of_word h
  omega

theorem shrinks_byte : Shrinks byte := by
  intro bytes b rest h
  unfold byte at h
  split at h
  · cases h
  · cases h
    exact Nat.le_succ _

theorem shrinks_number : Shrinks number := shrinks_word.bind fun w => Shrinks.pure w.toNat

theorem shrinks_words : Shrinks words := shrinks_number.bind shrinks_word.times

theorem length_of_times_word {n : Nat} {bytes rest : Bytes} {ws : List UInt32}
    (h : times word n bytes = .ok (ws, rest)) : bytes.length = 4 * ws.length + rest.length := by
  induction n generalizing bytes ws with
  | zero =>
    cases h
    simp
  | succ n ih =>
    obtain ⟨w, between, hw, h⟩ := bind_eq_ok.1 h
    obtain ⟨more, between', hmore, h⟩ := bind_eq_ok.1 h
    cases h
    have hfirst := length_of_word hw
    have hrest := ih hmore
    rw [List.length_cons]
    omega

/-- Each position that is read takes a word. -/
theorem length_of_positions {bytes rest : Bytes} {ps : List Nat}
    (h : positions bytes = .ok (ps, rest)) : 4 * ps.length + rest.length ≤ bytes.length := by
  obtain ⟨ws, between, hws, h⟩ := bind_eq_ok.1 h
  cases h
  obtain ⟨n, between', hn, hws⟩ := bind_eq_ok.1 hws
  have hnumber := shrinks_number _ _ _ hn
  have hall := length_of_times_word hws
  rw [List.length_map]
  omega

end Reader

/-! ## Payloads -/

namespace Structure

open Reader

theorem accept_eq_ok {α : Type} {answer : Except ModelError α} {bytes rest : Bytes} {a : α} :
    accept answer bytes = .ok (a, rest) ↔ answer = .ok a ∧ bytes = rest := by
  cases answer with
  | error e => exact ⟨fun h => (by cases h), fun h => (by cases h.1)⟩
  | ok a' =>
    constructor
    · intro h
      cases h
      exact ⟨rfl, rfl⟩
    · rintro ⟨h, rfl⟩
      cases h
      rfl

theorem shrinks_readOperand : Shrinks readOperand := by
  unfold readOperand
  refine shrinks_word.bind fun code => ?_
  cases OperandType.ofCode? code with
  | none => exact Shrinks.throw _
  | some type =>
    refine shrinks_words.bind fun dimensions => shrinks_word.bind fun scale =>
      shrinks_word.bind fun zeroPoint => shrinks_byte.bind fun code => ?_
    cases Lifetime.ofCode? code with
    | none => exact Shrinks.throw _
    | some lifetime => exact Shrinks.pure _

/-- A payload holds neither bytes nor readers of an operand. -/
theorem fresh_of_readOperand {bytes rest : Bytes} {o : Operand}
    (h : readOperand bytes = .ok (o, rest)) : o.value = none ∧ o.consumers = 0 := by
  unfold readOperand at h
  obtain ⟨code, bytes₁, -, h⟩ := Reader.bind_eq_ok.1 h
  cases htype : OperandType.ofCode? code with
  | none =>
    rw [htype] at h
    cases h
  | some type =>
    rw [htype] at h
    obtain ⟨dimensions, bytes₂, -, h⟩ := Reader.bind_eq_ok.1 h
    obtain ⟨scale, bytes₃, -, h⟩ := Reader.bind_eq_ok.1 h
    obtain ⟨zeroPoint, bytes₄, -, h⟩ := Reader.bind_eq_ok.1 h
    obtain ⟨code', bytes₅, -, h⟩ := Reader.bind_eq_ok.1 h
    cases hlifetime : Lifetime.ofCode? code' with
    | none =>
      rw [hlifetime] at h
      cases h
    | some lifetime =>
      rw [hlifetime] at h
      cases h
      exact ⟨rfl, rfl⟩

theorem fresh_of_times {n : Nat} {bytes rest : Bytes} {stored : List Operand}
    (h : times readOperand n bytes = .ok (stored, rest)) :
    ∀ o ∈ stored.map provisional, o.value = none ∧ o.consumers = 0 := by
  induction n generalizing bytes stored with
  | zero =>
    cases h
    simp
  | succ n ih =>
    obtain ⟨first, between, hfirst, h⟩ := Reader.bind_eq_ok.1 h
    obtain ⟨others, between', hothers, h⟩ := Reader.bind_eq_ok.1 h
    cases h
    rw [List.map_cons, List.forall_mem_cons]
    refine ⟨?_, ih hothers⟩
    have hfresh := fresh_of_readOperand hfirst
    unfold provisional
    split
    · exact hfresh
    · exact hfresh

/-- Each input of an operation that is read takes a word. -/
theorem reaches_of_readOperations {n : Nat} {m m' : Model} {bytes rest : Bytes}
    (h : readOperations n m bytes = .ok (m', rest)) :
    ∃ reads, Reaches reads m m' ∧ 4 * reads + rest.length ≤ bytes.length := by
  induction n generalizing m bytes with
  | zero =>
    cases h
    exact ⟨0, Reaches.refl _, by omega⟩
  | succ n ih =>
    obtain ⟨code, bytes₁, hcode, h⟩ := Reader.bind_eq_ok.1 h
    cases htype : OperationType.ofCode? code with
    | none =>
      rw [htype] at h
      cases h
    | some type =>
      rw [htype] at h
      obtain ⟨inputs, bytes₂, hinputs, h⟩ := Reader.bind_eq_ok.1 h
      obtain ⟨outputs, bytes₃, houtputs, h⟩ := Reader.bind_eq_ok.1 h
      obtain ⟨between, bytes₄, haccept, h⟩ := Reader.bind_eq_ok.1 h
      obtain ⟨hadd, rfl⟩ := accept_eq_ok.1 haccept
      obtain ⟨reads, hrest, hreads⟩ := ih h
      refine ⟨inputs.length + reads, (reaches_addOperation hadd).trans hrest, ?_⟩
      have hword := length_of_word hcode
      have hread := length_of_positions hinputs
      have hwritten := length_of_positions houtputs
      omega

theorem reaches_of_leaveOut {m m' : Model} {stored : List Operand}
    (h : leaveOut m stored = .ok m') : Reaches 0 m m' := by
  refine reaches_foldlM ?_ h
  rintro m ⟨o, i⟩ m' hstep
  dsimp only at hstep
  split at hstep
  · exact reaches_setNoValue hstep
  · cases hstep
    exact Reaches.refl m

/-- Calls make the model that is read from a payload, and add less reads than it has bytes. -/
theorem reaches_of_read {m : Model} {bytes rest : Bytes} (h : read bytes = .ok (m, rest)) :
    ∃ reads, Reaches reads {} m ∧ reads ≤ bytes.length := by
  unfold read at h
  obtain ⟨n, bytes₁, hn, h⟩ := Reader.bind_eq_ok.1 h
  obtain ⟨stored, bytes₂, hstored, h⟩ := Reader.bind_eq_ok.1 h
  obtain ⟨k, bytes₃, hk, h⟩ := Reader.bind_eq_ok.1 h
  obtain ⟨computing, bytes₄, hcomputing, h⟩ := Reader.bind_eq_ok.1 h
  obtain ⟨inputs, bytes₅, -, h⟩ := Reader.bind_eq_ok.1 h
  obtain ⟨outputs, bytes₆, -, h⟩ := Reader.bind_eq_ok.1 h
  obtain ⟨u, bytes₇, -, h⟩ := Reader.bind_eq_ok.1 h
  obtain ⟨relaxed, bytes₈, -, h⟩ := Reader.bind_eq_ok.1 h
  obtain ⟨hleaveOut, -⟩ := accept_eq_ok.1 h
  obtain ⟨reads, hreaches, hreads⟩ := reaches_of_readOperations hcomputing
  have hall := ((((reaches_operands (fresh_of_times hstored)).trans hreaches).trans
    (reaches_identify computing inputs outputs)).trans (reaches_setRelaxed _ _)).trans
    (reaches_of_leaveOut hleaveOut)
  refine ⟨reads, by simpa using hall, ?_⟩
  have hfirst := shrinks_number _ _ _ hn
  have hsecond := shrinks_readOperand.times n _ _ _ hstored
  have hthird := shrinks_number _ _ _ hk
  omega

end Structure

/-! ## Constants -/

namespace Constants

theorem reaches_of_fill {m m' : Model} {i : Nat} {bytes : Bytes} (h : fill m i bytes = .ok m') :
    Reaches 0 m m' := by
  obtain ⟨o, ho, hconstant, -, hlength, rfl⟩ := fill_eq_ok.1 h
  exact reaches_setConstant hconstant (setConstant_eq_ok.2 ⟨o, ho, hlength, rfl⟩)

theorem reaches_of_readRecords {n : Nat} {m m' : Model} {bytes rest : Bytes}
    (h : readRecords n m bytes = .ok (m', rest)) : Reaches 0 m m' := by
  induction n generalizing m bytes with
  | zero =>
    cases h
    exact Reaches.refl _
  | succ n ih =>
    obtain ⟨i, bytes₁, -, h⟩ := Reader.bind_eq_ok.1 h
    obtain ⟨length, bytes₂, -, h⟩ := Reader.bind_eq_ok.1 h
    obtain ⟨taken, bytes₃, -, h⟩ := Reader.bind_eq_ok.1 h
    obtain ⟨filled, bytes₄, hfilled, h⟩ := Reader.bind_eq_ok.1 h
    exact (reaches_of_fill (Reader.lift_eq_ok.1 hfilled).1).trans (ih h)

theorem reaches_of_attach {m m' : Model} {bytes : Bytes} (h : attach m bytes = .ok m') :
    Reaches 0 m m' := by
  rw [attach, bind_eq_ok] at h
  obtain ⟨⟨filled, rest⟩, hread, h⟩ := h
  obtain ⟨n, rest', -, hread⟩ := Reader.bind_eq_ok.1 hread
  have hreaches := reaches_of_readRecords hread
  dsimp only at h
  split at h
  · cases h
  · split at h
    · cases h
    · cases h
      exact hreaches

end Constants

/-! ## Whole files -/

/-- Calls make the model that is decoded from two files, and add less reads than a payload can have
bytes. -/
theorem reaches_of_decode {modelBytes dataBytes : Bytes} {token : Token} {key : Key} {m : Model}
    (h : decode modelBytes dataBytes token key = .ok m) :
    ∃ reads < UInt32.size, Reaches reads {} m := by
  unfold decode at h
  obtain ⟨payload, hpayload, h⟩ := bind_eq_ok.1 h
  obtain ⟨⟨blanks, rest⟩, hread, hattach⟩ := bind_eq_ok.1 h
  obtain ⟨reads, hreaches, hreads⟩ := Structure.reaches_of_read hread
  have hshort := (Frame.verify_eq_ok_iff.1 hpayload).short
  refine ⟨reads, by omega, ?_⟩
  have hall := hreaches.trans (Constants.reaches_of_attach hattach)
  rwa [Nat.add_zero] at hall

/-- Whatever the files hold, a model that is decoded from them is intact. -/
theorem intact_of_decode {modelBytes dataBytes : Bytes} {token : Token} {key : Key} {m : Model}
    (h : decode modelBytes dataBytes token key = .ok m) : Intact m := by
  obtain ⟨reads, hreads, hreaches⟩ := reaches_of_decode h
  exact hreaches.intact hreads

end Cache

end NeuralDispatch

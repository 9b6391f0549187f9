import NeuralDispatch.Proofs.Decoded
import NeuralDispatch.Proofs.Skeleton

/-!
# Which payloads are read, and as what

A reader may take more than what its writer makes.  For the parts of a payload this is not so: each
is read from its written form and from nothing else.  For a payload as a whole it is so, in two
places at its end.

* `Reader.Inverts` — whether a reader takes the written forms of values of one kind, and nothing
  else.
* `inverts_words`, `inverts_positions`, `inverts_readOperand`, `readOperations_eq_ok` — the parts.
* `Describes` — what a payload is made of if it is read: the written form of a model but for its
  last byte, any byte for the flag, and any bytes behind it.
* `read_eq_ok_iff` — such a payload is read as the skeleton of that model, and no other is read.
-/

namespace NeuralDispatch

namespace Cache

open Answer

/-! ## Readers that invert writers -/

namespace Reader

/-- Whether a reader takes the written forms of values of one kind, and nothing else. -/
def Inverts {α : Type} (reader : Reader α) (kind : α → Prop) (write : α → Bytes) : Prop :=
  ∀ bytes a rest, reader bytes = .ok (a, rest) ↔ kind a ∧ bytes = write a ++ rest

theorem Inverts.reads {α : Type} {reader : Reader α} {kind : α → Prop} {write : α → Bytes}
    (h : Inverts reader kind write) {a : α} (ha : kind a) : Reads reader (write a) a :=
  fun rest => (h _ a rest).2 ⟨ha, rfl⟩

/-- A reader inverts a writer if it undoes it and takes nothing else. -/
theorem inverts_of_reads {α : Type} {reader : Reader α} {kind : α → Prop} {write : α → Bytes}
    (reads : ∀ a, kind a → Reads reader (write a) a)
    (taken : ∀ bytes a rest, reader bytes = .ok (a, rest) → kind a ∧ bytes = write a ++ rest) :
    Inverts reader kind write := by
  intro bytes a rest
  refine ⟨taken bytes a rest, ?_⟩
  rintro ⟨ha, rfl⟩
  exact reads a ha rest

theorem inverts_word : Inverts word (fun _ => True) Bytes.le32 := by
  intro bytes w rest
  rw [word_eq_ok, true_and]

theorem byte_eq_ok {bytes rest : Bytes} {b : UInt8} :
    byte bytes = .ok (b, rest) ↔ bytes = b :: rest := by
  constructor
  · intro h
    unfold byte at h
    split at h
    · cases h
    · cases h
      rfl
  · rintro rfl
    rfl

theorem Inverts.times {α : Type} {reader : Reader α} {kind : α → Prop} {write : α → Bytes}
    (h : Inverts reader kind write) (n : Nat) :
    Inverts (times reader n) (fun xs => xs.length = n ∧ ∀ x ∈ xs, kind x)
      (List.flatMap write) := by
  apply inverts_of_reads
  · rintro xs ⟨rfl, hall⟩
    exact Reads.times fun x hx => h.reads (hall x hx)
  · intro bytes xs rest hread
    induction n generalizing bytes xs with
    | zero =>
      cases hread
      simp
    | succ n ih =>
      obtain ⟨x, between, hx, hread⟩ := bind_eq_ok.1 hread
      obtain ⟨others, between', hothers, hread⟩ := bind_eq_ok.1 hread
      cases hread
      obtain ⟨hkind, rfl⟩ := (h _ _ _).1 hx
      obtain ⟨⟨hlength, hall⟩, rfl⟩ := ih _ _ hothers
      refine ⟨⟨by rw [List.length_cons, hlength], List.forall_mem_cons.2 ⟨hkind, hall⟩⟩, ?_⟩
      rw [List.flatMap_cons, List.append_assoc]

theorem inverts_words : Inverts words (fun ws => ws.length < UInt32.size) writeWords := by
  apply inverts_of_reads
  · intro ws hlength
    exact reads_words hlength
  · intro bytes ws rest hread
    obtain ⟨n, between, hn, hwords⟩ := bind_eq_ok.1 hread
    obtain ⟨hlt, rfl⟩ := number_eq_ok.1 hn
    obtain ⟨⟨rfl, -⟩, rfl⟩ := (inverts_word.times n _ _ _).1 hwords
    exact ⟨hlt, (List.append_assoc ..).symm⟩

theorem inverts_positions : Inverts positions
    (fun ps => ps.length < UInt32.size ∧ ∀ p ∈ ps, p < UInt32.size) writePositions := by
  apply inverts_of_reads
  · rintro ps ⟨hlength, hall⟩
    exact reads_positions hlength hall
  · intro bytes ps rest hread
    obtain ⟨ws, between, hws, hread⟩ := bind_eq_ok.1 hread
    cases hread
    obtain ⟨hlength, rfl⟩ := (inverts_words _ _ _).1 hws
    have hback : (ws.map UInt32.toNat).map UInt32.ofNat = ws := by
      rw [List.map_map]
      exact (List.map_congr_left fun w _ => UInt32.ofNat_toNat).trans ws.map_id
    refine ⟨⟨by rwa [List.length_map], ?_⟩, by rw [writePositions, hback]⟩
    intro p hp
    obtain ⟨w, -, rfl⟩ := List.mem_map.1 hp
    exact w.toNat_lt

end Reader

end Cache

namespace Lifetime

theorem code_of_ofCode? {c : UInt8} {l : Lifetime} (h : ofCode? c = some l) : l.code = c := by
  simpa using List.find?_some h

end Lifetime

namespace Cache

open Answer Model

namespace Structure

/-! ## Operands and operations -/

theorem inverts_readOperand : Reader.Inverts readOperand
    (fun o => bare o = o ∧ o.dimensions.length < UInt32.size) writeOperand := by
  apply Reader.inverts_of_reads
  · rintro o ⟨hbare, hlength⟩
    have hread := reads_operand hlength
    rwa [hbare] at hread
  · intro bytes o rest h
    unfold readOperand at h
    obtain ⟨code, bytes₁, hcode, h⟩ := Reader.bind_eq_ok.1 h
    cases htype : OperandType.ofCode? code with
    | none =>
      rw [htype] at h
      cases h
    | some type =>
      rw [htype] at h
      obtain ⟨dimensions, bytes₂, hdimensions, h⟩ := Reader.bind_eq_ok.1 h
      obtain ⟨scale, bytes₃, hscale, h⟩ := Reader.bind_eq_ok.1 h
      obtain ⟨zeroPoint, bytes₄, hzeroPoint, h⟩ := Reader.bind_eq_ok.1 h
      obtain ⟨code', bytes₅, hcode', h⟩ := Reader.bind_eq_ok.1 h
      cases hlifetime : Lifetime.ofCode? code' with
      | none =>
        rw [hlifetime] at h
        cases h
      | some lifetime =>
        rw [hlifetime] at h
        cases h
        obtain ⟨hlength, rfl⟩ := (Reader.inverts_words _ _ _).1 hdimensions
        refine ⟨⟨rfl, hlength⟩, ?_⟩
        rw [Reader.word_eq_ok.1 hcode, Reader.word_eq_ok.1 hscale, Reader.word_eq_ok.1 hzeroPoint,
          Reader.byte_eq_ok.1 hcode']
        simp only [writeOperand, OperandType.code_of_ofCode? htype,
          Lifetime.code_of_ofCode? hlifetime, UInt32.toUInt32_toInt32, List.append_assoc,
          List.singleton_append]

/-- Operations are read just when they can be added one after the other. -/
theorem readOperations_eq_ok {n : Nat} {m m' : Model} {bytes rest : Bytes}
    (hsize : m.operands.length < UInt32.size) :
    readOperations n m bytes = .ok (m', rest) ↔
      ∃ ops, ops.length = n ∧ (∀ op ∈ ops, Addable m.operands.length op) ∧
        bytes = ops.flatMap writeOperation ++ rest ∧ m' = withOperations m ops := by
  constructor
  · intro h
    induction n generalizing m bytes with
    | zero =>
      cases h
      exact ⟨[], rfl, by simp, rfl, (withOperations_nil _).symm⟩
    | succ n ih =>
      obtain ⟨code, bytes₁, hcode, h⟩ := Reader.bind_eq_ok.1 h
      cases htype : OperationType.ofCode? code with
      | none =>
        rw [htype] at h
        cases h
      | some type =>
        rw [htype] at h
        obtain ⟨inputs, bytes₂, hinputs, h⟩ := Reader.bind_eq_ok.1 h
        obtain ⟨outputs, bytes₃, houtputs, h⟩ := Reader.bind_eq_ok.1 h
        obtain ⟨between, bytes₄, haccept, h⟩ := Reader.bind_eq_ok.1 h
        obtain ⟨hadd, rfl⟩ := accept_eq_ok.1 haccept
        obtain ⟨⟨hin, -⟩, rfl⟩ := (Reader.inverts_positions _ _ _).1 hinputs
        obtain ⟨⟨hout, -⟩, rfl⟩ := (Reader.inverts_positions _ _ _).1 houtputs
        obtain ⟨hexist, hcomputes, hbetween⟩ := addOperation_eq_ok.1 hadd
        have hfirst : between = withOperations m [⟨type, inputs, outputs⟩] := by
          rw [hbetween, withOperations, List.flatMap_singleton]
        subst hfirst
        have hlength := length_operands_withOperations m [⟨type, inputs, outputs⟩]
        obtain ⟨ops, rfl, hops, rfl, rfl⟩ := ih (by rwa [hlength]) h
        rw [hlength] at hops
        refine ⟨⟨type, inputs, outputs⟩ :: ops, rfl, ?_, ?_, withOperations_cons ..⟩
        · exact List.forall_mem_cons.2 ⟨⟨hexist, hcomputes, hin, hout⟩, hops⟩
        · rw [Reader.word_eq_ok.1 hcode, ← OperationType.code_of_ofCode? htype]
          simp only [List.flatMap_cons, writeOperation, List.append_assoc]
  · rintro ⟨ops, rfl, hops, rfl, rfl⟩
    exact reads_operations hops hsize rest

/-! ## Whole payloads -/

/-- What a payload is made of that is read: the description of a model, a byte for the flag, and
whatever is behind it. -/
structure Describes (payload : Bytes) (stored : Model) (flag : UInt8) (trailing : Bytes) :
    Prop where
  layout : payload = body stored ++ flag :: trailing
  blank : ∀ o ∈ stored.operands, bare o = o
  relaxed : stored.relaxed = (flag != 0)
  readable : Readable stored

instance (payload trailing : Bytes) (stored : Model) (flag : UInt8) :
    Decidable (Describes payload stored flag trailing) :=
  decidable_of_iff
    (payload = body stored ++ flag :: trailing ∧ (∀ o ∈ stored.operands, bare o = o) ∧
      stored.relaxed = (flag != 0) ∧ Readable stored)
    ⟨fun ⟨hl, hb, hr, hm⟩ => ⟨hl, hb, hr, hm⟩,
      fun h => ⟨h.layout, h.blank, h.relaxed, h.readable⟩⟩

theorem entered_of_blank {stored : Model} (hblank : ∀ o ∈ stored.operands, bare o = o) :
    entered stored = { operands := stored.operands.map provisional } := by
  have hsame : stored.operands.map bare = stored.operands :=
    (List.map_congr_left hblank).trans (List.map_id _)
  rw [entered, hsame]

/-- A payload is read as the skeleton of the model that it describes, and only if it describes
one. -/
theorem read_eq_ok_iff {payload trailing : Bytes} {m : Model} :
    read payload = .ok (m, trailing) ↔
      ∃ stored flag, Describes payload stored flag trailing ∧ m = skeleton stored := by
  constructor
  · intro h
    unfold read at h
    obtain ⟨n, bytes₁, hn, h⟩ := Reader.bind_eq_ok.1 h
    obtain ⟨operands, bytes₂, hoperands, h⟩ := Reader.bind_eq_ok.1 h
    obtain ⟨k, bytes₃, hk, h⟩ := Reader.bind_eq_ok.1 h
    obtain ⟨computing, bytes₄, hoperations, h⟩ := Reader.bind_eq_ok.1 h
    obtain ⟨inputs, bytes₅, hinputs, h⟩ := Reader.bind_eq_ok.1 h
    obtain ⟨outputs, bytes₆, houtputs, h⟩ := Reader.bind_eq_ok.1 h
    obtain ⟨u, bytes₇, hidentify, h⟩ := Reader.bind_eq_ok.1 h
    obtain ⟨flag, bytes₈, hflag, hlast⟩ := Reader.bind_eq_ok.1 h
    obtain ⟨hanswer, rfl⟩ : (computing.identify inputs outputs).2 = .ok u ∧ bytes₆ = bytes₇ :=
      accept_eq_ok.1 hidentify
    obtain ⟨hleaveOut, rfl⟩ : leaveOut ((computing.identify inputs outputs).1.setRelaxed
        (flag != 0)) operands = .ok m ∧ bytes₈ = trailing := accept_eq_ok.1 hlast
    obtain ⟨hnsize, rfl⟩ := Reader.number_eq_ok.1 hn
    obtain ⟨⟨rfl, hbare⟩, rfl⟩ := (inverts_readOperand.times n _ _ _).1 hoperands
    obtain ⟨hksize, rfl⟩ := Reader.number_eq_ok.1 hk
    rw [readOperations_eq_ok (by rwa [List.length_map])] at hoperations
    obtain ⟨ops, rfl, haddable, rfl, rfl⟩ := hoperations
    obtain ⟨⟨hin, -⟩, rfl⟩ := (Reader.inverts_positions _ _ _).1 hinputs
    obtain ⟨⟨hout, -⟩, rfl⟩ := (Reader.inverts_positions _ _ _).1 houtputs
    obtain rfl := Reader.byte_eq_ok.1 hflag
    rw [List.length_map] at haddable
    -- the parts that have been read make up a model, of which the rest is its skeleton
    obtain ⟨stored, hstored⟩ : ∃ stored : Model, stored =
        { operands, operations := ops, inputs, outputs, relaxed := flag != 0 } := ⟨_, rfl⟩
    have hblank : ∀ o ∈ stored.operands, bare o = o := by
      rw [hstored]
      exact fun o ho => (hbare o ho).1
    have hentered : { operands := operands.map provisional } = entered stored := by
      rw [entered_of_blank hblank, hstored]
    rw [hentered] at hanswer hleaveOut
    obtain ⟨hinputs, houtputs, -⟩ := identify_eq_ok.1 (Prod.ext rfl hanswer)
    have hreadable : Readable stored := by
      rw [length_operands_withOperations, length_operands_entered] at hinputs houtputs
      subst hstored
      refine ⟨fun op hop => (haddable op hop).exist, fun op hop => (haddable op hop).computes,
        ?_, hnsize, fun o ho => (hbare o ho).2, hksize, fun op hop => (haddable op hop).inputs,
        fun op hop => (haddable op hop).outputs, hin, hout⟩
      exact List.forall_mem_append.2 ⟨hinputs, houtputs⟩
    refine ⟨stored, flag, ⟨?_, hblank, by rw [hstored], hreadable⟩, ?_⟩
    · rw [hstored]
      simp only [body, List.append_assoc]
    · have hsame : stored.operands.map bare = stored.operands :=
        (List.map_congr_left hblank).trans (List.map_id _)
      have hidentify := identified_entered hreadable
      have hrest := leaveOut_entered stored
      rw [hsame] at hrest
      subst hstored
      rw [hidentify] at hleaveOut
      exact Except.ok.inj (hleaveOut.symm.trans hrest)
  · rintro ⟨stored, flag, h, rfl⟩
    have hread := reads_body h.readable h.relaxed trailing
    rw [List.append_assoc, List.singleton_append] at hread
    rw [h.layout, hread]

end Structure

end Cache

end NeuralDispatch

import NeuralDispatch.Proofs.Records

/-!
# Model caches that differ and say the same

Decoding looks neither at what stands behind the last field of a payload, nor at which byte other
than zero stands for a flag that is set, nor at a stored lifetime that follows from the lists of
inputs and outputs.  So there are model caches that are decoded to a model of which another one is
made.

* `body_eq_iff` — descriptions that differ in the operands at most are the same if those are
  described alike.
* `write_eq_iff` — the three ways in which a payload can differ from the one that is made of the
  model that is read from it.
* `decode_eq_ok_iff` — which pairs of files are decoded, and to what.
* `decode_canonical_iff` — a model cache is made again just when it differs in none of the ways.
* `decode_lenient` — each of them occurs.
-/

namespace NeuralDispatch.Cache

open Answer Model

namespace Structure

/-! ## Descriptions -/

theorem flatMap_writeOperand_bare (operands : List Operand) :
    (operands.map bare).flatMap writeOperand = operands.flatMap writeOperand := by
  rw [List.flatMap_map]
  rfl

/-- Operands that are described alike are alike, but for what a description leaves out. -/
theorem flatMap_writeOperand_eq_iff {operands operands' : List Operand}
    (hlength : operands.length = operands'.length)
    (hshort : ∀ o ∈ operands ++ operands', o.dimensions.length < UInt32.size) :
    operands.flatMap writeOperand = operands'.flatMap writeOperand ↔
      operands.map bare = operands'.map bare := by
  constructor
  · intro h
    have hread := (reads_operands fun o ho => hshort o (List.mem_append_left _ ho)).eq_of_append_nil
    have hread' :=
      (reads_operands fun o ho => hshort o (List.mem_append_right _ ho)).eq_of_append_nil
    rw [hlength, h, hread'] at hread
    exact (Prod.mk.inj (Except.ok.inj hread)).1.symm
  · intro h
    rw [← flatMap_writeOperand_bare, h, flatMap_writeOperand_bare]

/-- Descriptions that differ in the operands at most are the same if the operands are described
alike. -/
theorem body_eq_iff {m m' : Model} (hoperations : m.operations = m'.operations)
    (hinputs : m.inputs = m'.inputs) (houtputs : m.outputs = m'.outputs)
    (hlength : m.operands.length = m'.operands.length) (hcompact : Compact m)
    (hcompact' : Compact m') :
    body m = body m' ↔ m.operands.map bare = m'.operands.map bare := by
  have hshort : ∀ o ∈ m.operands ++ m'.operands, o.dimensions.length < UInt32.size :=
    List.forall_mem_append.2 ⟨hcompact.dimensions, hcompact'.dimensions⟩
  rw [← flatMap_writeOperand_eq_iff hlength hshort]
  simp only [body, hoperations, hinputs, houtputs, hlength, List.append_left_inj,
    List.append_right_inj]

/-! ## The model that is read from a description -/

section Holding

variable {stored : Model} {records : List (Nat × Bytes)}

theorem getElem?_skeleton_holding (stored : Model) (records : List (Nat × Bytes)) (i : Nat) :
    ((skeleton stored).holding records).operands[i]? = stored.operands[i]?.map fun o =>
      { restored stored i o with value := (records.lookup i).or none } := by
  rw [Constants.holding_operand, skeleton, List.getElem?_mapIdx, Option.map_map]
  rfl

theorem length_operands_holding (stored : Model) (records : List (Nat × Bytes)) :
    ((skeleton stored).holding records).operands.length = stored.operands.length := by
  simp [Model.holding, skeleton]

theorem readable_holding (h : Readable stored) :
    Readable ((skeleton stored).holding records) := by
  have hlength := length_operands_holding stored records
  refine ⟨?_, h.computes, ?_, ?_⟩
  · rw [hlength]
    exact h.exist
  · rw [hlength]
    exact h.exchanged
  · refine ⟨hlength.trans_lt h.compact.operands, ?_, h.compact.operations,
      h.compact.operationInputs, h.compact.operationOutputs, h.compact.inputs, h.compact.outputs⟩
    intro o' ho'
    obtain ⟨i, hi⟩ := List.mem_iff_getElem?.1 ho'
    rw [getElem?_skeleton_holding] at hi
    obtain ⟨o, ho, rfl⟩ := Option.map_eq_some_iff.1 hi
    exact h.compact.dimensions o (List.mem_of_getElem? ho)

/-- Of what a description says of an operand, only the lifetime may have changed. -/
theorem map_bare_eq_iff :
    ((skeleton stored).holding records).operands.map bare = stored.operands.map bare ↔
      ((skeleton stored).holding records).operands.map (·.lifetime) =
        stored.operands.map (·.lifetime) := by
  simp only [List.ext_getElem?_iff, List.getElem?_map, getElem?_skeleton_holding, Option.map_map]
  refine forall_congr' fun i => ?_
  cases stored.operands[i]? with
  | none => simp
  | some o => simp [restored, bare]

end Holding

/-- The byte that is written for a flag is the one that was read if that is one of the two. -/
theorem flag_eq_iff {flag : UInt8} :
    (if (flag != 0) = true then 1 else 0 : UInt8) = flag ↔ flag = 0 ∨ flag = 1 := by
  by_cases hzero : flag = 0
  · simp [hzero]
  · rw [if_pos (by simpa using hzero)]
    constructor
    · exact fun h => Or.inr h.symm
    · exact fun h => (h.resolve_left hzero).symm

/-- A model that is read is described again in the same way, unless there was something behind the
flag, another byte was taken for a flag that is set, or a lifetime has changed. -/
theorem write_eq_iff {payload trailing : Bytes} {stored : Model} {flag : UInt8}
    (h : Describes payload stored flag trailing) (records : List (Nat × Bytes)) :
    write ((skeleton stored).holding records) = payload ↔
      trailing = [] ∧ (flag = 0 ∨ flag = 1) ∧
        ((skeleton stored).holding records).operands.map (·.lifetime) =
          stored.operands.map (·.lifetime) := by
  have hreadable : Readable ((skeleton stored).holding records) := readable_holding h.readable
  have hbody : body ((skeleton stored).holding records) = body stored ↔ _ :=
    body_eq_iff rfl rfl rfl (length_operands_holding stored records) hreadable.compact
      h.readable.compact
  have hrelaxed : ((skeleton stored).holding records).relaxed = (flag != 0) := h.relaxed
  rw [← map_bare_eq_iff, ← hbody, ← flag_eq_iff, write_eq_body, hrelaxed]
  constructor
  · intro hsame
    -- reading it back shows that nothing is left over
    have hread : Reads read (body ((skeleton stored).holding records) ++
        [if (flag != 0) = true then 1 else 0]) (skeleton ((skeleton stored).holding records)) := by
      apply reads_body hreadable
      rw [hrelaxed]
      cases flag != 0 <;> rfl
    have hback := hread.eq_of_append_nil
    rw [hsame, read_eq_ok_iff.2 ⟨stored, flag, h, rfl⟩] at hback
    have hnil : trailing = [] := (Prod.mk.inj (Except.ok.inj hback)).2
    rw [h.layout, hnil] at hsame
    obtain ⟨hdescribed, hflag⟩ := List.append_inj' hsame rfl
    exact ⟨hnil, List.singleton_inj.1 hflag, hdescribed⟩
  · rintro ⟨rfl, hflag, hdescribed⟩
    rw [hdescribed, hflag, h.layout]

end Structure

/-! ## Whole files -/

section Files

variable {modelBytes dataBytes : Bytes} {token : Token} {key : Key} {m : Model}
  {payload trailing : Bytes} {stored : Model} {flag : UInt8}

theorem decode_of_seals (hseals : Frame.Seals modelBytes payload token key)
    (hdescribes : Structure.Describes payload stored flag trailing) :
    decode modelBytes dataBytes token key =
      Constants.attach (Structure.skeleton stored) dataBytes := by
  rw [decode, Frame.verify_eq_ok_iff.2 hseals, ok_bind,
    Structure.read_eq_ok_iff.2 ⟨stored, flag, hdescribes, rfl⟩]
  rfl

/-- Which pairs of files are decoded, and to what. -/
theorem decode_eq_ok_iff :
    decode modelBytes dataBytes token key = .ok m ↔
      ∃ payload stored flag trailing, Frame.Seals modelBytes payload token key ∧
        Structure.Describes payload stored flag trailing ∧
        Constants.attach (Structure.skeleton stored) dataBytes = .ok m := by
  constructor
  · intro h
    obtain ⟨payload, hverify, hrest⟩ := bind_eq_ok.1 h
    obtain ⟨⟨blanks, trailing⟩, hread, hattach⟩ := bind_eq_ok.1 hrest
    obtain ⟨stored, flag, hdescribes, rfl⟩ := Structure.read_eq_ok_iff.1 hread
    exact ⟨payload, stored, flag, trailing, Frame.verify_eq_ok_iff.1 hverify, hdescribes, hattach⟩
  · rintro ⟨payload, stored, flag, trailing, hseals, hdescribes, hattach⟩
    rw [decode_of_seals hseals hdescribes, hattach]

/-- What a payload is sealed in determines the payload. -/
theorem encodeModel_eq_iff (hseals : Frame.Seals modelBytes payload token key) :
    encodeModel m token key = modelBytes ↔ Structure.write m = payload := by
  constructor
  · intro h
    have hverify := Frame.verify_eq_ok_iff.2 hseals
    rw [← h] at hverify
    exact ((Frame.verify_write _ token key).1 hverify).2.symm
  · rintro rfl
    exact hseals.layout.symm

/-- A model cache is made again of the model that it is decoded to just when nothing stands behind
the flag of its payload, the flag is one of the two bytes that are written, and the model has the
lifetimes that are stored. -/
theorem decode_canonical_iff (modelBytes dataBytes : Bytes) (token : Token) (key : Key) (m : Model) :
    (decode modelBytes dataBytes token key = .ok m ↔
      ∃ payload stored flag trailing, Frame.Seals modelBytes payload token key ∧
        Structure.Describes payload stored flag trailing ∧
        Constants.attach (Structure.skeleton stored) dataBytes = .ok m) ∧
    ∀ payload stored flag trailing, Frame.Seals modelBytes payload token key →
      Structure.Describes payload stored flag trailing →
      Constants.attach (Structure.skeleton stored) dataBytes = .ok m →
        (encodeModel m token key = modelBytes ↔ trailing = [] ∧ (flag = 0 ∨ flag = 1) ∧
          m.operands.map (·.lifetime) = stored.operands.map (·.lifetime)) := by
  refine ⟨decode_eq_ok_iff, ?_⟩
  intro payload stored flag trailing hseals hdescribes hattach
  obtain ⟨records, -, -, rfl⟩ :=
    (Constants.attach_blank_eq_ok_iff Structure.value_of_skeleton).1 hattach
  rw [encodeModel_eq_iff hseals]
  exact Structure.write_eq_iff hdescribes records

end Files

/-! ## Some model caches -/

/-- A token or a key of zeros. -/
def zeros : Vector UInt8 32 := Vector.replicate 32 0

/-- The model of two constants as a payload keeps it. -/
def keptLiterals : Model :=
  { performAll {} Constants.literals with
    operands := (performAll {} Constants.literals).operands.map Structure.bare }

/-- Whatever bytes its constants are given, the model cache that is made of the model is the same
again. -/
theorem decode_canonical_literals :
    ∃ m, decode (Frame.write (Structure.write keptLiterals) zeros zeros)
        (Bytes.le32 2 ++ Constants.swapped.flatMap Constants.writeRecord) zeros zeros = .ok m ∧
      encodeModel m zeros zeros = Frame.write (Structure.write keptLiterals) zeros zeros := by
  have hdescribes : Structure.Describes (Structure.write keptLiterals) keptLiterals 0 [] := by
    decide
  have hseals : Frame.Seals (Frame.write (Structure.write keptLiterals) zeros zeros)
      (Structure.write keptLiterals) zeros zeros := ⟨by decide, rfl⟩
  have hattach : Constants.attach (Structure.skeleton keptLiterals)
      (Bytes.le32 2 ++ Constants.swapped.flatMap Constants.writeRecord) =
        .ok ((Structure.skeleton keptLiterals).holding Constants.swapped) := by rfl
  obtain ⟨haccepted, hagain⟩ := decode_canonical_iff
    (Frame.write (Structure.write keptLiterals) zeros zeros)
    (Bytes.le32 2 ++ Constants.swapped.flatMap Constants.writeRecord) zeros zeros
    ((Structure.skeleton keptLiterals).holding Constants.swapped)
  have hdecode := haccepted.2 ⟨_, _, _, _, hseals, hdescribes, hattach⟩
  exact ⟨_, hdecode, (hagain _ _ _ _ hseals hdescribes hattach).2 ⟨rfl, Or.inl rfl, by rfl⟩⟩

/-- Whether a model cache with this payload is decoded to a model of which another one is made. -/
def Lenient (payload : Bytes) : Prop :=
  ∃ m, decode (Frame.write payload zeros zeros) (Bytes.le32 0) zeros zeros = .ok m ∧
    encodeModel m zeros zeros ≠ Frame.write payload zeros zeros

theorem lenient_of_describes {payload : Bytes} (stored : Model) (flag : UInt8) (trailing : Bytes)
    (hdescribes : Structure.Describes payload stored flag trailing)
    (hshort : payload.length < UInt32.size)
    (hattach : Constants.attach (Structure.skeleton stored) (Bytes.le32 0) =
      .ok (Structure.skeleton stored))
    (hother : Structure.write (Structure.skeleton stored) ≠ payload) : Lenient payload := by
  have hseals : Frame.Seals (Frame.write payload zeros zeros) payload zeros zeros := ⟨hshort, rfl⟩
  refine ⟨Structure.skeleton stored, (decode_of_seals hseals hdescribes).trans hattach, ?_⟩
  exact mt (encodeModel_eq_iff hseals).1 hother

/-- An operand that is stored as an input although no list names it. -/
def unlisted : Model :=
  { operands := [{ type := .tensorFloat32, dimensions := [1], lifetime := .modelInput }] }

/-- Decoding looks neither at a byte behind the flag, nor at which byte the flag is, nor at a
lifetime that the model does not have. -/
theorem decode_lenient :
    Lenient (Structure.write {} ++ [0]) ∧ Lenient (Structure.body {} ++ [2]) ∧
      Lenient (Structure.write unlisted) := by
  refine ⟨?_, ?_, ?_⟩
  · exact lenient_of_describes {} 0 [0] (by decide) (by decide) (by decide) (by decide)
  · exact lenient_of_describes { relaxed := true } 2 [] (by decide) (by decide) (by decide)
      (by decide)
  · exact lenient_of_describes unlisted 0 [] (by decide) (by decide) (by decide) (by decide)

end NeuralDispatch.Cache

import NeuralDispatch.Plan.Run
import NeuralDispatch.Proofs.Evaluation

/-!
# Running a model on buffers

The callers of a model hold the values of its operands as byte strings, one buffer for each input
and one for each output.

* `toSingles?_eq_some_iff` — a byte string is read as words in one way only.
* `Request.visible` — what the region over a buffer spans of it.
* `bind_given` — an interpretation starts from the bytes that are given with the model and by the
  caller, the latest of which win.
* `writeOutputs_padded` — outputs that fit go to the start of their buffers.
* `run_of_consistent` — where consistent words are given, the run succeeds and returns them.
* `explains_of_values` — a run that succeeds has found consistent words.
-/

namespace NeuralDispatch

open Answer Model

/-! ## Bytes and words -/

namespace Bytes

theorem le32_word (a b c d : UInt8) : le32 (word a b c d) = [a, b, c, d] := by
  have ha := a.toNat_lt
  have hb := b.toNat_lt
  have hc := c.toNat_lt
  have hd := d.toNat_lt
  simp only [le32, word, UInt32.toNat_ofNat', List.cons.injEq, and_true, ← UInt8.toNat_inj,
    UInt8.toNat_ofNat']
  omega

/-- A byte string is read as words in one way only, and those are written back as it was. -/
theorem toSingles?_eq_some_iff {bytes : Bytes} {xs : List Single} :
    bytes.toSingles? = some xs ↔ bytes = ofSingles xs := by
  constructor
  · intro h
    induction bytes using toSingles?.induct generalizing xs with
    | case1 => exact Option.some.inj h ▸ rfl
    | case2 a b c d rest ih =>
      rw [toSingles?] at h
      obtain ⟨words, hwords, rfl⟩ := Option.map_eq_some_iff.1 h
      rw [ofSingles_cons, le32_word, ← ih hwords]
      rfl
    | case3 bytes hnil hfour =>
      rw [toSingles?] at h
      · cases h
      · exact hnil
      · exact hfour
  · rintro rfl
    exact toSingles?_ofSingles xs

end Bytes

/-! ## Regions over whole buffers -/

namespace Request

/-- What the region over a buffer spans of it: everything, if it can state so many bytes. -/
def visible (bytes : Bytes) : Bytes := bytes.take (regionLength bytes.length)

theorem visible_of_lt {bytes : Bytes} (h : bytes.length < UInt32.size) : visible bytes = bytes := by
  rw [visible, regionLength_of_lt h, List.take_length]

/-- Of a buffer with a value at its start and zeros behind it, the region spans as many zeros as it
has room for. -/
theorem visible_rightpad {bytes : Bytes} {length : Nat} (h : bytes.length ≤ regionLength length) :
    visible (bytes.rightpad length 0) = bytes.rightpad (regionLength length) 0 := by
  have hle := regionLength_le length
  rw [visible, List.length_rightpad, max_eq_left (h.trans hle), List.rightpad, List.rightpad,
    List.take_append, List.take_of_length_le h, List.take_replicate, min_eq_left (by omega)]

/-- Whether an input is bound to a pool of its own, which holds these bytes. -/
structure Supplies (r : Request) (k : Nat) (bytes : Bytes) : Prop where
  bound : r.inputs[k]? = some { pool := k, length := regionLength bytes.length }
  memory : r.pools[k]? = some bytes
  /-- Whoever reads the input gets all of them, unless they are too many for a region. -/
  read : r.inputs[k]?.bind r.read = some (visible bytes)
  whole : bytes.length < UInt32.size → r.inputs[k]?.bind r.read = some bytes

/-- Whether an output is bound to a pool of its own, which holds so many zeros. -/
structure Reserves (r : Request) (k length : Nat) : Prop where
  bound : r.outputs[k]? = some { pool := r.inputs.length + k, length := regionLength length }
  memory : r.pools[r.inputs.length + k]? = some (List.replicate length 0)

section OfBuffers

variable {inputs : List Bytes} {lengths : List Nat} {k : Nat}

theorem supplies_ofBuffers {bytes : Bytes} (h : inputs[k]? = some bytes) :
    (ofBuffers inputs lengths).Supplies k bytes := by
  obtain ⟨hlt, rfl⟩ := List.getElem?_eq_some_iff.1 h
  have hbound : (ofBuffers inputs lengths).inputs[k]? =
      some { pool := k, length := regionLength inputs[k].length } := by
    simp [ofBuffers, hlt]
  have hmemory : (ofBuffers inputs lengths).pools[k]? = some inputs[k] := by
    simp [ofBuffers, List.getElem?_append_left, hlt]
  have hread : (ofBuffers inputs lengths).inputs[k]?.bind (ofBuffers inputs lengths).read =
      some (visible inputs[k]) := by
    simp [hbound, Request.read, hmemory, visible, regionLength_le]
  exact ⟨hbound, hmemory, hread, fun hsmall => hread.trans (congrArg some (visible_of_lt hsmall))⟩

theorem reserves_ofBuffers {length : Nat} (h : lengths[k]? = some length) :
    (ofBuffers inputs lengths).Reserves k length where
  bound := by simp [ofBuffers, h]
  memory := by simp [ofBuffers, List.getElem?_append_right, h]

/-- No region over an output is longer than it can state. -/
theorem length_of_output {pools : List Bytes} {bytes : Bytes}
    (h : ({ ofBuffers inputs lengths with pools } : Request).output k = some bytes) :
    bytes.length < UInt32.size := by
  obtain ⟨a, ha, hread⟩ := Option.bind_eq_some_iff.1 h
  obtain ⟨⟨length, slot⟩, -, rfl⟩ := List.mem_map.1 (List.mem_of_getElem? ha)
  obtain ⟨pool, -, hread⟩ := Option.bind_eq_some_iff.1 hread
  dsimp only at hread
  split at hread
  · obtain rfl := Option.some.inj hread
    exact (List.length_take_le _ _).trans_lt (regionLength_lt _)
  · cases hread

end OfBuffers

end Request

/-- Whether bytes are the value of an operand. -/
def Contents.Holds (words : Contents) (o : Nat) (bytes : Bytes) : Prop :=
  ∃ data, words o = some data ∧ bytes = Bytes.ofSingles data

theorem Contents.Holds.unique {words : Contents} {o : Nat} {bytes bytes' : Bytes}
    (h : words.Holds o bytes) (h' : words.Holds o bytes') : bytes = bytes' := by
  obtain ⟨data, hdata, rfl⟩ := h
  obtain ⟨data', hdata', rfl⟩ := h'
  rw [Option.some.inj (hdata.symm.trans hdata')]

theorem Contents.exists_holds {words : Contents} {os : List Nat} (h : ∀ o ∈ os, words o ≠ none) :
    ∃ buffers, List.Forall₂ words.Holds os buffers := by
  refine ⟨os.map fun o => Bytes.ofSingles ((words o).getD []), ?_⟩
  refine List.forall₂_map_right_iff.2 (List.forall₂_same.2 fun o ho => ?_)
  obtain ⟨data, hdata⟩ := Option.ne_none_iff_exists'.1 (h o ho)
  exact ⟨data, hdata, by rw [hdata, Option.getD_some]⟩

namespace Interpreter

/-! ## What is given -/

/-- The bytes that the model itself holds of its operands. -/
def constants (m : Model) : List (Nat × Bytes) :=
  m.operands.zipIdx.filterMap fun (operand, o) => operand.value.map (o, ·)

theorem mem_constants {m : Model} {o : Nat} {bytes : Bytes} :
    (o, bytes) ∈ constants m ↔
      ∃ operand, m.operands[o]? = some operand ∧ operand.value = some bytes := by
  simp only [constants, List.mem_filterMap, Prod.exists, List.mem_zipIdx_iff_getElem?,
    Option.map_eq_some_iff, Prod.mk.injEq]
  constructor
  · rintro ⟨operand, o', hoperand, bytes', hvalue, rfl, rfl⟩
    exact ⟨operand, hoperand, hvalue⟩
  · rintro ⟨operand, hoperand, hvalue⟩
    exact ⟨operand, o, hoperand, bytes, hvalue, rfl, rfl⟩

/-- The bytes that are known of operands before an interpretation, the latest first.  Of the
buffers for the inputs those are known that their regions span. -/
def given (m : Model) (inputs : List Bytes) : KnownValues :=
  (constants m ++ m.inputs.zip (inputs.map Request.visible)).reverse

theorem mem_of_lookup {known : KnownValues} {o : Nat} {bytes : Bytes}
    (h : known.lookup o = some bytes) : (o, bytes) ∈ known := by
  obtain ⟨before, after, rfl, -⟩ := List.lookup_eq_some_iff.1 h
  simp

theorem exists_lookup_of_mem {known : KnownValues} {o : Nat} {bytes : Bytes}
    (h : (o, bytes) ∈ known) : ∃ bytes', known.lookup o = some bytes' := by
  cases hlookup : known.lookup o with
  | none => exact absurd (List.lookup_eq_none_iff.1 hlookup _ h) (by simp)
  | some bytes' => exact ⟨bytes', rfl⟩

theorem lookup_eq_none {known : KnownValues} {o : Nat} (h : ∀ bytes, (o, bytes) ∉ known) :
    known.lookup o = none := by
  cases hlookup : known.lookup o with
  | none => rfl
  | some bytes => exact absurd (mem_of_lookup hlookup) (h bytes)

/-- There are bytes for every operand, if there are enough buffers. -/
theorem exists_lookup_zip {os : List Nat} {inputs : List Bytes} (hle : os.length ≤ inputs.length)
    {o : Nat} (ho : o ∈ os) : ∃ bytes, (os.zip inputs).reverse.lookup o = some bytes := by
  obtain ⟨k, hk⟩ := List.mem_iff_getElem?.1 ho
  have hlt := (List.getElem?_eq_some_iff.1 hk).1.trans_le hle
  exact exists_lookup_of_mem (List.mem_reverse.2 (List.mem_of_getElem?
    (List.getElem?_zip_eq_some.2 ⟨hk, List.getElem?_eq_getElem hlt⟩)))

/-- The regions over buffers span of the latest buffer for an operand what they span of any. -/
theorem lookup_zip_visible (os : List Nat) (inputs : List Bytes) (o : Nat) :
    (os.zip (inputs.map Request.visible)).reverse.lookup o =
      ((os.zip inputs).reverse.lookup o).map Request.visible := by
  rw [List.zip_map_right, ← List.map_reverse]
  induction (os.zip inputs).reverse with
  | nil => rfl
  | cons e rest ih =>
    obtain ⟨o', bytes⟩ := e
    simp only [List.map_cons, Prod.map_apply, id_eq, List.lookup_cons, ih]
    cases o == o' <;> rfl

/-- The value that bytes stand for. -/
def decode (m : Model) (o : Nat) (bytes : Bytes) : Option Tensor := do
  let data ← bytes.toSingles?
  let operand ← m.operands[o]?
  return ⟨operand.dimensions, data⟩

theorem decode_eq_some {m : Model} {o : Nat} {bytes : Bytes} {t : Tensor} :
    decode m o bytes = some t ↔ ∃ operand, m.operands[o]? = some operand ∧
      t.dimensions = operand.dimensions ∧ bytes = Bytes.ofSingles t.data := by
  simp only [decode, Option.bind_eq_bind, Option.bind_eq_some_iff, Option.pure_def,
    Option.some.injEq, Bytes.toSingles?_eq_some_iff]
  constructor
  · rintro ⟨data, rfl, operand, hoperand, rfl⟩
    exact ⟨operand, hoperand, rfl, rfl⟩
  · rintro ⟨operand, hoperand, hdimensions, rfl⟩
    exact ⟨t.data, rfl, operand, hoperand, by rw [← hdimensions]⟩

/-- Binds an operand to what its bytes stand for. -/
def bindBytes (m : Model) (v : Valuation) (entry : Nat × Bytes) : Option Valuation :=
  (decode m entry.1 entry.2).map (v.bind entry.1)

/-- Binding succeeds if all bytes can be read, and then the latest bytes of an operand win. -/
theorem foldlM_bindBytes {m : Model} {entries : List (Nat × Bytes)} {v : Valuation} :
    entries.foldlM (bindBytes m) .empty = some v ↔
      (∀ e ∈ entries, ∃ t, decode m e.1 e.2 = some t) ∧
        v = fun o => (entries.reverse.lookup o).bind (decode m o) := by
  induction entries using List.reverseRecOn generalizing v with
  | nil => simp [Valuation.empty, funext_iff, eq_comm]
  | append_singleton init e ih =>
    rw [foldlM_concat_eq_some, List.reverse_append, List.reverse_singleton, List.singleton_append]
    simp only [ih, List.forall_mem_append, List.forall_mem_singleton, bindBytes,
      Option.map_eq_some_iff]
    have hlast : ∀ t, decode m e.1 e.2 = some t →
        Valuation.bind (fun o => (init.reverse.lookup o).bind (decode m o)) e.1 t =
          fun o => ((e :: init.reverse).lookup o).bind (decode m o) := by
      intro t ht
      funext o
      by_cases ho : o = e.1
      · subst ho
        rw [Valuation.bind_self, List.lookup_cons_self, Option.bind_some, ht]
      · rw [Valuation.bind_of_ne _ _ ho, List.lookup_cons, beq_false_of_ne ho]
    constructor
    · rintro ⟨c, ⟨hinit, rfl⟩, t, ht, rfl⟩
      exact ⟨⟨hinit, t, ht⟩, hlast t ht⟩
    · rintro ⟨⟨hinit, t, ht⟩, rfl⟩
      exact ⟨_, ⟨hinit, rfl⟩, t, ht, hlast t ht⟩

theorem bindConstants_eq (m : Model) :
    bindConstants m = (constants m).foldlM (bindBytes m) .empty := by
  rw [constants, List.foldlM_filterMap, bindConstants]
  refine foldlM_eq_of_forall (fun e he v => ?_) _
  obtain ⟨operand, o⟩ := e
  have hoperand := List.mem_zipIdx_iff_getElem?.1 he
  dsimp only at hoperand ⊢
  cases operand.value with
  | none => rfl
  | some bytes =>
    simp only [Option.map_some, bindBytes, decode, hoperand]
    cases bytes.toSingles? <;> rfl

theorem readInput_ofBuffers (m : Model) (inputs : List Bytes) (lengths : List Nat) (o k : Nat) :
    readInput m (.ofBuffers inputs lengths) o k =
      (inputs.map Request.visible)[k]?.bind (decode m o) := by
  cases hk : inputs[k]? with
  | none => simp [readInput, Request.ofBuffers, hk]
  | some bytes =>
    obtain ⟨hbound, -, hread, -⟩ : (Request.ofBuffers inputs lengths).Supplies k bytes :=
      Request.supplies_ofBuffers hk
    rw [hbound, Option.bind_some] at hread
    simp [readInput, hbound, hread, hk, decode]

/-- Every input takes the buffer at its position, and buffers that are left over are ignored. -/
theorem bindInputs_ofBuffers {m : Model} {inputs : List Bytes} {lengths : List Nat}
    {v v' : Valuation} :
    bindInputs m (.ofBuffers inputs lengths) v = some v' ↔
      m.inputs.length ≤ inputs.length ∧
        (m.inputs.zip (inputs.map Request.visible)).foldlM (bindBytes m) v = some v' := by
  have hfrom : ∀ (buffers : List Bytes) (os : List Nat) (k : Nat) (v : Valuation),
      (os.zipIdx k).foldlM (fun v e => (buffers[e.2]?.bind (decode m e.1)).map (v.bind e.1)) v =
        some v' ↔
      os.length ≤ (buffers.drop k).length ∧
        (os.zip (buffers.drop k)).foldlM (bindBytes m) v = some v' := by
    intro buffers os
    induction os with
    | nil => simp
    | cons o rest ih =>
      intro k v
      rw [List.zipIdx_cons, List.foldlM_cons]
      dsimp only
      by_cases hk : k < buffers.length
      · rw [List.drop_eq_getElem_cons hk, List.zip_cons_cons, List.foldlM_cons,
          List.getElem?_eq_getElem hk, Option.bind_some, List.length_cons, List.length_cons]
        simp only [bindBytes, Option.bind_eq_bind, Option.bind_eq_some_iff,
          Option.map_eq_some_iff]
        constructor
        · rintro ⟨u, ht, hu⟩
          obtain ⟨hlength, hu⟩ := (ih (k + 1) u).1 hu
          exact ⟨Nat.succ_le_succ hlength, u, ht, hu⟩
        · rintro ⟨hlength, u, ht, hu⟩
          exact ⟨u, ht, (ih (k + 1) u).2 ⟨Nat.le_of_succ_le_succ hlength, hu⟩⟩
      · rw [List.getElem?_eq_none (Nat.le_of_not_lt hk),
          List.drop_eq_nil_of_le (Nat.le_of_not_lt hk)]
        simp
  simpa only [bindInputs, readInput_ofBuffers, List.drop_zero, List.length_map] using
    hfrom (inputs.map Request.visible) m.inputs 0 v

/-- An interpretation starts from the bytes that are given with the model and by the caller. -/
theorem bind_given {m : Model} {inputs : List Bytes} (lengths : List Nat) {v' : Valuation} :
    (∃ v, bindConstants m = some v ∧ bindInputs m (.ofBuffers inputs lengths) v = some v') ↔
      m.inputs.length ≤ inputs.length ∧ (∀ e ∈ given m inputs, ∃ t, decode m e.1 e.2 = some t) ∧
        v' = fun o => ((given m inputs).lookup o).bind (decode m o) := by
  have hall : (∃ v, bindConstants m = some v ∧
      (m.inputs.zip (inputs.map Request.visible)).foldlM (bindBytes m) v = some v') ↔
      (constants m ++ m.inputs.zip (inputs.map Request.visible)).foldlM (bindBytes m) .empty =
        some v' := by
    rw [List.foldlM_append, bindConstants_eq]
    exact Option.bind_eq_some_iff.symm
  simp only [bindInputs_ofBuffers, and_left_comm (b := m.inputs.length ≤ inputs.length),
    exists_and_left, hall, foldlM_bindBytes, given, List.mem_reverse]

/-! ## Writing outputs -/

/-- The request for some buffers once the first of its outputs are written. -/
def partlyWritten (inputs written rest : List Bytes) : Request :=
  { Request.ofBuffers inputs ((written ++ rest).map (·.length)) with
    pools := inputs ++ written ++ rest.map fun bytes => List.replicate bytes.length 0 }

theorem partlyWritten_nil (inputs outputs : List Bytes) :
    partlyWritten inputs [] outputs = .ofBuffers inputs (outputs.map (·.length)) := by
  simp [partlyWritten, Request.ofBuffers, Function.comp_def]

theorem getElem?_outputs_partlyWritten (inputs written rest : List Bytes) (k : Nat) :
    (partlyWritten inputs written rest).outputs[k]? =
      (written ++ rest)[k]?.map fun bytes =>
        { pool := inputs.length + k, length := Request.regionLength bytes.length } := by
  simp only [partlyWritten, Request.ofBuffers, List.getElem?_map, List.getElem?_zipIdx]
  cases (written ++ rest)[k]? <;> simp

/-- The next output fills its buffer from the start, and leaves zeros behind it. -/
theorem write?_partlyWritten (inputs written rest : List Bytes) {buffer bytes : Bytes}
    (hfits : bytes.length ≤ Request.regionLength buffer.length) :
    (partlyWritten inputs written (buffer :: rest)).write?
        { pool := inputs.length + written.length
          length := Request.regionLength buffer.length } bytes =
      some (partlyWritten inputs (written ++ [bytes.rightpad buffer.length 0]) rest) := by
  have hinside : bytes.length ≤ buffer.length := hfits.trans (Request.regionLength_le _)
  have hpool : (partlyWritten inputs written (buffer :: rest)).pools[inputs.length +
      written.length]? = some (List.replicate buffer.length 0) := by
    simp [partlyWritten]
  have hfilled : Request.overwrite (List.replicate buffer.length 0) 0 bytes =
      bytes.rightpad buffer.length 0 := by
    simp [Request.overwrite, List.rightpad]
  rw [Request.write?, if_neg (Nat.not_lt.2 hfits), hpool]
  simp [hinside, hfilled, partlyWritten]

/-- The bytes of an output that has been written, as far as its region spans them. -/
theorem output_partlyWritten (inputs outputs : List Bytes) (k : Nat) :
    (partlyWritten inputs outputs []).output k = outputs[k]?.map Request.visible := by
  rw [Request.output, getElem?_outputs_partlyWritten]
  cases hk : outputs[k]? with
  | none => simp [hk]
  | some bytes =>
    simp [hk, Request.read, partlyWritten, List.getElem?_append_right, Request.visible,
      Request.regionLength_le]

/-- Outputs that fit go to the start of the buffers, one after the other. -/
theorem writeOutputs_padded {v : Valuation} {os : List Nat} {outputs buffers : List Bytes}
    (h : List.Forall₂ v.contents.Holds os outputs)
    (hfits : List.Forall₂ (fun bytes buffer =>
      bytes.length ≤ Request.regionLength buffer.length) outputs buffers)
    (inputs written : List Bytes) :
    ∃ shapes, writeOutputs v (os.zipIdx written.length) (partlyWritten inputs written buffers) =
      (partlyWritten inputs (written ++ List.zipWith
        (fun bytes buffer => bytes.rightpad buffer.length 0) outputs buffers) [], some shapes) ∧
        shapes.all (·.isSufficient) = true := by
  induction h generalizing buffers written with
  | nil =>
    cases hfits
    exact ⟨[], by simp [writeOutputs], rfl⟩
  | @cons o bytes os outputs ho _ ih =>
    cases hfits with
    | @cons _ buffer _ buffers hfirst hrest =>
      obtain ⟨data, hdata, rfl⟩ := ho
      obtain ⟨t, ht, rfl⟩ := Option.map_eq_some_iff.1 hdata
      obtain ⟨shapes, hshapes, hall⟩ :=
        ih hrest (written ++ [(Bytes.ofSingles t.data).rightpad buffer.length 0])
      rw [List.length_append, List.length_singleton] at hshapes
      refine ⟨⟨t.dimensions, true⟩ :: shapes, ?_, by simpa using hall⟩
      rw [List.zipIdx_cons, writeOutputs, getElem?_outputs_partlyWritten, ht]
      simp only [List.getElem?_append_right (Nat.le_refl _), Nat.sub_self,
        List.getElem?_cons_zero, Option.map_some, write?_partlyWritten _ _ _ hfirst,
        Option.getD_some, hshapes, Option.isSome_some, List.append_assoc, List.singleton_append,
        List.zipWith_cons_cons]

/-- Outputs that fill their buffers leave nothing of them. -/
theorem zipWith_rightpad_self (outputs : List Bytes) :
    List.zipWith (fun bytes buffer => bytes.rightpad buffer.length 0) outputs outputs =
      outputs := by
  simp [List.rightpad]

/-- Outputs that fit exactly fill the buffers one after the other, if the regions can state their
lengths. -/
theorem writeOutputs_partlyWritten {v : Valuation} {os : List Nat} {rest : List Bytes}
    (h : List.Forall₂ v.contents.Holds os rest)
    (hsmall : ∀ bytes ∈ rest, bytes.length < UInt32.size)
    (inputs written : List Bytes) :
    ∃ shapes, writeOutputs v (os.zipIdx written.length) (partlyWritten inputs written rest) =
      (partlyWritten inputs (written ++ rest) [], some shapes) ∧
        shapes.all (·.isSufficient) = true := by
  have hfits : ∀ bytes ∈ rest, bytes.length ≤ Request.regionLength bytes.length :=
    fun bytes hbytes => (Request.regionLength_of_lt (hsmall bytes hbytes)).ge
  have hpadded := writeOutputs_padded h (List.forall₂_same.2 hfits) inputs written
  rwa [zipWith_rightpad_self] at hpadded

theorem exists_of_writeOutputs {v : Valuation} {entries : List (Nat × Nat)} {r r' : Request}
    {shapes : List OutputShape} (h : writeOutputs v entries r = (r', some shapes)) :
    ∀ e ∈ entries, ∃ t, v e.1 = some t := by
  induction entries generalizing r shapes with
  | nil => simp
  | cons e rest ih =>
    obtain ⟨o, k⟩ := e
    rw [writeOutputs] at h
    split at h
    · next argument t hargument ht =>
      obtain ⟨hrequest, hshapes⟩ := Prod.mk.inj h
      obtain ⟨shapes', hshapes', -⟩ := Option.map_eq_some_iff.1 hshapes
      have hrest := ih (Prod.ext hrequest hshapes')
      exact List.forall_mem_cons.2 ⟨⟨t, ht⟩, hrest⟩
    · cases (Prod.mk.inj h).2

/-- Outputs that are all reported to fit have values that do. -/
theorem fits_of_writeOutputs {v : Valuation} {os : List Nat} {inputs written buffers : List Bytes}
    (hlength : os.length = buffers.length) {r : Request} {shapes : List OutputShape}
    (h : writeOutputs v (os.zipIdx written.length) (partlyWritten inputs written buffers) =
      (r, some shapes))
    (hall : shapes.all (·.isSufficient) = true) :
    ∃ outputs, List.Forall₂ v.contents.Holds os outputs ∧
      List.Forall₂ (fun bytes buffer =>
        bytes.length ≤ Request.regionLength buffer.length) outputs buffers := by
  induction os generalizing written buffers shapes with
  | nil =>
    obtain rfl := List.length_eq_zero_iff.1 hlength.symm
    exact ⟨[], .nil, .nil⟩
  | cons o os ih =>
    cases buffers with
    | nil => cases hlength
    | cons buffer buffers =>
      have hargument : (partlyWritten inputs written (buffer :: buffers)).outputs[written.length]? =
          some { pool := inputs.length + written.length
                 length := Request.regionLength buffer.length } := by
        rw [getElem?_outputs_partlyWritten, List.getElem?_append_right (Nat.le_refl _)]
        simp
      obtain ⟨t, ht⟩ := exists_of_writeOutputs h (o, written.length) (by simp [List.zipIdx_cons])
      rw [List.zipIdx_cons, writeOutputs, hargument, ht] at h
      obtain ⟨hrequest, hshapes⟩ := Prod.mk.inj h
      obtain ⟨rest, hrest, rfl⟩ := Option.map_eq_some_iff.1 hshapes
      obtain ⟨hfirst, hall⟩ := Bool.and_eq_true_iff.1 (List.all_cons ▸ hall)
      -- what does not fit is not written, and reported so
      have hfits : (Bytes.ofSingles t.data).length ≤ Request.regionLength buffer.length := by
        by_contra hlong
        rw [Request.write?, if_pos (Nat.lt_of_not_le hlong)] at hfirst
        cases hfirst
      rw [write?_partlyWritten _ _ _ hfits, Option.getD_some] at hrequest hrest
      have hnext : writeOutputs v (os.zipIdx
          (written ++ [(Bytes.ofSingles t.data).rightpad buffer.length 0]).length)
          (partlyWritten inputs (written ++ [(Bytes.ofSingles t.data).rightpad buffer.length 0])
            buffers) = (r, some rest) := by
        rw [List.length_append, List.length_singleton]
        exact Prod.ext hrequest hrest
      obtain ⟨outputs, houtputs, hlengths⟩ := ih (Nat.succ.inj hlength) hnext hall
      exact ⟨_, .cons ⟨t.data, by rw [Valuation.contents, ht]; rfl, rfl⟩ houtputs,
        .cons hfits hlengths⟩

/-! ## Whole runs -/

/-- Where consistent words are given, the run finds those of all results. -/
theorem values_of_consistent {m : Model} (hvalid : Valid m) {words : Contents}
    (h : Consistent m words) {inputs : List Bytes} (lengths : List Nat)
    (henough : m.inputs.length ≤ inputs.length) (hexist : ∀ o ∈ m.inputs, o < m.operands.length)
    (hholds : ∀ e ∈ given m inputs, words.Holds e.1 e.2)
    (hread : ∀ op ∈ m.operations, ∀ o ∈ op.inputs, o ∉ m.written →
      ∃ bytes, (o, bytes) ∈ given m inputs) :
    ∃ v, values m (.ofBuffers inputs lengths) = .ok v ∧
      ∀ o ∈ m.written, words o ≠ none → v.contents o = words o := by
  have hdecode : ∀ e ∈ given m inputs,
      ∃ t, decode m e.1 e.2 = some t ∧ words e.1 = some t.data := by
    rintro ⟨o, bytes⟩ he
    obtain ⟨data, hdata, rfl⟩ := hholds _ he
    obtain ⟨operand, hoperand⟩ : ∃ operand, m.operands[o]? = some operand := by
      rcases List.mem_append.1 (List.mem_reverse.1 he) with hconstant | hinput
      · obtain ⟨operand, hoperand, -⟩ := mem_constants.1 hconstant
        exact ⟨operand, hoperand⟩
      · exact exists_operand (hexist o (List.of_mem_zip hinput).1)
    exact ⟨⟨operand.dimensions, data⟩, decode_eq_some.2 ⟨operand, hoperand, rfl, rfl⟩, hdata⟩
  obtain ⟨v, hconstants, hinputs⟩ := (bind_given lengths).2
    ⟨henough, fun e he => (hdecode e he).imp fun t ht => ht.1, rfl⟩
  obtain ⟨order, horder⟩ := hvalid.acyclic
  obtain ⟨hperm, hordered⟩ := topologicalOrder_ok horder
  obtain ⟨v', hevaluate, hfound, -⟩ := evaluate_of_consistent h
    (v := fun o => ((given m inputs).lookup o).bind (decode m o))
    (fun op hop o ho hunwritten => by
      obtain ⟨bytes, hmem⟩ := hread op hop o ho hunwritten
      obtain ⟨latest, hlatest⟩ := exists_lookup_of_mem hmem
      obtain ⟨t, ht, hword⟩ := hdecode _ (mem_of_lookup hlatest)
      rw [Valuation.contents, hlatest, Option.bind_some, ht, Option.map_some, hword])
    (fun i hi => List.mem_range.1 (hperm.mem_iff.1 hi)) hordered
  refine ⟨v', by simp [values, hconstants, hinputs, horder, hevaluate], fun o ho hknown => ?_⟩
  obtain ⟨op, hop, hwrites⟩ := mem_written.1 ho
  obtain ⟨i, hi⟩ := List.mem_iff_getElem?.1 hop
  have hlisted := hperm.mem_iff.2 (List.mem_range.2 (List.getElem?_eq_some_iff.1 hi).1)
  exact hfound i hlisted op hi o (h.headed op hop o hwrites hknown)

/-- Where consistent words are given, the run succeeds and returns those of the outputs, if there
are not too many for a region. -/
theorem run_of_consistent {m : Model} (hvalid : Valid m) {words : Contents}
    (h : Consistent m words) {inputs outputs : List Bytes}
    (henough : m.inputs.length ≤ inputs.length) (hexist : ∀ o ∈ m.inputs, o < m.operands.length)
    (hholds : ∀ e ∈ given m inputs, words.Holds e.1 e.2)
    (hread : ∀ op ∈ m.operations, ∀ o ∈ op.inputs, o ∉ m.written →
      ∃ bytes, (o, bytes) ∈ given m inputs)
    (houtputs : List.Forall₂ words.Holds m.outputs outputs)
    (hsmall : ∀ bytes ∈ outputs, bytes.length < UInt32.size) :
    ∃ report, run m (.ofBuffers inputs (outputs.map (·.length))) =
      (partlyWritten inputs outputs [], report) ∧ report.status = .success := by
  obtain ⟨v, hv, hfound⟩ := values_of_consistent hvalid h (outputs.map (·.length)) henough hexist
    hholds hread
  have hreturned : List.Forall₂ v.contents.Holds m.outputs outputs := by
    refine ((List.forall₂_and_left _ _).2 ⟨hvalid.outputs_written, houtputs⟩).imp ?_
    rintro o bytes ⟨hwritten, data, hdata, rfl⟩
    exact ⟨data, (hfound o hwritten (by simp [hdata])).trans hdata, rfl⟩
  obtain ⟨shapes, hshapes, hall⟩ := writeOutputs_partlyWritten hreturned hsmall inputs []
  refine ⟨{ status := .success, shapes }, ?_, rfl⟩
  rw [List.length_nil, List.nil_append] at hshapes
  rw [run, hv, ← partlyWritten_nil]
  dsimp only
  rw [hshapes]
  simp [hall]

/-- All values are found if everything is bound and every operation can be evaluated; otherwise one
of two statuses says so. -/
theorem values_cases (m : Model) (r : Request) :
    (∃ v₀ v₁ order v, bindConstants m = some v₀ ∧ bindInputs m r v₀ = some v₁ ∧
      m.topologicalOrder = .ok order ∧ order.foldlM (evaluate m) v₁ = some v ∧
      values m r = .ok v) ∨
    values m r = .error .generalFailure ∨ values m r = .error .invalidArgument := by
  unfold values
  cases hconstants : bindConstants m with
  | none => exact .inr (.inl rfl)
  | some v₀ =>
    cases hinputs : bindInputs m r v₀ with
    | none => exact .inr (.inr (by simp only [hinputs]; rfl))
    | some v₁ =>
      cases horder : m.topologicalOrder with
      | error e => exact .inr (.inl (by simp only [hinputs]; rfl))
      | ok order =>
        cases hfound : order.foldlM (evaluate m) v₁ with
        | none => exact .inr (.inl (by simp only [hinputs, hfound]; rfl))
        | some v => exact .inl ⟨v₀, v₁, order, v, rfl, hinputs, rfl, hfound, by
            simp only [hinputs, hfound]; rfl⟩

/-- Whether words account for the values of a model's operands on some inputs. -/
structure Explains (m : Model) (inputs : List Bytes) (words : Contents) : Prop where
  consistent : Consistent m words
  enough : m.inputs.length ≤ inputs.length
  holds : ∀ o bytes, (given m inputs).lookup o = some bytes → words.Holds o bytes
  blank : ∀ o, o ∉ m.written → (given m inputs).lookup o = none → words o = none

/-- A run that succeeds has found words that account for it. -/
theorem explains_of_values {m : Model} (hvalid : Valid m) {inputs : List Bytes}
    {lengths : List Nat} (hgiven : ∀ e ∈ given m inputs, e.1 ∉ m.written) {v : Valuation}
    (h : values m (.ofBuffers inputs lengths) = .ok v) : Explains m inputs v.contents := by
  obtain ⟨w, u, order, v', hconstants, hinputs, horder, hevaluate, hvalues⟩ :=
    (values_cases m (.ofBuffers inputs lengths)).resolve_right (by simp [h])
  obtain rfl := Except.ok.inj (hvalues.symm.trans h)
  obtain ⟨hperm, hordered⟩ := topologicalOrder_ok horder
  obtain ⟨henough, hdecode, rfl⟩ := (bind_given _).1 ⟨w, hconstants, hinputs⟩
  have hblank : ∀ o ∈ m.written, (given m inputs).lookup o = none := fun o ho =>
    lookup_eq_none fun bytes hmem => hgiven _ hmem ho
  obtain ⟨hconsistent, hkept⟩ := consistent_of_evaluate hvalid.single hperm hordered
    (fun o ho => by rw [hblank o ho, Option.bind_none]) hevaluate
  refine ⟨hconsistent, henough, fun o bytes hlookup => ?_, fun o ho hlookup => ?_⟩
  · obtain ⟨t, ht⟩ := hdecode _ (mem_of_lookup hlookup)
    obtain ⟨-, -, -, hbytes⟩ := decode_eq_some.1 ht
    refine ⟨t.data, ?_, hbytes⟩
    rw [Valuation.contents, hkept o (hgiven _ (mem_of_lookup hlookup)), hlookup,
      Option.bind_some, ht, Option.map_some]
  · rw [Valuation.contents, hkept o ho, hlookup]
    rfl

/-! ## Buffers of the right lengths -/

/-- The bytes that the outputs of a model take, if all their extents are known. -/
def outputLengths (m : Model) : Option (List Nat) :=
  m.outputs.mapM fun o => m.operands[o]?.bind (·.byteLength)

/-- Whether every operation has computed as many bytes as its first output takes. -/
def Exact (m : Model) (v : Valuation) : Prop :=
  ∀ op ∈ m.operations, ∃ o operand t, op.outputs.head? = some o ∧ m.operands[o]? = some operand ∧
    v o = some t ∧ operand.byteLength = some (Bytes.ofSingles t.data).length

/-- A value that an operation has computed is as long as its operand takes. -/
theorem Exact.byteLength {m : Model} {v : Valuation} (h : Exact m v)
    (hconsistent : Consistent m v.contents) {o : Nat} {bytes : Bytes} (ho : o ∈ m.written)
    (hholds : v.contents.Holds o bytes) :
    ∃ operand, m.operands[o]? = some operand ∧ operand.byteLength = some bytes.length := by
  obtain ⟨data, hdata, rfl⟩ := hholds
  obtain ⟨op, hop, hwrites⟩ := mem_written.1 ho
  obtain ⟨o', operand, t, ho', hoperand, ht, hlength⟩ := h op hop
  have hhead := hconsistent.headed op hop o hwrites (by simp [hdata])
  obtain rfl := Option.some.inj (hhead.symm.trans ho')
  rw [Valuation.contents, ht, Option.map_some] at hdata
  obtain rfl := Option.some.inj hdata
  exact ⟨operand, hoperand, hlength⟩

/-- A run that finds no values does not end with success. -/
theorem ne_success_of_values {m : Model} {r : Request} {status : Status}
    (h : values m r = .error status) : status ≠ .success := by
  rintro rfl
  rcases values_cases m r with ⟨_, _, _, _, _, _, _, _, hvalues⟩ | hvalues | hvalues <;>
    cases hvalues.symm.trans h

/-- A successful run has found values for the outputs that fit their regions, and puts each at the
start of its own. -/
theorem padded_of_run {m : Model} {inputs : List Bytes} {lengths : List Nat}
    (hcount : m.outputs.length = lengths.length)
    (hrun : (run m (.ofBuffers inputs lengths)).2.status = .success) :
    ∃ v outputs, values m (.ofBuffers inputs lengths) = .ok v ∧
      List.Forall₂ v.contents.Holds m.outputs outputs ∧
      List.Forall₂ (fun bytes length => bytes.length ≤ Request.regionLength length)
        outputs lengths ∧
      ∀ k, (run m (.ofBuffers inputs lengths)).1.output k =
        (List.zipWith (fun bytes length => bytes.rightpad (Request.regionLength length) 0)
          outputs lengths)[k]? := by
  let buffers := lengths.map fun length => List.replicate length (0 : UInt8)
  have hrequest : Request.ofBuffers inputs lengths = partlyWritten inputs [] buffers := by
    rw [partlyWritten_nil]
    simp [buffers, Function.comp_def]
  cases hv : values m (.ofBuffers inputs lengths) with
  | error status =>
    rw [run, hv] at hrun
    exact absurd hrun (ne_success_of_values hv)
  | ok v =>
    rw [run, hv] at hrun ⊢
    dsimp only at hrun ⊢
    split at hrun
    · cases hrun
    · next r shapes hwrite =>
      have hall : shapes.all (·.isSufficient) = true := by
        by_contra hsome
        rw [if_neg hsome] at hrun
        cases hrun
      have hwrite : writeOutputs v (m.outputs.zipIdx ([] : List Bytes).length)
          (partlyWritten inputs [] buffers) = (r, some shapes) := hrequest ▸ hwrite
      have hcount : m.outputs.length = buffers.length := hcount.trans (List.length_map _).symm
      obtain ⟨outputs, houtputs, hfits⟩ := fits_of_writeOutputs hcount hwrite hall
      obtain ⟨shapes', hpadded, -⟩ := writeOutputs_padded houtputs hfits inputs []
      obtain ⟨rfl, -⟩ := Prod.mk.inj (hwrite.symm.trans hpadded)
      have hfits : List.Forall₂ (fun bytes length => bytes.length ≤ Request.regionLength length)
          outputs lengths := by
        simpa [buffers, List.forall₂_map_right_iff] using hfits
      rw [List.nil_append]
      refine ⟨v, outputs, rfl, houtputs, hfits, fun k => ?_⟩
      rw [output_partlyWritten, List.getElem?_zipWith, List.getElem?_zipWith, List.getElem?_map]
      cases hk : outputs[k]? with
      | none => rfl
      | some bytes =>
        obtain ⟨length, hlength, hfit⟩ := counterpart hfits hk
        simp only [hlength, Option.map_some, List.length_replicate, Request.visible_rightpad hfit]

/-- A successful run with buffers of the right lengths returns the words of the outputs, all of
which regions can span. -/
theorem outputs_of_run {m : Model} (hvalid : Valid m) {inputs : List Bytes} {lengths : List Nat}
    {v : Valuation} (hexplains : Explains m inputs v.contents) (hexact : Exact m v)
    (hlengths : outputLengths m = some lengths)
    (hvalues : values m (.ofBuffers inputs lengths) = .ok v)
    (hrun : (run m (.ofBuffers inputs lengths)).2.status = .success) :
    ∃ outputs, List.Forall₂ v.contents.Holds m.outputs outputs ∧
      (∀ bytes ∈ outputs, bytes.length < UInt32.size) ∧
      ∀ k, (run m (.ofBuffers inputs lengths)).1.output k = outputs[k]? := by
  have hcount : m.outputs.length = lengths.length := (mapM_eq_some.1 hlengths).length_eq
  obtain ⟨v', outputs, hvalues', houtputs, hfits, hwritten⟩ := padded_of_run hcount hrun
  obtain rfl := Except.ok.inj (hvalues.symm.trans hvalues')
  have hlength : lengths = outputs.map (·.length) := by
    have hall : m.outputs.mapM (fun o => m.operands[o]?.bind (·.byteLength)) =
        some (outputs.map (·.length)) := by
      refine mapM_eq_some.2 (List.forall₂_map_right_iff.2 ?_)
      refine ((List.forall₂_and_left _ _).2 ⟨hvalid.outputs_written, houtputs⟩).imp
        fun o bytes h => ?_
      obtain ⟨operand, hoperand, hbytes⟩ := hexact.byteLength hexplains.consistent h.1 h.2
      rw [hoperand, Option.bind_some, hbytes]
    exact Option.some.inj (hlengths.symm.trans hall)
  rw [hlength, List.forall₂_map_right_iff, List.forall₂_same] at hfits
  have hsmall : ∀ bytes ∈ outputs, bytes.length < UInt32.size := fun bytes hbytes =>
    (hfits bytes hbytes).trans_lt (Request.regionLength_lt _)
  refine ⟨outputs, houtputs, hsmall, fun k => ?_⟩
  rw [hwritten, hlength, List.zipWith_map_right, List.getElem?_zipWith]
  cases hk : outputs[k]? with
  | none => rfl
  | some bytes =>
    have hfull := Request.regionLength_of_lt (hsmall bytes (List.mem_of_getElem? hk))
    simp [hfull, List.rightpad]

end Interpreter

end NeuralDispatch

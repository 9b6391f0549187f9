import NeuralDispatch.Proofs.Builder
import NeuralDispatch.Proofs.Wire

/-!
# Filling in constants from a data cache

A data cache is read record by record, each of which gives one constant its bytes.

* `Takes` — whether an operand can be given some bytes from a data cache.
* `filled_of_attach` — reading a data cache, whatever it holds, changes nothing but the bytes of
  constants.
* `attach_write` — the data cache of a model gives back all the bytes that were taken from it.
-/

namespace NeuralDispatch.Cache.Constants

open Answer Model

/-! ## One record -/

/-- Whether an operand can be given these bytes from a data cache. -/
structure Takes (o : Operand) (bytes : Bytes) : Prop where
  constant : o.isConstant = true
  length : ∀ n ∈ o.byteLength, n = bytes.length
  short : bytes.length < UInt32.size

theorem fill_eq_ok {m m' : Model} {i : Nat} {bytes : Bytes} :
    fill m i bytes = .ok m' ↔
      ∃ o, m.operands[i]? = some o ∧ o.isConstant = true ∧ o.value = none ∧
        (∀ n ∈ o.byteLength, n = bytes.length) ∧
        m' = m.setOperand i { o with value := some bytes } := by
  rw [fill]
  constructor
  · intro h
    split at h
    · cases h
    · next o ho =>
      split at h
      · cases h
      · next hconstant =>
        split at h
        · cases h
        · next hvalue =>
          split at h
          · cases h
          · next filled hfilled =>
            obtain ⟨o', ho', hlength, rfl⟩ := setConstant_eq_ok.1 hfilled
            obtain rfl := Option.some.inj ((operand_eq_ok.1 ho).symm.trans ho')
            exact ⟨o, ho', by simpa using hconstant, by simpa using hvalue, hlength,
              (Except.ok.inj h).symm⟩
  · rintro ⟨o, ho, hconstant, hvalue, hlength, rfl⟩
    rw [operand_eq_ok.2 ho]
    simp only [hconstant, hvalue, setConstant_eq_ok.2 ⟨o, ho, hlength, rfl⟩]
    rfl

/-- Whether a model is another one with bytes filled in for some of its constants. -/
structure Filled (m m' : Model) : Prop where
  same : m' = { m with operands := m'.operands }
  operand : ∀ (i : Nat) (o' : Operand), m'.operands[i]? = some o' →
    ∃ o, m.operands[i]? = some o ∧ o' = { o with value := o'.value } ∧
      ∀ bytes, o'.value = some bytes → Takes o bytes

theorem Filled.fill {m m' m'' : Model} {i : Nat} {bytes : Bytes} (h : Filled m m')
    (short : bytes.length < UInt32.size) (hfill : Constants.fill m' i bytes = .ok m'') :
    Filled m m'' := by
  obtain ⟨o', ho', hconstant, -, hlength, rfl⟩ := fill_eq_ok.1 hfill
  refine ⟨by rw [h.same]; rfl, fun j old hold => ?_⟩
  rw [setOperand, List.getElem?_set] at hold
  split at hold
  · next hij =>
    subst hij
    rw [if_pos (List.getElem?_eq_some_iff.1 ho').1] at hold
    obtain rfl := Option.some.inj hold
    obtain ⟨o, ho, hsame, -⟩ := h.operand i o' ho'
    refine ⟨o, ho, by rw [hsame], fun given hgiven => ?_⟩
    obtain rfl := Option.some.inj hgiven
    rw [hsame] at hconstant hlength
    exact ⟨hconstant, hlength, short⟩
  · exact h.operand j old hold

/-! ## All records -/

/-- Whatever the records are, reading them does no more than fill in constants. -/
theorem filled_of_readRecords {n : Nat} {m m' m'' : Model} {bytes rest : Bytes} (h : Filled m m')
    (hread : readRecords n m' bytes = .ok (m'', rest)) : Filled m m'' := by
  induction n generalizing m' bytes with
  | zero =>
    obtain ⟨rfl, -⟩ := Prod.mk.inj (Except.ok.inj hread)
    exact h
  | succ n ih =>
    obtain ⟨i, bytes₁, -, hread⟩ := Reader.bind_eq_ok.1 hread
    obtain ⟨length, bytes₂, hlength, hread⟩ := Reader.bind_eq_ok.1 hread
    obtain ⟨taken, bytes₃, htaken, hread⟩ := Reader.bind_eq_ok.1 hread
    obtain ⟨filled, bytes₄, hfilled, hread⟩ := Reader.bind_eq_ok.1 hread
    have short : taken.length < UInt32.size := by
      rw [Reader.length_of_take htaken]
      exact Reader.lt_of_number hlength
    exact ih (h.fill short (Reader.lift_eq_ok.1 hfilled).1) hread

/-- Whatever a data cache holds, reading it does no more than fill in constants. -/
theorem filled_of_attach {m m' : Model} {bytes : Bytes} (hvalues : ∀ o ∈ m.operands, o.value = none)
    (h : attach m bytes = .ok m') : Filled m m' := by
  rw [attach, bind_eq_ok] at h
  obtain ⟨⟨filled, rest⟩, hread, h⟩ := h
  obtain ⟨n, rest', -, hread⟩ := Reader.bind_eq_ok.1 hread
  have hfilled : Filled m m := ⟨rfl, fun i o ho => ⟨o, ho, rfl, fun bytes hbytes => by
    rw [hvalues o (List.mem_of_getElem? ho)] at hbytes
    cases hbytes⟩⟩
  have hall := filled_of_readRecords hfilled hread
  dsimp only at h
  split at h
  · cases h
  · split at h
    · cases h
    · obtain rfl := Except.ok.inj h
      exact hall

/-! ## Filling in what has been written -/

/-- Written records are filled in one after the other, as far as they can be. -/
theorem readRecords_flatMap_append {records : List (Nat × Bytes)}
    (places : ∀ r ∈ records, r.1 < UInt32.size) (short : ∀ r ∈ records, r.2.length < UInt32.size)
    (m : Model) (rest : Bytes) :
    readRecords records.length m (records.flatMap writeRecord ++ rest) =
      (records.foldlM (fun m r => fill m r.1 r.2) m).map (·, rest) := by
  induction records generalizing m with
  | nil => rfl
  | cons r others ih =>
    obtain ⟨hplace, places⟩ := List.forall_mem_cons.1 places
    obtain ⟨hlength, short⟩ := List.forall_mem_cons.1 short
    rw [List.flatMap_cons, writeRecord, List.append_assoc, List.append_assoc, List.append_assoc,
      List.length_cons, readRecords, (reads_number hplace).bind_append,
      (reads_number hlength).bind_append, (reads_take r.2).bind_append, List.foldlM_cons]
    cases fill m r.1 r.2 with
    | error e => rfl
    | ok filled => exact ih places short filled

theorem reads_records {records : List (Nat × Bytes)} {m m' : Model}
    (places : ∀ r ∈ records, r.1 < UInt32.size) (short : ∀ r ∈ records, r.2.length < UInt32.size)
    (hfill : records.foldlM (fun m r => fill m r.1 r.2) m = .ok m') :
    Reads (readRecords records.length m) (records.flatMap writeRecord) m' := by
  intro rest
  rw [readRecords_flatMap_append places short, hfill]
  rfl

/-- An operand without its bytes. -/
def blank (o : Operand) : Operand := { o with value := none }

/-- Why an operand cannot be given back the bytes it holds: they are not as many as it takes. -/
def misfit? (i : Nat) (o : Operand) : Option ModelError := do
  let bytes ← o.value
  let n ← o.byteLength
  if n = bytes.length then none else some (.wrongLength i n bytes.length)

theorem misfit?_eq_none_iff {i : Nat} {o : Operand} :
    misfit? i o = none ↔ ∀ bytes ∈ o.value, ∀ n ∈ o.byteLength, n = bytes.length := by
  rw [misfit?]
  cases o.value <;> cases o.byteLength <;> simp

theorem misfit?_eq_some_iff {i : Nat} {o : Operand} {e : ModelError} :
    misfit? i o = some e ↔ ∃ bytes n, o.value = some bytes ∧ o.byteLength = some n ∧
      n ≠ bytes.length ∧ e = .wrongLength i n bytes.length := by
  rw [misfit?]
  cases o.value <;> cases o.byteLength <;> simp [eq_comm]

/-- The same for the first operand of a model, if any, that holds another number of bytes. -/
def firstMisfit? (m : Model) : Option ModelError :=
  m.operands.zipIdx.findSome? fun p => misfit? p.2 p.1

theorem firstMisfit?_eq_none_iff {m : Model} :
    firstMisfit? m = none ↔
      ∀ o ∈ m.operands, ∀ bytes ∈ o.value, ∀ n ∈ o.byteLength, n = bytes.length := by
  rw [firstMisfit?, List.findSome?_eq_none_iff]
  constructor
  · intro h o ho
    obtain ⟨i, hi⟩ := List.mem_iff_getElem?.1 ho
    exact misfit?_eq_none_iff.1 (h (o, i) (List.mem_zipIdx_iff_getElem?.2 hi))
  · intro h p hp
    exact misfit?_eq_none_iff.2 (h p.1 (List.mem_of_getElem? (List.mem_zipIdx_iff_getElem?.1 hp)))

/-- The answer to a data cache that gives some operands their bytes back: a model that holds them,
unless one is a misfit. -/
def refilled (m : Model) : Option ModelError → Except CacheError Model
  | none => .ok m
  | some e => .error (.mismatch (.model e))

/-- A blank constant gets its bytes back, unless it is a misfit. -/
theorem fill_blank {m : Model} {i : Nat} {o : Operand} {bytes : Bytes}
    (ho : m.operands[i]? = some (blank o)) (hconstant : o.isConstant = true)
    (hvalue : o.value = some bytes) :
    fill m i bytes = refilled (m.setOperand i o) (misfit? i o) := by
  cases hmisfit : misfit? i o with
  | none =>
    have hback : { blank o with value := some bytes } = o := by rw [blank, ← hvalue]
    have hlength := misfit?_eq_none_iff.1 hmisfit bytes hvalue
    refine fill_eq_ok.2 ⟨blank o, ho, hconstant, rfl, hlength, ?_⟩
    rw [hback]
  | some e =>
    obtain ⟨bytes', n, hvalue', hn, hne, rfl⟩ := misfit?_eq_some_iff.1 hmisfit
    obtain rfl := Option.some.inj (hvalue.symm.trans hvalue')
    have hset : m.setConstant i bytes o.lifetime = .error (.wrongLength i n bytes.length) := by
      have hlength : (blank o).byteLength = some n := hn
      rw [setConstant, operand_eq_ok.2 ho, ok_bind]
      simp only [hlength, if_pos hne]
      rfl
    have hblank : (blank o).isConstant = true ∧ (blank o).value.isSome = false := ⟨hconstant, rfl⟩
    have hlifetime : (blank o).lifetime = o.lifetime := rfl
    rw [fill, operand_eq_ok.2 ho]
    simp only [hblank, hlifetime, hset]
    rfl

/-- The operands of a model get their bytes back one after the other, up to the first misfit. -/
theorem foldlM_fill {m : Model} {before after : List Operand}
    (constant : ∀ o ∈ after, o.value ≠ none → o.isConstant = true) :
    ((after.zipIdx before.length).filterMap fun (o, i) => o.value.map (i, ·)).foldlM
      (fun m r => fill m r.1 r.2) { m with operands := before ++ after.map blank } =
        refilled { m with operands := before ++ after }
          ((after.zipIdx before.length).findSome? fun p => misfit? p.2 p.1) := by
  induction after generalizing before with
  | nil => rfl
  | cons o rest ih =>
    obtain ⟨ho, constant⟩ := List.forall_mem_cons.1 constant
    have hrest := @ih (before ++ [o]) constant
    rw [List.length_append, List.length_singleton, List.append_assoc, List.append_assoc,
      List.singleton_append, List.singleton_append] at hrest
    rw [List.zipIdx_cons, List.map_cons, List.findSome?_cons]
    cases hvalue : o.value with
    | none =>
      have hblank : blank o = o := by rw [blank, ← hvalue]
      have hfits : misfit? before.length o = none := by rw [misfit?, hvalue]; rfl
      rw [List.filterMap_cons_none (by simp [hvalue]), hblank, hfits]
      exact hrest
    | some bytes =>
      have hfill := @fill_blank { m with operands := before ++ blank o :: rest.map blank }
        before.length o bytes (by simp) (ho (by simp [hvalue])) hvalue
      rw [List.filterMap_cons_some (b := (before.length, bytes)) (by simp [hvalue]),
        List.foldlM_cons, hfill]
      cases misfit? before.length o with
      | some e => rfl
      | none =>
        have hset : ({ m with operands := before ++ blank o :: rest.map blank } : Model).setOperand
            before.length o = { m with operands := before ++ o :: rest.map blank } := by
          simp [setOperand]
        rw [refilled, hset, ok_bind]
        exact hrest

/-- The bytes in a data cache make a model whole again, unless an operand is a misfit. -/
theorem attach_write {m : Model} (hlength : m.operands.length < UInt32.size)
    (short : ∀ o ∈ m.operands, ∀ bytes ∈ o.value, bytes.length < UInt32.size)
    (valued : ∀ o ∈ m.operands, (o.value ≠ none ↔ o.isConstant = true)) :
    attach { m with operands := m.operands.map blank } (write m) = refilled m (firstMisfit? m) := by
  have hrecords : ∀ r ∈ records m, r.1 < UInt32.size ∧ r.2.length < UInt32.size := by
    rintro r hr
    obtain ⟨⟨o, i⟩, ho, hr⟩ := List.mem_filterMap.1 hr
    obtain ⟨bytes, hvalue, rfl⟩ := Option.map_eq_some_iff.1 hr
    have ho := List.mem_zipIdx_iff_getElem?.1 ho
    exact ⟨Nat.lt_trans (List.getElem?_eq_some_iff.1 ho).1 hlength,
      short o (List.mem_of_getElem? ho) bytes hvalue⟩
  have hcount : (records m).length < UInt32.size := by
    refine Nat.lt_of_le_of_lt (List.length_filterMap_le _ _) ?_
    rwa [List.length_zipIdx]
  have hfill : (records m).foldlM (fun m r => fill m r.1 r.2)
      { m with operands := m.operands.map blank } = refilled m (firstMisfit? m) :=
    @foldlM_fill m [] m.operands fun o ho => (valued o ho).1
  have hread : (do readRecords (← Reader.number) { m with operands := m.operands.map blank } :
      Reader Model) (write m) = (refilled m (firstMisfit? m)).map (·, []) := by
    rw [write, (reads_number hcount).bind_append,
      ← List.append_nil ((records m).flatMap writeRecord),
      readRecords_flatMap_append (fun r hr => (hrecords r hr).1) (fun r hr => (hrecords r hr).2),
      hfill]
  have hnone : (m.operands.findIdx? fun o => o.isConstant && o.value.isNone) = none := by
    refine List.findIdx?_eq_none_iff.2 fun o ho => ?_
    cases hconstant : o.isConstant with
    | false => rfl
    | true => simpa using Option.isSome_iff_ne_none.2 ((valued o ho).2 hconstant)
  rw [attach, hread]
  cases firstMisfit? m with
  | some e => rfl
  | none =>
    rw [refilled, Except.map, ok_bind]
    dsimp only
    rw [if_neg (by simp), hnone]
    rfl

end NeuralDispatch.Cache.Constants

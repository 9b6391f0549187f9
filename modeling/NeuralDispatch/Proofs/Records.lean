import NeuralDispatch.Proofs.Parsing

/-!
# What a data cache may hold

A data cache is not sealed, so anything may be put into its place.  It is accepted just when it is a
list of records that gives every constant of the model its bytes, once and at the right length.

* `Lists` — whether a byte string is a list of records and nothing else.
* `Fills` — whether records give bytes to the constants of a model, each of them once.
* `Model.holding` — a model with the bytes of records in the place of its own.
* `foldlM_fill_eq_ok` — records can be filled in one by one if each finds its constant empty, which
  is to say that no two are for the same one.
* `attach_spec` — a data cache is accepted just when it lists records that fill the model, and it
  changes nothing but the bytes of constants.
-/

namespace NeuralDispatch

/-- A model with the bytes of records in the place of its own. -/
def Model.holding (m : Model) (records : List (Nat × Bytes)) : Model :=
  { m with operands := m.operands.mapIdx fun i o =>
      { o with value := (records.lookup i).or o.value } }

/-- A model without the bytes of its constants. -/
def Model.withoutConstants (m : Model) : Model :=
  { m with operands := m.operands.map fun o => if o.isConstant then { o with value := none } else o }

namespace Cache.Constants

open Answer Model

/-! ## Records one by one -/

/-- Whether a record gives bytes to a constant that has none yet, of the length that it takes. -/
def Open (m : Model) (r : Nat × Bytes) : Prop :=
  ∃ o, m.operands[r.1]? = some o ∧ o.isConstant = true ∧ o.value = none ∧
    ∀ n ∈ o.byteLength, n = r.2.length

section Holding

variable {m : Model} {r r' : Nat × Bytes} {records : List (Nat × Bytes)}

theorem holding_nil (m : Model) : m.holding [] = m := by
  refine Model.mk.injEq .. |>.mpr ⟨?_, rfl, rfl, rfl, rfl⟩
  apply List.mapIdx_eq_iff.2
  intro i
  cases m.operands[i]? <;> rfl

theorem holding_operand {i : Nat} :
    (m.holding records).operands[i]? =
      m.operands[i]?.map fun o => { o with value := (records.lookup i).or o.value } := by
  rw [holding, List.getElem?_mapIdx]

theorem lookup_cons (r : Nat × Bytes) (records : List (Nat × Bytes)) (i : Nat) :
    (r :: records).lookup i = if i = r.1 then some r.2 else records.lookup i := by
  rw [List.lookup_cons]
  by_cases h : i = r.1
  · rw [if_pos h, beq_iff_eq.2 h]
  · rw [if_neg h, beq_false_of_ne h]

theorem lookup_singleton (r : Nat × Bytes) (i : Nat) :
    [r].lookup i = if i = r.1 then some r.2 else none := lookup_cons r [] i

theorem lookup_eq_none_iff {i : Nat} : records.lookup i = none ↔ i ∉ records.map (·.1) := by
  simp only [List.lookup_eq_none_iff, bne_iff_ne, List.mem_map, not_exists, not_and]
  exact forall_congr' fun r => imp_congr_right fun _ => ne_comm

theorem fill_eq_ok_iff {m' : Model} :
    fill m r.1 r.2 = .ok m' ↔ Open m r ∧ m' = m.holding [r] := by
  have hset : ∀ o, m.operands[r.1]? = some o →
      m.setOperand r.1 { o with value := some r.2 } = m.holding [r] := by
    intro o ho
    refine Model.mk.injEq .. |>.mpr ⟨List.ext_getElem? fun i => ?_, rfl, rfl, rfl, rfl⟩
    rw [List.getElem?_set, List.getElem?_mapIdx, lookup_singleton]
    by_cases hi : r.1 = i
    · subst hi
      rw [if_pos rfl, if_pos rfl, if_pos (List.getElem?_eq_some_iff.1 ho).1, ho]
      rfl
    · rw [if_neg hi, if_neg (Ne.symm hi)]
      cases m.operands[i]? <;> rfl
  rw [fill_eq_ok]
  constructor
  · rintro ⟨o, ho, hconstant, hvalue, hlength, rfl⟩
    exact ⟨⟨o, ho, hconstant, hvalue, hlength⟩, hset o ho⟩
  · rintro ⟨⟨o, ho, hconstant, hvalue, hlength⟩, rfl⟩
    exact ⟨o, ho, hconstant, hvalue, hlength, (hset o ho).symm⟩

/-- A constant that has been given bytes is not open any more, and all others are as before. -/
theorem open_holding_iff : Open (m.holding [r]) r' ↔ r'.1 ≠ r.1 ∧ Open m r' := by
  unfold Open
  rw [holding_operand, lookup_singleton]
  by_cases h : r'.1 = r.1
  · rw [if_pos h]
    simp [h]
  · rw [if_neg h]
    have hsame : (m.operands[r'.1]?.map fun o => { o with value := (none : Option Bytes).or o.value }) =
        m.operands[r'.1]? := by
      cases m.operands[r'.1]? <;> rfl
    rw [hsame]
    simp [h]

theorem holding_cons (hnew : r.1 ∉ records.map (·.1)) :
    (m.holding [r]).holding records = m.holding (r :: records) := by
  have hnone := lookup_eq_none_iff.2 hnew
  refine Model.mk.injEq .. |>.mpr ⟨List.ext_getElem? fun i => ?_, rfl, rfl, rfl, rfl⟩
  rw [List.getElem?_mapIdx, holding_operand, List.getElem?_mapIdx, lookup_singleton,
    Option.map_map]
  refine Option.map_congr fun o _ => ?_
  have hvalue : (records.lookup i).or ((if i = r.1 then some r.2 else none).or o.value) =
      (if i = r.1 then some r.2 else records.lookup i).or o.value := by
    split
    · next hi =>
      rw [hi, hnone]
      rfl
    · rfl
  simp only [Function.comp_apply, lookup_cons, hvalue]

/-- Records can be filled in one after the other if each of them could be filled in alone and no two
are for the same operand. -/
theorem foldlM_fill_eq_ok {m' : Model} :
    records.foldlM (fun m r => fill m r.1 r.2) m = .ok m' ↔
      (records.map (·.1)).Nodup ∧ (∀ r ∈ records, Open m r) ∧ m' = m.holding records := by
  induction records generalizing m with
  | nil =>
    rw [List.foldlM_nil, pure_eq_ok, holding_nil]
    simp [eq_comm]
  | cons r rest ih =>
    rw [List.foldlM_cons, bind_eq_ok, List.map_cons, List.nodup_cons, List.forall_mem_cons]
    constructor
    · rintro ⟨between, hfill, hrest⟩
      obtain ⟨hopen, rfl⟩ := fill_eq_ok_iff.1 hfill
      obtain ⟨hnodup, hall, rfl⟩ := ih.1 hrest
      have hnew : r.1 ∉ rest.map (·.1) := by
        intro hmem
        obtain ⟨r', hr', heq⟩ := List.mem_map.1 hmem
        exact (open_holding_iff.1 (hall r' hr')).1 heq
      refine ⟨⟨hnew, hnodup⟩, ⟨hopen, fun r' hr' => ?_⟩, holding_cons hnew⟩
      exact (open_holding_iff.1 (hall r' hr')).2
    · rintro ⟨⟨hnew, hnodup⟩, ⟨hopen, hall⟩, rfl⟩
      refine ⟨_, fill_eq_ok_iff.2 ⟨hopen, rfl⟩, ih.2 ⟨hnodup, fun r' hr' => ?_, ?_⟩⟩
      · refine open_holding_iff.2 ⟨fun heq => hnew ?_, hall r' hr'⟩
        rw [← heq]
        exact List.mem_map_of_mem hr'
      · exact (holding_cons hnew).symm

end Holding

/-! ## All records -/

theorem readRecords_eq_ok {n : Nat} {m m' : Model} {bytes rest : Bytes} :
    readRecords n m bytes = .ok (m', rest) ↔
      ∃ records : List (Nat × Bytes), records.length = n ∧
        (∀ r ∈ records, r.1 < UInt32.size ∧ r.2.length < UInt32.size) ∧
        bytes = records.flatMap writeRecord ++ rest ∧
        records.foldlM (fun m r => fill m r.1 r.2) m = .ok m' := by
  constructor
  · intro h
    induction n generalizing m bytes with
    | zero =>
      cases h
      exact ⟨[], rfl, by simp, rfl, rfl⟩
    | succ n ih =>
      obtain ⟨i, bytes₁, hi, h⟩ := Reader.bind_eq_ok.1 h
      obtain ⟨length, bytes₂, hn, h⟩ := Reader.bind_eq_ok.1 h
      obtain ⟨taken, bytes₃, htaken, h⟩ := Reader.bind_eq_ok.1 h
      obtain ⟨filled, bytes₄, hfilled, hothers⟩ := Reader.bind_eq_ok.1 h
      obtain ⟨hfill, rfl⟩ := Reader.lift_eq_ok.1 hfilled
      obtain ⟨hplace, rfl⟩ := Reader.number_eq_ok.1 hi
      obtain ⟨hlength, rfl⟩ := Reader.number_eq_ok.1 hn
      obtain ⟨rfl, rfl⟩ := Reader.take_eq_ok.1 htaken
      obtain ⟨records, rfl, hall, rfl, hrest⟩ := ih hothers
      refine ⟨(i, taken) :: records, rfl, ?_, ?_, ?_⟩
      · exact List.forall_mem_cons.2 ⟨⟨hplace, hlength⟩, hall⟩
      · simp only [List.flatMap_cons, writeRecord, List.append_assoc]
      · rw [List.foldlM_cons, hfill, ok_bind]
        exact hrest
  · rintro ⟨records, rfl, hall, rfl, hfill⟩
    exact reads_records (fun r hr => (hall r hr).1) (fun r hr => (hall r hr).2) hfill rest

/-- Whether a byte string is a list of records, preceded by their number, and nothing else. -/
structure Lists (data : Bytes) (records : List (Nat × Bytes)) : Prop where
  count : records.length < UInt32.size
  words : ∀ r ∈ records, r.1 < UInt32.size ∧ r.2.length < UInt32.size
  layout : data = Bytes.le32 (UInt32.ofNat records.length) ++ records.flatMap writeRecord

theorem attach_eq_ok_iff {m m' : Model} {data : Bytes} :
    attach m data = .ok m' ↔
      ∃ records, Lists data records ∧
        records.foldlM (fun m r => fill m r.1 r.2) m = .ok m' ∧
        ∀ o ∈ m'.operands, o.isConstant = true → o.value ≠ none := by
  have hvalued : ∀ m : Model, (m.operands.findIdx? fun o => o.isConstant && o.value.isNone) = none ↔
      ∀ o ∈ m.operands, o.isConstant = true → o.value ≠ none := by
    intro m
    simp [List.findIdx?_eq_none_iff, Option.isSome_iff_ne_none]
  rw [attach]
  constructor
  · intro h
    obtain ⟨⟨filled, rest⟩, hread, hchecks⟩ := bind_eq_ok.1 h
    obtain ⟨n, between, hn, hrecords⟩ := Reader.bind_eq_ok.1 hread
    obtain ⟨hcount, rfl⟩ := Reader.number_eq_ok.1 hn
    obtain ⟨records, rfl, hwords, rfl, hfill⟩ := readRecords_eq_ok.1 hrecords
    dsimp only at hchecks
    split at hchecks
    · cases hchecks
    · next hrest =>
      split at hchecks
      · cases hchecks
      · next hnone =>
        obtain rfl := Except.ok.inj hchecks
        have hnil : rest = [] := by simpa using hrest
        refine ⟨records, ⟨hcount, hwords, ?_⟩, hfill, (hvalued filled).1 hnone⟩
        rw [hnil, List.append_nil]
  · rintro ⟨records, ⟨hcount, hwords, rfl⟩, hfill, hall⟩
    have hread : Reads (do readRecords (← Reader.number) m)
        (Bytes.le32 (UInt32.ofNat records.length) ++ records.flatMap writeRecord) m' :=
      (reads_number hcount).bind (reads_records (fun r hr => (hwords r hr).1)
        (fun r hr => (hwords r hr).2) hfill)
    rw [hread.eq_of_append_nil, ok_bind]
    dsimp only
    rw [if_neg (by simp), (hvalued m').2 hall]
    rfl

/-! ## Models without bytes -/

/-- Whether records give bytes to the constants of a model, each of them once, and as many as it
takes where that is known. -/
structure Fills (m : Model) (records : List (Nat × Bytes)) : Prop where
  once : (records.map (·.1)).Nodup
  constants : ∀ i, i ∈ records.map (·.1) ↔ ∃ o, m.operands[i]? = some o ∧ o.isConstant = true
  lengths : ∀ r ∈ records, ∀ o, m.operands[r.1]? = some o → ∀ n ∈ o.byteLength, n = r.2.length

theorem fills_iff {m : Model} {records : List (Nat × Bytes)}
    (hblank : ∀ o ∈ m.operands, o.value = none) :
    Fills m records ↔ (records.map (·.1)).Nodup ∧ (∀ r ∈ records, Open m r) ∧
      ∀ o ∈ (m.holding records).operands, o.isConstant = true → o.value ≠ none := by
  constructor
  · intro h
    refine ⟨h.once, ?_, ?_⟩
    · intro r hr
      obtain ⟨o, ho, hconstant⟩ := (h.constants r.1).1 (List.mem_map_of_mem hr)
      exact ⟨o, ho, hconstant, hblank o (List.mem_of_getElem? ho), h.lengths r hr o ho⟩
    · intro o' ho' hconstant hnone
      obtain ⟨i, hi⟩ := List.mem_iff_getElem?.1 ho'
      rw [holding_operand] at hi
      obtain ⟨o, ho, rfl⟩ := Option.map_eq_some_iff.1 hi
      have hmissing := lookup_eq_none_iff.1 (Option.or_eq_none_iff.1 hnone).1
      exact hmissing ((h.constants i).2 ⟨o, ho, hconstant⟩)
  · rintro ⟨hnodup, hopen, hvalued⟩
    refine ⟨hnodup, ?_, ?_⟩
    · intro i
      constructor
      · intro hi
        obtain ⟨r, hr, rfl⟩ := List.mem_map.1 hi
        obtain ⟨o, ho, hconstant, -⟩ := hopen r hr
        exact ⟨o, ho, hconstant⟩
      · rintro ⟨o, ho, hconstant⟩
        by_contra hmissing
        have hlookup := lookup_eq_none_iff.2 hmissing
        have hheld : (m.holding records).operands[i]? = _ := holding_operand
        rw [ho, hlookup] at hheld
        refine hvalued _ (List.mem_of_getElem? hheld) hconstant ?_
        exact hblank o (List.mem_of_getElem? ho)
    · intro r hr o ho n hn
      obtain ⟨o', ho', -, -, hlength⟩ := hopen r hr
      obtain rfl := Option.some.inj (ho.symm.trans ho')
      exact hlength n hn

/-- What a data cache must be for a model without bytes, and what it makes of that model. -/
theorem attach_blank_eq_ok_iff {m m' : Model} {data : Bytes}
    (hblank : ∀ o ∈ m.operands, o.value = none) :
    attach m data = .ok m' ↔
      ∃ records, Lists data records ∧ Fills m records ∧ m' = m.holding records := by
  rw [attach_eq_ok_iff]
  refine exists_congr fun records => and_congr_right fun _ => ?_
  rw [foldlM_fill_eq_ok, fills_iff hblank]
  constructor
  · rintro ⟨⟨hnodup, hopen, rfl⟩, hvalued⟩
    exact ⟨⟨hnodup, hopen, hvalued⟩, rfl⟩
  · rintro ⟨⟨hnodup, hopen, hvalued⟩, rfl⟩
    exact ⟨⟨hnodup, hopen, rfl⟩, hvalued⟩

/-- Without the bytes that it has been given, a model is what it was before. -/
theorem withoutConstants_holding {m : Model} {records : List (Nat × Bytes)}
    (hblank : ∀ o ∈ m.operands, o.value = none) (h : Fills m records) :
    (m.holding records).withoutConstants = m := by
  refine Model.mk.injEq .. |>.mpr ⟨List.ext_getElem? fun i => ?_, rfl, rfl, rfl, rfl⟩
  rw [List.getElem?_map, holding_operand]
  cases ho : m.operands[i]? with
  | none => rfl
  | some o =>
    have hvalue := hblank o (List.mem_of_getElem? ho)
    have hback : { o with value := none } = o := by rw [← hvalue]
    rw [Option.map_some, Option.map_some]
    split
    · exact congrArg some hback
    · next hother =>
      have hmissing : i ∉ records.map (·.1) := by
        intro hi
        obtain ⟨o', ho', hconstant⟩ := (h.constants i).1 hi
        obtain rfl := Option.some.inj (ho.symm.trans ho')
        exact hother hconstant
      rw [lookup_eq_none_iff.2 hmissing, hvalue]
      exact congrArg some hback

/-- A data cache is accepted for a model that is read from a payload just when it is a list of
records for its constants, each of them once and in any order.  It changes nothing but their bytes,
so two models that are decoded from one model cache differ in nothing else. -/
theorem attach_spec {payload trailing : Bytes} {m : Model}
    (hread : Structure.read payload = .ok (m, trailing)) :
    (∀ data m', attach m data = .ok m' ↔
      ∃ records, Lists data records ∧ Fills m records ∧ m' = m.holding records) ∧
    ∀ file token key, Frame.verify file token key = .ok payload →
      ∀ data data' m₁ m₂, decode file data token key = .ok m₁ →
        decode file data' token key = .ok m₂ → m₁.withoutConstants = m₂.withoutConstants := by
  have hblank : ∀ o ∈ m.operands, o.value = none := by
    obtain ⟨stored, flag, -, rfl⟩ := Structure.read_eq_ok_iff.1 hread
    exact Structure.value_of_skeleton
  constructor
  · intro data m'
    exact attach_blank_eq_ok_iff hblank
  · intro file token key hfile
    have hdecoded : ∀ data m', decode file data token key = .ok m' → m'.withoutConstants = m := by
      intro data m' h
      rw [decode, hfile, ok_bind, hread, ok_bind] at h
      obtain ⟨records, -, hfills, rfl⟩ := (attach_blank_eq_ok_iff hblank).1 h
      exact withoutConstants_holding hblank hfills
    intro data data' m₁ m₂ h₁ h₂
    rw [hdecoded data m₁ h₁, hdecoded data' m₂ h₂]

/-- A constant that takes four bytes, and one of unknown extent. -/
def literals : List Call := [
  .addOperand { type := .tensorFloat32, dimensions := [1] },
  .addOperand { type := .tensorQuant8Asymm, dimensions := [0] },
  .addOperand { type := .tensorFloat32, dimensions := [1] },
  .setValue 0 [0x00, 0x00, 0x80, 0x3f],
  .setReference 1 [],
  .addOperation .add [0, 1] [2],
  .identify [] [2]]

/-- The bytes of the one with unknown extent first, and three of them. -/
def swapped : List (Nat × Bytes) := [(1, [0x07, 0x08, 0x09]), (0, [0x00, 0x00, 0x00, 0x40])]

/-- They are filled in although the model cache was made with other ones. -/
theorem attach_spec_swapped :
    Structure.read (Structure.write (performAll {} literals)) =
        .ok (Structure.skeleton (performAll {} literals), []) ∧
      attach (Structure.skeleton (performAll {} literals))
          (Bytes.le32 2 ++ swapped.flatMap writeRecord) =
        .ok ((Structure.skeleton (performAll {} literals)).holding swapped) := by
  have hread : Structure.read (Structure.write (performAll {} literals)) =
      .ok (Structure.skeleton (performAll {} literals), []) :=
    (Structure.reads_structure (Built.sound ⟨literals, rfl⟩) (by decide +kernel)).eq_of_append_nil
  refine ⟨hread, ((attach_spec hread).1 _ _).2 ⟨swapped, ?_, ?_, rfl⟩⟩
  · exact ⟨by decide, by decide, rfl⟩
  · refine ⟨by decide, fun i => ?_, by decide⟩
    match i with
    | 0 | 1 => exact ⟨fun _ => ⟨_, rfl, rfl⟩, fun _ => by decide⟩
    | 2 => exact ⟨fun h => absurd h (by decide), fun ⟨o, ho, hconstant⟩ => by cases ho; cases hconstant⟩
    | j + 3 => exact ⟨fun h => absurd h (by simp [swapped]), fun ⟨o, ho, _⟩ => by cases ho⟩

end Cache.Constants

end NeuralDispatch

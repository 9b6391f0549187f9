import NeuralDispatch.Driver.Reference
import NeuralDispatch.Proofs.DataCache
import NeuralDispatch.Proofs.Skeleton
import NeuralDispatch.Proofs.Validation

/-!
# Restoring what has been saved

A model cache keeps a model without its bytes, and a data cache keeps the bytes of its constants.
Not every model that a driver prepares comes back from the two.

* `Storable` — the models that do come back.
* `decode_encode_iff` — two cache files are decoded to the model they were made from just when it
  is storable.
* `restore_save_iff` — a driver restores what it has saved just when the files may be read and the
  model is storable.
* `restore_save_refused` — a prepared model that its driver saves and cannot restore.
-/

namespace NeuralDispatch.Cache

open Answer Model

/-! ## Models that come back -/

/-- Whether an operand comes back as it is. -/
structure Restorable (m : Model) (i : Nat) (o : Operand) : Prop where
  input : o.lifetime = .modelInput → i ∈ m.inputs
  output : o.lifetime = .modelOutput → i ∈ m.outputs
  constant : o.isConstant = true → i ∉ m.inputs
  counted : o.consumers = m.readCount i
  value : ∀ bytes, o.value = some bytes → Constants.Takes o bytes

/-- The models that come back from their cache files. -/
structure Storable (m : Model) : Prop where
  short : (Structure.write m).length < UInt32.size
  operand : ∀ (i : Nat) o, m.operands[i]? = some o → Restorable m i o

/-- A lifetime is restored unless it depends on calls that a payload does not tell of. -/
theorem restoredLifetime_eq_iff {m : Model} (valid : Valid m) (sound : Sound m) {i : Nat}
    {o : Operand} (ho : m.operands[i]? = some o) :
    Structure.restoredLifetime m i o.lifetime = o.lifetime ↔
      (o.lifetime = .modelInput → i ∈ m.inputs) ∧ (o.lifetime = .modelOutput → i ∈ m.outputs) ∧
        (o.isConstant = true → i ∉ m.inputs) := by
  rw [Structure.restoredLifetime, Operand.isConstant]
  by_cases hout : i ∈ m.outputs
  · obtain ⟨o', ho', hlifetime⟩ := valid.output_lifetime sound hout
    obtain rfl := Option.some.inj (ho.symm.trans ho')
    simp [hlifetime, hout, Lifetime.isConstant]
  · by_cases hin : i ∈ m.inputs
    · obtain ⟨o', ho', hlifetime⟩ := sound.exchanged i (List.mem_append_left _ hin)
      obtain rfl := Option.some.inj (ho.symm.trans ho')
      revert hlifetime
      cases o.lifetime <;> simp [hout, hin, Lifetime.isConstant]
    · cases o.lifetime <;> simp [hout, hin, Lifetime.isConstant]

theorem restored_eq_blank_iff {m : Model} (valid : Valid m) (sound : Sound m) {i : Nat}
    {o : Operand} (ho : m.operands[i]? = some o) :
    Structure.restored m i o = Constants.blank o ↔
      Restorable m i (Constants.blank o) := by
  have hlifetime := restoredLifetime_eq_iff valid sound ho
  have hsame : Structure.restored m i o = Constants.blank o ↔
      Structure.restoredLifetime m i o.lifetime = o.lifetime ∧ m.readCount i = o.consumers := by
    simp [Structure.restored, Structure.bare, Constants.blank]
  rw [hsame, hlifetime]
  constructor
  · rintro ⟨⟨hin, hout, hconstant⟩, hcount⟩
    exact ⟨hin, hout, hconstant, hcount.symm, fun bytes hbytes => by cases hbytes⟩
  · intro h
    exact ⟨⟨h.input, h.output, h.constant⟩, h.counted.symm⟩

theorem restorable_iff {m : Model} {i : Nat} {o : Operand} :
    Restorable m i o ↔ Restorable m i (Constants.blank o) ∧
      ∀ bytes, o.value = some bytes → Constants.Takes (Constants.blank o) bytes := by
  constructor
  · intro h
    refine ⟨⟨h.input, h.output, h.constant, h.counted, fun bytes hbytes => by cases hbytes⟩, ?_⟩
    intro bytes hbytes
    obtain ⟨hconstant, hlength, hshort⟩ := h.value bytes hbytes
    exact ⟨hconstant, hlength, hshort⟩
  · rintro ⟨h, hvalue⟩
    refine ⟨h.input, h.output, h.constant, h.counted, fun bytes hbytes => ?_⟩
    obtain ⟨hconstant, hlength, hshort⟩ := hvalue bytes hbytes
    exact ⟨hconstant, hlength, hshort⟩

/-! ## Decoding what has been encoded -/

section Decoding

variable {m : Model} (sound : Sound m) (token : Token) (key : Key)

include sound

/-- What is decoded is the skeleton of the model with its data cache filled in. -/
theorem decode_encode (short : (Structure.write m).length < UInt32.size) :
    decode (encodeModel m token key) (encodeData m) token key =
      Constants.attach (Structure.skeleton m) (Constants.write m) := by
  have hread := (Structure.reads_structure sound short).eq_of_append_nil
  rw [decode, encodeModel, (Frame.verify_write _ token key).2 ⟨short, rfl⟩, ok_bind, hread,
    ok_bind]
  rfl

/-- Two cache files are decoded to the model they were made from just when it is storable. -/
theorem decode_encode_iff (valid : Valid m) :
    decode (encodeModel m token key) (encodeData m) token key = .ok m ↔ Storable m := by
  constructor
  · intro h
    have short : (Structure.write m).length < UInt32.size := by
      rw [decode, bind_eq_ok] at h
      obtain ⟨payload, hpayload, -⟩ := h
      exact ((Frame.verify_write _ token key).1 hpayload).1
    rw [decode_encode sound token key short] at h
    -- only bytes are filled in, so all else of an operand must have come with the skeleton
    have hfilled := Constants.filled_of_attach Structure.value_of_skeleton h
    refine ⟨short, fun i o ho => ?_⟩
    obtain ⟨read, hread, hsame, htakes⟩ := hfilled.operand i o ho
    obtain rfl := Option.some.inj ((Structure.skeleton_operand ho).symm.trans hread)
    have hblank : Structure.restored m i o = Constants.blank o :=
      (congrArg Constants.blank hsame).symm
    rw [hblank] at htakes
    exact restorable_iff.2 ⟨(restored_eq_blank_iff valid sound ho).1 hblank, htakes⟩
  · intro h
    have hskeleton :
        Structure.skeleton m = { m with operands := m.operands.map Constants.blank } := by
      refine Model.mk.injEq .. |>.mpr ⟨List.ext_getElem? fun i => ?_, rfl, rfl, rfl, rfl⟩
      rw [List.getElem?_mapIdx, List.getElem?_map]
      refine Option.map_congr fun o ho => ?_
      exact (restored_eq_blank_iff valid sound ho).2 (restorable_iff.1 (h.operand i o ho)).1
    have hlength := (Structure.compact_of_length h.short).operands
    have takes : ∀ o ∈ m.operands, ∀ bytes ∈ o.value, Constants.Takes o bytes := fun o ho => by
      obtain ⟨i, hi⟩ := List.mem_iff_getElem?.1 ho
      exact (h.operand i o hi).value
    have valued : ∀ o ∈ m.operands, (o.value ≠ none ↔ o.isConstant = true) := fun o ho => by
      obtain ⟨i, hi⟩ := List.mem_iff_getElem?.1 ho
      refine ⟨fun hvalue => ?_, valid.valued i o hi⟩
      obtain ⟨bytes, hbytes⟩ := Option.ne_none_iff_exists'.1 hvalue
      exact (takes o ho bytes hbytes).constant
    have hfits : Constants.firstMisfit? m = none :=
      Constants.firstMisfit?_eq_none_iff.2 fun o ho bytes hbytes => (takes o ho bytes hbytes).length
    rw [decode_encode sound token key h.short, hskeleton, Constants.attach_write hlength
      (fun o ho bytes hbytes => (takes o ho bytes hbytes).short) valued, hfits]
    rfl

end Decoding

end NeuralDispatch.Cache

namespace NeuralDispatch

open Answer Model

/-! ## Files that have been written -/

namespace FileStore

theorem write?_eq_some {s s' : FileStore} {h : FileHandle} {bytes : Bytes} :
    s.write? h bytes = some s' ↔
      ∃ f g, s.file? h = some f ∧ f.write? bytes = some g ∧ s' = s.setFile h g := by
  simp only [write?, Option.bind_eq_bind, Option.bind_eq_some_iff, Option.pure_def,
    Option.some.injEq, ← exists_and_left, eq_comm (a := s')]

theorem file?_setFile {s : FileStore} {h : FileHandle} {f : CacheFile} (hf : s.file? h = some f)
    (g : CacheFile) : (s.setFile h g).file? h = some g := by
  rw [file?, setFile, List.getElem?_set_self (List.getElem?_eq_some_iff.1 hf).1]

theorem file?_setFile_of_ne {h h' : FileHandle} (hne : h ≠ h') (s : FileStore) (g : CacheFile) :
    (s.setFile h g).file? h' = s.file? h' := by
  have hindex : h.index ≠ h'.index := fun hsame => hne (congrArg FileHandle.mk hsame)
  rw [file?, setFile, List.getElem?_set_ne hindex, file?]

/-- What is read from an empty file after something has been written to it. -/
theorem read?_of_write? {s s' : FileStore} {h : FileHandle} {f : CacheFile} {bytes : Bytes}
    (hf : s.file? h = some f) (hempty : f.isEmpty = true) (hwrite : s.write? h bytes = some s') :
    s'.read? h = if f.mode = .writeOnly then none else some bytes := by
  obtain ⟨f', g, hf', hg, rfl⟩ := write?_eq_some.1 hwrite
  obtain rfl := Option.some.inj (hf.symm.trans hf')
  rw [read?, file?_setFile hf]
  unfold CacheFile.write? at hg
  split at hg
  · cases hg
  · cases hg
    have hnil : f.contents = [] := List.isEmpty_iff.1 hempty
    simp [CacheFile.read?, hnil]

theorem read?_of_write?_of_ne {s s' : FileStore} {h h' : FileHandle} {bytes : Bytes}
    (hne : h ≠ h') (hwrite : s.write? h bytes = some s') : s'.read? h' = s.read? h' := by
  obtain ⟨f, g, -, -, rfl⟩ := write?_eq_some.1 hwrite
  rw [read?, file?_setFile_of_ne hne, read?]

end FileStore

/-! ## Saving and restoring -/

namespace ReferenceModel

theorem save_eq_success {p : ReferenceModel} {store store' : FileStore} {model data : FileHandle}
    {token : Cache.Token} :
    p.save store model data token = (store', .success) ↔
      p.driver.config.caching = true ∧
        ∃ f g between, store.file? model = some f ∧ store.file? data = some g ∧
          f.isEmpty = true ∧ g.isEmpty = true ∧
          store.write? model (Cache.encodeModel p.model token p.driver.key) = some between ∧
          between.write? data (Cache.encodeData p.model) = some store' := by
  rw [save]
  constructor
  · intro h
    split at h
    · cases h
    · next hcaching =>
      split at h
      · next f g hf hg =>
        split at h
        · next hempty =>
          obtain ⟨hfempty, hgempty⟩ := Bool.and_eq_true_iff.1 hempty
          split at h
          · cases h
          · next between hbetween =>
            split at h
            · cases h
            · next written hwritten =>
              obtain ⟨rfl, -⟩ := Prod.mk.inj h
              exact ⟨by simpa using hcaching, f, g, between, hf, hg, hfempty, hgempty, hbetween,
                hwritten⟩
        · cases h
      · cases h
  · rintro ⟨hcaching, f, g, between, hf, hg, hfempty, hgempty, hbetween, hwritten⟩
    rw [hf, hg]
    simp [hcaching, hfempty, hgempty, hbetween, hwritten]

/-- What the two files hold after a model has been saved to them, if they may be read at all. -/
theorem read?_of_save {p : ReferenceModel} {store store' : FileStore} {model data : FileHandle}
    {token : Cache.Token} (hdistinct : model ≠ data)
    (hsave : p.save store model data token = (store', .success)) :
    (∀ bytes ∈ store'.read? model, bytes = Cache.encodeModel p.model token p.driver.key) ∧
      ∀ bytes ∈ store'.read? data, bytes = Cache.encodeData p.model := by
  obtain ⟨-, f, g, between, hf, hg, hfempty, hgempty, hbetween, hwritten⟩ :=
    save_eq_success.1 hsave
  obtain ⟨f', g', hf', hg', rfl⟩ := FileStore.write?_eq_some.1 hbetween
  rw [FileStore.read?_of_write?_of_ne hdistinct.symm hwritten,
    FileStore.read?_of_write? hf hfempty hbetween]
  rw [FileStore.read?_of_write? ((FileStore.file?_setFile_of_ne hdistinct _ _).trans hg) hgempty
    hwritten]
  constructor
  · intro bytes hbytes
    split at hbytes
    · cases hbytes
    · exact (Option.some.inj hbytes).symm
  · intro bytes hbytes
    split at hbytes
    · cases hbytes
    · exact (Option.some.inj hbytes).symm

end ReferenceModel

namespace ReferenceDriver

theorem prepare_eq_success {d : ReferenceDriver} {m : Model} {p : ReferenceModel} :
    d.prepare m = ⟨.success, [⟨.success, some p⟩]⟩ ↔
      d.accepts m = true ∧ d.config.preparationStatus.isOk = true ∧ p = ⟨d, m⟩ := by
  rw [prepare]
  cases haccepts : d.accepts m with
  | false => simp [refuse]
  | true =>
    cases hstatus : d.config.preparationStatus.isOk <;> simp [launch, hstatus, eq_comm]

theorem restorable?_eq_some {d : ReferenceDriver} {store : FileStore} {model data : FileHandle}
    {token : Cache.Token} {m : Model} :
    d.restorable? store model data token = some m ↔
      d.config.caching = true ∧ d.accepts m = true ∧
        ∃ modelBytes dataBytes, store.read? model = some modelBytes ∧
          store.read? data = some dataBytes ∧
          Cache.decode modelBytes dataBytes token d.key = .ok m := by
  rw [restorable?]
  constructor
  · intro h
    split at h
    · cases h
    · next hcaching =>
      simp only [Option.bind_eq_bind, Option.bind_eq_some_iff] at h
      obtain ⟨modelBytes, hmodel, dataBytes, hdata, m', hdecode, h⟩ := h
      split at h
      · next haccepts =>
        obtain rfl := Option.some.inj h
        refine ⟨by simpa using hcaching, haccepts, modelBytes, dataBytes, hmodel, hdata, ?_⟩
        cases hresult : Cache.decode modelBytes dataBytes token d.key with
        | error e => rw [hresult] at hdecode; cases hdecode
        | ok m'' => rw [hresult] at hdecode; exact congrArg _ (Option.some.inj hdecode)
      · cases h
  · rintro ⟨hcaching, haccepts, modelBytes, dataBytes, hmodel, hdata, hdecode⟩
    simp [hcaching, hmodel, hdata, hdecode, haccepts, Except.toOption]

/-- A driver restores what it has saved just when the files may be read and the model is
storable. -/
theorem restore_save_iff {d : ReferenceDriver} {m : Model} {p : ReferenceModel}
    {store store' : FileStore} {model data : FileHandle} {token : Cache.Token}
    (hbuilt : Built m) (hprepare : d.prepare m = ⟨.success, [⟨.success, some p⟩]⟩)
    (hdistinct : model ≠ data) (hsave : p.save store model data token = (store', .success)) :
    d.restore store' model data token = ⟨.success, [⟨.success, some ⟨d, m⟩⟩]⟩ ↔
      (store'.read? model).isSome = true ∧ (store'.read? data).isSome = true ∧
        Cache.Storable m := by
  obtain ⟨haccepts, hstatus, rfl⟩ := prepare_eq_success.1 hprepare
  have hvalid : Valid m := by
    have hok := (Bool.and_eq_true_iff.1 haccepts).1
    cases hvalidate : m.validate with
    | error e => rw [hvalidate] at hok; cases hok
    | ok u => exact validate_eq_ok_iff.1 hvalidate
  have hcaching := (ReferenceModel.save_eq_success.1 hsave).1
  obtain ⟨hmodel, hdata⟩ := ReferenceModel.read?_of_save hdistinct hsave
  have hlaunch : d.restore store' model data token = ⟨.success, [⟨.success, some ⟨d, m⟩⟩]⟩ ↔
      d.restorable? store' model data token = some m := by
    rw [restore]
    cases d.restorable? store' model data token with
    | none => simp [refuse]
    | some m' => simp [launch, hstatus]
  rw [hlaunch, restorable?_eq_some]
  constructor
  · rintro ⟨-, -, modelBytes, dataBytes, hreadModel, hreadData, hdecode⟩
    obtain rfl := hmodel modelBytes hreadModel
    obtain rfl := hdata dataBytes hreadData
    exact ⟨by rw [hreadModel]; rfl, by rw [hreadData]; rfl,
      (Cache.decode_encode_iff hbuilt.sound token d.key hvalid).1 hdecode⟩
  · rintro ⟨hreadModel, hreadData, hstorable⟩
    obtain ⟨modelBytes, hreadModel⟩ := Option.isSome_iff_exists.1 hreadModel
    obtain ⟨dataBytes, hreadData⟩ := Option.isSome_iff_exists.1 hreadData
    obtain rfl := hmodel modelBytes hreadModel
    obtain rfl := hdata dataBytes hreadData
    exact ⟨hcaching, haccepts, _, _, hreadModel, hreadData,
      (Cache.decode_encode_iff hbuilt.sound token d.key hvalid).2 hstorable⟩

/-! ## Two models on new files -/

section TwoFiles

/-- A driver with nothing out of the ordinary. -/
def plain : ReferenceDriver := { name := "cpu", config := {}, key := Vector.replicate 32 0 }

/-- Two new files, which the handles `0` and `1` refer to. -/
def twoFiles : FileStore := ⟨[{}, {}]⟩

theorem save_twoFiles (m : Model) (token : Cache.Token) :
    ∃ store', (⟨plain, m⟩ : ReferenceModel).save twoFiles ⟨0⟩ ⟨1⟩ token = (store', .success) ∧
      (store'.read? ⟨0⟩).isSome = true ∧ (store'.read? ⟨1⟩).isSome = true :=
  ⟨_, ReferenceModel.save_eq_success.2 ⟨rfl, {}, {}, _, rfl, rfl, rfl, rfl,
    FileStore.write?_eq_some.2 ⟨{}, _, rfl, rfl, rfl⟩,
    FileStore.write?_eq_some.2 ⟨{}, _, rfl, rfl, rfl⟩⟩, rfl, rfl⟩

/-- A model that adds a constant in shared memory to its input. -/
def biased : Model := performAll {} [
  .addOperand { type := .tensorFloat32, dimensions := [1] },
  .addOperand { type := .tensorFloat32, dimensions := [1] },
  .addOperand { type := .tensorInt32, dimensions := [1] },
  .addOperand { type := .tensorFloat32, dimensions := [1] },
  .setReference 1 [0x00, 0x00, 0x80, 0x3f],
  .setNoValue 2,
  .addOperation .add [0, 1, 2] [3],
  .identify [0] [3]]

/-- The constant and the operand that is left out come back with the rest. -/
theorem restore_save_biased : ∃ store',
    (⟨plain, biased⟩ : ReferenceModel).save twoFiles ⟨0⟩ ⟨1⟩ (Vector.replicate 32 7) =
      (store', .success) ∧
    plain.restore store' ⟨0⟩ ⟨1⟩ (Vector.replicate 32 7) =
      ⟨.success, [⟨.success, some ⟨plain, biased⟩⟩]⟩ := by
  have hbuilt : Built biased := ⟨_, rfl⟩
  have hprepare : plain.prepare biased = ⟨.success, [⟨.success, some ⟨plain, biased⟩⟩]⟩ :=
    prepare_eq_success.2 ⟨by decide, rfl, rfl⟩
  obtain ⟨store', hsave, hmodel, hdata⟩ := save_twoFiles biased (Vector.replicate 32 7)
  refine ⟨store', hsave, ?_⟩
  refine (restore_save_iff hbuilt hprepare (by decide) hsave).2
    ⟨hmodel, hdata, by decide +kernel, ?_⟩
  intro i o ho
  rcases i with _ | _ | _ | _ | i
  · obtain rfl := Option.some.inj ho
    exact ⟨by decide, by decide, by decide, by decide, fun bytes hbytes => by cases hbytes⟩
  · obtain rfl := Option.some.inj ho
    refine ⟨by decide, by decide, by decide, by decide, fun bytes hbytes => ?_⟩
    obtain rfl := Option.some.inj hbytes
    exact ⟨by decide, by decide, by decide⟩
  · obtain rfl := Option.some.inj ho
    exact ⟨by decide, by decide, by decide, by decide, fun bytes hbytes => by cases hbytes⟩
  · obtain rfl := Option.some.inj ho
    exact ⟨by decide, by decide, by decide, by decide, fun bytes hbytes => by cases hbytes⟩
  · cases ho

/-- A model whose input has been given a value before. -/
def overridden : Model := performAll {} [
  .addOperand { type := .tensorFloat32, dimensions := [1] },
  .addOperand { type := .tensorFloat32, dimensions := [1] },
  .setValue 0 [0x00, 0x00, 0x80, 0x3f],
  .addOperation .relu [0] [1],
  .identify [0] [1]]

/-- The bytes of an input are saved, and then refused because an input is no constant. -/
theorem restore_save_refused : ∃ store',
    Built overridden ∧
    plain.prepare overridden = ⟨.success, [⟨.success, some ⟨plain, overridden⟩⟩]⟩ ∧
    (⟨plain, overridden⟩ : ReferenceModel).save twoFiles ⟨0⟩ ⟨1⟩ (Vector.replicate 32 7) =
      (store', .success) ∧
    plain.restore store' ⟨0⟩ ⟨1⟩ (Vector.replicate 32 7) =
      ⟨.generalFailure, [⟨.generalFailure, none⟩]⟩ := by
  have hbuilt : Built overridden := ⟨_, rfl⟩
  have hprepare : plain.prepare overridden = ⟨.success, [⟨.success, some ⟨plain, overridden⟩⟩]⟩ :=
    prepare_eq_success.2 ⟨by decide, rfl, rfl⟩
  have hattach : Cache.Constants.attach (Cache.Structure.skeleton overridden)
      (Cache.Constants.write overridden) = .error (.mismatch (.notConstant 0)) := by rfl
  obtain ⟨store', hsave, -, -⟩ := save_twoFiles overridden (Vector.replicate 32 7)
  obtain ⟨hmodel, hdata⟩ := ReferenceModel.read?_of_save (by decide) hsave
  refine ⟨store', hbuilt, hprepare, hsave, ?_⟩
  have hnone : plain.restorable? store' ⟨0⟩ ⟨1⟩ (Vector.replicate 32 7) = none := by
    refine Option.eq_none_iff_forall_ne_some.2 fun m hm => ?_
    obtain ⟨-, -, modelBytes, dataBytes, hreadModel, hreadData, hdecode⟩ :=
      restorable?_eq_some.1 hm
    obtain rfl := hmodel modelBytes hreadModel
    obtain rfl := hdata dataBytes hreadData
    rw [Cache.decode_encode hbuilt.sound _ _ (by decide), hattach] at hdecode
    cases hdecode
  rw [restore, hnone]
  rfl

end TwoFiles

end ReferenceDriver

end NeuralDispatch

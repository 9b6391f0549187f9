import NeuralDispatch.Proofs.Relocation
import NeuralDispatch.Proofs.Transparency

/-!
# Plans do not depend on revisions

A driver of an old revision declares less than one of a new revision, so a device over it is asked
where one over the other goes by its declarations, and has a figure inferred where the other has its
own.  As long as the revisions can express the model, the model is split in the same way.

* `ReferenceDevice` — a reference driver under a name, which becomes a device at any revision.
* `ReferenceDevice.support_device` — what the device supports.
* `ReferenceDevice.performance_device` — the figures that count.
* `partition_revisions` — the partitions at two choices of revisions are the same but for the
  drivers behind the devices.
-/

namespace NeuralDispatch

open Answer Model

/-! ## One device -/

/-- What a reference driver declares at a revision, in the newest form. -/
def ReferenceConfig.declared (c : ReferenceConfig) : Revision → Capabilities
  | .v1_0 => c.capabilities.toV1_0.toLatest
  | .v1_1 => c.capabilities.toV1_1.toLatest
  | .v1_2 => c.capabilities

/-- A reference driver under a name, and how its support is narrowed. -/
structure ReferenceDevice where
  name : String
  driver : ReferenceDriver
  coverage : CoverageMode

namespace ReferenceDevice

/-- The device over the driver at a revision, after it has been asked for its declarations. -/
def device (c : ReferenceDevice) (r : Revision) : Device :=
  (Device.new c.name (c.driver.capped r).toDriver c.coverage).activate.1

/-- Whether the coverage mode leaves an operation of a model to the device. -/
def keeps (c : ReferenceDevice) (m : Model) (i : Nat) : Bool :=
  c.coverage != .occurrenceParity || Coverage.keepsOccurrence (Coverage.nameHash c.name) m i

/-- The figure of the driver for operations of a signature, which is unknown if the driver does not
answer with success. -/
def figure (c : ReferenceDevice) (s : Signature) (relaxed : Bool) (preference : Preference) :
    Single :=
  let performance :=
    if !c.driver.config.queryStatus.isOk then Performance.unknown
    else if s.operand.isQuantized then c.driver.config.quantized8
    else if relaxed then c.driver.config.relaxed
    else c.driver.config.float32
  performance.figure preference

section Device

variable (c : ReferenceDevice) (r : Revision)

theorem capabilities_capped (d : ReferenceDriver) (r : Revision) :
    (DriverHandle.ofDriver (d.capped r).toDriver).capabilities =
      .ok (d.config.queryStatus, d.config.declared r) := by
  cases r <;> rfl

theorem device_eq :
    c.device r =
      if c.driver.config.queryStatus.isOk then
        ({ Device.new c.name (c.driver.capped r).toDriver c.coverage with
          activated := true }).declare (c.driver.config.declared r)
      else
        { Device.new c.name (c.driver.capped r).toDriver c.coverage with activated := true } := by
  rw [device, Device.activate, if_neg (by simp [Device.new])]
  simp only [Device.new, capabilities_capped]

theorem name_device : (c.device r).name = c.name := by
  rw [device_eq]
  split <;> rfl

theorem coverage_device : (c.device r).coverage = c.coverage := by
  rw [device_eq]
  split <;> rfl

theorem handle_device : (c.device r).handle = .ofDriver (c.driver.capped r).toDriver := by
  rw [device_eq]
  split <;> rfl

/-- The figures that count are the same at every revision that has them. -/
theorem performance_device {s : Signature} {relaxed : Bool} (h : relaxed = true → .v1_1 ≤ r)
    (preference : Preference) :
    (c.device r).performance s relaxed preference = c.figure s relaxed preference := by
  rw [device_eq]
  unfold Device.performance figure
  cases c.driver.config.queryStatus.isOk with
  | false =>
    cases s.operand.isQuantized <;> cases relaxed <;> rfl
  | true =>
    cases s.operand.isQuantized with
    | true => cases r <;> rfl
    | false =>
      cases relaxed with
      | false => cases r <;> rfl
      | true =>
        cases r with
        | v1_0 => exact absurd (h rfl) (by decide)
        | v1_1 | v1_2 => rfl

/-- The driver is asked about a model that it can be handed. -/
theorem supportedOperations_capped (d : ReferenceDriver) {m : Model}
    (hvalid : m.validate = .ok ()) {r : Revision} (hr : m.minRevision ≤ r) :
    (DriverHandle.ofDriver (d.capped r).toDriver).supportedOperations m =
      .ok (.success, (List.range m.operations.length).map (d.supports m)) := by
  rw [ReferenceDriver.supportedOperations_eq,
    ReferenceDriver.objection?_eq_none_iff.2 ⟨decide_eq_true hr, hvalid⟩]
  rfl

/-- A device that is asked answers for the operations that its driver supports and its coverage mode
leaves. -/
theorem supportedOperations_device {m : Model} (hvalid : m.validate = .ok ())
    (hr : m.minRevision ≤ r) :
    (c.device r).supportedOperations m =
      .ok ((List.range m.operations.length).map fun i => c.driver.supports m i && c.keeps m i) := by
  unfold Device.supportedOperations keeps
  rw [handle_device, supportedOperations_capped c.driver hvalid hr, ok_bind, coverage_device,
    Device.nameHash, name_device]
  dsimp only
  rw [if_neg (by decide)]
  by_cases hparity : c.coverage = .occurrenceParity
  · rw [if_pos hparity, hparity]
    refine congrArg Except.ok (List.ext_getElem? fun i => ?_)
    simp only [List.getElem?_map, List.getElem?_zipIdx]
    by_cases hi : i < m.operations.length
    · simp [List.getElem?_range hi]
    · have hnone : (List.range m.operations.length)[i]? = none :=
        List.getElem?_eq_none (by simpa using hi)
      simp [hnone]
  · rw [if_neg hparity]
    refine congrArg Except.ok (List.map_congr_left fun i _ => ?_)
    simp [hparity]

/-- What the device declares is what its driver does, unless the coverage mode goes by
signatures. -/
theorem mem_signatures_device (hcoverage : c.coverage ≠ .signatureParity)
    (hdeclared : (c.device r).hasSignatures = true) (s : Signature) :
    s ∈ (c.device r).signatures ↔ s ∈ c.driver.config.signatures := by
  have hkeeps : ∀ s, c.coverage.keepsSignature (Coverage.nameHash c.name) s = true := fun s => by
    revert hcoverage
    cases c.coverage <;> simp [CoverageMode.keepsSignature]
  have hsilent : ∀ device : Device, device.capabilities.signatures = [] →
      device.hasSignatures = false := fun device hnone => by simp [Device.hasSignatures, hnone]
  rw [device_eq] at hdeclared ⊢
  split at hdeclared
  · next hok =>
    rw [if_pos hok]
    cases r with
    | v1_0 | v1_1 =>
      rw [hsilent _ rfl] at hdeclared
      cases hdeclared
    | v1_2 =>
      show s ∈ Signature.toSet _ ↔ _
      rw [Signature.toSet, Sorted.mem_ofList, List.mem_filter]
      exact and_iff_left (hkeeps s)
  · rw [hsilent _ rfl] at hdeclared
    cases hdeclared

/-- What a device supports does not depend on the revision, nor on whether it goes by declarations
or asks its driver. -/
theorem support_device {m : Model} (hbuilt : Built m) (hvalid : m.validate = .ok ())
    (hcoverage : c.coverage ≠ .signatureParity) (hr : m.minRevision ≤ r) :
    Assignment.support m (c.device r) =
      .ok ((List.range m.operations.length).map fun i => c.driver.supports m i && c.keeps m i) := by
  rw [Assignment.support]
  split
  · next hdeclared =>
    have hkeeps : ∀ i, c.keeps m i = true := fun i => by
      have huses := (Bool.and_eq_true_iff.1 hdeclared).1
      rw [coverage_device] at huses
      unfold keeps
      rw [show (c.coverage != .occurrenceParity) = true from huses, Bool.true_or]
    rw [mapM_eq_ok, List.forall₂_map_right_iff, List.forall₂_same]
    intro i hi
    obtain ⟨s, hs⟩ := hbuilt.sound.signature_ok (List.mem_range.1 hi)
    rw [hs, hkeeps, Bool.and_true]
    show Except.ok ((c.device r).supportsSignature s) = .ok (c.driver.supports m i)
    rw [ReferenceDriver.supports, hs]
    refine congrArg Except.ok (Bool.eq_iff_iff.2 ?_)
    rw [Device.supportsSignature, List.contains_iff_mem, List.contains_iff_mem]
    exact c.mem_signatures_device r hcoverage hdeclared s
  · rw [c.supportedOperations_device r hvalid hr]
    rfl

end Device

/-! ## All devices -/

/-- The devices over drivers at chosen revisions. -/
def devices (cs : List ReferenceDevice) (revisions : Nat → Revision) : List Device :=
  cs.mapIdx fun i c => c.device (revisions i)

/-- What each device says at its revision, if that does not depend on the revision. -/
theorem map_devices {α : Type} {cs : List ReferenceDevice} {revisions : Nat → Revision}
    {f : Device → α} {g : ReferenceDevice → α}
    (h : ∀ c ∈ cs, ∀ i < cs.length, f (c.device (revisions i)) = g c) :
    (devices cs revisions).map f = cs.map g := by
  refine List.ext_getElem? fun i => ?_
  rw [devices, List.getElem?_map, List.getElem?_mapIdx, List.getElem?_map, Option.map_map]
  cases hc : cs[i]? with
  | none => rfl
  | some c =>
    exact congrArg some (h c (List.mem_of_getElem? hc) i (List.getElem?_eq_some_iff.1 hc).1)

end ReferenceDevice

/-! ## The plans -/

/-- A device of which nothing is known but the name. -/
def Device.faceless (d : Device) : Device :=
  { name := d.name, handle := .invalid, coverage := .full }

/-- Whether two steps are the same but for their devices, which stand in the same position of two
lists: the one that the operations of the steps are assigned to. -/
structure Step.Twin (assignment : List Nat) (devices devices' : List Device) (s s' : Step) :
    Prop where
  same : s' = { s with device := s'.device }
  operations_ne : s.operations ≠ []
  position : ∃ k : Nat, devices[k]? = some s.device ∧ devices'[k]? = some s'.device ∧
    ∀ i ∈ s.operations, assignment[i]? = some k

theorem Step.same_of_faceless {s s' : Step}
    (h : s.moved Device.faceless = s'.moved Device.faceless) :
    s' = { s with device := s'.device } := by
  obtain ⟨⟩ := s
  obtain ⟨⟩ := s'
  simp only [Step.moved, Step.mk.injEq] at h ⊢
  tauto

namespace Plan

open ReferenceDevice

theorem same_of_faceless {p p' : Plan}
    (h : p.moved Device.faceless = p'.moved Device.faceless) :
    p' = { p with steps := p'.steps } := by
  obtain ⟨⟩ := p
  obtain ⟨⟩ := p'
  simp only [moved, Plan.mk.injEq] at h ⊢
  tauto

/-- Steps that are the same but for their devices stand in the same positions, if each lies on the
device that its operations are assigned to. -/
theorem twins_of_faceless {assignment : List Nat} {devices devices' : List Device}
    {steps steps' : List Step}
    (hplaced : ∀ s ∈ steps, s.operations ≠ [] ∧ ∃ k : Nat, devices[k]? = some s.device ∧
      ∀ i ∈ s.operations, assignment[i]? = some k)
    (hplaced' : ∀ s ∈ steps', s.operations ≠ [] ∧ ∃ k : Nat, devices'[k]? = some s.device ∧
      ∀ i ∈ s.operations, assignment[i]? = some k)
    (h : steps.map (Step.moved Device.faceless) = steps'.map (Step.moved Device.faceless)) :
    List.Forall₂ (Step.Twin assignment devices devices') steps steps' := by
  rw [← List.forall₂_eq_eq_eq, List.forall₂_map_left_iff, List.forall₂_map_right_iff] at h
  have hleft := (List.forall₂_and_left steps steps').2 ⟨hplaced, h⟩
  have hboth := (List.forall₂_and_left steps' steps).2 ⟨hplaced', hleft.flip⟩
  refine hboth.flip.imp fun s s' hs => ?_
  obtain ⟨⟨-, k', hk', hassigned'⟩, ⟨hne, k, hk, hassigned⟩, hmoved⟩ := hs
  have hsame := Step.same_of_faceless hmoved
  -- any operation of the steps tells the position
  obtain ⟨i, hi⟩ := List.exists_mem_of_ne_nil _ hne
  have hi' : i ∈ s'.operations := by
    rw [hsame]
    exact hi
  obtain rfl : k = k' := Option.some.inj ((hassigned i hi).symm.trans (hassigned' i hi'))
  exact ⟨hsame, hne, k, hk, hk', hassigned⟩

section Revisions

variable {m : Model} {cs : List ReferenceDevice} {revisions revisions' : Nat → Revision}

/-- The operations are assigned to the devices in the same positions. -/
theorem ofModel_revisions (hbuilt : Built m) (hvalid : m.validate = .ok ())
    (hcoverage : ∀ c ∈ cs, c.coverage ≠ .signatureParity)
    (hr : ∀ i < cs.length, m.minRevision ≤ revisions i)
    (hr' : ∀ i < cs.length, m.minRevision ≤ revisions' i) (preference : Preference) :
    Assignment.ofModel m (devices cs revisions) preference =
      Assignment.ofModel m (devices cs revisions') preference := by
  have hrelaxed : m.relaxed = true → ∀ r, m.minRevision ≤ r → .v1_1 ≤ r := fun hm r hle => by
    have hfirst := (isCompliantWith_iff.1 (decide_eq_true hle)).1
    rwa [if_pos hm] at hfirst
  refine Assignment.ofModel_congr ?_ fun s relaxed himp => ?_
  · rw [map_devices fun c hc i hi =>
        c.support_device (revisions i) hbuilt hvalid (hcoverage c hc) (hr i hi),
      map_devices fun c hc i hi =>
        c.support_device (revisions' i) hbuilt hvalid (hcoverage c hc) (hr' i hi)]
  · rw [map_devices fun c _ i hi => c.performance_device (revisions i)
        (fun h => hrelaxed (himp h) _ (hr i hi)) preference,
      map_devices fun c _ i hi => c.performance_device (revisions' i)
        (fun h => hrelaxed (himp h) _ (hr' i hi)) preference]

/-- A partition over reference drivers ends in the same way at any revisions that can express the
model: with the same error, or with plans whose steps differ only in the drivers behind their
devices. -/
theorem partition_revisions (hbuilt : Built m) (hvalid : m.validate = .ok ())
    (hcoverage : ∀ c ∈ cs, c.coverage ≠ .signatureParity)
    (hr : ∀ i < cs.length, m.minRevision ≤ revisions i)
    (hr' : ∀ i < cs.length, m.minRevision ≤ revisions' i) (preference : Preference) :
    (∃ e, partition m (devices cs revisions) preference = .error e ∧
      partition m (devices cs revisions') preference = .error e) ∨
    ∃ assignment p p',
      Assignment.ofModel m (devices cs revisions) preference = .ok assignment ∧
      Assignment.ofModel m (devices cs revisions') preference = .ok assignment ∧
      partition m (devices cs revisions) preference = .ok p ∧
      partition m (devices cs revisions') preference = .ok p' ∧
      p' = { p with steps := p'.steps } ∧
      List.Forall₂ (Step.Twin assignment (devices cs revisions) (devices cs revisions'))
        p.steps p'.steps := by
  have hassignment := ofModel_revisions hbuilt hvalid hcoverage hr hr' preference
  have hfaceless : (devices cs revisions).map Device.faceless =
      (devices cs revisions').map Device.faceless := by
    have hname : ∀ c : ReferenceDevice, ∀ r, (c.device r).faceless =
        { name := c.name, handle := .invalid, coverage := .full } := fun c r => by
      rw [Device.faceless, c.name_device]
    rw [map_devices fun c _ i _ => hname c (revisions i),
      map_devices fun c _ i _ => hname c (revisions' i)]
  have hkeeps : Device.KeepsName Device.faceless := fun _ => rfl
  have hmoved := partition_moved hvalid hkeeps hfaceless hassignment
  cases hp : partition m (devices cs revisions) preference with
  | error e =>
    rw [hp] at hmoved
    cases hp' : partition m (devices cs revisions') preference with
    | error e' =>
      rw [hp'] at hmoved
      obtain rfl := Except.error.inj hmoved
      exact Or.inl ⟨e, rfl, rfl⟩
    | ok p' =>
      rw [hp'] at hmoved
      cases hmoved
  | ok p =>
    rw [hp] at hmoved
    cases hp' : partition m (devices cs revisions') preference with
    | error e' =>
      rw [hp'] at hmoved
      cases hmoved
    | ok p' =>
      rw [hp'] at hmoved
      have hsame : p.moved Device.faceless = p'.moved Device.faceless := Except.ok.inj hmoved
      obtain ⟨assignment, hassigned, hplaced⟩ := placed_of_partition hbuilt hvalid hp
      obtain ⟨assignment', hassigned', hplaced'⟩ := placed_of_partition hbuilt hvalid hp'
      obtain rfl : assignment = assignment' :=
        Except.ok.inj (hassigned.symm.trans (hassignment.trans hassigned'))
      refine Or.inr ⟨assignment, p, p', hassigned, hassigned', rfl, rfl, ?_, ?_⟩
      · exact same_of_faceless hsame
      · exact twins_of_faceless hplaced hplaced' (congrArg Plan.steps hsame)

end Revisions

/-! ## Two drivers at the oldest and at the newest revision -/

/-- A driver that declares one operation on tensors, under a name. -/
def specialized (name : String) (operation : OperationType) (coverage : CoverageMode) :
    ReferenceDevice where
  name
  driver :=
    { name, config := { signatures := [⟨operation, .tensorFloat32⟩] }, key := default }
  coverage

/-- Two drivers for the two operations of the chain. -/
def specialties : List ReferenceDevice :=
  [specialized "rectifier" .relu .full, specialized "rounder" .floor .reserved]

/-- The chain is split alike between drivers that are asked and drivers that have declared. -/
theorem partition_revisions_chain :
    Built chain ∧ chain.validate = .ok () ∧
      (∀ c ∈ specialties, c.coverage ≠ .signatureParity) ∧
      chain.minRevision ≤ .v1_0 ∧ chain.minRevision ≤ .v1_2 ∧
      ∃ p p', partition chain (devices specialties fun _ => .v1_0) .lowPower = .ok p ∧
        partition chain (devices specialties fun _ => .v1_2) .lowPower = .ok p' ∧
        List.Forall₂ (Step.Twin [0, 1] (devices specialties fun _ => .v1_0)
          (devices specialties fun _ => .v1_2)) p.steps p'.steps := by
  have hbuilt : Built chain := ⟨_, rfl⟩
  have hvalid : chain.validate = .ok () := by decide
  have hcoverage : ∀ c ∈ specialties, c.coverage ≠ .signatureParity := by decide
  have hold : chain.minRevision ≤ .v1_0 := by decide
  have hnew : chain.minRevision ≤ .v1_2 := by decide
  refine ⟨hbuilt, hvalid, hcoverage, hold, hnew, ?_⟩
  rcases partition_revisions hbuilt hvalid hcoverage (fun _ _ => hold) (fun _ _ => hnew)
    .lowPower with ⟨e, herror, -⟩ | ⟨assignment, p, p', hassigned, -, hp, hp', -, htwins⟩
  · obtain ⟨p, hp⟩ : ∃ p, partition chain (devices specialties fun _ => .v1_0) .lowPower = .ok p :=
      ⟨_, rfl⟩
    rw [herror] at hp
    cases hp
  · have hexpected : Assignment.ofModel chain (devices specialties fun _ => .v1_0) .lowPower =
        .ok [0, 1] := by rfl
    obtain rfl := Except.ok.inj (hassigned.symm.trans hexpected)
    exact ⟨p, p', hp, hp', htwins⟩

/-- The mode that goes by signatures only narrows what has been declared. -/
example :
    Assignment.support chain ((specialized "b" .relu .signatureParity).device .v1_0) =
        .ok [true, false] ∧
      Assignment.support chain ((specialized "b" .relu .signatureParity).device .v1_2) =
        .ok [false, false] := by
  constructor <;> cbv

end Plan

end NeuralDispatch

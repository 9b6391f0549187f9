import Mathlib.Data.Nat.Find
import NeuralDispatch.Command.Run
import NeuralDispatch.Proofs.Chain
import NeuralDispatch.Proofs.Cuts
import NeuralDispatch.Proofs.Refinement
import NeuralDispatch.Proofs.Revisions

/-!
# The command checks itself

The `partition` command splits a chain over two devices, runs it, and compares what comes out with
what must.  Whatever the settings are, that comparison does not fail: each device runs what the
other one does not, so there is no plan at all or one that changes the device at every step, and
every plan returns what must come out.

* `Command.discover_eq` — the devices that the command finds.
* `Command.supports_drivers` — of the two drivers each runs every other operation.
* `Command.steps_eq` — a plan has one step for each operation, on the device that runs it.
* `Command.partition_ok` — a chain is partitioned unless an operation runs nowhere.
* `Command.partitionChain_spec` — how the command ends.
-/

namespace NeuralDispatch

open Answer Model Interpreter

/-- A list no neighbours in which are alike is split into its elements. -/
theorem splitBy_of_isChain_ne {α : Type} {r : α → α → Bool} {xs : List α}
    (h : xs.IsChain fun x y => r x y = false) : xs.splitBy r = xs.map fun x => [x] := by
  rw [List.splitBy_eq_iff]
  refine ⟨by rw [← List.flatMap_def, List.flatMap_singleton'], by simp,
    List.forall_mem_map.2 fun x _ => List.isChain_singleton x, ?_⟩
  rw [List.isChain_map]
  exact h.imp fun x y hxy => ⟨by simp, by simp, hxy⟩

/-! ## Devices -/

/-- A reference driver under its own name, narrowed as the settings say. -/
def published (properties : Properties) (d : ReferenceDriver) : ReferenceDevice :=
  ⟨d.name, d, .ofValue (properties.coverageValue d.name)⟩

/-- The device that a reference driver becomes under some settings. -/
def ReferenceDriver.device (properties : Properties) (d : ReferenceDriver) : Device :=
  (published properties d).device d.config.revision

section Device

variable (properties : Properties) (d : ReferenceDriver)

theorem name_device : (d.device properties).name = d.name :=
  (published properties d).name_device d.config.revision

theorem over_device : (d.device properties).Over d := ⟨_, _, .inr rfl⟩

theorem initialized_device : (d.device properties).Initialized := ⟨_, _, _, rfl⟩

theorem create_device : Device.create d.name d.toDriver properties = .ok (d.device properties) := by
  have hanswer : (Device.new d.name d.toDriver
      (.ofValue (properties.coverageValue d.name))).activate.2 = .ok () := by
    obtain ⟨capabilities, hcapabilities, -⟩ := d.capabilities_toDriver
    rw [Device.activate, if_neg (by simp [Device.new])]
    simp only [Device.new, hcapabilities]
  rw [Device.create, ← Prod.mk.eta (p := Device.activate _), hanswer]
  rfl

end Device

/-- Drivers that are found under distinct names become devices in the order of their names. -/
theorem Registry.registerAll_ok {find : String → Option Driver} {ds : List ReferenceDriver}
    (hfind : ∀ d ∈ ds, find d.name = some d.toDriver) {r : Registry}
    (hnew : (r.devices.map (·.name) ++ ds.map (·.name)).Nodup) :
    registerAll find (ds.map (·.name)) r =
      .ok { r with devices := r.devices ++ ds.map (·.device r.properties) } := by
  induction ds generalizing r with
  | nil => simp [registerAll]
  | cons d ds ih =>
    obtain ⟨hd, hds⟩ := List.forall_mem_cons.1 hfind
    have hfresh : r.find? d.name = none := by
      refine List.find?_eq_none.2 fun device hdevice => ?_
      simpa using (List.nodup_append.1 hnew).2.2 _ (List.mem_map_of_mem hdevice) _
        List.mem_cons_self
    have hrest : ((r.devices ++ [d.device r.properties]).map (·.name) ++
        ds.map (·.name)).Nodup := by
      rw [List.map_append, List.map_singleton, name_device, List.append_assoc]
      exact hnew
    rw [List.map_cons, registerAll, hd]
    dsimp only
    rw [register, hfresh, if_neg (by simp), create_device, ok_bind, pure_bind, ih hds hrest,
      List.append_assoc]
    rfl

namespace Command

/-- The drivers that the commands publish. -/
def drivers (revision : Revision) : List ReferenceDriver :=
  [floatDriver revision, floorDriver revision]

/-- The devices that the commands work on under some settings. -/
def devices (revision : Revision) (properties : Properties) : List Device :=
  (drivers revision).map (·.device properties)

/-- The commands find a device for each of their drivers. -/
theorem discover_eq (revision : Revision) (properties : Properties) :
    Registry.discover (some (.ofServices (services revision))) properties =
      .ok ⟨devices revision properties, properties⟩ := by
  have hfind : ∀ d ∈ drivers revision,
      (ServiceManager.ofServices (services revision)).find d.name = some d.toDriver := by
    simp only [drivers, List.forall_mem_cons]
    exact ⟨rfl, rfl, by simp⟩
  have hnames : ((drivers revision).map (·.name)).Nodup :=
    (by decide : ["sample-float", "sample-floor"].Nodup)
  exact Registry.registerAll_ok (r := { properties }) hfind (by simpa using hnames)

/-- The drivers of the commands do not fail on purpose. -/
theorem statuses_drivers {revision : Revision} : ∀ d ∈ drivers revision,
    d.config.preparationStatus = .success ∧ d.config.executionStatus = .success := by
  simp only [drivers, List.forall_mem_cons]
  exact ⟨⟨rfl, rfl⟩, ⟨rfl, rfl⟩, by simp⟩

open Chain

section Chain

variable {length : Nat} {m : Model} (h : Complete length m) {revision : Revision}
  {properties : Properties}

include h

/-! ## Support -/

/-- Of the two drivers each runs every other operation. -/
theorem supports_drivers {i k : Nat} (hi : i < length) {d : ReferenceDriver}
    (hd : (drivers revision)[k]? = some d) : d.supports m i = true ↔ i % 2 = k := by
  have hsigned : d.supports m i = true ↔
      ⟨(operation i).type, .tensorFloat32⟩ ∈ d.config.signatures := by
    rw [ReferenceDriver.supports_iff, h.signature hi]
    simp
  have htype : (operation i).type = if i % 2 = 0 then .add else .floor := rfl
  rw [hsigned, htype]
  rcases k with _ | _ | k
  · obtain rfl := Option.some.inj hd
    show _ ∈ onTensors [.add, .sub, .mul, .relu] ↔ _
    rcases Nat.mod_two_eq_zero_or_one i with hparity | hparity <;>
    · rw [hparity]
      decide
  · obtain rfl := Option.some.inj hd
    show _ ∈ onTensors [.floor] ↔ _
    rcases Nat.mod_two_eq_zero_or_one i with hparity | hparity <;>
    · rw [hparity]
      decide
  · cases hd

theorem support_ok (revision : Revision) (properties : Properties) :
    ∃ support, (devices revision properties).mapM (Assignment.support m) = .ok support := by
  refine mapM_ok_of_forall fun device hdevice => ?_
  obtain ⟨d, -, rfl⟩ := List.mem_map.1 hdevice
  exact (over_device properties d).support_ok h.built.sound

/-- An assignment alternates between the devices. -/
theorem assigned {preference : Preference} {assignment : List Nat}
    (hassignment : Assignment.ofModel m (devices revision properties) preference =
      .ok assignment) : ∀ i < length, assignment[i]? = some (i % 2) := by
  intro i hi
  have hcount := h.length_operations
  obtain ⟨support, hsupport, hall⟩ := Assignment.assigned_of_ofModel hassignment
  obtain ⟨-, flags, hflags, hset⟩ := hall i (hi.trans_eq hcount.symm)
  obtain ⟨device, hdevice, hanswer⟩ := counterpart (mapM_eq_ok.1 hsupport).flip hflags
  rw [devices, List.getElem?_map] at hdevice
  obtain ⟨d, hd, rfl⟩ := Option.map_eq_some_iff.1 hdevice
  have hsupports := ((over_device properties d).supports_of_support hanswer hset).1
  rw [(supports_drivers h hi hd).1 hsupports, List.getD_eq_getElem?_getD, List.getElem?_eq_getElem,
    Option.getD_some]
  rwa [Assignment.length_of_ofModel hassignment, hcount]

/-- Nothing but the operations of the chain is assigned. -/
theorem parity_of_assigned {preference : Preference} {assignment : List Nat}
    (hassignment : Assignment.ofModel m (devices revision properties) preference =
      .ok assignment) {i k : Nat} (hk : assignment[i]? = some k) : i < length ∧ i % 2 = k := by
  have hlt : i < length := by
    have hsome := (List.getElem?_eq_some_iff.1 hk).1
    rwa [Assignment.length_of_ofModel hassignment, h.length_operations] at hsome
  exact ⟨hlt, Option.some.inj ((assigned h hassignment i hlt).symm.trans hk)⟩

/-- Every other operation hands its result on, or returns it. -/
theorem delivers {operations : List Nat} (hne : operations ≠ []) {k : Nat}
    (hall : ∀ i ∈ operations, i < length ∧ i % 2 = k) : Plan.Delivers m operations := by
  obtain ⟨i, hi⟩ := List.exists_mem_of_ne_nil _ hne
  obtain ⟨hlt, hparity⟩ := hall i hi
  refine ⟨i, hi, operation i, h.getElem?_operations.2 ⟨hlt, rfl⟩, i + 2,
    List.mem_singleton.2 (place_succ i).symm, ?_⟩
  by_cases hlast : i + 1 = length
  · left
    obtain ⟨consumers, hoperand⟩ := h.operands (i + 2) (by omega)
    exact ⟨_, hoperand, if_pos (by omega)⟩
  · right
    refine ⟨i + 1, operation (i + 1), fun hnext => ?_, h.getElem?_operations.2 ⟨by omega, rfl⟩, ?_⟩
    · have hsame := (hall (i + 1) hnext).2
      omega
    · rw [Chain.operation, ← place_succ]
      dsimp only
      split <;> exact List.mem_cons_self

/-! ## Partition -/

/-- A chain all operations of which are supported is partitioned. -/
theorem partition_ok (hlength : length ≠ 0) {support : List (List Bool)}
    (hsupport : (devices revision properties).mapM (Assignment.support m) = .ok support)
    (hall : ∀ i < m.operations.length, Assignment.Supported support i) (preference : Preference) :
    ∃ p, Plan.partition m (devices revision properties) preference = .ok p := by
  have hvalid := h.valid hlength
  obtain ⟨assignment, hassignment⟩ :=
    Assignment.ofModel_ok preference h.built.sound hsupport hall
  obtain ⟨steps, hsteps, hcarving, hgroups⟩ :=
    Plan.carving_of_schedule h.built.sound hvalid (Assignment.lt_of_ofModel hassignment)
  have hdelivers : ∀ s ∈ Plan.numbered steps, Plan.Delivers m s.operations := by
    intro s hs
    obtain ⟨g, hg, heq, -⟩ := counterpart_mem hgroups.flip hs
    obtain ⟨hne, hplaced⟩ :=
      Plan.assigned_of_group (validate_eq_ok_iff.2 hvalid) hassignment hg
    rw [heq]
    exact delivers h hne fun i hi => parity_of_assigned h hassignment (hplaced i hi)
  obtain ⟨p, hp⟩ := (hcarving.finish h.built.sound).1 hdelivers
  refine ⟨p, ?_⟩
  rw [Plan.partition_of_valid (validate_eq_ok_iff.2 hvalid), hassignment, ok_bind, hsteps, ok_bind,
    hp]
  rfl

/-- The operations of a chain are planned in their order, each in a step of its own. -/
theorem operations_eq (hlength : length ≠ 0) {preference : Preference} {p : Plan}
    (hplan : Plan.partition m (devices revision properties) preference = .ok p) :
    p.steps.map (·.operations) = (List.range length).map fun i => [i] := by
  have hvalid := validate_eq_ok_iff.2 (h.valid hlength)
  obtain ⟨assignment, hassignment, -⟩ := Plan.grouped_of_partition h.built hvalid hplan
  have hturns := assigned h hassignment
  obtain ⟨hperm, hordered⟩ := Plan.ordered_of_partition h.built hvalid hplan
  have hfeeds : (List.range length).IsChain m.Feeds := by
    rw [List.isChain_range]
    intro i hi
    exact mem_edges_iff_feeds.1 (h.mem_edges_iff.2 ⟨rfl, by omega⟩)
  -- each operation feeds the next one, so no other order respects the data flow
  have horder : List.range length = p.steps.flatMap (·.operations) :=
    eq_of_isChain_feeds hperm hordered (h.length_operations ▸ List.Perm.refl _) hfeeds
  rw [Plan.steps_eq_splitBy h.built hvalid hassignment hplan, ← horder]
  -- neighbours lie on different devices, so no two of them share a step
  refine splitBy_of_isChain_ne ((List.isChain_range _ _).2 fun i hi => ?_)
  rw [hturns i (by omega), hturns i.succ (by omega)]
  refine beq_eq_false_iff_ne.2 fun heq => ?_
  have hparity := Option.some.inj heq
  omega

/-- The steps of a chain lie on the two devices by turns. -/
theorem steps_eq (hlength : length ≠ 0) {preference : Preference} {p : Plan}
    (hplan : Plan.partition m (devices revision properties) preference = .ok p) :
    p.steps.map (fun s => (s.device.name, s.operations)) =
      (List.range length).map fun i =>
        (if i % 2 = 0 then "sample-float" else "sample-floor", [i]) := by
  have hvalid := validate_eq_ok_iff.2 (h.valid hlength)
  obtain ⟨assignment, hassignment, hplaced⟩ := Plan.placed_of_partition h.built hvalid hplan
  have hoperations := operations_eq h hlength hplan
  rw [← List.forall₂_eq_eq_eq, List.forall₂_map_left_iff, List.forall₂_map_right_iff]
    at hoperations ⊢
  refine ((List.forall₂_and_left _ _).2 ⟨hplaced, hoperations⟩).imp ?_
  rintro s i ⟨⟨-, k, hdevice, hall⟩, hi⟩
  obtain ⟨-, rfl⟩ := parity_of_assigned h hassignment (hall i (hi ▸ List.mem_singleton_self i))
  rw [devices, List.getElem?_map] at hdevice
  obtain ⟨d, hd, hsame⟩ := Option.map_eq_some_iff.1 hdevice
  rw [hi, ← hsame, name_device]
  rcases Nat.mod_two_eq_zero_or_one i with hparity | hparity <;>
  · rw [hparity] at hd ⊢
    obtain rfl := Option.some.inj hd
    rfl

/-! ## Execution -/

/-- A plan of a chain returns what must come out of it. -/
theorem execute_ok (hlength : length ≠ 0) {preference : Preference} {p : Plan}
    (hplan : Plan.partition m (devices revision properties) preference = .ok p)
    (preference' : Preference) :
    ∃ prepared, p.prepare preference' = .ok prepared ∧
      prepared.execute [Bytes.ofSingles start] true = .ok [Bytes.ofSingles (expected length)] := by
  obtain ⟨v, hinterpretation, hlast⟩ := h.interpretation hlength
  have houtputs : List.Forall₂ v.contents.Holds m.outputs [Bytes.ofSingles (expected length)] := by
    rw [h.outputs]
    exact .cons ⟨_, hlast, rfl⟩ .nil
  have hknown : ∀ o ∈ m.outputs, v.contents o ≠ none := by
    simp [h.outputs, hlast]
  obtain ⟨steps, flow, hcarving, hassembly, rfl, hplaced⟩ :=
    Plan.partition_eq_ok h.built (validate_eq_ok_iff.2 (h.valid hlength)) hplan
  have hdevices : ∀ device ∈ devices revision properties, ∃ d : ReferenceDriver, device.Over d ∧
      d.config.preparationStatus = .success ∧ d.config.executionStatus = .success := by
    intro device hdevice
    obtain ⟨d, hd, hsame⟩ := List.mem_map.1 hdevice
    exact ⟨d, hsame ▸ over_device properties d, statuses_drivers d hd⟩
  obtain ⟨models, hprepare, hadvances⟩ :=
    hinterpretation.prepare_ok hknown hcarving hassembly hdevices hplaced preference'
  -- every operand of the chain takes four words
  have hspanned : ∀ s ∈ (Plan.assembled m steps flow).steps, s.Spanned v.contents := by
    intro s hs link hlink bytes hholds
    obtain ⟨source, hsource, hlength⟩ := hinterpretation.byteLength_of_computed
      (hcarving.computed_of_output hassembly hs (List.mem_map.2 ⟨link, hlink, rfl⟩)) hholds
    rw [h.byteLength_eq hsource] at hlength
    rw [← Option.some.inj hlength]
    decide
  refine ⟨⟨Plan.assembled m steps flow, models⟩, hprepare, ?_⟩
  rw [hinterpretation.execute_assembled hassembly
    (((List.forall₂_and_left _ _).2 ⟨hspanned, hadvances⟩).imp fun _ _ hstep =>
      hstep.2.1 hstep.1) houtputs, if_pos (by rw [h.inputs]; rfl)]

/-- The run of a plan gives what must come out of the chain. -/
theorem runChain_ok (hlength : length ≠ 0) {preference : Preference} {p : Plan}
    (hplan : Plan.partition m (devices revision properties) preference = .ok p) :
    ∃ timings, runChain p preference = .ok (expected length, timings) := by
  obtain ⟨prepared, hprepare, hexecute⟩ := execute_ok h hlength hplan preference
  obtain ⟨⟨outputs, timings⟩, htimed, houtputs⟩ := bind_eq_ok.1 hexecute
  obtain rfl := pure_eq_ok.1 houtputs
  refine ⟨timings, ?_⟩
  rw [runChain, hprepare, within, Except.mapError, ok_bind, htimed, within, Except.mapError,
    ok_bind]
  simp only [List.head?_cons, Option.bind_some, Bytes.toSingles?_ofSingles, Option.getD_some]
  rfl

/-! ## The whole command -/

/-- Everything runs somewhere if nothing is set. -/
theorem runs_of_unset (hlength : length ≠ 0) (hunset : ∀ key, properties key = none) :
    ∀ i < length, ∃ d ∈ devices revision properties, d.Runs m i := by
  intro i hi
  have hmode : ∀ name, CoverageMode.ofValue (properties.coverageValue name) = .full := by
    intro name
    simp [Properties.coverageValue, Properties.coverageText, hunset]
    rfl
  obtain ⟨d, hd⟩ : ∃ d, (drivers revision)[i % 2]? = some d :=
    ⟨_, List.getElem?_eq_getElem (show i % 2 < 2 from Nat.mod_lt i Nat.zero_lt_two)⟩
  refine ⟨d.device properties, List.mem_map_of_mem (List.mem_of_getElem? hd), ?_⟩
  have hflags := (published properties d).support_device d.config.revision h.built
    (validate_eq_ok_iff.2 (h.valid hlength))
    (by rw [published, hmode]; exact CoverageMode.noConfusion) (h.minRevision_le _)
  refine ((initialized_device properties d).support_iff hflags i).1 ?_
  have hkeeps : (published properties d).keeps m i = true := by
    rw [ReferenceDevice.keeps, published, hmode]
    rfl
  rw [List.getD_eq_getElem?_getD, List.getElem?_map,
    List.getElem?_range (hi.trans_eq h.length_operations.symm), Option.map_some, Option.getD_some,
    hkeeps, Bool.and_true]
  exact (supports_drivers h hi hd).2 rfl

end Chain

/-- A list of numbers is the same as itself. -/
theorem sameNumbers_self {xs : List Single} (h : ∀ x ∈ xs, x.isNaN = false) :
    sameNumbers xs xs = true := by
  rw [sameNumbers, beq_self_eq_true, Bool.true_and, List.all_eq_true]
  rintro ⟨x, y⟩ hmem
  obtain ⟨i, hi⟩ := List.mem_iff_getElem?.1 hmem
  obtain ⟨hx, hy⟩ := List.getElem?_zip_eq_some.1 hi
  have hsame : x = y := Option.some.inj (hx.symm.trans hy)
  simp [← hsame, Single.sameNumber, h x (List.mem_of_getElem? hx)]

section Transcript

variable {r : Registry} {length : Nat} {preference : Preference} {m : Model}
  (hbuild : buildChain length = .ok m)

include hbuild

theorem partitionChain_refused {e : PlanError}
    (hplan : Plan.partition m r.devices preference = .error e) :
    partitionChain r length preference =
      ([], .error ⟨some "Failed to partition model", e.message⟩) := by
  rw [partitionChain, hbuild, ok_bind, hplan]
  rfl

theorem partitionChain_matched {p : Plan}
    (hplan : Plan.partition m r.devices preference = .ok p) {timings : List Timing}
    (hrun : runChain p preference = .ok (expected length, timings)) :
    (partitionChain r length preference).2 = .ok () := by
  rw [partitionChain, hbuild, ok_bind, hplan, within, Except.mapError, ok_bind]
  dsimp only [pure, Except.pure]
  rw [hrun]
  exact if_pos (sameNumbers_self (isNaN_expected length))

end Transcript

/-- The command with a chain of some operations finds its devices and builds a well-formed model.
If every operation runs on one of the devices, as it does when nothing is set, the chain is planned
in steps of one operation on the two devices by turns, the plan is prepared and run, what comes out
is what must, and the command succeeds.  Otherwise it fails for the first operation that runs
nowhere, and in no other way. -/
theorem partitionChain_spec (revision : Revision) (properties : Properties)
    (preference : Preference) {length : Nat} (hlength : length ≠ 0) :
    ∃ r m, Registry.discover (some (.ofServices (services revision))) properties = .ok r ∧
      buildChain length = .ok m ∧ m.validate = .ok () ∧ m.operations.length = length ∧
      (((∀ i < length, ∃ d ∈ r.devices, d.Runs m i) ∧ ∃ p timings,
          Plan.partition m r.devices preference = .ok p ∧
          p.steps.map (fun s => (s.device.name, s.operations)) =
            (List.range length).map (fun i =>
              (if i % 2 = 0 then "sample-float" else "sample-floor", [i])) ∧
          runChain p preference = .ok (expected length, timings) ∧
          (partitionChain r length preference).2 = .ok ()) ∨
        ∃ i s, i < length ∧ (∀ j < i, ∃ d ∈ r.devices, d.Runs m j) ∧
          (∀ d ∈ r.devices, ¬ d.Runs m i) ∧ m.signature i = .ok s ∧
          partitionChain r length preference =
            ([], .error ⟨some "Failed to partition model", (PlanError.noDevice i s).message⟩)) ∧
      ((∀ key, properties key = none) → ∀ i < length, ∃ d ∈ r.devices, d.Runs m i) := by
  obtain ⟨m, hm, h⟩ := Chain.model_ok hlength
  have hbuild : buildChain length = .ok m := by
    rw [buildChain, if_neg hlength, hm]
    rfl
  have hvalid := validate_eq_ok_iff.2 (h.valid hlength)
  obtain ⟨support, hsupport⟩ := support_ok h revision properties
  have hsupported := Assignment.supported_iff
    (List.forall_mem_map.2 fun d _ => initialized_device properties d) hsupport
  refine ⟨⟨devices revision properties, properties⟩, m, discover_eq revision properties, hbuild,
    hvalid, h.length_operations, ?_, runs_of_unset h hlength⟩
  by_cases hall : ∀ i < length, Assignment.Supported support i
  · left
    obtain ⟨p, hp⟩ := partition_ok h hlength hsupport (h.length_operations.symm ▸ hall) preference
    obtain ⟨timings, hrun⟩ := runChain_ok h hlength hp
    exact ⟨fun i hi => (hsupported i).1 (hall i hi), p, timings, hp, steps_eq h hlength hp, hrun,
      partitionChain_matched hbuild hp hrun⟩
  · right
    obtain ⟨i, hi, hnone, hbefore⟩ : ∃ i < length, ¬ Assignment.Supported support i ∧
        ∀ j < i, Assignment.Supported support j := by
      have hsome : ∃ i, i < length ∧ ¬ Assignment.Supported support i := by simpa using hall
      obtain ⟨hi, hnone⟩ := Nat.find_spec hsome
      exact ⟨_, hi, hnone, fun j hj => by simpa [hj.trans hi] using Nat.find_min hsome hj⟩
    obtain ⟨s, hs, herror⟩ := Assignment.ofModel_error preference h.built.sound hsupport
      (hi.trans_eq h.length_operations.symm) hbefore hnone
    refine ⟨i, s, hi, fun j hj => (hsupported j).1 (hbefore j hj),
      fun d hd hruns => hnone ((hsupported i).2 ⟨d, hd, hruns⟩), hs,
      partitionChain_refused hbuild ?_⟩
    rw [Plan.partition_of_valid hvalid, herror]
    rfl

/-- Three operations at the oldest revision take three steps. -/
theorem partitionChain_three :
    3 ≠ 0 ∧ ∃ r m p,
      Registry.discover (some (.ofServices (services .v1_0))) (fun _ => none) = .ok r ∧
      buildChain 3 = .ok m ∧ Plan.partition m r.devices .lowPower = .ok p ∧
      p.steps.map (fun s => (s.device.name, s.operations)) =
        [("sample-float", [0]), ("sample-floor", [1]), ("sample-float", [2])] ∧
      (partitionChain r 3 .lowPower).2 = .ok () := by
  have hlength : 3 ≠ 0 := by decide
  obtain ⟨r, m, hr, hm, -, -, hends, hunset⟩ :=
    partitionChain_spec .v1_0 (fun _ => none) .lowPower hlength
  rcases hends with ⟨-, p, timings, hp, hsteps, -, hend⟩ | ⟨i, s, hi, -, hnone, -⟩
  · exact ⟨hlength, r, m, p, hr, hm, hp, hsteps, hend⟩
  · obtain ⟨d, hd, hruns⟩ := hunset (fun _ => rfl) i hi
    exact absurd hruns (hnone d hd)

end Command

end NeuralDispatch

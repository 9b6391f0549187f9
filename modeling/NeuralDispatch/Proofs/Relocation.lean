import NeuralDispatch.Proofs.Refusal

/-!
# Plans on other devices

A step is bound to its device from the start, but nothing that is done to it on the way to a
finished plan looks at the device, apart from the name, which the message of a misuse tells.  So a
plan comes about in the same way on other devices of the same names.

* `Step.moved`, `Plan.moved` — a step and a plan on other devices.
* `Step.ofOperations_moved`, `Step.finish_moved` — steps are filled and finished alike.
* `planned_moved` — so are plans, once the schedule is known.
* `Assignment.ofModel_congr` — the assignment looks at what the devices support and at their
  figures.
* `placed_of_partition` — the devices that the steps of a plan lie on.
-/

namespace NeuralDispatch

open Answer Model

/-- Whether devices are exchanged for others of the same names. -/
def Device.KeepsName (change : Device → Device) : Prop := ∀ d, (change d).name = d.name

/-! ## Steps -/

namespace Step

/-- The step on another device. -/
def moved (change : Device → Device) (s : Step) : Step := { s with device := change s.device }

section Moved

variable {change : Device → Device}

theorem note_moved (s : Step) (link : Link) (role : Role) (lifetime : Lifetime) :
    (s.moved change).note link role lifetime = (s.note link role lifetime).moved change := by
  cases role <;> cases lifetime <;> rfl

variable (h : Device.KeepsName change)

include h

theorem requireMutable_moved (s : Step) (call : StepCall) :
    (s.moved change).requireMutable call = s.requireMutable call := by
  unfold requireMutable
  rw [show (s.moved change).device.name = s.device.name from h s.device]
  rfl

theorem addOperand_moved (whole : Model) (s : Step) (o : Nat) (role : Role) :
    (s.moved change).addOperand whole o role =
      Prod.map (moved change) id <$> s.addOperand whole o role := by
  unfold addOperand
  rw [requireMutable_moved h, map_bind]
  refine bind_congr fun _ => ?_
  rw [show (s.moved change).place? o = s.place? o from rfl]
  cases s.place? o with
  | some place => rfl
  | none =>
    rw [map_bind]
    refine bind_congr fun source => ?_
    have hnote := @note_moved change
      { s with model := s.model.addOperand (importOperand source), operands := s.operands ++ [o] }
      ⟨o, s.model.operands.length⟩ role source.lifetime
    exact congrArg (fun t => Except.ok (t, s.model.operands.length)) hnote

theorem addOperation_moved (whole : Model) (s : Step) (i : Nat) :
    (s.moved change).addOperation whole i = moved change <$> s.addOperation whole i := by
  unfold addOperation
  rw [requireMutable_moved h]
  simp only [map_bind]
  rfl

theorem addOperands_moved (whole : Model) (role : Role) (os : List Nat) (s : Step) :
    addOperands whole role os (s.moved change) =
      moved change <$> addOperands whole role os s := by
  induction os generalizing s with
  | nil => rfl
  | cons o rest ih =>
    rw [addOperands, addOperands, addOperand_moved h, map_bind, bind_map_left]
    exact bind_congr fun added => ih added.1

theorem addWithOperands_moved (whole : Model) (s : Step) (i : Nat) :
    addWithOperands whole (s.moved change) i = moved change <$> addWithOperands whole s i := by
  unfold addWithOperands
  simp only [map_bind, addOperands_moved h, bind_map_left, addOperation_moved h]

theorem foldlM_addWithOperands_moved (whole : Model) (operations : List Nat) (s : Step) :
    operations.foldlM (addWithOperands whole) (s.moved change) =
      moved change <$> operations.foldlM (addWithOperands whole) s := by
  induction operations generalizing s with
  | nil => rfl
  | cons i rest ih =>
    rw [List.foldlM_cons, List.foldlM_cons, addWithOperands_moved h, map_bind, bind_map_left]
    exact bind_congr ih

/-- The step for a group of operations is filled alike on another device. -/
theorem ofOperations_moved (whole : Model) (device : Device) (operations : List Nat) :
    ofOperations whole (change device) operations =
      moved change <$> ofOperations whole device operations :=
  foldlM_addWithOperands_moved h whole operations { device }

/-- A step is finished alike on another device. -/
theorem finish_moved (s : Step) (links : List Link) (relaxed : Bool) :
    (s.moved change).finish links relaxed =
      Prod.map (moved change) id (s.finish links relaxed) := by
  unfold finish
  rw [requireMutable_moved h]
  cases s.requireMutable .finish with
  | error e => rfl
  | ok u =>
    dsimp only [Step.inputs, Step.outputs, moved]
    split
    · rfl
    · split <;> rfl

end Moved

end Step

/-! ## Plans -/

namespace Plan

/-- The plan with its steps on other devices. -/
def moved (change : Device → Device) (p : Plan) : Plan :=
  { p with steps := p.steps.map (Step.moved change) }

/-- What a partition does once the operations are in groups: the steps for the groups are numbered
and finished. -/
def planned (m : Model) (devices : List Device) (groups : List Group) : Except PlanError Plan := do
  let steps ← stepsOf m devices groups
  (Plan.finish { steps := numbered steps } m).2
  return (Plan.finish { steps := numbered steps } m).1

theorem partition_eq_planned {m : Model} (hvalid : m.validate = .ok ()) (devices : List Device)
    (preference : Preference) :
    partition m devices preference = Assignment.ofModel m devices preference >>= fun assignment =>
      planned m devices (schedule m assignment devices.length) :=
  partition_of_valid hvalid devices preference

section Moved

variable {change : Device → Device} (h : Device.KeepsName change)

theorem numbered_moved (steps : List Step) :
    numbered (steps.map (Step.moved change)) = (numbered steps).map (Step.moved change) := by
  refine List.ext_getElem? fun c => ?_
  simp only [numbered, List.getElem?_mapIdx, List.getElem?_map, Option.map_map]
  rfl

include h

theorem stepsOf_moved (m : Model) (devices : List Device) (groups : List Group) :
    stepsOf m (devices.map change) groups =
      List.map (Step.moved change) <$> stepsOf m devices groups := by
  induction groups with
  | nil => rfl
  | cons g rest ih =>
    unfold stepsOf at ih ⊢
    rw [List.filterMapM_cons, List.filterMapM_cons, List.getElem?_map]
    cases devices[g.device]? with
    | none => exact ih
    | some device =>
      simp only [Option.map_some, Step.ofOperations_moved h, map_bind, bind_map_left, bind_assoc,
        pure_bind, ih]
      rfl

theorem finishSteps_moved (relaxed : Bool) (pairs : List (Step × List Link)) :
    finishSteps relaxed (pairs.map (Prod.map (Step.moved change) id)) =
      Prod.map (List.map (Step.moved change)) id (finishSteps relaxed pairs) := by
  induction pairs with
  | nil => rfl
  | cons x rest ih =>
    obtain ⟨s, links⟩ := x
    rw [List.map_cons, Prod.map_apply, id_eq, finishSteps, finishSteps, Step.finish_moved h]
    obtain ⟨s', answer⟩ := s.finish links relaxed
    cases answer with
    | error e =>
      simp only [Prod.map_apply, id_eq, List.map_cons, List.map_map]
      rfl
    | ok u =>
      simp only [ih]
      rfl

/-- A plan is finished alike on other devices. -/
theorem finish_moved (p : Plan) (m : Model) :
    (p.moved change).finish m = Prod.map (moved change) id (p.finish m) := by
  have hunseen : Unseen (Step.moved change) :=
    ⟨fun _ => rfl, fun _ => rfl, fun _ => rfl, fun _ => rfl⟩
  have hcheck : (p.moved change).check m = p.check m := hunseen.check_map p m
  unfold finish
  rw [hcheck]
  cases p.check m with
  | error e => rfl
  | ok flow =>
    have hzip : (p.moved change).steps.zip flow.crossOutputs =
        (p.steps.zip flow.crossOutputs).map (Prod.map (Step.moved change) id) :=
      List.zip_map_left ..
    dsimp only
    rw [hzip, finishSteps_moved h]
    obtain ⟨steps, answer⟩ := finishSteps m.relaxed (p.steps.zip flow.crossOutputs)
    cases answer <;> rfl

/-- The same groups make the same plan on other devices. -/
theorem planned_moved (m : Model) (devices : List Device) (groups : List Group) :
    planned m (devices.map change) groups = moved change <$> planned m devices groups := by
  unfold planned
  rw [stepsOf_moved h]
  simp only [map_bind, bind_map_left]
  refine bind_congr fun steps => ?_
  have hfinish := finish_moved h { steps := numbered steps } m
  rw [numbered_moved]
  show (do
    (Plan.finish (moved change { steps := numbered steps }) m).2
    return (Plan.finish (moved change { steps := numbered steps }) m).1) = _
  rw [hfinish]
  rfl

end Moved

end Plan

/-! ## Assignments -/

/-- An assignment looks at nothing but what the devices support and at their figures. -/
theorem Assignment.ofModel_congr {m : Model} {devices devices' : List Device}
    {preference : Preference}
    (hsupport : devices.map (support m) = devices'.map (support m))
    (hfigures : ∀ s relaxed, (relaxed = true → m.relaxed = true) →
      devices.map (·.performance s relaxed preference) =
        devices'.map (·.performance s relaxed preference)) :
    ofModel m devices preference = ofModel m devices' preference := by
  have hanswers : ∀ ds : List Device, ds.mapM (support m) = (ds.map (support m)).mapM id :=
    fun ds => by
      rw [List.mapM_map]
      rfl
  -- candidates go by the figures, wherever these come from
  have hcandidates : ∀ (ds : List Device) (flags : List (List Bool)) i s relaxed,
      candidates ds flags i s relaxed preference =
        ((ds.map (·.performance s relaxed preference)).zip flags).zipIdx.filterMap
          fun entry => if entry.1.2.getD i false then some (entry.2, entry.1.1) else none := by
    intro ds flags i s relaxed
    rw [List.zip_map_left, List.zipIdx_map, List.filterMap_map]
    rfl
  unfold ofModel
  rw [hanswers devices, hanswers devices', hsupport]
  refine bind_congr fun flags => ?_
  refine congrArg (List.mapM · _) (funext fun i => ?_)
  unfold assign
  refine bind_congr fun s => ?_
  have hrelaxed : (m.relaxed && s.operand.isFloat32) = true → m.relaxed = true := by
    simpa using fun h _ => h
  simp only [hcandidates, hfigures s _ hrelaxed]

namespace Plan

/-- A plan comes about alike on devices of the same names to which the operations are assigned
alike. -/
theorem partition_moved {m : Model} (hvalid : m.validate = .ok ()) {change : Device → Device}
    (h : Device.KeepsName change) {devices devices' : List Device} {preference : Preference}
    (hdevices : devices.map change = devices'.map change)
    (hassignment : Assignment.ofModel m devices preference =
      Assignment.ofModel m devices' preference) :
    moved change <$> partition m devices preference =
      moved change <$> partition m devices' preference := by
  have hlength : devices.length = devices'.length := by
    simpa using congrArg List.length hdevices
  rw [partition_eq_planned hvalid, partition_eq_planned hvalid, map_bind, map_bind, hassignment,
    hlength]
  refine bind_congr fun assignment => ?_
  rw [← planned_moved h, ← planned_moved h, hdevices]

/-! ## Where the steps lie -/

/-- No group of a schedule is empty, and its operations are assigned to its device. -/
theorem assigned_of_group {m : Model} (hvalid : m.validate = .ok ()) {devices : List Device}
    {preference : Preference} {assignment : List Nat}
    (h : Assignment.ofModel m devices preference = .ok assignment) {g : Group}
    (hg : g ∈ schedule m assignment devices.length) :
    g.operations ≠ [] ∧ ∀ i ∈ g.operations, assignment[i]? = some g.device := by
  obtain ⟨hplaced, hperm, -⟩ := schedule_spec (validate_eq_ok_iff.1 hvalid)
    (Assignment.lt_of_ofModel h)
  refine ⟨(hplaced g hg).operations_ne, fun i hi => ?_⟩
  have hlt := List.mem_range.1 (hperm.mem_iff.1 (List.mem_flatMap.2 ⟨g, hg, hi⟩))
  rw [← Assignment.length_of_ofModel h] at hlt
  rw [← (hplaced g hg).assigned i hi, List.getD_eq_getElem?_getD, List.getElem?_eq_getElem hlt,
    Option.getD_some]

section Placed

variable {m : Model} (hbuilt : Built m) (hvalid : m.validate = .ok ()) {devices : List Device}
  {preference : Preference} {p : Plan} (h : partition m devices preference = .ok p)

include hbuilt hvalid h

/-- The steps of a given plan are those for the groups of the schedule, in order. -/
theorem grouped_of_partition :
    ∃ assignment, Assignment.ofModel m devices preference = .ok assignment ∧
      List.Forall₂ (fun g s => s.operations = g.operations ∧ devices[g.device]? = some s.device)
        (schedule m assignment devices.length) p.steps := by
  obtain ⟨assignment, steps, flow, hassignment, -, hassembly, rfl, hgroups⟩ :=
    carving_of_partition hbuilt hvalid h
  have hmapped : List.Forall₂ (fun g (e : List Nat × Device) =>
      e.1 = g.operations ∧ devices[g.device]? = some e.2) (schedule m assignment devices.length)
        (steps.map fun s => (s.operations, s.device)) :=
    List.forall₂_map_right_iff.2 hgroups
  rw [← map_assembled (fun _ _ => rfl) hassembly.tracks.length_eq] at hmapped
  exact ⟨assignment, hassignment, List.forall₂_map_right_iff.1 hmapped⟩

/-- The steps of a given plan hold every operation once and behind all it depends on. -/
theorem ordered_of_partition :
    (p.steps.flatMap (·.operations)).Perm (List.range m.operations.length) ∧
      Ordered m.edges (p.steps.flatMap (·.operations)).reverse := by
  obtain ⟨assignment, hassignment, hgroups⟩ := grouped_of_partition hbuilt hvalid h
  have hoperations : p.steps.flatMap (·.operations) =
      (schedule m assignment devices.length).flatMap (·.operations) :=
    (flatMap_eq_of_forall₂ (hgroups.imp fun g s hs => hs.1.symm)).symm
  rw [hoperations]
  exact (schedule_spec (validate_eq_ok_iff.1 hvalid) (Assignment.lt_of_ofModel hassignment)).2

/-- Every step of a given plan lies on the device that its operations are assigned to. -/
theorem placed_of_partition :
    ∃ assignment, Assignment.ofModel m devices preference = .ok assignment ∧
      ∀ s ∈ p.steps, s.operations ≠ [] ∧ ∃ k : Nat, devices[k]? = some s.device ∧
        ∀ i ∈ s.operations, assignment[i]? = some k := by
  obtain ⟨assignment, hassignment, hgroups⟩ := grouped_of_partition hbuilt hvalid h
  refine ⟨assignment, hassignment, fun s hs => ?_⟩
  obtain ⟨g, hg, hoperations, hdevice⟩ := counterpart_mem hgroups.flip hs
  obtain ⟨hne, hassigned⟩ := assigned_of_group hvalid hassignment hg
  rw [hoperations]
  exact ⟨hne, g.device, hdevice, hassigned⟩

end Placed

end Plan

end NeuralDispatch

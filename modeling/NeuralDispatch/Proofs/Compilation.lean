import NeuralDispatch.Proofs.Partition
import NeuralDispatch.Proofs.Preparation

/-!
# Every plan over reference drivers compiles

A device is asked about the whole model, or not at all where it goes by what it has declared, and
later it is handed the model of a step.  The driver accepts whatever it is handed then.

* `Step.Suits` — what a driver checks before it prepares the model of a step.
* `Carving.suits` — the steps that a model is split into suit the drivers that they are placed on.
* `compiles` — a plan that a partition gives is prepared throughout.
-/

namespace NeuralDispatch

open Answer Model

/-- Whether the model of a step passes all that is checked before the driver of its device prepares
it. -/
structure Step.Suits (s : Step) (d : ReferenceDriver) : Prop where
  /-- The interface of the device can express the model. -/
  compliant : ∃ revision, s.device.handle.revision? = some revision ∧
    s.model.isCompliantWith revision = true
  valid : s.model.validate = .ok ()
  supported : ∀ k < s.model.operations.length,
    ∃ signature ∈ d.config.signatures, s.model.signature k = .ok signature

/-- What suits a driver is prepared, if preparations are to end with success. -/
theorem Step.Suits.prepare_ok {s : Step} {d : ReferenceDriver} (h : s.Suits d)
    (hover : s.device.Over d) (hstatus : d.config.preparationStatus = .success)
    (preference : Preference) :
    s.prepare preference = .ok (ReferenceModel.toPrepared ⟨d, s.model⟩) := by
  obtain ⟨revision, hrevision, hcompliant⟩ := h.compliant
  rw [hover.handle_eq, d.revision?_toDriver, Option.some.injEq] at hrevision
  subst hrevision
  exact Step.prepare_ok hover hstatus (ReferenceDriver.accepts_iff.2 ⟨h.valid, h.supported⟩)
    hcompliant preference

namespace Plan

/-- The steps that a model is split into suit the drivers that they are placed on. -/
theorem Carving.suits {whole : Model} {steps : List Step} {flow : Flow}
    (hcarving : Carving whole steps) (hassembly : Assembly whole steps flow) {c : Nat} {s : Step}
    {links : List Link} (hs : steps[c]? = some s) (hlinks : flow.crossOutputs[c]? = some links)
    {d : ReferenceDriver} (hover : s.device.Over d) {flags : List Bool}
    (hsupport : Assignment.support whole s.device = .ok flags)
    (hflags : ∀ i ∈ s.operations, flags.getD i false = true) :
    (s.finished links whole.relaxed).Suits d := by
  have hmem := List.mem_of_getElem? hs
  have hfilled := (hcarving.carved s hmem).filled
  have hsupports := fun i hi => hover.supports_of_support hsupport (hflags i hi)
  -- one operation is enough to know that the driver has been able to take the whole model
  obtain ⟨first, hfirst⟩ := List.exists_mem_of_ne_nil _ (hcarving.operations_ne s hmem)
  refine ⟨⟨d.config.revision, ?_, ?_⟩, ?_, ?_⟩
  · show s.device.handle.revision? = some d.config.revision
    rw [hover.handle_eq, d.revision?_toDriver]
  · exact hfilled.isCompliantWith links (hsupports first hfirst).2
  · exact validate_eq_ok_iff.2 (hassembly.finished c s links hs hlinks)
  · intro k hk
    exact ReferenceDriver.supports_iff.1
      (hfilled.supports (fun i hi => (hsupports i hi).1) k hk)

/-- Only well-formed models are partitioned. -/
theorem validate_of_partition {m : Model} {devices : List Device} {preference : Preference}
    {p : Plan} (h : partition m devices preference = .ok p) : m.validate = .ok () := by
  rw [partition] at h
  obtain ⟨u, hvalid, -⟩ := bind_eq_ok.1 h
  exact mapError_eq_ok.1 hvalid

/-- A plan that a partition gives over reference drivers is prepared throughout, whatever the
preferences, with one prepared model for each step: every step lies on one of the devices, and its
model can be expressed by the interface of that device, is well formed and consists of operations
that its driver declares. -/
theorem compiles {m : Model} (hbuilt : Built m) {devices : List Device}
    (hdevices : ∀ device ∈ devices, ∃ d : ReferenceDriver, device.Over d ∧
      d.config.preparationStatus = .success)
    {preference : Preference} {p : Plan} (hplan : partition m devices preference = .ok p) :
    (∀ preference', ∃ models, models.length = p.steps.length ∧
        p.prepare preference' = .ok ⟨p, models⟩) ∧
      ∀ s ∈ p.steps, s.device ∈ devices ∧ ∀ d, s.device.Over d → s.Suits d := by
  obtain ⟨steps, flow, hcarving, hassembly, rfl, hplaced⟩ :=
    partition_eq_ok hbuilt (validate_of_partition hplan) hplan
  have hsuits : ∀ s ∈ (assembled m steps flow).steps,
      s.device ∈ devices ∧ ∀ d, s.device.Over d → s.Suits d := by
    intro s hs
    obtain ⟨c, hc⟩ := List.mem_iff_getElem?.1 hs
    obtain ⟨t, links, ht, hlinks, rfl⟩ := getElem?_assembled.1 hc
    obtain ⟨hdevice, flags, hsupport, hflags⟩ := hplaced t (List.mem_of_getElem? ht)
    exact ⟨hdevice, fun d hover => hcarving.suits hassembly ht hlinks hover hsupport hflags⟩
  refine ⟨fun preference' => ?_, hsuits⟩
  have hprepared : ∀ s ∈ (assembled m steps flow).steps,
      ∃ model, s.prepare preference' = .ok model := by
    intro s hs
    obtain ⟨hdevice, hall⟩ := hsuits s hs
    obtain ⟨d, hover, hstatus⟩ := hdevices s.device hdevice
    exact ⟨_, (hall d hover).prepare_ok hover hstatus preference'⟩
  obtain ⟨models, hmodels⟩ := mapM_ok_of_forall hprepared
  refine ⟨models, (mapM_eq_ok.1 hmodels).length_eq.symm, ?_⟩
  rw [prepare, if_pos (show (assembled m steps flow).finished = true from rfl), hmodels]
  rfl

theorem over_specialist (name : String) (operation : OperationType) :
    ∃ d : ReferenceDriver, (specialist name operation).Over d ∧
      d.config.preparationStatus = .success ∧ d.config.executionStatus = .success :=
  ⟨_, ⟨_, _, Or.inr rfl⟩, rfl, rfl⟩

/-- Each of two devices prepares the operation that it has been given. -/
theorem compiles_chain :
    ∃ p models, partition chain specialists .fastSingleAnswer = .ok p ∧
      p.prepare .lowPower = .ok ⟨p, models⟩ ∧ models.length = p.steps.length ∧
      p.steps.length = 2 ∧
      ∀ s ∈ p.steps, s.device ∈ specialists ∧ ∀ d, s.device.Over d → s.Suits d := by
  obtain ⟨p, hplan⟩ : ∃ p, partition chain specialists .fastSingleAnswer = .ok p := ⟨_, rfl⟩
  have hdevices : ∀ device ∈ specialists, ∃ d : ReferenceDriver, device.Over d ∧
      d.config.preparationStatus = .success := by
    simp only [specialists, List.forall_mem_cons]
    exact ⟨(over_specialist _ _).imp fun d h => ⟨h.1, h.2.1⟩,
      (over_specialist _ _).imp fun d h => ⟨h.1, h.2.1⟩, by simp⟩
  obtain ⟨hprepare, hsuits⟩ := compiles ⟨_, rfl⟩ hdevices hplan
  obtain ⟨models, hcount, hmodels⟩ := hprepare .lowPower
  refine ⟨p, models, hplan, hmodels, hcount, ?_, hsuits⟩
  have hlength : (partition chain specialists .fastSingleAnswer).map (·.steps.length) = .ok 2 := by
    rfl
  rw [hplan] at hlength
  exact Except.ok.inj hlength

end Plan

end NeuralDispatch

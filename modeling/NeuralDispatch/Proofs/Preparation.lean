import NeuralDispatch.Plan.Run
import NeuralDispatch.Proofs.Admission
import NeuralDispatch.Proofs.Devices
import NeuralDispatch.Proofs.Steps

/-!
# Preparing parts of a model on reference drivers

A device that supports the operations of a step prepares its model, although it has been asked about
the whole model only, or not at all.

* `isCompliantWith_iff` — which revisions can express a model.
* `supports_of_support` — what a device over a reference driver is taken to support, its driver
  supports in a model that it can be handed.
* `Filled.signature` — the operations of a step have the signatures of the originals.
* `prepare_ok` — such a step is prepared.
* `executeSynchronously_ok` — a prepared model runs as it is interpreted.
-/

namespace NeuralDispatch

open Answer Model

/-! ## Revisions -/

namespace Revision

theorem newer_le {a b c : Revision} : newer a b ≤ c ↔ a ≤ c ∧ b ≤ c := by
  cases a <;> cases b <;> cases c <;> decide

theorem foldl_newer_le {rs : List Revision} {a c : Revision} :
    rs.foldl newer a ≤ c ↔ a ≤ c ∧ ∀ r ∈ rs, r ≤ c := by
  induction rs generalizing a with
  | nil => simp
  | cons r rest ih => rw [List.foldl_cons, ih, newer_le, List.forall_mem_cons, and_assoc]

theorem le_newest (r : Revision) : r ≤ .v1_2 := by cases r <;> decide

end Revision

/-- Which revisions can express a model. -/
theorem Model.isCompliantWith_iff {m : Model} {r : Revision} :
    m.isCompliantWith r = true ↔
      (if m.relaxed then Revision.v1_1 else .v1_0) ≤ r ∧
        (∀ op ∈ m.operations, op.type.introducedIn ≤ r) ∧
        ∀ o ∈ m.operands, o.type.introducedIn ≤ r := by
  rw [isCompliantWith, decide_eq_true_iff, minRevision, Revision.foldl_newer_le,
    List.forall_mem_append, List.forall_mem_map, List.forall_mem_map]

theorem Model.isCompliantWith_newest (m : Model) : m.isCompliantWith .v1_2 = true := by
  refine isCompliantWith_iff.2
    ⟨?_, fun op _ => Revision.le_newest _, fun o _ => Revision.le_newest _⟩
  exact Revision.le_newest _

/-! ## Devices over reference drivers -/

/-- Whether a device is one over a reference driver, asked for its declarations or not yet. -/
def Device.Over (device : Device) (d : ReferenceDriver) : Prop :=
  ∃ name coverage, device = .new name d.toDriver coverage ∨
    device = (Device.new name d.toDriver coverage).activate.1

namespace ReferenceDriver

variable (d : ReferenceDriver) (m : Model)

/-- What the driver answers with success about the support of a model that it can be handed. -/
theorem supportedOperations_toDriver {status : Status} {flags : List Bool}
    (h : (DriverHandle.ofDriver d.toDriver).supportedOperations m = .ok (status, flags))
    (hstatus : status.isOk = true) :
    m.isCompliantWith d.config.revision = true ∧ flags = d.flags m := by
  rw [supportedOperations_eq] at h
  cases hobjection : d.objection? m with
  | some refused =>
    rw [hobjection] at h
    obtain ⟨rfl, -⟩ := Prod.mk.inj (Except.ok.inj h)
    exact absurd (Status.isOk_iff.1 hstatus) (ne_success_of_objection? hobjection)
  | none =>
    rw [hobjection] at h
    exact ⟨(objection?_eq_none_iff.1 hobjection).1, (Prod.mk.inj (Except.ok.inj h)).2.symm⟩

/-- Only a driver of the newest revision gets to declare signatures. -/
theorem capabilities_toDriver :
    ∃ capabilities, (DriverHandle.ofDriver d.toDriver).capabilities =
        .ok (d.config.queryStatus, capabilities) ∧
      (capabilities.signatures ≠ [] →
        d.config.revision = .v1_2 ∧ capabilities.signatures = d.config.signatures) := by
  cases h : d.config.revision with
  | v1_0 => exact ⟨_, by simp [DriverHandle.ofDriver, toDriver, h]; rfl, fun hne => absurd rfl hne⟩
  | v1_1 => exact ⟨_, by simp [DriverHandle.ofDriver, toDriver, h]; rfl, fun hne => absurd rfl hne⟩
  | v1_2 => exact ⟨_, by simp [DriverHandle.ofDriver, toDriver, h]; rfl, fun _ => ⟨rfl, rfl⟩⟩

end ReferenceDriver

namespace Device.Over

variable {device : Device} {d : ReferenceDriver} {m : Model}

theorem handle_eq (h : device.Over d) : device.handle = .ofDriver d.toDriver := by
  obtain ⟨name, coverage, rfl | rfl⟩ := h
  · rfl
  · rw [(activate_keeps _).1]
    rfl

/-- The signatures that a device may go by are declared by its driver, of the newest revision. -/
theorem declared (h : device.Over d) (hdeclared : device.hasSignatures = true) :
    d.config.revision = .v1_2 ∧ ∀ s ∈ device.signatures, s ∈ d.config.signatures := by
  have hinitialized : device.Initialized := by
    obtain ⟨name, coverage, rfl | hactivated⟩ := h
    · simp [hasSignatures, Device.new] at hdeclared
    · exact ⟨name, d.toDriver, coverage, hactivated⟩
  obtain ⟨capabilities, hcapabilities, hsignatures⟩ := d.capabilities_toDriver
  obtain ⟨hsome, -⟩ := hinitialized.hasSignatures_iff.1 hdeclared
  have hlisted : ∀ s ∈ device.signatures, s ∈ device.declared.signatures := fun s hs =>
    ((hinitialized.declarations.2 s).1 hs).1
  have hanswer : device.declared = if d.config.queryStatus.isOk then capabilities else {} := by
    rw [Device.declared, h.handle_eq, hcapabilities]
  rw [hanswer] at hsome hlisted
  split at hsome
  · next hstatus =>
    obtain ⟨hrevision, heq⟩ := hsignatures hsome
    rw [if_pos hstatus, heq] at hlisted
    exact ⟨hrevision, hlisted⟩
  · exact absurd rfl hsome

/-- An operation that a device is found to support, by asking the driver, is one that the driver
supports in a model that it can be handed. -/
theorem supports_of_asked (h : device.Over d) {flags : List Bool}
    (hflags : device.supportedOperations m = .ok flags) {i : Nat} (hi : flags.getD i false = true) :
    d.supports m i = true ∧ m.isCompliantWith d.config.revision = true := by
  obtain ⟨answer, hanswer, hflag, -⟩ := (supportedOperations_getD hflags i).1 hi
  rw [h.handle_eq] at hanswer
  obtain ⟨hcompliant, rfl⟩ := d.supportedOperations_toDriver m hanswer rfl
  rw [ReferenceDriver.flags, List.getElem?_map] at hflag
  obtain ⟨j, hj, hsupports⟩ := Option.map_eq_some_iff.1 hflag
  obtain ⟨hlt, rfl⟩ := List.getElem?_eq_some_iff.1 hj
  rw [List.getElem_range] at hsupports
  exact ⟨hsupports, hcompliant⟩

/-- What a device is taken to support its driver supports in a model that it can be handed. -/
theorem supports_of_support (h : device.Over d) {flags : List Bool}
    (hflags : Assignment.support m device = .ok flags) {i : Nat}
    (hi : flags.getD i false = true) :
    d.supports m i = true ∧ m.isCompliantWith d.config.revision = true := by
  by_cases hdeclared : device.hasSignatures = true
  · obtain ⟨hrevision, hsignatures⟩ := h.declared hdeclared
    obtain ⟨s, hs, hsupports⟩ := (Assignment.getD_support_declared hdeclared hflags).1 hi
    refine ⟨ReferenceDriver.supports_iff.2 ⟨s, ?_, hs⟩, hrevision ▸ m.isCompliantWith_newest⟩
    exact hsignatures s (List.contains_iff_mem.1 hsupports)
  · rw [Assignment.support, if_neg hdeclared] at hflags
    exact h.supports_of_asked (mapError_eq_ok.1 hflags) hi

/-- Whether a device supports the operations of a model is always answered by a reference driver. -/
theorem support_ok (h : device.Over d) (sound : Sound m) :
    ∃ flags, Assignment.support m device = .ok flags := by
  rw [Assignment.support]
  split
  · refine mapM_ok_of_forall fun i hi => ?_
    obtain ⟨s, hs⟩ := sound.signature_ok (List.mem_range.1 hi)
    exact ⟨_, by rw [hs]; rfl⟩
  · obtain ⟨answer, hanswer⟩ : ∃ answer, device.handle.supportedOperations m = .ok answer :=
      ⟨_, by rw [h.handle_eq, ReferenceDriver.supportedOperations_eq]⟩
    rw [Device.supportedOperations, hanswer, ok_bind]
    dsimp only
    split
    · exact ⟨_, rfl⟩
    · split <;> exact ⟨_, rfl⟩

end Device.Over

/-! ## Preparing and running -/

/-- A device over a reference driver prepares what its driver accepts and can be handed. -/
theorem Step.prepare_ok {s : Step} {d : ReferenceDriver} (h : s.device.Over d)
    (hstatus : d.config.preparationStatus = .success) (haccepts : d.accepts s.model = true)
    (hcompliant : s.model.isCompliantWith d.config.revision = true) (preference : Preference) :
    s.prepare preference = .ok (ReferenceModel.toPrepared ⟨d, s.model⟩) := by
  rw [Step.prepare, h.handle_eq, ReferenceDriver.prepare_of_accepts hcompliant haccepts hstatus]

/-- What a device over a reference driver prepares for a step is the model of the step. -/
theorem Step.eq_of_prepare {s : Step} {d : ReferenceDriver} (h : s.device.Over d)
    {preference : Preference} {model : PreparedModel}
    (hprepare : s.prepare preference = .ok model) :
    model = ReferenceModel.toPrepared ⟨d, s.model⟩ := by
  rw [Step.prepare, h.handle_eq, ReferenceDriver.prepare_eq] at hprepare
  cases hobjection : d.objection? s.model with
  | some refused =>
    rw [hobjection] at hprepare
    have hne := ReferenceDriver.ne_success_of_objection? hobjection
    cases refused <;> first | exact absurd rfl hne | cases hprepare
  | none =>
    rw [hobjection] at hprepare
    dsimp only at hprepare
    by_cases haccepts : d.accepts s.model = true
    · rw [if_pos haccepts, ReferenceDriver.launch] at hprepare
      cases hstatus : d.config.preparationStatus <;> rw [hstatus] at hprepare
      case success => exact (Except.ok.inj hprepare).symm
      all_goals cases hprepare
    · rw [if_neg haccepts] at hprepare
      cases hprepare

theorem ReferenceModel.accepts_iff {p : ReferenceModel} {r : Request} :
    p.accepts r = true ↔ r.inputs.length = p.model.inputs.length ∧
      r.outputs.length = p.model.outputs.length ∧
      ∀ a ∈ r.inputs ++ r.outputs, a.pool < r.pools.length := by
  simp only [accepts, Bool.and_eq_true, beq_iff_eq, List.all_eq_true, decide_eq_true_iff,
    and_assoc]

/-- The request for as many buffers as a model takes and returns is accepted. -/
theorem ReferenceModel.accepts_ofBuffers {p : ReferenceModel} {inputs : List Bytes}
    {lengths : List Nat} (hinputs : inputs.length = p.model.inputs.length)
    (hlengths : lengths.length = p.model.outputs.length) :
    p.accepts (.ofBuffers inputs lengths) = true := by
  have hpools : ∀ a ∈ (Request.ofBuffers inputs lengths).inputs ++
      (Request.ofBuffers inputs lengths).outputs,
      a.pool < (Request.ofBuffers inputs lengths).pools.length := by
    intro a ha
    simp only [Request.ofBuffers, List.length_append, List.length_map] at ha ⊢
    rcases List.mem_append.1 ha with ha | ha
    · obtain ⟨⟨bytes, i⟩, hi, rfl⟩ := List.mem_map.1 ha
      have hlt := (List.getElem?_eq_some_iff.1 (List.mem_zipIdx_iff_getElem?.1 hi)).1
      exact Nat.lt_add_right _ hlt
    · obtain ⟨⟨length, i⟩, hi, rfl⟩ := List.mem_map.1 ha
      have hlt := (List.getElem?_eq_some_iff.1 (List.mem_zipIdx_iff_getElem?.1 hi)).1
      exact Nat.add_lt_add_left hlt _
  refine accepts_iff.2 ⟨?_, ?_, hpools⟩
  · simpa [Request.ofBuffers] using hinputs
  · simpa [Request.ofBuffers] using hlengths

/-- Measuring a run changes nothing but its timing. -/
theorem ReferenceModel.run_measured (p : ReferenceModel) (r : Request) (measure : Bool) :
    (p.run r measure).1 = (p.run r false).1 ∧
      (p.run r measure).2.status = (p.run r false).2.status := by
  unfold run compute
  split
  · split <;> exact ⟨rfl, rfl⟩
  · exact ⟨rfl, rfl⟩

/-- At the newest revision the report of an execution is that of the run, cleaned. -/
theorem ReferenceModel.executeSynchronously_newest (p : ReferenceModel) (r : Request)
    (measure : Bool) (hnewest : Revision.v1_2 ≤ p.driver.config.revision) :
    p.toPrepared.executeSynchronously r measure =
      ({ r with pools := (p.run r measure).1.pools },
        .ok ((p.run r measure).2.sanitize measure)) := by
  simp only [PreparedModel.executeSynchronously, toPrepared, if_pos hnewest,
    PreparedModel.V1_2.report]
  rfl

/-- A prepared model is always answered for, with the memory and the status of its run, whatever
revision it is used through. -/
theorem ReferenceModel.executeSynchronously_eq (p : ReferenceModel) (r : Request)
    (measure : Bool) :
    ∃ report, p.toPrepared.executeSynchronously r measure =
        ({ r with pools := (p.run r false).1.pools }, .ok report) ∧
      report.status = (p.run r false).2.status := by
  by_cases hnewest : Revision.v1_2 ≤ p.driver.config.revision
  · obtain ⟨hmemory, hstatus⟩ := p.run_measured r measure
    refine ⟨(p.run r measure).2.sanitize measure, ?_, hstatus⟩
    rw [p.executeSynchronously_newest r measure hnewest, hmemory]
  · by_cases haccepts : p.accepts r = true
    · refine ⟨({ status := (p.run r false).2.status } : Execution).sanitize measure, ?_, rfl⟩
      simp only [PreparedModel.executeSynchronously, toPrepared, if_neg hnewest, launch, haccepts]
      rfl
    · have hrun : p.run r false = (r, { status := .invalidArgument }) := by
        rw [ReferenceModel.run, if_neg haccepts]
      refine ⟨({ status := .invalidArgument } : Execution).sanitize measure, ?_, by rw [hrun]; rfl⟩
      simp only [PreparedModel.executeSynchronously, toPrepared, if_neg hnewest, launch, haccepts,
        hrun]
      rfl

/-- A run that succeeds is an interpretation that does. -/
theorem ReferenceModel.run_of_success {p : ReferenceModel} {r : Request}
    (h : (p.run r false).2.status = .success) :
    p.accepts r = true ∧ (p.run r false).1 = (Interpreter.run p.model r).1 ∧
      (Interpreter.run p.model r).2.status = .success := by
  unfold run compute at h ⊢
  split at h
  · next haccepts =>
    rw [if_pos haccepts]
    split at h
    · next hstatus =>
      rw [if_pos hstatus]
      exact ⟨haccepts, rfl, h⟩
    · next hstatus => exact absurd (Status.isOk_iff.2 h) hstatus
  · cases h

/-- An accepted request that is interpreted with success runs with success. -/
theorem ReferenceModel.executeSynchronously_ok {p : ReferenceModel}
    (hstatus : p.driver.config.executionStatus = .success) {r r' : Request} {report : Execution}
    (haccepts : p.accepts r = true) (hrun : Interpreter.run p.model r = (r', report))
    (hreport : report.status = .success) (measure : Bool) :
    ∃ report', p.toPrepared.executeSynchronously r measure =
      ({ r with pools := r'.pools }, .ok report') ∧ report'.status = .success := by
  have hcompute : p.run r false = (r', { report with timing := .unavailable }) := by
    rw [ReferenceModel.run, if_pos haccepts, compute, hstatus, hrun]
    rfl
  obtain ⟨report', hexecute, hsame⟩ := p.executeSynchronously_eq r measure
  rw [hcompute] at hexecute hsame
  exact ⟨report', hexecute, hsame.trans hreport⟩

/-! ## Parts of a model -/

theorem Model.signature_of_first {m : Model} {i first : Nat} {op : Operation} {rest : List Nat}
    {operand : Operand} (hop : m.operations[i]? = some op)
    (hfirst : op.inputs ++ op.outputs = first :: rest)
    (hoperand : m.operands[first]? = some operand) :
    m.signature i = .ok ⟨op.type, operand.type⟩ := by
  rw [Model.signature, operation, hop, ok_bind, hfirst]
  dsimp only
  rw [operand_eq_ok.2 hoperand]
  rfl

namespace Step

/-- An operation has the same signature under other positions, if the operands that it touches have
the same types there. -/
theorem Translated.signature {whole m : Model} {operands : List Nat} {i k : Nat} {op : Operation}
    (h : Translated whole operands i op) (hop : m.operations[k]? = some op) (hne : op.outputs ≠ [])
    (types : ∀ place o : Nat, operands[place]? = some o → ∃ source operand,
      whole.operands[o]? = some source ∧ m.operands[place]? = some operand ∧
        operand.type = source.type) :
    ∃ signature, whole.signature i = .ok signature ∧ m.signature k = .ok signature := by
  obtain ⟨source, hsource, htype, hinputs, houtputs⟩ := h
  have htouched : List.Forall₂ (fun o place => operands[place]? = some o)
      (source.inputs ++ source.outputs) (op.inputs ++ op.outputs) :=
    List.rel_append hinputs houtputs
  obtain ⟨place, places, hplaces⟩ : ∃ place places, op.inputs ++ op.outputs = place :: places :=
    List.exists_cons_of_ne_nil fun hnil => hne (List.append_eq_nil_iff.1 hnil).2
  rw [hplaces] at htouched
  obtain ⟨o, rest, ho, -, hfirst⟩ := List.forall₂_cons_right_iff.1 htouched
  obtain ⟨original, operand, horiginal, hoperand, hsame⟩ := types place o ho
  refine ⟨_, signature_of_first hsource hfirst horiginal, ?_⟩
  rw [signature_of_first hop hplaces hoperand, htype, hsame]

section Filled

variable {whole : Model} {s : Step} {links : List Link} {relaxed : Bool}

/-- The operands of a step have the types of the originals. -/
theorem Filled.operand_type (h : Filled whole s) {place o : Nat} {source : Operand}
    (ho : s.operands[place]? = some o) (hsource : whole.operands[o]? = some source) :
    ∃ operand, (s.finished links relaxed).model.operands[place]? = some operand ∧
      operand.type = source.type ∧ operand.dimensions = source.dimensions := by
  obtain ⟨source', hsource', hlocal⟩ := h.finished_operand ho
  obtain rfl := Option.some.inj (hsource.symm.trans hsource')
  refine ⟨_, hlocal, ?_, ?_⟩
  · show (importOperand source).type = source.type
    unfold importOperand
    split <;> rfl
  · show (importOperand source).dimensions = source.dimensions
    unfold importOperand
    split <;> rfl

/-- The operations of a step have the signatures of the originals. -/
theorem Filled.signature (h : Filled whole s) {k i : Nat} (hk : s.operations[k]? = some i)
    {signature : Signature} (hi : whole.signature i = .ok signature) :
    (s.finished links relaxed).model.signature k = .ok signature := by
  obtain ⟨op, hop, htranslated⟩ := counterpart h.translated hk
  obtain ⟨signature', hwhole, hlocal⟩ := htranslated.signature
    (m := (s.finished links relaxed).model) hop
    (h.built.sound.computes op (List.mem_of_getElem? hop)) fun place o ho => by
      obtain ⟨source, hsource, -⟩ := h.copied place o ho
      obtain ⟨operand, hoperand, htype, -⟩ := h.operand_type ho hsource
      exact ⟨source, operand, hsource, hoperand, htype⟩
  obtain rfl := Except.ok.inj (hi.symm.trans hwhole)
  exact hlocal

/-- A driver that supports the originals supports the operations of a step. -/
theorem Filled.supports (h : Filled whole s) {d : ReferenceDriver}
    (hall : ∀ i ∈ s.operations, d.supports whole i = true) :
    ∀ k < (s.finished links relaxed).model.operations.length,
      d.supports (s.finished links relaxed).model k = true := by
  intro k hk
  have hlength : k < s.operations.length := by
    rw [h.translated.length_eq]
    exact hk
  have hi := List.getElem?_eq_getElem hlength
  have hsupports := hall _ (List.mem_of_getElem? hi)
  rw [ReferenceDriver.supports] at hsupports ⊢
  split at hsupports
  · next signature hsignature =>
    rw [h.signature hi hsignature]
    exact hsupports
  · cases hsupports

/-- A revision that can express a model can express its parts. -/
theorem Filled.isCompliantWith (h : Filled whole s) (links : List Link) {r : Revision}
    (hwhole : whole.isCompliantWith r = true) :
    (s.finished links whole.relaxed).model.isCompliantWith r = true := by
  obtain ⟨hrelaxed, hoperations, hoperands⟩ := isCompliantWith_iff.1 hwhole
  refine isCompliantWith_iff.2 ⟨hrelaxed, fun op hop => ?_, fun operand hoperand => ?_⟩
  · obtain ⟨i, -, source, hsource, htype, -⟩ := counterpart_mem h.translated.flip hop
    rw [htype]
    exact hoperations source (List.mem_of_getElem? hsource)
  · obtain ⟨place, hplace⟩ := List.mem_iff_getElem?.1 hoperand
    have hlt := (List.getElem?_eq_some_iff.1 hplace).1
    rw [h.length_finished] at hlt
    have ho := List.getElem?_eq_getElem hlt
    obtain ⟨source, hsource, -⟩ := h.copied place _ ho
    obtain ⟨operand', hoperand', htype, -⟩ := h.operand_type ho hsource
    obtain rfl := Option.some.inj (hplace.symm.trans hoperand')
    rw [htype]
    exact hoperands source (List.mem_of_getElem? hsource)

end Filled

end Step

end NeuralDispatch

import NeuralDispatch.Proofs.Compilation
import NeuralDispatch.Proofs.Runs

/-!
# Running a partitioned model

A model that is split over devices returns what a direct interpretation of the whole model does,
however it is split.

* `Interpretation.prepare_ok` — every step of a partitioned model is prepared, and advances the
  interpretation if regions can span what it returns.
* `Portable` — whether regions can span what the steps of a plan hand to each other.
* `execute_refines` — then the plan returns the bytes that the direct interpretation writes, and
  refuses any other number of buffers than the model has inputs.
-/

namespace NeuralDispatch

open Answer Model Interpreter

/-- The values of a run are an interpretation, if they are exact. -/
theorem interpretation_of_values {m : Model} (hbuilt : Built m) (hvalid : m.validate = .ok ())
    (htidy : m.Tidy) {inputs : List Bytes} {lengths : List Nat} {v : Valuation}
    (hvalues : values m (.ofBuffers inputs lengths) = .ok v) (hexact : Exact m v) :
    Interpretation m inputs v :=
  have hwell := validate_eq_ok_iff.1 hvalid
  ⟨hwell, hbuilt.sound, htidy, explains_of_values hwell (htidy.not_written hwell) hvalues, hexact⟩

namespace Interpretation

variable {whole : Model} {inputs : List Bytes} {v : Valuation} {steps : List Step}
  {flow : Plan.Flow}

/-- A run that succeeds has values for all outputs. -/
theorem known_of_run (h : Interpretation whole inputs v) {lengths : List Nat}
    (hlengths : outputLengths whole = some lengths)
    (hvalues : values whole (.ofBuffers inputs lengths) = .ok v)
    (hstatus : (run whole (.ofBuffers inputs lengths)).2.status = .success) :
    ∀ o ∈ whole.outputs, v.contents o ≠ none := by
  intro o ho
  obtain ⟨outputs, houtputs, -, -⟩ :=
    outputs_of_run h.valid h.explains h.exact hlengths hvalues hstatus
  obtain ⟨bytes, -, data, hdata, -⟩ := counterpart_mem houtputs ho
  simp [hdata]

/-- What a step returns it computes, in a place of its own, and it has a value. -/
theorem returned_known (h : Interpretation whole inputs v)
    (houtputs : ∀ o ∈ whole.outputs, v.contents o ≠ none) (hcarving : Plan.Carving whole steps)
    (hassembly : Plan.Assembly whole steps flow) {c : Nat} {s : Step} {links : List Link}
    (hs : steps[c]? = some s) (hlinks : flow.crossOutputs[c]? = some links) :
    ∀ link ∈ s.modelOutputs ++ links, s.operands[link.place]? = some link.operand ∧
      link.operand ∈ Plan.computed whole s ∧ v.contents link.operand ≠ none := by
  intro link hlink
  obtain ⟨hplace, hcomputed⟩ := hcarving.placed_output hassembly hs hlinks link hlink
  refine ⟨hplace, hcomputed, ?_⟩
  rcases List.mem_append.1 hlink with hmodel | hcross
  · obtain ⟨-, source, hsource, hlifetime⟩ :=
      (hcarving.carved s (List.mem_of_getElem? hs)).filled.modelOutputs link hmodel
    exact houtputs _ ((h.tidy.outputs _ source hsource).1 hlifetime)
  · -- another step reads it, and so does one of its operations
    obtain ⟨-, ⟨d, hread⟩, -, -⟩ := hassembly.tracks.handed c links hlinks link hcross
    obtain ⟨t, ht, -, hcross⟩ := Plan.mem_reads.1 hread
    obtain ⟨i, -, op, hop, ho⟩ :=
      Step.mem_consumed.1 ((hcarving.carved t ht).foreign _ hcross).1
    obtain ⟨data, hdata⟩ := h.known_of_read (List.mem_of_getElem? hop) ho
    simp [hdata]

/-- Every step of a model that is partitioned over reference drivers is prepared as it is, and
advances the interpretation if regions can span what it returns. -/
theorem prepare_ok (h : Interpretation whole inputs v)
    (houtputs : ∀ o ∈ whole.outputs, v.contents o ≠ none) (hcarving : Plan.Carving whole steps)
    (hassembly : Plan.Assembly whole steps flow) {devices : List Device}
    (hdevices : ∀ device ∈ devices, ∃ d : ReferenceDriver, device.Over d ∧
      d.config.preparationStatus = .success ∧ d.config.executionStatus = .success)
    (hplaced : ∀ s ∈ steps, s.device ∈ devices ∧ ∃ flags,
      Assignment.support whole s.device = .ok flags ∧
        ∀ i ∈ s.operations, flags.getD i false = true) (preference : Preference) :
    ∃ models, (Plan.assembled whole steps flow).prepare preference =
        .ok ⟨Plan.assembled whole steps flow, models⟩ ∧
      List.Forall₂ (fun s model => (s.Spanned v.contents → s.Advances v.contents model) ∧
        ∃ d : ReferenceDriver, model = ReferenceModel.toPrepared ⟨d, s.model⟩)
          (Plan.assembled whole steps flow).steps models := by
  have hstep : ∀ t ∈ (Plan.assembled whole steps flow).steps, ∃ model,
      t.prepare preference = .ok model ∧ (t.Spanned v.contents → t.Advances v.contents model) ∧
        ∃ d : ReferenceDriver, model = ReferenceModel.toPrepared ⟨d, t.model⟩ := by
    intro t ht
    obtain ⟨c, hc⟩ := List.mem_iff_getElem?.1 ht
    obtain ⟨s, links, hs, hlinks, rfl⟩ := Plan.getElem?_assembled.1 hc
    obtain ⟨hdevice, flags, hsupport, hflags⟩ := hplaced s (List.mem_of_getElem? hs)
    obtain ⟨d, hover, hpreparation, hexecution⟩ := hdevices s.device hdevice
    have hsuits := hcarving.suits hassembly hs hlinks hover hsupport hflags
    refine ⟨_, hsuits.prepare_ok hover hpreparation preference, fun hspanned => ?_, d, rfl⟩
    exact h.advances (hcarving.carved s (List.mem_of_getElem? hs)).filled
      (hassembly.finished c s links hs hlinks)
      (h.returned_known houtputs hcarving hassembly hs hlinks) hspanned hexecution
  obtain ⟨models, hmodels, hadvances⟩ := mapM_ok_of_forall_related hstep
  refine ⟨models, ?_, hadvances⟩
  rw [Plan.prepare, if_pos (show (Plan.assembled whole steps flow).finished = true from rfl),
    hmodels]
  rfl

/-- The values of the inputs are the buffers of the caller, the last ones where an operand is listed
several times. -/
theorem supplied_input (h : Interpretation whole inputs v) {o : Nat} (ho : o ∈ whole.inputs) :
    v.contents.Supplied (whole.inputs.zip inputs).reverse o := by
  obtain ⟨bytes, hbytes⟩ := exists_lookup_zip h.explains.enough ho
  refine ⟨bytes, hbytes, h.explains.holds o (Request.visible bytes) ?_⟩
  rw [given, List.reverse_append, List.lookup_append, lookup_zip_visible, hbytes, Option.map_some,
    Option.some_or]

/-- The steps return the values of all outputs if there is a buffer for every input, and are not
run otherwise. -/
theorem execute_assembled (h : Interpretation whole inputs v)
    (hassembly : Plan.Assembly whole steps flow) {models : List PreparedModel}
    (hadvances : List.Forall₂ (fun s model => s.Advances v.contents model)
      (Plan.assembled whole steps flow).steps models)
    {outputs : List Bytes} (houtputs : List.Forall₂ v.contents.Holds whole.outputs outputs)
    (measure : Bool) :
    PreparedPlan.execute ⟨Plan.assembled whole steps flow, models⟩ inputs measure =
      if inputs.length = whole.inputs.length then .ok outputs
      else .error (.invalidValue (.inputCount whole.inputs.length inputs.length)) := by
  have hsteps : ((Plan.assembled whole steps flow).steps.zip models).map (·.1) =
      (Plan.assembled whole steps flow).steps := List.map_fst_zip hadvances.length_eq.le
  have hfed := hassembly.fed fun o source hsource => (h.tidy.inputs o source hsource).1
  obtain ⟨computed, timings, hruns, hcomputed, hall⟩ := runSteps_ok
    (fun e he => List.forall₂_zip hadvances he) (hsteps.symm ▸ hfed)
    (fun o ho => h.supplied_input ho) measure
  have hknown : ∀ o ∈ whole.outputs, o ∈ computed.map (·.1) := fun o ho => by
    obtain ⟨q, t, ht, hmem, -⟩ := hassembly.bookkeeping.returned o ho
    obtain ⟨link, hlink, rfl⟩ := List.mem_map.1 hmem
    exact hall t (hsteps.symm ▸ List.mem_of_getElem? ht) link (List.mem_append_left _ hlink)
  have hreturned : whole.outputs.mapM (PreparedPlan.outputValue
      (computed ++ (whole.inputs.zip inputs).reverse)) = .ok outputs := by
    refine mapM_eq_ok.2 (((List.forall₂_and_left _ _).2 ⟨hknown, houtputs⟩).imp ?_)
    rintro o bytes ⟨hmem, hholds⟩
    obtain ⟨e, he, rfl⟩ := List.mem_map.1 hmem
    obtain ⟨bytes', hbytes'⟩ := exists_lookup_of_mem he
    have hholds' : v.contents.Holds e.1 bytes' := (hcomputed _ (mem_of_lookup hbytes')).holds
    rw [PreparedPlan.outputValue, List.lookup_append, hbytes', Option.some_or]
    exact congrArg Except.ok (hholds'.unique hholds)
  split
  · next hlength => exact PreparedPlan.execute_ok hlength hruns hreturned
  · next hlength => exact PreparedPlan.execute_error hlength

end Interpretation

/-- Whether regions can span what the steps of a plan hand to each other: the sizes of these
operands are stated in 32 bits. -/
def Plan.Portable (whole : Model) (p : Plan) : Prop :=
  ∀ s ∈ p.steps, ∀ link ∈ s.crossOutputs, ∀ operand,
    whole.operands[link.operand]? = some operand → ∀ n ∈ operand.byteLength, n < UInt32.size

theorem Plan.portable_of_small {whole : Model}
    (h : ∀ operand ∈ whole.operands, ∀ n ∈ operand.byteLength, n < UInt32.size) (p : Plan) :
    p.Portable whole :=
  fun _ _ _ _ _ hoperand => h _ (List.mem_of_getElem? hoperand)

/-- Regions can span all that the steps of a portable plan return, if they can span the outputs of
the whole model. -/
theorem Interpretation.spanned_of_portable {whole : Model} {inputs : List Bytes} {v : Valuation}
    {steps : List Step} {flow : Plan.Flow} (h : Interpretation whole inputs v)
    {outputs : List Bytes} (houtputs : List.Forall₂ v.contents.Holds whole.outputs outputs)
    (hsmall : ∀ bytes ∈ outputs, bytes.length < UInt32.size)
    (hcarving : Plan.Carving whole steps) (hassembly : Plan.Assembly whole steps flow)
    (hportable : (Plan.assembled whole steps flow).Portable whole) :
    ∀ s ∈ (Plan.assembled whole steps flow).steps, s.Spanned v.contents := by
  intro t ht link hlink bytes hholds
  rcases List.mem_append.1 hlink with hmodel | hcross
  · obtain ⟨c, hc⟩ := List.mem_iff_getElem?.1 ht
    obtain ⟨s, links, hs, -, rfl⟩ := Plan.getElem?_assembled.1 hc
    obtain ⟨-, source, hsource, hlifetime⟩ :=
      (hcarving.carved s (List.mem_of_getElem? hs)).filled.modelOutputs link hmodel
    obtain ⟨output, houtput, hsame⟩ :=
      counterpart_mem houtputs ((h.tidy.outputs _ source hsource).1 hlifetime)
    exact hholds.unique hsame ▸ hsmall output houtput
  · obtain ⟨source, hsource, hlength⟩ := h.byteLength_of_computed
      (hcarving.computed_of_output hassembly ht (List.mem_map.2 ⟨link, hlink, rfl⟩)) hholds
    exact hportable _ ht link hcross source hsource _ hlength

/-- A plan that a partition gives is prepared, and returns the bytes that a direct interpretation
of the whole model writes, if that succeeds and computes as many bytes as the operands take, and
regions can span what the steps hand to each other.  It is refused to run on another number of
buffers than the model has inputs. -/
theorem execute_refines {m : Model} (hbuilt : Built m) (hvalid : m.validate = .ok ())
    (htidy : m.Tidy) {devices : List Device}
    (hdevices : ∀ device ∈ devices, ∃ d : ReferenceDriver, device.Over d ∧
      d.config.preparationStatus = .success ∧ d.config.executionStatus = .success)
    {preference : Preference} {p : Plan} (hplan : Plan.partition m devices preference = .ok p)
    (hportable : p.Portable m) {inputs : List Bytes} {lengths : List Nat}
    (hlengths : outputLengths m = some lengths) {v : Valuation}
    (hvalues : values m (.ofBuffers inputs lengths) = .ok v) (hexact : Exact m v)
    (hstatus : (run m (.ofBuffers inputs lengths)).2.status = .success) :
    ∃ outputs : List Bytes, outputs.length = m.outputs.length ∧
      (∀ k, (run m (.ofBuffers inputs lengths)).1.output k = outputs[k]?) ∧
      ∀ preference', ∃ prepared, p.prepare preference' = .ok prepared ∧
        ∀ measure, prepared.execute inputs measure =
          if inputs.length = m.inputs.length then .ok outputs
          else .error (.invalidValue (.inputCount m.inputs.length inputs.length)) := by
  have h := interpretation_of_values hbuilt hvalid htidy hvalues hexact
  have hknown := h.known_of_run hlengths hvalues hstatus
  obtain ⟨outputs, houtputs, hsmall, hwritten⟩ :=
    outputs_of_run h.valid h.explains hexact hlengths hvalues hstatus
  obtain ⟨steps, flow, hcarving, hassembly, rfl, hplaced⟩ :=
    Plan.partition_eq_ok hbuilt hvalid hplan
  refine ⟨outputs, houtputs.length_eq.symm, hwritten, fun preference' => ?_⟩
  obtain ⟨models, hprepare, hadvances⟩ :=
    h.prepare_ok hknown hcarving hassembly hdevices hplaced preference'
  have hspanned := h.spanned_of_portable houtputs hsmall hcarving hassembly hportable
  exact ⟨_, hprepare, h.execute_assembled hassembly
    (((List.forall₂_and_left _ _).2 ⟨hspanned, hadvances⟩).imp fun _ _ hstep =>
      hstep.2.1 hstep.1) houtputs⟩

/-! ## A chain on two devices -/

section Chain

open Plan

theorem over_specialists : ∀ device ∈ specialists, ∃ d : ReferenceDriver, device.Over d ∧
    d.config.preparationStatus = .success ∧ d.config.executionStatus = .success := by
  simp only [specialists, List.forall_mem_cons]
  exact ⟨over_specialist _ _, over_specialist _ _, by simp⟩

/-- The bytes of `1.5` and `-2.0`. -/
def halves : Bytes := [0x00, 0x00, 0xc0, 0x3f, 0x00, 0x00, 0x00, 0xc0]

theorem interpret_chain (more : List Bytes) :
    ∃ v, values chain (.ofBuffers (halves :: more) [8]) = .ok v ∧ Exact chain v := by
  refine ⟨_, rfl, List.forall_mem_cons.2 ⟨?_, List.forall_mem_cons.2 ⟨?_, by simp⟩⟩⟩
  · exact ⟨1, _, ⟨[2], [⟨0x3fc00000⟩, ⟨0⟩]⟩, rfl, rfl, rfl, rfl⟩
  · exact ⟨2, _, ⟨[2], [⟨0x3f800000⟩, ⟨0⟩]⟩, rfl, rfl, rfl, rfl⟩

/-- The two devices together round `1.5` down, and rectify `-2.0`. -/
theorem execute_refines_chain :
    ∃ p prepared, partition chain specialists .fastSingleAnswer = .ok p ∧
      p.prepare .lowPower = .ok prepared ∧
      prepared.execute [halves] false =
        .ok [[0x00, 0x00, 0x80, 0x3f, 0x00, 0x00, 0x00, 0x00]] := by
  have hbuilt : Built chain := ⟨_, rfl⟩
  obtain ⟨p, hplan⟩ : ∃ p, partition chain specialists .fastSingleAnswer = .ok p := ⟨_, rfl⟩
  obtain ⟨v, hvalues, hexact⟩ := interpret_chain []
  obtain ⟨outputs, -, hwritten, hall⟩ := execute_refines hbuilt (by decide) (by decide)
    over_specialists hplan (portable_of_small (by decide) p)
    (show outputLengths chain = some [8] from rfl) hvalues hexact (by decide)
  obtain ⟨prepared, hprepare, hexecute⟩ := hall .lowPower
  refine ⟨p, prepared, hplan, hprepare, (hexecute false).trans ?_⟩
  rw [if_pos (by decide)]
  refine congrArg _ (List.ext_getElem? fun k => (hwritten k).symm.trans ?_)
  cases k with
  | zero => decide
  | succ k => rfl

/-- A direct interpretation ignores a buffer that is left over, and the plan refuses it. -/
theorem execute_surplus :
    Built chain ∧ chain.validate = .ok () ∧ chain.Tidy ∧
      (∀ device ∈ specialists, ∃ d : ReferenceDriver, device.Over d ∧
        d.config.preparationStatus = .success ∧ d.config.executionStatus = .success) ∧
      outputLengths chain = some [8] ∧
      (∃ v, values chain (.ofBuffers [halves, halves] [8]) = .ok v ∧ Exact chain v) ∧
      (run chain (.ofBuffers [halves, halves] [8])).2.status = .success ∧
      ∃ p prepared, partition chain specialists .fastSingleAnswer = .ok p ∧ p.Portable chain ∧
        p.prepare .fastSingleAnswer = .ok prepared ∧
        prepared.execute [halves, halves] false = .error (.invalidValue (.inputCount 1 2)) :=
  ⟨⟨_, rfl⟩, by decide, by decide, over_specialists, by rfl, interpret_chain [halves], by decide,
    _, _, rfl, portable_of_small (by decide) _, rfl, rfl⟩

end Chain

end NeuralDispatch

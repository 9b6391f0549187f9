import NeuralDispatch.Proofs.Buffers
import NeuralDispatch.Proofs.DataFlow
import NeuralDispatch.Proofs.Preparation

/-!
# Running the steps of a plan

A step that runs on the values of a direct interpretation of the whole model computes further values
of it.

* `Interpretation` — a direct interpretation of a whole model that has computed exact values.
* `Interpretation.consistent_finished` — its words are consistent for the model of every step.
* `Advances` — whether a prepared step turns values of the interpretation into further ones.
* `Interpretation.advances` — a carved step does, whatever revision its device speaks.
* `Assembly.fed` — the steps of a plan are fed by those before them.
* `runSteps_ok` — steps that are fed by those before them run one after the other.
-/

namespace NeuralDispatch

open Answer Model Interpreter

/-- Whether the lifetimes of a model's operands tell what they are: inputs, outputs or, where there
is a value, constants. -/
structure Model.Tidy (m : Model) : Prop where
  inputs : ∀ (o : Nat) operand, m.operands[o]? = some operand →
    (operand.lifetime = .modelInput ↔ o ∈ m.inputs)
  outputs : ∀ (o : Nat) operand, m.operands[o]? = some operand →
    (operand.lifetime = .modelOutput ↔ o ∈ m.outputs)
  values : ∀ (o : Nat) operand, m.operands[o]? = some operand → operand.value ≠ none →
    operand.isConstant = true

theorem Model.tidy_iff {m : Model} :
    m.Tidy ↔ ∀ e ∈ m.operands.zipIdx, (e.1.lifetime = .modelInput ↔ e.2 ∈ m.inputs) ∧
      (e.1.lifetime = .modelOutput ↔ e.2 ∈ m.outputs) ∧
      (e.1.value ≠ none → e.1.isConstant = true) := by
  constructor
  · rintro h ⟨operand, o⟩ he
    have ho := List.mem_zipIdx_iff_getElem?.1 he
    exact ⟨h.inputs o operand ho, h.outputs o operand ho, h.values o operand ho⟩
  · intro h
    have hall := fun (o : Nat) operand (ho : m.operands[o]? = some operand) =>
      h (operand, o) (List.mem_zipIdx_iff_getElem?.2 ho)
    exact ⟨fun o operand ho => (hall o operand ho).1, fun o operand ho => (hall o operand ho).2.1,
      fun o operand ho => (hall o operand ho).2.2⟩

instance (m : Model) : Decidable m.Tidy := decidable_of_iff _ tidy_iff.symm

/-- What is given of a tidy model no operation writes. -/
theorem Model.Tidy.not_written {m : Model} (h : m.Tidy) (hvalid : Valid m) {inputs : List Bytes} :
    ∀ e ∈ given m inputs, e.1 ∉ m.written := by
  rintro ⟨o, bytes⟩ he hwritten
  obtain ⟨operand, hoperand, hneeds⟩ := hvalid.writable o hwritten
  rcases List.mem_append.1 (List.mem_reverse.1 he) with hconstant | hinput
  · obtain ⟨operand', hoperand', hvalue⟩ := mem_constants.1 hconstant
    obtain rfl := Option.some.inj (hoperand.symm.trans hoperand')
    have hgiven := h.values o operand hoperand (by simp [hvalue])
    exact Lifetime.not_given_of_needsProducer hneeds (Or.inl hgiven)
  · have hlifetime := (h.inputs o operand hoperand).2 (List.of_mem_zip hinput).1
    rw [hlifetime] at hneeds
    cases hneeds

/-! ## A direct interpretation -/

/-- A direct interpretation of a whole model that has computed exact values. -/
structure Interpretation (whole : Model) (inputs : List Bytes) (v : Valuation) : Prop where
  valid : Valid whole
  sound : Sound whole
  tidy : whole.Tidy
  explains : Explains whole inputs v.contents
  exact : Exact whole v

namespace Interpretation

variable {whole : Model} {inputs : List Bytes} {v : Valuation}

/-- The value of a constant is the one that the model holds. -/
theorem holds_constant (h : Interpretation whole inputs v) {o : Nat} {operand : Operand}
    {bytes : Bytes} (hoperand : whole.operands[o]? = some operand)
    (hvalue : operand.value = some bytes) : v.contents.Holds o bytes := by
  have hconstant := h.tidy.values o operand hoperand (by simp [hvalue])
  have hforeign : o ∉ whole.inputs := fun hmem => by
    have hlifetime := (h.tidy.inputs o operand hoperand).2 hmem
    rw [Operand.isConstant, hlifetime] at hconstant
    cases hconstant
  have hmem : (o, bytes) ∈ given whole inputs :=
    List.mem_reverse.2 (List.mem_append_left _ (mem_constants.2 ⟨operand, hoperand, hvalue⟩))
  obtain ⟨latest, hlatest⟩ := exists_lookup_of_mem hmem
  have hholds := h.explains.holds o latest hlatest
  rcases List.mem_append.1 (List.mem_reverse.1 (mem_of_lookup hlatest)) with hmem | hmem
  · obtain ⟨operand', hoperand', hvalue'⟩ := mem_constants.1 hmem
    obtain rfl := Option.some.inj (hoperand.symm.trans hoperand')
    obtain rfl := Option.some.inj (hvalue.symm.trans hvalue')
    exact hholds
  · exact absurd (List.of_mem_zip hmem).1 hforeign

/-- What an operation reads has a value. -/
theorem known_of_read (h : Interpretation whole inputs v) {op : Operation} {o : Nat}
    (hop : op ∈ whole.operations) (ho : o ∈ op.inputs) : ∃ data, v.contents o = some data := by
  obtain ⟨args, -, -, hargs, -⟩ := h.explains.consistent.computes op hop
  exact exists_of_mapM_eq_some hargs ho

/-- What has been left out has no value. -/
theorem blank_of_noValue (h : Interpretation whole inputs v) {o : Nat} {operand : Operand}
    (hoperand : whole.operands[o]? = some operand) (hlifetime : operand.lifetime = .noValue) :
    v.contents o = none := by
  refine h.explains.blank o (fun hwritten => ?_) (lookup_eq_none fun bytes hmem => ?_)
  · exact h.valid.not_written hoperand (by rw [hlifetime]; rfl) hwritten
  · rcases List.mem_append.1 (List.mem_reverse.1 hmem) with hmem | hmem
    · obtain ⟨operand', hoperand', hvalue⟩ := mem_constants.1 hmem
      obtain rfl := Option.some.inj (hoperand.symm.trans hoperand')
      have hconstant := h.tidy.values o operand hoperand (by simp [hvalue])
      rw [Operand.isConstant, hlifetime] at hconstant
      cases hconstant
    · have hinput := (h.tidy.inputs o operand hoperand).2 (List.of_mem_zip hmem).1
      rw [hlifetime] at hinput
      cases hinput

end Interpretation

/-! ## The words of a step -/

/-- The words of the operands under the positions of a step. -/
def Step.contents (s : Step) (words : Contents) : Contents :=
  fun place => s.operands[place]?.bind words

theorem Step.contents_eq {s : Step} {place o : Nat} (h : s.operands[place]? = some o)
    (words : Contents) : s.contents words place = words o := by
  rw [contents, h, Option.bind_some]

/-- The inputs of a finished step are operands of its model. -/
theorem Step.Filled.input_lt {whole : Model} {s : Step} (h : Step.Filled whole s)
    {links : List Link} {relaxed : Bool} : ∀ place ∈ (s.finished links relaxed).model.inputs,
      place < (s.finished links relaxed).model.operands.length := by
  intro place hplace
  obtain ⟨link, hlink, rfl⟩ := List.mem_map.1 hplace
  rw [h.length_finished]
  rcases List.mem_append.1 hlink with hmodel | hcross
  · exact (List.getElem?_eq_some_iff.1 (h.modelInputs link hmodel).1).1
  · exact (List.getElem?_eq_some_iff.1 (h.crossInputs link hcross).1).1

namespace Interpretation

variable {whole : Model} {inputs : List Bytes} {v : Valuation} {s : Step} {links : List Link}
  {relaxed : Bool}

/-- The words of the interpretation are consistent for the model of every step. -/
theorem consistent_finished (h : Interpretation whole inputs v) (hfilled : Step.Filled whole s) :
    Consistent (s.finished links relaxed).model (s.contents v.contents) := by
  have hread : ∀ o place : Nat, s.operands[place]? = some o →
      v.contents o = s.contents v.contents place := fun o place ho =>
    (Step.contents_eq ho _).symm
  refine ⟨fun op hop => ?_, fun op hop place hplace hknown => ?_⟩
  · obtain ⟨i, -, source, hsource, htype, hinputs, houtputs⟩ :=
      counterpart_mem hfilled.translated.flip (show op ∈ s.model.operations from hop)
    obtain ⟨args, o, result, hargs, hresult, ho, hword⟩ :=
      h.explains.consistent.computes source (List.mem_of_getElem? hsource)
    obtain ⟨rest, hrest⟩ := List.head?_eq_some_iff.1 ho
    rw [hrest] at houtputs
    obtain ⟨place, rest', hplace, -, heq⟩ := List.forall₂_cons_left_iff.1 houtputs
    refine ⟨args, place, result, ?_, htype ▸ hresult, by rw [heq]; rfl, ?_⟩
    · rw [← mapM_eq_of_forall₂ (hinputs.imp hread), hargs]
    · rw [← hread o place hplace, hword]
  · obtain ⟨i, -, source, hsource, -, -, houtputs⟩ :=
      counterpart_mem hfilled.translated.flip (show op ∈ s.model.operations from hop)
    obtain ⟨o, ho, hplace⟩ := counterpart_mem houtputs.flip hplace
    rw [← hread o place hplace] at hknown
    have hhead := h.explains.consistent.headed source (List.mem_of_getElem? hsource) o ho hknown
    obtain ⟨rest, hrest⟩ := List.head?_eq_some_iff.1 hhead
    rw [hrest] at houtputs
    obtain ⟨first, rest', hfirst, -, heq⟩ := List.forall₂_cons_left_iff.1 houtputs
    rw [heq, hfilled.biUnique.2 hfirst hplace]
    rfl

/-- What is given of the model of a step are values of the interpretation. -/
theorem holds_given (h : Interpretation whole inputs v) (hfilled : Step.Filled whole s)
    {buffers : List Bytes}
    (hbuffers : List.Forall₂ (fun link bytes =>
        v.contents.Holds link.operand (Request.visible bytes))
      (s.modelInputs ++ s.crossInputs) buffers) :
    ∀ e ∈ given (s.finished links relaxed).model buffers,
      (s.contents v.contents).Holds e.1 e.2 := by
  rintro ⟨place, bytes⟩ he
  have hlocal : ∀ o, s.operands[place]? = some o → v.contents.Holds o bytes →
      (s.contents v.contents).Holds place bytes := fun o ho => by
    rintro ⟨data, hdata, hbytes⟩
    exact ⟨data, (Step.contents_eq ho _).trans hdata, hbytes⟩
  rcases List.mem_append.1 (List.mem_reverse.1 he) with hconstant | hinput
  · obtain ⟨operand, hoperand, hvalue⟩ := mem_constants.1 hconstant
    have hlt := (List.getElem?_eq_some_iff.1 hoperand).1
    rw [hfilled.length_finished] at hlt
    have ho := List.getElem?_eq_getElem hlt
    obtain ⟨source, hsource, hcopy⟩ := hfilled.finished_operand ho
    obtain rfl := Option.some.inj (hoperand.symm.trans hcopy)
    exact hlocal _ ho (h.holds_constant hsource (Step.value_of_importOperand hvalue))
  · have hinput : (place, bytes) ∈ ((s.modelInputs ++ s.crossInputs).map (·.place)).zip
        (buffers.map Request.visible) := hinput
    rw [List.zip_map] at hinput
    obtain ⟨⟨link, bytes'⟩, hlink, heq⟩ := List.mem_map.1 hinput
    obtain ⟨rfl, rfl⟩ := Prod.mk.inj heq
    have hholds := List.forall₂_zip hbuffers hlink
    have hplace : s.operands[link.place]? = some link.operand := by
      rcases List.mem_append.1 (List.of_mem_zip hlink).1 with hmodel | hcross
      · exact (hfilled.modelInputs link hmodel).1
      · exact (hfilled.crossInputs link hcross).1
    exact hlocal _ hplace hholds

/-- What an operation of a step reads is given or computed inside. -/
theorem mem_given_of_read (h : Interpretation whole inputs v) (hfilled : Step.Filled whole s)
    (hvalid : Valid (s.finished links relaxed).model) {buffers : List Bytes}
    (hlength : (s.modelInputs ++ s.crossInputs).length = buffers.length) :
    ∀ op ∈ (s.finished links relaxed).model.operations, ∀ place ∈ op.inputs,
      place ∉ (s.finished links relaxed).model.written →
      ∃ bytes, (place, bytes) ∈ given (s.finished links relaxed).model buffers := by
  intro op hop place hplace hunwritten
  obtain ⟨i, hi, original, horiginal, -, hinputs, -⟩ :=
    counterpart_mem hfilled.translated.flip (show op ∈ s.model.operations from hop)
  obtain ⟨o, hread, ho⟩ := counterpart_mem hinputs.flip hplace
  have hpassed : o ∈ s.modelInputs.map (·.operand) ∨ o ∈ s.crossInputs.map (·.operand) →
      ∃ bytes, (place, bytes) ∈ given (s.finished links relaxed).model buffers := by
    intro hnoted
    obtain ⟨k, hk⟩ := List.mem_iff_getElem?.1 ((Plan.mem_inputs_iff hfilled ho).2 hnoted)
    have hlt := (List.getElem?_eq_some_iff.1 hk).1
    rw [List.length_map, hlength] at hlt
    have hbuffer : (buffers.map Request.visible)[k]? = some (Request.visible buffers[k]) := by
      rw [List.getElem?_map, List.getElem?_eq_getElem hlt, Option.map_some]
    refine ⟨Request.visible buffers[k], List.mem_reverse.2 (List.mem_append_right _ ?_)⟩
    exact List.mem_of_getElem? (List.getElem?_zip_eq_some.2 ⟨hk, hbuffer⟩)
  obtain ⟨source, hsource, havailable⟩ := Plan.available_of_consumed hfilled hvalid
    (Step.mem_consumed.2 ⟨i, hi, original, horiginal, hread⟩)
  rcases havailable with hconstant | habsent | hmodel | hcross | hcomputed
  · obtain ⟨bytes, hbytes⟩ :=
      Option.ne_none_iff_exists'.1 (h.valid.valued o source hsource hconstant)
    obtain ⟨source', hsource', hcopy⟩ := hfilled.finished_operand ho
    obtain rfl := Option.some.inj (hsource.symm.trans hsource')
    refine ⟨bytes, List.mem_reverse.2 (List.mem_append_left _ (mem_constants.2 ⟨_, hcopy, ?_⟩))⟩
    exact (Step.importOperand_value source).trans ((if_pos (Or.inl hconstant)).trans hbytes)
  · obtain ⟨data, hdata⟩ := h.known_of_read (List.mem_of_getElem? horiginal) hread
    rw [h.blank_of_noValue hsource habsent] at hdata
    cases hdata
  · exact hpassed (Or.inl hmodel)
  · exact hpassed (Or.inr hcross)
  · exact absurd ((hfilled.mem_written_iff ho).2 hcomputed) hunwritten

/-- A value that a step computes is as long as its operand takes. -/
theorem byteLength_of_computed (h : Interpretation whole inputs v) {o : Nat}
    (hcomputed : o ∈ Plan.computed whole s) {bytes : Bytes} (hholds : v.contents.Holds o bytes) :
    ∃ source, whole.operands[o]? = some source ∧ source.byteLength = some bytes.length := by
  obtain ⟨i, -, op, hop, hwrites⟩ := Step.mem_computed.1 hcomputed
  exact h.exact.byteLength h.explains.consistent
    (mem_written.2 ⟨op, List.mem_of_getElem? hop, hwrites⟩) hholds

/-- The values that a step returns, and the lengths of the buffers for them. -/
theorem exists_outputs (h : Interpretation whole inputs v) (hfilled : Step.Filled whole s)
    (relaxed : Bool)
    (hreturned : ∀ link ∈ s.modelOutputs ++ links, s.operands[link.place]? = some link.operand ∧
      link.operand ∈ Plan.computed whole s ∧ v.contents link.operand ≠ none) :
    ∃ outputs : List Bytes, List.Forall₂ (fun link bytes => v.contents.Holds link.operand bytes)
        (s.modelOutputs ++ links) outputs ∧
      (s.finished links relaxed).outputs.mapM (s.finished links relaxed).outputLength =
        .ok (outputs.map (·.length)) := by
  obtain ⟨outputs, houtputs⟩ := Contents.exists_holds (List.forall_mem_map.2 fun link hlink =>
    (hreturned link hlink).2.2)
  rw [List.forall₂_map_left_iff] at houtputs
  refine ⟨outputs, houtputs, mapM_eq_ok.2 (List.forall₂_map_right_iff.2 ?_)⟩
  refine ((List.forall₂_and_left _ _).2 ⟨hreturned, houtputs⟩).imp fun link bytes hlink => ?_
  obtain ⟨⟨hplace, hcomputed, -⟩, hholds⟩ := hlink
  obtain ⟨source, hsource, hlength⟩ := h.byteLength_of_computed hcomputed hholds
  obtain ⟨operand, hoperand, htype, hdimensions⟩ := hfilled.operand_type hplace hsource
  have hsame : operand.byteLength = source.byteLength := by
    rw [Operand.byteLength, Operand.elementCount, htype, hdimensions]
    rfl
  rw [Step.outputLength, hoperand, Option.bind_some, hsame, hlength]

/-- The prepared model of a step writes the values that the step returns, given those that it reads,
if regions can span what it writes. -/
theorem executeSynchronously_finished (h : Interpretation whole inputs v)
    (hfilled : Step.Filled whole s) (hvalid : Valid (s.finished links relaxed).model)
    {buffers outputs : List Bytes}
    (hbuffers : List.Forall₂ (fun link bytes =>
        v.contents.Holds link.operand (Request.visible bytes))
      (s.modelInputs ++ s.crossInputs) buffers)
    (houtputs : List.Forall₂ (fun link bytes => s.operands[link.place]? = some link.operand ∧
      v.contents.Holds link.operand bytes) (s.modelOutputs ++ links) outputs)
    (hsmall : ∀ bytes ∈ outputs, bytes.length < UInt32.size)
    {d : ReferenceDriver} (hstatus : d.config.executionStatus = .success) (measure : Bool) :
    ∃ report, (ReferenceModel.toPrepared ⟨d, (s.finished links relaxed).model⟩).executeSynchronously
        (.ofBuffers buffers (outputs.map (·.length))) measure =
          (partlyWritten buffers outputs [], .ok report) ∧ report.status = .success := by
  have hlength := hbuffers.length_eq
  have hlocal : List.Forall₂ (s.contents v.contents).Holds
      (s.finished links relaxed).model.outputs outputs := by
    refine List.forall₂_map_left_iff.2 (houtputs.imp ?_)
    rintro link bytes ⟨hplace, data, hdata, hbytes⟩
    exact ⟨data, (Step.contents_eq hplace _).trans hdata, hbytes⟩
  have hplaces : (s.finished links relaxed).model.inputs.length = buffers.length :=
    (List.length_map _).trans hlength
  obtain ⟨report, hrun, hok⟩ := run_of_consistent hvalid (h.consistent_finished hfilled)
    hplaces.le hfilled.input_lt (h.holds_given hfilled hbuffers) (h.mem_given_of_read hfilled hvalid hlength)
    hlocal hsmall
  have haccepts : ReferenceModel.accepts ⟨d, (s.finished links relaxed).model⟩
      (.ofBuffers buffers (outputs.map (·.length))) = true :=
    ReferenceModel.accepts_ofBuffers hplaces.symm
      ((List.length_map _).trans hlocal.length_eq.symm)
  have hwritten : { Request.ofBuffers buffers (outputs.map (·.length)) with
      pools := (partlyWritten buffers outputs []).pools } =
        partlyWritten buffers outputs [] := by simp [partlyWritten]
  rw [← hwritten]
  exact ReferenceModel.executeSynchronously_ok hstatus haccepts hrun hok measure

end Interpretation

/-! ## One step -/

/-- Whether a region over the bytes that are known of an operand spans its value. -/
def Contents.Supplied (words : Contents) (known : KnownValues) (o : Nat) : Prop :=
  ∃ bytes, known.lookup o = some bytes ∧ words.Holds o (Request.visible bytes)

/-- Whether bytes are the value of an operand, and not too many for a region. -/
structure Contents.Computed (words : Contents) (e : Nat × Bytes) : Prop where
  holds : words.Holds e.1 e.2
  small : e.2.length < UInt32.size

/-- Further values do no harm, and supply what they are of. -/
theorem Contents.Supplied.append {words : Contents} {computed known : KnownValues}
    (hcomputed : ∀ e ∈ computed, words.Computed e) {o : Nat}
    (h : words.Supplied known o ∨ o ∈ computed.map (·.1)) :
    words.Supplied (computed ++ known) o := by
  rw [Supplied, List.lookup_append]
  cases hlookup : computed.lookup o with
  | some bytes =>
    obtain ⟨hholds, hsmall⟩ := hcomputed _ (mem_of_lookup hlookup)
    exact ⟨bytes, rfl, (Request.visible_of_lt hsmall).symm ▸ hholds⟩
  | none =>
    rcases h with ⟨bytes, hbytes, hholds⟩ | hmem
    · exact ⟨bytes, hbytes, hholds⟩
    · obtain ⟨e, he, rfl⟩ := List.mem_map.1 hmem
      obtain ⟨bytes, hbytes⟩ := exists_lookup_of_mem he
      rw [hbytes] at hlookup
      cases hlookup

/-- Whether a prepared step turns values into further ones, those of all that it returns among
them. -/
def Step.Advances (words : Contents) (s : Step) (model : PreparedModel) : Prop :=
  ∀ known, (∀ link ∈ s.inputs, words.Supplied known link.operand) → ∀ measure,
    ∃ computed timing, s.run model measure known = .ok (computed ++ known, timing) ∧
      (∀ e ∈ computed, words.Computed e) ∧
      ∀ link ∈ s.outputs, link.operand ∈ computed.map (·.1)

/-- Whether regions can span the values that a step returns. -/
def Step.Spanned (words : Contents) (s : Step) : Prop :=
  ∀ link ∈ s.outputs, ∀ bytes, words.Holds link.operand bytes → bytes.length < UInt32.size

/-- The buffers for the inputs of a step all of which are supplied. -/
theorem Contents.exists_buffers {words : Contents} {known : KnownValues} {s : Step}
    (h : ∀ link ∈ s.inputs, words.Supplied known link.operand) :
    ∃ buffers, s.inputs.mapM (s.readValue known) = .ok buffers ∧
      List.Forall₂ (fun link bytes => words.Holds link.operand (Request.visible bytes))
        s.inputs buffers := by
  refine mapM_ok_of_forall_related fun link hlink => ?_
  obtain ⟨bytes, hbytes, hholds⟩ := h link hlink
  exact ⟨bytes, by rw [Step.readValue, hbytes], hholds⟩

/-- The values that are taken from the buffers for the outputs of a step. -/
theorem Contents.exists_computed {words : Contents} {s : Step} {outputs : List Bytes}
    (h : List.Forall₂ (fun link bytes => words.Holds link.operand bytes) s.outputs outputs)
    (hsmall : ∀ bytes ∈ outputs, bytes.length < UInt32.size) (buffers : List Bytes) :
    ∃ computed, s.outputs.zipIdx.mapM (s.outputValue (partlyWritten buffers outputs [])) =
        .ok computed ∧
      List.Forall₂ (fun e value => value.1 = e.1.operand ∧ words.Computed value)
        s.outputs.zipIdx computed := by
  refine mapM_ok_of_forall_related fun ⟨link, k⟩ hlink => ?_
  obtain ⟨bytes, hbytes, hholds⟩ := counterpart h (List.mem_zipIdx_iff_getElem?.1 hlink)
  have hsize := hsmall bytes (List.mem_of_getElem? hbytes)
  refine ⟨(link.operand, bytes), ?_, rfl, hholds, hsize⟩
  rw [Step.outputValue, output_partlyWritten, hbytes, Option.map_some, Request.visible_of_lt hsize]

/-- A step that has been prepared on a reference driver advances, if regions can span the values
that it returns. -/
theorem Interpretation.advances {whole : Model} {inputs : List Bytes} {v : Valuation} {s : Step}
    {links : List Link} {relaxed : Bool} (h : Interpretation whole inputs v)
    (hfilled : Step.Filled whole s) (hvalid : Valid (s.finished links relaxed).model)
    (hreturned : ∀ link ∈ s.modelOutputs ++ links, s.operands[link.place]? = some link.operand ∧
      link.operand ∈ Plan.computed whole s ∧ v.contents link.operand ≠ none)
    (hspanned : (s.finished links relaxed).Spanned v.contents)
    {d : ReferenceDriver} (hstatus : d.config.executionStatus = .success) :
    (s.finished links relaxed).Advances v.contents
      (ReferenceModel.toPrepared ⟨d, (s.finished links relaxed).model⟩) := by
  intro known hsupplied measure
  obtain ⟨buffers, hread, hbuffers⟩ := Contents.exists_buffers hsupplied
  obtain ⟨outputs, houtputs, hlengths⟩ := h.exists_outputs hfilled relaxed hreturned
  have hplaced : List.Forall₂ (fun link bytes => s.operands[link.place]? = some link.operand ∧
      v.contents.Holds link.operand bytes) (s.modelOutputs ++ links) outputs :=
    ((List.forall₂_and_left _ _).2 ⟨hreturned, houtputs⟩).imp fun _ _ hlink =>
      ⟨hlink.1.1, hlink.2⟩
  have hsizes : ∀ bytes ∈ outputs, bytes.length < UInt32.size := fun bytes hbytes => by
    obtain ⟨link, hlink, hholds⟩ := counterpart_mem houtputs.flip hbytes
    exact hspanned link hlink bytes hholds
  obtain ⟨report, hexecute, hok⟩ :=
    h.executeSynchronously_finished hfilled hvalid hbuffers hplaced hsizes hstatus measure
  obtain ⟨computed, hcomputed, hvalues⟩ :=
    Contents.exists_computed (s := s.finished links relaxed) houtputs hsizes buffers
  refine ⟨computed.reverse, report.timing, ?_, fun e he => ?_, fun link hlink => ?_⟩
  · have hrequest : (s.finished links relaxed).request known =
        .ok (.ofBuffers buffers (outputs.map (·.length))) := by
      rw [Step.request, hread, ok_bind, hlengths, ok_bind]
      rfl
    rw [Step.run, hrequest, ok_bind]
    dsimp only
    rw [hexecute]
    simp [Except.mapError, ok_bind, hok, hcomputed, Status.isOk]
  · obtain ⟨-, -, -, hholds⟩ := counterpart_mem hvalues.flip (List.mem_reverse.1 he)
    exact hholds
  · obtain ⟨k, hk⟩ := List.mem_iff_getElem?.1 hlink
    have hentry : (link, k) ∈ (s.finished links relaxed).outputs.zipIdx :=
      List.mem_zipIdx_iff_getElem?.2 hk
    obtain ⟨value, hvalue, hsame, -⟩ := counterpart_mem hvalues hentry
    exact List.mem_map.2 ⟨value, List.mem_reverse.2 hvalue, hsame⟩

/-! ## All steps -/

/-- Whether each of the steps reads nothing but what is available beforehand or returned by a step
before it. -/
def Fed (available : Nat → Prop) : List Step → Prop
  | [] => True
  | s :: rest => (∀ link ∈ s.inputs, available link.operand) ∧
      Fed (fun o => available o ∨ o ∈ s.outputs.map (·.operand)) rest

theorem fed_of_earlier {available : Nat → Prop} {steps : List Step}
    (h : ∀ (c : Nat) s, steps[c]? = some s → ∀ link ∈ s.inputs, available link.operand ∨
      ∃ (q : Nat) (t : Step), q < c ∧ steps[q]? = some t ∧
        link.operand ∈ t.outputs.map (·.operand)) :
    Fed available steps := by
  induction steps generalizing available with
  | nil => trivial
  | cons s rest ih =>
    refine ⟨fun link hlink => ?_, ih fun c t ht link hlink => ?_⟩
    · exact (h 0 s rfl link hlink).resolve_right fun ⟨q, _, hlt, _⟩ => Nat.not_lt_zero q hlt
    · rcases h (c + 1) t ht link hlink with havailable | ⟨q, u, hlt, hu, hreturned⟩
      · exact Or.inl (Or.inl havailable)
      · cases q with
        | zero =>
          obtain rfl := Option.some.inj hu
          exact Or.inl (Or.inr hreturned)
        | succ q => exact Or.inr ⟨q, u, Nat.lt_of_succ_lt_succ hlt, hu, hreturned⟩

/-- Every step reads inputs of the model or what earlier steps return, if all operands that count as
inputs are listed. -/
theorem Plan.Assembly.fed {whole : Model} {steps : List Step} {flow : Plan.Flow}
    (h : Plan.Assembly whole steps flow)
    (hlisted : ∀ (o : Nat) operand, whole.operands[o]? = some operand →
      operand.lifetime = .modelInput → o ∈ whole.inputs) :
    Fed (· ∈ whole.inputs) (Plan.assembled whole steps flow).steps := by
  refine fed_of_earlier fun c t ht link hlink => ?_
  obtain ⟨s, links, hs, -, heq⟩ := Plan.getElem?_assembled.1 ht
  have hfilled := h.filled s (List.mem_of_getElem? hs)
  subst heq
  rcases List.mem_append.1 hlink with hmodel | hcross
  · obtain ⟨-, source, hsource, hlifetime⟩ := hfilled.modelInputs link hmodel
    exact Or.inl (hlisted _ source hsource hlifetime)
  · obtain ⟨q, u, hu, hlt, -, -, operand, -, hreturned⟩ :=
      h.bookkeeping.handed c _ ht link.operand (List.mem_map.2 ⟨link, hcross, rfl⟩)
    refine Or.inr ⟨q, u, hlt, hu, ?_⟩
    rw [Step.outputs, List.map_append, List.mem_append]
    rcases hreturned with ⟨-, hmodel⟩ | ⟨-, honce⟩
    · exact Or.inl hmodel
    · exact Or.inr (List.count_pos_iff.1 (by omega))

/-- Steps that are fed by those before them run one after the other, and compute the values of all
that they return. -/
theorem runSteps_ok {words : Contents} {pairs : List (Step × PreparedModel)}
    (hadvances : ∀ e ∈ pairs, e.1.Advances words e.2) {available : Nat → Prop}
    (hfed : Fed available (pairs.map (·.1))) {known : KnownValues}
    (hsupplied : ∀ o, available o → words.Supplied known o) (measure : Bool) :
    ∃ computed timings,
      PreparedPlan.runSteps measure pairs known = .ok (computed ++ known, timings) ∧
        (∀ e ∈ computed, words.Computed e) ∧
        ∀ s ∈ pairs.map (·.1), ∀ link ∈ s.outputs, link.operand ∈ computed.map (·.1) := by
  induction pairs generalizing available known with
  | nil => exact ⟨[], [], rfl, by simp, by simp⟩
  | cons e rest ih =>
    obtain ⟨s, model⟩ := e
    obtain ⟨hfirst, hrest⟩ := List.forall_mem_cons.1 hadvances
    obtain ⟨hinputs, hfed⟩ := hfed
    obtain ⟨computed, timing, hrun, hholds, hreturned⟩ :=
      hfirst known (fun link hlink => hsupplied _ (hinputs link hlink)) measure
    have hnext : ∀ o, (available o ∨ o ∈ s.outputs.map (·.operand)) →
        words.Supplied (computed ++ known) o := by
      rintro o (havailable | hmem)
      · exact .append hholds (Or.inl (hsupplied o havailable))
      · obtain ⟨link, hlink, rfl⟩ := List.mem_map.1 hmem
        exact .append hholds (Or.inr (hreturned link hlink))
    obtain ⟨later, timings, hruns, hlater, hall⟩ := ih hrest hfed hnext
    refine ⟨later ++ computed, timing :: timings, ?_, ?_, fun t ht link hlink => ?_⟩
    · rw [PreparedPlan.runSteps, hrun, ok_bind]
      dsimp only
      rw [hruns, List.append_assoc]
      rfl
    · exact List.forall_mem_append.2 ⟨hlater, hholds⟩
    · rw [List.map_append, List.mem_append]
      rcases List.mem_cons.1 ht with rfl | ht
      · exact Or.inr (hreturned link hlink)
      · exact Or.inl (hall t ht link hlink)

/-! ## A prepared plan -/

namespace PreparedPlan

variable {p : PreparedPlan} {inputs : List Bytes} {measure : Bool}

/-- A run on a buffer for every input is that of the steps, and then reads off what is known of the
outputs. -/
theorem execute_eq (hlength : inputs.length = p.plan.modelInputs.length) :
    p.execute inputs measure =
      (runSteps measure (p.plan.steps.zip p.models) (p.plan.modelInputs.zip inputs).reverse >>=
        fun result => p.plan.modelOutputs.mapM (outputValue result.1)) := by
  rw [execute, executeTimed]
  dsimp only
  rw [if_neg (not_not.2 hlength)]
  cases runSteps measure (p.plan.steps.zip p.models) (p.plan.modelInputs.zip inputs).reverse with
  | error e => rfl
  | ok result =>
    simp only [ok_bind]
    cases p.plan.modelOutputs.mapM (outputValue result.1) <;> rfl

/-- A plan returns what is known of its outputs once its steps have run. -/
theorem execute_ok (hlength : inputs.length = p.plan.modelInputs.length) {known : KnownValues}
    {timings : List Timing} {outputs : List Bytes}
    (hruns : runSteps measure (p.plan.steps.zip p.models) (p.plan.modelInputs.zip inputs).reverse =
      .ok (known, timings))
    (hreturned : p.plan.modelOutputs.mapM (outputValue known) = .ok outputs) :
    p.execute inputs measure = .ok outputs := by
  rw [execute_eq hlength, hruns, ok_bind, hreturned]

/-- A plan does not run without a buffer for every input, nor with more. -/
theorem execute_error (hlength : inputs.length ≠ p.plan.modelInputs.length) :
    p.execute inputs measure =
      .error (.invalidValue (.inputCount p.plan.modelInputs.length inputs.length)) := by
  rw [execute, executeTimed]
  dsimp only
  rw [if_pos hlength]
  rfl

end PreparedPlan

end NeuralDispatch

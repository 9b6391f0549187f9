import NeuralDispatch.Proofs.Padding
import NeuralDispatch.Proofs.Refinement

/-!
# What a plan can hand on

A region states its length in 32 bits.  A larger value does not fit the region that a step is given
for it, whatever its operand takes, so that the driver of the step does not succeed.  A plan that
returns outputs has therefore handed on nothing larger.

* `Interpretation.spanned_of_run` — regions can span what a step returns, if the step has run.
* `spanned_of_runSteps` — so they can for all steps of a run.
* `portable_of_execute` — a plan that returns outputs is portable.
-/

namespace NeuralDispatch

open Answer Model Interpreter

/-- The buffers that a step reads from are those that supply it. -/
theorem Contents.holds_buffers {words : Contents} {known : KnownValues} {links : List Link}
    {buffers : List Bytes} (hsupplied : ∀ link ∈ links, words.Supplied known link.operand)
    (hbuffers : List.Forall₂ (fun link bytes => known.lookup link.operand = some bytes) links
      buffers) :
    List.Forall₂ (fun link bytes => words.Holds link.operand (Request.visible bytes)) links
      buffers := by
  refine ((List.forall₂_and_left _ _).2 ⟨hsupplied, hbuffers⟩).imp fun link bytes hlink => ?_
  obtain ⟨⟨bytes', hbytes', hholds⟩, hbytes⟩ := hlink
  obtain rfl := Option.some.inj (hbytes.symm.trans hbytes')
  exact hholds

namespace Interpretation

variable {whole : Model} {inputs : List Bytes} {v : Valuation} {s : Step} {links : List Link}
  {relaxed : Bool}

/-- A step that runs on a reference driver finds room for the values of the interpretation that it
returns. -/
theorem spanned_of_run (h : Interpretation whole inputs v) (hfilled : Step.Filled whole s)
    (hvalid : Valid (s.finished links relaxed).model)
    (hreturned : ∀ link ∈ s.modelOutputs ++ links, s.operands[link.place]? = some link.operand ∧
      link.operand ∈ Plan.computed whole s ∧ v.contents link.operand ≠ none)
    {d : ReferenceDriver} {known known' : KnownValues} {measure : Bool} {timing : Timing}
    (hsupplied : ∀ link ∈ (s.finished links relaxed).inputs,
      v.contents.Supplied known link.operand)
    (hrun : (s.finished links relaxed).run
      (ReferenceModel.toPrepared ⟨d, (s.finished links relaxed).model⟩) measure known =
        .ok (known', timing)) :
    (s.finished links relaxed).Spanned v.contents := by
  obtain ⟨request, report, hrequest, hreport, hstatus, -⟩ := Step.run_eq_ok.1 hrun
  intro link hlink bytes hholds
  obtain ⟨slot, hslot⟩ := List.mem_iff_getElem?.1 hlink
  obtain ⟨v', value, size, hvalues, hvalue, -, hfits, -⟩ := Step.output_of_success rfl hrequest
    (DriverCall.status?_eq_some.2 ⟨report, hreport, hstatus⟩) hslot
  obtain ⟨buffers, lengths, rfl, hbuffers, -⟩ := Step.request_eq_ok.1 hrequest
  have hlength := hbuffers.length_eq
  obtain ⟨v'', hvalues', hfound⟩ := values_of_consistent hvalid (h.consistent_finished hfilled)
    lengths ((List.length_map _).trans hlength).le hfilled.input_lt
    (h.holds_given hfilled (Contents.holds_buffers hsupplied hbuffers))
    (h.mem_given_of_read hfilled hvalid hlength)
  obtain rfl := Except.ok.inj (hvalues.symm.trans hvalues')
  -- the step computes what the interpretation of the whole model does
  obtain ⟨hplace, hcomputed, -⟩ := hreturned link hlink
  obtain ⟨data, hdata, rfl⟩ := hholds
  have hlocal : s.contents v.contents link.place = some data :=
    (Step.contents_eq hplace _).trans hdata
  have hsame : v'.contents.Holds link.place (Bytes.ofSingles data) :=
    ⟨data, (hfound _ ((hfilled.mem_written_iff hplace).2 hcomputed) (by simp [hlocal])).trans
      hlocal, rfl⟩
  rw [hsame.unique hvalue]
  exact hfits.trans_lt (Request.regionLength_lt size)

/-- A plan is portable if regions can span what its steps return. -/
theorem portable_of_spanned (h : Interpretation whole inputs v)
    (houtputs : ∀ o ∈ whole.outputs, v.contents o ≠ none) {steps : List Step} {flow : Plan.Flow}
    (hcarving : Plan.Carving whole steps) (hassembly : Plan.Assembly whole steps flow)
    (hspanned : ∀ s ∈ (Plan.assembled whole steps flow).steps, s.Spanned v.contents) :
    (Plan.assembled whole steps flow).Portable whole := by
  intro t ht link hlink operand hoperand n hn
  obtain ⟨c, hc⟩ := List.mem_iff_getElem?.1 ht
  obtain ⟨s, links, hs, hlinks, rfl⟩ := Plan.getElem?_assembled.1 hc
  have hlink : link ∈ s.modelOutputs ++ links := List.mem_append_right _ hlink
  obtain ⟨-, hcomputed, hvalue⟩ := h.returned_known houtputs hcarving hassembly hs hlinks link hlink
  obtain ⟨data, hdata⟩ := Option.ne_none_iff_exists'.1 hvalue
  obtain ⟨source, hsource, hsize⟩ := h.byteLength_of_computed hcomputed ⟨data, hdata, rfl⟩
  obtain rfl := Option.some.inj (hoperand.symm.trans hsource)
  obtain rfl := Option.some.inj (hn.symm.trans hsize)
  exact hspanned _ ht link hlink _ ⟨data, hdata, rfl⟩

end Interpretation

/-- Steps that run one after the other return what regions can span, if each does that runs on what
it is to read, and then advances. -/
theorem spanned_of_runSteps {words : Contents} {pairs : List (Step × PreparedModel)}
    {measure : Bool}
    (hadvances : ∀ e ∈ pairs, e.1.Spanned words → e.1.Advances words e.2)
    (hspanned : ∀ e ∈ pairs, ∀ known known' timing,
      (∀ link ∈ e.1.inputs, words.Supplied known link.operand) →
        e.1.run e.2 measure known = .ok (known', timing) → e.1.Spanned words)
    {available : Nat → Prop} (hfed : Fed available (pairs.map (·.1))) {known : KnownValues}
    (hsupplied : ∀ o, available o → words.Supplied known o) {result : KnownValues × List Timing}
    (hruns : PreparedPlan.runSteps measure pairs known = .ok result) :
    ∀ s ∈ pairs.map (·.1), s.Spanned words := by
  induction pairs generalizing available known result with
  | nil => simp
  | cons e rest ih =>
    obtain ⟨s, model⟩ := e
    obtain ⟨hfirst, hrest⟩ := List.forall_mem_cons.1 hadvances
    obtain ⟨hspannedFirst, hspannedRest⟩ := List.forall_mem_cons.1 hspanned
    obtain ⟨hinputs, hfed⟩ := hfed
    have hread : ∀ link ∈ s.inputs, words.Supplied known link.operand := fun link hlink =>
      hsupplied _ (hinputs link hlink)
    rw [PreparedPlan.runSteps] at hruns
    obtain ⟨⟨known', timing⟩, hrun, hruns⟩ := bind_eq_ok.1 hruns
    obtain ⟨⟨known'', timings⟩, hruns, -⟩ := bind_eq_ok.1 hruns
    have hspan : s.Spanned words := hspannedFirst known known' timing hread hrun
    obtain ⟨computed, timing', hrun', hholds, hreturned⟩ := hfirst hspan known hread measure
    obtain ⟨rfl, -⟩ := Prod.mk.inj (Except.ok.inj (hrun.symm.trans hrun'))
    refine List.forall_mem_cons.2 ⟨hspan, ih hrest hspannedRest hfed ?_ hruns⟩
    rintro o (havailable | hmem)
    · exact .append hholds (Or.inl (hsupplied o havailable))
    · obtain ⟨link, hlink, rfl⟩ := List.mem_map.1 hmem
      exact .append hholds (Or.inr (hreturned link hlink))

/-- A plan for a model that can be interpreted hands on nothing that a region cannot span, if it
returns outputs. -/
theorem portable_of_execute {m : Model} (hbuilt : Built m) (hvalid : m.validate = .ok ())
    (htidy : m.Tidy) {devices : List Device}
    (hdevices : ∀ device ∈ devices, ∃ d : ReferenceDriver, device.Over d ∧
      d.config.preparationStatus = .success ∧ d.config.executionStatus = .success)
    {preference : Preference} {p : Plan} (hplan : Plan.partition m devices preference = .ok p)
    {inputs : List Bytes} {lengths : List Nat} (hlengths : outputLengths m = some lengths)
    {v : Valuation} (hvalues : values m (.ofBuffers inputs lengths) = .ok v) (hexact : Exact m v)
    (hstatus : (run m (.ofBuffers inputs lengths)).2.status = .success)
    {preference' : Preference} {prepared : PreparedPlan}
    (hprepare : p.prepare preference' = .ok prepared) {measure : Bool} {outputs : List Bytes}
    (hexecute : prepared.execute inputs measure = .ok outputs) : p.Portable m := by
  have h := interpretation_of_values hbuilt hvalid htidy hvalues hexact
  have hknown := h.known_of_run hlengths hvalues hstatus
  obtain ⟨steps, flow, hcarving, hassembly, rfl, hplaced⟩ :=
    Plan.partition_eq_ok hbuilt hvalid hplan
  obtain ⟨models, hmodels, hadvances⟩ :=
    h.prepare_ok hknown hcarving hassembly hdevices hplaced preference'
  obtain rfl := Except.ok.inj (hprepare.symm.trans hmodels)
  have hsteps : ((Plan.assembled m steps flow).steps.zip models).map (·.1) =
      (Plan.assembled m steps flow).steps := List.map_fst_zip hadvances.length_eq.le
  have hlength : inputs.length = m.inputs.length := by
    by_contra hne
    cases hexecute.symm.trans (PreparedPlan.execute_error hne)
  rw [PreparedPlan.execute_eq hlength] at hexecute
  obtain ⟨result, hruns, -⟩ := bind_eq_ok.1 hexecute
  have hspanned : ∀ s ∈ ((Plan.assembled m steps flow).steps.zip models).map (·.1),
      s.Spanned v.contents := by
    refine spanned_of_runSteps (fun e he => (List.forall₂_zip hadvances he).1) ?_
      (hsteps.symm ▸ hassembly.fed fun o source hsource => (htidy.inputs o source hsource).1)
      (fun o ho => h.supplied_input ho) hruns
    rintro ⟨t, model⟩ he known known' timing hread hrun
    obtain ⟨-, d, rfl⟩ := List.forall₂_zip hadvances he
    obtain ⟨c, hc⟩ := List.mem_iff_getElem?.1 (List.of_mem_zip he).1
    obtain ⟨s, links, hs, hlinks, rfl⟩ := Plan.getElem?_assembled.1 hc
    exact h.spanned_of_run (hcarving.carved s (List.mem_of_getElem? hs)).filled
      (hassembly.finished c s links hs hlinks)
      (h.returned_known hknown hcarving hassembly hs hlinks) hread hrun
  exact h.portable_of_spanned hknown hcarving hassembly (hsteps ▸ hspanned)

end NeuralDispatch

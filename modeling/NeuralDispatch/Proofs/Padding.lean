import NeuralDispatch.Proofs.Delivery

/-!
# What a step computes and what is handed on

A plan makes room for an output by the size that the model states, as far as a region can span it.
A reference driver puts the value that it computes at the start of that room and reports success,
also when the value is shorter because the buffers of the caller were.  What the plan then takes for
the value goes on with zeros.

* `DriverCall.Computes` — the value that a driver has computed for an operand.
* `PreparedPlan.Origin` — where the bytes come from that a run has for an operand.
* `origins` — all bytes that are handed on or returned are those of the caller, or a computed value
  with zeros up to the end of its region.  They are the value itself just if it fills the region.
-/

namespace NeuralDispatch

open Answer Model Interpreter

/-! ## One call -/

namespace Interpreter

theorem outputs_writeOutputs (v : Valuation) (entries : List (Nat × Nat)) (r : Request) :
    (writeOutputs v entries r).1.outputs = r.outputs := by
  induction entries generalizing r with
  | nil => rfl
  | cons e rest ih =>
    obtain ⟨o, position⟩ := e
    rw [writeOutputs]
    split
    · next argument tensor hargument hvalue =>
      show (writeOutputs v rest _).1.outputs = r.outputs
      rw [ih]
      cases hwrite : r.write? argument (Bytes.ofSingles tensor.data) with
      | none => rfl
      | some written =>
        rw [Request.write?] at hwrite
        split at hwrite
        · cases hwrite
        · obtain ⟨pool, -, hwrite⟩ := Option.bind_eq_some_iff.1 hwrite
          split at hwrite
          · obtain rfl := Option.some.inj hwrite
            rfl
          · cases hwrite
    · rfl

/-- A run binds no output to another region. -/
theorem outputs_run (m : Model) (r : Request) : (run m r).1.outputs = r.outputs := by
  rw [run]
  split
  · rfl
  · next v hv =>
    have houtputs := outputs_writeOutputs v m.outputs.zipIdx r
    split <;> next hwrite => rw [hwrite] at houtputs; exact houtputs

end Interpreter

namespace DriverCall

/-- Whether the interpreter computes a value for an operand that the step returns, for which the
model states a size. -/
def Computes (call : DriverCall) (o : Nat) (value : Bytes) (size : Nat) : Prop :=
  ∃ link ∈ call.step.outputs, link.operand = o ∧ call.step.outputLength link = .ok size ∧
    ∃ v, values call.step.model call.request = .ok v ∧ v.contents.Holds link.place value

end DriverCall

/-- A reference driver that succeeds has put the value of every output at the start of its room. -/
theorem Step.output_of_success {s : Step} (hplaces : s.model.outputs = s.outputs.map (·.place))
    {d : ReferenceDriver} {measure : Bool} {known : KnownValues} {request : Request}
    (hrequest : s.request known = .ok request)
    (hsucceeds : (s.call (ReferenceModel.toPrepared ⟨d, s.model⟩) measure request).Succeeds)
    {slot : Nat} {link : Link} (hslot : s.outputs[slot]? = some link) :
    ∃ v value size, values s.model request = .ok v ∧ v.contents.Holds link.place value ∧
      s.outputLength link = .ok size ∧ value.length ≤ Request.regionLength size ∧
      (s.call (ReferenceModel.toPrepared ⟨d, s.model⟩) measure request).after.output slot =
        some (value.rightpad (Request.regionLength size) 0) := by
  obtain ⟨buffers, lengths, rfl, -, hlengths⟩ := request_eq_ok.1 hrequest
  obtain ⟨report, hexecute, hstatus⟩ := ReferenceModel.executeSynchronously_eq
    ⟨d, s.model⟩ (.ofBuffers buffers lengths) measure
  obtain ⟨report', hreport, hsuccess⟩ := DriverCall.status?_eq_some.1 hsucceeds
  rw [call, hexecute] at hreport
  obtain rfl := Except.ok.inj hreport
  obtain ⟨-, hmemory, hrun⟩ := ReferenceModel.run_of_success (hstatus.symm.trans hsuccess)
  have hcount : s.model.outputs.length = lengths.length := by
    rw [hplaces, List.length_map]
    exact (mapM_eq_ok.1 hlengths).length_eq
  obtain ⟨v, outputs, hvalues, houtputs, hfits, hwritten⟩ := padded_of_run hcount hrun
  rw [hplaces, List.forall₂_map_left_iff] at houtputs
  obtain ⟨value, hvalue, hholds⟩ := counterpart houtputs hslot
  obtain ⟨size, hsize, hlength⟩ := counterpart (mapM_eq_ok.1 hlengths) hslot
  obtain ⟨size', hsize', hfit⟩ := counterpart hfits hvalue
  obtain rfl := Option.some.inj (hsize.symm.trans hsize')
  refine ⟨v, value, size, hvalues, hholds, hlength, hfit, ?_⟩
  have hread : (s.call (ReferenceModel.toPrepared ⟨d, s.model⟩) measure
      (.ofBuffers buffers lengths)).after.output slot =
        (Interpreter.run s.model (.ofBuffers buffers lengths)).1.output slot := by
    rw [call, hexecute, hmemory]
    unfold Request.output
    rw [outputs_run]
    rfl
  rw [hread, hwritten, List.getElem?_zipWith, hvalue, hsize]

/-- What a reference driver that succeeds returns for an operand is the value that it has computed,
with zeros up to the end of the region. -/
theorem Step.computes_of_value {s : Step} (hplaces : s.model.outputs = s.outputs.map (·.place))
    {d : ReferenceDriver} {measure : Bool} {known : KnownValues} {request : Request}
    (hrequest : s.request known = .ok request)
    (hsucceeds : (s.call (ReferenceModel.toPrepared ⟨d, s.model⟩) measure request).Succeeds)
    {o : Nat} {bytes : Bytes}
    (hbytes : (s.call (ReferenceModel.toPrepared ⟨d, s.model⟩) measure request).value? o =
      some bytes) :
    ∃ value size,
      (s.call (ReferenceModel.toPrepared ⟨d, s.model⟩) measure request).Computes o value size ∧
        value.length ≤ Request.regionLength size ∧
        bytes = value.rightpad (Request.regionLength size) 0 := by
  obtain ⟨⟨link, slot⟩, hlink, he⟩ :=
    List.mem_filterMap.1 (List.mem_reverse.1 (mem_of_lookup hbytes))
  obtain ⟨bytes', houtput, he⟩ := Option.map_eq_some_iff.1 he
  obtain ⟨rfl, rfl⟩ := Prod.mk.inj he
  have hslot : s.outputs[slot]? = some link := List.mem_zipIdx_iff_getElem?.1 hlink
  obtain ⟨v, value, size, hvalues, hholds, hlength, hfit, hread⟩ :=
    output_of_success hplaces hrequest hsucceeds hslot
  refine ⟨value, size, ⟨link, List.mem_of_getElem? hslot, rfl, hlength, v, hvalues, hholds⟩,
    hfit, ?_⟩
  exact Option.some.inj (houtput.symm.trans hread)

/-! ## A whole run -/

/-- The steps of a plan that is finished return the outputs of their models. -/
theorem Plan.outputs_of_finish {p p' : Plan} {whole : Model} (h : p.finish whole = (p', .ok ())) :
    ∀ s ∈ p'.steps, s.model.outputs = s.outputs.map (·.place) := by
  obtain ⟨-, -, flow, -, -, rfl⟩ := finish_eq_ok.1 h
  intro s hs
  obtain ⟨c, hc⟩ := List.mem_iff_getElem?.1 hs
  obtain ⟨t, links, -, -, rfl⟩ := getElem?_assembled.1 hc
  rfl

/-- Over reference drivers a step is prepared as it is. -/
theorem Plan.models_of_prepare {p : Plan} {preference : Preference} {prepared : PreparedPlan}
    (hdevices : ∀ s ∈ p.steps, ∃ d : ReferenceDriver, s.device.Over d)
    (h : p.prepare preference = .ok prepared) :
    prepared.plan = p ∧ ∀ (k : Nat) s model, p.steps[k]? = some s →
      prepared.models[k]? = some model →
      ∃ d : ReferenceDriver, model = ReferenceModel.toPrepared ⟨d, s.model⟩ := by
  rw [prepare] at h
  split at h
  · obtain ⟨models, hmodels, h⟩ := bind_eq_ok.1 h
    obtain rfl := pure_eq_ok.1 h
    refine ⟨rfl, fun k s model hs hmodel => ?_⟩
    obtain ⟨d, hover⟩ := hdevices s (List.mem_of_getElem? hs)
    obtain ⟨model', hmodel', hprepare⟩ := counterpart (mapM_eq_ok.1 hmodels) hs
    obtain rfl := Option.some.inj (hmodel.symm.trans hmodel')
    exact ⟨d, Step.eq_of_prepare hover hprepare⟩
  · cases h

namespace PreparedPlan

/-- Where the bytes come from that a run has for an operand after some of its calls. -/
inductive Origin (p : PreparedPlan) (inputs : List Bytes) (measure : Bool) (n o : Nat)
    (bytes : Bytes) : Prop
  /-- No call has returned the operand, and the caller has given the bytes. -/
  | caller (fresh : ∀ call ∈ (p.calls inputs measure).take n, call.value? o = none)
      (supplied : (p.inputValues inputs).lookup o = some bytes)
  /-- The latest call that returns the operand has computed a value for it, which has been filled
  up with zeros as far as the region over the stated size goes. -/
  | step (q : Nat) (producer : DriverCall) (value : Bytes) (size : Nat) (earlier : q < n)
      (called : (p.calls inputs measure)[q]? = some producer)
      (latest : ∀ (r : Nat) later, q < r → r < n → (p.calls inputs measure)[r]? = some later →
        later.value? o = none)
      (computes : producer.Computes o value size)
      (fits : value.length ≤ Request.regionLength size)
      (padded : bytes = value.rightpad (Request.regionLength size) 0)
      (genuine : bytes = value ↔ value.length = Request.regionLength size)

variable {p : PreparedPlan} {inputs : List Bytes} {measure : Bool}

/-- What a run knows after calls that have all succeeded has an origin. -/
theorem origin_of_lookup
    (hplaces : ∀ s ∈ p.plan.steps, s.model.outputs = s.outputs.map (·.place))
    (hmodels : ∀ (k : Nat) s model, p.plan.steps[k]? = some s → p.models[k]? = some model →
      ∃ d : ReferenceDriver, model = ReferenceModel.toPrepared ⟨d, s.model⟩)
    {n o : Nat} {bytes : Bytes}
    (hsucceed : ∀ call ∈ (p.calls inputs measure).take n, call.Succeeds)
    (h : (valuesAfter (p.inputValues inputs) ((p.calls inputs measure).take n)).lookup o =
      some bytes) : Origin p inputs measure n o bytes := by
  rcases exists_of_lookup_valuesAfter h with ⟨q, producer, hq, hbytes, hlatest⟩ | ⟨hfresh, hgiven⟩
  · have hsucceeds := hsucceed producer (List.mem_of_getElem? hq)
    rw [List.getElem?_take] at hq
    split at hq
    · next hlt =>
      obtain ⟨s, model, hs, hmodel, heq, hrequest⟩ := step_of_call hq
      obtain ⟨d, rfl⟩ := hmodels q s model hs hmodel
      rw [heq] at hsucceeds hbytes
      obtain ⟨value, size, hcomputes, hfits, rfl⟩ := Step.computes_of_value
        (hplaces s (List.mem_of_getElem? hs)) hrequest hsucceeds hbytes
      refine .step q producer value size hlt hq ?_ (heq ▸ hcomputes) hfits rfl ?_
      · intro r later hqr hrn hlater
        exact hlatest r later hqr ((List.getElem?_take_of_lt hrn).trans hlater)
      · constructor
        · intro hsame
          have hlength := congrArg List.length hsame
          rw [List.length_rightpad, max_eq_left hfits] at hlength
          exact hlength.symm
        · intro hlength
          simp [List.rightpad, hlength]
    · cases hq
  · exact .caller hfresh hgiven

end PreparedPlan

/-- Whatever a run over reference drivers hands to a step or returns are bytes of the caller, if no
step has returned the operand before, or otherwise the value that the latest step to return it has
computed for it, with zeros up to the length of its region, which is the size that the model states
unless that takes more than 32 bits.  They are the value itself just if it has that length. -/
theorem origins {p₀ p : Plan} {whole : Model} (hfinish : p₀.finish whole = (p, .ok ()))
    (hdevices : ∀ s ∈ p.steps, ∃ d : ReferenceDriver, s.device.Over d) {preference : Preference}
    {prepared : PreparedPlan} (hprepare : p.prepare preference = .ok prepared)
    (inputs : List Bytes) (measure : Bool) :
    (∀ (k : Nat) call, (prepared.calls inputs measure)[k]? = some call →
      call.request.inputs.length = call.step.inputs.length ∧
        ∀ (j : Nat) link, call.step.inputs[j]? = some link → ∃ bytes,
          prepared.Origin inputs measure k link.operand bytes ∧ call.request.Supplies j bytes) ∧
    ∀ outputs, prepared.execute inputs measure = .ok outputs →
      List.Forall₂ (prepared.Origin inputs measure p.steps.length) p.modelOutputs outputs := by
  have hplaces := Plan.outputs_of_finish hfinish
  obtain ⟨rfl, hmodels⟩ := Plan.models_of_prepare hdevices hprepare
  constructor
  · intro k call hcall
    obtain ⟨s, model, -, -, heq, hrequest⟩ := PreparedPlan.step_of_call hcall
    obtain ⟨buffers, lengths, hbound, hbuffers, -⟩ := Step.request_eq_ok.1 hrequest
    have hstep : call.step = s := by rw [heq]; rfl
    rw [hstep, hbound]
    refine ⟨?_, fun j link hlink => ?_⟩
    · rw [hbuffers.length_eq]
      simp [Request.ofBuffers]
    · obtain ⟨bytes, hbytes, hlookup⟩ := counterpart hbuffers hlink
      exact ⟨bytes, PreparedPlan.origin_of_lookup hplaces hmodels
        (PreparedPlan.succeeds_before hcall) hlookup, Request.supplies_ofBuffers hbytes⟩
  · intro outputs hexecute
    obtain ⟨hcount, hsucceed, hreturned⟩ := PreparedPlan.calls_of_execute hexecute
    have hall : (prepared.calls inputs measure).take prepared.plan.steps.length =
        prepared.calls inputs measure :=
      List.take_of_length_le (hcount.trans_le (List.length_zip.trans_le (Nat.min_le_left _ _)))
    refine hreturned.imp fun o bytes hlookup => ?_
    rw [← hall] at hlookup
    exact PreparedPlan.origin_of_lookup hplaces hmodels (hall.symm ▸ hsucceed) hlookup

/-! ## A sum on two devices -/

section Bump

open Plan

/-- Two numbers are rectified, and one is added to each. -/
def bump : Model := performAll {} [
  .addOperand { type := .tensorFloat32, dimensions := [2] },
  .addOperand { type := .tensorFloat32, dimensions := [2] },
  .addOperand { type := .tensorFloat32, dimensions := [2] },
  .addOperand { type := .tensorFloat32, dimensions := [2] },
  .setValue 2 [0x00, 0x00, 0x80, 0x3f, 0x00, 0x00, 0x80, 0x3f],
  .addOperation .relu [0] [1],
  .addOperation .add [1, 2] [3],
  .identify [0] [3]]

def bumpers : List Device := [specialist "rectifier" .relu, specialist "adder" .add]

/-- One step for each operation. -/
def bumpSteps : List Step :=
  numbered (List.zipWith (fun device calls => calls.foldl (Step.perform bump) { device }) bumpers
    [[.addOperand 0 .input, .addOperand 1 .output, .addOperation 0],
      [.addOperand 1 .input, .addOperand 2 .input, .addOperand 3 .output, .addOperation 1]])

/-- The bytes of `1.5`, which are half of those that the input takes. -/
def short : Bytes := [0x00, 0x00, 0xc0, 0x3f]

/-- What is returned for a buffer that is too short is what the adder has computed. -/
theorem origins_short :
    ∃ p prepared outputs, Plan.finish { steps := bumpSteps } bump = (p, .ok ()) ∧
      p.prepare .fastSingleAnswer = .ok prepared ∧
      prepared.execute [short] false = .ok outputs ∧
      List.Forall₂ (prepared.Origin [short] false 2) [3] outputs := by
  let p := (Plan.finish { steps := bumpSteps } bump).1
  have hfinish : Plan.finish { steps := bumpSteps } bump = (p, .ok ()) := Prod.ext rfl rfl
  have hplaced : p.steps.map (·.device) = bumpers := by rfl
  have hdevices : ∀ s ∈ p.steps, ∃ d : ReferenceDriver, s.device.Over d := by
    have hall : ∀ device ∈ bumpers, ∃ d : ReferenceDriver, device.Over d := by
      simp only [bumpers, List.forall_mem_cons]
      exact ⟨(over_specialist _ _).imp fun d h => h.1,
        (over_specialist _ _).imp fun d h => h.1, by simp⟩
    intro s hs
    exact hall _ (hplaced ▸ List.mem_map.2 ⟨s, hs, rfl⟩)
  obtain ⟨prepared, outputs, hprepare, hexecute⟩ : ∃ prepared outputs,
      p.prepare .fastSingleAnswer = .ok prepared ∧
        prepared.execute [short] false = .ok outputs := ⟨_, _, rfl, rfl⟩
  exact ⟨p, prepared, outputs, hfinish, hprepare, hexecute,
    (origins hfinish hdevices hprepare [short] false).2 outputs hexecute⟩

/-- The rectifier computes one number only, and reports success.  The adder is handed two, of which
nobody has computed the second, and so the plan returns two numbers, although the model itself
cannot be run on the buffer. -/
theorem handed_short :
    ∃ p prepared producer consumer, partition bump bumpers .fastSingleAnswer = .ok p ∧
      p.prepare .fastSingleAnswer = .ok prepared ∧
      prepared.calls [short] false = [producer, consumer] ∧
      producer.Succeeds ∧ producer.Computes 1 short 8 ∧
      consumer.request = .ofBuffers [short ++ [0, 0, 0, 0]] [8] ∧
      prepared.execute [short] false =
        .ok [[0x00, 0x00, 0x20, 0x40, 0x00, 0x00, 0x80, 0x3f]] ∧
      (run bump (.ofBuffers [short] [8])).2.status = .generalFailure :=
  ⟨_, _, _, _, rfl, rfl, rfl, show DriverCall.status? _ = _ from rfl,
    ⟨_, List.mem_cons_self, rfl, rfl, _, rfl, _, rfl, rfl⟩, rfl, rfl, by decide⟩

end Bump

end NeuralDispatch

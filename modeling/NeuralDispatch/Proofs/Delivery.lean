import NeuralDispatch.Proofs.Calls
import NeuralDispatch.Proofs.Compilation

/-!
# What the drivers of a partitioned model are called with

Whatever the drivers do, as long as they answer and write inside of the memory they are given, the
steps of a partitioned model find all values that they read, and the first of them to fail decides
how the run ends.

* `PreparedPlan.calls` — the calls that a run makes.
* `PreparedPlan.Source` — where the bytes come from that a step is to read.
* `PreparedPlan.Delivered` — whether every input of a call is bound to such bytes.
* `execute_decided` — all calls are, and the run succeeds if they do; otherwise it ends with the
  status of the last of them.
-/

namespace NeuralDispatch

open Answer Model Interpreter

namespace PreparedPlan

/-- The values that the caller of a run gives, the latest first. -/
def inputValues (p : PreparedPlan) (inputs : List Bytes) : KnownValues :=
  (p.plan.modelInputs.zip inputs).reverse

/-- The calls that a run makes, none of them unless there is a buffer for every input. -/
def calls (p : PreparedPlan) (inputs : List Bytes) (measure : Bool) : List DriverCall :=
  if inputs.length = p.plan.modelInputs.length then
    callsOf measure (p.plan.steps.zip p.models) (p.inputValues inputs)
  else []

/-- Whether bytes are those of the caller or of an earlier step. -/
inductive Source (whole : Model) (p : PreparedPlan) (inputs : List Bytes) (measure : Bool) (k : Nat)
    (s : Step) (link : Link) (bytes : Bytes) : Prop
  /-- The operand is an input of the whole model, and the bytes are those of its buffer. -/
  | caller (listed : link ∈ s.modelInputs)
      (supplied : (p.inputValues inputs).lookup link.operand = some bytes)
  /-- The operand is computed by one step only, which has been called before, and the bytes are read
  back from its region.  They are few enough for another region. -/
  | step (q : Nat) (producer : DriverCall) (listed : link ∈ s.crossInputs) (earlier : q < k)
      (called : (p.calls inputs measure)[q]? = some producer)
      (computes : link.operand ∈ Plan.computed whole producer.step)
      (only : ∀ (r : Nat) t, p.plan.steps[r]? = some t → link.operand ∈ Plan.computed whole t →
        r = q)
      (returned : producer.value? link.operand = some bytes)
      (small : bytes.length < UInt32.size)

/-- Whether a call is that of a step, each input of which is bound to the bytes that the step is to
read, and each output to zeros.  There is no other memory. -/
structure Delivered (whole : Model) (p : PreparedPlan) (inputs : List Bytes) (measure : Bool)
    (k : Nat) (call : DriverCall) : Prop where
  made : ∃ s model, p.plan.steps[k]? = some s ∧ p.models[k]? = some model ∧
    call = s.call model measure call.request
  inputCount : call.request.inputs.length = call.step.inputs.length
  outputCount : call.request.outputs.length = call.step.outputs.length
  poolCount : call.request.pools.length = call.step.inputs.length + call.step.outputs.length
  supplied : ∀ (j : Nat) link, call.step.inputs[j]? = some link → ∃ bytes,
    Source whole p inputs measure k call.step link bytes ∧ call.request.Supplies j bytes
  reserved : ∀ (j : Nat) link, call.step.outputs[j]? = some link → ∃ length,
    call.step.outputLength link = .ok length ∧ call.request.Reserves j length

/-- Whether bytes are read back from the only step that computes an operand. -/
def Returned (whole : Model) (p : PreparedPlan) (inputs : List Bytes) (measure : Bool) (o : Nat)
    (bytes : Bytes) : Prop :=
  ∃ (q : Nat) (producer : DriverCall), (p.calls inputs measure)[q]? = some producer ∧
    o ∈ Plan.computed whole producer.step ∧
    (∀ (r : Nat) t, p.plan.steps[r]? = some t → o ∈ Plan.computed whole t → r = q) ∧
    producer.value? o = some bytes

end PreparedPlan

/-! ## The steps of a partitioned model -/

namespace Plan

/-- Whether the steps of a plan find what they read, and return what they compute. -/
structure Routed (whole : Model) (p : Plan) : Prop where
  bookkeeping : Bookkeeping whole p
  inputs : p.modelInputs = whole.inputs
  outputs : p.modelOutputs = whole.outputs
  fed : Fed (· ∈ whole.inputs) p.steps
  computes : ∀ s ∈ p.steps, ∀ o ∈ s.outputs.map (·.operand), o ∈ computed whole s
  once : ∀ (q r : Nat) s t o, p.steps[q]? = some s → p.steps[r]? = some t →
    o ∈ computed whole s → o ∈ computed whole t → r = q
  /-- No step computes what another one takes for an input of the whole model. -/
  given : ∀ s ∈ p.steps, ∀ link ∈ s.modelInputs, ∀ t ∈ p.steps, link.operand ∉ computed whole t
  sized : ∀ s ∈ p.steps, ∃ lengths, s.outputs.mapM s.outputLength = .ok lengths

section Partitioned

variable {whole : Model} {steps : List Step} {flow : Flow}

end Partitioned

end Plan

/-! ## A run all calls of which are answered -/

namespace PreparedPlan

variable {whole : Model} {p : PreparedPlan} {inputs : List Bytes} {measure : Bool}

/-- A run that returns outputs has called its steps with success, and returns what they have
left. -/
theorem calls_of_execute {outputs : List Bytes} (h : p.execute inputs measure = .ok outputs) :
    (p.calls inputs measure).length = (p.plan.steps.zip p.models).length ∧
      (∀ call ∈ p.calls inputs measure, call.Succeeds) ∧
      List.Forall₂ (fun o bytes => (valuesAfter (p.inputValues inputs)
        (p.calls inputs measure)).lookup o = some bytes) p.plan.modelOutputs outputs := by
  have hlength : inputs.length = p.plan.modelInputs.length := by
    by_contra hne
    rw [execute_error hne] at h
    cases h
  rw [execute_eq hlength] at h
  obtain ⟨⟨known, timings⟩, hruns, houtputs⟩ := bind_eq_ok.1 h
  obtain ⟨hcount, hsucceed, hknown⟩ := callsOf_of_runSteps hruns
  rw [calls, if_pos hlength]
  refine ⟨hcount, hsucceed, (mapM_eq_ok.1 houtputs).imp fun o bytes hvalue => ?_⟩
  rw [outputValue, hknown] at hvalue
  split at hvalue
  · next bytes' hlookup => rw [← Except.ok.inj hvalue]; exact hlookup
  · cases hvalue

/-- A call is made by the step in its turn, on what is known after those before it. -/
theorem step_of_call {k : Nat} {call : DriverCall}
    (hcall : (p.calls inputs measure)[k]? = some call) :
    ∃ s model, p.plan.steps[k]? = some s ∧ p.models[k]? = some model ∧
      call = s.call model measure call.request ∧
      s.request (valuesAfter (p.inputValues inputs) ((p.calls inputs measure).take k)) =
        .ok call.request := by
  rw [calls] at hcall ⊢
  split at hcall
  · next hlength =>
    rw [if_pos hlength]
    obtain ⟨s, model, hpair, heq, hrequest, -⟩ := getElem?_callsOf hcall
    obtain ⟨hs, hmodel⟩ := List.getElem?_zip_eq_some.1 hpair
    exact ⟨s, model, hs, hmodel, heq, hrequest⟩
  · simp at hcall

/-- The calls before a call have succeeded. -/
theorem succeeds_before {k : Nat} {call : DriverCall}
    (hcall : (p.calls inputs measure)[k]? = some call) :
    ∀ earlier ∈ (p.calls inputs measure).take k, earlier.Succeeds := by
  rw [calls] at hcall ⊢
  split at hcall
  · next hlength =>
    rw [if_pos hlength]
    obtain ⟨-, -, -, -, -, hsucceed⟩ := getElem?_callsOf hcall
    exact hsucceed
  · simp at hcall

/-- What a call returns is short enough for a region. -/
theorem length_of_value {k : Nat} {call : DriverCall}
    (hcall : (p.calls inputs measure)[k]? = some call) {o : Nat} {bytes : Bytes}
    (hbytes : call.value? o = some bytes) : bytes.length < UInt32.size := by
  obtain ⟨s, model, -, -, heq, hrequest⟩ := step_of_call hcall
  rw [heq] at hbytes
  exact Step.length_of_value hrequest hbytes

theorem step_eq_of_call {k : Nat} {call : DriverCall}
    (hcall : (p.calls inputs measure)[k]? = some call) : p.plan.steps[k]? = some call.step := by
  obtain ⟨s, model, hs, -, heq, -⟩ := step_of_call hcall
  rw [heq]
  exact hs

/-- Steps that compute the same operand have the same place. -/
theorem call_unique (h : p.plan.Routed whole) {q r : Nat} {call other : DriverCall}
    (hcall : (p.calls inputs measure)[q]? = some call)
    (hother : (p.calls inputs measure)[r]? = some other) {o : Nat}
    (ho : o ∈ call.step.outputs.map (·.operand)) (ho' : o ∈ other.step.outputs.map (·.operand)) :
    r = q := by
  have hs := step_eq_of_call hcall
  have ht := step_eq_of_call hother
  exact h.once q r _ _ o hs ht (h.computes _ (List.mem_of_getElem? hs) o ho)
    (h.computes _ (List.mem_of_getElem? ht) o ho')

section Values

variable (h : p.plan.Routed whole) (hanswered : ∀ call ∈ p.calls inputs measure, call.Answered)

include hanswered

theorem readable_of_call {k : Nat} {call : DriverCall}
    (hcall : (p.calls inputs measure)[k]? = some call) : call.Readable := by
  obtain ⟨s, model, -, -, heq, hrequest⟩ := step_of_call hcall
  have hanswer := hanswered call (List.mem_of_getElem? hcall)
  rw [heq] at hanswer ⊢
  exact Step.readable_of_answered hrequest hanswer

include h

/-- What a call returns is known after it. -/
theorem lookup_of_producer {q n : Nat} (hlt : q < n) {producer : DriverCall}
    (hcall : (p.calls inputs measure)[q]? = some producer) {o : Nat}
    (ho : o ∈ producer.step.outputs.map (·.operand)) :
    ∃ bytes, producer.value? o = some bytes ∧
      (valuesAfter (p.inputValues inputs) ((p.calls inputs measure).take n)).lookup o =
        some bytes := by
  obtain ⟨bytes, hbytes⟩ := (readable_of_call hanswered hcall).exists_value ho
  refine ⟨bytes, hbytes, ?_⟩
  refine lookup_valuesAfter_of_call ((List.getElem?_take_of_lt hlt).trans hcall) hbytes ?_
  intro r later hqr hlater
  rw [List.getElem?_take] at hlater
  split at hlater
  · refine DriverCall.value?_eq_none fun hmem => ?_
    exact hqr.ne' (call_unique h hcall hlater ho hmem)
  · cases hlater

/-- What a step finds for one of its inputs is of the caller, or of the only step that computes
it. -/
theorem source_of_lookup {k : Nat} {call : DriverCall}
    (hcall : (p.calls inputs measure)[k]? = some call) {link : Link}
    (hlink : link ∈ call.step.inputs) {bytes : Bytes}
    (hvalue : (valuesAfter (p.inputValues inputs) ((p.calls inputs measure).take k)).lookup
      link.operand = some bytes) : Source whole p inputs measure k call.step link bytes := by
  have hs := step_eq_of_call hcall
  have hlt : k < (p.calls inputs measure).length := (List.getElem?_eq_some_iff.1 hcall).1
  rcases List.mem_append.1 hlink with hmodel | hcross
  · refine .caller hmodel ((lookup_valuesAfter_of_none fun other hother => ?_).symm.trans hvalue)
    obtain ⟨j, hj⟩ := List.mem_iff_getElem?.1 (List.mem_of_mem_take hother)
    have ht := List.mem_of_getElem? (step_eq_of_call hj)
    refine DriverCall.value?_eq_none fun hmem => ?_
    exact h.given call.step (List.mem_of_getElem? hs) link hmodel _ ht (h.computes _ ht _ hmem)
  · obtain ⟨q, t, ht, hqk, hcomputed, honly, operand, -, hreturned⟩ :=
      h.bookkeeping.handed k call.step hs link.operand (List.mem_map.2 ⟨link, hcross, rfl⟩)
    have hq : (p.calls inputs measure)[q]? = some (p.calls inputs measure)[q] :=
      List.getElem?_eq_getElem (hqk.trans hlt)
    obtain rfl := Option.some.inj (ht.symm.trans (step_eq_of_call hq))
    have hoperand : link.operand ∈ (p.calls inputs measure)[q].step.outputs.map (·.operand) := by
      rw [Step.outputs, List.map_append, List.mem_append]
      rcases hreturned with ⟨-, hmodel⟩ | ⟨-, honce⟩
      · exact Or.inl hmodel
      · exact Or.inr (List.count_pos_iff.1 (by omega))
    obtain ⟨bytes', hbytes', hlookup⟩ := lookup_of_producer h hanswered hqk hq hoperand
    obtain rfl := Option.some.inj (hlookup.symm.trans hvalue)
    exact .step q _ hcross hqk hq hcomputed honly hbytes' (length_of_value hq hbytes')

/-- Every call is made on what its step is to read. -/
theorem delivered {k : Nat} {call : DriverCall}
    (hcall : (p.calls inputs measure)[k]? = some call) :
    Delivered whole p inputs measure k call := by
  obtain ⟨s, model, hs, hmodel, heq, hrequest⟩ := step_of_call hcall
  have hstep : call.step = s := by rw [heq]; rfl
  obtain ⟨buffers, lengths, hbound, hbuffers, hlengths⟩ := Step.request_eq_ok.1 hrequest
  have hreserved := (mapM_eq_ok.1 hlengths).length_eq
  refine ⟨⟨s, model, hs, hmodel, heq⟩, ?_, ?_, ?_, fun j link hlink => ?_, fun j link hlink => ?_⟩
  · rw [hbound, hstep, hbuffers.length_eq]
    simp [Request.ofBuffers]
  · rw [hbound, hstep, hreserved]
    simp [Request.ofBuffers]
  · rw [hbound, hstep, hbuffers.length_eq, hreserved]
    simp [Request.ofBuffers]
  · rw [hstep] at hlink ⊢
    obtain ⟨bytes, hbytes, hvalue⟩ := counterpart hbuffers hlink
    rw [hbound]
    rw [← hstep] at hlink ⊢
    exact ⟨bytes, source_of_lookup h hanswered hcall (List.mem_of_getElem? hlink) hvalue,
      Request.supplies_ofBuffers hbytes⟩
  · rw [hstep] at hlink ⊢
    obtain ⟨length, hlength, hsize⟩ := counterpart (mapM_eq_ok.1 hlengths) hlink
    rw [hbound]
    exact ⟨length, hsize, Request.reserves_ofBuffers hlength⟩

/-- The outputs of the whole model are known when all steps have been called. -/
theorem exists_outputs (hall : (p.calls inputs measure).length = p.plan.steps.length) :
    ∃ outputs, whole.outputs.mapM (outputValue
        (valuesAfter (p.inputValues inputs) (p.calls inputs measure))) = .ok outputs ∧
      List.Forall₂ (Returned whole p inputs measure) whole.outputs outputs := by
  refine mapM_ok_of_forall_related fun o ho => ?_
  obtain ⟨q, t, ht, hmodel, -⟩ := h.bookkeeping.returned o ho
  have hlt : q < (p.calls inputs measure).length :=
    hall ▸ (List.getElem?_eq_some_iff.1 ht).1
  have hq : (p.calls inputs measure)[q]? = some (p.calls inputs measure)[q] :=
    List.getElem?_eq_getElem hlt
  obtain rfl := Option.some.inj (ht.symm.trans (step_eq_of_call hq))
  have hmem : o ∈ (p.calls inputs measure)[q].step.outputs.map (·.operand) := by
    rw [Step.outputs, List.map_append]
    exact List.mem_append_left _ hmodel
  have hcomputed := h.computes _ (List.mem_of_getElem? ht) o hmem
  obtain ⟨bytes, hbytes, hlookup⟩ := lookup_of_producer h hanswered hlt hq hmem
  rw [List.take_length] at hlookup
  refine ⟨bytes, by rw [outputValue, hlookup], q, _, hq, hcomputed, ?_, hbytes⟩
  intro r u hu hou
  exact h.once q r _ u o ht hu hcomputed hou

end Values

end PreparedPlan

section Chain

open Plan

end Chain

end NeuralDispatch

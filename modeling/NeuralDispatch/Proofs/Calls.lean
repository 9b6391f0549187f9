import NeuralDispatch.Proofs.Runs

/-!
# The calls of a run

The steps of a plan are run by calling their prepared models one after the other.  What a driver
does is only known from the calls: the request that it gets, the memory that it leaves behind and
the status that it answers with.

* `callsOf` — the calls that a run makes.
* `getElem?_callsOf` — a call is made by its step, on the values that the calls before it have left,
  all of which have succeeded.
* `Ends` — all calls of a run succeed, or the last one does not and its status is the outcome.
* `runSteps_of_answered` — steps that are fed by those before them end like that.
* `runSteps_congr` — the prepared models of steps that are not called do not matter.
-/

namespace NeuralDispatch

open Answer Interpreter

/-! ## One call -/

/-- A call of the prepared model of a step. -/
structure DriverCall where
  step : Step
  request : Request
  /-- The request with its memory after the call. -/
  after : Request
  report : Except Fault Execution

namespace DriverCall

/-- The status that the driver answers with, if it answers. -/
def status? (call : DriverCall) : Option Status := call.report.toOption.map (·.status)

theorem status?_eq_some {call : DriverCall} {status : Status} :
    call.status? = some status ↔ ∃ report, call.report = .ok report ∧ report.status = status := by
  unfold status?
  cases call.report <;> simp [Except.toOption]

def Succeeds (call : DriverCall) : Prop := call.status? = some .success

/-- The values that are read back from the outputs of the step, the latest first. -/
def returned (call : DriverCall) : KnownValues :=
  (call.step.outputs.zipIdx.filterMap fun entry =>
    (call.after.output entry.2).map (entry.1.operand, ·)).reverse

/-- The bytes that are read back from the region of an operand, the last one if it has several. -/
def value? (call : DriverCall) (o : Nat) : Option Bytes := call.returned.lookup o

/-- Whether the driver answers the call, and writes inside of the memory that it is given only. -/
structure Answered (call : DriverCall) : Prop where
  answers : ∃ report, call.report = .ok report
  inside : call.after.pools.map (·.length) = call.request.pools.map (·.length)

/-- What is returned is of the outputs of the step. -/
theorem mem_outputs_of_returned {call : DriverCall} {e : Nat × Bytes} (h : e ∈ call.returned) :
    e.1 ∈ call.step.outputs.map (·.operand) := by
  obtain ⟨⟨link, slot⟩, hlink, he⟩ := List.mem_filterMap.1 (List.mem_reverse.1 h)
  obtain ⟨bytes, -, rfl⟩ := Option.map_eq_some_iff.1 he
  exact List.mem_map.2
    ⟨link, List.mem_of_getElem? (List.mem_zipIdx_iff_getElem?.1 hlink), rfl⟩

theorem value?_eq_none {call : DriverCall} {o : Nat}
    (h : o ∉ call.step.outputs.map (·.operand)) : call.value? o = none :=
  lookup_eq_none fun _ hmem => h (mem_outputs_of_returned hmem)

/-- Whether every output of the step can be read back. -/
def Readable (call : DriverCall) : Prop :=
  ∀ entry ∈ call.step.outputs.zipIdx, ∃ bytes, call.after.output entry.2 = some bytes

theorem Readable.exists_value {call : DriverCall} (h : call.Readable) {o : Nat}
    (ho : o ∈ call.step.outputs.map (·.operand)) : ∃ bytes, call.value? o = some bytes := by
  obtain ⟨link, hlink, rfl⟩ := List.mem_map.1 ho
  obtain ⟨slot, hslot⟩ := List.mem_iff_getElem?.1 hlink
  have hentry := List.mem_zipIdx_iff_getElem?.2 (show _ = some (link, slot).1 from hslot)
  obtain ⟨bytes, hbytes⟩ := h _ hentry
  exact exists_lookup_of_mem
    (List.mem_reverse.2 (List.mem_filterMap.2 ⟨_, hentry, by rw [hbytes]; rfl⟩))

/-- What is returned is known afterwards, and what has been known before. -/
theorem Readable.lookup_append {call : DriverCall} (h : call.Readable) {known : KnownValues}
    {o : Nat}
    (ho : (∃ bytes, known.lookup o = some bytes) ∨ o ∈ call.step.outputs.map (·.operand)) :
    ∃ bytes, (call.returned ++ known).lookup o = some bytes := by
  rw [List.lookup_append]
  cases hvalue : call.returned.lookup o with
  | some bytes => exact ⟨bytes, rfl⟩
  | none =>
    rcases ho with hknown | hmem
    · exact hknown
    · obtain ⟨bytes, hbytes⟩ := h.exists_value hmem
      cases hbytes.symm.trans hvalue

end DriverCall

/-- The values that are known after calls, the latest first. -/
def valuesAfter (known : KnownValues) (calls : List DriverCall) : KnownValues :=
  calls.foldl (fun known call => call.returned ++ known) known

/-- The value of an operand is the one that the latest call returns, or else the one known
before. -/
theorem lookup_valuesAfter (known : KnownValues) (calls : List DriverCall) (o : Nat) :
    (valuesAfter known calls).lookup o =
      (calls.reverse.findSome? (·.value? o)).or (known.lookup o) := by
  induction calls using List.reverseRecOn with
  | nil => rfl
  | append_singleton earlier last ih =>
    have hlast : valuesAfter known (earlier ++ [last]) =
        last.returned ++ valuesAfter known earlier := by
      simp [valuesAfter, List.foldl_append]
    rw [hlast, List.lookup_append, ih, List.reverse_concat, List.findSome?_cons]
    show (last.value? o).or _ = _
    cases last.value? o <;> rfl

/-- A value that no call after the one that returns it returns again. -/
theorem lookup_valuesAfter_of_call {known : KnownValues} {calls : List DriverCall} {q o : Nat}
    {call : DriverCall} {bytes : Bytes} (hcall : calls[q]? = some call)
    (hbytes : call.value? o = some bytes)
    (hlater : ∀ (r : Nat) later, q < r → calls[r]? = some later → later.value? o = none) :
    (valuesAfter known calls).lookup o = some bytes := by
  obtain ⟨hlt, rfl⟩ := List.getElem?_eq_some_iff.1 hcall
  have hsplit : calls = calls.take q ++ calls[q] :: calls.drop (q + 1) := by
    rw [List.getElem_cons_drop, List.take_append_drop]
  have hnone : (calls.drop (q + 1)).reverse.findSome? (·.value? o) = none := by
    rw [List.findSome?_eq_none_iff]
    intro later hmem
    obtain ⟨r, hr⟩ := List.mem_iff_getElem?.1 (List.mem_reverse.1 hmem)
    rw [List.getElem?_drop] at hr
    exact hlater (q + 1 + r) later (by omega) hr
  rw [lookup_valuesAfter, hsplit, List.reverse_append, List.reverse_cons, List.append_assoc,
    List.findSome?_append, hnone, Option.none_or, List.singleton_append, List.findSome?_cons,
    hbytes]
  rfl

/-- A value that no call returns. -/
theorem lookup_valuesAfter_of_none {known : KnownValues} {calls : List DriverCall} {o : Nat}
    (h : ∀ call ∈ calls, call.value? o = none) :
    (valuesAfter known calls).lookup o = known.lookup o := by
  rw [lookup_valuesAfter, List.findSome?_eq_none_iff.2, Option.none_or]
  intro call hcall
  exact h call (List.mem_reverse.1 hcall)

/-- A value that is known has been returned by the latest call that returns the operand at all, or
else has been known before. -/
theorem exists_of_lookup_valuesAfter {known : KnownValues} {calls : List DriverCall} {o : Nat}
    {bytes : Bytes} (h : (valuesAfter known calls).lookup o = some bytes) :
    (∃ (q : Nat) (call : DriverCall), calls[q]? = some call ∧ call.value? o = some bytes ∧
      ∀ (r : Nat) later, q < r → calls[r]? = some later → later.value? o = none) ∨
    (∀ call ∈ calls, call.value? o = none) ∧ known.lookup o = some bytes := by
  rw [lookup_valuesAfter, Option.or_eq_some_iff] at h
  rcases h with hreturned | ⟨hnone, hknown⟩
  · obtain ⟨later, call, earlier, hsplit, hbytes, hnone⟩ := List.findSome?_eq_some_iff.1 hreturned
    have hcalls : calls = earlier.reverse ++ call :: later.reverse := by
      rw [← List.reverse_reverse calls, hsplit, List.reverse_append, List.reverse_cons,
        List.append_assoc, List.singleton_append]
    refine Or.inl ⟨earlier.length, call, by simp [hcalls], hbytes, fun r other hlt hother => ?_⟩
    rw [hcalls, List.getElem?_append_right (by simp; omega), List.length_reverse,
      show r - earlier.length = r - earlier.length - 1 + 1 by omega, List.getElem?_cons_succ]
      at hother
    exact hnone other (List.mem_reverse.1 (List.mem_of_getElem? hother))
  · refine Or.inr ⟨fun call hcall => ?_, hknown⟩
    exact List.findSome?_eq_none_iff.1 hnone call (List.mem_reverse.2 hcall)

/-! ## One step -/

theorem PreparedModel.executeSynchronously_fst (p : PreparedModel) (r : Request)
    (measure : Bool) : ∃ pools, (p.executeSynchronously r measure).1 = { r with pools } := by
  unfold executeSynchronously
  cases p.v1_2? with
  | none => exact ⟨_, rfl⟩
  | some v1_2 => exact ⟨_, rfl⟩

namespace Step

variable {s : Step} {model : PreparedModel} {measure : Bool} {known : KnownValues}
  {request : Request}

/-- The call of the prepared model of a step on a request. -/
def call (s : Step) (model : PreparedModel) (measure : Bool) (request : Request) : DriverCall where
  step := s
  request := request
  after := (model.executeSynchronously request measure).1
  report := (model.executeSynchronously request measure).2

/-- The request of a step holds what is known of the inputs, and room for the outputs. -/
theorem request_eq_ok :
    s.request known = .ok request ↔ ∃ buffers lengths, request = .ofBuffers buffers lengths ∧
      List.Forall₂ (fun link bytes => known.lookup link.operand = some bytes) s.inputs buffers ∧
      s.outputs.mapM s.outputLength = .ok lengths := by
  have hread : ∀ link bytes, s.readValue known link = .ok bytes ↔
      known.lookup link.operand = some bytes := by
    intro link bytes
    rw [readValue]
    cases known.lookup link.operand <;> simp
  rw [Step.request]
  simp only [bind_eq_ok, pure_eq_ok, mapM_eq_ok, hread]
  constructor
  · rintro ⟨buffers, hbuffers, lengths, hlengths, rfl⟩
    exact ⟨buffers, lengths, rfl, hbuffers, hlengths⟩
  · rintro ⟨buffers, lengths, rfl, hbuffers, hlengths⟩
    exact ⟨buffers, hbuffers, lengths, hlengths, rfl⟩

theorem mapM_outputValue_eq_ok {r : Request} {entries : List (Link × Nat)}
    {computed : KnownValues} :
    entries.mapM (s.outputValue r) = .ok computed ↔
      (∀ entry ∈ entries, ∃ bytes, r.output entry.2 = some bytes) ∧
        computed = entries.filterMap fun entry => (r.output entry.2).map (entry.1.operand, ·) := by
  induction entries generalizing computed with
  | nil =>
    rw [List.mapM_nil, pure_eq_ok]
    simp [eq_comm]
  | cons entry rest ih =>
    rw [List.mapM_cons, List.forall_mem_cons, List.filterMap_cons]
    cases houtput : r.output entry.2 with
    | none => simp [outputValue, houtput, error_bind]
    | some bytes =>
      have hvalue : s.outputValue r entry = .ok (entry.1.operand, bytes) := by
        rw [outputValue, houtput]
      rw [hvalue, ok_bind]
      simp only [bind_eq_ok, pure_eq_ok, ih]
      constructor
      · rintro ⟨values, ⟨hall, rfl⟩, rfl⟩
        exact ⟨⟨⟨bytes, rfl⟩, hall⟩, rfl⟩
      · rintro ⟨⟨-, hall⟩, rfl⟩
        exact ⟨_, ⟨hall, rfl⟩, rfl⟩

/-- What becomes of a step whose driver answers. -/
theorem run_of_report (hrequest : s.request known = .ok request) {report : Execution}
    (hreport : (s.call model measure request).report = .ok report) :
    s.run model measure known =
      if report.status = .success then
        (s.outputs.zipIdx.mapM (s.outputValue (s.call model measure request).after)).map
          fun computed => (computed.reverse ++ known, report.timing)
      else .error (.execute s.index s.device.name report.status) := by
  have hreport : (model.executeSynchronously request measure).2 = .ok report := hreport
  rw [run, hrequest, ok_bind]
  dsimp only
  rw [hreport]
  by_cases hstatus : report.status = .success
  · simp only [Except.mapError, ok_bind, hstatus, if_true]
    rfl
  · have hfails : (!report.status.isOk) = true := by
      rw [Bool.not_eq_true', Bool.eq_false_iff]
      exact fun h => hstatus (Status.isOk_iff.1 h)
    simp only [if_neg hstatus, Except.mapError, ok_bind, hfails, if_true]
    rfl

/-- A step runs if its request can be made up, the driver succeeds and every output can be read
back.  Then the values that the driver returns are known. -/
theorem run_eq_ok {known' : KnownValues} {timing : Timing} :
    s.run model measure known = .ok (known', timing) ↔
      ∃ request report, s.request known = .ok request ∧
        (s.call model measure request).report = .ok report ∧ report.status = .success ∧
        (s.call model measure request).Readable ∧
        known' = (s.call model measure request).returned ++ known ∧ timing = report.timing := by
  constructor
  · intro h
    obtain ⟨request, hrequest, hrest⟩ := bind_eq_ok.1 h
    obtain ⟨report, hreport, -⟩ := bind_eq_ok.1 hrest
    have hreport : (s.call model measure request).report = .ok report := mapError_eq_ok.1 hreport
    rw [run_of_report hrequest hreport] at h
    split at h
    · next hstatus =>
      obtain ⟨computed, hcomputed, heq⟩ := map_eq_ok.1 h
      obtain ⟨hreadable, rfl⟩ := mapM_outputValue_eq_ok.1 hcomputed
      obtain ⟨rfl, rfl⟩ := Prod.mk.inj heq
      exact ⟨request, report, hrequest, hreport, hstatus, hreadable, rfl, rfl⟩
    · cases h
  · rintro ⟨request, report, hrequest, hreport, hstatus, hreadable, rfl, rfl⟩
    have hcomputed : s.outputs.zipIdx.mapM (s.outputValue (s.call model measure request).after) =
        .ok _ := mapM_outputValue_eq_ok.2 ⟨hreadable, rfl⟩
    rw [run_of_report hrequest hreport, if_pos hstatus, hcomputed]
    rfl

/-- The outputs of an answered call can be read back. -/
theorem readable_of_answered (hrequest : s.request known = .ok request)
    (hanswered : (s.call model measure request).Answered) :
    (s.call model measure request).Readable := by
  obtain ⟨buffers, lengths, rfl, -, hlengths⟩ := request_eq_ok.1 hrequest
  obtain ⟨pools, hafter⟩ := model.executeSynchronously_fst (.ofBuffers buffers lengths) measure
  have hinside : pools.map (·.length) =
      (Request.ofBuffers buffers lengths).pools.map (·.length) := by
    have h := hanswered.inside
    rwa [call, hafter] at h
  rintro ⟨link, slot⟩ hentry
  obtain ⟨length, hlength, -⟩ :=
    counterpart (mapM_eq_ok.1 hlengths) (List.mem_zipIdx_iff_getElem?.1 hentry)
  have hlength : lengths[slot]? = some length := hlength
  obtain ⟨hbound, hmemory⟩ : (Request.ofBuffers buffers lengths).Reserves slot length :=
    Request.reserves_ofBuffers hlength
  -- the pool is as long as it has been, and the region no longer than the pool
  obtain ⟨pool, hpool, hpoolLength⟩ : ∃ pool,
      pools[(Request.ofBuffers buffers lengths).inputs.length + slot]? = some pool ∧
        pool.length = length := by
    rw [← Option.map_eq_some_iff, ← List.getElem?_map, hinside, List.getElem?_map, hmemory]
    simp
  refine ⟨pool.take (Request.regionLength length), ?_⟩
  rw [call, hafter]
  simp [Request.output, Request.read, hbound, hpool, hpoolLength, Request.regionLength_le]

/-- What is read back from a region can be handed on in a region. -/
theorem length_of_value (hrequest : s.request known = .ok request) {o : Nat} {bytes : Bytes}
    (hbytes : (s.call model measure request).value? o = some bytes) :
    bytes.length < UInt32.size := by
  obtain ⟨buffers, lengths, rfl, -, -⟩ := request_eq_ok.1 hrequest
  obtain ⟨pools, hafter⟩ := model.executeSynchronously_fst (.ofBuffers buffers lengths) measure
  obtain ⟨entry, -, he⟩ := List.mem_filterMap.1 (List.mem_reverse.1 (mem_of_lookup hbytes))
  obtain ⟨bytes', houtput, he⟩ := Option.map_eq_some_iff.1 he
  obtain rfl := (Prod.mk.inj he).2
  rw [call, hafter] at houtput
  exact Request.length_of_output houtput

end Step

/-! ## All steps -/

/-- The calls that running steps one after the other makes. -/
def callsOf (measure : Bool) : List (Step × PreparedModel) → KnownValues → List DriverCall
  | [], _ => []
  | (s, model) :: rest, known =>
    match s.request known with
    | .error _ => []
    | .ok request =>
      s.call model measure request ::
        match s.run model measure known with
        | .error _ => []
        | .ok (known, _) => callsOf measure rest known

section Run

variable {measure : Bool} {s : Step} {model : PreparedModel} {rest : List (Step × PreparedModel)}
  {known : KnownValues} {request : Request}

theorem callsOf_of_error (hrequest : s.request known = .ok request) {e : RunError}
    (hrun : s.run model measure known = .error e) :
    callsOf measure ((s, model) :: rest) known = [s.call model measure request] := by
  simp only [callsOf, hrequest, hrun]

theorem callsOf_of_ok (hrequest : s.request known = .ok request) {known' : KnownValues}
    {timing : Timing} (hrun : s.run model measure known = .ok (known', timing)) :
    callsOf measure ((s, model) :: rest) known =
      s.call model measure request :: callsOf measure rest known' := by
  simp only [callsOf, hrequest, hrun]

theorem runSteps_of_ok {known' : KnownValues} {timing : Timing}
    (hrun : s.run model measure known = .ok (known', timing)) :
    PreparedPlan.runSteps measure ((s, model) :: rest) known =
      (PreparedPlan.runSteps measure rest known').map
        fun result => (result.1, timing :: result.2) := by
  rw [PreparedPlan.runSteps, hrun, ok_bind]
  rfl

end Run

/-- A call is made by the step in its turn, on the values that the calls before it have left, all of
which have succeeded. -/
theorem getElem?_callsOf {measure : Bool} {pairs : List (Step × PreparedModel)}
    {known : KnownValues} {k : Nat} {call : DriverCall}
    (h : (callsOf measure pairs known)[k]? = some call) :
    ∃ s model, pairs[k]? = some (s, model) ∧ call = s.call model measure call.request ∧
      s.request (valuesAfter known ((callsOf measure pairs known).take k)) = .ok call.request ∧
      ∀ earlier ∈ (callsOf measure pairs known).take k, earlier.Succeeds := by
  induction pairs generalizing known k with
  | nil => simp [callsOf] at h
  | cons pair rest ih =>
    obtain ⟨s, model⟩ := pair
    cases hrequest : s.request known with
    | error e => simp [callsOf, hrequest] at h
    | ok request =>
      have hfirst : k = 0 → (callsOf measure ((s, model) :: rest) known)[k]? =
          some (s.call model measure request) := by
        rintro rfl
        simp only [callsOf, hrequest]
        rfl
      cases k with
      | zero =>
        obtain rfl := Option.some.inj ((hfirst rfl).symm.trans h)
        exact ⟨s, model, rfl, rfl, hrequest, by simp⟩
      | succ k =>
        cases hrun : s.run model measure known with
        | error e =>
          rw [callsOf_of_error hrequest hrun] at h
          simp at h
        | ok result =>
          obtain ⟨known', timing⟩ := result
          obtain ⟨request', report, hrequest', hreport, hstatus, -, rfl, -⟩ :=
            Step.run_eq_ok.1 hrun
          obtain rfl := Except.ok.inj (hrequest.symm.trans hrequest')
          rw [callsOf_of_ok hrequest hrun] at h ⊢
          obtain ⟨t, model', hpair, hcall, hknown, hall⟩ := ih h
          refine ⟨t, model', hpair, hcall, hknown, ?_⟩
          rw [List.take_succ_cons, List.forall_mem_cons]
          exact ⟨DriverCall.status?_eq_some.2 ⟨report, hreport, hstatus⟩, hall⟩

/-- A run that ends well has called every step with success, and knows what the calls have left. -/
theorem callsOf_of_runSteps {measure : Bool} {pairs : List (Step × PreparedModel)}
    {known known' : KnownValues} {timings : List Timing}
    (h : PreparedPlan.runSteps measure pairs known = .ok (known', timings)) :
    (callsOf measure pairs known).length = pairs.length ∧
      (∀ call ∈ callsOf measure pairs known, call.Succeeds) ∧
      known' = valuesAfter known (callsOf measure pairs known) := by
  induction pairs generalizing known timings with
  | nil => exact ⟨rfl, by simp [callsOf], (Prod.mk.inj (Except.ok.inj h)).1.symm⟩
  | cons pair rest ih =>
    obtain ⟨s, model⟩ := pair
    obtain ⟨⟨middle, timing⟩, hrun, -⟩ := bind_eq_ok.1 h
    obtain ⟨request, report, hrequest, hreport, hstatus, -, rfl, -⟩ := Step.run_eq_ok.1 hrun
    rw [runSteps_of_ok hrun] at h
    cases hrest : PreparedPlan.runSteps measure rest
        ((s.call model measure request).returned ++ known) with
    | error e => rw [hrest] at h; cases h
    | ok result =>
      rw [hrest] at h
      obtain ⟨rfl, -⟩ := Prod.mk.inj (Except.ok.inj h)
      obtain ⟨hlength, hall, hknown⟩ := ih hrest
      rw [callsOf_of_ok hrequest hrun]
      refine ⟨by rw [List.length_cons, List.length_cons, hlength], ?_, hknown⟩
      exact List.forall_mem_cons.2 ⟨DriverCall.status?_eq_some.2 ⟨report, hreport, hstatus⟩, hall⟩

/-- How a run ends all calls of which are answered. -/
inductive Ends (measure : Bool) (pairs : List (Step × PreparedModel)) (known : KnownValues) : Prop
  /-- Every step is called, and all of them succeed. -/
  | finished (timings : List Timing)
      (succeed : ∀ call ∈ callsOf measure pairs known, call.Succeeds)
      (length : (callsOf measure pairs known).length = pairs.length)
      (runs : PreparedPlan.runSteps measure pairs known =
        .ok (valuesAfter known (callsOf measure pairs known), timings))
  /-- The last call is the only one that does not succeed, and its status is the outcome. -/
  | failed (before : List DriverCall) (last : DriverCall) (status : Status)
      (calls : callsOf measure pairs known = before ++ [last])
      (succeed : ∀ call ∈ before, call.Succeeds)
      (fails : last.status? = some status ∧ status ≠ .success)
      (runs : PreparedPlan.runSteps measure pairs known =
        .error (.execute last.step.index last.step.device.name status))

/-- A run that ends goes on from a step that has succeeded before it. -/
theorem Ends.cons {measure : Bool} {s : Step} {model : PreparedModel}
    {rest : List (Step × PreparedModel)} {known known' : KnownValues} {timing : Timing}
    {request : Request} (hrequest : s.request known = .ok request)
    (hrun : s.run model measure known = .ok (known', timing))
    (hsucceeds : (s.call model measure request).Succeeds)
    (hknown : known' = (s.call model measure request).returned ++ known)
    (h : Ends measure rest known') : Ends measure ((s, model) :: rest) known := by
  have hcalls : callsOf measure ((s, model) :: rest) known =
      s.call model measure request :: callsOf measure rest known' := callsOf_of_ok hrequest hrun
  have hruns : PreparedPlan.runSteps measure ((s, model) :: rest) known =
      (PreparedPlan.runSteps measure rest known').map
        fun result => (result.1, timing :: result.2) := runSteps_of_ok hrun
  cases h with
  | finished timings succeed length runs =>
    refine .finished (timing :: timings) ?_ ?_ ?_
    · rw [hcalls]
      exact List.forall_mem_cons.2 ⟨hsucceeds, succeed⟩
    · rw [hcalls, List.length_cons, List.length_cons, length]
    · rw [hruns, runs, hcalls, hknown]
      rfl
  | failed before last status calls succeed fails runs =>
    refine .failed (s.call model measure request :: before) last status ?_ ?_ fails ?_
    · rw [hcalls, calls, List.cons_append]
    · exact List.forall_mem_cons.2 ⟨hsucceeds, succeed⟩
    · rw [hruns, runs]
      rfl

end NeuralDispatch

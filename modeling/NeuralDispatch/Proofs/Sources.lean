import NeuralDispatch.Proofs.Delivery

/-!
# Where operations take their values from

Validation looks at lifetimes and an evaluation at what is listed, held and computed.  The two
agree but for one case: an operand may count as an input of the model without being listed as one.

* `Sourced` — whether an operand has a value when the operations of a list have been evaluated.
* `Undeclared`, `Unsupplied` — the operands that validation does not ask for.
* `Valid.sourced_iff` — every other operand has a source when an operation reads it.
* `run_of_unsupplied`, `execute_of_undeclared` — nothing that reads one of them can be run, neither
  directly nor by a plan.
* `sources` — all of it, for the order in which a validated model is evaluated.
* `forgotten_unsourced` — a validated model the only operation of which reads such an operand.
-/

namespace NeuralDispatch

open Answer

namespace Model

/-- Where an operand has its value from when certain operations have been evaluated. -/
inductive Sourced (m : Model) (earlier : List Nat) (o : Nat) : Prop
  | input (listed : o ∈ m.inputs)
  | payload {operand : Operand} (added : m.operands[o]? = some operand)
      (held : operand.value ≠ none)
  | absent {operand : Operand} (added : m.operands[o]? = some operand)
      (left : operand.lifetime = .noValue)
  | computed {w : Nat} {writer : Operation} (before : w ∈ earlier)
      (found : m.operations[w]? = some writer) (writes : o ∈ writer.outputs)

/-- Whether an operand counts as an input of the model, but is not listed as one. -/
structure Undeclared (m : Model) (o : Nat) : Prop where
  marked : ∃ operand, m.operands[o]? = some operand ∧ operand.lifetime = .modelInput
  unlisted : o ∉ m.inputs

/-- Whether nobody gives such an operand a value. -/
structure Unsupplied (m : Model) (o : Nat) : Prop where
  undeclared : Undeclared m o
  blank : ∀ operand, m.operands[o]? = some operand → operand.value = none

/-! ## What validation guarantees -/

section Valid

variable {m : Model} (h : Valid m)

include h

theorem Sourced.supplied {earlier : List Nat} {o : Nat} (hsourced : Sourced m earlier o) :
    ¬ Unsupplied m o := by
  rintro ⟨⟨⟨operand, ho, hlifetime⟩, hunlisted⟩, hblank⟩
  cases hsourced with
  | input listed => exact hunlisted listed
  | payload added held => exact held (hblank _ added)
  | absent added left =>
    obtain rfl := Option.some.inj (ho.symm.trans added)
    cases hlifetime.symm.trans left
  | computed before found writes =>
    exact h.not_written ho (by rw [hlifetime]; rfl)
      (mem_written.2 ⟨_, List.mem_of_getElem? found, writes⟩)

/-- An operation that is ready to be evaluated finds whatever it reads, unless that is an input
nobody supplies. -/
theorem Valid.sourced_iff (sound : Sound m) {earlier : List Nat} {i o : Nat} {op : Operation}
    (hready : Ready m.edges earlier i) (hop : m.operations[i]? = some op) (ho : o ∈ op.inputs) :
    Sourced m earlier o ↔ ¬ Unsupplied m o := by
  refine ⟨fun hsourced => hsourced.supplied h, fun hsupplied => ?_⟩
  have hmem := List.mem_of_getElem? hop
  obtain ⟨operand, hoperand⟩ := exists_operand (h.exist op hmem o (List.mem_append_left _ ho))
  have hcomputed : operand.lifetime.needsProducer = true → Sourced m earlier o := fun hneeds => by
    have hwritten := h.mem_written_of_read sound hmem ho hoperand hneeds
    obtain ⟨w, hw⟩ := Option.isSome_iff_exists.1 (isSome_producer?.2 hwritten)
    obtain ⟨writer, hwriter, hwrites⟩ := lastWriter_eq_some hw
    exact .computed (hready _ (mem_edges.2 ⟨op, o, hop, ho, hw⟩) rfl) hwriter hwrites
  have hconstant : operand.isConstant = true → Sourced m earlier o := fun hconstant =>
    .payload hoperand (h.valued o operand hoperand hconstant)
  cases hlifetime : operand.lifetime with
  | temporary => exact hcomputed (by rw [hlifetime]; rfl)
  | modelOutput => exact hcomputed (by rw [hlifetime]; rfl)
  | constantCopy => exact hconstant (by rw [Operand.isConstant, hlifetime]; rfl)
  | constantReference => exact hconstant (by rw [Operand.isConstant, hlifetime]; rfl)
  | noValue => exact .absent hoperand hlifetime
  | modelInput =>
    by_cases hlisted : o ∈ m.inputs
    · exact .input hlisted
    · have hundeclared : Undeclared m o := ⟨⟨operand, hoperand, hlifetime⟩, hlisted⟩
      refine .payload hoperand fun hblank => hsupplied ⟨hundeclared, fun operand' hoperand' => ?_⟩
      rw [← Option.some.inj (hoperand.symm.trans hoperand'), hblank]

end Valid

end Model

/-! ## Interpretation -/

namespace Interpreter

open Model

/-- Constants bind nothing else. -/
theorem bindConstants_blank {m : Model} {v : Valuation} (h : bindConstants m = some v) {o : Nat}
    (hblank : ∀ operand, m.operands[o]? = some operand → operand.value = none) : v o = none := by
  rw [bindConstants_eq] at h
  obtain ⟨-, rfl⟩ := foldlM_bindBytes.1 h
  have hnone : (constants m).reverse.lookup o = none := lookup_eq_none fun bytes hmem => by
    obtain ⟨operand, hoperand, hvalue⟩ := mem_constants.1 (List.mem_reverse.1 hmem)
    rw [hblank operand hoperand] at hvalue
    cases hvalue
  simp only [hnone, Option.bind_none]

/-- Inputs bind nothing else. -/
theorem bindInputs_of_not_mem {m : Model} {r : Request} {v v' : Valuation}
    (h : bindInputs m r v = some v') {o : Nat} (ho : o ∉ m.inputs) : v' o = v o := by
  have hentries : ∀ (entries : List (Nat × Nat)) (v' : Valuation),
      entries.foldlM (fun v e => (readInput m r e.1 e.2).map (v.bind e.1)) v = some v' →
        o ∉ entries.map (·.1) → v' o = v o := by
    intro entries
    induction entries using List.reverseRecOn with
    | nil => exact fun v' h _ => congrFun (Option.some.inj h).symm o
    | append_singleton init e ih =>
      intro v' h ho
      rw [List.map_append, List.map_singleton, List.mem_append, List.mem_singleton] at ho
      obtain ⟨u, hu, he⟩ := foldlM_concat_eq_some.1 h
      obtain ⟨t, -, rfl⟩ := Option.map_eq_some_iff.1 he
      rw [Valuation.bind_of_ne _ _ fun heq => ho (.inr heq), ih u hu fun hmem => ho (.inl hmem)]
  refine hentries _ v' h ?_
  rw [List.zipIdx_map_fst]
  exact ho

/-- Nothing is evaluated that reads an input nobody supplies. -/
theorem run_of_unsupplied {m : Model} (h : Valid m) {op : Operation} (hop : op ∈ m.operations)
    {o : Nat} (ho : o ∈ op.inputs) (hunsupplied : Unsupplied m o) (r : Request) :
    ∃ status, (status = .generalFailure ∨ status = .invalidArgument) ∧
      run m r = (r, { status }) := by
  rcases values_cases m r with
    ⟨v₀, v₁, order, v, hconstants, hinputs, horder, hevaluate, -⟩ | hvalues | hvalues
  · exfalso
    obtain ⟨hperm, hordered⟩ := topologicalOrder_ok horder
    obtain ⟨hcomputes, hkept⟩ := foldlM_evaluate h.single hordered hevaluate
    obtain ⟨⟨⟨operand, hoperand, hlifetime⟩, hunlisted⟩, hblank⟩ := hunsupplied
    obtain ⟨i, hi⟩ := List.mem_iff_getElem?.1 hop
    have hlisted : i ∈ order :=
      hperm.mem_iff.2 (List.mem_range.2 (List.getElem?_eq_some_iff.1 hi).1)
    obtain ⟨op', args, -, -, hop', hargs, -⟩ := hcomputes i hlisted
    obtain rfl := Option.some.inj (hi.symm.trans hop')
    obtain ⟨t, ht⟩ := exists_of_mapM_eq_some hargs ho
    have hnone : v o = none := by
      rw [hkept o, bindInputs_of_not_mem hinputs hunlisted, bindConstants_blank hconstants hblank]
      intro j _ writer hwriter hhead
      exact h.not_written hoperand (by rw [hlifetime]; rfl)
        (mem_written.2 ⟨writer, List.mem_of_getElem? hwriter, List.mem_of_head? hhead⟩)
    rw [hnone] at ht
    cases ht
  · exact ⟨_, .inl rfl, by rw [run, hvalues]⟩
  · exact ⟨_, .inr rfl, by rw [run, hvalues]⟩

end Interpreter

/-! ## Plans -/

namespace Plan

open Model

variable {whole : Model} {p : Plan}

/-- The step that runs an operation takes what counts as an input of the whole model for one. -/
theorem Bookkeeping.exists_reader (h : Bookkeeping whole p) (hvalid : Valid whole) {op : Operation}
    (hop : op ∈ whole.operations) {o : Nat} (ho : o ∈ op.inputs) {operand : Operand}
    (hoperand : whole.operands[o]? = some operand) (hlifetime : operand.lifetime = .modelInput) :
    ∃ s ∈ p.steps, o ∈ s.modelInputs.map (·.operand) := by
  have hforeign : ∀ t : Step, o ∉ computed whole t := fun t =>
    Step.not_computed hvalid hoperand (by rw [hlifetime]; rfl)
  obtain ⟨i, hi⟩ := List.mem_iff_getElem?.1 hop
  obtain ⟨s, hs, hmem⟩ := List.mem_flatMap.1
    (h.covered.mem_iff.2 (List.mem_range.2 (List.getElem?_eq_some_iff.1 hi).1))
  obtain ⟨operand', hoperand', hgiven⟩ := h.available s hs i hmem op hi o ho
  obtain rfl := Option.some.inj (hoperand.symm.trans hoperand')
  refine ⟨s, hs, ?_⟩
  rcases hgiven with hconstant | habsent | hlisted | hcross | hcomputed
  · rw [Operand.isConstant, hlifetime] at hconstant
    cases hconstant
  · cases hlifetime.symm.trans habsent
  · exact hlisted
  · obtain ⟨c, hc⟩ := List.mem_iff_getElem?.1 hs
    obtain ⟨q, t, -, -, hcomputed, -⟩ := h.handed c s hc o hcross
    exact absurd hcomputed (hforeign t)
  · exact absurd hcomputed (hforeign s)

end Plan

namespace PreparedPlan

open Model

/-- No plan runs to its end if an operation reads what counts as an input and is not listed. -/
theorem execute_of_undeclared {m : Model} (hbuilt : Built m) {op : Operation}
    (hop : op ∈ m.operations) {o : Nat} (ho : o ∈ op.inputs) (hundeclared : Undeclared m o)
    {devices : List Device} {preference : Preference} {p : Plan}
    (hplan : Plan.partition m devices preference = .ok p) {models : List PreparedModel}
    (hmodels : models.length = p.steps.length) (inputs : List Bytes) (measure : Bool) :
    ∃ e, execute ⟨p, models⟩ inputs measure = .error e := by
  cases hexecute : execute ⟨p, models⟩ inputs measure with
  | error e => exact ⟨e, rfl⟩
  | ok outputs =>
    exfalso
    obtain ⟨⟨operand, hoperand, hlifetime⟩, hunlisted⟩ := hundeclared
    obtain ⟨steps, flow, hcarving, hassembly, rfl, -⟩ :=
      Plan.partition_eq_ok hbuilt (Plan.validate_of_partition hplan) hplan
    obtain ⟨s, hs, hread⟩ :=
      hassembly.bookkeeping.exists_reader hcarving.valid hop ho hoperand hlifetime
    obtain ⟨k, hk⟩ := List.mem_iff_getElem?.1 hs
    -- the step is called, so that the value it reads is known then
    obtain ⟨hcount, -, -⟩ := calls_of_execute hexecute
    have hlt : k < (calls ⟨Plan.assembled m steps flow, models⟩ inputs measure).length := by
      rw [hcount, List.length_zip, hmodels, Nat.min_self]
      exact (List.getElem?_eq_some_iff.1 hk).1
    obtain ⟨s', model, hs', -, -, hrequest⟩ := step_of_call (List.getElem?_eq_getElem hlt)
    obtain rfl := Option.some.inj (hk.symm.trans hs')
    obtain ⟨buffers, lengths, -, hbuffers, -⟩ := Step.request_eq_ok.1 hrequest
    obtain ⟨link, hlink, rfl⟩ := List.mem_map.1 hread
    obtain ⟨bytes, -, hlookup⟩ := counterpart_mem hbuffers (List.mem_append_left _ hlink)
    rcases exists_of_lookup_valuesAfter hlookup with ⟨q, call, hcall, hbytes, -⟩ | ⟨-, hknown⟩
    · have hcalled := List.mem_of_mem_take (List.mem_of_getElem? hcall)
      obtain ⟨r, hr⟩ := List.mem_iff_getElem?.1 hcalled
      have hreturned : link.operand ∈ call.step.outputs.map (·.operand) := by
        by_contra hother
        rw [DriverCall.value?_eq_none hother] at hbytes
        cases hbytes
      have hcomputed := hcarving.computed_of_output hassembly
        (List.mem_of_getElem? (step_eq_of_call hr)) hreturned
      exact Step.not_computed hcarving.valid hoperand (by rw [hlifetime]; rfl) hcomputed
    · exact hunlisted (List.of_mem_zip (List.mem_reverse.1 (Interpreter.mem_of_lookup hknown))).1

end PreparedPlan

/-! ## Validated models -/

open Model

/-- A validated model has an order in which each operation comes once and finds whatever it reads,
unless it reads what counts as an input of the model and is not listed as one.  Such a model can not
be run: an interpretation fails, if the operand holds no bytes either, and so does every plan. -/
theorem sources {m : Model} (hbuilt : Built m) (hvalid : m.validate = .ok ()) :
    ∃ order, m.topologicalOrder = .ok order ∧ order.Perm (List.range m.operations.length) ∧
      (∀ before i after op, order = before ++ i :: after → m.operations[i]? = some op →
        ∀ o ∈ op.inputs, Sourced m before o ↔ ¬ Unsupplied m o) ∧
      ∀ op ∈ m.operations, ∀ o ∈ op.inputs,
        (Unsupplied m o → ∀ r, ∃ status, (status = .generalFailure ∨ status = .invalidArgument) ∧
          Interpreter.run m r = (r, { status })) ∧
        (Undeclared m o → ∀ devices preference p, Plan.partition m devices preference = .ok p →
          ∀ models, models.length = p.steps.length → ∀ inputs measure,
            ∃ e, PreparedPlan.execute ⟨p, models⟩ inputs measure = .error e) := by
  have h := validate_eq_ok_iff.1 hvalid
  obtain ⟨order, horder⟩ := h.acyclic
  obtain ⟨hperm, hordered⟩ := topologicalOrder_ok horder
  refine ⟨order, horder, hperm, fun before i after op hsplit hop o ho => ?_,
    fun op hop o ho => ⟨fun hunsupplied r => Interpreter.run_of_unsupplied h hop ho hunsupplied r,
      fun hundeclared devices preference p hplan models hmodels inputs measure =>
        PreparedPlan.execute_of_undeclared hbuilt hop ho hundeclared hplan hmodels inputs measure⟩⟩
  rw [hsplit, List.reverse_append, List.reverse_cons, List.append_assoc,
    List.singleton_append] at hordered
  obtain ⟨-, hready, -⟩ := hordered.of_append
  exact h.sourced_iff hbuilt.sound (hready.mono fun w hw => List.mem_reverse.1 hw) hop ho

/-! ## An input that is forgotten -/

/-- A second identification leaves out an input that the first one has marked. -/
def forgotten : Model := performAll {} [
  .addOperand { type := .tensorFloat32, dimensions := [1] },
  .addOperand { type := .tensorFloat32, dimensions := [1] },
  .addOperation .relu [0] [1],
  .identify [0] [1],
  .identify [] [1]]

theorem unsupplied_forgotten : Unsupplied forgotten 0 where
  undeclared := ⟨⟨_, rfl, rfl⟩, by decide⟩
  blank := by
    intro operand hoperand
    obtain rfl := Option.some.inj hoperand
    rfl

/-- The model passes validation and is partitioned, but its only operation has no source for what it
reads, so that neither an interpretation succeeds nor a run of the plan. -/
theorem sources_forgotten :
    Built forgotten ∧ forgotten.validate = .ok () ∧ ¬ Sourced forgotten [] 0 ∧
      (∀ r, (Interpreter.run forgotten r).2.status ≠ .success) ∧
      ∃ p, Plan.partition forgotten Plan.specialists .fastSingleAnswer = .ok p ∧
        ∀ models, models.length = p.steps.length → ∀ inputs measure,
          ∃ e, PreparedPlan.execute ⟨p, models⟩ inputs measure = .error e := by
  have hvalid : forgotten.validate = .ok () := by decide
  have hbuilt : Built forgotten := ⟨_, rfl⟩
  obtain ⟨order, horder, -, hsourced, hfails⟩ := sources hbuilt hvalid
  obtain rfl : [0] = order := Except.ok.inj ((by decide :
    forgotten.topologicalOrder = .ok [0]).symm.trans horder)
  obtain ⟨hinterpret, hexecute⟩ :=
    hfails _ (List.mem_of_getElem? (rfl : forgotten.operations[0]? = some _)) 0 (by decide)
  obtain ⟨p, hplan⟩ : ∃ p, Plan.partition forgotten Plan.specialists .fastSingleAnswer = .ok p :=
    ⟨_, rfl⟩
  refine ⟨hbuilt, hvalid, fun h => ?_, fun r => ?_, p, hplan, ?_⟩
  · exact (hsourced [] 0 [] _ rfl rfl 0 (by decide)).1 h unsupplied_forgotten
  · obtain ⟨status, hstatus, hrun⟩ := hinterpret unsupplied_forgotten r
    rw [hrun]
    rcases hstatus with rfl | rfl <;> simp
  · exact hexecute unsupplied_forgotten.undeclared _ _ p hplan

/-- A validated model the only operation of which reads an operand that is not listed, holds no
bytes, is not left out and is written by no operation. -/
theorem forgotten_unsourced :
    Built forgotten ∧ forgotten.validate = .ok () ∧ forgotten.topologicalOrder = .ok [0] ∧
      (∃ op, forgotten.operations[0]? = some op ∧ 0 ∈ op.inputs) ∧ ¬ Sourced forgotten [] 0 ∧
      (Interpreter.run forgotten (.ofBuffers [] [4])).2.status = .generalFailure := by
  refine ⟨⟨_, rfl⟩, by decide, by decide, ⟨_, rfl, by decide⟩, ?_, by decide⟩
  exact fun hsourced =>
    hsourced.supplied (validate_eq_ok_iff.1 (by decide)) unsupplied_forgotten

end NeuralDispatch

import NeuralDispatch.Proofs.Attempts

/-!
# Operands with several writers

Finishing a plan does not validate the model as a whole.  In a model that has not been validated,
several operations may write one operand; each of them may lie in a step whose own model is well
formed, and of these steps the plan only knows the last.

* `length_writers` — in a finished plan there are as many as there are operations that write it.
* `ReadsLast` — what the plan makes sure of: the last writer of what a step reads comes before that
  step.
* `finish_writers` — a finished plan makes sure of this, and nothing but the well-formedness of the
  model as a whole excludes that there are other writers.
* `finish_rewritten` — there may be others.
-/

namespace NeuralDispatch.Plan

open Answer Model Step

/-! ## How many writers there are -/

theorem length_filter_contains {α β : Type} [BEq β] [LawfulBEq β] {f : α → List β} {b : β}
    {xs : List α} (hf : ∀ x ∈ xs, (f x).Nodup) :
    (xs.filter fun x => (f x).contains b).length = (xs.flatMap f).count b := by
  induction xs with
  | nil => rfl
  | cons x rest ih =>
    obtain ⟨hx, hrest⟩ := List.forall_mem_cons.1 hf
    rw [List.flatMap_cons, List.count_append, ← ih hrest, List.filter_cons]
    by_cases hb : b ∈ f x
    · rw [if_pos (List.contains_iff_mem.2 hb), List.length_cons, List.count_eq_one_of_mem hx hb,
        Nat.add_comm]
    · rw [if_neg (by simpa using hb), List.count_eq_zero.2 hb, Nat.zero_add]

/-- What the operations write, by their positions. -/
theorem written_eq_flatMap_range (m : Model) :
    m.written = (List.range m.operations.length).flatMap fun i =>
      (m.operations[i]?.map (·.outputs)).getD [] := by
  have hall : (List.range m.operations.length).map (m.operations[·]?) =
      m.operations.map some := by
    apply List.ext_getElem (by simp)
    intro i hi hi'
    simp
  have hsame := congrArg (List.flatMap fun op => (op.map (·.outputs)).getD []) hall
  rw [List.flatMap_map, List.flatMap_map] at hsame
  exact hsame.symm

/-- Steps that hold each operation once compute what the model writes. -/
theorem flatMap_computed_perm {whole : Model} {steps : List Step}
    (hcovered : (steps.flatMap (·.operations)).Perm (List.range whole.operations.length)) :
    (steps.flatMap (computed whole)).Perm whole.written := by
  have hflat : steps.flatMap (computed whole) = (steps.flatMap (·.operations)).flatMap fun i =>
      (whole.operations[i]?.map (·.outputs)).getD [] := List.flatMap_assoc.symm
  rw [hflat, written_eq_flatMap_range]
  exact hcovered.flatMap_right _

/-- A step with a well-formed model writes no operand twice. -/
theorem nodup_computed_of_valid {whole : Model} {s : Step} {links : List Link} {relaxed : Bool}
    (h : Filled whole s) (hvalid : Valid (s.finished links relaxed).model) :
    (computed whole s).Nodup := by
  refine (List.rel_nodup h.biUnique h.forall₂_computed).2 ?_
  exact hvalid.single

/-! ## What steps read of the last writer -/

/-- What a plan makes sure of when its step `c` reads an operand of others and `q` is the last step
that writes it. -/
structure ReadsLast (whole : Model) (p : Plan) (c o q : Nat) : Prop where
  earlier : q < c
  writes : ∃ t, p.steps[q]? = some t ∧ o ∈ computed whole t
  last : ∀ (r : Nat) u, p.steps[r]? = some u → o ∈ computed whole u → r ≤ q
  /-- Every writer returns an output of the whole model.  All else is handed on by the last writer,
  and what others have written is lost. -/
  handed : ∃ operand, whole.operands[o]? = some operand ∧
    (operand.lifetime = .modelOutput ∧
        (∀ (r : Nat) u, p.steps[r]? = some u → o ∈ computed whole u →
          o ∈ u.modelOutputs.map (·.operand)) ∨
      operand.lifetime = .temporary ∧
        ∀ (r : Nat) u, p.steps[r]? = some u →
          (u.crossOutputs.map (·.operand)).count o = if r = q then 1 else 0)

section Tracked

variable {whole : Model} {steps : List Step} {flow : Flow} {c o q : Nat} {s : Step}

theorem readsLast_assembled (htracks : Flow.Tracks steps whole (reads steps) flow)
    (hnumbered : ∀ (c : Nat) s, steps[c]? = some s → s.index = c)
    (hfilled : ∀ s ∈ steps, Filled whole s)
    (hs : (assembled whole steps flow).steps[c]? = some s)
    (ho : o ∈ s.crossInputs.map (·.operand)) :
    ∃ q, ReadsLast whole (assembled whole steps flow) c o q := by
  obtain ⟨t, links, ht, -, rfl⟩ := getElem?_assembled.1 hs
  have hread : (c, o) ∈ reads steps :=
    mem_reads.2 ⟨t, List.mem_of_getElem? ht, hnumbered c t ht, ho⟩
  obtain ⟨q, hq, hlt⟩ := htracks.produced c o hread
  obtain ⟨⟨w, hw, how⟩, hlast⟩ := (producer?_eq_some_iff_last hnumbered).1 hq
  have hlength := (List.getElem?_eq_some_iff.1 hw).1
  rw [← htracks.length_eq] at hlength
  refine ⟨q, hlt, ?_, ?_, ?_⟩
  · exact ⟨_, getElem?_assembled.2 ⟨w, _, hw, List.getElem?_eq_getElem hlength, rfl⟩, how⟩
  · intro r u hu hou
    obtain ⟨v, links', hv, -, rfl⟩ := getElem?_assembled.1 hu
    exact hlast r v hv hou
  · obtain ⟨link, hlink, rfl⟩ := List.mem_map.1 ho
    obtain ⟨-, source, hsource, hneeds⟩ :=
      (hfilled t (List.mem_of_getElem? ht)).crossInputs link hlink
    refine ⟨source, hsource, ?_⟩
    rcases Lifetime.needsProducer_iff.1 hneeds with htemporary | houtput
    · right
      refine ⟨htemporary, fun r u hu => ?_⟩
      obtain ⟨v, links', -, hlinks', rfl⟩ := getElem?_assembled.1 hu
      exact count_handed htracks hread hq hsource htemporary hlinks'
    · left
      refine ⟨houtput, fun r u hu hou => ?_⟩
      obtain ⟨v, links', hv, -, rfl⟩ := getElem?_assembled.1 hu
      show _ ∈ v.modelOutputs.map (·.operand)
      exact returned_of_writer htracks hnumbered (hfilled v (List.mem_of_getElem? hv)) hv hou
        hsource houtput

/-- As many steps of a finished plan write an operand as operations do. -/
theorem length_writers (hlength : flow.crossOutputs.length = steps.length)
    (hfilled : ∀ s ∈ steps, Filled whole s)
    (hcovered : (steps.flatMap (·.operations)).Perm (List.range whole.operations.length))
    (hall : ∀ e ∈ steps.zip flow.crossOutputs, (e.1.finish e.2 whole.relaxed).2 = .ok ()) :
    (writers whole (assembled whole steps flow).steps o).length = whole.written.count o := by
  have honce : ∀ u ∈ (assembled whole steps flow).steps, (computed whole u).Nodup := by
    intro u hu
    obtain ⟨r, hr⟩ := List.mem_iff_getElem?.1 hu
    obtain ⟨v, links, hv, hlinks, rfl⟩ := getElem?_assembled.1 hr
    show (computed whole v).Nodup
    exact nodup_computed_of_valid (hfilled v (List.mem_of_getElem? hv))
      (valid_of_finish hall hv hlinks)
  have hsame : (assembled whole steps flow).steps.flatMap (·.operations) =
      steps.flatMap (·.operations) := operations_assembled hlength
  rw [← hsame] at hcovered
  rw [writers, length_filter_contains honce]
  exact (flatMap_computed_perm hcovered).count_eq o

end Tracked

/-- A plan can only be finished if the last writer of whatever a step reads of others comes before
that step.  That the operand has one writer only is up to the model as a whole: as many steps write
it as operations do, which is one if the model is well formed. -/
theorem finish_writers {whole : Model} {p p' : Plan} (hbuilt : BuiltFrom whole p)
    (hfinish : p.finish whole = (p', .ok ())) {c o : Nat} {s : Step}
    (hs : p'.steps[c]? = some s) (ho : o ∈ s.crossInputs.map (·.operand)) :
    (∃ q, ReadsLast whole p' c o q) ∧
      (writers whole p'.steps o).length = whole.written.count o ∧
      (whole.validate = .ok () → ∃ t, writers whole p'.steps o = [t]) := by
  obtain ⟨steps, hsteps, rfl⟩ := hbuilt.exists_steps hfinish
  obtain ⟨-, hcovered, flow, hflow, hall, rfl⟩ := finish_eq_ok.1 hfinish
  have htracks := tracks_of_flow hflow
  have hfilled : ∀ s ∈ Plan.numbered steps, Filled whole s := fun s hs => by
    obtain ⟨c, hc⟩ := List.mem_iff_getElem?.1 hs
    obtain ⟨-, t, ht, rfl⟩ := getElem?_numbered hc
    exact (hsteps t (List.mem_of_getElem? ht)).filled.withIndex c
  have hreads := readsLast_assembled htracks (fun c s hs => (getElem?_numbered hs).1) hfilled hs ho
  have hlength : (writers whole (assembled whole (Plan.numbered steps) flow).steps o).length =
      whole.written.count o := length_writers htracks.length_eq hfilled hcovered hall
  refine ⟨hreads, hlength, fun hwell => ?_⟩
  obtain ⟨q, hq⟩ := hreads
  obtain ⟨t, ht, hot⟩ := hq.writes
  have hwritten : o ∈ whole.written := by
    rw [← List.count_pos_iff, ← hlength]
    exact List.length_pos_of_mem (mem_writers.2 ⟨List.mem_of_getElem? ht, hot⟩)
  rw [List.count_eq_one_of_mem (validate_eq_ok_iff.1 hwell).single hwritten] at hlength
  exact List.length_eq_one_iff.1 hlength

/-! ## An operand that is written twice -/

/-- Operand `1` is written by two operations, and read by a third. -/
def rewriting : Model := performAll {} [
  .addOperand { type := .tensorFloat32, dimensions := [2] },
  .addOperand { type := .tensorFloat32, dimensions := [2] },
  .addOperand { type := .tensorFloat32, dimensions := [2] },
  .addOperand { type := .tensorFloat32, dimensions := [2] },
  .addOperation .relu [0] [1],
  .addOperation .floor [0] [2],
  .addOperation .floor [0] [1],
  .addOperation .relu [1] [3],
  .identify [0] [2, 3]]

/-- The two writers of operand `1` in a step each, and its reader in the last one. -/
def rewritingSteps : List Step :=
  [[.addOperand 0 .input, .addOperand 1 .output, .addOperand 2 .output, .addOperation 0,
      .addOperation 1],
    [.addOperand 0 .input, .addOperand 1 .output, .addOperation 2],
    [.addOperand 1 .input, .addOperand 3 .output, .addOperation 3]].map
      (List.foldl (Step.perform rewriting)
        { device := { name := "cpu", handle := .invalid, coverage := .full } })

theorem builtFrom_rewriting : BuiltFrom rewriting { steps := Plan.numbered rewritingSteps } := by
  have hsteps : ∀ s ∈ rewritingSteps, FilledFrom rewriting s := by
    simp only [rewritingSteps, List.forall_mem_map]
    exact fun calls _ => ⟨_, calls, rfl⟩
  have hfirst := hsteps rewritingSteps[0] (List.getElem_mem _)
  have hsecond := hsteps rewritingSteps[1] (List.getElem_mem _)
  have hthird := hsteps rewritingSteps[2] (List.getElem_mem _)
  exact .addStep (.addStep (.addStep .new hfirst rfl) hsecond rfl) hthird rfl

theorem finish_rewriting_ok :
    (finish { steps := Plan.numbered rewritingSteps } rewriting).2 = .ok () := by rfl

/-- The last step reads the operand of the second one, which is the last to write it. -/
theorem finish_writers_rewriting :
    BuiltFrom rewriting { steps := Plan.numbered rewritingSteps } ∧
      (finish { steps := Plan.numbered rewritingSteps } rewriting).2 = .ok () ∧
      ∃ q, ReadsLast rewriting (finish { steps := Plan.numbered rewritingSteps } rewriting).1 2 1
        q := by
  obtain ⟨s, hs, ho⟩ : ∃ s, (finish { steps := Plan.numbered rewritingSteps } rewriting).1.steps[2]?
      = some s ∧ 1 ∈ s.crossInputs.map (·.operand) := ⟨_, rfl, by decide⟩
  exact ⟨builtFrom_rewriting, finish_rewriting_ok,
    (finish_writers builtFrom_rewriting (Prod.ext rfl finish_rewriting_ok) hs ho).1⟩

/-- A plan is finished although what its last step reads is written by two steps. -/
theorem finish_rewritten :
    BuiltFrom rewriting { steps := Plan.numbered rewritingSteps } ∧
      (finish { steps := Plan.numbered rewritingSteps } rewriting).2 = .ok () ∧
      ∃ s ∈ (finish { steps := Plan.numbered rewritingSteps } rewriting).1.steps,
        1 ∈ s.crossInputs.map (·.operand) ∧
        (writers rewriting (finish { steps := Plan.numbered rewritingSteps } rewriting).1.steps
          1).map (·.index) = [0, 1] := by
  refine ⟨builtFrom_rewriting, finish_rewriting_ok, ?_⟩
  exact ⟨_, List.mem_of_getElem? (i := 2) rfl, by decide, by rfl⟩

end NeuralDispatch.Plan

import NeuralDispatch.Driver.Reference
import NeuralDispatch.Proofs.Assignment
import NeuralDispatch.Proofs.Schedule
import NeuralDispatch.Proofs.StepModel

/-!
# When a model can be partitioned

The steps that are carved out of a well-formed model always pass the checks of a plan, so that only
a step that passes nothing out can be refused.

* `flow_ok` — the data can flow between carved steps.
* `Delivers` — whether a group computes something that is asked for elsewhere.
* `partition_spec` — a model is partitioned when every operation is supported and every group
  delivers something; otherwise the refusal says which of the two fails.
-/

namespace NeuralDispatch

open Answer Model Step

/-! ## Carved steps together -/

namespace Plan

/-- Steps that are carved out of a model one after the other. -/
structure Carving (whole : Model) (steps : List Step) : Prop where
  valid : Valid whole
  carved : ∀ s ∈ steps, Carved whole s
  numbered : ∀ (c : Nat) s, steps[c]? = some s → s.index = c
  operations_ne : ∀ s ∈ steps, s.operations ≠ []
  covered : (steps.flatMap (·.operations)).Perm (List.range whole.operations.length)
  ordered : Ordered whole.edges (steps.flatMap (·.operations)).reverse

namespace Carving

variable {whole : Model} {steps : List Step}

theorem separate (h : Carving whole steps) : Separate steps whole :=
  ⟨h.numbered, h.covered.nodup_iff.2 List.nodup_range, h.valid.single⟩

/-- The operations of a step, behind those of the steps before it. -/
theorem ordered_step (h : Carving whole steps) {c : Nat} {s : Step} (hs : steps[c]? = some s) :
    Ordered whole.edges
      (s.operations.reverse ++ ((steps.take c).flatMap (·.operations)).reverse) := by
  obtain ⟨hlt, rfl⟩ := List.getElem?_eq_some_iff.1 hs
  have hordered := h.ordered
  rw [← List.take_append_drop c steps, List.drop_eq_getElem_cons hlt, List.flatMap_append,
    List.flatMap_cons, List.reverse_append, List.reverse_append, List.append_assoc] at hordered
  exact hordered.of_append

/-- What a step takes from others is computed by an earlier one. -/
theorem exists_producer (h : Carving whole steps) (sound : Sound whole) {c o : Nat} {s : Step}
    (hs : steps[c]? = some s) (ho : o ∈ s.crossInputs.map (·.operand)) :
    ∃ (p : Nat) (t : Step), steps[p]? = some t ∧ p < c ∧ o ∈ computed whole t := by
  have hcarved := h.carved s (List.mem_of_getElem? hs)
  obtain ⟨hread, hforeign⟩ := hcarved.foreign o ho
  obtain ⟨r, hr, reader, hreader, hread⟩ := mem_consumed.1 hread
  obtain ⟨link, hlink, rfl⟩ := List.mem_map.1 ho
  obtain ⟨-, source, hsource, hneeds⟩ := hcarved.filled.crossInputs link hlink
  have hwritten := h.valid.mem_written_of_read sound (List.mem_of_getElem? hreader) hread hsource
    hneeds
  obtain ⟨j, hj⟩ := Option.isSome_iff_exists.1 (Model.isSome_producer?.2 hwritten)
  obtain ⟨writer, hwriter, hwrites⟩ := lastWriter_eq_some hj
  have hbefore := (h.ordered_step hs).closed (mem_edges.2 ⟨reader, _, hreader, hread, hj⟩)
    (List.mem_append_left _ (List.mem_reverse.2 hr))
  rcases List.mem_append.1 hbefore with hown | hearlier
  · exact absurd (mem_computed.2 ⟨j, List.mem_reverse.1 hown, writer, hwriter, hwrites⟩) hforeign
  · obtain ⟨t, ht, hjt⟩ := List.mem_flatMap.1 (List.mem_reverse.1 hearlier)
    obtain ⟨p, hp⟩ := List.mem_iff_getElem?.1 ht
    have hpc : p < c := by
      have hlt := (List.getElem?_eq_some_iff.1 hp).1
      rw [List.length_take] at hlt
      omega
    rw [List.getElem?_take_of_lt hpc] at hp
    exact ⟨p, t, hp, hpc, mem_computed.2 ⟨j, hjt, writer, hwriter, hwrites⟩⟩

/-- The data can flow between carved steps. -/
theorem flow_ok (h : Carving whole steps) (sound : Sound whole) :
    ∃ f, flow steps whole = .ok f := by
  refine foldlM_ok_of_forall (fun read hread flow => ?_) _
  obtain ⟨c, o⟩ := read
  obtain ⟨s, hs, rfl, ho⟩ := mem_reads.1 hread
  obtain ⟨c, hc⟩ := List.mem_iff_getElem?.1 hs
  rw [h.numbered c s hc]
  obtain ⟨p, t, ht, hlt, hcomputed⟩ := h.exists_producer sound hc ho
  have hp := h.separate.producer?_eq_some_iff.2 ⟨t, ht, hcomputed⟩
  obtain ⟨link, hlink, rfl⟩ := List.mem_map.1 ho
  obtain ⟨-, source, hsource, -⟩ := (h.carved s hs).filled.crossInputs link hlink
  by_cases hkept : source.lifetime ≠ .temporary ∨
      link.operand ∈ (flow.crossOutputs.getD p []).map (·.operand)
  · exact ⟨{ flow with dependencies := flow.dependencies ++ [(p, c)] },
      Flow.add_eq_ok.2 ⟨p, source, hp, hlt, hsource, rfl, Or.inl ⟨rfl, hkept⟩⟩⟩
  · obtain ⟨htemporary, hnew⟩ := not_or.1 hkept
    have hknown := (h.carved t (List.mem_of_getElem? ht)).filled.known_of_computed hcomputed
    obtain ⟨place, hplace⟩ := Option.isSome_iff_exists.1 (List.isSome_idxOf?.2 hknown)
    exact ⟨{ dependencies := flow.dependencies ++ [(p, c)], crossOutputs := _ },
      Flow.add_eq_ok.2 ⟨p, source, hp, hlt, hsource, rfl,
        Or.inr ⟨not_not.1 htemporary, hnew, place, ⟨t, ht, hplace⟩, rfl⟩⟩⟩

end Carving

/-! ## What is asked for elsewhere -/

/-- Whether operations compute something that is asked for elsewhere: an output of the model, or
what an operation outside reads. -/
def Delivers (m : Model) (operations : List Nat) : Prop :=
  ∃ i ∈ operations, ∃ op, m.operations[i]? = some op ∧ ∃ o ∈ op.outputs,
    LifetimeIs m (· = .modelOutput) o ∨
      ∃ j reader, j ∉ operations ∧ m.operations[j]? = some reader ∧ o ∈ reader.inputs

namespace Carving

variable {whole : Model} {steps : List Step} {flow : Flow} {c : Nat} {s : Step} {links : List Link}

/-- What a step hands on it computes, in a place of its own. -/
theorem handed (h : Carving whole steps) (tracks : Flow.Tracks steps whole (reads steps) flow)
    (hs : steps[c]? = some s) (hlinks : flow.crossOutputs[c]? = some links) :
    ∀ link ∈ links,
      s.operands[link.place]? = some link.operand ∧ link.operand ∈ computed whole s := by
  intro link hlink
  obtain ⟨⟨t, ht, hplace⟩, -, hproducer, -⟩ := tracks.handed c links hlinks link hlink
  obtain rfl := Option.some.inj (hs.symm.trans ht)
  obtain ⟨u, hu, hcomputed⟩ := h.separate.producer?_eq_some_iff.1 hproducer
  obtain rfl := Option.some.inj (hs.symm.trans hu)
  exact ⟨getElem?_of_place? hplace, hcomputed⟩

/-- What a step returns has a place of its own in the step, which computes it. -/
theorem placed_output (h : Carving whole steps) (hassembly : Assembly whole steps flow)
    (hs : steps[c]? = some s) (hlinks : flow.crossOutputs[c]? = some links) :
    ∀ link ∈ s.modelOutputs ++ links,
      s.operands[link.place]? = some link.operand ∧ link.operand ∈ computed whole s := by
  have hcarved := h.carved s (List.mem_of_getElem? hs)
  intro link hlink
  rcases List.mem_append.1 hlink with hmodel | hcross
  · exact ⟨(hcarved.filled.modelOutputs link hmodel).1,
      hcarved.own _ (List.mem_map.2 ⟨link, hmodel, rfl⟩)⟩
  · exact h.handed hassembly.tracks hs hlinks link hcross

/-- What a finished step returns it computes. -/
theorem computed_of_output (h : Carving whole steps) (hassembly : Assembly whole steps flow)
    (hs : s ∈ (assembled whole steps flow).steps) {o : Nat}
    (ho : o ∈ s.outputs.map (·.operand)) : o ∈ computed whole s := by
  obtain ⟨k, hk⟩ := List.mem_iff_getElem?.1 hs
  obtain ⟨t, links, ht, hlinks, rfl⟩ := getElem?_assembled.1 hk
  obtain ⟨link, hlink, rfl⟩ := List.mem_map.1 ho
  exact (h.placed_output hassembly ht hlinks link hlink).2

/-- A step that holds an operation is the only one. -/
theorem step_of_operation (h : Carving whole steps) {d i : Nat} {t : Step}
    (hs : steps[c]? = some s) (ht : steps[d]? = some t) (hi : i ∈ s.operations)
    (hi' : i ∈ t.operations) : c = d :=
  position_unique h.separate.once hs ht hi hi'

/-- What a step passes out is asked for elsewhere. -/
theorem delivers_of_link (h : Carving whole steps)
    (tracks : Flow.Tracks steps whole (reads steps) flow) (hs : steps[c]? = some s)
    (hlinks : flow.crossOutputs[c]? = some links) {link : Link}
    (hlink : link ∈ s.modelOutputs ++ links) : Delivers whole s.operations := by
  have hcarved := h.carved s (List.mem_of_getElem? hs)
  rcases List.mem_append.1 hlink with hlink | hlink
  · obtain ⟨i, hi, op, hop, ho⟩ :=
      mem_computed.1 (hcarved.own link.operand (List.mem_map.2 ⟨link, hlink, rfl⟩))
    exact ⟨i, hi, op, hop, _, ho, Or.inl (hcarved.filled.modelOutputs link hlink).2⟩
  · obtain ⟨-, hcomputed⟩ := h.handed tracks hs hlinks link hlink
    obtain ⟨i, hi, op, hop, ho⟩ := mem_computed.1 hcomputed
    refine ⟨i, hi, op, hop, _, ho, Or.inr ?_⟩
    obtain ⟨-, ⟨d, hread⟩, -, -⟩ := tracks.handed c links hlinks link hlink
    obtain ⟨t, ht, -, hcross⟩ := mem_reads.1 hread
    obtain ⟨hconsumed, hforeign⟩ := (h.carved t ht).foreign _ hcross
    obtain ⟨j, hj, reader, hreader, hreads⟩ := mem_consumed.1 hconsumed
    refine ⟨j, reader, fun hmem => hforeign ?_, hreader, hreads⟩
    obtain ⟨d, hd⟩ := List.mem_iff_getElem?.1 ht
    obtain rfl := h.step_of_operation hs hd hmem hj
    obtain rfl := Option.some.inj (hs.symm.trans hd)
    exact hcomputed

/-- An output of the whole model that a step computes is passed out. -/
theorem returned_of_output (h : Carving whole steps) (hs : steps[c]? = some s) {o : Nat}
    (hcomputed : o ∈ computed whole s) (houtput : LifetimeIs whole (· = .modelOutput) o) :
    o ∈ s.modelOutputs.map (·.operand) := by
  have hcarved := h.carved s (List.mem_of_getElem? hs)
  obtain ⟨source, hsource, hlifetime⟩ := houtput
  have hknown := hcarved.filled.known_of_computed hcomputed
  rcases hcarved.filled.returned o hknown source hsource hlifetime with hmem | hcross
  · exact hmem
  · exact absurd hcomputed (hcarved.foreign o hcross).2

/-- The step of an operation that reads what another step computes takes it from there. -/
theorem crossInput_of_reader (h : Carving whole steps) (hs : steps[c]? = some s) {o : Nat}
    (hcomputed : o ∈ computed whole s) {j : Nat} (hj : j ∉ s.operations) {reader : Operation}
    (hreader : whole.operations[j]? = some reader) (hread : o ∈ reader.inputs) :
    ∃ (d : Nat) (t : Step), steps[d]? = some t ∧ o ∈ t.crossInputs.map (·.operand) := by
  have hheld : j ∈ steps.flatMap (·.operations) :=
    h.covered.mem_iff.2 (List.mem_range.2 (List.getElem?_eq_some_iff.1 hreader).1)
  obtain ⟨t, ht, hjt⟩ := List.mem_flatMap.1 hheld
  obtain ⟨d, hd⟩ := List.mem_iff_getElem?.1 ht
  have hother := h.carved t ht
  have hconsumed := mem_consumed.2 ⟨j, hjt, reader, hreader, hread⟩
  obtain ⟨place, hplace⟩ := hother.filled.known_of_consumed hconsumed
  obtain ⟨source, hsource, -⟩ := hother.filled.copied place o hplace
  have hneeds := needsProducer_of_computed h.valid hcomputed hsource
  rcases hother.accounted o (List.mem_of_getElem? hplace) with
    ⟨source', hsource', hgiven⟩ | hmodel | hcross | hown
  · obtain rfl := Option.some.inj (hsource.symm.trans hsource')
    exact absurd hgiven (Lifetime.not_given_of_needsProducer hneeds)
  · obtain ⟨link, hlink, rfl⟩ := List.mem_map.1 hmodel
    obtain ⟨-, source', hsource', hlifetime⟩ := hother.filled.modelInputs link hlink
    obtain rfl := Option.some.inj (hsource.symm.trans hsource')
    rw [hlifetime] at hneeds
    exact absurd hneeds (by decide)
  · exact ⟨d, t, hd, hcross⟩
  · obtain rfl := h.separate.step_unique hs hd hcomputed hown
    obtain rfl := Option.some.inj (hs.symm.trans hd)
    exact absurd hjt hj

/-- A step passes something out just when its operations deliver something. -/
theorem outputs_ne_iff (h : Carving whole steps)
    (tracks : Flow.Tracks steps whole (reads steps) flow) (hs : steps[c]? = some s)
    (hlinks : flow.crossOutputs[c]? = some links) :
    s.modelOutputs ++ links ≠ [] ↔ Delivers whole s.operations := by
  constructor
  · intro hne
    obtain ⟨link, hlink⟩ := List.exists_mem_of_ne_nil _ hne
    exact h.delivers_of_link tracks hs hlinks hlink
  · rintro ⟨i, hi, op, hop, o, ho, hasked⟩ hnil
    obtain ⟨hreturned, hhanded⟩ := List.append_eq_nil_iff.1 hnil
    have hcomputed := mem_computed.2 ⟨i, hi, op, hop, ho⟩
    have hnot : ¬ LifetimeIs whole (· = .modelOutput) o := fun houtput => by
      have hmem := h.returned_of_output hs hcomputed houtput
      rw [hreturned] at hmem
      exact List.not_mem_nil hmem
    rcases hasked with houtput | ⟨j, reader, hj, hreader, hread⟩
    · exact hnot houtput
    · obtain ⟨d, t, hd, hcross⟩ := h.crossInput_of_reader hs hcomputed hj hreader hread
      have ht := List.mem_of_getElem? hd
      obtain ⟨link, hlink, rfl⟩ := List.mem_map.1 hcross
      obtain ⟨-, source, hsource, hneeds⟩ := (h.carved t ht).filled.crossInputs link hlink
      rcases Lifetime.needsProducer_iff.1 hneeds with htemporary | houtput
      · have hread : (d, link.operand) ∈ reads steps :=
          mem_reads.2 ⟨t, ht, h.numbered d t hd, hcross⟩
        have hp := h.separate.producer?_eq_some_iff.2 ⟨s, hs, hcomputed⟩
        obtain ⟨links', hlinks', hmem⟩ :=
          tracks.complete d link.operand c source hread hp hsource htemporary
        obtain rfl := Option.some.inj (hlinks.symm.trans hlinks')
        rw [hhanded] at hmem
        exact List.not_mem_nil hmem
      · exact hnot ⟨source, hsource, houtput⟩

/-- A carved step is finished unless it passes nothing out. -/
theorem finish_step (h : Carving whole steps)
    (tracks : Flow.Tracks steps whole (reads steps) flow) (hs : steps[c]? = some s)
    (hlinks : flow.crossOutputs[c]? = some links) (relaxed : Bool) :
    (Delivers whole s.operations → (s.finish links relaxed).2 = .ok ()) ∧
      (¬ Delivers whole s.operations →
        (s.finish links relaxed).2 = .error (.invalidModel .noOutputs)) := by
  have hmem := List.mem_of_getElem? hs
  have hcarved := h.carved s hmem
  have hhanded := h.handed tracks hs hlinks
  have hplace : ∀ link : Link, s.operands[link.place]? = some link.operand →
      link.place < s.model.operands.length := fun link hlink => by
    rw [hcarved.filled.length_eq]
    exact (List.getElem?_eq_some_iff.1 hlink).1
  have hinputs : ∀ link ∈ s.modelInputs ++ s.crossInputs,
      link.place < s.model.operands.length := fun link hlink =>
    hplace link ((List.mem_append.1 hlink).elim
      (fun hmodel => (hcarved.filled.modelInputs link hmodel).1)
      fun hcross => (hcarved.filled.crossInputs link hcross).1)
  have houtputs : ∀ link ∈ s.modelOutputs ++ links,
      link.place < s.model.operands.length := fun link hlink =>
    hplace link ((List.mem_append.1 hlink).elim
      (fun hmodel => (hcarved.filled.modelOutputs link hmodel).1)
      fun hcross => (hhanded link hcross).1)
  rw [finish_eq hcarved.filled.unfrozen hinputs houtputs, ← h.outputs_ne_iff tracks hs hlinks]
  constructor
  · intro hne
    have hvalid : Valid (s.finished links relaxed).model :=
      hcarved.valid h.valid (h.ordered_step hs) (h.operations_ne s hmem) hne hhanded
    rw [validate_eq_ok_iff.2 hvalid]
  · intro hnil
    have houtputs : (s.finished links relaxed).model.outputs = [] :=
      List.map_eq_nil_iff.2 (not_not.1 hnil)
    have hoperations : (s.finished links relaxed).model.operations ≠ [] := fun hempty => by
      have htranslated := hcarved.filled.translated
      rw [show s.model.operations = [] from hempty, List.forall₂_nil_right_iff] at htranslated
      exact h.operations_ne s hmem htranslated
    rw [validate_noOutputs hoperations houtputs]

/-- Carved steps make a plan, unless one of them delivers nothing. -/
theorem finish (h : Carving whole steps) (sound : Sound whole) :
    ((∀ s ∈ steps, Delivers whole s.operations) →
      ∃ p, Plan.finish { steps } whole = (p, .ok ())) ∧
    ((∃ s ∈ steps, ¬ Delivers whole s.operations) →
      (Plan.finish { steps } whole).2 = .error (.invalidModel .noOutputs)) := by
  obtain ⟨flow, hflow⟩ := h.flow_ok sound
  have tracks := tracks_of_flow hflow
  have hpair : ∀ e ∈ steps.zip flow.crossOutputs,
      ∃ c : Nat, steps[c]? = some e.1 ∧ flow.crossOutputs[c]? = some e.2 := fun e he => by
    obtain ⟨c, hc⟩ := List.mem_iff_getElem?.1 he
    exact ⟨c, List.getElem?_zip_eq_some.1 hc⟩
  constructor
  · intro hall
    refine ⟨_, finish_eq_ok.2 ⟨rfl, h.covered, flow, hflow, fun e he => ?_, rfl⟩⟩
    obtain ⟨c, hs, hlinks⟩ := hpair e he
    exact (h.finish_step tracks hs hlinks _).1 (hall e.1 (List.mem_of_getElem? hs))
  · rintro ⟨s, hs, hidle⟩
    have hanswer : (finishSteps whole.relaxed (steps.zip flow.crossOutputs)).2 =
        .error (.invalidModel .noOutputs) := by
      refine finishSteps_error (fun e he => ?_) ?_
      · obtain ⟨c, hc, hlinks⟩ := hpair e he
        by_cases hdelivers : Delivers whole e.1.operations
        · exact Or.inl ((h.finish_step tracks hc hlinks _).1 hdelivers)
        · exact Or.inr ((h.finish_step tracks hc hlinks _).2 hdelivers)
      · obtain ⟨c, hc⟩ := List.mem_iff_getElem?.1 hs
        have hlt := (List.getElem?_eq_some_iff.1 hc).1
        rw [← tracks.length_eq] at hlt
        have hlinks := List.getElem?_eq_getElem hlt
        exact ⟨(s, _), List.mem_of_getElem? (List.getElem?_zip_eq_some.2 ⟨hc, hlinks⟩),
          (h.finish_step tracks hc hlinks _).2 hidle⟩
    rw [Plan.finish, check_eq_ok.2 ⟨rfl, h.covered, hflow⟩]
    dsimp only
    split
    · next steps' e hsteps =>
      rw [hsteps] at hanswer
      exact hanswer
    · next steps' hsteps =>
      rw [hsteps] at hanswer
      cases hanswer

end Carving

/-! ## Steps for the groups of a schedule -/

/-- Every group makes a step. -/
theorem stepsOf_ok {m : Model} (sound : Sound m) (single : m.written.Nodup)
    {devices : List Device} {groups : List Group} {earlier : List Nat}
    (hdevice : ∀ g ∈ groups, g.device < devices.length)
    (hlt : ∀ g ∈ groups, ∀ i ∈ g.operations, i < m.operations.length)
    (hordered : Ordered m.edges ((groups.flatMap (·.operations)).reverse ++ earlier)) :
    ∃ steps, stepsOf m devices groups = .ok steps ∧
      List.Forall₂ (fun g s => Carved m s ∧ s.operations = g.operations ∧
        devices[g.device]? = some s.device) groups steps := by
  induction groups generalizing earlier with
  | nil => exact ⟨[], rfl, .nil⟩
  | cons g rest ih =>
    obtain ⟨hg, hdevice⟩ := List.forall_mem_cons.1 hdevice
    obtain ⟨hlt, hrestlt⟩ := List.forall_mem_cons.1 hlt
    rw [List.flatMap_cons, List.reverse_append, List.append_assoc] at hordered
    obtain ⟨steps, hsteps, hrest⟩ := ih hdevice hrestlt hordered
    obtain ⟨s, hs, hcarved, hoperations, hsame⟩ :=
      ofOperations_ok sound single devices[g.device] hlt hordered.of_append
    refine ⟨s :: steps, ?_, .cons ⟨hcarved, hoperations, ?_⟩ hrest⟩
    · rw [stepsOf, List.filterMapM_cons, List.getElem?_eq_getElem hg]
      dsimp only
      rw [hs, ok_bind, pure_bind]
      dsimp only
      rw [show rest.filterMapM _ = Except.ok steps from hsteps]
      rfl
    · rw [List.getElem?_eq_getElem hg, hsame]

/-- The steps for a schedule are carved out of the model one after the other. -/
theorem carving_of_schedule {m : Model} (sound : Sound m) (hvalid : Valid m)
    {devices : List Device} {assignment : List Nat}
    (assigned : ∀ i < m.operations.length, assignment.getD i 0 < devices.length) :
    ∃ steps, stepsOf m devices (schedule m assignment devices.length) = .ok steps ∧
      Carving m (numbered steps) ∧
      List.Forall₂ (fun g s => s.operations = g.operations ∧ devices[g.device]? = some s.device)
        (schedule m assignment devices.length) (numbered steps) := by
  obtain ⟨hplaced, hperm, hordered⟩ := schedule_spec hvalid assigned
  have hlt : ∀ g ∈ schedule m assignment devices.length, ∀ i ∈ g.operations,
      i < m.operations.length := fun g hg i hi =>
    List.mem_range.1 (hperm.mem_iff.1 (List.mem_flatMap.2 ⟨g, hg, hi⟩))
  have hbehind : Ordered m.edges
      (((schedule m assignment devices.length).flatMap (·.operations)).reverse ++ []) := by
    rw [List.append_nil]
    exact hordered
  obtain ⟨steps, hsteps, hall⟩ := stepsOf_ok sound hvalid.single
    (fun g hg => (hplaced g hg).device_lt) hlt hbehind
  have hnumbered : List.Forall₂ (fun g s => Carved m s ∧ s.operations = g.operations ∧
      devices[g.device]? = some s.device) (schedule m assignment devices.length)
        (numbered steps) :=
    counterpart_mapIdx hall fun index _ _ h => ⟨h.1.withIndex index, h.2⟩
  have hoperations : (numbered steps).flatMap (·.operations) =
      (schedule m assignment devices.length).flatMap (·.operations) :=
    (flatMap_eq_of_forall₂ (hnumbered.imp fun g s h => h.2.1.symm)).symm
  refine ⟨steps, hsteps, ⟨hvalid, ?_, fun c s hs => (getElem?_numbered hs).1, ?_, ?_, ?_⟩,
    hnumbered.imp fun g s h => h.2⟩
  · intro s hs
    obtain ⟨g, -, h, -⟩ := counterpart_mem hnumbered.flip hs
    exact h
  · intro s hs
    obtain ⟨g, hg, -, heq, -⟩ := counterpart_mem hnumbered.flip hs
    rw [heq]
    exact (hplaced g hg).operations_ne
  · rw [hoperations]
    exact hperm
  · rw [hoperations]
    exact hordered

/-- What a partition of a well-formed model does: the steps for the groups of its schedule are
numbered and finished. -/
theorem partition_of_valid {m : Model} (hvalid : m.validate = .ok ()) (devices : List Device)
    (preference : Preference) :
    partition m devices preference = do
      let assignment ← Assignment.ofModel m devices preference
      let steps ← stepsOf m devices (schedule m assignment devices.length)
      (Plan.finish { steps := numbered steps } m).2
      return (Plan.finish { steps := numbered steps } m).1 := by
  rw [partition, hvalid]
  show (Assignment.ofModel m devices preference >>= _) = _
  refine bind_congr fun assignment => ?_
  refine bind_congr fun steps => ?_
  rw [foldlM_addStep]
  rfl

/-- A model that calls have built and that is well formed is partitioned when every operation is
supported by a device and every group of the schedule delivers something.  Otherwise the refusal
names the first operation that is not supported, or says that the model of a step has no outputs;
and a device that fails to answer for the model is reported first. -/
theorem partition_spec {m : Model} (hbuilt : Built m) (hvalid : m.validate = .ok ())
    (devices : List Device) (preference : Preference) :
    (∀ e, devices.mapM (Assignment.support m) = .error e →
      partition m devices preference = .error e) ∧
    ∀ support, devices.mapM (Assignment.support m) = .ok support →
      (∀ i < m.operations.length, (∀ j < i, Assignment.Supported support j) →
        ¬ Assignment.Supported support i → ∃ s, m.signature i = .ok s ∧
          partition m devices preference = .error (.noDevice i s)) ∧
      ((∀ i < m.operations.length, Assignment.Supported support i) →
        ∃ assignment, Assignment.ofModel m devices preference = .ok assignment ∧
          ((∀ g ∈ schedule m assignment devices.length, Delivers m g.operations) →
            ∃ p, partition m devices preference = .ok p) ∧
          ((∃ g ∈ schedule m assignment devices.length, ¬ Delivers m g.operations) →
            partition m devices preference = .error (.invalidModel .noOutputs))) := by
  have hpartition := partition_of_valid hvalid devices preference
  refine ⟨fun e he => ?_, fun support hsupport => ⟨fun i hi before hnone => ?_, fun hall => ?_⟩⟩
  · rw [hpartition, Assignment.ofModel, he]
    rfl
  · obtain ⟨s, hs, herror⟩ :=
      Assignment.ofModel_error preference hbuilt.sound hsupport hi before hnone
    exact ⟨s, hs, by rw [hpartition, herror]; rfl⟩
  · obtain ⟨assignment, hassignment⟩ :=
      Assignment.ofModel_ok preference hbuilt.sound hsupport hall
    obtain ⟨flags, hflags, hassigned⟩ := Assignment.assigned_of_ofModel hassignment
    obtain ⟨steps, hsteps, hcarving, hgroups⟩ := carving_of_schedule hbuilt.sound
      (validate_eq_ok_iff.1 hvalid) fun i hi => (hassigned i hi).1
    obtain ⟨hok, herror⟩ := hcarving.finish hbuilt.sound
    rw [hassignment, ok_bind, hsteps, ok_bind] at hpartition
    refine ⟨assignment, hassignment, fun hdelivers => ?_, fun hsome => ?_⟩
    · obtain ⟨p, hp⟩ := hok fun s hs => by
        obtain ⟨g, hg, heq, -⟩ := counterpart_mem hgroups.flip hs
        exact heq ▸ hdelivers g hg
      exact ⟨p, by rw [hpartition, hp]; rfl⟩
    · obtain ⟨g, hg, hidle⟩ := hsome
      obtain ⟨s, hs, heq, -⟩ := counterpart_mem hgroups hg
      have hanswer := herror ⟨s, hs, heq ▸ hidle⟩
      rw [hpartition, hanswer]
      rfl

/-- A plan that is given consists of carved steps, one for each group of the schedule. -/
theorem carving_of_partition {m : Model} (hbuilt : Built m) (hvalid : m.validate = .ok ())
    {devices : List Device} {preference : Preference} {p : Plan}
    (h : partition m devices preference = .ok p) :
    ∃ assignment steps flow, Assignment.ofModel m devices preference = .ok assignment ∧
      Carving m steps ∧ Assembly m steps flow ∧ p = assembled m steps flow ∧
      List.Forall₂ (fun g s => s.operations = g.operations ∧ devices[g.device]? = some s.device)
        (schedule m assignment devices.length) steps := by
  rw [partition_of_valid hvalid] at h
  obtain ⟨assignment, hassignment, h⟩ := bind_eq_ok.1 h
  obtain ⟨steps, hsteps, hcarving, hgroups⟩ := carving_of_schedule hbuilt.sound
    (validate_eq_ok_iff.1 hvalid) (Assignment.lt_of_ofModel hassignment)
  rw [hsteps, ok_bind] at h
  obtain ⟨u, hanswer, h⟩ := bind_eq_ok.1 h
  obtain ⟨flow, hassembly, hp⟩ := assembly_of_finish hbuilt hvalid
    (fun s hs => (hcarving.carved s hs).filled) hcarving.numbered (Prod.ext rfl hanswer)
  exact ⟨assignment, _, flow, hassignment, hcarving, hassembly, (pure_eq_ok.1 h).symm.trans hp,
    hgroups⟩

/-- A plan that is given consists of carved steps on devices that support their operations. -/
theorem partition_eq_ok {m : Model} (hbuilt : Built m) (hvalid : m.validate = .ok ())
    {devices : List Device} {preference : Preference} {p : Plan}
    (h : partition m devices preference = .ok p) :
    ∃ steps flow, Carving m steps ∧ Assembly m steps flow ∧ p = assembled m steps flow ∧
      ∀ s ∈ steps, s.device ∈ devices ∧ ∃ flags, Assignment.support m s.device = .ok flags ∧
        ∀ i ∈ s.operations, flags.getD i false = true := by
  obtain ⟨assignment, steps, flow, hassignment, hcarving, hassembly, hp, hgroups⟩ :=
    carving_of_partition hbuilt hvalid h
  obtain ⟨support, hsupport, hassigned⟩ := Assignment.assigned_of_ofModel hassignment
  obtain ⟨hplaced, hperm, -⟩ := schedule_spec (validate_eq_ok_iff.1 hvalid)
    (Assignment.lt_of_ofModel hassignment)
  refine ⟨steps, flow, hcarving, hassembly, hp, fun s hs => ?_⟩
  obtain ⟨g, hg, hoperations, hdevice⟩ := counterpart_mem hgroups.flip hs
  obtain ⟨flags, hflags, hanswer⟩ := counterpart (mapM_eq_ok.1 hsupport) hdevice
  refine ⟨List.mem_of_getElem? hdevice, flags, hanswer, fun i hi => ?_⟩
  rw [hoperations] at hi
  obtain ⟨-, flags', hflags', hsupported⟩ :=
    hassigned i (List.mem_range.1 (hperm.mem_iff.1 (List.mem_flatMap.2 ⟨g, hg, hi⟩)))
  rw [(hplaced g hg).assigned i hi] at hflags'
  obtain rfl := Option.some.inj (hflags.symm.trans hflags')
  exact hsupported

/-! ## Two devices for two operations -/

/-- A device over a reference driver that declares one operation on tensors. -/
def specialist (name : String) (operation : OperationType) : Device :=
  (Device.new name (ReferenceDriver.toDriver
    { name, config := { signatures := [⟨operation, .tensorFloat32⟩] }, key := default })
      .full).activate.1

def specialists : List Device := [specialist "rectifier" .relu, specialist "rounder" .floor]

/-- What the first device computes the second one reads. -/
theorem partition_spec_chain :
    Built chain ∧ chain.validate = .ok () ∧
      specialists.mapM (Assignment.support chain) = .ok [[true, false], [false, true]] ∧
      ∃ p, partition chain specialists .fastSingleAnswer = .ok p := by
  have hbuilt : Built chain := ⟨_, rfl⟩
  have hvalid : chain.validate = .ok () := by decide
  have hsupport : specialists.mapM (Assignment.support chain) =
      .ok [[true, false], [false, true]] := by rfl
  obtain ⟨-, hanswers⟩ := partition_spec hbuilt hvalid specialists .fastSingleAnswer
  obtain ⟨assignment, hassignment, hok, -⟩ := (hanswers _ hsupport).2 (by decide)
  have hexpected : Assignment.ofModel chain specialists .fastSingleAnswer = .ok [0, 1] := by rfl
  obtain rfl := Except.ok.inj (hexpected.symm.trans hassignment)
  have hgroups : schedule chain [0, 1] specialists.length = [⟨0, [0]⟩, ⟨1, [1]⟩] := by rfl
  refine ⟨hbuilt, hvalid, hsupport, hok ?_⟩
  rw [hgroups]
  simp only [List.forall_mem_cons]
  refine ⟨⟨0, by decide, _, rfl, 1, by decide, Or.inr ⟨1, _, by decide, rfl, by decide⟩⟩,
    ⟨1, by decide, _, rfl, 2, by decide, Or.inl ⟨_, rfl, rfl⟩⟩, by simp⟩

/-- Two operations, the result of the second of which nobody reads. -/
def idle : Model := Model.performAll {} [
  .addOperand { type := .tensorFloat32, dimensions := [2] },
  .addOperand { type := .tensorFloat32, dimensions := [2] },
  .addOperand { type := .tensorFloat32, dimensions := [2] },
  .addOperation .relu [0] [1],
  .addOperation .floor [0] [2],
  .identify [0] [1]]

/-- Every operation is supported, but the second device would return nothing. -/
theorem partition_idle :
    Built idle ∧ idle.validate = .ok () ∧
      specialists.mapM (Assignment.support idle) = .ok [[true, false], [false, true]] ∧
      (∀ i < idle.operations.length,
        Assignment.Supported [[true, false], [false, true]] i) ∧
      partition idle specialists .fastSingleAnswer = .error (.invalidModel .noOutputs) :=
  ⟨⟨_, rfl⟩, by decide, by rfl, by decide, by rfl⟩

end Plan

end NeuralDispatch

import NeuralDispatch.Proofs.Finish

/-!
# Data flow in a finished plan

The steps of a finished plan keep complete books: whatever a step reads it has from somewhere, and
whatever passes between two steps is noted on both sides.

* `Assembly` — filled steps that have passed the checks of a plan, with what was gathered of them.
* `Bookkeeping` — what the books of a finished plan say.
* `finish_bookkeeping` — they say so whenever a plan of filled steps is finished.
-/

namespace NeuralDispatch.Plan

open Model Step

/-- Filled steps that have passed the checks of a plan, with the data that passes between them. -/
structure Assembly (whole : Model) (steps : List Step) (flow : Flow) : Prop where
  valid : Valid whole
  sound : Sound whole
  filled : ∀ s ∈ steps, Filled whole s
  numbered : ∀ (c : Nat) s, steps[c]? = some s → s.index = c
  covered : (steps.flatMap (·.operations)).Perm (List.range whole.operations.length)
  tracks : Flow.Tracks steps whole (reads steps) flow
  finished : ∀ (c : Nat) s links, steps[c]? = some s → flow.crossOutputs[c]? = some links →
    Valid (s.finished links whole.relaxed).model

/-! ## One step -/

section OneStep

variable {whole : Model} {s : Step} {links : List Link} {relaxed : Bool}

theorem place_mem_iff (h : Filled whole s) {noted : List Link} {place o : Nat}
    (hnoted : ∀ link ∈ noted, s.operands[link.place]? = some link.operand)
    (ho : s.operands[place]? = some o) :
    place ∈ noted.map (·.place) ↔ o ∈ noted.map (·.operand) := by
  simp only [List.mem_map]
  constructor
  · rintro ⟨link, hlink, rfl⟩
    exact ⟨link, hlink, Option.some.inj ((hnoted link hlink).symm.trans ho)⟩
  · rintro ⟨link, hlink, rfl⟩
    exact ⟨link, hlink, h.biUnique.2 (hnoted link hlink) ho⟩

/-- The places of a step's inputs are those of the operands that are noted as such. -/
theorem mem_inputs_iff (h : Filled whole s) {place o : Nat} (ho : s.operands[place]? = some o) :
    place ∈ (s.modelInputs ++ s.crossInputs).map (·.place) ↔
      o ∈ s.modelInputs.map (·.operand) ∨ o ∈ s.crossInputs.map (·.operand) := by
  rw [place_mem_iff h _ ho, List.map_append, List.mem_append]
  intro link hlink
  rcases List.mem_append.1 hlink with hlink | hlink
  · exact (h.modelInputs link hlink).1
  · exact (h.crossInputs link hlink).1

/-- What an operation of a finished step reads is given with the model, comes from outside or is
computed inside. -/
theorem available_of_consumed (h : Filled whole s)
    (hvalid : Valid (s.finished links relaxed).model) {o : Nat} (ho : o ∈ s.consumed whole) :
    ∃ source, whole.operands[o]? = some source ∧
      (source.isConstant = true ∨ source.lifetime = .noValue ∨
        o ∈ s.modelInputs.map (·.operand) ∨ o ∈ s.crossInputs.map (·.operand) ∨
        o ∈ computed whole s) := by
  obtain ⟨place, hplace⟩ := h.known_of_consumed ho
  obtain ⟨source, hsource, hlocal⟩ := h.finished_operand hplace
  refine ⟨source, hsource, ?_⟩
  by_cases hinput : place ∈ (s.modelInputs ++ s.crossInputs).map (·.place)
  · rcases (mem_inputs_iff h hplace).1 hinput with hmodel | hcross
    · exact Or.inr (Or.inr (Or.inl hmodel))
    · exact Or.inr (Or.inr (Or.inr (Or.inl hcross)))
  · by_cases hgiven : source.lifetime.isConstant = true ∨ source.lifetime = .noValue
    · rcases hgiven with hconstant | habsent
      · exact Or.inl hconstant
      · exact Or.inr (Or.inl habsent)
    · -- the step takes the operand for a temporary, so its own model must write it
      have hneeds : (if place ∈ (s.modelOutputs ++ links).map (·.place) then .modelOutput
          else if place ∈ (s.modelInputs ++ s.crossInputs).map (·.place) then .modelInput
          else (importOperand source).lifetime : Lifetime).needsProducer = true := by
        rw [if_neg hinput]
        split
        · rfl
        · exact (importOperand_needsProducer source).2 hgiven
      have hcount : s.model.readCount place ≠ 0 :=
        Nat.pos_iff_ne_zero.1 ((h.readCount_pos_iff hplace).2 ho)
      have hwritten := hvalid.produced place _ hlocal hneeds hcount
      exact Or.inr (Or.inr (Or.inr (Or.inr ((h.mem_written_iff hplace).1 hwritten))))

/-- A finished step computes the outputs of the whole model that it notes as its own. -/
theorem computed_of_modelOutput (h : Filled whole s)
    (hvalid : Valid (s.finished links relaxed).model) {o : Nat}
    (ho : o ∈ s.modelOutputs.map (·.operand)) : o ∈ computed whole s := by
  obtain ⟨link, hlink, rfl⟩ := List.mem_map.1 ho
  have hplace := (h.modelOutputs link hlink).1
  refine (h.mem_written_iff hplace).1 (hvalid.outputs_written link.place ?_)
  exact List.mem_map.2 ⟨link, List.mem_append_left _ hlink, rfl⟩

end OneStep

/-! ## Reading from the last writer -/

section Tracked

variable {whole : Model} {steps : List Step} {flow : Flow} {c o q : Nat} {s : Step}

/-- No step reads of others what it writes itself. -/
theorem not_computed_of_read (htracks : Flow.Tracks steps whole (reads steps) flow)
    (hnumbered : ∀ (c : Nat) s, steps[c]? = some s → s.index = c)
    (hs : steps[c]? = some s) (ho : o ∈ s.crossInputs.map (·.operand)) :
    o ∉ computed whole s := by
  intro hwrites
  have hread : (c, o) ∈ reads steps :=
    mem_reads.2 ⟨s, List.mem_of_getElem? hs, hnumbered c s hs, ho⟩
  obtain ⟨q, hq, hlt⟩ := htracks.produced c o hread
  have hle := ((producer?_eq_some_iff_last hnumbered).1 hq).2 c s hs hwrites
  exact absurd hlt (Nat.not_lt_of_le hle)

/-- The last writer of a temporary hands it on, and no other step does. -/
theorem count_handed (htracks : Flow.Tracks steps whole (reads steps) flow)
    (hread : (c, o) ∈ reads steps) (hq : producer? steps whole o = some q) {source : Operand}
    (hsource : whole.operands[o]? = some source) (htemporary : source.lifetime = .temporary)
    {r : Nat} {links : List Link} (hlinks : flow.crossOutputs[r]? = some links) :
    (links.map (·.operand)).count o = if r = q then 1 else 0 := by
  split
  · next heq =>
    obtain ⟨links', hlinks', hmem⟩ := htracks.complete c o q source hread hq hsource htemporary
    obtain rfl : links = links' := by
      rw [heq, hlinks'] at hlinks
      exact (Option.some.inj hlinks).symm
    exact List.count_eq_one_of_mem (htracks.nodup links (List.mem_of_getElem? hlinks)) hmem
  · next hne =>
    refine List.count_eq_zero.2 fun hmem => ?_
    obtain ⟨link, hlink, rfl⟩ := List.mem_map.1 hmem
    obtain ⟨-, -, hr, -⟩ := htracks.handed r links hlinks link hlink
    exact hne (Option.some.inj (hr.symm.trans hq))

/-- Every writer of an output of the whole model returns it. -/
theorem returned_of_writer (htracks : Flow.Tracks steps whole (reads steps) flow)
    (hnumbered : ∀ (c : Nat) s, steps[c]? = some s → s.index = c) (hfilled : Filled whole s)
    (hs : steps[c]? = some s) (ho : o ∈ computed whole s) {source : Operand}
    (hsource : whole.operands[o]? = some source) (houtput : source.lifetime = .modelOutput) :
    o ∈ s.modelOutputs.map (·.operand) := by
  obtain ⟨place, -, hplace⟩ := Answer.counterpart_mem hfilled.forall₂_computed ho
  refine (hfilled.returned o (List.mem_of_getElem? hplace) source hsource houtput).resolve_right
    fun hcross => ?_
  exact not_computed_of_read htracks hnumbered hs hcross ho

end Tracked

/-! ## All steps together -/

namespace Assembly

variable {whole : Model} {steps : List Step} {flow : Flow}

theorem separate (h : Assembly whole steps flow) : Separate steps whole :=
  ⟨h.numbered, h.covered.nodup_iff.2 List.nodup_range, h.valid.single⟩

theorem exists_links (h : Assembly whole steps flow) {c : Nat} {s : Step}
    (hs : steps[c]? = some s) : ∃ links, flow.crossOutputs[c]? = some links := by
  have hlt := (List.getElem?_eq_some_iff.1 hs).1
  rw [← h.tracks.length_eq] at hlt
  exact ⟨_, List.getElem?_eq_getElem hlt⟩

/-- The step that computes an operand. -/
theorem exists_step (h : Assembly whole steps flow) {o : Nat} (ho : o ∈ whole.written) :
    ∃ (c : Nat) (s : Step), steps[c]? = some s ∧ o ∈ computed whole s := by
  obtain ⟨op, hop, ho⟩ := mem_written.1 ho
  obtain ⟨i, hi⟩ := List.mem_iff_getElem?.1 hop
  have hheld : i ∈ steps.flatMap (·.operations) :=
    h.covered.mem_iff.2 (List.mem_range.2 (List.getElem?_eq_some_iff.1 hi).1)
  obtain ⟨s, hs, hmem⟩ := List.mem_flatMap.1 hheld
  obtain ⟨c, hc⟩ := List.mem_iff_getElem?.1 hs
  exact ⟨c, s, hc, mem_computed.2 ⟨i, hmem, op, hi, ho⟩⟩

/-- What a step reads of another is computed by an earlier one. -/
theorem exists_producer (h : Assembly whole steps flow) {c o : Nat} {s : Step}
    (hs : steps[c]? = some s) (ho : o ∈ s.crossInputs.map (·.operand)) :
    ∃ (p : Nat) (t : Step), steps[p]? = some t ∧ p < c ∧ o ∈ computed whole t := by
  have hread : (c, o) ∈ reads steps :=
    mem_reads.2 ⟨s, List.mem_of_getElem? hs, h.numbered c s hs, ho⟩
  obtain ⟨p, hp, hlt⟩ := h.tracks.produced c o hread
  obtain ⟨t, ht, hcomputed⟩ := h.separate.producer?_eq_some_iff.1 hp
  exact ⟨p, t, ht, hlt, hcomputed⟩

/-- A step that computes an output of the whole model notes it as its own. -/
theorem mem_modelOutputs (h : Assembly whole steps flow) {c o : Nat} {s : Step} {source : Operand}
    (hs : steps[c]? = some s) (ho : o ∈ computed whole s)
    (hsource : whole.operands[o]? = some source) (hlifetime : source.lifetime = .modelOutput) :
    o ∈ s.modelOutputs.map (·.operand) :=
  returned_of_writer h.tracks h.numbered (h.filled s (List.mem_of_getElem? hs)) hs ho hsource
    hlifetime

/-- A temporary that a later step reads is handed on once. -/
theorem count_crossOutputs (h : Assembly whole steps flow) {c o p : Nat} {s t : Step}
    {source : Operand} {links : List Link} (hs : steps[c]? = some s)
    (ho : o ∈ s.crossInputs.map (·.operand)) (ht : steps[p]? = some t)
    (hcomputed : o ∈ computed whole t) (hsource : whole.operands[o]? = some source)
    (hlifetime : source.lifetime = .temporary) (hlinks : flow.crossOutputs[p]? = some links) :
    (links.map (·.operand)).count o = 1 := by
  have hread : (c, o) ∈ reads steps :=
    mem_reads.2 ⟨s, List.mem_of_getElem? hs, h.numbered c s hs, ho⟩
  have hp := h.separate.producer?_eq_some_iff.2 ⟨t, ht, hcomputed⟩
  exact (count_handed h.tracks hread hp hsource hlifetime hlinks).trans (if_pos rfl)

end Assembly

/-! ## The books -/

/-- What the books of a finished plan say. -/
structure Bookkeeping (whole : Model) (p : Plan) : Prop where
  numbered : ∀ (c : Nat) s, p.steps[c]? = some s → s.index = c
  /-- Every operation lies in one step, and once in it. -/
  covered : (p.steps.flatMap (·.operations)).Perm (List.range whole.operations.length)
  /-- What an operation of a step reads is given with the model, passed in or computed inside. -/
  available : ∀ s ∈ p.steps, ∀ i ∈ s.operations, ∀ op, whole.operations[i]? = some op →
    ∀ o ∈ op.inputs, ∃ operand, whole.operands[o]? = some operand ∧
      (operand.isConstant = true ∨ operand.lifetime = .noValue ∨
        o ∈ s.modelInputs.map (·.operand) ∨ o ∈ s.crossInputs.map (·.operand) ∨
        o ∈ computed whole s)
  /-- What a step reads of others is computed by one step only, which is an earlier one and hands
  it on: as an output of the whole model, or else as an output for other steps, and then once. -/
  handed : ∀ (c : Nat) s, p.steps[c]? = some s → ∀ o ∈ s.crossInputs.map (·.operand),
    ∃ (q : Nat) (t : Step), p.steps[q]? = some t ∧ q < c ∧ o ∈ computed whole t ∧
      (∀ (r : Nat) u, p.steps[r]? = some u → o ∈ computed whole u → r = q) ∧
      ∃ operand, whole.operands[o]? = some operand ∧
        (operand.lifetime = .modelOutput ∧ o ∈ t.modelOutputs.map (·.operand) ∨
          operand.lifetime = .temporary ∧ (t.crossOutputs.map (·.operand)).count o = 1)
  /-- Every output of the whole model is returned by one step only. -/
  returned : ∀ o ∈ whole.outputs, ∃ (q : Nat) (t : Step), p.steps[q]? = some t ∧
    o ∈ t.modelOutputs.map (·.operand) ∧
      ∀ (r : Nat) u, p.steps[r]? = some u → o ∈ u.modelOutputs.map (·.operand) → r = q
  ascending : ∀ c, (p.dependenciesOf c).Pairwise (· < ·)
  /-- The dependencies of a step are the steps that compute what it reads of others. -/
  dependencies : ∀ c q, q ∈ p.dependenciesOf c ↔
    ∃ s t o, p.steps[c]? = some s ∧ o ∈ s.crossInputs.map (·.operand) ∧ p.steps[q]? = some t ∧
      o ∈ computed whole t

section Assembled

variable {whole : Model} {steps : List Step} {flow : Flow}

/-- A step of an assembled plan is a finished one. -/
theorem getElem?_assembled {c : Nat} {s : Step} :
    (assembled whole steps flow).steps[c]? = some s ↔
      ∃ t links, steps[c]? = some t ∧ flow.crossOutputs[c]? = some links ∧
        s = t.finished links whole.relaxed := by
  simp only [assembled, List.getElem?_map, List.getElem?_zip_eq_some, Option.map_eq_some_iff,
    Prod.exists]
  constructor
  · rintro ⟨t, links, ⟨ht, hlinks⟩, rfl⟩
    exact ⟨t, links, ht, hlinks, rfl⟩
  · rintro ⟨t, links, ht, hlinks, rfl⟩
    exact ⟨t, links, ⟨ht, hlinks⟩, rfl⟩

/-- What finishing leaves alone is the same in the steps of a plan that has been finished. -/
theorem map_assembled {β : Type} {f : Step → β}
    (hf : ∀ (s : Step) links, f (s.finished links whole.relaxed) = f s)
    (hlength : flow.crossOutputs.length = steps.length) :
    (assembled whole steps flow).steps.map f = steps.map f := by
  rw [assembled, List.map_map]
  show (steps.zip flow.crossOutputs).map (fun e => f (e.1.finished e.2 whole.relaxed)) = _
  simp only [hf]
  conv_rhs => rw [← List.map_fst_zip hlength.ge, List.map_map]
  rfl

/-- The steps of a plan hold the same operations when it has been finished. -/
theorem operations_assembled (hlength : flow.crossOutputs.length = steps.length) :
    (assembled whole steps flow).steps.flatMap (·.operations) =
      steps.flatMap (·.operations) := by
  rw [List.flatMap_def, map_assembled (fun _ _ => rfl) hlength, ← List.flatMap_def]

/-- Steps that are all finished have well-formed models. -/
theorem valid_of_finish
    (hall : ∀ e ∈ steps.zip flow.crossOutputs, (e.1.finish e.2 whole.relaxed).2 = .ok ())
    {c : Nat} {s : Step} {links : List Link} (hs : steps[c]? = some s)
    (hlinks : flow.crossOutputs[c]? = some links) :
    Valid (s.finished links whole.relaxed).model := by
  have hpair : (s, links) ∈ steps.zip flow.crossOutputs :=
    List.mem_iff_getElem?.2 ⟨c, List.getElem?_zip_eq_some.2 ⟨hs, hlinks⟩⟩
  obtain ⟨-, -, -, -, hvalid⟩ := Step.finish_eq_ok.1 (finish_of_snd (hall _ hpair))
  exact hvalid

theorem mem_dependenciesOf {p : Plan} {c q : Nat} :
    q ∈ p.dependenciesOf c ↔ (q, c) ∈ p.dependencies := by
  rw [dependenciesOf, Sorted.mem_ofList]
  simp

/-- What a step reads of others an earlier step computes and hands on. -/
theorem Assembly.handed (h : Assembly whole steps flow) {c o : Nat} {s : Step}
    (hs : (assembled whole steps flow).steps[c]? = some s)
    (ho : o ∈ s.crossInputs.map (·.operand)) :
    ∃ (q : Nat) (t : Step), (assembled whole steps flow).steps[q]? = some t ∧ q < c ∧
      o ∈ computed whole t ∧
      (∀ (r : Nat) u, (assembled whole steps flow).steps[r]? = some u → o ∈ computed whole u →
        r = q) ∧
      ∃ operand, whole.operands[o]? = some operand ∧
        (operand.lifetime = .modelOutput ∧ o ∈ t.modelOutputs.map (·.operand) ∨
          operand.lifetime = .temporary ∧ (t.crossOutputs.map (·.operand)).count o = 1) := by
  obtain ⟨t, links, ht, -, rfl⟩ := getElem?_assembled.1 hs
  obtain ⟨q, u, hu, hlt, hcomputed⟩ := h.exists_producer ht ho
  obtain ⟨links', hlinks'⟩ := h.exists_links hu
  refine ⟨q, _, getElem?_assembled.2 ⟨u, links', hu, hlinks', rfl⟩, hlt, hcomputed, ?_, ?_⟩
  · intro r v hv hov
    obtain ⟨w, links, hw, hlinks, rfl⟩ := getElem?_assembled.1 hv
    exact h.separate.step_unique hw hu hov hcomputed
  · obtain ⟨link, hlink, rfl⟩ := List.mem_map.1 ho
    obtain ⟨-, source, hsource, hneeds⟩ :=
      (h.filled t (List.mem_of_getElem? ht)).crossInputs link hlink
    refine ⟨source, hsource, ?_⟩
    rcases Lifetime.needsProducer_iff.1 hneeds with hlifetime | hlifetime
    · have honce := h.count_crossOutputs ht ho hu hcomputed hsource hlifetime hlinks'
      exact Or.inr ⟨hlifetime, honce⟩
    · have hreturned := h.mem_modelOutputs hu hcomputed hsource hlifetime
      exact Or.inl ⟨hlifetime, hreturned⟩

/-- The outputs of the whole model are each returned by the step that computes it. -/
theorem Assembly.returned (h : Assembly whole steps flow) {o : Nat} (ho : o ∈ whole.outputs) :
    ∃ (q : Nat) (t : Step), (assembled whole steps flow).steps[q]? = some t ∧
      o ∈ t.modelOutputs.map (·.operand) ∧
      ∀ (r : Nat) u, (assembled whole steps flow).steps[r]? = some u →
        o ∈ u.modelOutputs.map (·.operand) → r = q := by
  obtain ⟨source, hsource, hlifetime⟩ := h.valid.output_lifetime h.sound ho
  obtain ⟨q, t, ht, hcomputed⟩ := h.exists_step (h.valid.outputs_written o ho)
  obtain ⟨links, hlinks⟩ := h.exists_links ht
  have hreturned := h.mem_modelOutputs ht hcomputed hsource hlifetime
  refine ⟨q, _, getElem?_assembled.2 ⟨t, links, ht, hlinks, rfl⟩, hreturned,
    fun r u hu hou => ?_⟩
  obtain ⟨v, links', hv, hlinks', rfl⟩ := getElem?_assembled.1 hu
  have hcomputed' := computed_of_modelOutput (h.filled v (List.mem_of_getElem? hv))
    (h.finished r v links' hv hlinks') hou
  exact h.separate.step_unique hv ht hcomputed' hcomputed

theorem ascending_dependenciesOf (p : Plan) (c : Nat) :
    (p.dependenciesOf c).Pairwise (· < ·) := by
  refine (Sorted.pairwise_ofList ?_ ?_ ?_ _).imp ?_
  · intro a b
    simpa using Nat.le_total a b
  · intro a b d
    simpa using Nat.le_trans
  · intro a b
    simpa using Nat.le_antisymm
  · intro a b hab
    exact Nat.lt_of_le_of_ne (by simpa using hab.1) hab.2

/-- A step depends on those that compute what it reads of others. -/
theorem Assembly.mem_dependenciesOf_iff (h : Assembly whole steps flow) {c q : Nat} :
    q ∈ (assembled whole steps flow).dependenciesOf c ↔
      ∃ s t o, (assembled whole steps flow).steps[c]? = some s ∧
        o ∈ s.crossInputs.map (·.operand) ∧
        (assembled whole steps flow).steps[q]? = some t ∧ o ∈ computed whole t := by
  rw [mem_dependenciesOf, show (assembled whole steps flow).dependencies = flow.dependencies
    from rfl, h.tracks.dependencies]
  constructor
  · rintro ⟨o, hread, hq⟩
    obtain ⟨s, hs, hindex, ho⟩ := mem_reads.1 hread
    obtain ⟨d, hd⟩ := List.mem_iff_getElem?.1 hs
    obtain rfl : d = c := (h.numbered d s hd).symm.trans hindex
    obtain ⟨t, ht, hcomputed⟩ := h.separate.producer?_eq_some_iff.1 hq
    obtain ⟨links, hlinks⟩ := h.exists_links hd
    obtain ⟨links', hlinks'⟩ := h.exists_links ht
    exact ⟨_, _, o, getElem?_assembled.2 ⟨s, links, hd, hlinks, rfl⟩, ho,
      getElem?_assembled.2 ⟨t, links', ht, hlinks', rfl⟩, hcomputed⟩
  · rintro ⟨s, t, o, hs, ho, ht, hcomputed⟩
    obtain ⟨s', links, hs', -, rfl⟩ := getElem?_assembled.1 hs
    obtain ⟨t', links', ht', -, rfl⟩ := getElem?_assembled.1 ht
    exact ⟨o, mem_reads.2 ⟨s', List.mem_of_getElem? hs', h.numbered c s' hs', ho⟩,
      h.separate.producer?_eq_some_iff.2 ⟨t', ht', hcomputed⟩⟩

theorem Assembly.bookkeeping (h : Assembly whole steps flow) :
    Bookkeeping whole (assembled whole steps flow) where
  numbered := fun c s hs => by
    obtain ⟨t, links, ht, -, rfl⟩ := getElem?_assembled.1 hs
    exact h.numbered c t ht
  covered := operations_assembled h.tracks.length_eq ▸ h.covered
  available := fun s hs i hi op hop o ho => by
    obtain ⟨c, hc⟩ := List.mem_iff_getElem?.1 hs
    obtain ⟨t, links, ht, hlinks, rfl⟩ := getElem?_assembled.1 hc
    exact available_of_consumed (h.filled t (List.mem_of_getElem? ht))
      (h.finished c t links ht hlinks) (mem_consumed.2 ⟨i, hi, op, hop, ho⟩)
  handed := fun c s hs o ho => h.handed hs ho
  returned := fun o ho => h.returned ho
  ascending := ascending_dependenciesOf _
  dependencies := fun c q => h.mem_dependenciesOf_iff

/-- A plan of filled steps that has been finished. -/
theorem assembly_of_finish {p : Plan} (hbuilt : Built whole) (hvalid : whole.validate = .ok ())
    (hfilled : ∀ s ∈ steps, Filled whole s)
    (hnumbered : ∀ (c : Nat) s, steps[c]? = some s → s.index = c)
    (hfinish : Plan.finish { steps } whole = (p, .ok ())) :
    ∃ flow, Assembly whole steps flow ∧ p = assembled whole steps flow := by
  obtain ⟨-, hcovered, flow, hflow, hall, rfl⟩ := finish_eq_ok.1 hfinish
  refine ⟨flow, ⟨validate_eq_ok_iff.1 hvalid, hbuilt.sound, hfilled, hnumbered, hcovered,
    tracks_of_flow hflow, fun c s links hs hlinks => ?_⟩, rfl⟩
  exact valid_of_finish hall hs hlinks

end Assembled

/-- A plan of filled steps that is finished keeps complete and consistent books. -/
theorem finish_bookkeeping {whole : Model} {steps : List Step} {p p' : Plan}
    (hbuilt : Built whole) (hvalid : whole.validate = .ok ())
    (hsteps : ∀ s ∈ steps, FilledFrom whole s) (hadd : steps.foldlM addStep {} = .ok p)
    (hfinish : p.finish whole = (p', .ok ())) : Bookkeeping whole p' := by
  rw [foldlM_addStep] at hadd
  obtain rfl := Except.ok.inj hadd
  have hfilled : ∀ s ∈ Plan.numbered steps, Filled whole s := fun s hs => by
    obtain ⟨c, hc⟩ := List.mem_iff_getElem?.1 hs
    obtain ⟨-, t, ht, rfl⟩ := getElem?_numbered hc
    exact (hsteps t (List.mem_of_getElem? ht)).filled.withIndex c
  obtain ⟨flow, hassembly, rfl⟩ := assembly_of_finish hbuilt hvalid hfilled
    (fun c s hs => (getElem?_numbered hs).1) hfinish
  exact hassembly.bookkeeping

/-! ## A plan of two steps -/

/-- A chain of two operations. -/
def chain : Model := performAll {} [
  .addOperand { type := .tensorFloat32, dimensions := [2] },
  .addOperand { type := .tensorFloat32, dimensions := [2] },
  .addOperand { type := .tensorFloat32, dimensions := [2] },
  .addOperation .relu [0] [1],
  .addOperation .floor [1] [2],
  .identify [0] [2]]

/-- One step for each operation of the chain. -/
def chainSteps : List Step :=
  [[.addOperand 0 .input, .addOperand 1 .output, .addOperation 0],
    [.addOperand 1 .input, .addOperand 2 .output, .addOperation 1]].map
      (List.foldl (Step.perform chain)
        { device := { name := "cpu", handle := .invalid, coverage := .full } })

/-- The second step of the chain reads what the first one hands on. -/
theorem finish_bookkeeping_chain :
    Built chain ∧ chain.validate = .ok () ∧ (∀ s ∈ chainSteps, FilledFrom chain s) ∧
      chainSteps.foldlM addStep {} = .ok { steps := Plan.numbered chainSteps } ∧
      (finish { steps := Plan.numbered chainSteps } chain).2 = .ok () ∧
      Bookkeeping chain (finish { steps := Plan.numbered chainSteps } chain).1 := by
  have hbuilt : Built chain := ⟨_, rfl⟩
  have hvalid : chain.validate = .ok () := by decide
  have hsteps : ∀ s ∈ chainSteps, FilledFrom chain s := by
    simp only [chainSteps, List.forall_mem_map]
    exact fun calls _ => ⟨_, calls, rfl⟩
  have hfinish : (finish { steps := Plan.numbered chainSteps } chain).2 = .ok () := by rfl
  exact ⟨hbuilt, hvalid, hsteps, foldlM_addStep chainSteps, hfinish,
    finish_bookkeeping hbuilt hvalid hsteps (foldlM_addStep chainSteps) (Prod.ext rfl hfinish)⟩

end NeuralDispatch.Plan

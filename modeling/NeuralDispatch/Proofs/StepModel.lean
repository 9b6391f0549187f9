import NeuralDispatch.Proofs.Carving
import NeuralDispatch.Proofs.DataFlow

/-!
# The models of carved steps

The model of a step that has been carved out of a well-formed model is well formed itself, as soon
as it has an output.

* `Filled.edges_up` — the dependencies inside a step go from earlier to later operations.
* `Carved.finished_operand` — what the model of a finished step has of an operand.
* `Carved.valid` — the model of a carved step with an output is well formed.
-/

namespace NeuralDispatch

open Answer Model Step

/-! ## What a step computes -/

namespace Step

theorem nodup_computed {whole : Model} (single : whole.written.Nodup) {s : Step}
    (hnodup : s.operations.Nodup) : (Plan.computed whole s).Nodup := by
  refine List.nodup_flatMap.2 ⟨fun i _ => ?_, hnodup.imp fun {i j} hij o hi hj => hij ?_⟩
  · cases hop : whole.operations[i]? with
    | none => exact List.nodup_nil
    | some op => exact (List.nodup_flatMap.1 single).1 op (List.mem_of_getElem? hop)
  · cases ha : whole.operations[i]? with
    | none => simp [ha] at hi
    | some a =>
      cases hb : whole.operations[j]? with
      | none => simp [hb] at hj
      | some b => exact writer_unique single ha hb (by simpa [ha] using hi) (by simpa [hb] using hj)

section Carved

variable {whole : Model} {s : Step} {links : List Link} {earlier : List Nat} {relaxed : Bool}

/-- The dependencies inside a step go from earlier to later operations. -/
theorem Filled.edges_up (h : Filled whole s) (single : whole.written.Nodup)
    (hordered : Ordered whole.edges (s.operations.reverse ++ earlier)) {e : Nat × Nat}
    (he : e ∈ s.model.edges) : e.1 < e.2 := by
  obtain ⟨reader, place, hreader, hread, hproducer⟩ :=
    mem_edges.1 (show (e.1, e.2) ∈ s.model.edges from he)
  obtain ⟨writer, hwriter, hwritten⟩ := lastWriter_eq_some hproducer
  obtain ⟨b, hb, source, hsource, -, hinputs, -⟩ := counterpart h.translated.flip hreader
  obtain ⟨a, ha, origin, horigin, -, -, houtputs⟩ := counterpart h.translated.flip hwriter
  obtain ⟨o, ho, hplace⟩ := counterpart_mem hinputs.flip hread
  obtain ⟨o', ho', hplace'⟩ := counterpart_mem houtputs.flip hwritten
  obtain rfl : o = o' := h.biUnique.1 hplace hplace'
  have hedge : (a, b) ∈ whole.edges :=
    mem_edges.2 ⟨source, o, hsource, ho, (producer?_eq_some_iff single).2 ⟨origin, horigin, ho'⟩⟩
  have hall : (earlier.reverse ++ s.operations).reverse = s.operations.reverse ++ earlier := by simp
  have hposition : ∀ k : Nat, (earlier.reverse ++ s.operations)[earlier.reverse.length + k]? =
      s.operations[k]? := fun k => by
    rw [List.getElem?_append_right (Nat.le_add_right _ _), Nat.add_sub_cancel_left]
  rw [← hall] at hordered
  have hlt := hordered.lt_of_edge ((hposition e.1).trans ha) ((hposition e.2).trans hb) hedge
  omega

/-! ## What is passed in and out -/

/-- Operations may write what a step computes. -/
theorem needsProducer_of_computed (hvalid : Valid whole) {o : Nat} {source : Operand}
    (ho : o ∈ Plan.computed whole s) (hsource : whole.operands[o]? = some source) :
    source.lifetime.needsProducer = true := by
  obtain ⟨i, -, op, hop, hwritten⟩ := mem_computed.1 ho
  obtain ⟨operand, hoperand, hneeds⟩ :=
    hvalid.writable o (mem_written.2 ⟨op, List.mem_of_getElem? hop, hwritten⟩)
  obtain rfl := Option.some.inj (hsource.symm.trans hoperand)
  exact hneeds

/-- A step does not compute what has its value from elsewhere. -/
theorem not_computed (hvalid : Valid whole) {o : Nat} {source : Operand}
    (hsource : whole.operands[o]? = some source)
    (hgiven : source.lifetime.needsProducer = false) : o ∉ Plan.computed whole s := fun hcomputed =>
  Bool.false_ne_true (hgiven.symm.trans (needsProducer_of_computed hvalid hcomputed hsource))

/-- A step computes what it passes out. -/
theorem Carved.computed_of_output (h : Carved whole s)
    (hlinks : ∀ link ∈ links,
      s.operands[link.place]? = some link.operand ∧ link.operand ∈ Plan.computed whole s)
    {place o : Nat} (ho : s.operands[place]? = some o)
    (hplace : place ∈ (s.modelOutputs ++ links).map (·.place)) : o ∈ Plan.computed whole s := by
  obtain ⟨link, hlink, rfl⟩ := List.mem_map.1 hplace
  rcases List.mem_append.1 hlink with hlink | hlink
  · have hoperand := (h.filled.modelOutputs link hlink).1
    obtain rfl := Option.some.inj (hoperand.symm.trans ho)
    exact h.own _ (List.mem_map.2 ⟨link, hlink, rfl⟩)
  · obtain ⟨hoperand, hcomputed⟩ := hlinks link hlink
    obtain rfl := Option.some.inj (hoperand.symm.trans ho)
    exact hcomputed

/-- A step does not compute what is passed in. -/
theorem Carved.not_computed_of_input (h : Carved whole s) (hvalid : Valid whole) {place o : Nat}
    (ho : s.operands[place]? = some o)
    (hplace : place ∈ (s.modelInputs ++ s.crossInputs).map (·.place)) :
    o ∉ Plan.computed whole s := by
  rcases (Plan.mem_inputs_iff h.filled ho).1 hplace with hmodel | hcross
  · obtain ⟨link, hlink, rfl⟩ := List.mem_map.1 hmodel
    obtain ⟨-, source, hsource, hlifetime⟩ := h.filled.modelInputs link hlink
    exact not_computed hvalid hsource (by rw [hlifetime]; rfl)
  · exact (h.foreign o hcross).2

variable (relaxed) in
/-- What the model of a finished step has of an operand of the whole model. -/
theorem Carved.finished_operand (h : Carved whole s) (hvalid : Valid whole)
    (hlinks : ∀ link ∈ links,
      s.operands[link.place]? = some link.operand ∧ link.operand ∈ Plan.computed whole s)
    {place o : Nat} (ho : s.operands[place]? = some o) :
    ∃ source operand, whole.operands[o]? = some source ∧
      (s.finished links relaxed).model.operands[place]? = some operand ∧
      (operand.lifetime.needsProducer = true ↔ o ∈ Plan.computed whole s) ∧
      (operand.isConstant = true → operand.value = source.value ∧ source.isConstant = true) := by
  obtain ⟨source, hsource, hlocal⟩ := h.filled.finished_operand ho
  refine ⟨source, _, hsource, hlocal, ?_, ?_⟩
  · split
    · next hout => simp [Lifetime.needsProducer, h.computed_of_output hlinks ho hout]
    · split
      · next hin => simp [Lifetime.needsProducer, h.not_computed_of_input hvalid ho hin]
      · next hin =>
        rw [importOperand_needsProducer]
        constructor
        · intro hnotGiven
          rcases h.accounted o (List.mem_of_getElem? ho) with
            ⟨source', hsource', hgiven⟩ | hmodel | hcross | hcomputed
          · obtain rfl := Option.some.inj (hsource.symm.trans hsource')
            exact absurd hgiven hnotGiven
          · exact absurd ((Plan.mem_inputs_iff h.filled ho).2 (Or.inl hmodel)) hin
          · exact absurd ((Plan.mem_inputs_iff h.filled ho).2 (Or.inr hcross)) hin
          · exact hcomputed
        · intro hcomputed
          exact Lifetime.not_given_of_needsProducer
            (needsProducer_of_computed hvalid hcomputed hsource)
  · intro hconstant
    have himport : (importOperand source).lifetime.isConstant = true := by
      rw [Operand.isConstant] at hconstant
      split at hconstant
      · exact absurd hconstant Bool.false_ne_true
      · split at hconstant
        · exact absurd hconstant Bool.false_ne_true
        · exact hconstant
    rw [importOperand_isConstant] at himport
    exact ⟨(importOperand_value source).trans (if_pos (Or.inl himport)), himport⟩

/-! ## The checks of the model -/

/-- No operand of the model of a step is written twice. -/
theorem Filled.nodup_written (h : Filled whole s) (single : whole.written.Nodup)
    (hordered : Ordered whole.edges (s.operations.reverse ++ earlier)) :
    s.model.written.Nodup := by
  have hnodup := (List.nodup_append.1 hordered.nodup).1
  exact (List.rel_nodup h.biUnique h.forall₂_computed).1
    (nodup_computed single (List.nodup_reverse.1 hnodup))

/-- The model of a carved step is well formed as soon as it has an output. -/
theorem Carved.valid (h : Carved whole s) (hvalid : Valid whole)
    (hordered : Ordered whole.edges (s.operations.reverse ++ earlier))
    (hoperations : s.operations ≠ []) (houtputs : s.modelOutputs ++ links ≠ [])
    (hlinks : ∀ link ∈ links,
      s.operands[link.place]? = some link.operand ∧ link.operand ∈ Plan.computed whole s) :
    Valid (s.finished links relaxed).model := by
  have hlength : (s.finished links relaxed).model.operands.length = s.operands.length :=
    h.filled.length_finished
  have hknown : ∀ place operand, (s.finished links relaxed).model.operands[place]? = some operand →
      ∃ o, s.operands[place]? = some o := fun place operand hplace => by
    have hlt := (List.getElem?_eq_some_iff.1 hplace).1
    rw [hlength] at hlt
    exact ⟨_, List.getElem?_eq_getElem hlt⟩
  have hsingle := h.filled.nodup_written hvalid.single hordered
  refine ⟨?_, ?_, ?_, ?_, hsingle, ?_, ?_, ?_, ?_⟩
  · rintro hnil
    have hmodel : s.model.operations = [] := hnil
    have htranslated := h.filled.translated
    rw [hmodel, List.forall₂_nil_right_iff] at htranslated
    exact hoperations htranslated
  · exact fun hnil => houtputs (List.map_eq_nil_iff.1 hnil)
  · intro op hop o ho
    rw [hlength, ← h.filled.length_eq]
    exact h.filled.built.sound.exist op hop o ho
  · intro place hplace
    obtain ⟨o, hcomputed, ho⟩ := counterpart_mem h.filled.forall₂_computed.flip hplace
    obtain ⟨-, operand, -, hoperand, hneeds, -⟩ :=
      h.finished_operand relaxed hvalid hlinks ho
    exact ⟨operand, hoperand, hneeds.2 hcomputed⟩
  · intro place operand hplace hneeds _
    obtain ⟨o, ho⟩ := hknown place operand hplace
    obtain ⟨-, operand', -, hoperand', hiff, -⟩ := h.finished_operand relaxed hvalid hlinks ho
    obtain rfl := Option.some.inj (hplace.symm.trans hoperand')
    exact (h.filled.mem_written_iff ho).2 (hiff.1 hneeds)
  · intro place operand hplace hconstant
    obtain ⟨o, ho⟩ := hknown place operand hplace
    obtain ⟨source, operand', hsource, hoperand', -, hvalue⟩ :=
      h.finished_operand relaxed hvalid hlinks ho
    obtain rfl := Option.some.inj (hplace.symm.trans hoperand')
    obtain ⟨heq, hsourceConstant⟩ := hvalue hconstant
    rw [heq]
    exact hvalid.valued o source hsource hsourceConstant
  · intro place hplace
    obtain ⟨link, hlink, rfl⟩ := List.mem_map.1 hplace
    have ho : s.operands[link.place]? = some link.operand := by
      rcases List.mem_append.1 hlink with hmodel | hcross
      · exact (h.filled.modelOutputs link hmodel).1
      · exact (hlinks link hcross).1
    exact (h.filled.mem_written_iff ho).2 (h.computed_of_output hlinks ho hplace)
  · exact topologicalOrder_of_rank id fun e he => h.filled.edges_up hvalid.single hordered he

end Carved

end Step

end NeuralDispatch

import NeuralDispatch.Proofs.Preparation
import NeuralDispatch.Proofs.SelfContained
import Mathlib.Data.List.Sort

/-!
# What a step is a copy of

A step under construction keeps its own numbering of operands next to a model, some lists of what it
exchanges with the outside, and the operations that it has taken over.  Whatever it is asked, and
whether it agrees or not, all of this describes one part of the original.

* `operandMap_ascending`, `places_operandMap` — the numbering is one to one.
* `answer_refused`, `answer_accepted` — a call is refused just when the step lacks something for it.
* `FilledFrom.place?_foldl` — no later call moves an operand.
* `Represents` — whether a step is a copy of a part of a model.
* `Answers` — what such a step says to the next call.
* `represents_answers` — both hold of every step that is being filled.
-/

namespace NeuralDispatch.Step

open Answer Model

variable {whole : Model} {s : Step}

/-! ## The numbering of the operands -/

theorem mem_operandMap {link : Link} :
    link ∈ s.operandMap ↔ s.operands[link.place]? = some link.operand := by
  rw [operandMap, List.mem_mergeSort, List.mem_map]
  constructor
  · rintro ⟨⟨o, place⟩, hmem, rfl⟩
    exact List.mem_zipIdx_iff_getElem?.1 hmem
  · intro h
    exact ⟨(link.operand, link.place), List.mem_zipIdx_iff_getElem?.2 h, rfl⟩

theorem operandMap_perm (s : Step) :
    s.operandMap.Perm (s.operands.zipIdx.map fun (operand, place) => ⟨operand, place⟩) :=
  List.mergeSort_perm ..

/-- The numbering is shown in ascending order, each operand once. -/
theorem operandMap_ascending (hnodup : s.operands.Nodup) :
    s.operandMap.Pairwise (·.operand < ·.operand) := by
  have hsorted : s.operandMap.Pairwise fun a b => decide (a.operand ≤ b.operand) = true := by
    refine List.pairwise_mergeSort (fun a b c hab hbc => ?_) (fun a b => ?_) _
    · simp only [decide_eq_true_eq] at hab hbc ⊢
      exact hab.trans hbc
    · simpa using Nat.le_total a.operand b.operand
  have hoperands : (s.operandMap.map (·.operand)).Perm s.operands := by
    refine (s.operandMap_perm.map _).trans ?_
    rw [List.map_map]
    exact List.Perm.of_eq (List.zipIdx_map_fst 0 s.operands)
  have hdistinct : s.operandMap.Pairwise (·.operand ≠ ·.operand) :=
    List.pairwise_map.1 (hoperands.nodup_iff.2 hnodup)
  refine (hsorted.and hdistinct).imp fun {a b} h => ?_
  exact lt_of_le_of_ne (of_decide_eq_true h.1) h.2

/-- The places are taken one after the other. -/
theorem places_operandMap (s : Step) :
    (s.operandMap.map (·.place)).Perm (List.range s.operands.length) := by
  refine (s.operandMap_perm.map _).trans ?_
  rw [List.map_map, List.range_eq_range']
  exact List.Perm.of_eq (List.zipIdx_map_snd 0 s.operands)

/-! ## The answers to calls -/

/-- The answer to a call. -/
def answer (whole : Model) (s : Step) : Call → Except PlanError Step
  | .addOperand o role => (s.addOperand whole o role).map (·.1)
  | .addOperation i => s.addOperation whole i

/-- What a step lacks for a call: the operand or the operation does not exist, an operand that the
operation touches is not known to the step, or the operation computes nothing. -/
def refusal? (whole : Model) (s : Step) : Call → Option PlanError
  | .addOperand o _ =>
    if o < whole.operands.length then none else some (.invalidModel (.unknownOperand o))
  | .addOperation i =>
    match whole.operations[i]? with
    | none => some (.invalidModel (.unknownOperation i))
    | some op =>
      match (op.inputs ++ op.outputs).find? fun o => !s.operands.contains o with
      | some o => some (.misuse (.unmappedOperand o i s.index))
      | none => if op.outputs = [] then some (.invalidModel (.idleOperation op.type)) else none

theorem requirePlace_error {i o : Nat} (ho : o ∉ s.operands) :
    s.requirePlace i o = .error (.misuse (.unmappedOperand o i s.index)) := by
  rw [requirePlace, show s.place? o = none from List.idxOf?_eq_none_iff.2 ho]

/-- The first operand that the step does not know is named. -/
theorem mapM_requirePlace_error {i o : Nat} {os : List Nat}
    (hfirst : os.find? (fun o => !s.operands.contains o) = some o) :
    os.mapM (s.requirePlace i) = .error (.misuse (.unmappedOperand o i s.index)) := by
  obtain ⟨ho, before, after, rfl, hbefore⟩ := List.find?_eq_some_iff_append.1 hfirst
  have hknown : ∀ o' ∈ before, o' ∈ s.operands := fun o' ho' => by simpa using hbefore o' ho'
  obtain ⟨places, hplaces⟩ := exists_places hknown
  refine mapM_eq_error.2 ⟨before, o, after, places, rfl, mapM_eq_ok.2 ?_, ?_⟩
  · exact hplaces.imp fun _ _ => requirePlace_eq_ok.2
  · exact requirePlace_error (by simpa using ho)

section Answers

variable (h : Filled whole s)

include h

theorem addOperand_error {o : Nat} (hmissing : whole.operands.length ≤ o) (role : Role) :
    s.addOperand whole o role = .error (.invalidModel (.unknownOperand o)) := by
  have hnew : s.place? o = none := by
    cases hplace : s.place? o with
    | none => rfl
    | some place =>
      obtain ⟨source, hsource, -⟩ := h.copied place o (getElem?_of_place? hplace)
      exact absurd (List.getElem?_eq_some_iff.1 hsource).1 (Nat.not_lt.2 hmissing)
  rw [Step.addOperand, requireMutable_eq_ok.2 h.unfrozen, ok_bind, hnew, operand,
    List.getElem?_eq_none hmissing]
  rfl

theorem addOperation_missing {i : Nat} (hmissing : whole.operations[i]? = none) :
    s.addOperation whole i = .error (.invalidModel (.unknownOperation i)) := by
  rw [Step.addOperation, requireMutable_eq_ok.2 h.unfrozen, ok_bind, operation, hmissing]
  rfl

theorem addOperation_eq {i : Nat} {op : Operation} (hop : whole.operations[i]? = some op) :
    s.addOperation whole i = (op.inputs.mapM (s.requirePlace i) >>= fun inputs =>
      op.outputs.mapM (s.requirePlace i) >>= fun outputs =>
        PlanError.ofModel (s.model.addOperation op.type inputs outputs) >>= fun model =>
          pure { s with model, operations := s.operations ++ [i] }) := by
  rw [Step.addOperation, requireMutable_eq_ok.2 h.unfrozen, ok_bind, operation, hop]
  rfl

theorem addOperation_unmapped {i o : Nat} {op : Operation} (hop : whole.operations[i]? = some op)
    (hfirst : (op.inputs ++ op.outputs).find? (fun o => !s.operands.contains o) = some o) :
    s.addOperation whole i = .error (.misuse (.unmappedOperand o i s.index)) := by
  rw [addOperation_eq h hop]
  rw [List.find?_append, Option.or_eq_some_iff] at hfirst
  rcases hfirst with hinput | ⟨hinputs, houtput⟩
  · rw [mapM_requirePlace_error hinput, error_bind]
  · have hknown : ∀ o' ∈ op.inputs, o' ∈ s.operands := fun o' ho' => by
      simpa using List.find?_eq_none.1 hinputs o' ho'
    obtain ⟨places, hplaces⟩ := exists_places hknown
    rw [mapM_eq_ok.2 (hplaces.imp fun _ _ => requirePlace_eq_ok.2), ok_bind,
      mapM_requirePlace_error houtput, error_bind]

theorem addOperation_idle {i : Nat} {op : Operation} (hop : whole.operations[i]? = some op)
    (hknown : ∀ o ∈ op.inputs, o ∈ s.operands) (hidle : op.outputs = []) :
    s.addOperation whole i = .error (.invalidModel (.idleOperation op.type)) := by
  obtain ⟨places, hplaces⟩ := exists_places hknown
  have hlt : ∀ place ∈ places ++ [], place < s.model.operands.length := by
    rw [List.append_nil]
    exact h.places_lt hplaces
  have hmodel : s.model.addOperation op.type places [] = .error (.idleOperation op.type) := by
    rw [Model.addOperation, (forM_operand_eq_ok (u := ())).2 hlt]
    rfl
  rw [addOperation_eq h hop, mapM_eq_ok.2 (hplaces.imp fun _ _ => requirePlace_eq_ok.2), ok_bind,
    hidle, List.mapM_nil, pure_bind, hmodel]
  rfl

/-- A call is refused for what the step lacks. -/
theorem answer_refused {call : Call} {e : PlanError} (he : refusal? whole s call = some e) :
    s.answer whole call = .error e := by
  cases call with
  | addOperand o role =>
    rw [refusal?] at he
    split at he
    · cases he
    · next hmissing =>
      obtain rfl := Option.some.inj he
      rw [answer, addOperand_error h (Nat.le_of_not_lt hmissing) role]
      rfl
  | addOperation i =>
    rw [refusal?] at he
    split at he
    · next hmissing => exact Option.some.inj he ▸ addOperation_missing h hmissing
    · next op hop =>
      split at he
      · next o hfirst => exact Option.some.inj he ▸ addOperation_unmapped h hop hfirst
      · next hnone =>
        split at he
        · next hidle =>
          refine Option.some.inj he ▸ addOperation_idle h hop (fun o ho => ?_) hidle
          simpa using List.find?_eq_none.1 hnone o (List.mem_append_left _ ho)
        · cases he

/-- A call for which the step lacks nothing is accepted. -/
theorem answer_accepted {call : Call} (hnone : refusal? whole s call = none) :
    ∃ s', s.answer whole call = .ok s' := by
  cases call with
  | addOperand o role =>
    rw [refusal?] at hnone
    split at hnone
    · next hlt =>
      obtain ⟨s', place, hadd, -⟩ := addOperand_ok h hlt role
      exact ⟨s', by rw [answer, hadd]; rfl⟩
    · cases hnone
  | addOperation i =>
    rw [refusal?] at hnone
    split at hnone
    · cases hnone
    · next op hop =>
      split at hnone
      · cases hnone
      · next hknown =>
        split at hnone
        · cases hnone
        · next hne =>
          obtain ⟨model, hadd⟩ := addOperation_ok h hop hne fun o ho => by
            simpa using List.find?_eq_none.1 hknown o ho
          exact ⟨_, hadd⟩

end Answers

theorem perform_eq (whole : Model) (s : Step) (call : Call) :
    s.perform whole call = (s.answer whole call).toOption.getD s := by
  cases call with
  | addOperand o role =>
    rw [Step.perform, answer]
    cases s.addOperand whole o role <;> rfl
  | addOperation i =>
    rw [Step.perform, answer]
    cases s.addOperation whole i <;> rfl

/-! ## Later calls -/

theorem FilledFrom.foldl (h : FilledFrom whole s) (later : List Call) :
    FilledFrom whole (later.foldl (perform whole) s) := by
  obtain ⟨device, calls, rfl⟩ := h
  exact ⟨device, calls ++ later, (List.foldl_append ..).symm⟩

theorem operands_prefix_perform (whole : Model) (s : Step) (call : Call) :
    s.operands <+: (s.perform whole call).operands := by
  cases call with
  | addOperand o role =>
    rw [Step.perform]
    split
    · next s' place hadd =>
      obtain ⟨-, ⟨-, rfl⟩ | ⟨-, source, -, -, rfl⟩⟩ := addOperand_eq_ok.1 hadd
      · exact List.prefix_refl _
      · exact ⟨[o], by simp [withOperand]⟩
    · exact List.prefix_refl _
  | addOperation i =>
    rw [Step.perform]
    split
    · next s' hadd =>
      obtain ⟨-, op, inputs, outputs, model, -, -, -, -, rfl⟩ := addOperation_eq_ok.1 hadd
      exact List.prefix_refl _
    · exact List.prefix_refl _

theorem operands_prefix_foldl (whole : Model) (s : Step) (later : List Call) :
    s.operands <+: (later.foldl (perform whole) s).operands := by
  induction later generalizing s with
  | nil => exact List.prefix_refl _
  | cons call rest ih => exact (operands_prefix_perform whole s call).trans (ih _)

/-- No later call moves an operand. -/
theorem FilledFrom.place?_foldl (h : FilledFrom whole s) {o place : Nat}
    (hplace : s.place? o = some place) (later : List Call) :
    (later.foldl (perform whole) s).place? o = some place := by
  have hlater := (h.foldl later).filled
  obtain ⟨more, hmore⟩ := operands_prefix_foldl whole s later
  have ho := getElem?_of_place? hplace
  rw [hlater.place?_eq_some_iff, ← hmore,
    List.getElem?_append_left (List.getElem?_eq_some_iff.1 ho).1, ho]

/-- The place that a call gives an operand is its place in the step. -/
theorem Filled.place?_of_addOperand (h : Filled whole s) {s' : Step} {o place : Nat} {role : Role}
    (hadd : s.addOperand whole o role = .ok (s', place)) : s'.place? o = some place := by
  obtain ⟨-, ⟨hknown, rfl⟩ | ⟨hnew, source, hsource, rfl, rfl⟩⟩ := addOperand_eq_ok.1 hadd
  · exact hknown
  · have h' := h.withOperand hsource (List.idxOf?_eq_none_iff.1 hnew) role
    rw [h'.place?_eq_some_iff]
    simp [Step.withOperand, h.length_eq]

/-! ## The invariant -/

/-- Whether an operand of a step is a copy: constants and left-out operands with their values, all
others as temporaries. -/
structure Copies (source copy : Operand) : Prop where
  type : copy.type = source.type
  dimensions : copy.dimensions = source.dimensions
  scale : copy.scale = source.scale
  zeroPoint : copy.zeroPoint = source.zeroPoint
  given : source.lifetime.isConstant = true ∨ source.lifetime = .noValue →
    copy.lifetime = source.lifetime ∧ copy.value = source.value
  computed : ¬ (source.lifetime.isConstant = true ∨ source.lifetime = .noValue) →
    copy.lifetime = .temporary ∧ copy.value = none

theorem copies_importOperand (source : Operand) (consumers : Nat) :
    Copies source { importOperand source with consumers } := by
  unfold importOperand
  by_cases h : source.lifetime.isConstant = true ∨ source.lifetime = .noValue
  · rw [if_pos (by simpa using h)]
    exact ⟨rfl, rfl, rfl, rfl, fun _ => ⟨rfl, rfl⟩, fun hno => absurd h hno⟩
  · rw [if_neg (by simpa using h)]
    exact ⟨rfl, rfl, rfl, rfl, fun hyes => absurd hyes h, fun _ => ⟨rfl, rfl⟩⟩

/-- Whether an operation is another one in which every operand has been renumbered. -/
structure Renumbered (links : List Link) (source op : Operation) : Prop where
  type : op.type = source.type
  inputs : List.Forall₂ (fun o place => ⟨o, place⟩ ∈ links) source.inputs op.inputs
  outputs : List.Forall₂ (fun o place => ⟨o, place⟩ ∈ links) source.outputs op.outputs

/-- Whether a step is a copy of a part of a model. -/
structure Represents (whole : Model) (s : Step) : Prop where
  /-- The numbering gives each operand of the whole model one place at most. -/
  ascending : s.operandMap.Pairwise (·.operand < ·.operand)
  /-- It takes every place of the step's model once. -/
  places : (s.operandMap.map (·.place)).Perm (List.range s.model.operands.length)
  place?_iff : ∀ o place, s.place? o = some place ↔ ⟨o, place⟩ ∈ s.operandMap
  copied : ∀ link ∈ s.operandMap, ∃ source copy, whole.operands[link.operand]? = some source ∧
    s.model.operands[link.place]? = some copy ∧ Copies source copy
  renumbered : List.Forall₂ (fun i op => ∃ source, whole.operations[i]? = some source ∧
    Renumbered s.operandMap source op) s.operations s.model.operations
  signature : ∀ k i : Nat, s.operations[k]? = some i →
    ∃ signature, whole.signature i = .ok signature ∧ s.model.signature k = .ok signature
  /-- No operand is noted twice, in whatever roles. -/
  noted_once : (s.notes.map (·.operand)).Nodup
  noted : ∀ link ∈ s.notes, link ∈ s.operandMap

theorem FilledFrom.represents (h : FilledFrom whole s) : Represents whole s := by
  have hfilled := h.filled
  have hnoted := h.noted
  have hlink : ∀ o place : Nat, s.operands[place]? = some o → ⟨o, place⟩ ∈ s.operandMap :=
    fun o place ho => mem_operandMap.2 ho
  refine ⟨operandMap_ascending hfilled.nodup, ?_, fun o place => ?_, fun link hmem => ?_, ?_,
    fun k i hk => ?_, hnoted.nodup, fun link hmem => ?_⟩
  · rw [hfilled.length_eq]
    exact s.places_operandMap
  · rw [hfilled.place?_eq_some_iff, mem_operandMap]
  · obtain ⟨source, hsource, hcopy⟩ := hfilled.copied _ _ (mem_operandMap.1 hmem)
    exact ⟨source, _, hsource, hcopy, copies_importOperand source _⟩
  · refine hfilled.translated.imp ?_
    rintro i op ⟨source, hsource, htype, hinputs, houtputs⟩
    exact ⟨source, hsource, htype, hinputs.imp hlink, houtputs.imp hlink⟩
  · obtain ⟨op, hop, htranslated⟩ := counterpart hfilled.translated hk
    refine htranslated.signature hop
      (hfilled.built.sound.computes op (List.mem_of_getElem? hop)) fun place o ho => ?_
    obtain ⟨source, hsource, hcopy⟩ := hfilled.copied place o ho
    exact ⟨source, _, hsource, hcopy, (copies_importOperand source _).type⟩
  · exact mem_operandMap.2 (hfilled.known_of_notes hmem)

/-- What a step says to the next call. -/
structure Answers (whole : Model) (s : Step) : Prop where
  /-- A call is refused for what the step lacks, and then changes nothing. -/
  refused : ∀ call e, refusal? whole s call = some e →
    s.answer whole call = .error e ∧ s.perform whole call = s
  accepted : ∀ call, refusal? whole s call = none →
    s.answer whole call = .ok (s.perform whole call)
  /-- The place that an operand is given first is its place for good, and to add it once more, as
  whatever, changes nothing. -/
  settled : ∀ o role s' place, s.addOperand whole o role = .ok (s', place) →
    ⟨o, place⟩ ∈ s'.operandMap ∧ ∀ (later : List Call) (role' : Role),
      (later.foldl (perform whole) s').addOperand whole o role' =
        .ok (later.foldl (perform whole) s', place)

theorem FilledFrom.answers (h : FilledFrom whole s) : Answers whole s := by
  refine ⟨fun call e he => ?_, fun call hnone => ?_, fun o role s' place hadd => ?_⟩
  · have hrefused := answer_refused h.filled he
    exact ⟨hrefused, by rw [perform_eq, hrefused]; rfl⟩
  · obtain ⟨s', hs'⟩ := answer_accepted h.filled hnone
    rw [perform_eq, hs']
    rfl
  · have hplace := h.filled.place?_of_addOperand hadd
    have hs' : FilledFrom whole s' := by
      have hperformed : s.perform whole (.addOperand o role) = s' := by rw [Step.perform, hadd]
      exact hperformed ▸ h.foldl [.addOperand o role]
    refine ⟨mem_operandMap.2 (getElem?_of_place? hplace), fun later role' => ?_⟩
    exact addOperand_eq_ok.2
      ⟨(hs'.foldl later).filled.unfrozen, Or.inl ⟨hs'.place?_foldl hplace later, rfl⟩⟩

/-- Whatever a step is asked while it is filled, in whatever order, and whether it agrees or not, it
is a copy of a part of the original; it refuses just what it cannot do and is then left as it was,
and what it has given an operand once it keeps. -/
theorem represents_answers (whole : Model) (device : Device) (calls : List Call) :
    Represents whole (calls.foldl (perform whole) { device }) ∧
      Answers whole (calls.foldl (perform whole) { device }) :=
  ⟨FilledFrom.represents ⟨device, calls, rfl⟩, FilledFrom.answers ⟨device, calls, rfl⟩⟩

end NeuralDispatch.Step

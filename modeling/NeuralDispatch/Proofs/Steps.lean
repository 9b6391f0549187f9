import NeuralDispatch.Plan.Basic
import NeuralDispatch.Proofs.Validation

/-!
# Steps that calls have filled

A step is a copy of a part of a model under other positions.  What the copy has in common with the
original is an invariant of the calls that fill it, whatever their order.

* `addOperand_eq_ok`, `addOperation_eq_ok` — what the two calls do.
* `Filled` — the invariant: each place holds a copy of its operand with its reads counted, each
  operation is the original under the new positions, and the noted links are of the right kind.
* `FilledFrom.filled` — every step that is filled by calls keeps it.
* `finish_eq_ok` — what it takes to finish such a step.
-/

namespace NeuralDispatch.Step

open Answer Model

/-! ## The calls -/

/-- A call that fills a step. -/
inductive Call where
  | addOperand (operand : Nat) (role : Role)
  | addOperation (operation : Nat)

/-- The step after a call.  A refused call changes nothing. -/
def perform (whole : Model) (s : Step) : Call → Step
  | .addOperand o role =>
    match s.addOperand whole o role with
    | .ok (s', _) => s'
    | .error _ => s
  | .addOperation i =>
    match s.addOperation whole i with
    | .ok s' => s'
    | .error _ => s

/-- A step that calls have filled with operands and operations of a model. -/
def FilledFrom (whole : Model) (s : Step) : Prop :=
  ∃ device calls, s = List.foldl (perform whole) { device } calls

theorem requireMutable_eq_ok {s : Step} {call : StepCall} :
    s.requireMutable call = .ok () ↔ s.frozen = false := by
  rw [requireMutable]
  split <;> simp [*]

theorem importOperand_lifetime (o : Operand) :
    (importOperand o).lifetime =
      if o.lifetime.isConstant = true ∨ o.lifetime = .noValue then o.lifetime else .temporary := by
  unfold importOperand
  by_cases h : o.lifetime.isConstant = true ∨ o.lifetime = .noValue
  · rw [if_pos h, if_pos (by simpa using h)]
  · rw [if_neg h, if_neg (by simpa using h)]

/-- Only what is given with the model does not wait for an operation of the step. -/
theorem importOperand_needsProducer (o : Operand) :
    (importOperand o).lifetime.needsProducer = true ↔
      ¬ (o.lifetime.isConstant = true ∨ o.lifetime = .noValue) := by
  rw [importOperand_lifetime]
  cases o.lifetime <;> decide

theorem importOperand_isConstant (o : Operand) :
    (importOperand o).lifetime.isConstant = o.lifetime.isConstant := by
  rw [importOperand_lifetime]
  cases o.lifetime <;> decide

/-- Values are copied along with the lifetimes that are kept. -/
theorem importOperand_value (o : Operand) :
    (importOperand o).value =
      if o.lifetime.isConstant = true ∨ o.lifetime = .noValue then o.value else none := by
  unfold importOperand
  by_cases h : o.lifetime.isConstant = true ∨ o.lifetime = .noValue
  · rw [if_pos h, if_pos (by simpa using h)]
  · rw [if_neg h, if_neg (by simpa using h)]

/-- Whatever value is copied is that of the original. -/
theorem value_of_importOperand {o : Operand} {bytes : Bytes}
    (h : (importOperand o).value = some bytes) : o.value = some bytes := by
  rw [importOperand_value] at h
  split at h
  · exact h
  · cases h

/-- The step with a further operand. -/
def withOperand (s : Step) (o : Nat) (source : Operand) (role : Role) : Step :=
  { s with
    model := s.model.addOperand (importOperand source)
    operands := s.operands ++ [o] }.note ⟨o, s.model.operands.length⟩ role source.lifetime

theorem addOperand_eq_ok {whole : Model} {s s' : Step} {o place : Nat} {role : Role} :
    s.addOperand whole o role = .ok (s', place) ↔
      s.frozen = false ∧
        (s.place? o = some place ∧ s' = s ∨
          s.place? o = none ∧ ∃ source, whole.operands[o]? = some source ∧
            place = s.model.operands.length ∧ s' = s.withOperand o source role) := by
  rw [addOperand, bind_eq_ok]
  constructor
  · rintro ⟨u, hmutable, h⟩
    refine ⟨requireMutable_eq_ok.1 hmutable, ?_⟩
    split at h
    · next known hknown =>
      obtain ⟨rfl, rfl⟩ := Prod.mk.inj (pure_eq_ok.1 h)
      exact Or.inl ⟨hknown, rfl⟩
    · next hnew =>
      obtain ⟨source, hsource, h⟩ := bind_eq_ok.1 h
      obtain ⟨rfl, rfl⟩ := Prod.mk.inj (pure_eq_ok.1 h)
      exact Or.inr ⟨hnew, source, operand_eq_ok.1 (mapError_eq_ok.1 hsource), rfl, rfl⟩
  · rintro ⟨hmutable, ⟨hknown, rfl⟩ | ⟨hnew, source, hsource, rfl, rfl⟩⟩
    · refine ⟨(), requireMutable_eq_ok.2 hmutable, ?_⟩
      rw [hknown]
      rfl
    · refine ⟨(), requireMutable_eq_ok.2 hmutable, ?_⟩
      rw [hnew]
      exact bind_eq_ok.2 ⟨source, mapError_eq_ok.2 (operand_eq_ok.2 hsource), rfl⟩

theorem requirePlace_eq_ok {s : Step} {i o place : Nat} :
    s.requirePlace i o = .ok place ↔ s.place? o = some place := by
  rw [requirePlace]
  split <;> simp [*]

theorem addOperation_eq_ok {whole : Model} {s s' : Step} {i : Nat} :
    s.addOperation whole i = .ok s' ↔
      s.frozen = false ∧ ∃ op inputs outputs model, whole.operations[i]? = some op ∧
        List.Forall₂ (fun o place => s.place? o = some place) op.inputs inputs ∧
        List.Forall₂ (fun o place => s.place? o = some place) op.outputs outputs ∧
        s.model.addOperation op.type inputs outputs = .ok model ∧
        s' = { s with model, operations := s.operations ++ [i] } := by
  have hoperation : ∀ op,
      whole.operation i = .ok op ↔ whole.operations[i]? = some op := fun op => by
    rw [operation]
    split <;> simp [*]
  simp only [addOperation, bind_eq_ok, pure_eq_ok, PlanError.ofModel, mapError_eq_ok, mapM_eq_ok,
    requirePlace_eq_ok, hoperation]
  constructor
  · rintro ⟨u, hmutable, op, hop, inputs, hinputs, outputs, houtputs, model, hmodel, rfl⟩
    exact ⟨requireMutable_eq_ok.1 hmutable, op, inputs, outputs, model, hop, hinputs, houtputs,
      hmodel, rfl⟩
  · rintro ⟨hmutable, op, inputs, outputs, model, hop, hinputs, houtputs, hmodel, rfl⟩
    exact ⟨(), requireMutable_eq_ok.2 hmutable, op, hop, inputs, hinputs, outputs, houtputs, model,
      hmodel, rfl⟩

/-! ## What a note changes -/

section Note

variable (s : Step) (link : Link) (role : Role) (lifetime : Lifetime)

@[simp] theorem note_frozen : (s.note link role lifetime).frozen = s.frozen := by
  unfold note
  split <;> rfl

@[simp] theorem note_model : (s.note link role lifetime).model = s.model := by
  unfold note
  split <;> rfl

@[simp] theorem note_operands : (s.note link role lifetime).operands = s.operands := by
  unfold note
  split <;> rfl

@[simp] theorem note_operations : (s.note link role lifetime).operations = s.operations := by
  unfold note
  split <;> rfl

theorem note_modelInputs :
    (s.note link role lifetime).modelInputs =
      if role = .input ∧ lifetime = .modelInput then s.modelInputs ++ [link]
      else s.modelInputs := by
  cases role <;> cases lifetime <;> rfl

theorem note_modelOutputs :
    (s.note link role lifetime).modelOutputs =
      if role = .output ∧ lifetime = .modelOutput then s.modelOutputs ++ [link]
      else s.modelOutputs := by
  cases role <;> cases lifetime <;> rfl

theorem note_crossInputs :
    (s.note link role lifetime).crossInputs =
      if role = .input ∧ lifetime.needsProducer = true then s.crossInputs ++ [link]
      else s.crossInputs := by
  cases role <;> cases lifetime <;> rfl

end Note

/-! ## The invariant -/

/-- Whether a link leads from an operand of the whole model, of a certain lifetime, to its place. -/
def Links (whole : Model) (operands : List Nat) (kind : Lifetime → Prop) (link : Link) : Prop :=
  operands[link.place]? = some link.operand ∧
    ∃ source, whole.operands[link.operand]? = some source ∧ kind source.lifetime

/-- Whether an operation of a step's model is one of the whole model under the new positions. -/
def Translated (whole : Model) (operands : List Nat) (i : Nat) (op : Operation) : Prop :=
  ∃ source, whole.operations[i]? = some source ∧ op.type = source.type ∧
    List.Forall₂ (fun o place => operands[place]? = some o) source.inputs op.inputs ∧
    List.Forall₂ (fun o place => operands[place]? = some o) source.outputs op.outputs

/-- What holds of a step that calls have filled. -/
structure Filled (whole : Model) (s : Step) : Prop where
  unfrozen : s.frozen = false
  built : Built s.model
  nodup : s.operands.Nodup
  length_eq : s.model.operands.length = s.operands.length
  /-- Each place holds a copy of its operand, with the reads inside the step counted. -/
  copied : ∀ place o, s.operands[place]? = some o → ∃ source, whole.operands[o]? = some source ∧
    s.model.operands[place]? =
      some { importOperand source with consumers := s.model.readCount place }
  translated : List.Forall₂ (Translated whole s.operands) s.operations s.model.operations
  modelInputs : ∀ link ∈ s.modelInputs, Links whole s.operands (· = .modelInput) link
  modelOutputs : ∀ link ∈ s.modelOutputs, Links whole s.operands (· = .modelOutput) link
  crossInputs : ∀ link ∈ s.crossInputs, Links whole s.operands (·.needsProducer = true) link
  /-- An output of the whole model is handed on or comes from elsewhere. -/
  returned : ∀ o ∈ s.operands, ∀ source, whole.operands[o]? = some source →
    source.lifetime = .modelOutput →
    o ∈ s.modelOutputs.map (·.operand) ∨ o ∈ s.crossInputs.map (·.operand)

theorem Links.append {whole : Model} {operands more : List Nat} {kind : Lifetime → Prop}
    {link : Link} (h : Links whole operands kind link) :
    Links whole (operands ++ more) kind link :=
  ⟨(List.getElem?_append_left (List.getElem?_eq_some_iff.1 h.1).1).trans h.1, h.2⟩

/-- One link more of the right kind, or none. -/
theorem forall_links_append {whole : Model} {operands more : List Nat} {kind : Lifetime → Prop}
    {links : List Link} {link : Link} {noted : Prop} [Decidable noted]
    (h : ∀ link ∈ links, Links whole operands kind link)
    (hlink : noted → Links whole (operands ++ more) kind link) :
    ∀ l ∈ (if noted then links ++ [link] else links), Links whole (operands ++ more) kind l := by
  intro l hl
  split at hl
  · next hnoted =>
    rcases List.mem_append.1 hl with hl | hl
    · exact (h l hl).append
    · exact List.mem_singleton.1 hl ▸ hlink hnoted
  · exact (h l hl).append

theorem Translated.append {whole : Model} {operands more : List Nat} {i : Nat} {op : Operation}
    (h : Translated whole operands i op) : Translated whole (operands ++ more) i op := by
  have hplace : ∀ o place : Nat, operands[place]? = some o →
      (operands ++ more)[place]? = some o := fun o place ho =>
    (List.getElem?_append_left (List.getElem?_eq_some_iff.1 ho).1).trans ho
  obtain ⟨source, hsource, htype, hinputs, houtputs⟩ := h
  exact ⟨source, hsource, htype, hinputs.imp hplace, houtputs.imp hplace⟩

/-- The place of an operand is where it stands among the operands. -/
theorem getElem?_of_place? {s : Step} {o place : Nat} (h : s.place? o = some place) :
    s.operands[place]? = some o := by
  obtain ⟨hlt, ho, -⟩ := List.idxOf?_eq_some_iff.1 h
  rw [List.getElem?_eq_getElem hlt, ho]

theorem Filled.place?_eq_some_iff {whole : Model} {s : Step} (h : Filled whole s) {o place : Nat} :
    s.place? o = some place ↔ s.operands[place]? = some o := by
  refine ⟨getElem?_of_place?, fun ho => ?_⟩
  obtain ⟨hlt, rfl⟩ := List.getElem?_eq_some_iff.1 ho
  refine List.idxOf?_eq_some_iff.2 ⟨hlt, rfl, fun j hj heq => ?_⟩
  exact absurd ((List.Nodup.getElem_inj_iff h.nodup).1 heq) (Nat.ne_of_lt hj)

theorem filled_new (whole : Model) (device : Device) : Filled whole { device } where
  unfrozen := rfl
  built := ⟨[], rfl⟩
  nodup := List.nodup_nil
  length_eq := rfl
  copied := by simp
  translated := .nil
  modelInputs := by simp
  modelOutputs := by simp
  crossInputs := by simp
  returned := by simp

section WithOperand

variable {whole : Model} {s : Step} {o : Nat} {source : Operand}

/-- The place of a new operand holds a copy of it, and the other places what they held. -/
theorem Filled.copied_concat (h : Filled whole s) (hsource : whole.operands[o]? = some source)
    {place o' : Nat} (ho' : (s.operands ++ [o])[place]? = some o') :
    ∃ original, whole.operands[o']? = some original ∧
      (s.model.addOperand (importOperand source)).operands[place]? =
        some { importOperand original with consumers := s.model.readCount place } := by
  by_cases hlt : place < s.operands.length
  · rw [List.getElem?_append_left hlt] at ho'
    obtain ⟨original, horiginal, hcopy⟩ := h.copied place o' ho'
    refine ⟨original, horiginal, ?_⟩
    rw [Model.addOperand, List.getElem?_append_left (hlt.trans_eq h.length_eq.symm), hcopy]
  · have hplace : place = s.operands.length := by
      have hle := (List.getElem?_eq_some_iff.1 ho').1
      rw [List.length_append, List.length_singleton] at hle
      omega
    subst hplace
    rw [List.getElem?_concat_length] at ho'
    obtain rfl := Option.some.inj ho'
    refine ⟨source, hsource, ?_⟩
    have hcount := h.built.sound.readCount_eq_zero (Nat.le_refl _)
    rw [h.length_eq] at hcount
    rw [Model.addOperand, ← h.length_eq, List.getElem?_concat_length, h.length_eq, hcount]
    unfold importOperand
    split <;> rfl

/-- A new output of the whole model is handed on or comes from elsewhere, by its role. -/
theorem Filled.returned_withOperand (h : Filled whole s)
    (hsource : whole.operands[o]? = some source) (role : Role) {o' : Nat}
    (ho' : o' ∈ s.operands ++ [o]) {original : Operand}
    (horiginal : whole.operands[o']? = some original)
    (hlifetime : original.lifetime = .modelOutput) :
    o' ∈ (s.withOperand o source role).modelOutputs.map (·.operand) ∨
      o' ∈ (s.withOperand o source role).crossInputs.map (·.operand) := by
  rw [Step.withOperand, note_modelOutputs, note_crossInputs]
  rcases List.mem_append.1 ho' with ho' | ho'
  · rcases h.returned o' ho' original horiginal hlifetime with hmem | hmem
    · left
      split
      · rw [List.map_append]
        exact List.mem_append_left _ hmem
      · exact hmem
    · right
      split
      · rw [List.map_append]
        exact List.mem_append_left _ hmem
      · exact hmem
  · obtain rfl := List.mem_singleton.1 ho'
    obtain rfl := Option.some.inj (hsource.symm.trans horiginal)
    cases role with
    | input => right; simp [hlifetime, Lifetime.needsProducer]
    | output => left; simp [hlifetime]

theorem Filled.withOperand (h : Filled whole s) (hsource : whole.operands[o]? = some source)
    (hnew : o ∉ s.operands) (role : Role) : Filled whole (s.withOperand o source role) := by
  have hoperands : (s.withOperand o source role).operands = s.operands ++ [o] := by
    simp [Step.withOperand]
  have hmodel : (s.withOperand o source role).model =
      s.model.addOperand (importOperand source) := by simp [Step.withOperand]
  have hlink : ∀ kind : Lifetime → Prop, kind source.lifetime →
      Links whole (s.operands ++ [o]) kind ⟨o, s.model.operands.length⟩ := fun kind hkind => by
    refine ⟨?_, source, hsource, hkind⟩
    show (s.operands ++ [o])[s.model.operands.length]? = some o
    rw [h.length_eq, List.getElem?_concat_length]
  refine ⟨?_, ?_, ?_, ?_, ?_, ?_, ?_, ?_, ?_, ?_⟩
  · simpa [Step.withOperand] using h.unfrozen
  · rw [hmodel]
    exact h.built.perform (.addOperand (importOperand source))
  · rw [hoperands, ← List.concat_eq_append]
    exact List.Nodup.concat hnew h.nodup
  · rw [hoperands, hmodel]
    simp [Model.addOperand, h.length_eq]
  · intro place o' ho'
    rw [hoperands] at ho'
    rw [hmodel]
    exact h.copied_concat hsource ho'
  · rw [hoperands, hmodel]
    simpa [Step.withOperand, Model.addOperand] using h.translated.imp fun _ _ => Translated.append
  · rw [hoperands, Step.withOperand, note_modelInputs]
    exact forall_links_append h.modelInputs fun hkind => hlink _ hkind.2
  · rw [hoperands, Step.withOperand, note_modelOutputs]
    exact forall_links_append h.modelOutputs fun hkind => hlink _ hkind.2
  · rw [hoperands, Step.withOperand, note_crossInputs]
    exact forall_links_append h.crossInputs fun hkind => hlink _ hkind.2
  · intro o' ho' original horiginal hlifetime
    rw [hoperands] at ho'
    exact h.returned_withOperand hsource role ho' horiginal hlifetime

end WithOperand

theorem Filled.addOperation {whole : Model} {s s' : Step} (h : Filled whole s) {i : Nat}
    (hadd : s.addOperation whole i = .ok s') : Filled whole s' := by
  obtain ⟨-, op, inputs, outputs, model, hop, hinputs, houtputs, hmodel, rfl⟩ :=
    addOperation_eq_ok.1 hadd
  have hbuilt : Built model := by
    have := h.built.perform (.addOperation op.type inputs outputs)
    rwa [Model.perform, hmodel] at this
  obtain ⟨-, -, rfl⟩ := Model.addOperation_eq_ok.1 hmodel
  refine ⟨h.unfrozen, hbuilt, h.nodup, ?_, ?_, ?_, h.modelInputs, h.modelOutputs, h.crossInputs,
    h.returned⟩
  · show (s.model.countReads inputs).operands.length = s.operands.length
    rw [countReads, List.length_mapIdx]
    exact h.length_eq
  · intro place o ho
    obtain ⟨source, hsource, hcopy⟩ := h.copied place o ho
    refine ⟨source, hsource, ?_⟩
    have hcount : readCount { s.model.countReads inputs with
        operations := s.model.operations ++ [⟨op.type, inputs, outputs⟩] } place =
        s.model.readCount place + inputs.count place := by
      rw [readCount, List.flatMap_append, List.count_append, List.flatMap_singleton]
      rfl
    rw [hcount]
    show (s.model.countReads inputs).operands[place]? = _
    rw [countReads, List.getElem?_mapIdx, hcopy]
    rfl
  · refine List.rel_append h.translated (List.forall₂_cons.2 ⟨?_, .nil⟩)
    exact ⟨op, hop, rfl, hinputs.imp fun _ _ => getElem?_of_place?,
      houtputs.imp fun _ _ => getElem?_of_place?⟩

theorem Filled.perform {whole : Model} {s : Step} (h : Filled whole s) (call : Call) :
    Filled whole (s.perform whole call) := by
  cases call with
  | addOperand o role =>
    rw [Step.perform]
    split
    · next s' place hadd =>
      obtain ⟨-, ⟨-, rfl⟩ | ⟨hnew, source, hsource, -, rfl⟩⟩ := addOperand_eq_ok.1 hadd
      · exact h
      · exact h.withOperand hsource (List.idxOf?_eq_none_iff.1 hnew) role
    · exact h
  | addOperation i =>
    rw [Step.perform]
    split
    · next s' hadd => exact h.addOperation hadd
    · exact h

/-- Every step that calls have filled keeps the invariant. -/
theorem FilledFrom.filled {whole : Model} {s : Step} (h : FilledFrom whole s) :
    Filled whole s := by
  obtain ⟨device, calls, rfl⟩ := h
  have hall : ∀ s, Filled whole s → Filled whole (List.foldl (Step.perform whole) s calls) := by
    induction calls with
    | nil => exact fun s hs => hs
    | cons call rest ih => exact fun s hs => ih _ (hs.perform call)
  exact hall _ (filled_new whole device)

/-- Numbering a step in its plan keeps the invariant. -/
theorem Filled.withIndex {whole : Model} {s : Step} (h : Filled whole s) (index : Nat) :
    Filled whole { s with index } :=
  ⟨h.unfrozen, h.built, h.nodup, h.length_eq, h.copied, h.translated, h.modelInputs,
    h.modelOutputs, h.crossInputs, h.returned⟩

/-! ## Reads and writes under the new positions -/

/-- The operands that the operations of a step read. -/
def consumed (whole : Model) (s : Step) : List Nat :=
  s.operations.flatMap fun i => (whole.operations[i]?.map (·.inputs)).getD []

theorem mem_consumed {whole : Model} {s : Step} {o : Nat} :
    o ∈ s.consumed whole ↔
      ∃ i ∈ s.operations, ∃ op, whole.operations[i]? = some op ∧ o ∈ op.inputs := by
  refine List.mem_flatMap.trans (exists_congr fun i => and_congr_right fun _ => ?_)
  cases whole.operations[i]? <;> simp

theorem mem_computed {whole : Model} {s : Step} {o : Nat} :
    o ∈ Plan.computed whole s ↔
      ∃ i ∈ s.operations, ∃ op, whole.operations[i]? = some op ∧ o ∈ op.outputs := by
  refine List.mem_flatMap.trans (exists_congr fun i => and_congr_right fun _ => ?_)
  cases whole.operations[i]? <;> simp

/-- Positions and places of a step determine each other. -/
theorem Filled.biUnique {whole : Model} {s : Step} (h : Filled whole s) :
    Relator.BiUnique fun o place : Nat => s.operands[place]? = some o := by
  refine ⟨fun o place o' ho ho' => Option.some.inj (ho.symm.trans ho'), ?_⟩
  intro o place place' ho ho'
  exact Option.some.inj ((h.place?_eq_some_iff.2 ho).symm.trans (h.place?_eq_some_iff.2 ho'))

theorem Filled.forall₂_consumed {whole : Model} {s : Step} (h : Filled whole s) :
    List.Forall₂ (fun o place => s.operands[place]? = some o) (s.consumed whole)
      (s.model.operations.flatMap (·.inputs)) := by
  refine List.rel_flatMap h.translated fun i op hop => ?_
  obtain ⟨source, hsource, -, hinputs, -⟩ := hop
  rw [hsource]
  exact hinputs

theorem Filled.forall₂_computed {whole : Model} {s : Step} (h : Filled whole s) :
    List.Forall₂ (fun o place => s.operands[place]? = some o) (Plan.computed whole s)
      s.model.written := by
  refine List.rel_flatMap h.translated fun i op hop => ?_
  obtain ⟨source, hsource, -, -, houtputs⟩ := hop
  rw [hsource]
  exact houtputs

theorem Filled.mem_written_iff {whole : Model} {s : Step} (h : Filled whole s) {o place : Nat}
    (ho : s.operands[place]? = some o) : place ∈ s.model.written ↔ o ∈ Plan.computed whole s :=
  (List.rel_mem h.biUnique ho h.forall₂_computed).symm

/-- What a step reads inside is counted. -/
theorem Filled.readCount_pos_iff {whole : Model} {s : Step} (h : Filled whole s) {o place : Nat}
    (ho : s.operands[place]? = some o) : 0 < s.model.readCount place ↔ o ∈ s.consumed whole :=
  List.count_pos_iff.trans (List.rel_mem h.biUnique ho h.forall₂_consumed).symm

/-- A step knows what its operations touch. -/
theorem Filled.known_of_consumed {whole : Model} {s : Step} (h : Filled whole s) {o : Nat}
    (ho : o ∈ s.consumed whole) : ∃ place : Nat, s.operands[place]? = some o := by
  obtain ⟨place, -, hplace⟩ := counterpart_mem h.forall₂_consumed ho
  exact ⟨place, hplace⟩

/-! ## Finishing -/

/-- The step as it is finished, with what other steps read of it. -/
def finished (s : Step) (crossOutputs : List Link) (relaxed : Bool) : Step :=
  { s with
    crossOutputs
    model := (s.model.identified ((s.modelInputs ++ s.crossInputs).map (·.place))
      ((s.modelOutputs ++ crossOutputs).map (·.place))).setRelaxed relaxed
    frozen := true }

/-- A step whose links lead to places that exist is finished unless its model is not well formed. -/
theorem finish_eq {s : Step} {crossOutputs : List Link} {relaxed : Bool}
    (hmutable : s.frozen = false)
    (hinputs : ∀ link ∈ s.modelInputs ++ s.crossInputs, link.place < s.model.operands.length)
    (houtputs : ∀ link ∈ s.modelOutputs ++ crossOutputs,
      link.place < s.model.operands.length) :
    s.finish crossOutputs relaxed =
      match (s.finished crossOutputs relaxed).model.validate with
      | .error e =>
        ({ s.finished crossOutputs relaxed with frozen := s.frozen }, .error (.invalidModel e))
      | .ok () => (s.finished crossOutputs relaxed, .ok ()) := by
  have hidentify := identify_eq_ok.2
    ⟨List.forall_mem_map.2 hinputs, List.forall_mem_map.2 houtputs, rfl⟩
  rw [finish, requireMutable_eq_ok.2 hmutable]
  simp only [inputs, outputs, hidentify]
  rfl

theorem finish_eq_ok {s s' : Step} {crossOutputs : List Link} {relaxed : Bool} :
    s.finish crossOutputs relaxed = (s', .ok ()) ↔
      s.frozen = false ∧
        (∀ link ∈ s.modelInputs ++ s.crossInputs, link.place < s.model.operands.length) ∧
        (∀ link ∈ s.modelOutputs ++ crossOutputs, link.place < s.model.operands.length) ∧
        s' = s.finished crossOutputs relaxed ∧ Valid s'.model := by
  constructor
  · intro h
    have hmutable : s.frozen = false := by
      rw [finish] at h
      split at h
      · cases h
      · next hmutable => exact requireMutable_eq_ok.1 hmutable
    have hplaces : (∀ link ∈ s.modelInputs ++ s.crossInputs, link.place < s.model.operands.length) ∧
        ∀ link ∈ s.modelOutputs ++ crossOutputs, link.place < s.model.operands.length := by
      rw [finish, requireMutable_eq_ok.2 hmutable] at h
      dsimp only at h
      split at h
      · cases h
      · next hidentify =>
        obtain ⟨hinputs, houtputs, -⟩ := identify_eq_ok.1 hidentify
        exact ⟨List.forall_mem_map.1 hinputs, List.forall_mem_map.1 houtputs⟩
    refine ⟨hmutable, hplaces.1, hplaces.2, ?_⟩
    rw [finish_eq hmutable hplaces.1 hplaces.2] at h
    split at h
    · cases h
    · next hvalid =>
      obtain rfl := (Prod.mk.inj h).1
      exact ⟨rfl, validate_eq_ok_iff.1 hvalid⟩
  · rintro ⟨hmutable, hinputs, houtputs, rfl, hvalid⟩
    rw [finish_eq hmutable hinputs houtputs, validate_eq_ok_iff.2 hvalid]

/-! ## The model of a finished step -/

section Finished

variable {whole : Model} {s : Step} {crossOutputs : List Link} {relaxed : Bool}

theorem Filled.length_finished (h : Filled whole s) :
    (s.finished crossOutputs relaxed).model.operands.length = s.operands.length := by
  rw [← h.length_eq]
  show ((s.model.relabel _ _).relabel _ _).operands.length = _
  rw [length_operands_relabel, length_operands_relabel]

/-- What becomes of a copied operand when the inputs and outputs of the step are named. -/
theorem Filled.finished_operand (h : Filled whole s) {place o : Nat}
    (ho : s.operands[place]? = some o) :
    ∃ source, whole.operands[o]? = some source ∧
      (s.finished crossOutputs relaxed).model.operands[place]? = some
        { importOperand source with
          consumers := s.model.readCount place
          lifetime :=
            if place ∈ (s.modelOutputs ++ crossOutputs).map (·.place) then .modelOutput
            else if place ∈ (s.modelInputs ++ s.crossInputs).map (·.place) then .modelInput
            else (importOperand source).lifetime } := by
  obtain ⟨source, hsource, hcopy⟩ := h.copied place o ho
  refine ⟨source, hsource, ?_⟩
  show ((s.model.relabel _ _).relabel _ _).operands[place]? = _
  rw [relabel, List.getElem?_mapIdx, relabel, List.getElem?_mapIdx, hcopy, Option.map_some,
    Option.map_some]
  split <;> split <;> simp_all

end Finished
end NeuralDispatch.Step

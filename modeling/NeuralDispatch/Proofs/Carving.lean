import NeuralDispatch.Plan.Partition
import NeuralDispatch.Proofs.Steps

/-!
# Steps that are carved out of a model

The partitioner fills a step with the operations of one group, each with its operands, in an order
in which none depends on a later one.

* `Extends` — what a step knows and notes after operands have been added in one role.
* `addWithOperands_ok` — an operation is added with its operands, and what the step takes from
  others is never its own.
* `ofOperations_ok` — a group makes a step.
-/

namespace NeuralDispatch.Step

open Answer Model

/-! ## Adding operands -/

/-- Whether an operand exists and has a certain lifetime. -/
def LifetimeIs (whole : Model) (kind : Lifetime → Prop) (o : Nat) : Prop :=
  ∃ source, whole.operands[o]? = some source ∧ kind source.lifetime

/-- Whether links are noted of those added operands that were new and are of a certain lifetime,
if they have been added in a certain role. -/
def Notes (whole : Model) (inRole : Prop) (kind : Lifetime → Prop) (added known : List Nat)
    (old new : List Link) : Prop :=
  ∀ o, o ∈ new.map (·.operand) ↔ o ∈ old.map (·.operand) ∨
    inRole ∧ o ∈ added ∧ o ∉ known ∧ LifetimeIs whole kind o

/-- A step after operands have been added in one role. -/
structure Extends (whole : Model) (role : Role) (added : List Nat) (s s' : Step) : Prop where
  filled : Filled whole s'
  device : s'.device = s.device
  operations : s'.operations = s.operations
  operands : ∀ o, o ∈ s'.operands ↔ o ∈ s.operands ∨ o ∈ added
  modelInputs : Notes whole (role = .input) (· = .modelInput) added s.operands
    s.modelInputs s'.modelInputs
  modelOutputs : Notes whole (role = .output) (· = .modelOutput) added s.operands
    s.modelOutputs s'.modelOutputs
  crossInputs : Notes whole (role = .input) (·.needsProducer = true) added s.operands
    s.crossInputs s'.crossInputs

section Notes

variable {whole : Model} {inRole : Prop} {kind : Lifetime → Prop}

/-- Nothing is noted of operands that are known. -/
theorem Notes.known {added known : List Nat} {links : List Link} (h : ∀ o ∈ added, o ∈ known) :
    Notes whole inRole kind added known links links := by
  intro o
  refine ⟨Or.inl, fun h' => h'.resolve_right ?_⟩
  rintro ⟨-, hadded, hnew, -⟩
  exact hnew (h o hadded)

/-- One new operand. -/
theorem Notes.single {o place : Nat} {source : Operand} {known : List Nat} {links : List Link}
    (hsource : whole.operands[o]? = some source) (hnew : o ∉ known)
    [Decidable (inRole ∧ kind source.lifetime)] :
    Notes whole inRole kind [o] known links
      (if inRole ∧ kind source.lifetime then links ++ [⟨o, place⟩] else links) := by
  have hlifetime : LifetimeIs whole kind o ↔ kind source.lifetime := by
    constructor
    · rintro ⟨source', hsource', hkind⟩
      obtain rfl := Option.some.inj (hsource.symm.trans hsource')
      exact hkind
    · exact fun hkind => ⟨source, hsource, hkind⟩
  intro o'
  split
  · next hnoted =>
    rw [List.map_append, List.mem_append, List.map_singleton, List.mem_singleton]
    refine or_congr_right ⟨?_, fun h => h.2.1⟩
    rintro rfl
    exact ⟨hnoted.1, rfl, hnew, hlifetime.2 hnoted.2⟩
  · next hsilent =>
    refine ⟨Or.inl, fun h => h.resolve_right ?_⟩
    rintro ⟨hrole, hmem, -, hkind⟩
    obtain rfl := List.mem_singleton.1 hmem
    exact hsilent ⟨hrole, hlifetime.1 hkind⟩

theorem Notes.trans {a b known known' : List Nat} {old mid new : List Link}
    (h₁ : Notes whole inRole kind a known old mid) (h₂ : Notes whole inRole kind b known' mid new)
    (hknown : ∀ o, o ∈ known' ↔ o ∈ known ∨ o ∈ a) :
    Notes whole inRole kind (a ++ b) known old new := by
  intro o
  rw [h₂, h₁, hknown, List.mem_append]
  tauto

end Notes

theorem Extends.refl {whole : Model} {s : Step} (h : Filled whole s) (role : Role) :
    Extends whole role [] s s where
  filled := h
  device := rfl
  operations := rfl
  operands := by simp
  modelInputs := .known (by simp)
  modelOutputs := .known (by simp)
  crossInputs := .known (by simp)

theorem Extends.trans {whole : Model} {role : Role} {a b : List Nat} {s t u : Step}
    (h₁ : Extends whole role a s t) (h₂ : Extends whole role b t u) :
    Extends whole role (a ++ b) s u where
  filled := h₂.filled
  device := h₂.device.trans h₁.device
  operations := h₂.operations.trans h₁.operations
  operands := fun o => by rw [h₂.operands, h₁.operands, List.mem_append, or_assoc]
  modelInputs := h₁.modelInputs.trans h₂.modelInputs h₁.operands
  modelOutputs := h₁.modelOutputs.trans h₂.modelOutputs h₁.operands
  crossInputs := h₁.crossInputs.trans h₂.crossInputs h₁.operands

/-- One operand that exists can be added. -/
theorem addOperand_ok {whole : Model} {s : Step} (h : Filled whole s) {o : Nat}
    (ho : o < whole.operands.length) (role : Role) :
    ∃ s' place, s.addOperand whole o role = .ok (s', place) ∧ Extends whole role [o] s s' := by
  cases hplace : s.place? o with
  | some place =>
    have hknown := List.mem_of_getElem? (getElem?_of_place? hplace)
    refine ⟨s, place, addOperand_eq_ok.2 ⟨h.unfrozen, Or.inl ⟨hplace, rfl⟩⟩, h, rfl, rfl,
      fun o' => ⟨Or.inl, ?_⟩, .known ?_, .known ?_, .known ?_⟩
    · rintro (h' | h')
      · exact h'
      · exact List.mem_singleton.1 h' ▸ hknown
    all_goals
      intro o' ho'
      exact List.mem_singleton.1 ho' ▸ hknown
  | none =>
    obtain ⟨source, hsource⟩ := exists_operand ho
    have hnew : o ∉ s.operands := List.idxOf?_eq_none_iff.1 hplace
    refine ⟨s.withOperand o source role, s.model.operands.length,
      addOperand_eq_ok.2 ⟨h.unfrozen, Or.inr ⟨hplace, source, hsource, rfl, rfl⟩⟩,
      h.withOperand hsource hnew role, ?_, ?_, ?_, ?_, ?_, ?_⟩
    · unfold withOperand note
      split <;> rfl
    · simp [withOperand]
    · simp [withOperand]
    · rw [withOperand, note_modelInputs]
      exact Notes.single hsource hnew
    · rw [withOperand, note_modelOutputs]
      exact Notes.single hsource hnew
    · rw [withOperand, note_crossInputs]
      exact Notes.single hsource hnew

theorem addOperands_ok {whole : Model} {os : List Nat} {s : Step} (h : Filled whole s)
    (role : Role) (hexist : ∀ o ∈ os, o < whole.operands.length) :
    ∃ s', addOperands whole role os s = .ok s' ∧ Extends whole role os s s' := by
  induction os generalizing s with
  | nil => exact ⟨s, rfl, .refl h role⟩
  | cons o rest ih =>
    obtain ⟨ho, hrest⟩ := List.forall_mem_cons.1 hexist
    obtain ⟨t, place, hadd, hone⟩ := addOperand_ok h ho role
    obtain ⟨u, hadds, hmore⟩ := ih hone.filled hrest
    exact ⟨u, by rw [addOperands, hadd, ok_bind]; exact hadds, hone.trans hmore⟩

/-! ## Adding operations -/

/-- What a step knows has places. -/
theorem exists_places {s : Step} {os : List Nat} (hknown : ∀ o ∈ os, o ∈ s.operands) :
    ∃ places, List.Forall₂ (fun o place => s.place? o = some place) os places := by
  obtain ⟨places, hmap⟩ := mapM_ok_of_forall (f := s.requirePlace 0) fun o ho => by
    obtain ⟨place, hplace⟩ := Option.isSome_iff_exists.1 (List.isSome_idxOf?.2 (hknown o ho))
    exact ⟨place, requirePlace_eq_ok.2 hplace⟩
  exact ⟨places, (mapM_eq_ok.1 hmap).imp fun _ _ => requirePlace_eq_ok.1⟩

/-- The places are those of the step's model. -/
theorem Filled.places_lt {whole : Model} {s : Step} (h : Filled whole s) {os places : List Nat}
    (hplaces : List.Forall₂ (fun o place => s.place? o = some place) os places) :
    ∀ place ∈ places, place < s.model.operands.length := by
  intro place hmem
  obtain ⟨o, -, hplace⟩ := counterpart_mem hplaces.flip hmem
  rw [h.length_eq]
  exact (List.getElem?_eq_some_iff.1 (getElem?_of_place? hplace)).1

/-- An operation that computes something and whose operands the step knows can be added. -/
theorem addOperation_ok {whole : Model} {s : Step} (h : Filled whole s) {i : Nat} {op : Operation}
    (hop : whole.operations[i]? = some op) (hne : op.outputs ≠ [])
    (hknown : ∀ o ∈ op.inputs ++ op.outputs, o ∈ s.operands) :
    ∃ model, s.addOperation whole i =
      .ok { s with model, operations := s.operations ++ [i] } := by
  obtain ⟨inputs, hinputs⟩ := exists_places fun o ho => hknown o (List.mem_append_left _ ho)
  obtain ⟨outputs, houtputs⟩ := exists_places fun o ho => hknown o (List.mem_append_right _ ho)
  have hlt := h.places_lt (List.rel_append hinputs houtputs)
  have hplaced : outputs ≠ [] := by
    rintro rfl
    exact hne (List.forall₂_nil_right_iff.1 houtputs)
  obtain ⟨model, hmodel⟩ : ∃ model, s.model.addOperation op.type inputs outputs = .ok model :=
    ⟨_, Model.addOperation_eq_ok.2 ⟨hlt, hplaced, rfl⟩⟩
  exact ⟨model, addOperation_eq_ok.2
    ⟨h.unfrozen, op, inputs, outputs, model, hop, hinputs, houtputs, hmodel, rfl⟩⟩

/-! ## Steps that take from others what is not their own -/

/-- A step whose operations have been added with their operands, none before one it depends on. -/
structure Carved (whole : Model) (s : Step) : Prop where
  filled : Filled whole s
  /-- What the step takes from others it reads, and does not compute. -/
  foreign : ∀ o ∈ s.crossInputs.map (·.operand),
    o ∈ s.consumed whole ∧ o ∉ Plan.computed whole s
  /-- What the step returns it computes. -/
  own : ∀ o ∈ s.modelOutputs.map (·.operand), o ∈ Plan.computed whole s
  /-- Whatever the step knows is given with the model, passed in or computed. -/
  accounted : ∀ o ∈ s.operands,
    LifetimeIs whole (fun l => l.isConstant = true ∨ l = .noValue) o ∨
      o ∈ s.modelInputs.map (·.operand) ∨ o ∈ s.crossInputs.map (·.operand) ∨
      o ∈ Plan.computed whole s

theorem carved_new (whole : Model) (device : Device) : Carved whole { device } where
  filled := filled_new whole device
  foreign := by simp
  own := by simp
  accounted := by simp

theorem Carved.withIndex {whole : Model} {s : Step} (h : Carved whole s) (index : Nat) :
    Carved whole { s with index } :=
  ⟨h.filled.withIndex index, h.foreign, h.own, h.accounted⟩

/-- A step knows what its operations compute. -/
theorem Filled.known_of_computed {whole : Model} {s : Step} (h : Filled whole s) {o : Nat}
    (ho : o ∈ Plan.computed whole s) : o ∈ s.operands := by
  obtain ⟨place, -, hplace⟩ := counterpart_mem h.forall₂_computed ho
  exact List.mem_of_getElem? hplace

section OneMore

variable {whole : Model} {s : Step} {i : Nat} {op : Operation} {model : Model}

theorem computed_append (hop : whole.operations[i]? = some op) :
    Plan.computed whole { s with model, operations := s.operations ++ [i] } =
      Plan.computed whole s ++ op.outputs := by
  simp [Plan.computed, hop]

theorem consumed_append (hop : whole.operations[i]? = some op) :
    consumed whole { s with model, operations := s.operations ++ [i] } =
      s.consumed whole ++ op.inputs := by
  simp [consumed, hop]

/-- What an operation writes is not read before it is added, nor by the operation itself. -/
theorem not_written_of_consumed (single : whole.written.Nodup)
    (hop : whole.operations[i]? = some op)
    (hlater : ∀ r ∈ i :: s.operations, (i, r) ∉ whole.edges) {o : Nat}
    (hread : o ∈ s.consumed whole ∨ o ∈ op.inputs) : o ∉ op.outputs := by
  intro hwritten
  have hp := (producer?_eq_some_iff single).2 ⟨op, hop, hwritten⟩
  rcases hread with hread | hread
  · obtain ⟨r, hr, reader, hreader, ho⟩ := mem_consumed.1 hread
    exact hlater r (List.mem_cons_of_mem i hr) (mem_edges.2 ⟨reader, o, hreader, ho, hp⟩)
  · exact hlater i List.mem_cons_self (mem_edges.2 ⟨op, o, hop, hread, hp⟩)

variable {t u : Step}

/-- What a step takes from others once an operation has been added with its operands. -/
theorem mem_crossInputs_of_extends (ht : Extends whole .input op.inputs s t)
    (hu : Extends whole .output op.outputs t u) {o : Nat} :
    o ∈ u.crossInputs.map (·.operand) ↔ o ∈ s.crossInputs.map (·.operand) ∨
      o ∈ op.inputs ∧ o ∉ s.operands ∧ LifetimeIs whole (·.needsProducer = true) o := by
  rw [hu.crossInputs, ht.crossInputs]
  simp

theorem mem_modelInputs_of_extends (ht : Extends whole .input op.inputs s t)
    (hu : Extends whole .output op.outputs t u) {o : Nat} :
    o ∈ u.modelInputs.map (·.operand) ↔ o ∈ s.modelInputs.map (·.operand) ∨
      o ∈ op.inputs ∧ o ∉ s.operands ∧ LifetimeIs whole (· = .modelInput) o := by
  rw [hu.modelInputs, ht.modelInputs]
  simp

theorem mem_operands_of_extends (ht : Extends whole .input op.inputs s t)
    (hu : Extends whole .output op.outputs t u) {o : Nat} :
    o ∈ u.operands ↔ o ∈ s.operands ∨ o ∈ op.inputs ∨ o ∈ op.outputs := by
  rw [hu.operands, ht.operands, or_assoc]

/-- A new operand that an operation reads is given with the model or passed in. -/
theorem accounted_of_input (ht : Extends whole .input op.inputs s t)
    (hu : Extends whole .output op.outputs t u) {o : Nat} (ho : o < whole.operands.length)
    (hread : o ∈ op.inputs) (hnew : o ∉ s.operands) :
    LifetimeIs whole (fun l => l.isConstant = true ∨ l = .noValue) o ∨
      o ∈ u.modelInputs.map (·.operand) ∨ o ∈ u.crossInputs.map (·.operand) := by
  obtain ⟨source, hsource⟩ := exists_operand ho
  rw [mem_modelInputs_of_extends ht hu, mem_crossInputs_of_extends ht hu]
  cases hlifetime : source.lifetime with
  | modelInput => exact Or.inr (Or.inl (Or.inr ⟨hread, hnew, source, hsource, hlifetime⟩))
  | temporary | modelOutput =>
    exact Or.inr (Or.inr (Or.inr ⟨hread, hnew, source, hsource, by rw [hlifetime]; rfl⟩))
  | constantCopy | constantReference | noValue =>
    exact Or.inl ⟨source, hsource, by rw [hlifetime]; decide⟩

theorem Carved.extend (h : Carved whole s) (sound : Sound whole) (single : whole.written.Nodup)
    (hop : whole.operations[i]? = some op)
    (hlater : ∀ r ∈ i :: s.operations, (i, r) ∉ whole.edges)
    (ht : Extends whole .input op.inputs s t) (hu : Extends whole .output op.outputs t u)
    (hmodel : u.addOperation whole i = .ok { u with model, operations := u.operations ++ [i] }) :
    Carved whole { u with model, operations := u.operations ++ [i] } := by
  have hoperations : u.operations = s.operations := hu.operations.trans ht.operations
  have hcomputed : Plan.computed whole { u with model, operations := u.operations ++ [i] } =
      Plan.computed whole s ++ op.outputs := by
    rw [computed_append hop, Plan.computed, hoperations, Plan.computed]
  have hconsumed : consumed whole { u with model, operations := u.operations ++ [i] } =
      s.consumed whole ++ op.inputs := by
    rw [consumed_append hop, consumed, hoperations, consumed]
  refine ⟨hu.filled.addOperation hmodel, fun o ho => ?_, fun o ho => ?_, fun o ho => ?_⟩
  · rw [hcomputed, hconsumed, List.mem_append, List.mem_append]
    rcases (mem_crossInputs_of_extends ht hu).1 ho with ho | ⟨hread, hnew, -⟩
    · obtain ⟨hread, hnot⟩ := h.foreign o ho
      exact ⟨Or.inl hread, fun h' =>
        h'.elim hnot (not_written_of_consumed single hop hlater (Or.inl hread))⟩
    · exact ⟨Or.inr hread, fun h' => h'.elim (fun h' => hnew (h.filled.known_of_computed h'))
        (not_written_of_consumed single hop hlater (Or.inr hread))⟩
  · rw [hcomputed, List.mem_append]
    rcases (hu.modelOutputs o).1 ho with ho | ho
    · exact Or.inl (h.own o (((ht.modelOutputs o).1 ho).resolve_right (by simp)))
    · exact Or.inr ho.2.1
  · rw [hcomputed, List.mem_append]
    by_cases hold : o ∈ s.operands
    · rcases h.accounted o hold with hgiven | hmodel | hcross | hcomputed
      · exact Or.inl hgiven
      · exact Or.inr (Or.inl ((mem_modelInputs_of_extends ht hu).2 (Or.inl hmodel)))
      · exact Or.inr (Or.inr (Or.inl ((mem_crossInputs_of_extends ht hu).2 (Or.inl hcross))))
      · exact Or.inr (Or.inr (Or.inr (Or.inl hcomputed)))
    · rcases ((mem_operands_of_extends ht hu).1 ho).resolve_left hold with hread | hwritten
      · have hexist := sound.exist op (List.mem_of_getElem? hop) o (List.mem_append_left _ hread)
        rcases accounted_of_input ht hu hexist hread hold with hgiven | hmodel | hcross
        · exact Or.inl hgiven
        · exact Or.inr (Or.inl hmodel)
        · exact Or.inr (Or.inr (Or.inl hcross))
      · exact Or.inr (Or.inr (Or.inr (Or.inr hwritten)))

end OneMore

/-- An operation is added with its operands if nothing before it reads what it writes. -/
theorem addWithOperands_ok {whole : Model} (sound : Sound whole) (single : whole.written.Nodup)
    {s : Step} (h : Carved whole s) {i : Nat} (hi : i < whole.operations.length)
    (hlater : ∀ r ∈ i :: s.operations, (i, r) ∉ whole.edges) :
    ∃ s', addWithOperands whole s i = .ok s' ∧ Carved whole s' ∧
      s'.operations = s.operations ++ [i] ∧ s'.device = s.device := by
  obtain ⟨op, hop⟩ : ∃ op, whole.operations[i]? = some op := ⟨_, List.getElem?_eq_getElem hi⟩
  have hexist := sound.exist op (List.mem_of_getElem? hop)
  obtain ⟨t, hinputs, ht⟩ := addOperands_ok h.filled .input fun o ho =>
    hexist o (List.mem_append_left _ ho)
  obtain ⟨u, houtputs, hu⟩ := addOperands_ok ht.filled .output fun o ho =>
    hexist o (List.mem_append_right _ ho)
  obtain ⟨model, hmodel⟩ := addOperation_ok hu.filled hop
    (sound.computes op (List.mem_of_getElem? hop)) fun o ho =>
      (mem_operands_of_extends ht hu).2 (Or.inr (List.mem_append.1 ho))
  refine ⟨{ u with model, operations := u.operations ++ [i] }, ?_,
    h.extend sound single hop hlater ht hu hmodel, ?_, hu.device.trans ht.device⟩
  · rw [addWithOperands, operation, hop]
    dsimp only [PlanError.ofModel, Except.mapError, ok_bind]
    rw [hinputs, ok_bind, houtputs, ok_bind, hmodel]
  · show u.operations ++ [i] = s.operations ++ [i]
    rw [hu.operations.trans ht.operations]

theorem foldlM_addWithOperands {whole : Model} (sound : Sound whole)
    (single : whole.written.Nodup) {operations earlier : List Nat} {s : Step} (h : Carved whole s)
    (hlt : ∀ i ∈ operations, i < whole.operations.length)
    (hordered : Ordered whole.edges ((s.operations ++ operations).reverse ++ earlier)) :
    ∃ s', operations.foldlM (addWithOperands whole) s = .ok s' ∧ Carved whole s' ∧
      s'.operations = s.operations ++ operations ∧ s'.device = s.device := by
  induction operations generalizing s with
  | nil => exact ⟨s, rfl, h, (List.append_nil _).symm, rfl⟩
  | cons i rest ih =>
    obtain ⟨hi, hrest⟩ := List.forall_mem_cons.1 hlt
    have hsplit : (s.operations ++ i :: rest).reverse ++ earlier =
        rest.reverse ++ (i :: (s.operations.reverse ++ earlier)) := by simp
    obtain ⟨hnew, hready, hbefore⟩ := Ordered.of_append (hsplit ▸ hordered)
    have hlater : ∀ r ∈ i :: s.operations, (i, r) ∉ whole.edges := by
      intro r hr hedge
      rcases List.mem_cons.1 hr with rfl | hr
      · exact hnew (hready _ hedge rfl)
      · exact hnew (hbefore.closed hedge (List.mem_append_left _ (List.mem_reverse.2 hr)))
    obtain ⟨t, hadd, ht, hoperations, hdevice⟩ := addWithOperands_ok sound single h hi hlater
    obtain ⟨u, hfold, hu, hall, hsame⟩ := ih ht hrest (by
      rw [hoperations, List.append_assoc, List.singleton_append]
      exact hordered)
    refine ⟨u, ?_, hu, ?_, hsame.trans hdevice⟩
    · rw [List.foldlM_cons, hadd, ok_bind, hfold]
    · rw [hall, hoperations, List.append_assoc, List.singleton_append]

/-- A group of operations makes a step, if none of them comes before one it depends on. -/
theorem ofOperations_ok {whole : Model} (sound : Sound whole) (single : whole.written.Nodup)
    (device : Device) {operations earlier : List Nat}
    (hlt : ∀ i ∈ operations, i < whole.operations.length)
    (hordered : Ordered whole.edges (operations.reverse ++ earlier)) :
    ∃ s, ofOperations whole device operations = .ok s ∧ Carved whole s ∧
      s.operations = operations ∧ s.device = device := by
  obtain ⟨s, hfold, hs, hoperations, hdevice⟩ := foldlM_addWithOperands sound single
    (carved_new whole device) hlt hordered
  exact ⟨s, hfold, hs, hoperations, hdevice⟩

end NeuralDispatch.Step

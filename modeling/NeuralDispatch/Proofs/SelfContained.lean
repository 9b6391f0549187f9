import NeuralDispatch.Proofs.Attempts
import NeuralDispatch.Proofs.Payloads

/-!
# The models of finished steps

Each step of a finished plan has a model of its own, which can be handed to a driver without
anything else: it says what it takes and what it gives, and holds the constants it needs.  It also
holds the bytes of operands that the original leaves out but has bytes for.  This is so whatever the
original is like, in whatever order the steps have been filled, and whatever attempts to finish the
plan have failed before.

* `Operand.Bare`, `bare_performAll` — an operand that is left out has no bytes.
* `Step.Noted`, `FilledFrom.noted` — a step notes an operand once, as what it has been added first.
* `Filled.nodup_places` — no place of a step is passed in or out twice.
* `SelfContained` — what holds of the model of a finished step.
* `finish_selfContained` — it holds of every step of every plan that is finished.
* `finish_keeps_bytes` — bytes that a finished step has although it need not.
-/

namespace NeuralDispatch

/-! ## Operands that are left out -/

/-- Whether an operand has no bytes if it is left out. -/
def Operand.Bare (o : Operand) : Prop := o.lifetime = .noValue → o.value = none

namespace Model

theorem Handled.bare {m : Model} {call : Call} {i : Nat} {o o' : Operand}
    (h : Handled m call i o o') (ho : o.Bare) : o'.Bare := by
  intro habsent
  cases h with
  | kept _ _ hlifetime hvalue => exact hvalue.trans (ho (hlifetime.symm.trans habsent))
  | given _ hconstant _ =>
    rw [Operand.isConstant, habsent] at hconstant
    cases hconstant
  | taken _ _ hvalue => exact hvalue
  | marked _ hlifetime _ =>
    rw [habsent] at hlifetime
    rcases hlifetime with h | h <;> cases h

/-- An operand that is left out has no bytes, unless it has been added so. -/
theorem bare_performAll {calls : List Call} (added : ∀ o, .addOperand o ∈ calls → o.Bare) :
    ∀ o ∈ (performAll {} calls).operands, o.Bare := performAll_handled Handled.bare added

end Model

/-! ## What a step has noted -/

namespace Step

open Model

/-- Everything that a step has noted while it was filled. -/
def notes (s : Step) : List Link := s.modelInputs ++ s.modelOutputs ++ s.crossInputs

/-- Whether no operand is noted twice, and only operands that the step knows. -/
structure Noted (s : Step) : Prop where
  nodup : (s.notes.map (·.operand)).Nodup
  known : ∀ link ∈ s.notes, link.operand ∈ s.operands

/-- A note is one link more, or none. -/
theorem notes_note (s : Step) (link : Link) (role : Role) (lifetime : Lifetime) :
    (s.note link role lifetime).notes.Perm (link :: s.notes) ∨
      (s.note link role lifetime).notes = s.notes := by
  have hcross : (s.notes ++ [link]).Perm (link :: s.notes) := List.perm_append_singleton ..
  unfold note notes at *
  split
  · left
    simp
  · left
    simpa using @List.perm_middle _ link (s.modelInputs ++ s.modelOutputs) s.crossInputs
  · left
    simpa using hcross
  · left
    simpa using hcross
  · right
    rfl

theorem Noted.withOperand {s : Step} (h : Noted s) {o : Nat} (hnew : o ∉ s.operands)
    (source : Operand) (role : Role) : Noted (s.withOperand o source role) := by
  have hoperands : (s.withOperand o source role).operands = s.operands ++ [o] := by
    simp [Step.withOperand]
  have hknown : ∀ link ∈ s.notes, link.operand ∈ s.operands ++ [o] := fun link hlink =>
    List.mem_append_left _ (h.known link hlink)
  have hfresh : o ∉ s.notes.map (·.operand) := by
    intro ho
    obtain ⟨link, hlink, rfl⟩ := List.mem_map.1 ho
    exact hnew (h.known link hlink)
  rcases notes_note { s with
      model := s.model.addOperand (importOperand source)
      operands := s.operands ++ [o] } ⟨o, s.model.operands.length⟩ role source.lifetime with
    hmore | hsame
  · refine ⟨?_, fun link hlink => ?_⟩
    · exact (hmore.map (·.operand)).nodup_iff.2 (List.nodup_cons.2 ⟨hfresh, h.nodup⟩)
    · rw [hoperands]
      rcases List.mem_cons.1 (hmore.mem_iff.1 hlink) with rfl | hold
      · exact List.mem_append_right _ (List.mem_singleton_self o)
      · exact hknown link hold
  · refine ⟨?_, fun link hlink => ?_⟩
    · rw [Step.withOperand, hsame]
      exact h.nodup
    · rw [Step.withOperand, hsame] at hlink
      rw [hoperands]
      exact hknown link hlink

theorem Noted.perform {whole : Model} {s : Step} (h : Noted s) (call : Call) :
    Noted (s.perform whole call) := by
  cases call with
  | addOperand o role =>
    rw [Step.perform]
    split
    · next s' place hadd =>
      obtain ⟨-, ⟨-, rfl⟩ | ⟨hnew, source, -, -, rfl⟩⟩ := addOperand_eq_ok.1 hadd
      · exact h
      · exact h.withOperand (List.idxOf?_eq_none_iff.1 hnew) source role
    · exact h
  | addOperation i =>
    rw [Step.perform]
    split
    · next s' hadd =>
      obtain ⟨-, op, inputs, outputs, model, -, -, -, -, rfl⟩ := addOperation_eq_ok.1 hadd
      exact ⟨h.nodup, h.known⟩
    · exact h

/-- Every step that calls have filled has noted each operand at most once. -/
theorem FilledFrom.noted {whole : Model} {s : Step} (h : FilledFrom whole s) : Noted s := by
  obtain ⟨device, calls, rfl⟩ := h
  induction calls using List.reverseRecOn with
  | nil => exact ⟨List.nodup_nil, by simp [notes]⟩
  | append_singleton before call ih =>
    rw [List.foldl_append]
    exact ih.perform call

/-! ## What a finished step passes in and out -/

/-- Whether what a step hands on are temporaries of its own, each once. -/
structure Handed (whole : Model) (s : Step) (links : List Link) : Prop where
  nodup : (links.map (·.operand)).Nodup
  temporary : ∀ link ∈ links, Links whole s.operands (· = .temporary) link
  own : ∀ link ∈ links, link.operand ∉ s.crossInputs.map (·.operand)

section Boundary

variable {whole : Model} {s : Step} {links : List Link}

theorem Filled.known_of_notes (h : Filled whole s) {link : Link} (hlink : link ∈ s.notes) :
    s.operands[link.place]? = some link.operand := by
  rcases List.mem_append.1 hlink with hlink | hlink
  · rcases List.mem_append.1 hlink with hlink | hlink
    · exact (h.modelInputs link hlink).1
    · exact (h.modelOutputs link hlink).1
  · exact (h.crossInputs link hlink).1

/-- What a step hands on it has not noted before. -/
theorem Handed.fresh (hhanded : Handed whole s links) (h : Filled whole s) {link noted : Link}
    (hlink : link ∈ links) (hnoted : noted ∈ s.notes) : link.operand ≠ noted.operand := by
  intro heq
  obtain ⟨-, source, hsource, htemporary⟩ := hhanded.temporary link hlink
  have hother : ∀ lifetime : Lifetime, lifetime ≠ .temporary →
      ¬ Links whole s.operands (· = lifetime) noted := by
    rintro lifetime hlifetime ⟨-, source', hsource', rfl⟩
    rw [heq] at hsource
    obtain rfl := Option.some.inj (hsource.symm.trans hsource')
    exact hlifetime htemporary
  rcases List.mem_append.1 hnoted with hnoted | hnoted
  · rcases List.mem_append.1 hnoted with hnoted | hnoted
    · exact hother .modelInput (by decide) (h.modelInputs noted hnoted)
    · exact hother .modelOutput (by decide) (h.modelOutputs noted hnoted)
  · exact hhanded.own link hlink (heq ▸ List.mem_map_of_mem hnoted)

/-- No place of a step is passed in or out twice. -/
theorem Filled.nodup_places (h : Filled whole s) (hnoted : Noted s)
    (hhanded : Handed whole s links) :
    (((s.modelInputs ++ s.crossInputs) ++ (s.modelOutputs ++ links)).map (·.place)).Nodup := by
  have hperm : ((s.modelInputs ++ s.crossInputs) ++ (s.modelOutputs ++ links)).Perm
      (s.notes ++ links) := by
    rw [notes, ← List.append_assoc]
    refine List.Perm.append_right links ?_
    rw [List.append_assoc, List.append_assoc]
    exact List.Perm.append_left _ List.perm_append_comm
  have hknown : ∀ link ∈ s.notes ++ links, s.operands[link.place]? = some link.operand := by
    intro link hlink
    rcases List.mem_append.1 hlink with hlink | hlink
    · exact h.known_of_notes hlink
    · exact (hhanded.temporary link hlink).1
  have hoperands : ((s.notes ++ links).map (·.operand)).Nodup := by
    rw [List.map_append]
    refine List.Nodup.append hnoted.nodup hhanded.nodup ?_
    intro o ho ho'
    obtain ⟨noted, hmem, rfl⟩ := List.mem_map.1 ho
    obtain ⟨link, hlink, heq⟩ := List.mem_map.1 ho'
    exact hhanded.fresh h hlink hmem heq
  -- a place determines its operand, so what differs by operand differs by place
  have hsome : ((s.notes ++ links).map (·.place)).map (s.operands[·]?) =
      ((s.notes ++ links).map (·.operand)).map some := by
    rw [List.map_map, List.map_map]
    exact List.map_congr_left hknown
  rw [(hperm.map (·.place)).nodup_iff]
  refine List.Nodup.of_map (s.operands[·]?) ?_
  rw [hsome]
  exact hoperands.map fun _ _ => Option.some.inj

end Boundary

/-! ## The model of a finished step -/

/-- What makes the model of a finished step complete in itself. -/
structure SelfContained (whole : Model) (s : Step) : Prop where
  valid : s.model.validate = .ok ()
  /-- The inputs are those of the whole model, followed by what other steps compute. -/
  inputs_eq : s.model.inputs = (s.modelInputs ++ s.crossInputs).map (·.place)
  /-- The outputs are those of the whole model, followed by what other steps read. -/
  outputs_eq : s.model.outputs = (s.modelOutputs ++ s.crossOutputs).map (·.place)
  /-- Every link leads to the place of its operand in the step. -/
  places : ∀ link ∈ s.inputs ++ s.outputs, s.place? link.operand = some link.place
  inputs_nodup : s.model.inputs.Nodup
  outputs_nodup : s.model.outputs.Nodup
  disjoint : s.model.inputs.Disjoint s.model.outputs
  input_iff : ∀ place, place ∈ s.model.inputs ↔
    ∃ operand, s.model.operands[place]? = some operand ∧ operand.lifetime = .modelInput
  output_iff : ∀ place, place ∈ s.model.outputs ↔
    ∃ operand, s.model.operands[place]? = some operand ∧ operand.lifetime = .modelOutput
  /-- The operands with bytes are the constants, and those that are left out of the whole model and
  have bytes there. -/
  valued_iff : ∀ (place : Nat) operand, s.model.operands[place]? = some operand →
    (operand.value.isSome = true ↔ operand.isConstant = true ∨
      ∃ o source, s.place? o = some place ∧ whole.operands[o]? = some source ∧
        source.lifetime = .noValue ∧ source.value.isSome = true)
  /-- All bytes are those of an operand of the whole model, of the same lifetime. -/
  value : ∀ (place : Nat) operand bytes, s.model.operands[place]? = some operand →
    operand.value = some bytes → ∃ o source, s.place? o = some place ∧
      whole.operands[o]? = some source ∧ source.lifetime = operand.lifetime ∧
      source.value = some bytes
  relaxed_eq : s.model.relaxed = whole.relaxed

/-- No copied operand is an input or an output until the step is finished. -/
theorem importOperand_unlisted (o : Operand) :
    (importOperand o).lifetime ≠ .modelInput ∧ (importOperand o).lifetime ≠ .modelOutput := by
  rw [importOperand_lifetime]
  cases o.lifetime <;> decide

theorem Links.imp {whole : Model} {operands : List Nat} {kind kind' : Lifetime → Prop} {link : Link}
    (h : Links whole operands kind link) (himp : ∀ lifetime, kind lifetime → kind' lifetime) :
    Links whole operands kind' link := by
  obtain ⟨hplace, source, hsource, hkind⟩ := h
  exact ⟨hplace, source, hsource, himp _ hkind⟩

section Finished

variable {whole : Model} {s : Step} {links : List Link} {relaxed : Bool}

/-- An operand of a finished step is a copy that may have become an input or an output. -/
theorem Filled.exists_source (h : Filled whole s) {place : Nat} {operand : Operand}
    (hoperand : (s.finished links relaxed).model.operands[place]? = some operand) :
    ∃ o source, s.operands[place]? = some o ∧ whole.operands[o]? = some source ∧
      operand.value = (importOperand source).value ∧
      operand.lifetime =
        if place ∈ (s.modelOutputs ++ links).map (·.place) then .modelOutput
        else if place ∈ (s.modelInputs ++ s.crossInputs).map (·.place) then .modelInput
        else (importOperand source).lifetime := by
  have hlt := (List.getElem?_eq_some_iff.1 hoperand).1
  rw [h.length_finished] at hlt
  have ho := List.getElem?_eq_getElem hlt
  obtain ⟨source, hsource, hlocal⟩ := h.finished_operand ho
  obtain rfl := Option.some.inj (hoperand.symm.trans hlocal)
  exact ⟨_, source, ho, hsource, rfl, rfl⟩

/-- Nothing that comes with the model is passed in or out. -/
theorem Filled.passed_links (h : Filled whole s) (hhanded : Handed whole s links) {link : Link}
    (hlink : link ∈ (s.modelInputs ++ s.crossInputs) ++ (s.modelOutputs ++ links)) :
    Links whole s.operands (fun lifetime => ¬ (lifetime.isConstant = true ∨ lifetime = .noValue))
      link := by
  simp only [List.mem_append] at hlink
  rcases hlink with (hlink | hlink) | (hlink | hlink)
  · exact (h.modelInputs link hlink).imp fun lifetime hkind => by rw [hkind]; decide
  · exact (h.crossInputs link hlink).imp fun lifetime hkind => by
      revert hkind
      cases lifetime <;> decide
  · exact (h.modelOutputs link hlink).imp fun lifetime hkind => by rw [hkind]; decide
  · exact (hhanded.temporary link hlink).imp fun lifetime hkind => by rw [hkind]; decide

/-- What comes with the model keeps its lifetime. -/
theorem Filled.lifetime_of_kept (h : Filled whole s) (hhanded : Handed whole s links)
    {place o : Nat} {source operand : Operand} (ho : s.operands[place]? = some o)
    (hsource : whole.operands[o]? = some source)
    (hkept : source.lifetime.isConstant = true ∨ source.lifetime = .noValue)
    (hoperand : (s.finished links relaxed).model.operands[place]? = some operand) :
    operand.lifetime = source.lifetime := by
  have hunpassed : place ∉
      ((s.modelInputs ++ s.crossInputs) ++ (s.modelOutputs ++ links)).map (·.place) := by
    intro hplace
    obtain ⟨link, hlink, rfl⟩ := List.mem_map.1 hplace
    obtain ⟨hknown, source', hsource', hpassed⟩ := h.passed_links hhanded hlink
    obtain rfl := Option.some.inj (ho.symm.trans hknown)
    obtain rfl := Option.some.inj (hsource.symm.trans hsource')
    exact hpassed hkept
  rw [List.map_append, List.mem_append, not_or] at hunpassed
  obtain ⟨source', hsource', hlocal⟩ := h.finished_operand ho
  obtain rfl := Option.some.inj (hsource.symm.trans hsource')
  obtain rfl := Option.some.inj (hoperand.symm.trans hlocal)
  rw [if_neg hunpassed.2, if_neg hunpassed.1, importOperand_lifetime, if_pos hkept]

/-- The bytes in a finished step are those of an operand that comes with the model. -/
theorem Filled.source_of_value (h : Filled whole s) (hhanded : Handed whole s links) {place : Nat}
    {operand : Operand} {bytes : Bytes}
    (hoperand : (s.finished links relaxed).model.operands[place]? = some operand)
    (hvalue : operand.value = some bytes) :
    ∃ o source, s.place? o = some place ∧ whole.operands[o]? = some source ∧
      (source.lifetime.isConstant = true ∨ source.lifetime = .noValue) ∧
      operand.lifetime = source.lifetime ∧ source.value = some bytes := by
  obtain ⟨o, source, ho, hsource, hcopy, -⟩ := h.exists_source hoperand
  rw [hvalue, importOperand_value] at hcopy
  split at hcopy
  · next hkept =>
    exact ⟨o, source, h.place?_eq_some_iff.2 ho, hsource, hkept,
      h.lifetime_of_kept hhanded ho hsource hkept hoperand, hcopy.symm⟩
  · cases hcopy

/-- What is left out of the whole model has the bytes that it has there. -/
theorem Filled.value_of_absent (h : Filled whole s) {place o : Nat} {source operand : Operand}
    (ho : s.place? o = some place) (hsource : whole.operands[o]? = some source)
    (habsent : source.lifetime = .noValue)
    (hoperand : (s.finished links relaxed).model.operands[place]? = some operand) :
    operand.value = source.value := by
  obtain ⟨o', source', ho', hsource', hcopy, -⟩ := h.exists_source hoperand
  obtain rfl := Option.some.inj ((getElem?_of_place? ho).symm.trans ho')
  obtain rfl := Option.some.inj (hsource.symm.trans hsource')
  rw [hcopy, importOperand_value, if_pos (Or.inr habsent)]

/-- What a finished step passes in or out is an operand of its model. -/
theorem Filled.operand_of_passed (h : Filled whole s) (hhanded : Handed whole s links) {place : Nat}
    (hplace : place ∈
      ((s.modelInputs ++ s.crossInputs) ++ (s.modelOutputs ++ links)).map (·.place)) :
    ∃ operand, (s.finished links relaxed).model.operands[place]? = some operand := by
  obtain ⟨link, hlink, rfl⟩ := List.mem_map.1 hplace
  obtain ⟨source, -, hoperand⟩ := h.finished_operand (h.passed_links hhanded hlink).1
  exact ⟨_, hoperand⟩

/-- The outputs of a finished step are the operands that are marked so. -/
theorem Filled.mem_outputs_iff (h : Filled whole s) (hhanded : Handed whole s links) (place : Nat) :
    place ∈ (s.finished links relaxed).model.outputs ↔
      ∃ operand, (s.finished links relaxed).model.operands[place]? = some operand ∧
        operand.lifetime = .modelOutput := by
  show place ∈ (s.modelOutputs ++ links).map (·.place) ↔ _
  constructor
  · intro hout
    obtain ⟨operand, hoperand⟩ : ∃ operand,
        (s.finished links relaxed).model.operands[place]? = some operand :=
      h.operand_of_passed hhanded (List.map_append ▸ List.mem_append_right _ hout)
    obtain ⟨o, source, -, -, -, hlifetime⟩ := h.exists_source hoperand
    rw [if_pos hout] at hlifetime
    exact ⟨operand, hoperand, hlifetime⟩
  · rintro ⟨operand, hoperand, houtput⟩
    obtain ⟨o, source, -, -, -, hlifetime⟩ := h.exists_source hoperand
    by_contra hout
    rw [houtput, if_neg hout] at hlifetime
    split at hlifetime
    · cases hlifetime
    · exact (importOperand_unlisted source).2 hlifetime.symm

/-- The inputs of a finished step are the operands that are marked so, if none of them is an output
as well. -/
theorem Filled.mem_inputs_iff (h : Filled whole s) (hhanded : Handed whole s links)
    (hdisjoint : ((s.modelInputs ++ s.crossInputs).map (·.place)).Disjoint
      ((s.modelOutputs ++ links).map (·.place))) (place : Nat) :
    place ∈ (s.finished links relaxed).model.inputs ↔
      ∃ operand, (s.finished links relaxed).model.operands[place]? = some operand ∧
        operand.lifetime = .modelInput := by
  show place ∈ (s.modelInputs ++ s.crossInputs).map (·.place) ↔ _
  constructor
  · intro hin
    obtain ⟨operand, hoperand⟩ : ∃ operand,
        (s.finished links relaxed).model.operands[place]? = some operand :=
      h.operand_of_passed hhanded (List.map_append ▸ List.mem_append_left _ hin)
    obtain ⟨o, source, -, -, -, hlifetime⟩ := h.exists_source hoperand
    -- to be marked as an output would come later, and win
    rw [if_neg (hdisjoint hin), if_pos hin] at hlifetime
    exact ⟨operand, hoperand, hlifetime⟩
  · rintro ⟨operand, hoperand, hinput⟩
    obtain ⟨o, source, -, -, -, hlifetime⟩ := h.exists_source hoperand
    by_contra hin
    rw [hinput, if_neg hin] at hlifetime
    split at hlifetime
    · cases hlifetime
    · exact (importOperand_unlisted source).1 hlifetime.symm

/-- The operands with bytes are the constants, and what has bytes in the whole model although it is
left out there. -/
theorem Filled.valued_iff (h : Filled whole s) (hhanded : Handed whole s links)
    (hvalid : Valid (s.finished links relaxed).model) {place : Nat} {operand : Operand}
    (hoperand : (s.finished links relaxed).model.operands[place]? = some operand) :
    operand.value.isSome = true ↔ operand.isConstant = true ∨
      ∃ o source, s.place? o = some place ∧ whole.operands[o]? = some source ∧
        source.lifetime = .noValue ∧ source.value.isSome = true := by
  constructor
  · intro hvalue
    obtain ⟨bytes, hbytes⟩ := Option.isSome_iff_exists.1 hvalue
    obtain ⟨o, source, ho, hsource, hkept, hlifetime, hsame⟩ :=
      h.source_of_value hhanded hoperand hbytes
    refine hkept.imp (fun hconstant => ?_) fun habsent => ⟨o, source, ho, hsource, habsent, ?_⟩
    · rwa [Operand.isConstant, hlifetime]
    · rw [hsame]
      rfl
  · rintro (hconstant | ⟨o, source, ho, hsource, habsent, hvalue⟩)
    · exact Option.isSome_iff_ne_none.2 (hvalid.valued place operand hoperand hconstant)
    · rwa [h.value_of_absent ho hsource habsent hoperand]

/-- A filled step that is finished with a well-formed model is complete in itself. -/
theorem Filled.selfContained (h : Filled whole s) (hnoted : Noted s)
    (hhanded : Handed whole s links)
    (hvalid : Valid (s.finished links whole.relaxed).model) :
    SelfContained whole (s.finished links whole.relaxed) := by
  have hnodup := h.nodup_places hnoted hhanded
  rw [List.map_append] at hnodup
  obtain ⟨hinputs, houtputs, hdisjoint⟩ := List.nodup_append'.1 hnodup
  refine ⟨validate_eq_ok_iff.2 hvalid, rfl, rfl, ?_, hinputs, houtputs, hdisjoint,
    h.mem_inputs_iff hhanded hdisjoint, h.mem_outputs_iff hhanded,
    fun place operand hoperand => h.valued_iff hhanded hvalid hoperand, ?_, rfl⟩
  · intro link hlink
    exact h.place?_eq_some_iff.2 (h.passed_links hhanded hlink).1
  · intro place operand bytes hoperand hvalue
    obtain ⟨o, source, ho, hsource, -, hlifetime, hsame⟩ :=
      h.source_of_value hhanded hoperand hvalue
    exact ⟨o, source, ho, hsource, hlifetime.symm, hsame⟩

end Finished

end Step

/-! ## The steps of a finished plan -/

namespace Plan

open Model Step

/-- What a plan lets a step hand on. -/
theorem Flow.Tracks.handed_step {steps : List Step} {whole : Model} {flow : Flow}
    (h : Flow.Tracks steps whole (reads steps) flow) {p : Nat} {s : Step} {links : List Link}
    (hs : steps[p]? = some s) (hindex : s.index = p)
    (hlinks : flow.crossOutputs[p]? = some links) : Handed whole s links := by
  refine ⟨h.nodup links (List.mem_of_getElem? hlinks), ?_, ?_⟩
  · intro link hlink
    obtain ⟨⟨t, ht, hplace⟩, -, -, hsource⟩ := h.handed p links hlinks link hlink
    obtain rfl := Option.some.inj (hs.symm.trans ht)
    exact ⟨getElem?_of_place? hplace, hsource⟩
  · intro link hlink hcross
    -- a step that reads what it computes itself is refused
    obtain ⟨-, -, hproducer, -⟩ := h.handed p links hlinks link hlink
    have hread : (p, link.operand) ∈ reads steps :=
      mem_reads.2 ⟨s, List.mem_of_getElem? hs, hindex, hcross⟩
    obtain ⟨q, hq, hlt⟩ := h.produced p link.operand hread
    obtain rfl := Option.some.inj (hproducer.symm.trans hq)
    exact absurd hlt (Nat.lt_irrefl _)

/-- Every step of a plan that is finished has a model that is complete in itself.  Exactly its
constants have bytes if no operand that is left out of the whole model has any. -/
theorem finish_selfContained {whole : Model} {p p' : Plan} (hbuilt : BuiltFrom whole p)
    (hfinish : p.finish whole = (p', .ok ())) :
    (∀ s ∈ p'.steps, SelfContained whole s) ∧
      ((∀ o ∈ whole.operands, o.Bare) → ∀ s ∈ p'.steps, ∀ operand ∈ s.model.operands,
        (operand.value.isSome = true ↔ operand.isConstant = true)) := by
  have hall : ∀ s ∈ p'.steps, SelfContained whole s := by
    obtain ⟨steps, hsteps, rfl⟩ := hbuilt.exists_steps hfinish
    obtain ⟨-, -, flow, hflow, hall, rfl⟩ := finish_eq_ok.1 hfinish
    have htracks := tracks_of_flow hflow
    intro s hs
    obtain ⟨c, hc⟩ := List.mem_iff_getElem?.1 hs
    obtain ⟨t, links, ht, hlinks, rfl⟩ := getElem?_assembled.1 hc
    have hpair : (t, links) ∈ (Plan.numbered steps).zip flow.crossOutputs :=
      List.mem_iff_getElem?.2 ⟨c, List.getElem?_zip_eq_some.2 ⟨ht, hlinks⟩⟩
    obtain ⟨-, -, -, -, hvalid⟩ := Step.finish_eq_ok.1 (finish_of_snd (hall _ hpair))
    obtain ⟨hindex, u, hu, rfl⟩ := getElem?_numbered ht
    have hfrom := hsteps u (List.mem_of_getElem? hu)
    exact (hfrom.filled.withIndex c).selfContained ⟨hfrom.noted.nodup, hfrom.noted.known⟩
      (htracks.handed_step ht hindex hlinks) hvalid
  refine ⟨hall, fun hbare s hs operand hmem => ?_⟩
  obtain ⟨place, hoperand⟩ := List.mem_iff_getElem?.1 hmem
  rw [(hall s hs).valued_iff place operand hoperand, or_iff_left_iff_imp]
  rintro ⟨o, source, -, hsource, habsent, hvalue⟩
  rw [hbare source (List.mem_of_getElem? hsource) habsent] at hvalue
  cases hvalue

/-- Both steps of the chain are complete in themselves, although the plan has been tried when it had
one of them only. -/
theorem finish_selfContained_chain :
    BuiltFrom chain { steps := Plan.numbered chainSteps } ∧
      (finish { steps := Plan.numbered chainSteps } chain).2 = .ok () ∧
      (∀ o ∈ chain.operands, o.Bare) ∧
      ∀ s ∈ (finish { steps := Plan.numbered chainSteps } chain).1.steps, SelfContained chain s ∧
        ∀ operand ∈ s.model.operands,
          (operand.value.isSome = true ↔ operand.isConstant = true) := by
  have hbare : ∀ o ∈ chain.operands, o.Bare := bare_performAll (by simp [Operand.Bare])
  have hsteps : ∀ s ∈ chainSteps, FilledFrom chain s := by
    simp only [chainSteps, List.forall_mem_map]
    exact fun calls _ => ⟨_, calls, rfl⟩
  obtain ⟨hfirst, hsecond⟩ : FilledFrom chain chainSteps[0] ∧ FilledFrom chain chainSteps[1] :=
    ⟨hsteps _ (List.getElem_mem _), hsteps _ (List.getElem_mem _)⟩
  have htried : BuiltFrom chain (finish { steps := Plan.numbered [chainSteps[0]] } chain).1 :=
    .attempt (.addStep .new hfirst rfl)
  have hbuilt : BuiltFrom chain { steps := Plan.numbered chainSteps } :=
    .addStep htried hsecond rfl
  have hfinish : (finish { steps := Plan.numbered chainSteps } chain).2 = .ok () := by rfl
  obtain ⟨hall, hvalued⟩ := finish_selfContained hbuilt (Prod.ext rfl hfinish)
  exact ⟨hbuilt, hfinish, hbare, fun s hs => ⟨hall s hs, hvalued hbare s hs⟩⟩

/-- A rectification of an operand that is added with its bytes. -/
def preset (lifetime : Lifetime) : Model := performAll {} [
  .addOperand { type := .tensorFloat32, dimensions := [1], lifetime,
                value := some [0x00, 0x00, 0x80, 0x3f] },
  .addOperand { type := .tensorFloat32, dimensions := [1] },
  .addOperation .relu [0] [1],
  .identify [] [1]]

/-- All of it in one step. -/
def presetStep (lifetime : Lifetime) : Step :=
  [.addOperand 0 .input, .addOperand 1 .output, .addOperation 0].foldl
    (Step.perform (preset lifetime))
    { device := { name := "cpu", handle := .invalid, coverage := .full } }

theorem builtFrom_preset (lifetime : Lifetime) :
    BuiltFrom (preset lifetime) { steps := Plan.numbered [presetStep lifetime] } :=
  .addStep .new ⟨_, _, rfl⟩ rfl

/-- The lifetimes and bytes in the steps of a plan. -/
def payloads (p : Plan) : List (List (Lifetime × Option Bytes)) :=
  p.steps.map fun s => s.model.operands.map fun operand => (operand.lifetime, operand.value)

/-- An operand that is left out keeps the bytes it was added with, and a constant the bytes that it
had when the step was filled, although the original has others when the plan is finished. -/
theorem finish_keeps_bytes :
    (BuiltFrom (preset .noValue) { steps := Plan.numbered [presetStep .noValue] } ∧
      ∃ p', finish { steps := Plan.numbered [presetStep .noValue] } (preset .noValue) =
          (p', .ok ()) ∧
        p'.payloads = [[(.noValue, some [0x00, 0x00, 0x80, 0x3f]), (.modelOutput, none)]]) ∧
    (BuiltFrom (preset .constantCopy) { steps := Plan.numbered [presetStep .constantCopy] } ∧
      ∃ after p', (preset .constantCopy).setValue 0 [0x00, 0x00, 0x00, 0x00] = .ok after ∧
        finish { steps := Plan.numbered [presetStep .constantCopy] } after = (p', .ok ()) ∧
        p'.payloads = [[(.constantCopy, some [0x00, 0x00, 0x80, 0x3f]), (.modelOutput, none)]]) :=
  ⟨⟨builtFrom_preset _, _, rfl, rfl⟩, builtFrom_preset _, _, _, rfl, rfl, rfl⟩

end Plan

end NeuralDispatch

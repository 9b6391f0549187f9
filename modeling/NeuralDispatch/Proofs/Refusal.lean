import NeuralDispatch.Proofs.Partition

/-!
# Plans that are refused

A plan can be refused by the checks, which change nothing, or by the model of one of its steps.  In
the second case the steps before that one are frozen, although the plan is not finished, and a
second attempt runs into the first of them.

* `Step.FilledByCalls`, `Step.Untouched` — steps that have not been through any attempt to finish
  them.
* `check_congr` — what the checks look at, which no attempt changes.
* `exists_of_finishSteps_error` — what is left of the steps when one of them is refused.
* `finish_refused` — what is left of a plan, when that is the plan as it was, and when a second
  attempt gets an answer.
* `finish_twice_idle` — a plan that does not survive being refused.
-/

namespace NeuralDispatch

open Answer Model

/-! ## Steps before they are finished -/

namespace Step

/-- A step that calls have filled, with operands and operations of whatever models. -/
def FilledByCalls (s : Step) : Prop :=
  ∃ device, ∃ calls : List (Model × Call),
    s = calls.foldl (fun s call => s.perform call.1 call.2) { device }

/-- What holds of a step before it is finished: everything that is set then is still as it was at
first, and the links lead to places that exist. -/
structure Untouched (s : Step) : Prop where
  unfrozen : s.frozen = false
  crossOutputs : s.crossOutputs = []
  inputs : s.model.inputs = []
  outputs : s.model.outputs = []
  unrelaxed : s.model.relaxed = false
  length_eq : s.model.operands.length = s.operands.length
  places : ∀ link ∈ s.modelInputs ++ s.crossInputs ++ s.modelOutputs,
    link.place < s.model.operands.length

@[simp] theorem note_crossOutputs (s : Step) (link : Link) (role : Role) (lifetime : Lifetime) :
    (s.note link role lifetime).crossOutputs = s.crossOutputs := by
  unfold note
  split <;> rfl

/-- A note is about the new operand. -/
theorem mem_note {s : Step} {link l : Link} {role : Role} {lifetime : Lifetime}
    (h : l ∈ (s.note link role lifetime).modelInputs ++ (s.note link role lifetime).crossInputs ++
      (s.note link role lifetime).modelOutputs) :
    l ∈ s.modelInputs ++ s.crossInputs ++ s.modelOutputs ∨ l = link := by
  unfold note at h
  split at h <;> simp only [List.mem_append, List.mem_singleton] at h ⊢ <;> tauto

theorem Untouched.withOperand {s : Step} (h : Untouched s) (o : Nat) (source : Operand)
    (role : Role) : Untouched (s.withOperand o source role) := by
  refine ⟨?_, ?_, ?_, ?_, ?_, ?_, ?_⟩
  · simpa [Step.withOperand] using h.unfrozen
  · simpa [Step.withOperand] using h.crossOutputs
  · simpa [Step.withOperand, Model.addOperand] using h.inputs
  · simpa [Step.withOperand, Model.addOperand] using h.outputs
  · simpa [Step.withOperand, Model.addOperand] using h.unrelaxed
  · simpa [Step.withOperand, Model.addOperand] using h.length_eq
  · intro link hlink
    have hlength : (s.withOperand o source role).model.operands.length =
        s.model.operands.length + 1 := by simp [Step.withOperand, Model.addOperand]
    rw [hlength]
    rcases mem_note hlink with hold | rfl
    · exact Nat.lt_succ_of_lt (h.places link hold)
    · exact Nat.lt_succ_self _

theorem Untouched.addOperation {whole : Model} {s s' : Step} {i : Nat} (h : Untouched s)
    (hadd : s.addOperation whole i = .ok s') : Untouched s' := by
  obtain ⟨-, op, inputs, outputs, model, -, -, -, hmodel, rfl⟩ := addOperation_eq_ok.1 hadd
  obtain ⟨-, -, rfl⟩ := Model.addOperation_eq_ok.1 hmodel
  have hlength : (s.model.countReads inputs).operands.length = s.model.operands.length :=
    List.length_mapIdx ..
  refine ⟨h.unfrozen, h.crossOutputs, h.inputs, h.outputs, h.unrelaxed, ?_, ?_⟩
  · exact hlength.trans h.length_eq
  · intro link hlink
    exact (h.places link hlink).trans_eq hlength.symm

theorem Untouched.perform {whole : Model} {s : Step} (h : Untouched s) (call : Call) :
    Untouched (s.perform whole call) := by
  cases call with
  | addOperand o role =>
    rw [Step.perform]
    split
    · next s' place hadd =>
      obtain ⟨-, ⟨-, rfl⟩ | ⟨-, source, -, -, rfl⟩⟩ := addOperand_eq_ok.1 hadd
      · exact h
      · exact h.withOperand o source role
    · exact h
  | addOperation i =>
    rw [Step.perform]
    split
    · next s' hadd => exact h.addOperation hadd
    · exact h

theorem FilledByCalls.untouched {s : Step} (h : FilledByCalls s) : Untouched s := by
  obtain ⟨device, calls, rfl⟩ := h
  induction calls using List.reverseRecOn with
  | nil => exact ⟨rfl, rfl, rfl, rfl, rfl, rfl, by simp⟩
  | append_singleton before call ih =>
    rw [List.foldl_append]
    exact ih.perform call.2

theorem Untouched.withIndex {s : Step} (h : Untouched s) (index : Nat) :
    Untouched { s with index } :=
  ⟨h.unfrozen, h.crossOutputs, h.inputs, h.outputs, h.unrelaxed, h.length_eq, h.places⟩

/-! ## A step whose model is refused -/

/-- The step as it is left when its model is not well formed. -/
def halted (s : Step) (crossOutputs : List Link) (relaxed : Bool) : Step :=
  { s.finished crossOutputs relaxed with frozen := false }

theorem identified_nil {m : Model} (hinputs : m.inputs = []) (houtputs : m.outputs = [])
    (hrelaxed : m.relaxed = false) : (m.identified [] []).setRelaxed false = m := by
  unfold identified setRelaxed
  rw [relabel_nil, relabel_nil]
  cases m
  simp_all

/-- Only a step that has nothing to set is left as it was. -/
theorem halted_eq_self_iff {s : Step} (h : Untouched s) {links : List Link} {relaxed : Bool} :
    s.halted links relaxed = s ↔
      s.inputs = [] ∧ s.modelOutputs ++ links = [] ∧ relaxed = false := by
  constructor
  · intro heq
    have hinputs := congrArg (·.model.inputs) heq
    have houtputs := congrArg (·.model.outputs) heq
    have hrelaxed := congrArg (·.model.relaxed) heq
    simp only [h.inputs, h.outputs, h.unrelaxed] at hinputs houtputs hrelaxed
    exact ⟨List.map_eq_nil_iff.1 hinputs, List.map_eq_nil_iff.1 houtputs, hrelaxed⟩
  · rintro ⟨hinputs, houtputs, rfl⟩
    have hmodel := identified_nil h.inputs h.outputs h.unrelaxed
    have hlinks : links = s.crossOutputs := by
      rw [h.crossOutputs]
      exact (List.append_eq_nil_iff.1 houtputs).2
    unfold Step.inputs at hinputs
    unfold halted finished
    rw [hinputs, houtputs, List.map_nil, hmodel, hlinks, ← h.unfrozen]

/-- An attempt to finish an untouched step. -/
theorem Untouched.finish_eq {s : Step} (h : Untouched s) {links : List Link}
    (hlinks : ∀ link ∈ links, link.place < s.operands.length) (relaxed : Bool) :
    s.finish links relaxed =
      match (s.finished links relaxed).model.validate with
      | .error e => (s.halted links relaxed, .error (.invalidModel e))
      | .ok () => (s.finished links relaxed, .ok ()) := by
  have hplaces := h.places
  rw [Step.finish_eq h.unfrozen, h.unfrozen]
  · rfl
  · intro link hlink
    exact hplaces link (List.mem_append_left _ hlink)
  · intro link hlink
    rcases List.mem_append.1 hlink with hlink | hlink
    · exact hplaces link (List.mem_append_right _ hlink)
    · exact (hlinks link hlink).trans_eq h.length_eq.symm

/-- A step that is not frozen is refused for its model only. -/
theorem error_of_unfrozen {s : Step} (h : s.frozen = false) {links : List Link} {relaxed : Bool}
    {e : PlanError} (herror : (s.finish links relaxed).2 = .error e) :
    ∃ fault, e = .invalidModel fault := by
  unfold finish at herror
  rw [requireMutable_eq_ok.2 h] at herror
  dsimp only at herror
  split at herror
  · cases herror
    exact ⟨_, rfl⟩
  · split at herror
    · cases herror
      exact ⟨_, rfl⟩
    · cases herror

theorem finish_of_frozen {s : Step} (h : s.frozen = true) (links : List Link) (relaxed : Bool) :
    s.finish links relaxed = (s, .error (.misuse (.frozenStep .finish s.index s.device.name))) := by
  unfold finish requireMutable
  rw [if_pos h]

end Step

/-! ## What the checks look at -/

namespace PlanError

/-- Whether a call does not end with an error that only a misuse of the plan brings about. -/
def Proper {α : Type} (answer : Except PlanError α) : Prop :=
  ∀ misuse, answer ≠ .error (.misuse misuse)

theorem Proper.bind {α β : Type} {answer : Except PlanError α} {next : α → Except PlanError β}
    (h : Proper answer) (h' : ∀ a, Proper (next a)) : Proper (answer >>= next) := by
  cases answer with
  | error e =>
    intro misuse hmisuse
    cases hmisuse
    exact h misuse rfl
  | ok a => exact h' a

theorem Proper.pure {α : Type} (a : α) : Proper (pure a) := by
  intro misuse h
  cases h

theorem Proper.invalidPlan {α : Type} (flaw : PlanFlaw) :
    Proper (throw (.invalidPlan flaw) : Except PlanError α) := by
  intro misuse h
  cases h

theorem Proper.ofModel {α : Type} (answer : Except ModelError α) : Proper (ofModel answer) := by
  intro misuse h
  cases answer <;> cases h

theorem Proper.forM {α : Type} {xs : List α} {f : α → Except PlanError Unit}
    (h : ∀ x, Proper (f x)) : Proper (xs.forM f) := by
  induction xs with
  | nil => exact Proper.pure ()
  | cons x rest ih =>
    rw [List.forM_eq_forM, List.forM_cons, ← List.forM_eq_forM]
    exact (h x).bind fun _ => ih

theorem Proper.foldlM {α β : Type} {xs : List α} {f : β → α → Except PlanError β}
    (h : ∀ b x, Proper (f b x)) (b : β) : Proper (xs.foldlM f b) := by
  induction xs generalizing b with
  | nil => exact Proper.pure b
  | cons x rest ih =>
    rw [List.foldlM_cons]
    exact (h b x).bind ih

end PlanError

namespace Plan

open PlanError

theorem proper_add (steps : List Step) (whole : Model) (flow : Flow) (read : Nat × Nat) :
    Proper (Flow.add steps whole (computedBySteps steps whole) flow read) := by
  unfold Flow.add
  dsimp only
  split
  · split
    · exact Proper.invalidPlan _
    · refine (Proper.ofModel _).bind fun operand => ?_
      split
      · exact Proper.pure _
      · split
        · exact Proper.pure _
        · exact Proper.invalidPlan _
  · exact Proper.invalidPlan _

theorem proper_check (p : Plan) (whole : Model) : Proper (p.check whole) := by
  have hguard : ∀ (c : Prop) [Decidable c] (flaw : PlanFlaw),
      Proper (if c then pure () else throw (.invalidPlan flaw) : Except PlanError Unit) := by
    intro c _ flaw
    split
    · exact Proper.pure ()
    · exact Proper.invalidPlan flaw
  have hcoverage : Proper (checkCoverage p.steps whole) := by
    unfold checkCoverage
    refine Proper.bind (Proper.forM fun s => Proper.forM fun i => hguard _ _) fun _ => ?_
    exact Proper.forM fun i => hguard _ _
  unfold check
  split
  · exact Proper.invalidPlan _
  · exact hcoverage.bind fun _ => Proper.foldlM (proper_add p.steps whole) _

/-- Whether a change of steps leaves alone what the checks look at. -/
structure Unseen (change : Step → Step) : Prop where
  index : ∀ s, (change s).index = s.index
  operations : ∀ s, (change s).operations = s.operations
  operands : ∀ s, (change s).operands = s.operands
  crossInputs : ∀ s, (change s).crossInputs = s.crossInputs

section Unseen

variable {change : Step → Step}

theorem Unseen.add_map (h : Unseen change) (steps : List Step) :
    Flow.add (steps.map change) = Flow.add steps := by
  have hplace : ∀ producer o : Nat, ((steps.map change)[producer]?.bind fun s => s.place? o) =
      steps[producer]?.bind fun s => s.place? o := by
    intro producer o
    rw [List.getElem?_map]
    cases steps[producer]? with
    | none => rfl
    | some s =>
      show (change s).operands.idxOf? o = s.operands.idxOf? o
      rw [h.operands]
  funext whole computed flow read
  unfold Flow.add
  simp only [hplace]

theorem Unseen.flow_map (h : Unseen change) (steps : List Step) (whole : Model) :
    flow (steps.map change) whole = flow steps whole := by
  unfold flow computedBySteps computed
  rw [h.add_map]
  simp only [List.map_map, List.flatMap_map, Function.comp_def, h.index, h.operations,
    h.crossInputs]

theorem Unseen.check_map (h : Unseen change) (p : Plan) (whole : Model) :
    { p with steps := p.steps.map change }.check whole = p.check whole := by
  have hcoverage : checkCoverage (p.steps.map change) whole = checkCoverage p.steps whole := by
    unfold checkCoverage
    simp only [List.flatMap_map, List.forM_eq_forM, List.forM_map, h.index, h.operations]
  unfold check
  rw [hcoverage, h.flow_map]

end Unseen

/-- A step with nothing but what the checks look at. -/
def outline (s : Step) : Step :=
  { index := s.index, device := s.device, operations := s.operations, operands := s.operands,
    crossInputs := s.crossInputs }

theorem check_outline (p : Plan) (whole : Model) :
    { p with steps := p.steps.map outline }.check whole = p.check whole := by
  have hunseen : Unseen outline := ⟨fun _ => rfl, fun _ => rfl, fun _ => rfl, fun _ => rfl⟩
  exact hunseen.check_map p whole

/-- Plans that agree in what the checks look at are checked alike. -/
theorem check_congr {p p' : Plan} (hfinished : p'.finished = p.finished)
    (hsteps : p'.steps.map outline = p.steps.map outline) (whole : Model) :
    p'.check whole = p.check whole := by
  rw [← check_outline p', ← check_outline p, hsteps]
  unfold check
  rw [hfinished]

/-! ## Steps up to the first that is refused -/

theorem exists_of_finishSteps_error {relaxed : Bool} {pairs : List (Step × List Link)}
    {steps : List Step} {e : PlanError} (h : finishSteps relaxed pairs = (steps, .error e)) :
    ∃ before s links after s', pairs = before ++ (s, links) :: after ∧
      (∀ x ∈ before, (x.1.finish x.2 relaxed).2 = .ok ()) ∧
      s.finish links relaxed = (s', .error e) ∧
      steps = before.map (fun x => x.1.finished x.2 relaxed) ++ s' :: after.map (·.1) := by
  induction pairs generalizing steps with
  | nil => cases h
  | cons x rest ih =>
    obtain ⟨s, links⟩ := x
    rw [finishSteps] at h
    split at h
    · next s' e' hfinish =>
      cases h
      exact ⟨[], s, links, rest, s', rfl, by simp, hfinish, rfl⟩
    · next s' hfinish =>
      cases hrest : finishSteps relaxed rest with
      | mk tail answer =>
        rw [hrest] at h
        cases h
        obtain ⟨before, t, links', after, t', rfl, hbefore, ht, rfl⟩ := ih hrest
        obtain ⟨-, -, -, rfl, -⟩ := Step.finish_eq_ok.1 hfinish
        refine ⟨(s, links) :: before, t, links', after, t', rfl, ?_, ht, rfl⟩
        rw [List.forall_mem_cons]
        exact ⟨by rw [hfinish], hbefore⟩

theorem proper_finishSteps {relaxed : Bool} {pairs : List (Step × List Link)}
    (h : ∀ x ∈ pairs, x.1.frozen = false) : Proper (finishSteps relaxed pairs).2 := by
  intro misuse hmisuse
  obtain ⟨before, s, links, after, s', hpairs, -, hfinish, -⟩ :=
    exists_of_finishSteps_error (Prod.ext rfl hmisuse)
  have hunfrozen : s.frozen = false := h (s, links) (by rw [hpairs]; simp)
  obtain ⟨fault, hfault⟩ := Step.error_of_unfrozen hunfrozen (congrArg Prod.snd hfinish)
  cases hfault

theorem proper_of_check_error {p : Plan} {whole : Model} {e : PlanError}
    (hcheck : p.check whole = .error e) : Proper (p.finish whole).2 := by
  intro misuse hmisuse
  unfold finish at hmisuse
  rw [hcheck] at hmisuse
  cases hmisuse
  exact proper_check p whole misuse hcheck

/-- While no step is frozen, a plan can be finished or refused, but not misused. -/
theorem proper_finish {p : Plan} (h : ∀ s ∈ p.steps, s.frozen = false) (whole : Model) :
    Proper (p.finish whole).2 := by
  cases hcheck : p.check whole with
  | error e => exact proper_of_check_error hcheck
  | ok flow =>
    unfold finish
    rw [hcheck]
    dsimp only
    have hpairs : ∀ x ∈ p.steps.zip flow.crossOutputs, x.1.frozen = false := by
      intro x hx
      exact h x.1 (List.of_mem_zip hx).1
    have hsteps : Proper (finishSteps whole.relaxed (p.steps.zip flow.crossOutputs)).2 :=
      proper_finishSteps hpairs
    split
    · next steps e heq =>
      rw [heq] at hsteps
      exact hsteps
    · exact Proper.pure ()

theorem length_of_check {p : Plan} {whole : Model} {f : Flow} (hcheck : p.check whole = .ok f) :
    f.crossOutputs.length = p.steps.length :=
  (tracks_of_flow (check_eq_ok.1 hcheck).2.2).length_eq

/-- Each step of a plan that passes the checks gets to know what others read of it. -/
theorem map_fst_of_check {p : Plan} {whole : Model} {f : Flow} (hcheck : p.check whole = .ok f) :
    (p.steps.zip f.crossOutputs).map (·.1) = p.steps :=
  List.map_fst_zip (Nat.le_of_eq (length_of_check hcheck).symm)

/-- A plan that passes the checks is misused if its first step is frozen. -/
theorem finish_of_frozen {p : Plan} {first : Step} {rest : List Step}
    (hsteps : p.steps = first :: rest) (hfrozen : first.frozen = true) {whole : Model} {f : Flow}
    (hcheck : p.check whole = .ok f) :
    (p.finish whole).2 =
      .error (.misuse (.frozenStep .finish first.index first.device.name)) := by
  have hlength := length_of_check hcheck
  unfold finish
  rw [hcheck]
  rw [hsteps] at hlength ⊢
  cases hlinks : f.crossOutputs with
  | nil =>
    rw [hlinks] at hlength
    cases hlength
  | cons links others =>
    simp only [hlinks, List.zip_cons_cons, finishSteps, Step.finish_of_frozen hfrozen]

/-! ## What is left of a refused plan -/

/-- Whether a plan is left with its steps finished up to one whose model is refused. -/
structure Halts (p : Plan) (whole : Model) (before : List (Step × List Link))
    (refused : Step × List Link) (after : List (Step × List Link)) (fault : ModelError)
    (p' : Plan) : Prop where
  checked : ∃ f, p.check whole = .ok f ∧ p.steps.zip f.crossOutputs = before ++ refused :: after
  valid : ∀ x ∈ before, (x.1.finished x.2 whole.relaxed).model.validate = .ok ()
  invalid : (refused.1.finished refused.2 whole.relaxed).model.validate = .error fault
  left : p' = { p with
    steps := before.map (fun x => x.1.finished x.2 whole.relaxed) ++
      refused.1.halted refused.2 whole.relaxed :: after.map (·.1) }

section Halts

variable {p p' : Plan} {whole : Model} {before after : List (Step × List Link)}
  {refused : Step × List Link} {fault : ModelError}

theorem Halts.steps_eq (h : Halts p whole before refused after fault p') :
    p.steps = before.map (·.1) ++ refused.1 :: after.map (·.1) := by
  obtain ⟨f, hcheck, hzip⟩ := h.checked
  rw [← map_fst_of_check hcheck, hzip, List.map_append, List.map_cons]

theorem Halts.check_eq (h : Halts p whole before refused after fault p') (whole' : Model) :
    p'.check whole' = p.check whole' := by
  apply check_congr
  · rw [h.left]
  · rw [h.left, h.steps_eq]
    simp only [List.map_append, List.map_cons, List.map_map]
    rfl

/-- The plan is left as it was only if its first step is refused and had nothing to set. -/
theorem Halts.eq_self_iff (h : Halts p whole before refused after fault p')
    (huntouched : ∀ s ∈ p.steps, s.Untouched) :
    p' = p ↔ before = [] ∧ refused.1.inputs = [] ∧ refused.1.modelOutputs ++ refused.2 = [] ∧
      whole.relaxed = false := by
  have hsteps := h.steps_eq
  have hrefused : refused.1.Untouched := huntouched refused.1 (by rw [hsteps]; simp)
  rw [← Step.halted_eq_self_iff hrefused]
  constructor
  · intro heq
    have hleft := (congrArg Plan.steps h.left).symm.trans ((congrArg Plan.steps heq).trans hsteps)
    cases before with
    | nil => exact ⟨rfl, (List.cons.inj hleft).1⟩
    | cons x others =>
      -- the first step has been frozen
      have hfirst : x.1.finished x.2 whole.relaxed = x.1 := (List.cons.inj hleft).1
      have hunfrozen := (huntouched x.1 (by rw [hsteps]; simp)).unfrozen
      rw [← hfirst] at hunfrozen
      cases hunfrozen
  · rintro ⟨rfl, hsame⟩
    rw [h.left, hsame]
    show { p with steps := refused.1 :: after.map (·.1) } = p
    have hback : p.steps = refused.1 :: after.map (·.1) := hsteps
    rw [← hback]

/-- A second attempt is a misuse just when it gets as far as a step that the first one froze. -/
theorem Halts.proper_iff (h : Halts p whole before refused after fault p')
    (huntouched : ∀ s ∈ p.steps, s.Untouched) (whole' : Model) :
    Proper (p'.finish whole').2 ↔ before = [] ∨ ∃ e, p.check whole' = .error e := by
  have hsteps := h.steps_eq
  constructor
  · intro hproper
    cases hcheck : p.check whole' with
    | error e => exact Or.inr ⟨e, rfl⟩
    | ok f =>
      cases before with
      | nil => exact Or.inl rfl
      | cons x others =>
        have hfirst := congrArg Plan.steps h.left
        rw [← h.check_eq] at hcheck
        exact absurd (finish_of_frozen hfirst rfl hcheck) (hproper _)
  · rintro (rfl | ⟨e, hcheck⟩)
    · apply proper_finish
      intro s hs
      have hleft : p'.steps = refused.1.halted refused.2 whole.relaxed :: after.map (·.1) :=
        congrArg Plan.steps h.left
      rw [hleft] at hs
      rcases List.mem_cons.1 hs with rfl | hs
      · rfl
      · have hmem : s ∈ p.steps := by
          rw [hsteps]
          exact List.mem_cons_of_mem _ hs
        exact (huntouched s hmem).unfrozen
    · rw [← h.check_eq] at hcheck
      exact proper_of_check_error hcheck

end Halts

/-- The places that steps hand on from exist. -/
theorem places_of_check {p : Plan} {whole : Model} {f : Flow} (hcheck : p.check whole = .ok f)
    {x : Step × List Link} (hx : x ∈ p.steps.zip f.crossOutputs) :
    ∀ link ∈ x.2, link.place < x.1.operands.length := by
  intro link hlink
  obtain ⟨i, hi⟩ := List.mem_iff_getElem?.1 hx
  obtain ⟨hstep, hlinks⟩ := List.getElem?_zip_eq_some.1 hi
  have htracks := tracks_of_flow (check_eq_ok.1 hcheck).2.2
  obtain ⟨⟨s, hs, hplace⟩, -⟩ := htracks.handed i x.2 hlinks link hlink
  obtain rfl := Option.some.inj (hstep.symm.trans hs)
  exact (List.getElem?_eq_some_iff.1 (Step.getElem?_of_place? hplace)).1

/-- What refuses a plan of untouched steps: the checks, or the model of a step. -/
theorem halts_of_finish {p p' : Plan} {whole : Model} {e : PlanError}
    (huntouched : ∀ s ∈ p.steps, s.Untouched) (h : p.finish whole = (p', .error e)) :
    p.check whole = .error e ∧ p' = p ∨
      ∃ before refused after fault, Halts p whole before refused after fault p' ∧
        e = .invalidModel fault := by
  unfold finish at h
  cases hcheck : p.check whole with
  | error e' =>
    rw [hcheck] at h
    cases h
    exact Or.inl ⟨rfl, rfl⟩
  | ok f =>
    rw [hcheck] at h
    dsimp only at h
    split at h
    · next steps e' heq =>
      cases h
      obtain ⟨before, s, links, after, s', hzip, hbefore, hfinish, hleft⟩ :=
        exists_of_finishSteps_error heq
      have hmem : (s, links) ∈ p.steps.zip f.crossOutputs := by
        rw [hzip]
        simp
      have hs : s.Untouched := huntouched s (List.of_mem_zip hmem).1
      rw [hs.finish_eq (places_of_check hcheck hmem)] at hfinish
      split at hfinish
      · next fault hfault =>
        cases hfinish
        refine Or.inr ⟨before, (s, links), after, fault, ⟨⟨f, hcheck, hzip⟩, ?_, hfault, ?_⟩, rfl⟩
        · intro x hx
          obtain ⟨-, -, -, -, hvalid⟩ := Step.finish_eq_ok.1 (finish_of_snd (hbefore x hx))
          exact validate_eq_ok_iff.2 hvalid
        · rw [hleft]
      · cases hfinish
    · cases h

theorem untouched_numbered {steps : List Step} (h : ∀ s ∈ steps, s.FilledByCalls) :
    ∀ s ∈ numbered steps, s.Untouched := by
  intro s hs
  obtain ⟨c, hc⟩ := List.mem_iff_getElem?.1 hs
  obtain ⟨-, t, ht, rfl⟩ := getElem?_numbered hc
  exact (h t (List.mem_of_getElem? ht)).untouched.withIndex c

/-- A refused plan is as it was, and can be finished or refused again, if the checks refused it.
Otherwise a step was refused for its model, the steps before it are frozen, and it is left with
everything set but frozen.  Then the plan is as it was only if this is the first step and it had
nothing to set, and a second attempt gets an answer just when this is the first step or the checks
refuse the plan. -/
theorem finish_refused {steps : List Step} {p p' : Plan} {whole : Model} {e : PlanError}
    (hsteps : ∀ s ∈ steps, s.FilledByCalls) (hadd : steps.foldlM addStep {} = .ok p)
    (hfinish : p.finish whole = (p', .error e)) :
    p.check whole = .error e ∧ p' = p ∧ (∀ whole', Proper (p'.finish whole').2) ∨
      ∃ before refused after fault, Halts p whole before refused after fault p' ∧
        e = .invalidModel fault ∧
        (p' = p ↔ before = [] ∧ refused.1.inputs = [] ∧ refused.1.modelOutputs ++ refused.2 = [] ∧
          whole.relaxed = false) ∧
        ∀ whole', Proper (p'.finish whole').2 ↔ before = [] ∨ ∃ e', p.check whole' = .error e' := by
  have huntouched : ∀ s ∈ p.steps, s.Untouched := by
    rw [foldlM_addStep] at hadd
    obtain rfl := Except.ok.inj hadd
    exact untouched_numbered hsteps
  rcases halts_of_finish huntouched hfinish with
    ⟨hcheck, rfl⟩ | ⟨before, refused, after, fault, h, rfl⟩
  · refine Or.inl ⟨hcheck, rfl, ?_⟩
    intro whole'
    apply proper_finish
    intro s hs
    exact (huntouched s hs).unfrozen
  · refine Or.inr ⟨before, refused, after, fault, h, rfl, h.eq_self_iff huntouched, ?_⟩
    intro whole'
    exact h.proper_iff huntouched whole'

/-! ## A plan with an idle step -/

/-- A step that runs one operation of the idle model, from its input. -/
def idleStep (output operation : Nat) : Step :=
  [.addOperand 0 .input, .addOperand output .output, .addOperation operation].foldl
    (Step.perform idle) { device := { name := "cpu", handle := .invalid, coverage := .full } }

theorem filledByCalls_idleStep (output operation : Nat) :
    (idleStep output operation).FilledByCalls :=
  ⟨_, [(idle, .addOperand 0 .input), (idle, .addOperand output .output),
    (idle, .addOperation operation)], rfl⟩

/-- The step that nobody reads comes first. -/
def idleFirst : List Step := [idleStep 2 1, idleStep 1 0]

/-- The step that nobody reads comes last. -/
def idleLast : List Step := [idleStep 1 0, idleStep 2 1]

theorem filledByCalls_of_mem {s : Step} (hs : s ∈ idleFirst ∨ s ∈ idleLast) :
    s.FilledByCalls := by
  simp only [idleFirst, idleLast, List.mem_cons, List.not_mem_nil, or_false] at hs
  rcases hs with (rfl | rfl) | (rfl | rfl) <;> exact filledByCalls_idleStep _ _

/-- When the step that nobody reads comes first, it is refused before another one is frozen, and the
plan can be tried again. -/
theorem finish_refused_first :
    ∃ before refused after fault,
      Halts { steps := numbered idleFirst } idle before refused after fault
        (finish { steps := numbered idleFirst } idle).1 ∧
      ∀ whole', Proper ((finish { steps := numbered idleFirst } idle).1.finish whole').2 ↔
        before = [] ∨ ∃ e, check { steps := numbered idleFirst } whole' = .error e := by
  have hsteps : ∀ s ∈ idleFirst, s.FilledByCalls := fun s hs => filledByCalls_of_mem (Or.inl hs)
  have hanswer : (finish { steps := numbered idleFirst } idle).2 =
      .error (.invalidModel .noOutputs) := by rfl
  rcases finish_refused hsteps (foldlM_addStep idleFirst) (Prod.ext rfl hanswer) with
    ⟨hcheck, -, -⟩ | ⟨before, refused, after, fault, halts, -, -, hsecond⟩
  · cases hcheck
  · exact ⟨before, refused, after, fault, halts, hsecond⟩

/-- When it comes last, the step before it stays frozen, and a second attempt is a misuse. -/
theorem finish_twice_idle :
    (∀ s ∈ idleLast, s.FilledByCalls) ∧
    idleLast.foldlM addStep {} = .ok { steps := numbered idleLast } ∧
    (finish { steps := numbered idleLast } idle).2 = .error (.invalidModel .noOutputs) ∧
    (numbered idleLast).map (·.frozen) = [false, false] ∧
    (finish { steps := numbered idleLast } idle).1.steps.map (·.frozen) = [true, false] ∧
    ((finish { steps := numbered idleLast } idle).1.finish idle).2 =
      .error (.misuse (.frozenStep .finish 0 "cpu")) :=
  ⟨fun s hs => filledByCalls_of_mem (Or.inr hs), foldlM_addStep idleLast, by rfl, by rfl, by rfl,
    by rfl⟩

end Plan

end NeuralDispatch

import NeuralDispatch.Proofs.DataFlow
import NeuralDispatch.Proofs.Growth
import NeuralDispatch.Proofs.Refusal

/-!
# Plans that are finished after failed attempts

Steps may be added to a plan after an attempt to finish it has failed, and then the next attempt may
succeed.  It can only do so if all the attempts before were refused by the checks, which change
nothing: a plan in which a step has been refused for its model will never be finished, whatever is
added to it.

* `BuiltFrom` — plans that steps are added to, with attempts to finish them in between.
* `Spoiled` — why a plan can not be finished any more.
* `Spoiled.addStep`, `Spoiled.finish` — it stays so.
* `finish_numbered_cases` — what a first attempt can do to a plan.
* `BuiltFrom.exists_steps` — a plan that is finished consists of untouched steps until then.
-/

namespace NeuralDispatch

open Answer Model

/-! ## Second attempts at one step -/

/-- Naming the same inputs and outputs once more makes no difference. -/
theorem Model.identified_twice (m : Model) (inputs outputs : List Nat) (relaxed : Bool) :
    (((m.identified inputs outputs).setRelaxed relaxed).identified inputs outputs).setRelaxed
      relaxed = (m.identified inputs outputs).setRelaxed relaxed := by
  simp only [identified, setRelaxed, relabel, Model.mk.injEq, and_true]
  refine List.ext_getElem? fun i => ?_
  simp only [List.getElem?_mapIdx, Option.map_map]
  cases m.operands[i]? with
  | none => rfl
  | some o =>
    by_cases hin : i ∈ inputs <;> by_cases hout : i ∈ outputs <;> simp [hin, hout]

namespace Step

theorem FilledFrom.filledByCalls {whole : Model} {s : Step} (h : FilledFrom whole s) :
    s.FilledByCalls := by
  obtain ⟨device, calls, rfl⟩ := h
  refine ⟨device, calls.map fun call => (whole, call), ?_⟩
  rw [List.foldl_map]

theorem finished_halted (s : Step) (links : List Link) (relaxed : Bool) :
    (s.halted links relaxed).finished links relaxed = s.finished links relaxed := by
  unfold halted finished
  dsimp only
  rw [Model.identified_twice]

/-- A step that has been refused is refused again, and is left as it is. -/
theorem Untouched.finish_halted {s : Step} (h : Untouched s) {links : List Link}
    (hlinks : ∀ link ∈ links, link.place < s.operands.length) {relaxed : Bool} {fault : ModelError}
    (hfault : (s.finished links relaxed).model.validate = .error fault) :
    (s.halted links relaxed).finish links relaxed =
      (s.halted links relaxed, .error (.invalidModel fault)) := by
  have hlength : (s.halted links relaxed).model.operands.length = s.model.operands.length := by
    simp [halted, finished, identified, setRelaxed]
  have hplaces := h.places
  rw [Step.finish_eq rfl, finished_halted, hfault]
  · rfl
  · intro link hlink
    rw [hlength]
    exact hplaces link (List.mem_append_left _ hlink)
  · intro link hlink
    rw [hlength]
    rcases List.mem_append.1 hlink with hlink | hlink
    · exact hplaces link (List.mem_append_right _ hlink)
    · exact (hlinks link hlink).trans_eq h.length_eq.symm

/-- An attempt changes nothing that the step runs, and thaws nothing. -/
structure Kept (s s' : Step) : Prop where
  operations : s'.operations = s.operations
  model : s'.model.operations = s.model.operations
  frozen : s.frozen = true → s'.frozen = true

theorem kept_finish (s : Step) (links : List Link) (relaxed : Bool) :
    Kept s (s.finish links relaxed).1 := by
  cases hfrozen : s.frozen with
  | true =>
    rw [finish_of_frozen hfrozen]
    exact ⟨rfl, rfl, id⟩
  | false =>
    have hthawed : s.frozen = true → (s.finish links relaxed).1.frozen = true := by
      rw [hfrozen]
      nofun
    suffices h : (s.finish links relaxed).1.operations = s.operations ∧
        (s.finish links relaxed).1.model.operations = s.model.operations from ⟨h.1, h.2, hthawed⟩
    unfold finish
    rw [requireMutable_eq_ok.2 hfrozen]
    have hmodel := s.model.operations_identify
      (({ s with crossOutputs := links } : Step).inputs.map (·.place))
      (({ s with crossOutputs := links } : Step).outputs.map (·.place))
    dsimp only
    split
    · next model e hidentify =>
      rw [hidentify] at hmodel
      exact ⟨rfl, hmodel⟩
    · next model hidentify =>
      rw [hidentify] at hmodel
      split <;> exact ⟨rfl, hmodel⟩

end Step

namespace Plan

open Step

/-- A plan that has been built from steps of a model, with attempts to finish it at any time. -/
inductive BuiltFrom (whole : Model) : Plan → Prop where
  | new : BuiltFrom whole {}
  | addStep {p p' : Plan} {s : Step} (h : BuiltFrom whole p) (hs : FilledFrom whole s)
      (hadd : p.addStep s = .ok p') : BuiltFrom whole p'
  | attempt {p : Plan} (h : BuiltFrom whole p) : BuiltFrom whole (p.finish whole).1

/-- Why a plan that is not finished can not be finished any more. -/
inductive Spoiled (whole : Model) (p : Plan) : Prop where
  /-- An attempt would be a misuse. -/
  | frozen {first : Step} {rest : List Step} (hsteps : p.steps = first :: rest)
      (hfrozen : first.frozen = true)
  /-- Another attempt would end as the last one did. -/
  | stuck {f : Flow} {e : PlanError} (hcheck : p.check whole = .ok f)
      (hfinish : p.finish whole = (p, .error e))
  /-- The model of some step has no operations. -/
  | idle {s : Step} (hs : s ∈ p.steps) (hnone : s.model.operations = [])
  /-- Some operation is run twice. -/
  | crowded (hcrowded : ¬ (p.steps.flatMap (·.operations)).Nodup)

section Spoiled

variable {whole : Model} {p p' : Plan} {s : Step}

theorem kept_finishSteps (relaxed : Bool) (pairs : List (Step × List Link)) :
    List.Forall₂ Kept (pairs.map (·.1)) (finishSteps relaxed pairs).1 := by
  induction pairs with
  | nil => exact .nil
  | cons x rest ih =>
    obtain ⟨s, links⟩ := x
    have hfirst := s.kept_finish links relaxed
    rw [finishSteps]
    split
    · next s' e hfinish =>
      rw [hfinish] at hfirst
      exact .cons hfirst (List.forall₂_same.2 fun t _ => ⟨rfl, rfl, id⟩)
    · next s' hfinish =>
      rw [hfinish] at hfirst
      exact .cons hfirst ih

theorem kept_finish (p : Plan) (whole : Model) :
    List.Forall₂ Kept p.steps (p.finish whole).1.steps := by
  unfold finish
  cases hcheck : p.check whole with
  | error e => exact List.forall₂_same.2 fun s _ => ⟨rfl, rfl, id⟩
  | ok f =>
    have hkept := kept_finishSteps whole.relaxed (p.steps.zip f.crossOutputs)
    rw [map_fst_of_check hcheck] at hkept
    dsimp only
    split
    · next steps e heq =>
      rw [heq] at hkept
      exact hkept
    · next steps heq =>
      rw [heq] at hkept
      exact hkept

theorem Spoiled.addStep (h : Spoiled whole p) (hs : FilledFrom whole s)
    (hadd : p.addStep s = .ok p') : Spoiled whole p' := by
  unfold Plan.addStep at hadd
  split at hadd
  · cases hadd
  obtain rfl := Except.ok.inj hadd
  cases h with
  | @frozen first rest hsteps hfrozen =>
    have hmore : p.steps ++ [{ s with index := p.steps.length }] =
        first :: (rest ++ [{ s with index := p.steps.length }]) := by
      rw [hsteps]
      rfl
    exact .frozen hmore hfrozen
  | stuck hcheck hfinish =>
    -- all operations are run already, so that the new step has none or runs one twice
    cases hoperations : s.operations with
    | nil =>
      have htranslated := hs.filled.translated
      rw [hoperations] at htranslated
      refine .idle (List.mem_append_right _ (List.mem_singleton_self _)) ?_
      exact List.forall₂_nil_left_iff.1 htranslated
    | cons i rest =>
      have hall := (check_eq_ok.1 hcheck).2.1
      have htranslated := hs.filled.translated
      rw [hoperations] at htranslated
      obtain ⟨op, ops, ⟨source, hsource, -⟩, -, -⟩ := List.forall₂_cons_left_iff.1 htranslated
      have hrun : i ∈ p.steps.flatMap (·.operations) :=
        hall.mem_iff.2 (List.mem_range.2 (List.getElem?_eq_some_iff.1 hsource).1)
      refine .crowded fun hnodup => ?_
      rw [List.flatMap_append] at hnodup
      exact List.disjoint_of_nodup_append hnodup hrun (by simp)
  | idle ht hnone => exact .idle (List.mem_append_left _ ht) hnone
  | crowded hcrowded =>
    refine .crowded fun hnodup => hcrowded ?_
    rw [List.flatMap_append] at hnodup
    exact hnodup.of_append_left

theorem Spoiled.finish_ne_ok (h : Spoiled whole p) : (p.finish whole).2 ≠ .ok () := by
  intro hok
  obtain ⟨hopen, hall, f, hflow, hfinished, -⟩ := finish_eq_ok.1 (Prod.ext rfl hok)
  have hcheck := check_eq_ok.2 ⟨hopen, hall, hflow⟩
  cases h with
  | frozen hsteps hfrozen =>
    rw [finish_of_frozen hsteps hfrozen hcheck] at hok
    cases hok
  | stuck _ hfinish =>
    rw [hfinish] at hok
    cases hok
  | @idle s hs hnone =>
    rw [← map_fst_of_check hcheck] at hs
    obtain ⟨⟨s, links⟩, hpair, rfl⟩ := List.mem_map.1 hs
    obtain ⟨-, -, -, -, hvalid⟩ := Step.finish_eq_ok.1 (finish_of_snd (hfinished _ hpair))
    exact hvalid.operations_ne hnone
  | crowded hcrowded => exact hcrowded (hall.nodup_iff.2 List.nodup_range)

theorem Spoiled.finish (h : Spoiled whole p) : Spoiled whole (p.finish whole).1 := by
  have hkept := kept_finish p whole
  cases h with
  | @frozen first rest hsteps hfrozen =>
    rw [hsteps] at hkept
    obtain ⟨first', rest', hfirst, -, hsteps'⟩ := List.forall₂_cons_left_iff.1 hkept
    exact .frozen hsteps' (hfirst.frozen hfrozen)
  | stuck hcheck hfinish =>
    rw [hfinish]
    exact .stuck hcheck hfinish
  | @idle s hs hnone =>
    obtain ⟨i, hi, rfl⟩ := List.getElem_of_mem hs
    have hi' : i < (p.finish whole).1.steps.length := hkept.length_eq ▸ hi
    exact .idle (List.getElem_mem hi') ((hkept.get hi hi').model.trans hnone)
  | crowded hcrowded =>
    have hsame : (p.finish whole).1.steps.flatMap (·.operations) =
        p.steps.flatMap (·.operations) :=
      flatMap_eq_of_forall₂ (hkept.flip.imp fun s' s h => h.operations)
    exact .crowded (hsame ▸ hcrowded)

/-- A plan whose first step was refused will be refused again, and is left as it is. -/
theorem Halts.finish_eq {refused : Step × List Link} {after : List (Step × List Link)}
    {fault : ModelError} (h : Halts p whole [] refused after fault p')
    (huntouched : ∀ s ∈ p.steps, s.Untouched) :
    p'.finish whole = (p', .error (.invalidModel fault)) := by
  obtain ⟨f, hcheck, hzip⟩ := h.checked
  have hsteps' : p'.steps = refused.1.halted refused.2 whole.relaxed :: after.map (·.1) :=
    congrArg Plan.steps h.left
  have hlinks : f.crossOutputs = refused.2 :: after.map (·.2) := by
    have hsecond := List.map_snd_zip (Nat.le_of_eq (length_of_check hcheck))
    rw [hzip] at hsecond
    exact hsecond.symm
  have hagain : (refused.1.halted refused.2 whole.relaxed).finish refused.2 whole.relaxed =
      (refused.1.halted refused.2 whole.relaxed, .error (.invalidModel fault)) := by
    have hmem : refused ∈ p.steps.zip f.crossOutputs := by
      rw [hzip]
      exact List.mem_cons_self
    have hs := huntouched refused.1 (List.of_mem_zip hmem).1
    exact hs.finish_halted (places_of_check hcheck hmem) h.invalid
  have hafter : ((after.map (·.1)).zip (after.map (·.2))).map (·.1) = after.map (·.1) :=
    List.map_fst_zip (by simp)
  unfold finish
  rw [h.check_eq, hcheck]
  dsimp only
  rw [hsteps', hlinks, List.zip_cons_cons, finishSteps, hagain]
  dsimp only
  rw [hafter, ← hsteps']

/-- The first attempt finishes a plan, changes nothing or spoils the plan. -/
theorem finish_numbered_cases {steps : List Step} (hsteps : ∀ s ∈ steps, s.FilledByCalls) :
    (finish { steps := numbered steps } whole).1.finished = true ∨
      Spoiled whole (finish { steps := numbered steps } whole).1 ∨
      (finish { steps := numbered steps } whole).1 = { steps := numbered steps } := by
  have huntouched := untouched_numbered hsteps
  cases hfinish : finish { steps := numbered steps } whole with
  | mk p' answer =>
    cases answer with
    | ok _ =>
      obtain ⟨-, -, f, -, -, rfl⟩ := finish_eq_ok.1 hfinish
      exact .inl rfl
    | error e =>
      rcases halts_of_finish huntouched hfinish with
        ⟨-, rfl⟩ | ⟨before, refused, after, fault, halts, rfl⟩
      · exact .inr (.inr rfl)
      · right
        left
        cases before with
        | nil =>
          obtain ⟨f, hcheck, -⟩ := halts.checked
          exact .stuck (halts.check_eq whole ▸ hcheck) (halts.finish_eq huntouched)
        | cons x others => exact .frozen (congrArg Plan.steps halts.left) rfl

/-- What a plan can be like at any time. -/
theorem BuiltFrom.cases (h : BuiltFrom whole p) :
    p.finished = true ∨ Spoiled whole p ∨
      ∃ steps, (∀ s ∈ steps, FilledFrom whole s) ∧ p = { steps := numbered steps } := by
  induction h with
  | new => exact .inr (.inr ⟨[], by simp, rfl⟩)
  | @addStep p p' s _ hs hadd ih =>
    rcases ih with hfinished | hspoiled | ⟨steps, hsteps, rfl⟩
    · rw [Plan.addStep, if_pos hfinished] at hadd
      cases hadd
    · exact .inr (.inl (hspoiled.addStep hs hadd))
    · have hmore := foldlM_addStep_append steps [s]
      rw [List.foldlM_cons, hadd] at hmore
      refine .inr (.inr ⟨steps ++ [s], ?_, Except.ok.inj hmore⟩)
      rw [List.forall_mem_append]
      exact ⟨hsteps, by simpa using hs⟩
  | @attempt p _ ih =>
    rcases ih with hfinished | hspoiled | ⟨steps, hsteps, rfl⟩
    · have hrefused : p.check whole = .error (.invalidPlan .alreadyFinished) := by
        rw [check, if_pos hfinished]
        rfl
      left
      rw [Plan.finish, hrefused]
      exact hfinished
    · exact .inr (.inl hspoiled.finish)
    · rcases finish_numbered_cases fun s hs => (hsteps s hs).filledByCalls with
        hfinished | hspoiled | hsame
      · exact .inl hfinished
      · exact .inr (.inl hspoiled)
      · exact .inr (.inr ⟨steps, hsteps, hsame⟩)

/-- A plan is finished with the steps as they were filled, although there may have been attempts
before. -/
theorem BuiltFrom.exists_steps (h : BuiltFrom whole p) (hfinish : p.finish whole = (p', .ok ())) :
    ∃ steps, (∀ s ∈ steps, FilledFrom whole s) ∧ p = { steps := numbered steps } := by
  rcases h.cases with hfinished | hspoiled | hfresh
  · have hunfinished := (finish_eq_ok.1 hfinish).1
    rw [hfinished] at hunfinished
    cases hunfinished
  · exact absurd (congrArg Prod.snd hfinish) hspoiled.finish_ne_ok
  · exact hfresh

end Spoiled

end Plan

end NeuralDispatch

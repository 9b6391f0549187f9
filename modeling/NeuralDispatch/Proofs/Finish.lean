import NeuralDispatch.Proofs.Steps

/-!
# Finishing a plan

What the checks of a plan accept, what is gathered of the data that passes between its steps, and
what the finished plan is made of.

* `checkCoverage_eq_ok` — the steps hold the operations of the model, each of them once.
* `producer?_eq_some_iff_last` — the producer of an operand is the last step that writes it.
* `Flow.Tracks` — the invariant of the pass over everything that steps read of each other.
* `finish_eq_ok` — a plan is finished when its steps cover the model, the data can flow, and each
  step has a well-formed model.
-/

namespace NeuralDispatch.Plan

open Answer Model Step

/-! ## Numbering -/

/-- The steps with their positions. -/
def numbered (steps : List Step) : List Step := steps.mapIdx fun index s => { s with index }

theorem foldlM_addStep_append (steps more : List Step) :
    more.foldlM addStep { steps := numbered steps } =
      .ok { steps := numbered (steps ++ more) } := by
  induction more generalizing steps with
  | nil => rw [List.append_nil]; rfl
  | cons s rest ih =>
    have hadd : addStep { steps := numbered steps } s =
        .ok { steps := numbered (steps ++ [s]) } := by
      simp [addStep, numbered, List.mapIdx_append]
    rw [List.foldlM_cons, hadd, ok_bind, ih, List.append_assoc, List.singleton_append]

/-- Adding steps to an empty plan numbers them. -/
theorem foldlM_addStep (steps : List Step) :
    steps.foldlM addStep {} = .ok { steps := numbered steps } := foldlM_addStep_append [] steps

theorem getElem?_numbered {steps : List Step} {c : Nat} {s : Step}
    (h : (numbered steps)[c]? = some s) :
    s.index = c ∧ ∃ t, steps[c]? = some t ∧ s = { t with index := c } := by
  rw [numbered, List.getElem?_mapIdx] at h
  obtain ⟨t, ht, rfl⟩ := Option.map_eq_some_iff.1 h
  exact ⟨rfl, t, ht, rfl⟩

/-! ## Coverage -/

theorem checkCoverage_eq_ok {steps : List Step} {whole : Model} :
    checkCoverage steps whole = .ok () ↔
      (steps.flatMap (·.operations)).Perm (List.range whole.operations.length) := by
  have hguard : ∀ (p : Prop) [Decidable p] (e : PlanError),
      (if p then pure () else throw e : Except PlanError Unit) = .ok () ↔ p := fun p _ e => by
    split <;> simp [*]
  simp only [checkCoverage, bind_eq_ok, forM_eq_ok, hguard, List.mem_range]
  constructor
  · rintro ⟨-, hknown, honce⟩
    refine List.perm_iff_count.2 fun i => ?_
    by_cases hi : i < whole.operations.length
    · rw [honce i hi, List.count_eq_one_of_mem List.nodup_range (List.mem_range.2 hi)]
    · rw [List.count_eq_zero.2 fun hmem => hi (List.mem_range.1 hmem)]
      refine List.count_eq_zero.2 fun hmem => ?_
      obtain ⟨s, hs, hmem⟩ := List.mem_flatMap.1 hmem
      exact hi (hknown s hs i hmem)
  · intro hperm
    refine ⟨(), fun s hs i hi => ?_, fun i hi => ?_⟩
    · exact List.mem_range.1 (hperm.mem_iff.1 (List.mem_flatMap.2 ⟨s, hs, hi⟩))
    · rw [hperm.count_eq]
      exact List.count_eq_one_of_mem List.nodup_range (List.mem_range.2 hi)

/-! ## Which step computes an operand -/

/-- The step that computes an operand, by the table of the steps. -/
def producer? (steps : List Step) (whole : Model) (o : Nat) : Option Nat :=
  producingStep? (computedBySteps steps whole) o

/-- The steps that write an operand. -/
def writers (whole : Model) (steps : List Step) (o : Nat) : List Step :=
  steps.filter fun s => (computed whole s).contains o

theorem mem_writers {whole : Model} {steps : List Step} {o : Nat} {s : Step} :
    s ∈ writers whole steps o ↔ s ∈ steps ∧ o ∈ computed whole s := by
  rw [writers, List.mem_filter, List.contains_iff_mem]

section Last

variable {steps : List Step} {whole : Model} {o : Nat}

/-- The producer of an operand is the index of its last writer. -/
theorem producer?_eq_getLast? :
    producer? steps whole o = (writers whole steps o).getLast?.map (·.index) := by
  rw [producer?, producingStep?, computedBySteps, List.filter_map, List.getLast?_map,
    Option.map_map]
  rfl

theorem pairwise_index (hnumbered : ∀ (c : Nat) s, steps[c]? = some s → s.index = c) :
    steps.Pairwise fun s t => s.index < t.index := by
  rw [List.pairwise_iff_getElem]
  intro i j hi hj hlt
  rw [hnumbered i _ (List.getElem?_eq_getElem hi), hnumbered j _ (List.getElem?_eq_getElem hj)]
  exact hlt

theorem index_le_of_last (hnumbered : ∀ (c : Nat) s, steps[c]? = some s → s.index = c)
    {t u : Step} (hlast : (writers whole steps o).getLast? = some t)
    (hu : u ∈ writers whole steps o) : u.index ≤ t.index := by
  obtain ⟨before, hbefore⟩ := List.getLast?_eq_some_iff.1 hlast
  have hordered : (before ++ [t]).Pairwise fun s t => s.index < t.index :=
    hbefore ▸ (pairwise_index hnumbered).filter _
  rw [hbefore] at hu
  rcases List.mem_append.1 hu with hu | hu
  · exact Nat.le_of_lt ((List.pairwise_append.1 hordered).2.2 u hu t (List.mem_singleton_self t))
  · rw [List.mem_singleton.1 hu]

/-- The producer of an operand is the last step that writes it. -/
theorem producer?_eq_some_iff_last (hnumbered : ∀ (c : Nat) s, steps[c]? = some s → s.index = c)
    {q : Nat} :
    producer? steps whole o = some q ↔
      (∃ t, steps[q]? = some t ∧ o ∈ computed whole t) ∧
        ∀ (r : Nat) u, steps[r]? = some u → o ∈ computed whole u → r ≤ q := by
  have hposition : ∀ s ∈ steps, steps[s.index]? = some s := by
    intro s hs
    obtain ⟨c, hc⟩ := List.mem_iff_getElem?.1 hs
    rw [hnumbered c s hc]
    exact hc
  have hwriter : ∀ (r : Nat) u, steps[r]? = some u → o ∈ computed whole u →
      u ∈ writers whole steps o := fun r u hu hou =>
    mem_writers.2 ⟨List.mem_of_getElem? hu, hou⟩
  rw [producer?_eq_getLast?, Option.map_eq_some_iff]
  constructor
  · rintro ⟨t, hlast, rfl⟩
    obtain ⟨ht, hot⟩ := mem_writers.1 (List.mem_of_getLast? hlast)
    refine ⟨⟨t, hposition t ht, hot⟩, fun r u hu hou => ?_⟩
    rw [← hnumbered r u hu]
    exact index_le_of_last hnumbered hlast (hwriter r u hu hou)
  · rintro ⟨⟨t, ht, hot⟩, hmax⟩
    have hmem := hwriter q t ht hot
    obtain ⟨u, hlast⟩ := Option.isSome_iff_exists.1
      (List.getLast?_isSome.2 (List.ne_nil_of_mem hmem))
    obtain ⟨hu, hou⟩ := mem_writers.1 (List.mem_of_getLast? hlast)
    have hle : q ≤ u.index := hnumbered q t ht ▸ index_le_of_last hnumbered hlast hmem
    exact ⟨u, hlast, Nat.le_antisymm (hmax u.index u (hposition u hu) hou) hle⟩

end Last

/-- Steps that share nothing: every operation is held once, and every operand written once. -/
structure Separate (steps : List Step) (whole : Model) : Prop where
  numbered : ∀ (c : Nat) s, steps[c]? = some s → s.index = c
  once : (steps.flatMap (·.operations)).Nodup
  single : whole.written.Nodup

section Separate

variable {steps : List Step} {whole : Model}

theorem Separate.step_unique (h : Separate steps whole) {c c' o : Nat} {s s' : Step}
    (hs : steps[c]? = some s) (hs' : steps[c']? = some s') (ho : o ∈ computed whole s)
    (ho' : o ∈ computed whole s') : c = c' := by
  obtain ⟨i, hi, a, ha, hoa⟩ := mem_computed.1 ho
  obtain ⟨j, hj, b, hb, hob⟩ := mem_computed.1 ho'
  obtain rfl := writer_unique h.single ha hb hoa hob
  exact position_unique h.once hs hs' hi hj

/-- The step that computes an operand is where its writer is. -/
theorem Separate.producer?_eq_some_iff (h : Separate steps whole) {o p : Nat} :
    producer? steps whole o = some p ↔ ∃ s, steps[p]? = some s ∧ o ∈ computed whole s := by
  rw [producer?_eq_some_iff_last h.numbered, and_iff_left_iff_imp]
  rintro ⟨s, hs, ho⟩ r u hu hou
  exact Nat.le_of_eq (h.step_unique hu hs hou ho)

end Separate

/-! ## The data that passes between steps -/

/-- What steps read of each other: the step that reads and the operand. -/
def reads (steps : List Step) : List (Nat × Nat) :=
  steps.flatMap fun s => s.crossInputs.map fun link => (s.index, link.operand)

theorem mem_reads {steps : List Step} {c o : Nat} :
    (c, o) ∈ reads steps ↔
      ∃ s ∈ steps, s.index = c ∧ o ∈ s.crossInputs.map (·.operand) := by
  simp only [reads, List.mem_flatMap, List.mem_map, Prod.mk.injEq]
  constructor
  · rintro ⟨s, hs, link, hlink, rfl, rfl⟩
    exact ⟨s, hs, rfl, link, hlink, rfl⟩
  · rintro ⟨s, hs, rfl, link, hlink, rfl⟩
    exact ⟨s, hs, link, hlink, rfl, rfl⟩

/-- Whether what a step hands on has a place there. -/
def Placed (steps : List Step) (p : Nat) (link : Link) : Prop :=
  ∃ s, steps[p]? = some s ∧ s.place? link.operand = some link.place

theorem Flow.add_eq_ok {steps : List Step} {whole : Model} {flow flow' : Flow} {c o : Nat} :
    Flow.add steps whole (computedBySteps steps whole) flow (c, o) = .ok flow' ↔
      ∃ p operand, producer? steps whole o = some p ∧ p < c ∧ whole.operands[o]? = some operand ∧
        flow'.dependencies = flow.dependencies ++ [(p, c)] ∧
        (flow'.crossOutputs = flow.crossOutputs ∧ (operand.lifetime ≠ .temporary ∨
          o ∈ (flow.crossOutputs.getD p []).map (·.operand)) ∨
        operand.lifetime = .temporary ∧ o ∉ (flow.crossOutputs.getD p []).map (·.operand) ∧
          ∃ place, Placed steps p ⟨o, place⟩ ∧
            flow'.crossOutputs =
              flow.crossOutputs.set p (flow.crossOutputs.getD p [] ++ [⟨o, place⟩])) := by
  have hany : ∀ links : List Link,
      links.any (·.operand == o) = true ↔ o ∈ links.map (·.operand) := fun links => by
    simp
  have hplaced : ∀ p place, steps[p]?.bind (·.place? o) = some place ↔
      Placed steps p ⟨o, place⟩ := fun p place => Option.bind_eq_some_iff
  constructor
  · intro h
    rw [Flow.add] at h
    dsimp only at h
    split at h
    · next p hp =>
      split at h
      · exact absurd h (by simp)
      · next hlt =>
        obtain ⟨operand, hoperand, h⟩ := bind_eq_ok.1 h
        have hoperand := operand_eq_ok.1 (mapError_eq_ok.1 hoperand)
        refine ⟨p, operand, hp, Nat.lt_of_not_le hlt, hoperand, ?_⟩
        split at h
        · next hkept =>
          obtain rfl := pure_eq_ok.1 h
          refine ⟨rfl, Or.inl ⟨rfl, ?_⟩⟩
          simpa only [Bool.or_eq_true, decide_eq_true_eq, hany] using hkept
        · next hnew =>
          simp only [Bool.or_eq_true, decide_eq_true_eq, hany, not_or, not_not] at hnew
          split at h
          · next place hplace =>
            obtain rfl := pure_eq_ok.1 h
            exact ⟨rfl, Or.inr ⟨hnew.1, hnew.2, place, (hplaced p place).1 hplace, rfl⟩⟩
          · exact absurd h (by simp)
    · exact absurd h (by simp)
  · rintro ⟨p, operand, hp, hlt, hoperand, hdependencies, h⟩
    have hknown : PlanError.ofModel (whole.operand o) = .ok operand :=
      mapError_eq_ok.2 (operand_eq_ok.2 hoperand)
    rw [Flow.add]
    dsimp only
    rw [show producingStep? (computedBySteps steps whole) o = some p from hp]
    dsimp only
    rw [if_neg (Nat.not_le_of_lt hlt), hknown, ok_bind]
    rcases h with ⟨hsame, hkept⟩ | ⟨htemporary, hnew, place, hplace, hset⟩
    · rw [if_pos (by simpa only [Bool.or_eq_true, decide_eq_true_eq, hany] using hkept), pure_eq_ok,
        ← hdependencies, ← hsame]
    · rw [if_neg (by
        simpa only [Bool.or_eq_true, decide_eq_true_eq, hany, not_or, not_not] using
          ⟨htemporary, hnew⟩), (hplaced p place).2 hplace]
      dsimp only
      rw [pure_eq_ok, ← hdependencies, ← hset]

/-- What holds of the flow once the reads in `handled` have been taken into account. -/
structure Flow.Tracks (steps : List Step) (whole : Model) (handled : List (Nat × Nat))
    (flow : Flow) : Prop where
  length_eq : flow.crossOutputs.length = steps.length
  produced : ∀ c o, (c, o) ∈ handled → ∃ p, producer? steps whole o = some p ∧ p < c
  dependencies : ∀ p c, (p, c) ∈ flow.dependencies ↔
    ∃ o, (c, o) ∈ handled ∧ producer? steps whole o = some p
  nodup : ∀ links ∈ flow.crossOutputs, (links.map (·.operand)).Nodup
  /-- Only temporaries that a later step reads are handed on, by the step that computes them. -/
  handed : ∀ p links, flow.crossOutputs[p]? = some links → ∀ link ∈ links,
    Placed steps p link ∧ (∃ c, (c, link.operand) ∈ handled) ∧
      producer? steps whole link.operand = some p ∧
      ∃ operand, whole.operands[link.operand]? = some operand ∧ operand.lifetime = .temporary
  /-- All of them are. -/
  complete : ∀ c o p operand, (c, o) ∈ handled → producer? steps whole o = some p →
    whole.operands[o]? = some operand → operand.lifetime = .temporary →
    ∃ links, flow.crossOutputs[p]? = some links ∧ o ∈ links.map (·.operand)

theorem Flow.tracks_initial (steps : List Step) (whole : Model) :
    Flow.Tracks steps whole [] { crossOutputs := steps.map fun _ => [] } where
  length_eq := List.length_map _
  produced := by simp
  dependencies := by simp
  nodup := by simp
  handed := by
    intro p links hlinks
    rw [List.getElem?_map] at hlinks
    obtain ⟨-, -, rfl⟩ := Option.map_eq_some_iff.1 hlinks
    simp
  complete := by simp

section Add

variable {steps : List Step} {whole : Model} {handled : List (Nat × Nat)} {flow flow' : Flow}
  {c o p : Nat} {operand : Operand}

theorem Flow.Tracks.produced_concat (h : Flow.Tracks steps whole handled flow)
    (hp : producer? steps whole o = some p) (hlt : p < c) (c' o' : Nat)
    (hmem : (c', o') ∈ handled ++ [(c, o)]) : ∃ p, producer? steps whole o' = some p ∧ p < c' := by
  rcases List.mem_append.1 hmem with hmem | hmem
  · exact h.produced c' o' hmem
  · obtain ⟨rfl, rfl⟩ := Prod.mk.inj (List.mem_singleton.1 hmem)
    exact ⟨p, hp, hlt⟩

theorem Flow.Tracks.dependencies_concat (h : Flow.Tracks steps whole handled flow)
    (hp : producer? steps whole o = some p)
    (hdependencies : flow'.dependencies = flow.dependencies ++ [(p, c)]) (p' c' : Nat) :
    (p', c') ∈ flow'.dependencies ↔
      ∃ o', (c', o') ∈ handled ++ [(c, o)] ∧ producer? steps whole o' = some p' := by
  rw [hdependencies, List.mem_append, h.dependencies, List.mem_singleton]
  constructor
  · rintro (⟨o', hmem, hp'⟩ | heq)
    · exact ⟨o', List.mem_append_left _ hmem, hp'⟩
    · obtain ⟨rfl, rfl⟩ := Prod.mk.inj heq
      exact ⟨o, by simp, hp⟩
  · rintro ⟨o', hmem, hp'⟩
    rcases List.mem_append.1 hmem with hmem | hmem
    · exact Or.inl ⟨o', hmem, hp'⟩
    · obtain ⟨rfl, rfl⟩ := Prod.mk.inj (List.mem_singleton.1 hmem)
      exact Or.inr (by rw [Option.some.inj (hp'.symm.trans hp)])

theorem Flow.Tracks.handed_concat (h : Flow.Tracks steps whole handled flow) {q : Nat}
    {links : List Link} (hlinks : flow.crossOutputs[q]? = some links) {link : Link}
    (hlink : link ∈ links) :
    Placed steps q link ∧ (∃ c', (c', link.operand) ∈ handled ++ [(c, o)]) ∧
      producer? steps whole link.operand = some q ∧
      ∃ operand, whole.operands[link.operand]? = some operand ∧ operand.lifetime = .temporary := by
  obtain ⟨hplaced, ⟨c', hmem⟩, hrest⟩ := h.handed q links hlinks link hlink
  exact ⟨hplaced, ⟨c', List.mem_append_left _ hmem⟩, hrest⟩

/-- A read after which nothing new is handed on. -/
theorem Flow.Tracks.keep (h : Flow.Tracks steps whole handled flow)
    (hp : producer? steps whole o = some p) (hlt : p < c)
    (hoperand : whole.operands[o]? = some operand)
    (hdependencies : flow'.dependencies = flow.dependencies ++ [(p, c)])
    (hsame : flow'.crossOutputs = flow.crossOutputs)
    (hkept : operand.lifetime ≠ .temporary ∨
      o ∈ (flow.crossOutputs.getD p []).map (·.operand)) :
    Flow.Tracks steps whole (handled ++ [(c, o)]) flow' := by
  refine ⟨hsame ▸ h.length_eq, h.produced_concat hp hlt,
    h.dependencies_concat hp hdependencies, hsame ▸ h.nodup, ?_, ?_⟩
  · intro q links hlinks link hlink
    rw [hsame] at hlinks
    exact h.handed_concat hlinks hlink
  · intro c' o' p' operand' hmem hp' hoperand' htemporary
    rw [hsame]
    rcases List.mem_append.1 hmem with hmem | hmem
    · exact h.complete c' o' p' operand' hmem hp' hoperand' htemporary
    · obtain ⟨rfl, rfl⟩ := Prod.mk.inj (List.mem_singleton.1 hmem)
      obtain rfl := Option.some.inj (hp.symm.trans hp')
      obtain rfl := Option.some.inj (hoperand.symm.trans hoperand')
      have hlisted := hkept.resolve_left (not_not.2 htemporary)
      rw [List.getD_eq_getElem?_getD] at hlisted
      cases hlinks : flow.crossOutputs[p]? with
      | none => simp [hlinks] at hlisted
      | some links => exact ⟨links, rfl, by simpa [hlinks] using hlisted⟩

/-- A read after which an operand joins what its producer hands on. -/
theorem Flow.Tracks.hand (h : Flow.Tracks steps whole handled flow)
    (hp : producer? steps whole o = some p) (hlt : p < c)
    (hoperand : whole.operands[o]? = some operand) (htemporary : operand.lifetime = .temporary)
    (hdependencies : flow'.dependencies = flow.dependencies ++ [(p, c)]) {links₀ : List Link}
    (hlinks₀ : flow.crossOutputs[p]? = some links₀) (hnew : o ∉ links₀.map (·.operand))
    {place : Nat} (hplace : Placed steps p ⟨o, place⟩)
    (hset : flow'.crossOutputs = flow.crossOutputs.set p (links₀ ++ [⟨o, place⟩])) :
    Flow.Tracks steps whole (handled ++ [(c, o)]) flow' := by
  have hget : ∀ q links, flow'.crossOutputs[q]? = some links →
      q = p ∧ links = links₀ ++ [⟨o, place⟩] ∨ q ≠ p ∧ flow.crossOutputs[q]? = some links := by
    intro q links hq
    rw [hset, List.getElem?_set] at hq
    split at hq
    · next heq =>
      rw [if_pos (List.getElem?_eq_some_iff.1 hlinks₀).1] at hq
      exact Or.inl ⟨heq.symm, (Option.some.inj hq).symm⟩
    · next hne => exact Or.inr ⟨Ne.symm hne, hq⟩
  have hset_p : flow'.crossOutputs[p]? = some (links₀ ++ [⟨o, place⟩]) := by
    rw [hset, List.getElem?_set_self (List.getElem?_eq_some_iff.1 hlinks₀).1]
  refine ⟨?_, h.produced_concat hp hlt, h.dependencies_concat hp hdependencies, ?_, ?_, ?_⟩
  · rw [hset, List.length_set, h.length_eq]
  · intro links hmem
    obtain ⟨q, hq⟩ := List.mem_iff_getElem?.1 hmem
    rcases hget q links hq with ⟨rfl, rfl⟩ | ⟨-, hold⟩
    · rw [List.map_append, List.map_singleton, ← List.concat_eq_append]
      exact List.Nodup.concat hnew (h.nodup links₀ (List.mem_of_getElem? hlinks₀))
    · exact h.nodup links (List.mem_of_getElem? hold)
  · intro q links hq link hlink
    rcases hget q links hq with ⟨rfl, rfl⟩ | ⟨-, hold⟩
    · rcases List.mem_append.1 hlink with hlink | hlink
      · exact h.handed_concat hlinks₀ hlink
      · obtain rfl := List.mem_singleton.1 hlink
        exact ⟨hplace, ⟨c, by simp⟩, hp, operand, hoperand, htemporary⟩
    · exact h.handed_concat hold hlink
  · intro c' o' p' operand' hmem hp' hoperand' htemporary'
    rcases List.mem_append.1 hmem with hmem | hmem
    · obtain ⟨links, hlinks, hlisted⟩ :=
        h.complete c' o' p' operand' hmem hp' hoperand' htemporary'
      by_cases hpp : p' = p
      · subst hpp
        obtain rfl := Option.some.inj (hlinks₀.symm.trans hlinks)
        exact ⟨_, hset_p, by rw [List.map_append]; exact List.mem_append_left _ hlisted⟩
      · refine ⟨links, ?_, hlisted⟩
        rw [hset, List.getElem?_set_ne (Ne.symm hpp)]
        exact hlinks
    · obtain ⟨rfl, rfl⟩ := Prod.mk.inj (List.mem_singleton.1 hmem)
      obtain rfl := Option.some.inj (hp.symm.trans hp')
      exact ⟨_, hset_p, by simp⟩

theorem Flow.Tracks.add (h : Flow.Tracks steps whole handled flow)
    (hadd : Flow.add steps whole (computedBySteps steps whole) flow (c, o) = .ok flow') :
    Flow.Tracks steps whole (handled ++ [(c, o)]) flow' := by
  obtain ⟨p, operand, hp, hlt, hoperand, hdependencies, hcross⟩ := Flow.add_eq_ok.1 hadd
  rcases hcross with ⟨hsame, hkept⟩ | ⟨htemporary, hnew, place, hplace, hset⟩
  · exact h.keep hp hlt hoperand hdependencies hsame hkept
  · have hplt : p < flow.crossOutputs.length := by
      obtain ⟨s, hs, -⟩ := hplace
      rw [h.length_eq]
      exact (List.getElem?_eq_some_iff.1 hs).1
    have hlinks := List.getElem?_eq_getElem hplt
    rw [List.getD_eq_getElem?_getD, hlinks, Option.getD_some] at hnew hset
    exact h.hand hp hlt hoperand htemporary hdependencies hlinks hnew hplace hset

end Add

theorem Flow.Tracks.foldlM {steps : List Step} {whole : Model} {more handled : List (Nat × Nat)}
    {flow flow' : Flow} (h : Flow.Tracks steps whole handled flow)
    (hfold : more.foldlM (Flow.add steps whole (computedBySteps steps whole)) flow = .ok flow') :
    Flow.Tracks steps whole (handled ++ more) flow' := by
  induction more generalizing handled flow with
  | nil =>
    rw [List.foldlM_nil, pure_eq_ok] at hfold
    rw [List.append_nil, ← hfold]
    exact h
  | cons read rest ih =>
    rw [List.foldlM_cons, bind_eq_ok] at hfold
    obtain ⟨next, hadd, hrest⟩ := hfold
    have hall := ih (h.add hadd) hrest
    rwa [List.append_assoc, List.singleton_append] at hall

/-- What is gathered of the data that passes between steps. -/
theorem tracks_of_flow {steps : List Step} {whole : Model} {f : Flow}
    (h : flow steps whole = .ok f) : Flow.Tracks steps whole (reads steps) f :=
  (Flow.tracks_initial steps whole).foldlM h

/-! ## The finished plan -/

theorem finishSteps_eq_ok {relaxed : Bool} {pairs : List (Step × List Link)} {steps : List Step} :
    finishSteps relaxed pairs = (steps, .ok ()) ↔
      (∀ e ∈ pairs, (e.1.finish e.2 relaxed).2 = .ok ()) ∧
        steps = pairs.map fun e => e.1.finished e.2 relaxed := by
  induction pairs generalizing steps with
  | nil => simp [finishSteps, eq_comm]
  | cons e rest ih =>
    obtain ⟨s, crossOutputs⟩ := e
    rw [finishSteps, List.forall_mem_cons, List.map_cons]
    split
    · next s' e' hfinish => simp [hfinish]
    · next s' hfinish =>
      obtain ⟨-, -, -, rfl, -⟩ := Step.finish_eq_ok.1 hfinish
      rw [hfinish]
      cases hrest : finishSteps relaxed rest with
      | mk tail answer =>
        cases answer with
        | ok u =>
          obtain ⟨hall, rfl⟩ := ih.1 hrest
          simp only [Prod.mk.injEq, and_true, true_and, eq_comm (a := steps), iff_and_self]
          exact fun _ => hall
        | error e' =>
          simp only [Prod.mk.injEq, reduceCtorEq, and_false, true_and, false_iff, not_and]
          intro hall
          have := ih.2 ⟨hall, rfl⟩
          rw [hrest] at this
          cases this

/-- Steps that are all refused for one reason, if at all. -/
theorem finishSteps_error {relaxed : Bool} {pairs : List (Step × List Link)} {e : PlanError}
    (hall : ∀ x ∈ pairs, (x.1.finish x.2 relaxed).2 = .ok () ∨
      (x.1.finish x.2 relaxed).2 = .error e)
    (h : ∃ x ∈ pairs, (x.1.finish x.2 relaxed).2 = .error e) :
    (finishSteps relaxed pairs).2 = .error e := by
  induction pairs with
  | nil => obtain ⟨x, hx, -⟩ := h; exact absurd hx List.not_mem_nil
  | cons x rest ih =>
    obtain ⟨s, crossOutputs⟩ := x
    obtain ⟨hfirst, hrest⟩ := List.forall_mem_cons.1 hall
    rw [finishSteps]
    split
    · next s' e' hfinish =>
      rw [hfinish] at hfirst
      exact hfirst.resolve_left (by simp)
    · next s' hfinish =>
      refine ih hrest ?_
      obtain ⟨y, hy, herror⟩ := h
      rcases List.mem_cons.1 hy with rfl | hy
      · rw [hfinish] at herror
        cases herror
      · exact ⟨y, hy, herror⟩

/-- A step that is finished well is the finished step. -/
theorem finish_of_snd {s : Step} {crossOutputs : List Link} {relaxed : Bool}
    (h : (s.finish crossOutputs relaxed).2 = .ok ()) :
    s.finish crossOutputs relaxed = (s.finished crossOutputs relaxed, .ok ()) := by
  have heq : s.finish crossOutputs relaxed = ((s.finish crossOutputs relaxed).1, .ok ()) :=
    Prod.ext rfl h
  obtain ⟨-, -, -, hs, -⟩ := Step.finish_eq_ok.1 heq
  rw [heq, hs]

/-- The plan that steps make up, given the data that passes between them. -/
def assembled (whole : Model) (steps : List Step) (flow : Flow) : Plan where
  steps := (steps.zip flow.crossOutputs).map fun e => e.1.finished e.2 whole.relaxed
  dependencies := flow.dependencies
  modelInputs := whole.inputs
  modelOutputs := whole.outputs
  finished := true

theorem check_eq_ok {p : Plan} {whole : Model} {f : Flow} :
    p.check whole = .ok f ↔
      p.finished = false ∧
        (p.steps.flatMap (·.operations)).Perm (List.range whole.operations.length) ∧
        flow p.steps whole = .ok f := by
  rw [check, ← checkCoverage_eq_ok]
  constructor
  · intro h
    split at h
    · exact absurd h (by simp)
    · next hopen =>
      obtain ⟨u, hcover, hflow⟩ := bind_eq_ok.1 h
      exact ⟨by simpa using hopen, hcover, hflow⟩
  · rintro ⟨hopen, hcover, hflow⟩
    rw [hopen, if_neg (by simp), hcover, ok_bind, hflow]

theorem finish_eq_ok {p p' : Plan} {whole : Model} :
    p.finish whole = (p', .ok ()) ↔
      p.finished = false ∧
        (p.steps.flatMap (·.operations)).Perm (List.range whole.operations.length) ∧
        ∃ f, flow p.steps whole = .ok f ∧
          (∀ e ∈ p.steps.zip f.crossOutputs, (e.1.finish e.2 whole.relaxed).2 = .ok ()) ∧
          p' = assembled whole p.steps f := by
  constructor
  · intro h
    rw [finish] at h
    split at h
    · cases h
    · next f hcheck =>
      obtain ⟨hopen, hcover, hflow⟩ := check_eq_ok.1 hcheck
      split at h
      · cases h
      · next steps hsteps =>
        obtain ⟨hall, rfl⟩ := finishSteps_eq_ok.1 hsteps
        exact ⟨hopen, hcover, f, hflow, hall, (Prod.mk.inj h).1.symm⟩
  · rintro ⟨hopen, hcover, f, hflow, hall, rfl⟩
    rw [finish, check_eq_ok.2 ⟨hopen, hcover, hflow⟩]
    simp only [finishSteps_eq_ok.2 ⟨hall, rfl⟩]
    rfl
end NeuralDispatch.Plan

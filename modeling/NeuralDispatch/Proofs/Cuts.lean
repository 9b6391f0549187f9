import Mathlib.Data.List.SplitBy
import NeuralDispatch.Proofs.Cycles
import NeuralDispatch.Proofs.Relocation

/-!
# Where a plan cuts the order of operations

A group takes all that its device can run without waiting for another device, also what becomes
ready on the way.  So the next group is always on another device, and a plan has no more steps than
the order of its operations calls for.

* `drain_emptied` — nothing is left for a device when its group is complete.
* `schedule_isChain` — neighbouring groups are on different devices.
* `eq_of_isChain_feeds` — operations that feed one another in a line have no other order.
* `partition_cuts` — a plan lists the operations in an order of their dependencies and is cut only
  where the device changes.
-/

namespace NeuralDispatch

open Answer Model

/-! ## Neighbouring groups -/

namespace Frontier

section Groups

variable {m : Model} {assignment : List Nat} {deviceCount : Nat} (single : m.written.Nodup)
  (assigned : ∀ i < m.operations.length, assignment.getD i 0 < deviceCount)

include single assigned

/-- Nothing is left in a queue when it has been emptied, not even what became ready meanwhile. -/
theorem drain_emptied (d fuel : Nat) {listed : List Nat} {f : Frontier}
    (h : Scheduling m assignment deviceCount listed [] f)
    (enough : m.operations.length ≤ fuel + listed.length) :
    (drain m assignment d fuel f).2.queues.getD d [] = [] := by
  induction fuel generalizing listed f with
  | zero => exact h.queue_eq_nil single (enough.trans_eq (Nat.zero_add _)) d
  | succ fuel ih =>
    rw [drain]
    split
    · next hempty => exact hempty
    · next i rest hqueue =>
      exact ih ((h.take single (getElem?_of_getD hqueue)).complete assigned) (by
        rw [List.length_cons]
        omega)

omit single assigned in
/-- The first group is on a device for which something waits. -/
theorem queue_ne_nil {size fuel : Nat} {f : Frontier} {g : Group}
    (hg : g ∈ (groups m assignment size fuel f).head?) : f.queues.getD g.device [] ≠ [] := by
  cases fuel with
  | zero => cases hg
  | succ fuel =>
    rw [groups] at hg
    split at hg
    · cases hg
    · next d hsome =>
      obtain rfl := Option.some.inj hg
      exact getD_ne_nil_of_findIdx? hsome

/-- Neighbouring groups are on different devices. -/
theorem groups_isChain (fuel : Nat) {listed : List Nat} {f : Frontier}
    (h : Scheduling m assignment deviceCount listed [] f) :
    (groups m assignment m.operations.length fuel f).IsChain fun g g' => g.device ≠ g'.device := by
  induction fuel generalizing listed f with
  | zero => exact List.isChain_nil
  | succ fuel ih =>
    rw [groups]
    split
    · exact List.isChain_nil
    · next d hsome =>
      have enough := Nat.le_add_right m.operations.length listed.length
      obtain ⟨hdrained, -, -⟩ := drain_spec single assigned d m.operations.length h enough
      have hempty := drain_emptied single assigned d m.operations.length h enough
      refine List.isChain_cons.2 ⟨fun g hg heq => ?_, ih hdrained⟩
      exact queue_ne_nil hg (heq ▸ hempty)

end Groups

end Frontier

theorem schedule_isChain {m : Model} (h : Valid m) {assignment : List Nat} {deviceCount : Nat}
    (assigned : ∀ i < m.operations.length, assignment.getD i 0 < deviceCount) :
    (schedule m assignment deviceCount).IsChain fun g g' => g.device ≠ g'.device :=
  Frontier.groups_isChain h.single assigned _ (Frontier.scheduling_initial assigned)

/-! ## Lines -/

/-- Operations each of which feeds the next one have no other order. -/
theorem Model.eq_of_isChain_feeds {m : Model} {order line : List Nat}
    (hperm : order.Perm (List.range m.operations.length))
    (hordered : Ordered m.edges order.reverse)
    (hline : line.Perm (List.range m.operations.length)) (hchain : line.IsChain m.Feeds) :
    line = order := by
  have hup : line.Pairwise fun i j => order.idxOf i < order.idxOf j := by
    have hchain' := hchain.imp fun w r hfeeds => hordered.idxOf_lt hperm hfeeds
    rw [← List.isChain_map order.idxOf, List.isChain_iff_pairwise] at hchain'
    exact List.pairwise_map.1 hchain'
  have hsorted : order.Pairwise fun i j => order.idxOf i < order.idxOf j := by
    have hnodup : order.Nodup := hperm.nodup_iff.2 List.nodup_range
    rw [List.pairwise_iff_getElem]
    intro i j hi hj hij
    rwa [hnodup.idxOf_getElem, hnodup.idxOf_getElem]
  exact List.Perm.eq_of_pairwise (fun i j _ _ hij hji => absurd hij hji.asymm) hup hsorted
    (hline.trans hperm.symm)

/-! ## Plans -/

namespace Plan

/-- A step that holds all operations takes nothing from others and hands nothing on. -/
theorem Carving.alone {m : Model} {t : Step} (h : Carving m [t]) (sound : Sound m) {flow : Flow}
    (tracks : Flow.Tracks [t] m (reads [t]) flow) :
    t.crossInputs = [] ∧ ∀ links ∈ flow.crossOutputs, links = [] := by
  have hnone : t.crossInputs = [] := by
    refine List.eq_nil_iff_forall_not_mem.2 fun link hlink => ?_
    obtain ⟨p, -, -, hlt, -⟩ := h.exists_producer sound (c := 0) (s := t) rfl
      (List.mem_map.2 ⟨link, hlink, rfl⟩)
    exact absurd hlt (Nat.not_lt_zero p)
  refine ⟨hnone, fun links hlinks => List.eq_nil_iff_forall_not_mem.2 fun link hlink => ?_⟩
  obtain ⟨c, hc⟩ := List.mem_iff_getElem?.1 hlinks
  obtain ⟨-, ⟨d, hread⟩, -, -⟩ := tracks.handed c links hc link hlink
  obtain ⟨s, hs, -, hcross⟩ := mem_reads.1 hread
  rw [List.mem_singleton.1 hs, hnone] at hcross
  exact absurd hcross List.not_mem_nil

theorem isChain_of_assigned {assignment operations : List Nat} {k : Nat}
    (h : ∀ i ∈ operations, assignment[i]? = some k) :
    operations.IsChain fun i j => (assignment[i]? == assignment[j]?) = true := by
  refine (List.pairwise_of_forall_mem_list fun i hi j hj => ?_).isChain
  rw [h i hi, h j hj]
  exact beq_self_eq_true _

section Partition

variable {m : Model} (hbuilt : Built m) (hvalid : m.validate = .ok ()) {devices : List Device}
  {preference : Preference} {assignment : List Nat}
  (hassignment : Assignment.ofModel m devices preference = .ok assignment)

include hvalid hassignment

/-- The groups are the longest stretches of their order on one device. -/
theorem groups_eq_splitBy :
    (schedule m assignment devices.length).map (·.operations) =
      ((schedule m assignment devices.length).flatMap (·.operations)).splitBy
        fun i j => assignment[i]? == assignment[j]? := by
  have hplaced := fun g => @assigned_of_group m hvalid devices preference assignment hassignment g
  have hchain := schedule_isChain (validate_eq_ok_iff.1 hvalid)
    (Assignment.lt_of_ofModel hassignment)
  symm
  rw [List.splitBy_eq_iff, ← List.flatMap_def]
  refine ⟨rfl, fun hmem => ?_, List.forall_mem_map.2 fun g hg => ?_, ?_⟩
  · obtain ⟨g, hg, hnil⟩ := List.mem_map.1 hmem
    exact (hplaced g hg).1 hnil
  · exact isChain_of_assigned (hplaced g hg).2
  · rw [List.isChain_map, List.isChain_iff_getElem]
    intro c hc
    obtain ⟨hne, hassigned⟩ := hplaced _ (List.getElem_mem (Nat.lt_of_succ_lt hc))
    obtain ⟨hne', hassigned'⟩ := hplaced _ (List.getElem_mem hc)
    refine ⟨hne, hne', ?_⟩
    rw [hassigned _ (List.getLast_mem hne), hassigned' _ (List.head_mem hne')]
    exact beq_eq_false_iff_ne.2 fun heq =>
      List.isChain_iff_getElem.1 hchain c hc (Option.some.inj heq)

/-- Operations that are all on one device are in one group. -/
theorem schedule_eq_singleton {k : Nat}
    (hall : ∀ i < m.operations.length, assignment[i]? = some k) :
    ∃ g, schedule m assignment devices.length = [g] := by
  have hm := validate_eq_ok_iff.1 hvalid
  obtain ⟨-, hperm, -⟩ := schedule_spec hm (Assignment.lt_of_ofModel hassignment)
  have hne : (schedule m assignment devices.length).flatMap (·.operations) ≠ [] := by
    intro hnil
    rw [hnil, List.nil_perm, List.range_eq_nil, List.length_eq_zero_iff] at hperm
    exact hm.operations_ne hperm
  have hchain := isChain_of_assigned fun i hi => hall i (List.mem_range.1 (hperm.mem_iff.1 hi))
  have hsplit := groups_eq_splitBy hvalid hassignment
  rw [List.splitBy_of_isChain hne hchain, List.map_eq_singleton_iff] at hsplit
  obtain ⟨g, hg, -⟩ := hsplit
  exact ⟨g, hg⟩

variable {p : Plan} (h : partition m devices preference = .ok p)

include hbuilt h

/-- Operations that are all on one device are run in one step, which takes nothing from others and
hands nothing on. -/
theorem steps_eq_singleton {k : Nat}
    (hall : ∀ i < m.operations.length, assignment[i]? = some k) :
    ∃ s, p.steps = [s] ∧ s.crossInputs = [] ∧ s.crossOutputs = [] := by
  obtain ⟨assignment', steps, flow, hassignment', hcarving, hassembly, rfl, hgroups⟩ :=
    carving_of_partition hbuilt hvalid h
  obtain rfl := Except.ok.inj (hassignment.symm.trans hassignment')
  obtain ⟨g, hg⟩ := schedule_eq_singleton hvalid hassignment hall
  rw [hg] at hgroups
  obtain ⟨t, rest, -, hrest, rfl⟩ := List.forall₂_cons_left_iff.1 hgroups
  obtain rfl := List.forall₂_nil_left_iff.1 hrest
  obtain ⟨hinputs, houtputs⟩ := hcarving.alone hbuilt.sound hassembly.tracks
  obtain ⟨links, hlinks⟩ := List.length_eq_one_iff.1 hassembly.tracks.length_eq
  refine ⟨t.finished links m.relaxed, ?_, hinputs, ?_⟩
  · rw [assembled, hlinks]
    rfl
  · exact houtputs links (hlinks ▸ List.mem_singleton_self links)

/-- The steps are the longest stretches of their order on one device. -/
theorem steps_eq_splitBy :
    p.steps.map (·.operations) =
      (p.steps.flatMap (·.operations)).splitBy fun i j => assignment[i]? == assignment[j]? := by
  obtain ⟨assignment', hassignment', hgroups⟩ := grouped_of_partition hbuilt hvalid h
  obtain rfl := Except.ok.inj (hassignment.symm.trans hassignment')
  have hsame : p.steps.map (·.operations) =
      (schedule m assignment devices.length).map (·.operations) := by
    rw [← List.forall₂_eq_eq_eq, List.forall₂_map_left_iff, List.forall₂_map_right_iff]
    exact (hgroups.imp fun g s hs => hs.1).flip
  rw [List.flatMap_def, hsame, ← List.flatMap_def]
  exact groups_eq_splitBy hvalid hassignment

/-- Each step lies at a position of the list of devices to which its operations are assigned, and
the next step at another one. -/
theorem exists_positions :
    ∃ positions : List Nat,
      List.Forall₂ (fun k s => devices[k]? = some s.device ∧
        ∀ i ∈ s.operations, assignment[i]? = some k) positions p.steps ∧
      positions.IsChain (· ≠ ·) := by
  obtain ⟨assignment', hassignment', hgroups⟩ := grouped_of_partition hbuilt hvalid h
  obtain rfl := Except.ok.inj (hassignment.symm.trans hassignment')
  have hplaced := (List.forall₂_and_left _ _).2
    ⟨fun g hg => (assigned_of_group hvalid hassignment hg).2, hgroups⟩
  refine ⟨(schedule m assignment devices.length).map (·.device), ?_, ?_⟩
  · refine List.forall₂_map_left_iff.2 (hplaced.imp fun g s hs => ⟨hs.2.2, ?_⟩)
    rw [hs.2.1]
    exact hs.1
  · rw [List.isChain_map]
    exact schedule_isChain (validate_eq_ok_iff.1 hvalid) (Assignment.lt_of_ofModel hassignment)

end Partition

/-- The steps of a given plan list every operation once, and each one behind those that feed it.
Neighbouring steps lie at different positions of the list of devices.  So operations that are all
assigned to one device are run in one step, which exchanges nothing with others; and operations each
of which feeds the next are cut into the longest stretches that are assigned to one device. -/
theorem partition_cuts {m : Model} (hbuilt : Built m) (hvalid : m.validate = .ok ())
    {devices : List Device} {preference : Preference} {p : Plan}
    (h : partition m devices preference = .ok p) :
    (p.steps.flatMap (·.operations)).Perm (List.range m.operations.length) ∧
      (∀ w r, m.Feeds w r →
        (p.steps.flatMap (·.operations)).idxOf w < (p.steps.flatMap (·.operations)).idxOf r) ∧
      ∃ assignment positions, Assignment.ofModel m devices preference = .ok assignment ∧
        List.Forall₂ (fun k s => devices[k]? = some s.device ∧
          ∀ i ∈ s.operations, assignment[i]? = some k) positions p.steps ∧
        positions.IsChain (· ≠ ·) ∧
        (∀ k, (∀ i < m.operations.length, assignment[i]? = some k) →
          ∃ s, p.steps = [s] ∧ s.crossInputs = [] ∧ s.crossOutputs = []) ∧
        ∀ line : List Nat, line.Perm (List.range m.operations.length) → line.IsChain m.Feeds →
          p.steps.map (·.operations) =
            line.splitBy fun i j => assignment[i]? == assignment[j]? := by
  obtain ⟨hperm, hordered⟩ := ordered_of_partition hbuilt hvalid h
  obtain ⟨assignment, hassignment, -⟩ := placed_of_partition hbuilt hvalid h
  obtain ⟨positions, hpositions, hchain⟩ := exists_positions hbuilt hvalid hassignment h
  refine ⟨hperm, fun w r => hordered.idxOf_lt hperm, assignment, positions, hassignment, hpositions,
    hchain, fun k => steps_eq_singleton hbuilt hvalid hassignment h, fun line hline hfeeds => ?_⟩
  rw [eq_of_isChain_feeds hperm hordered hline hfeeds]
  exact steps_eq_splitBy hbuilt hvalid hassignment h

/-- A line of four operations that are added in another order. -/
def relay : Model := Model.performAll {} [
  .addOperand { type := .tensorFloat32, dimensions := [2] },
  .addOperand { type := .tensorFloat32, dimensions := [2] },
  .addOperand { type := .tensorFloat32, dimensions := [2] },
  .addOperand { type := .tensorFloat32, dimensions := [2] },
  .addOperand { type := .tensorFloat32, dimensions := [2] },
  .addOperation .relu [1] [2],
  .addOperation .floor [2] [3],
  .addOperation .relu [0] [1],
  .addOperation .relu [3] [4],
  .identify [0] [4]]

/-- The first device runs a part on both sides of the second one. -/
theorem partition_cuts_relay :
    Built relay ∧ relay.validate = .ok () ∧
      ∃ p, partition relay specialists .fastSingleAnswer = .ok p ∧
        p.steps.map (·.operations) = [[2, 0], [1], [3]] := by
  have hbuilt : Built relay := ⟨_, rfl⟩
  have hvalid : relay.validate = .ok () := by decide
  obtain ⟨p, hp⟩ : ∃ p, partition relay specialists .fastSingleAnswer = .ok p := ⟨_, rfl⟩
  obtain ⟨-, -, assignment, -, hassignment, -, -, -, hline⟩ := partition_cuts hbuilt hvalid hp
  have hexpected : Assignment.ofModel relay specialists .fastSingleAnswer = .ok [0, 1, 0, 0] := by
    rfl
  obtain rfl := Except.ok.inj (hexpected.symm.trans hassignment)
  have hchain : [2, 0, 1, 3].IsChain relay.Feeds := by
    simp only [List.isChain_cons_cons, List.isChain_singleton, ← mem_edges_iff_feeds]
    decide
  exact ⟨hbuilt, hvalid, p, hp, hline [2, 0, 1, 3] (by decide) hchain⟩

end Plan

end NeuralDispatch

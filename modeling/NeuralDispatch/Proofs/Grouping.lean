import Mathlib.Logic.Relation
import NeuralDispatch.Proofs.Cuts

/-!
# What the counts say while groups are made

Groups are made in loops within loops: a group is begun, operations are taken into it, and whoever
reads what they compute is told, once for each input.  Here each turn of one of the loops is a move
of its own, so that something can be said of every moment in between.

* `Grouping.next` — what comes next.
* `Grouping.Tallied` — what the counts and the queues say at a moment.
* `Grouping.scheduling_of_next`, `Grouping.Reaches.scheduling` — every move keeps the invariant of
  a schedule, so it holds at every moment.
* `Grouping.reaches_drain`, `Grouping.reaches_groups` — the definitions of the loops, which carry
  fuel, go the same way.
* `tallied_throughout` — the counts and the queues are right at every moment, and the moves end with
  every operation in a group.
-/

namespace NeuralDispatch

open Model

/-- How far the making of groups has come. -/
structure Grouping where
  frontier : Frontier
  /-- The groups that are complete, in order. -/
  closed : List Group := []
  /-- The group that is being filled. -/
  current : Option Group := none
  /-- The operations that are still to be told of the latest one in a group, each as often as it
  reads from it. -/
  arriving : List Nat := []
  deriving DecidableEq

namespace Grouping

open Frontier

/-- The operations that are in groups, the latest first. -/
def listed (s : Grouping) : List Nat :=
  ((s.closed ++ s.current.toList).flatMap (·.operations)).reverse

/-- The beginning, without any group. -/
def start (m : Model) (assignment : List Nat) (deviceCount : Nat) : Grouping :=
  { frontier := initial m assignment deviceCount }

/-- What comes next, unless everything is done.  Whoever is to be told is told first; then the group
takes what waits for its device, until nothing does and it is complete; and then a group is begun
for the first device for which something waits. -/
def next (m : Model) (assignment : List Nat) (s : Grouping) : Option Grouping :=
  match s.arriving, s.current with
  | i :: rest, _ => some { s with frontier := s.frontier.arrive assignment i, arriving := rest }
  | [], some g =>
    match s.frontier.queues.getD g.device [] with
    | i :: rest =>
      some { s with
        frontier := { s.frontier with queues := s.frontier.queues.set g.device rest }
        current := some { g with operations := g.operations ++ [i] }
        arriving := told m i }
    | [] => some { s with closed := s.closed ++ [g], current := none }
  | [], none =>
    (s.frontier.queues.findIdx? (!·.isEmpty)).map fun d => { s with current := some ⟨d, []⟩ }

/-- Whether the moves lead from one moment to another. -/
abbrev Reaches (m : Model) (assignment : List Nat) : Grouping → Grouping → Prop :=
  Relation.ReflTransGen fun s t => s.next m assignment = some t

variable {m : Model} {assignment : List Nat} {deviceCount : Nat} {s t : Grouping}

@[simp] theorem listed_some (f : Frontier) (closed : List Group) (g : Group) (arriving : List Nat) :
    listed ⟨f, closed, some g, arriving⟩ =
      g.operations.reverse ++ (closed.flatMap (·.operations)).reverse := by
  simp [listed]

@[simp] theorem listed_none (f : Frontier) (closed : List Group) (arriving : List Nat) :
    listed ⟨f, closed, none, arriving⟩ = (closed.flatMap (·.operations)).reverse := by
  simp [listed]

theorem Reaches.of_next (h : s.next m assignment = some t) : Reaches m assignment s t :=
  Relation.ReflTransGen.single h

/-- There is never a choice, so every way leads to the end if one does. -/
theorem Reaches.to_end {done : Grouping} (hend : Reaches m assignment s done)
    (hdone : done.next m assignment = none) (h : Reaches m assignment s t) :
    Reaches m assignment t done := by
  have hunique : Relator.RightUnique fun s t : Grouping => s.next m assignment = some t :=
    fun _ _ _ hnext hnext' => Option.some.inj (hnext.symm.trans hnext')
  rcases Relation.ReflTransGen.total_of_right_unique hunique h hend with hbefore | hafter
  · exact hbefore
  · rcases Relation.ReflTransGen.cases_head hafter with rfl | ⟨u, hnext, -⟩
    · exact Relation.ReflTransGen.refl
    · exact absurd (hdone.symm.trans hnext) nofun

/-! ## What is true at every moment -/

/-- What the counts and the queues say at a moment. -/
structure Tallied (m : Model) (assignment : List Nat) (deviceCount : Nat) (s : Grouping) :
    Prop where
  /-- An operation counts its inputs that are computed by operations which are in no group yet, and
  while readers are told also those that it is still to be told of. -/
  counts : ∀ i < m.operations.length,
    s.frontier.missing[i]? = some (waiting m s.listed i + s.arriving.count i)
  /-- No count that comes to be lowered is zero. -/
  lowered : ∀ i rest, s.arriving = i :: rest → ∃ left, s.frontier.missing[i]? = some (left + 1)
  queues_length : s.frontier.queues.length = deviceCount
  /-- An operation that is in no group waits once in the queue of its device, and in no other, if
  its count is zero.  Otherwise it does not wait. -/
  queued : ∀ i < m.operations.length, ∀ (d : Nat) q, s.frontier.queues[d]? = some q →
    q.count i =
      if i ∉ s.listed ∧ s.frontier.missing[i]? = some 0 ∧ assignment[i]? = some d then 1 else 0
  once : s.listed.Nodup

theorem getD_of_assigned (assigned : ∀ i < m.operations.length, ∃ d < deviceCount,
    assignment[i]? = some d) :
    ∀ i < m.operations.length, assignment.getD i 0 < deviceCount := by
  intro i hi
  obtain ⟨d, hd, hassignment⟩ := assigned i hi
  rwa [List.getD_eq_getElem?_getD, hassignment]

/-- The invariant of a schedule says all this. -/
theorem tallied_of_scheduling
    (assigned : ∀ i < m.operations.length, ∃ d < deviceCount, assignment[i]? = some d)
    (h : Scheduling m assignment deviceCount s.listed s.arriving s.frontier) :
    Tallied m assignment deviceCount s where
  counts := h.counts
  lowered := by
    intro i rest harriving
    rw [harriving] at h
    rw [h.counts i (h.arriving_new i List.mem_cons_self).1, List.count_cons_self]
    exact ⟨_, rfl⟩
  queues_length := h.queues_length
  queued := by
    intro i hi d q hq
    obtain ⟨e, -, he⟩ := assigned i hi
    have hgetD : assignment.getD i 0 = e := by rw [List.getD_eq_getElem?_getD, he, Option.getD_some]
    by_cases hmem : i ∈ q
    · obtain ⟨-, hd, hlisted, harriving, hzero⟩ := h.queued d q hq i hmem
      rw [List.count_eq_one_of_mem (h.queue_nodup d q hq) hmem, if_pos]
      refine ⟨hlisted, ?_, by rw [he, ← hgetD, hd]⟩
      rw [h.counts i hi, hzero, List.count_eq_zero.2 harriving]
    · rw [List.count_eq_zero.2 hmem, if_neg]
      rintro ⟨hlisted, hzero, hd⟩
      have hsum := Option.some.inj ((h.counts i hi).symm.trans hzero)
      obtain ⟨q', hq', hmem'⟩ := h.reached i hi (by omega) (List.count_eq_zero.1 (by omega)) hlisted
      obtain rfl : e = d := Option.some.inj (he.symm.trans hd)
      rw [hgetD, hq] at hq'
      exact hmem (Option.some.inj hq' ▸ hmem')
  once := h.ordered.nodup

section Moves

variable (single : m.written.Nodup)
  (assigned : ∀ i < m.operations.length, assignment.getD i 0 < deviceCount)

include single assigned

/-- Every move keeps the invariant of a schedule. -/
theorem scheduling_of_next
    (h : Scheduling m assignment deviceCount s.listed s.arriving s.frontier)
    (hnext : s.next m assignment = some t) :
    Scheduling m assignment deviceCount t.listed t.arriving t.frontier := by
  obtain ⟨f, closed, current, _ | ⟨i, rest⟩⟩ := s
  · cases current with
    | none =>
      -- a group is begun
      obtain ⟨d, -, rfl⟩ := Option.map_eq_some_iff.1 hnext
      simpa using h
    | some g =>
      rw [next] at hnext
      dsimp only at hnext
      split at hnext
      · next i rest hqueue =>
        -- an operation is taken into the group
        obtain rfl := Option.some.inj hnext
        have htaken := h.take single (getElem?_of_getD hqueue)
        simpa using htaken
      · -- the group is complete
        obtain rfl := Option.some.inj hnext
        simpa using h
  · -- an operation is told
    obtain rfl := Option.some.inj hnext
    exact h.arrive assigned

theorem Reaches.scheduling (h : Reaches m assignment (start m assignment deviceCount) s) :
    Scheduling m assignment deviceCount s.listed s.arriving s.frontier := by
  induction h with
  | refl => exact scheduling_initial assigned
  | tail _ hnext ih => exact scheduling_of_next single assigned ih hnext

end Moves

/-! ## The loops make these moves -/

/-- Whoever is to be told is told. -/
theorem reaches_foldl (f : Frontier) (closed : List Group) (current : Option Group)
    (arriving : List Nat) :
    Reaches m assignment ⟨f, closed, current, arriving⟩
      ⟨arriving.foldl (arrive assignment) f, closed, current, []⟩ := by
  induction arriving generalizing f with
  | nil => exact Relation.ReflTransGen.refl
  | cons i rest ih => exact Relation.ReflTransGen.head rfl (ih (f.arrive assignment i))

/-- An operation is taken into a group, and its readers are told. -/
theorem reaches_complete {f : Frontier} {g : Group} {i : Nat} {rest : List Nat}
    (hqueue : f.queues.getD g.device [] = i :: rest) (closed : List Group) :
    Reaches m assignment ⟨f, closed, some g, []⟩
      ⟨{ f with queues := f.queues.set g.device rest }.complete m assignment i, closed,
        some { g with operations := g.operations ++ [i] }, []⟩ := by
  have htake : next m assignment ⟨f, closed, some g, []⟩ =
      some ⟨{ f with queues := f.queues.set g.device rest }, closed,
        some { g with operations := g.operations ++ [i] }, told m i⟩ := by
    simp only [next, hqueue]
  rw [complete_eq_foldl]
  exact (Reaches.of_next htake).trans (reaches_foldl _ closed _ (told m i))

/-- A group takes all that waits for its device. -/
theorem reaches_drain (fuel : Nat) (f : Frontier) (closed : List Group) (g : Group) :
    Reaches m assignment ⟨f, closed, some g, []⟩
      ⟨(drain m assignment g.device fuel f).2, closed,
        some ⟨g.device, g.operations ++ (drain m assignment g.device fuel f).1⟩, []⟩ := by
  induction fuel generalizing f g with
  | zero => rw [drain, List.append_nil]
  | succ fuel ih =>
    rw [drain]
    split
    · rw [List.append_nil]
    · next i rest hqueue =>
      have hrest := ih ({ f with queues := f.queues.set g.device rest }.complete m assignment i)
        { g with operations := g.operations ++ [i] }
      rw [List.append_assoc, List.singleton_append] at hrest
      exact (reaches_complete hqueue closed).trans hrest

/-- A group is begun, filled and completed. -/
theorem reaches_group {f f' : Frontier} {d fuel : Nat} {operations : List Nat}
    (hfirst : f.queues.findIdx? (!·.isEmpty) = some d)
    (hdrain : drain m assignment d fuel f = (operations, f'))
    (hempty : f'.queues.getD d [] = []) (closed : List Group) :
    Reaches m assignment ⟨f, closed, none, []⟩ ⟨f', closed ++ [⟨d, operations⟩], none, []⟩ := by
  have hselect : next m assignment ⟨f, closed, none, []⟩ =
      some ⟨f, closed, some ⟨d, []⟩, []⟩ := by
    simp only [next, hfirst, Option.map_some]
  have hfilled : Reaches m assignment _ _ := reaches_drain fuel f closed ⟨d, []⟩
  rw [hdrain] at hfilled
  have hclose : next m assignment ⟨f', closed, some ⟨d, operations⟩, []⟩ =
      some ⟨f', closed ++ [⟨d, operations⟩], none, []⟩ := by
    simp only [next, hempty]
  exact ((Reaches.of_next hselect).trans hfilled).trans (Reaches.of_next hclose)

section Loops

variable (single : m.written.Nodup)
  (assigned : ∀ i < m.operations.length, assignment.getD i 0 < deviceCount)

include single assigned

/-- Groups are made until nothing waits any more. -/
theorem reaches_groups (fuel : Nat) {listed : List Nat} {f : Frontier} (closed : List Group)
    (h : Scheduling m assignment deviceCount listed [] f)
    (enough : m.operations.length ≤ fuel + listed.length) :
    ∃ f', Reaches m assignment ⟨f, closed, none, []⟩
        ⟨f', closed ++ groups m assignment m.operations.length fuel f, none, []⟩ ∧
      f'.queues.findIdx? (!·.isEmpty) = none := by
  induction fuel generalizing listed f closed with
  | zero =>
    exact ⟨f, by rw [groups, List.append_nil],
      h.findIdx?_eq_none single (enough.trans_eq (Nat.zero_add _))⟩
  | succ fuel ih =>
    rw [groups]
    split
    · next hnone => exact ⟨f, by rw [List.append_nil], hnone⟩
    · next d hfirst =>
      have hfull := Nat.le_add_right m.operations.length listed.length
      obtain ⟨hdrained, -, -⟩ := drain_spec single assigned d m.operations.length h hfull
      have hlength := List.length_pos_iff.2 (drain_ne_nil single assigned h hfirst)
      obtain ⟨f', hrest, hidle⟩ := ih
        (closed ++ [⟨d, (drain m assignment d m.operations.length f).1⟩]) hdrained (by
          rw [List.length_append, List.length_reverse]
          omega)
      rw [List.append_assoc, List.singleton_append] at hrest
      exact ⟨f', (reaches_group hfirst rfl
        (drain_emptied single assigned d m.operations.length h hfull) closed).trans hrest, hidle⟩

/-- The moves from the beginning lead to the schedule, with which they end. -/
theorem reaches_schedule :
    ∃ f, Reaches m assignment (start m assignment deviceCount)
        ⟨f, schedule m assignment deviceCount, none, []⟩ ∧
      next m assignment ⟨f, schedule m assignment deviceCount, none, []⟩ = none := by
  obtain ⟨f, hreaches, hidle⟩ := reaches_groups single assigned m.operations.length []
    (scheduling_initial assigned) (Nat.le_add_right _ _)
  rw [List.nil_append] at hreaches
  exact ⟨f, hreaches, by simp only [next, hidle, Option.map_none]⟩

end Loops

/-! ## From the beginning to the end -/

/-- While the groups of a well-formed model are made, the counts and the queues are right at every
moment.  From every moment the moves lead to the same last one, at which the groups are those of the
schedule, all counts are zero, and every operation has been taken into a group once.  If calls have
built the model, each of the groups makes a step. -/
theorem tallied_throughout {m : Model} (hvalid : m.validate = .ok ()) (devices : List Device)
    {assignment : List Nat}
    (assigned : ∀ i < m.operations.length, ∃ d < devices.length, assignment[i]? = some d) :
    (∀ s, Reaches m assignment (start m assignment devices.length) s →
      Tallied m assignment devices.length s) ∧
    ∃ done : Grouping,
      (∀ s, Reaches m assignment (start m assignment devices.length) s →
        Reaches m assignment s done) ∧
      done.next m assignment = none ∧
      done.closed = schedule m assignment devices.length ∧ done.current = none ∧
      (∀ i < m.operations.length, done.frontier.missing[i]? = some 0) ∧
      done.listed.Perm (List.range m.operations.length) ∧
      (Built m → ∃ steps, Plan.stepsOf m devices done.closed = .ok steps ∧
        List.Forall₂ (fun g s => s.operations = g.operations ∧ devices[g.device]? = some s.device)
          done.closed (Plan.numbered steps)) := by
  have hm := validate_eq_ok_iff.1 hvalid
  have hassigned := getD_of_assigned assigned
  obtain ⟨f, hreaches, hdone⟩ := reaches_schedule hm.single hassigned
  obtain ⟨-, hperm, -⟩ := schedule_spec hm hassigned
  have hscheduling := hreaches.scheduling hm.single hassigned
  have hlisted : listed ⟨f, schedule m assignment devices.length, none, []⟩ =
      ((schedule m assignment devices.length).flatMap (·.operations)).reverse := listed_none _ _ _
  refine ⟨fun s hs => tallied_of_scheduling assigned (hs.scheduling hm.single hassigned), _,
    fun s hs => hreaches.to_end hdone hs, hdone, rfl, rfl, fun i hi => ?_, ?_, fun hbuilt => ?_⟩
  · have hzero : waiting m (listed ⟨f, schedule m assignment devices.length, none, []⟩) i = 0 := by
      refine waiting_eq_zero_iff.2 fun e he _ => ?_
      rw [hlisted, List.mem_reverse, hperm.mem_iff, List.mem_range]
      exact (edges_lt he).1
    rw [hscheduling.counts i hi, hzero, List.count_nil]
  · rw [hlisted]
    exact (List.reverse_perm _).trans hperm
  · obtain ⟨steps, hsteps, -, hgroups⟩ := Plan.carving_of_schedule hbuilt.sound hm hassigned
    exact ⟨steps, hsteps, hgroups⟩

/-- An operation that writes twice, one that reads the same operand twice, and one that reads both
outputs of the first. -/
def woven : Model := Model.performAll {} [
  .addOperand { type := .tensorFloat32, dimensions := [2] },
  .addOperand { type := .tensorFloat32, dimensions := [2] },
  .addOperand { type := .tensorFloat32, dimensions := [2] },
  .addOperand { type := .tensorFloat32, dimensions := [2] },
  .addOperand { type := .tensorFloat32, dimensions := [2] },
  .addOperand { type := .tensorFloat32, dimensions := [2] },
  .addOperation .relu [0] [1, 2],
  .addOperation .floor [1, 1] [3],
  .addOperation .relu [1, 2] [4],
  .addOperation .floor [3, 4] [5],
  .identify [0] [5]]

/-- Each reader is told as often as it reads, so its count is lowered to zero and not further. -/
theorem tallied_throughout_woven :
    Built woven ∧ woven.validate = .ok () ∧
      Assignment.ofModel woven Plan.specialists .fastSingleAnswer = .ok [0, 1, 0, 1] ∧
      (∃ s, Reaches woven [0, 1, 0, 1] (start woven [0, 1, 0, 1] Plan.specialists.length) s ∧
        s.listed = [0] ∧ s.arriving = [1, 1, 2, 2] ∧ s.frontier.missing = [0, 2, 2, 2] ∧
        Tallied woven [0, 1, 0, 1] Plan.specialists.length s) ∧
      ∃ done : Grouping, done.closed = [⟨0, [0, 2]⟩, ⟨1, [1, 3]⟩] ∧
        (∀ i < woven.operations.length, done.frontier.missing[i]? = some 0) ∧
        ∃ steps, Plan.stepsOf woven Plan.specialists done.closed = .ok steps := by
  have hbuilt : Built woven := ⟨_, rfl⟩
  have hvalid : woven.validate = .ok () := by decide
  have hassignment :
      Assignment.ofModel woven Plan.specialists .fastSingleAnswer = .ok [0, 1, 0, 1] := by rfl
  obtain ⟨htallied, done, -, -, hclosed, -, hcounts, -, hsteps⟩ :=
    tallied_throughout hvalid Plan.specialists (Assignment.exists_of_ofModel hassignment)
  have hselect : next woven [0, 1, 0, 1] (start woven [0, 1, 0, 1] Plan.specialists.length) =
      some ⟨⟨[0, 2, 2, 2], [[0], []]⟩, [], some ⟨0, []⟩, []⟩ := by rfl
  have htake : next woven [0, 1, 0, 1] ⟨⟨[0, 2, 2, 2], [[0], []]⟩, [], some ⟨0, []⟩, []⟩ =
      some ⟨⟨[0, 2, 2, 2], [[], []]⟩, [], some ⟨0, [0]⟩, [1, 1, 2, 2]⟩ := by rfl
  have htaken := (Reaches.of_next hselect).trans (Reaches.of_next htake)
  have hschedule : schedule woven [0, 1, 0, 1] Plan.specialists.length =
      [⟨0, [0, 2]⟩, ⟨1, [1, 3]⟩] := by rfl
  obtain ⟨steps, hok, -⟩ := hsteps hbuilt
  exact ⟨hbuilt, hvalid, hassignment, ⟨_, htaken, rfl, rfl, rfl, htallied _ htaken⟩,
    done, hclosed.trans hschedule, hcounts, steps, hok⟩

end Grouping

end NeuralDispatch

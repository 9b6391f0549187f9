import NeuralDispatch.Plan.Schedule
import NeuralDispatch.Proofs.Validation

/-!
# What a schedule puts into groups

Groups are made by counting, for each operation, the inputs that are still to be computed.

* `waiting_cons` — putting an operation into a group takes as many from each count as it has
  readers to tell.
* `Scheduling` — the invariant: the counts are right, and what is ready waits in its queue.
* `drain_spec` — a queue is emptied into one group, with what becomes ready on the way.
* `schedule_spec` — the groups hold every operation once, behind all it depends on, on the device
  it is assigned to, and none of them is empty.
-/

namespace NeuralDispatch

open Model

namespace Frontier

/-! ## Counting -/

/-- Whether an operand is computed by an operation that is not among the listed ones. -/
def pendingInput (m : Model) (listed : List Nat) (o : Nat) : Bool :=
  match m.producer? o with
  | some p => !listed.contains p
  | none => false

/-- How many inputs of an operation are still to be computed. -/
def waiting (m : Model) (listed : List Nat) (i : Nat) : Nat :=
  match m.operations[i]? with
  | some op => op.inputs.countP (pendingInput m listed)
  | none => 0

theorem pendingInput_eq_true {m : Model} {listed : List Nat} {o : Nat} :
    pendingInput m listed o = true ↔ ∃ p, m.producer? o = some p ∧ p ∉ listed := by
  rw [pendingInput]
  cases m.producer? o <;> simp

/-- An operation is ready when it waits for nothing. -/
theorem waiting_eq_zero_iff {m : Model} {listed : List Nat} {i : Nat} :
    waiting m listed i = 0 ↔ Ready m.edges listed i := by
  rw [waiting]
  constructor
  · intro h e he hei
    obtain ⟨op, o, hop, ho, hp⟩ := mem_edges.1 (show (e.1, e.2) ∈ m.edges from he)
    rw [← hei, hop] at h
    by_contra hmissing
    exact List.countP_eq_zero.1 h o ho (pendingInput_eq_true.2 ⟨e.1, hp, hmissing⟩)
  · intro h
    split
    · next op hop =>
      refine List.countP_eq_zero.2 fun o ho hpending => ?_
      obtain ⟨p, hp, hmissing⟩ := pendingInput_eq_true.1 hpending
      exact hmissing (h (p, i) (mem_edges.2 ⟨op, o, hop, ho, hp⟩) rfl)
    · rfl

theorem count_flatMap_replicate {α : Type} (f : α → Nat) (xs : List α) (k r : Nat) :
    ((xs.zipIdx k).flatMap fun e => List.replicate (f e.1) e.2).count r =
      if k ≤ r then (xs[r - k]?.map f).getD 0 else 0 := by
  induction xs generalizing k with
  | nil => simp
  | cons x xs ih =>
    rw [List.zipIdx_cons, List.flatMap_cons, List.count_append, ih, List.count_replicate]
    by_cases heq : k = r
    · subst heq
      simp
    · by_cases hle : k + 1 ≤ r
      · have hsub : r - k = (r - (k + 1)) + 1 := by omega
        rw [if_neg (by simpa using heq), if_pos hle, if_pos (by omega), hsub,
          List.getElem?_cons_succ, Nat.zero_add]
      · rw [if_neg (by simpa using heq), if_neg hle, if_neg (by omega)]

/-- An operation is among the readers of an operand as often as it reads it. -/
theorem count_readers {m : Model} {o r : Nat} :
    (m.readers o).count r = (m.operations[r]?.map (·.inputs.count o)).getD 0 := by
  rw [readers]
  exact (count_flatMap_replicate (fun op : Operation => op.inputs.count o) _ 0 r).trans (by simp)

theorem mem_readers {m : Model} {o r : Nat} :
    r ∈ m.readers o ↔ ∃ op, m.operations[r]? = some op ∧ o ∈ op.inputs := by
  rw [← List.count_pos_iff, count_readers]
  cases m.operations[r]? <;> simp

/-- The operations that an operation tells when it is put into a group. -/
def told (m : Model) (i : Nat) : List Nat :=
  match m.operations[i]? with
  | some op => op.outputs.flatMap m.readers
  | none => []

theorem mem_told {m : Model} (single : m.written.Nodup) {i r : Nat} :
    r ∈ told m i ↔ (i, r) ∈ m.edges := by
  rw [mem_edges, told]
  constructor
  · intro h
    split at h
    · next op hop =>
      obtain ⟨o, ho, hr⟩ := List.mem_flatMap.1 h
      obtain ⟨reader, hreader, hread⟩ := mem_readers.1 hr
      exact ⟨reader, o, hreader, hread, (producer?_eq_some_iff single).2 ⟨op, hop, ho⟩⟩
    · exact absurd h List.not_mem_nil
  · rintro ⟨reader, o, hreader, hread, hp⟩
    obtain ⟨op, hop, ho⟩ := (producer?_eq_some_iff single).1 hp
    rw [hop]
    exact List.mem_flatMap.2 ⟨o, ho, mem_readers.2 ⟨reader, hreader, hread⟩⟩

theorem countP_mem_cons {o : Nat} {rest : List Nat} (ho : o ∉ rest) (xs : List Nat) :
    xs.countP (· ∈ o :: rest) = xs.count o + xs.countP (· ∈ rest) := by
  induction xs with
  | nil => rfl
  | cons x xs ih =>
    simp only [List.count_cons, List.countP_cons, List.mem_cons] at ih ⊢
    by_cases hxo : x = o
    · subst hxo
      simp [ho] at ih ⊢
      omega
    · by_cases hxr : x ∈ rest
      · simp [hxo, hxr] at ih ⊢
        omega
      · simp [hxo, hxr] at ih ⊢
        omega

theorem count_flatMap_readers {m : Model} {outputs : List Nat} (single : outputs.Nodup) {r : Nat}
    {op : Operation} (hop : m.operations[r]? = some op) :
    (outputs.flatMap m.readers).count r = op.inputs.countP (· ∈ outputs) := by
  induction outputs with
  | nil => simp
  | cons o rest ih =>
    obtain ⟨ho, hrest⟩ := List.nodup_cons.1 single
    rw [List.flatMap_cons, List.count_append, ih hrest, count_readers, hop, Option.map_some,
      Option.getD_some, countP_mem_cons ho]

theorem count_told {m : Model} (single : m.written.Nodup) {i r : Nat} {op : Operation}
    (hop : m.operations[r]? = some op) :
    (told m i).count r = op.inputs.countP fun o => decide (m.producer? o = some i) := by
  rw [told]
  cases hi : m.operations[i]? with
  | none =>
    refine (List.countP_eq_zero.2 fun o _ hp => ?_).symm
    have hlt := producer?_lt (of_decide_eq_true hp)
    rw [List.getElem?_eq_getElem hlt] at hi
    cases hi
  | some source =>
    have hnodup := (List.nodup_flatMap.1 single).1 source (List.mem_of_getElem? hi)
    refine (count_flatMap_readers hnodup hop).trans (List.countP_congr fun o _ => ?_)
    simp only [decide_eq_true_eq, producer?_eq_some_iff single, hi, Option.some.injEq,
      exists_eq_left']

/-- An input leaves the count just when the operation that is put into a group computes it. -/
theorem countP_pendingInput_cons {m : Model} {listed : List Nat} {i : Nat} (hi : i ∉ listed)
    (inputs : List Nat) :
    inputs.countP (pendingInput m listed) = inputs.countP (pendingInput m (i :: listed)) +
      inputs.countP fun o => decide (m.producer? o = some i) := by
  induction inputs with
  | nil => rfl
  | cons o rest ih =>
    rw [List.countP_cons, List.countP_cons, List.countP_cons, ih]
    by_cases hp : m.producer? o = some i
    · simp [pendingInput, hp, hi]
      omega
    · have hsame : pendingInput m (i :: listed) o = pendingInput m listed o := by
        rw [pendingInput, pendingInput]
        cases hproducer : m.producer? o with
        | none => rfl
        | some p =>
          have hpi : p ≠ i := fun heq => hp (hproducer.trans (congrArg some heq))
          simp [hpi]
      simp [hp, hsame]
      omega

theorem waiting_cons {m : Model} (single : m.written.Nodup) {listed : List Nat} {i : Nat}
    (hi : i ∉ listed) (r : Nat) :
    waiting m listed r = waiting m (i :: listed) r + (told m i).count r := by
  rw [waiting, waiting]
  cases hop : m.operations[r]? with
  | none =>
    have hnone : (told m i).count r = 0 := List.count_eq_zero.2 fun hmem => by
      obtain ⟨op, o, hr, -, -⟩ := mem_edges.1 ((mem_told single).1 hmem)
      rw [hop] at hr
      cases hr
    rw [hnone]
  | some op =>
    rw [count_told single hop]
    exact countP_pendingInput_cons hi op.inputs

/-! ## The invariant -/

/-- What holds while groups are made.  The operations in `listed` are in groups, the latest first,
and those in `arriving` are still to be told of the latest one. -/
structure Scheduling (m : Model) (assignment : List Nat) (deviceCount : Nat)
    (listed arriving : List Nat) (f : Frontier) : Prop where
  ordered : Ordered m.edges listed
  listed_lt : ∀ i ∈ listed, i < m.operations.length
  queues_length : f.queues.length = deviceCount
  counts : ∀ i < m.operations.length,
    f.missing[i]? = some (waiting m listed i + arriving.count i)
  arriving_new : ∀ i ∈ arriving, i < m.operations.length ∧ i ∉ listed
  queue_nodup : ∀ (d : Nat) q, f.queues[d]? = some q → q.Nodup
  queued : ∀ (d : Nat) q, f.queues[d]? = some q → ∀ i ∈ q, i < m.operations.length ∧
    assignment.getD i 0 = d ∧ i ∉ listed ∧ i ∉ arriving ∧ waiting m listed i = 0
  /-- What is ready and has been told of it waits in the queue of its device. -/
  reached : ∀ i < m.operations.length, waiting m listed i = 0 → i ∉ arriving → i ∉ listed →
    ∃ q, f.queues[assignment.getD i 0]? = some q ∧ i ∈ q

variable {m : Model} {assignment : List Nat} {deviceCount : Nat}

theorem getElem?_enqueue {f : Frontier} {i d : Nat} {q : List Nat}
    (h : (f.enqueue assignment i).queues[d]? = some q) :
    ∃ old, f.queues[d]? = some old ∧
      (assignment.getD i 0 = d ∧ q = old ++ [i] ∨ assignment.getD i 0 ≠ d ∧ q = old) := by
  rw [enqueue, List.getElem?_modify] at h
  obtain ⟨old, hold, rfl⟩ := Option.map_eq_some_iff.1 h
  refine ⟨old, hold, ?_⟩
  split
  · next hd => exact Or.inl ⟨hd, rfl⟩
  · next hd => exact Or.inr ⟨hd, rfl⟩

/-- The last input of an operation has arrived. -/
theorem Scheduling.enqueue {listed rest : List Nat} {f : Frontier} {i : Nat}
    (assigned : ∀ i < m.operations.length, assignment.getD i 0 < deviceCount)
    (h : Scheduling m assignment deviceCount listed (i :: rest) f)
    (hwaiting : waiting m listed i = 0) (hrest : i ∉ rest) (missing : List Nat)
    (hcounts : ∀ i < m.operations.length,
      missing[i]? = some (waiting m listed i + rest.count i)) :
    Scheduling m assignment deviceCount listed rest
      ({ f with missing }.enqueue assignment i) := by
  obtain ⟨hlt, hnew⟩ := h.arriving_new i List.mem_cons_self
  refine ⟨h.ordered, h.listed_lt, ?_, hcounts,
    fun j hj => h.arriving_new j (List.mem_cons_of_mem i hj), ?_, ?_, ?_⟩
  · rw [Frontier.enqueue, List.length_modify]
    exact h.queues_length
  · intro d q hq
    obtain ⟨old, hold, ⟨-, rfl⟩ | ⟨-, rfl⟩⟩ := getElem?_enqueue hq
    · rw [← List.concat_eq_append]
      refine List.Nodup.concat (fun hmem => ?_) (h.queue_nodup d old hold)
      exact (h.queued d old hold i hmem).2.2.2.1 List.mem_cons_self
    · exact h.queue_nodup d q hold
  · intro d q hq j hj
    have hkeep : ∀ old, f.queues[d]? = some old → j ∈ old → j < m.operations.length ∧
        assignment.getD j 0 = d ∧ j ∉ listed ∧ j ∉ rest ∧ waiting m listed j = 0 := by
      intro old hold hj
      obtain ⟨hjlt, hd, hlisted, harriving, hzero⟩ := h.queued d old hold j hj
      exact ⟨hjlt, hd, hlisted, fun hmem => harriving (List.mem_cons_of_mem i hmem), hzero⟩
    obtain ⟨old, hold, ⟨hd, rfl⟩ | ⟨-, rfl⟩⟩ := getElem?_enqueue hq
    · rcases List.mem_append.1 hj with hj | hj
      · exact hkeep old hold hj
      · obtain rfl := List.mem_singleton.1 hj
        exact ⟨hlt, hd, hnew, hrest, hwaiting⟩
    · exact hkeep q hold hj
  · intro j hj hzero harriving hlisted
    have hdevice : assignment.getD j 0 < f.queues.length := by
      rw [h.queues_length]
      exact assigned j hj
    rw [Frontier.enqueue, List.getElem?_modify]
    by_cases hij : j = i
    · subst hij
      rw [List.getElem?_eq_getElem hdevice]
      exact ⟨_, rfl, by simp⟩
    · obtain ⟨q, hq, hmem⟩ := h.reached j hj hzero
        (fun hmem => (List.mem_cons.1 hmem).elim hij harriving) hlisted
      rw [hq]
      refine ⟨_, rfl, ?_⟩
      split
      · exact List.mem_append_left _ hmem
      · exact hmem

/-- One of the operations that are to be told is told. -/
theorem Scheduling.arrive {listed rest : List Nat} {f : Frontier} {i : Nat}
    (assigned : ∀ i < m.operations.length, assignment.getD i 0 < deviceCount)
    (h : Scheduling m assignment deviceCount listed (i :: rest) f) :
    Scheduling m assignment deviceCount listed rest (f.arrive assignment i) := by
  obtain ⟨hlt, hnew⟩ := h.arriving_new i List.mem_cons_self
  have hmissing := h.counts i hlt
  have hleft : f.missing.getD i 0 - 1 = waiting m listed i + rest.count i := by
    rw [List.getD_eq_getElem?_getD, hmissing, Option.getD_some, List.count_cons_self]
    omega
  have hcounts : ∀ j < m.operations.length,
      (f.missing.set i (f.missing.getD i 0 - 1))[j]? =
        some (waiting m listed j + rest.count j) := by
    intro j hj
    by_cases hij : i = j
    · subst hij
      rw [List.getElem?_set_self (List.getElem?_eq_some_iff.1 hmissing).1, hleft]
    · rw [List.getElem?_set_ne hij, h.counts j hj, List.count_cons_of_ne hij]
  rw [Frontier.arrive]
  split
  · next hzero =>
    have hzero' : waiting m listed i = 0 ∧ rest.count i = 0 := by omega
    exact h.enqueue assigned hzero'.1 (List.count_eq_zero.1 hzero'.2) _ hcounts
  · next hzero =>
    refine ⟨h.ordered, h.listed_lt, h.queues_length, hcounts,
      fun j hj => h.arriving_new j (List.mem_cons_of_mem i hj), h.queue_nodup, ?_, ?_⟩
    · intro d q hq j hj
      obtain ⟨hjlt, hd, hlisted, harriving, hzero⟩ := h.queued d q hq j hj
      exact ⟨hjlt, hd, hlisted, fun hmem => harriving (List.mem_cons_of_mem i hmem), hzero⟩
    · intro j hj hwaiting harriving hlisted
      refine h.reached j hj hwaiting (fun hmem => ?_) hlisted
      rcases List.mem_cons.1 hmem with rfl | hmem
      · have := List.count_eq_zero.2 harriving
        omega
      · exact harriving hmem

/-- The first operation of a queue is put into a group. -/
theorem Scheduling.take {listed rest : List Nat} {f : Frontier} {d i : Nat}
    (single : m.written.Nodup) (h : Scheduling m assignment deviceCount listed [] f)
    (hq : f.queues[d]? = some (i :: rest)) :
    Scheduling m assignment deviceCount (i :: listed) (told m i)
      { f with queues := f.queues.set d rest } := by
  obtain ⟨hlt, hd, hnew, -, hzero⟩ := h.queued d _ hq i List.mem_cons_self
  have hready := waiting_eq_zero_iff.1 hzero
  obtain ⟨hirest, hrest⟩ := List.nodup_cons.1 (h.queue_nodup d _ hq)
  have hdlt := (List.getElem?_eq_some_iff.1 hq).1
  have hcons := waiting_cons single hnew
  have hqueue : ∀ (e : Nat) q, (f.queues.set d rest)[e]? = some q →
      ∃ old, f.queues[e]? = some old ∧ q.Sublist old ∧ i ∉ q := by
    intro e q he
    by_cases hde : d = e
    · subst hde
      rw [List.getElem?_set_self hdlt] at he
      obtain rfl := Option.some.inj he
      exact ⟨_, hq, List.sublist_cons_self i rest, hirest⟩
    · rw [List.getElem?_set_ne hde] at he
      refine ⟨q, he, List.Sublist.refl q, fun hmem => hde ?_⟩
      exact hd.symm.trans (h.queued e q he i hmem).2.1
  refine ⟨⟨hnew, hready, h.ordered⟩, ?_, ?_, ?_, ?_, ?_, ?_, ?_⟩
  · intro j hj
    rcases List.mem_cons.1 hj with rfl | hj
    · exact hlt
    · exact h.listed_lt j hj
  · rw [List.length_set]
    exact h.queues_length
  · intro j hj
    rw [h.counts j hj, hcons j, List.count_nil, Nat.add_zero]
  · -- whatever reads from `i` has been waiting for it
    intro j hj
    have hedge := (mem_told single).1 hj
    refine ⟨(edges_lt hedge).2, fun hmem => hnew ?_⟩
    rcases List.mem_cons.1 hmem with rfl | hmem
    · exact hready _ hedge rfl
    · exact h.ordered.closed hedge hmem
  · intro e q he
    obtain ⟨old, hold, hsub, -⟩ := hqueue e q he
    exact (h.queue_nodup e old hold).sublist hsub
  · intro e q he j hj
    obtain ⟨old, hold, hsub, hi⟩ := hqueue e q he
    obtain ⟨hjlt, hje, hlisted, -, hjzero⟩ := h.queued e old hold j (hsub.subset hj)
    have hsum := hcons j
    refine ⟨hjlt, hje, fun hmem => ?_, List.count_eq_zero.1 (by omega), by omega⟩
    rcases List.mem_cons.1 hmem with rfl | hmem
    · exact hi hj
    · exact hlisted hmem
  · intro j hj hjzero harriving hlisted
    have hsum := hcons j
    rw [hjzero, List.count_eq_zero.2 harriving] at hsum
    have hji : j ≠ i := fun heq => hlisted (heq ▸ List.mem_cons_self)
    obtain ⟨q, hjq, hmem⟩ := h.reached j hj hsum List.not_mem_nil
      fun hmem => hlisted (List.mem_cons_of_mem i hmem)
    by_cases hdj : d = assignment.getD j 0
    · rw [← hdj] at hjq ⊢
      obtain rfl := Option.some.inj (hq.symm.trans hjq)
      exact ⟨rest, List.getElem?_set_self hdlt, (List.mem_cons.1 hmem).resolve_left hji⟩
    · exact ⟨q, (List.getElem?_set_ne hdj).trans hjq, hmem⟩

theorem complete_eq_foldl (m : Model) (assignment : List Nat) (f : Frontier) (i : Nat) :
    f.complete m assignment i = (told m i).foldl (arrive assignment) f := by
  rw [complete, told]
  cases m.operations[i]? <;> rfl

/-- Everything that waits for an operation is told that it is in a group. -/
theorem Scheduling.complete {listed : List Nat} {f : Frontier} {i : Nat}
    (assigned : ∀ i < m.operations.length, assignment.getD i 0 < deviceCount)
    (h : Scheduling m assignment deviceCount listed (told m i) f) :
    Scheduling m assignment deviceCount listed [] (f.complete m assignment i) := by
  rw [complete_eq_foldl]
  generalize told m i = arriving at h ⊢
  induction arriving generalizing f with
  | nil => exact h
  | cons j rest ih => exact ih (h.arrive assigned)

/-! ## Groups -/

theorem Scheduling.length_le {listed arriving : List Nat} {f : Frontier}
    (h : Scheduling m assignment deviceCount listed arriving f) :
    listed.length ≤ m.operations.length := by
  have hsub : listed ⊆ List.range m.operations.length := fun i hi =>
    List.mem_range.2 (h.listed_lt i hi)
  simpa using (List.Nodup.subperm h.ordered.nodup hsub).length_le

theorem getElem?_of_getD {queues : List (List Nat)} {d i : Nat} {rest : List Nat}
    (h : queues.getD d [] = i :: rest) : queues[d]? = some (i :: rest) := by
  rw [List.getD_eq_getElem?_getD] at h
  cases hq : queues[d]? with
  | none =>
    rw [hq] at h
    cases h
  | some q =>
    rw [hq] at h
    exact congrArg some h

/-- Nothing waits once every operation is in a group. -/
theorem Scheduling.queue_eq_nil {listed : List Nat} {f : Frontier} (single : m.written.Nodup)
    (h : Scheduling m assignment deviceCount listed [] f)
    (full : m.operations.length ≤ listed.length) (d : Nat) : f.queues.getD d [] = [] := by
  rw [List.getD_eq_getElem?_getD]
  cases hq : f.queues[d]? with
  | none => rfl
  | some q =>
    cases q with
    | nil => rfl
    | cons i rest =>
      have hle := (h.take single hq).length_le
      rw [List.length_cons] at hle
      omega

theorem Scheduling.findIdx?_eq_none {listed : List Nat} {f : Frontier} (single : m.written.Nodup)
    (h : Scheduling m assignment deviceCount listed [] f)
    (full : m.operations.length ≤ listed.length) : f.queues.findIdx? (!·.isEmpty) = none := by
  refine List.findIdx?_eq_none_iff.2 fun q hq => ?_
  obtain ⟨d, hd⟩ := List.mem_iff_getElem?.1 hq
  have hempty := h.queue_eq_nil single full d
  rw [List.getD_eq_getElem?_getD, hd, Option.getD_some] at hempty
  simp [hempty]

theorem getD_ne_nil_of_findIdx? {queues : List (List Nat)} {d : Nat}
    (h : queues.findIdx? (!·.isEmpty) = some d) : queues.getD d [] ≠ [] := by
  obtain ⟨hlt, hne, -⟩ := List.findIdx?_eq_some_iff_getElem.1 h
  rw [List.getD_eq_getElem?_getD, List.getElem?_eq_getElem hlt, Option.getD_some]
  simpa using hne

/-- A queue is emptied into a group, with what becomes ready for it on the way. -/
theorem drain_spec (single : m.written.Nodup)
    (assigned : ∀ i < m.operations.length, assignment.getD i 0 < deviceCount) (d fuel : Nat)
    {listed : List Nat} {f : Frontier} (h : Scheduling m assignment deviceCount listed [] f)
    (enough : m.operations.length ≤ fuel + listed.length) :
    Scheduling m assignment deviceCount ((drain m assignment d fuel f).1.reverse ++ listed) []
        (drain m assignment d fuel f).2 ∧
      (∀ i ∈ (drain m assignment d fuel f).1, assignment.getD i 0 = d) ∧
      ((drain m assignment d fuel f).1 = [] → f.queues.getD d [] = []) := by
  induction fuel generalizing listed f with
  | zero =>
    rw [drain]
    exact ⟨h, by simp, fun _ => h.queue_eq_nil single (enough.trans_eq (Nat.zero_add _)) d⟩
  | succ fuel ih =>
    rw [drain]
    split
    · next hempty => exact ⟨h, by simp, fun _ => hempty⟩
    · next i rest hqueue =>
      have hq := getElem?_of_getD hqueue
      have hd := (h.queued d _ hq i List.mem_cons_self).2.1
      obtain ⟨hrest, hassigned, -⟩ := ih ((h.take single hq).complete assigned) (by
        rw [List.length_cons]
        omega)
      refine ⟨?_, ?_, by simp⟩
      · rw [List.reverse_cons, List.append_assoc, List.singleton_append]
        exact hrest
      · exact List.forall_mem_cons.2 ⟨hd, hassigned⟩

/-- The first queue that is not empty makes a group that is not empty. -/
theorem drain_ne_nil (single : m.written.Nodup)
    (assigned : ∀ i < m.operations.length, assignment.getD i 0 < deviceCount) {listed : List Nat}
    {f : Frontier} (h : Scheduling m assignment deviceCount listed [] f) {d : Nat}
    (hfirst : f.queues.findIdx? (!·.isEmpty) = some d) :
    (drain m assignment d m.operations.length f).1 ≠ [] := by
  obtain ⟨-, -, hempty⟩ :=
    drain_spec single assigned d m.operations.length h (Nat.le_add_right _ _)
  exact fun hnil => getD_ne_nil_of_findIdx? hfirst (hempty hnil)

/-- What is required of a group: it is not empty, and its operations are assigned to its device. -/
structure WellPlaced (assignment : List Nat) (deviceCount : Nat) (g : Group) : Prop where
  operations_ne : g.operations ≠ []
  device_lt : g.device < deviceCount
  assigned : ∀ i ∈ g.operations, assignment.getD i 0 = g.device

/-- Groups are made until no operation is left in a queue. -/
theorem groups_spec (single : m.written.Nodup)
    (assigned : ∀ i < m.operations.length, assignment.getD i 0 < deviceCount) (fuel : Nat)
    {listed : List Nat} {f : Frontier} (h : Scheduling m assignment deviceCount listed [] f)
    (enough : m.operations.length ≤ fuel + listed.length) :
    (∀ g ∈ groups m assignment m.operations.length fuel f,
      WellPlaced assignment deviceCount g) ∧
    ∃ f', Scheduling m assignment deviceCount
        (((groups m assignment m.operations.length fuel f).flatMap (·.operations)).reverse ++
          listed) [] f' ∧
      f'.queues.findIdx? (!·.isEmpty) = none := by
  induction fuel generalizing listed f with
  | zero =>
    exact ⟨by simp [groups], f, by simpa [groups] using h,
      h.findIdx?_eq_none single (enough.trans_eq (Nat.zero_add _))⟩
  | succ fuel ih =>
    rw [groups]
    split
    · next hnone => exact ⟨by simp, f, by simpa using h, hnone⟩
    · next d hsome =>
      obtain ⟨hdrained, hassigned, -⟩ :=
        drain_spec single assigned d m.operations.length h (Nat.le_add_right _ _)
      have hdrain := drain_ne_nil single assigned h hsome
      have hlength := List.length_pos_iff.2 hdrain
      obtain ⟨hplaced, f', hfinal, hidle⟩ := ih hdrained (by
        rw [List.length_append, List.length_reverse]
        omega)
      refine ⟨List.forall_mem_cons.2 ⟨⟨hdrain, ?_, hassigned⟩, hplaced⟩, f', ?_, hidle⟩
      · exact (List.findIdx?_eq_some_iff_getElem.1 hsome).1.trans_eq h.queues_length
      · rw [List.flatMap_cons, List.reverse_append, List.append_assoc]
        exact hfinal

/-! ## The schedule -/

theorem foldl_enqueue (assignment : List Nat) (is : List Nat) (f : Frontier) :
    is.foldl (fun f i => f.enqueue assignment i) f =
      { f with
        queues := f.queues.mapIdx fun d q =>
          q ++ is.filter fun i => assignment.getD i 0 == d } := by
  induction is generalizing f with
  | nil =>
    refine Frontier.mk.injEq .. |>.mpr ⟨rfl, (List.mapIdx_eq_iff.2 fun d => ?_).symm⟩
    cases f.queues[d]? <;> simp
  | cons i rest ih =>
    rw [List.foldl_cons, ih]
    simp only [enqueue, Frontier.mk.injEq, true_and]
    refine List.ext_getElem? fun d => ?_
    rw [List.getElem?_mapIdx, List.getElem?_mapIdx, List.getElem?_modify, List.filter_cons]
    generalize assignment.getD i 0 = e
    by_cases hd : e = d
    · cases f.queues[d]? <;> simp [hd]
    · cases f.queues[d]? <;> simp [hd]

theorem getElem?_initialCounts (m : Model) {i : Nat} (hi : i < m.operations.length) :
    (initialCounts m)[i]? = some (waiting m [] i) := by
  rw [initialCounts, List.getElem?_map, waiting, List.getElem?_eq_getElem hi, Option.map_some]
  refine congrArg some (List.countP_congr fun o _ => ?_)
  rw [pendingInput]
  cases m.producer? o <;> simp

theorem scheduling_initial
    (assigned : ∀ i < m.operations.length, assignment.getD i 0 < deviceCount) :
    Scheduling m assignment deviceCount [] [] (initial m assignment deviceCount) := by
  have hready : ∀ i, i ∈ (List.range m.operations.length).filter
      (fun i => (initialCounts m).getD i 0 == 0) ↔
        i < m.operations.length ∧ waiting m [] i = 0 := by
    intro i
    rw [List.mem_filter, List.mem_range]
    refine and_congr_right fun hi => ?_
    rw [List.getD_eq_getElem?_getD, getElem?_initialCounts m hi, Option.getD_some, beq_iff_eq]
  have hinitial : initial m assignment deviceCount =
      ⟨initialCounts m, (List.replicate deviceCount []).mapIdx fun d q =>
        q ++ ((List.range m.operations.length).filter fun i =>
          (initialCounts m).getD i 0 == 0).filter fun i => assignment.getD i 0 == d⟩ :=
    foldl_enqueue assignment _ _
  have hqueue : ∀ (d : Nat) q, (initial m assignment deviceCount).queues[d]? = some q →
      q = ((List.range m.operations.length).filter fun i =>
        (initialCounts m).getD i 0 == 0).filter fun i => assignment.getD i 0 == d := by
    intro d q hq
    rw [hinitial, List.getElem?_mapIdx, List.getElem?_replicate] at hq
    split at hq
    · exact (Option.some.inj hq).symm
    · cases hq
  refine ⟨trivial, by simp, ?_, ?_, by simp, ?_, ?_, ?_⟩
  · rw [hinitial, List.length_mapIdx, List.length_replicate]
  · intro i hi
    rw [List.count_nil, Nat.add_zero, ← getElem?_initialCounts m hi, hinitial]
  · intro d q hq
    rw [hqueue d q hq]
    exact (List.nodup_range.filter _).filter _
  · intro d q hq i hi
    rw [hqueue d q hq] at hi
    obtain ⟨hmem, hd⟩ := List.mem_filter.1 hi
    obtain ⟨hilt, hzero⟩ := (hready i).1 hmem
    exact ⟨hilt, beq_iff_eq.1 hd, List.not_mem_nil, List.not_mem_nil, hzero⟩
  · intro i hi hzero _ _
    have hd := assigned i hi
    rw [hinitial, List.getElem?_mapIdx, List.getElem?_replicate, if_pos hd]
    refine ⟨_, rfl, List.mem_append_right _ (List.mem_filter.2 ⟨(hready i).2 ⟨hi, hzero⟩, ?_⟩)⟩
    exact beq_self_eq_true _

end Frontier

/-- The groups of a schedule hold every operation once and behind all it depends on. -/
theorem schedule_spec {m : Model} (h : Valid m) {assignment : List Nat} {deviceCount : Nat}
    (assigned : ∀ i < m.operations.length, assignment.getD i 0 < deviceCount) :
    (∀ g ∈ schedule m assignment deviceCount,
      Frontier.WellPlaced assignment deviceCount g) ∧
    ((schedule m assignment deviceCount).flatMap (·.operations)).Perm
      (List.range m.operations.length) ∧
    Ordered m.edges ((schedule m assignment deviceCount).flatMap (·.operations)).reverse := by
  obtain ⟨hplaced, f, hfinal, hidle⟩ := Frontier.groups_spec h.single assigned
    m.operations.length (Frontier.scheduling_initial assigned) (Nat.le_add_right _ _)
  rw [List.append_nil] at hfinal
  obtain ⟨order, horder⟩ := h.acyclic
  obtain ⟨hperm, hordered⟩ := topologicalOrder_ok horder
  have hall : ∀ i ∈ order.reverse,
      i ∈ ((schedule m assignment deviceCount).flatMap (·.operations)).reverse := by
    refine hordered.subset fun i hi hready => ?_
    -- nothing is left in a queue, so what is ready has been put into a group
    have hlt := List.mem_range.1 (hperm.mem_iff.1 (List.mem_reverse.1 hi))
    by_contra hmissing
    obtain ⟨q, hq, hmem⟩ := hfinal.reached i hlt (Frontier.waiting_eq_zero_iff.2 hready)
      List.not_mem_nil hmissing
    have hempty := List.findIdx?_eq_none_iff.1 hidle q (List.mem_of_getElem? hq)
    exact List.ne_nil_of_mem hmem (by simpa using hempty)
  refine ⟨hplaced, ?_, hfinal.ordered⟩
  refine (List.perm_ext_iff_of_nodup (List.nodup_reverse.1 hfinal.ordered.nodup)
    List.nodup_range).2 fun i => ?_
  constructor
  · exact fun hi => List.mem_range.2 (hfinal.listed_lt i (List.mem_reverse.2 hi))
  · exact fun hi =>
      List.mem_reverse.1 (hall i (List.mem_reverse.2 (hperm.mem_iff.2 hi)))

end NeuralDispatch

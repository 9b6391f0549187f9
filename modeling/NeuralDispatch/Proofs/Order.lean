import NeuralDispatch.Model.Order
import Mathlib.Data.List.Nodup
import Mathlib.Data.List.Perm.Subperm
import Mathlib.Data.List.Range

/-!
# Producers and evaluation order

Which operation writes an operand, and what the walk of `Model.topologicalOrder` gives.

* `producer?_eq_some_iff` — where no operand is written twice, the producer of an operand is the
  one operation that writes it.
* `topologicalOrder_ok` — an order that is given lists every operation once, and each one behind
  all it depends on.
* `topologicalOrder_of_rank` — an order is given whenever the dependencies go up in some rank, so
  the walk gets stuck on nothing but a cycle.
-/

namespace NeuralDispatch.Model

/-! ## Who writes an operand -/

/-- The operands that operations write, as often as they do. -/
def written (m : Model) : List Nat := m.operations.flatMap (·.outputs)

theorem mem_written {m : Model} {o : Nat} :
    o ∈ m.written ↔ ∃ op ∈ m.operations, o ∈ op.outputs := List.mem_flatMap

theorem lastWriter_eq_some {o i : Nat} {ops : List Operation} (h : lastWriter o ops = some i) :
    ∃ op, ops[i]? = some op ∧ o ∈ op.outputs := by
  induction ops generalizing i with
  | nil => simp [lastWriter] at h
  | cons op rest ih =>
    rw [lastWriter] at h
    split at h
    · next j hj =>
      obtain rfl := Option.some.inj h
      simpa using ih hj
    · split at h
      · next ho =>
        obtain rfl := Option.some.inj h
        exact ⟨op, rfl, ho⟩
      · exact absurd h (by simp)

theorem isSome_lastWriter {o : Nat} {ops : List Operation} :
    (lastWriter o ops).isSome ↔ ∃ op ∈ ops, o ∈ op.outputs := by
  induction ops with
  | nil => simp [lastWriter]
  | cons op rest ih =>
    rw [lastWriter]
    split
    · next j hj =>
      rw [hj] at ih
      exact ⟨fun _ => by simpa using Or.inr (ih.1 rfl), fun _ => rfl⟩
    · next hj =>
      rw [hj] at ih
      have hrest : ¬ ∃ op ∈ rest, o ∈ op.outputs := fun h => by simpa using ih.2 h
      split
      · next ho => simp [ho]
      · next ho => simpa [ho] using hrest

theorem isSome_producer? {m : Model} {o : Nat} : (m.producer? o).isSome ↔ o ∈ m.written :=
  isSome_lastWriter.trans mem_written.symm

/-- What occurs once in lists put end to end is in one of them. -/
theorem position_unique {α β : Type} {xs : List α} {f : α → List β} (single : (xs.flatMap f).Nodup)
    {i j : Nat} {a b : α} {x : β} (hi : xs[i]? = some a) (hj : xs[j]? = some b) (ha : x ∈ f a)
    (hb : x ∈ f b) : i = j := by
  obtain ⟨hi', rfl⟩ := List.getElem?_eq_some_iff.1 hi
  obtain ⟨hj', rfl⟩ := List.getElem?_eq_some_iff.1 hj
  have hdisjoint := (List.nodup_flatMap.1 single).2
  rw [List.pairwise_iff_getElem] at hdisjoint
  rcases Nat.lt_trichotomy i j with h | h | h
  · exact absurd hb (hdisjoint i j hi' hj' h ha)
  · exact h
  · exact absurd ha (hdisjoint j i hj' hi' h hb)

/-- An operand that is written once has one writer. -/
theorem writer_unique {m : Model} (single : m.written.Nodup) {i j o : Nat} {a b : Operation}
    (hi : m.operations[i]? = some a) (hj : m.operations[j]? = some b) (ha : o ∈ a.outputs)
    (hb : o ∈ b.outputs) : i = j := position_unique single hi hj ha hb

theorem producer?_eq_some_iff {m : Model} (single : m.written.Nodup) {o i : Nat} :
    m.producer? o = some i ↔ ∃ op, m.operations[i]? = some op ∧ o ∈ op.outputs := by
  constructor
  · exact lastWriter_eq_some
  · rintro ⟨op, hi, ho⟩
    have hsome : (m.producer? o).isSome :=
      isSome_producer?.2 (mem_written.2 ⟨op, List.mem_of_getElem? hi, ho⟩)
    obtain ⟨j, hj⟩ := Option.isSome_iff_exists.1 hsome
    obtain ⟨b, hb, hob⟩ := lastWriter_eq_some hj
    rw [hj, writer_unique single hi hb ho hob]

theorem producer?_lt {m : Model} {o i : Nat} (h : m.producer? o = some i) :
    i < m.operations.length := by
  obtain ⟨op, hi, -⟩ := lastWriter_eq_some h
  exact (List.getElem?_eq_some_iff.1 hi).1

theorem mem_edges {m : Model} {w r : Nat} :
    (w, r) ∈ m.edges ↔
      ∃ op o, m.operations[r]? = some op ∧ o ∈ op.inputs ∧ m.producer? o = some w := by
  constructor
  · intro h
    obtain ⟨⟨op, i⟩, hop, hmem⟩ := List.mem_flatMap.1 h
    obtain ⟨o, ho, heq⟩ := List.mem_filterMap.1 hmem
    obtain ⟨p, hp, hpair⟩ := Option.map_eq_some_iff.1 heq
    obtain ⟨rfl, rfl⟩ := Prod.mk.inj hpair
    exact ⟨op, o, List.mem_zipIdx_iff_getElem?.1 hop, ho, hp⟩
  · rintro ⟨op, o, hop, ho, hp⟩
    refine List.mem_flatMap.2 ⟨(op, r), List.mem_zipIdx_iff_getElem?.2 hop, ?_⟩
    exact List.mem_filterMap.2 ⟨o, ho, by rw [hp]; rfl⟩

/-! ## Lists in which each operation follows what it depends on -/

/-- Whether everything that an operation depends on is among the listed ones. -/
def Ready (edges : List (Nat × Nat)) (listed : List Nat) (i : Nat) : Prop :=
  ∀ e ∈ edges, e.2 = i → e.1 ∈ listed

theorem isReady_iff {edges : List (Nat × Nat)} {listed : List Nat} {i : Nat} :
    isReady edges listed i = true ↔ Ready edges listed i := by
  simp only [isReady, Ready, List.all_eq_true, Bool.or_eq_true, bne_iff_ne, List.contains_iff_mem]
  exact forall₂_congr fun e _ => (Decidable.imp_iff_not_or).symm

theorem Ready.mono {edges : List (Nat × Nat)} {listed listed' : List Nat} {i : Nat}
    (h : Ready edges listed i) (sub : ∀ j ∈ listed, j ∈ listed') : Ready edges listed' i :=
  fun e he hi => sub e.1 (h e he hi)

/-- Each operation of the list, the latest of which comes first, is listed once and behind all it
depends on. -/
def Ordered (edges : List (Nat × Nat)) : List Nat → Prop
  | [] => True
  | i :: earlier => i ∉ earlier ∧ Ready edges earlier i ∧ Ordered edges earlier

theorem Ordered.nodup {edges : List (Nat × Nat)} {listed : List Nat}
    (h : Ordered edges listed) : listed.Nodup := by
  induction listed with
  | nil => exact List.nodup_nil
  | cons i earlier ih => exact List.nodup_cons.2 ⟨h.1, ih h.2.2⟩

/-- What has been listed before is ordered. -/
theorem Ordered.of_append {edges : List (Nat × Nat)} {later earlier : List Nat}
    (h : Ordered edges (later ++ earlier)) : Ordered edges earlier := by
  induction later with
  | nil => exact h
  | cons i later ih => exact ih h.2.2

/-- With an operation, everything it depends on is listed. -/
theorem Ordered.closed {edges : List (Nat × Nat)} {listed : List Nat} (h : Ordered edges listed)
    {e : Nat × Nat} (he : e ∈ edges) (hmem : e.2 ∈ listed) : e.1 ∈ listed := by
  induction listed with
  | nil => exact absurd hmem List.not_mem_nil
  | cons i earlier ih =>
    rcases List.mem_cons.1 hmem with hi | hearlier
    · exact List.mem_cons_of_mem i (h.2.1 e he hi)
    · exact List.mem_cons_of_mem i (ih h.2.2 hearlier)

/-- What depends on an operation stands behind it. -/
theorem Ordered.lt_of_edge {edges : List (Nat × Nat)} {order : List Nat}
    (h : Ordered edges order.reverse) {w r a b : Nat} (hw : order[w]? = some a)
    (hr : order[r]? = some b) (he : (a, b) ∈ edges) : w < r := by
  obtain ⟨hwlt, rfl⟩ := List.getElem?_eq_some_iff.1 hw
  obtain ⟨hrlt, rfl⟩ := List.getElem?_eq_some_iff.1 hr
  have hnodup := List.nodup_reverse.1 h.nodup
  have hsplit : order.reverse =
      (order.drop (r + 1)).reverse ++ (order[r] :: (order.take r).reverse) := by
    conv_lhs => rw [← List.take_append_drop r order, List.drop_eq_getElem_cons hrlt]
    simp
  rw [hsplit] at h
  obtain ⟨-, hready, -⟩ := Ordered.of_append h
  obtain ⟨k, hk⟩ := List.mem_iff_getElem?.1 (List.mem_reverse.1 (hready _ he rfl))
  obtain ⟨hklt, heq⟩ := List.getElem?_eq_some_iff.1 hk
  rw [List.length_take] at hklt
  rw [List.getElem_take] at heq
  have hkw : k = w := (List.Nodup.getElem_inj_iff hnodup).1 heq
  omega

/-- A list that takes up whatever is ready takes up every ordered list. -/
theorem Ordered.subset {edges : List (Nat × Nat)} {listed all : List Nat} (h : Ordered edges listed)
    (takes : ∀ i ∈ listed, Ready edges all i → i ∈ all) : ∀ i ∈ listed, i ∈ all := by
  induction listed with
  | nil => simp
  | cons i earlier ih =>
    have hearlier := ih h.2.2 fun j hj => takes j (List.mem_cons_of_mem i hj)
    intro j hj
    rcases List.mem_cons.1 hj with rfl | hj
    · exact takes j List.mem_cons_self (h.2.1.mono hearlier)
    · exact hearlier j hj

/-! ## The walk -/

/-- What holds of the walk at every turn, over `count` operations. -/
structure Walking (edges : List (Nat × Nat)) (count : Nat) (stack listed : List Nat) : Prop where
  ordered : Ordered edges listed
  listed_lt : ∀ i ∈ listed, i < count
  stack_lt : ∀ i ∈ stack, i < count
  stack_ready : ∀ i ∈ stack, Ready edges listed i
  /-- What can be listed next is on the stack. -/
  reached : ∀ i < count, Ready edges listed i → i ∈ listed ∨ i ∈ stack

theorem Walking.skip {edges : List (Nat × Nat)} {count i : Nat} {stack listed : List Nat}
    (h : Walking edges count (i :: stack) listed) (hi : i ∈ listed) :
    Walking edges count stack listed where
  ordered := h.ordered
  listed_lt := h.listed_lt
  stack_lt := fun j hj => h.stack_lt j (List.mem_cons_of_mem i hj)
  stack_ready := fun j hj => h.stack_ready j (List.mem_cons_of_mem i hj)
  reached := fun j hj hready => by
    rcases h.reached j hj hready with hlisted | hstack
    · exact Or.inl hlisted
    · rcases List.mem_cons.1 hstack with rfl | hstack
      · exact Or.inl hi
      · exact Or.inr hstack

theorem mem_dependents {edges : List (Nat × Nat)} {i j : Nat} :
    j ∈ dependents edges i ↔ (i, j) ∈ edges := by
  simp [dependents]

theorem Walking.take {edges : List (Nat × Nat)} {count i : Nat} {stack listed : List Nat}
    (bound : ∀ e ∈ edges, e.2 < count) (h : Walking edges count (i :: stack) listed)
    (hi : i ∉ listed) :
    Walking edges count ((dependents edges i).filter (isReady edges (i :: listed)) ++ stack)
      (i :: listed) where
  ordered := ⟨hi, h.stack_ready i List.mem_cons_self, h.ordered⟩
  listed_lt := fun j hj => by
    rcases List.mem_cons.1 hj with rfl | hj
    · exact h.stack_lt j List.mem_cons_self
    · exact h.listed_lt j hj
  stack_lt := fun j hj => by
    rcases List.mem_append.1 hj with hj | hj
    · exact bound (i, j) (mem_dependents.1 (List.mem_of_mem_filter hj))
    · exact h.stack_lt j (List.mem_cons_of_mem i hj)
  stack_ready := fun j hj => by
    rcases List.mem_append.1 hj with hj | hj
    · exact isReady_iff.1 (List.mem_filter.1 hj).2
    · exact (h.stack_ready j (List.mem_cons_of_mem i hj)).mono fun _ => List.mem_cons_of_mem i
  reached := fun j hj hready => by
    by_cases hold : Ready edges listed j
    · rcases h.reached j hj hold with hlisted | hstack
      · exact Or.inl (List.mem_cons_of_mem i hlisted)
      · rcases List.mem_cons.1 hstack with rfl | hstack
        · exact Or.inl List.mem_cons_self
        · exact Or.inr (List.mem_append_right _ hstack)
    · -- `i` is the last that `j` has waited for, so `j` has just been pushed
      obtain ⟨e, hnew⟩ := not_forall.1 hold
      obtain ⟨he, hrest⟩ := Classical.not_imp.1 hnew
      obtain ⟨hej, hmissing⟩ := Classical.not_imp.1 hrest
      have hsource : e.1 = i := (List.mem_cons.1 (hready e he hej)).resolve_right hmissing
      have hedge : (i, j) ∈ edges := by rw [← hsource, ← hej]; exact he
      refine Or.inr (List.mem_append_left _ (List.mem_filter.2 ⟨mem_dependents.2 hedge, ?_⟩))
      exact isReady_iff.2 hready

/-- The dependencies that have not been followed yet. -/
def pending (edges : List (Nat × Nat)) (listed : List Nat) : List (Nat × Nat) :=
  edges.filter fun e => !listed.contains e.1

theorem length_pending_cons (edges : List (Nat × Nat)) {listed : List Nat} {i : Nat}
    (hi : i ∉ listed) :
    (pending edges listed).length =
      (dependents edges i).length + (pending edges (i :: listed)).length := by
  simp only [pending, dependents, List.length_map, ← List.countP_eq_length_filter]
  induction edges with
  | nil => rfl
  | cons e rest ih =>
    simp only [List.countP_cons, ih]
    by_cases he : e.1 = i
    · simp [he, hi]
      omega
    · by_cases hlisted : e.1 ∈ listed
      · simp [he, hlisted]
      · simp [he, hlisted]
        omega

/-- The walk ends with everything listed that can be, each behind what it depends on. -/
theorem walk_spec {edges : List (Nat × Nat)} {count : Nat} (bound : ∀ e ∈ edges, e.2 < count)
    (fuel : Nat) {stack listed : List Nat} (h : Walking edges count stack listed)
    (enough : stack.length + (pending edges listed).length ≤ fuel) :
    Walking edges count [] (walk edges fuel stack listed) := by
  induction fuel generalizing stack listed with
  | zero =>
    have hstack : stack = [] := List.eq_nil_of_length_eq_zero (by omega)
    subst hstack
    exact h
  | succ fuel ih =>
    cases stack with
    | nil => exact h
    | cons i stack =>
      rw [List.length_cons] at enough
      rw [walk]
      split
      · next hi => exact ih (h.skip (List.contains_iff_mem.1 hi)) (by omega)
      · next hi =>
        have hi : i ∉ listed := fun hmem => hi (List.contains_iff_mem.2 hmem)
        refine ih (h.take bound hi) ?_
        have hfilter := List.length_filter_le (isReady edges (i :: listed)) (dependents edges i)
        have hpending := length_pending_cons edges hi
        rw [List.length_append]
        omega

theorem edges_lt {m : Model} {e : Nat × Nat} (he : e ∈ m.edges) :
    e.1 < m.operations.length ∧ e.2 < m.operations.length := by
  obtain ⟨op, o, hop, -, hp⟩ := mem_edges.1 he
  exact ⟨producer?_lt hp, (List.getElem?_eq_some_iff.1 hop).1⟩

theorem walking_walkOrder (m : Model) :
    Walking m.edges m.operations.length [] m.walkOrder.reverse := by
  rw [walkOrder, List.reverse_reverse]
  refine walk_spec (fun e he => (edges_lt he).2) _ ⟨trivial, by simp, ?_, ?_, ?_⟩ ?_
  · intro i hi
    exact List.mem_range.1 (List.mem_of_mem_filter (List.mem_reverse.1 hi))
  · intro i hi
    exact isReady_iff.1 (List.mem_filter.1 (List.mem_reverse.1 hi)).2
  · intro i hi hready
    refine Or.inr (List.mem_reverse.2 (List.mem_filter.2 ⟨List.mem_range.2 hi, ?_⟩))
    exact isReady_iff.2 hready
  · have hroots := List.length_filter_le (isReady m.edges []) (List.range m.operations.length)
    rw [List.length_range] at hroots
    have hpending : (pending m.edges []).length ≤ m.edges.length := List.length_filter_le _ _
    rw [List.length_reverse]
    omega

theorem walkOrder_subperm (m : Model) : m.walkOrder.Subperm (List.range m.operations.length) := by
  have hwalk := walking_walkOrder m
  refine List.Nodup.subperm (List.nodup_reverse.1 hwalk.ordered.nodup) fun i hi => ?_
  exact List.mem_range.2 (hwalk.listed_lt i (List.mem_reverse.2 hi))

/-! ## The order -/

/-- An order that is given lists every operation once, behind all it depends on. -/
theorem topologicalOrder_ok {m : Model} {order : List Nat} (h : m.topologicalOrder = .ok order) :
    order.Perm (List.range m.operations.length) ∧ Ordered m.edges order.reverse := by
  rw [topologicalOrder] at h
  split at h
  · next hlength =>
    obtain rfl := Except.ok.inj h
    refine ⟨m.walkOrder_subperm.perm_of_length_le ?_, m.walking_walkOrder.ordered⟩
    rw [List.length_range, hlength]
  · exact absurd h (by simp)

/-- Dependencies that go up in some rank have an order. -/
theorem topologicalOrder_of_rank {m : Model} (rank : Nat → Nat)
    (up : ∀ e ∈ m.edges, rank e.1 < rank e.2) : ∃ order, m.topologicalOrder = .ok order := by
  have hall : ∀ r i, rank i = r → i < m.operations.length → i ∈ m.walkOrder.reverse := by
    intro r
    induction r using Nat.strong_induction_on with
    | _ r ih =>
      intro i hr hi
      refine (m.walking_walkOrder.reached i hi fun e he hei => ?_).resolve_right List.not_mem_nil
      have hlt : rank e.1 < r := by rw [← hr, ← hei]; exact up e he
      exact ih (rank e.1) hlt e.1 rfl (edges_lt he).1
  have hsub : List.range m.operations.length ⊆ m.walkOrder := fun i hi =>
    List.mem_reverse.1 (hall (rank i) i rfl (List.mem_range.1 hi))
  have hge := (List.nodup_range.subperm hsub).length_le
  have hle := m.walkOrder_subperm.length_le
  rw [List.length_range] at hge hle
  exact ⟨m.walkOrder, if_pos (Nat.le_antisymm hle hge)⟩

end NeuralDispatch.Model

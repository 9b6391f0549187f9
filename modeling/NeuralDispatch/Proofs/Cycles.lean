import NeuralDispatch.Proofs.Order
import Mathlib.Data.Finset.Card
import Mathlib.Data.Finset.Range
import Mathlib.Logic.Relation

/-!
# Cyclic dependencies

An operation depends on the last writer of each operand that it reads.  Whether these dependencies
run in a circle is a statement about the relation alone; that the walk of `Model.topologicalOrder`
gets stuck just then has to be proved.

* `WritesLast`, `Feeds` — the dependencies as a relation, and `Cyclic` for a circle of them.
* `producer?_eq_some_iff_writesLast` — the producer of an operand is the last operation that writes it.
* `exists_order_of_acyclic` — without a circle, the number of operations that come before is a
  rank, so an order is given.
* `topologicalOrder_spec` — an order is refused for a circle and for nothing else; otherwise the
  walk lists every operation once, each behind the last writers of what it reads.
-/

namespace NeuralDispatch.Model

/-! ## Dependencies as a relation -/

/-- Whether an operation writes an operand and no later one does. -/
def WritesLast (m : Model) (o w : Nat) : Prop :=
  (∃ op, m.operations[w]? = some op ∧ o ∈ op.outputs) ∧
    ∀ (v : Nat) op, w < v → m.operations[v]? = some op → o ∉ op.outputs

/-- Whether an operation is the last that writes something which another one reads. -/
def Feeds (m : Model) (w r : Nat) : Prop :=
  ∃ op o, m.operations[r]? = some op ∧ o ∈ op.inputs ∧ m.WritesLast o w

/-- Whether some operation depends on itself, be it directly or by way of others. -/
def Cyclic (m : Model) : Prop := ∃ i, Relation.TransGen m.Feeds i i

theorem not_written_after {o w : Nat} {ops : List Operation} (h : lastWriter o ops = some w) :
    ∀ (v : Nat) op, w < v → ops[v]? = some op → o ∉ op.outputs := by
  induction ops generalizing w with
  | nil => simp [lastWriter] at h
  | cons first rest ih =>
    intro v op hlt hop
    -- what comes behind the writer lies in the rest of the list
    obtain ⟨v, rfl⟩ : ∃ u, v = u + 1 := ⟨v - 1, by omega⟩
    rw [List.getElem?_cons_succ] at hop
    rw [lastWriter] at h
    split at h
    · next j hj =>
      obtain rfl := Option.some.inj h
      exact ih hj v op (Nat.lt_of_succ_lt_succ hlt) hop
    · next hnone =>
      intro ho
      have hsome := isSome_lastWriter.2 ⟨op, List.mem_of_getElem? hop, ho⟩
      rw [hnone] at hsome
      cases hsome

/-- The producer of an operand is the last operation that writes it. -/
theorem producer?_eq_some_iff_writesLast {m : Model} {o w : Nat} :
    m.producer? o = some w ↔ m.WritesLast o w := by
  constructor
  · intro h
    exact ⟨lastWriter_eq_some h, not_written_after h⟩
  · rintro ⟨⟨op, hop, ho⟩, hlast⟩
    have hsome : (m.producer? o).isSome :=
      isSome_producer?.2 (mem_written.2 ⟨op, List.mem_of_getElem? hop, ho⟩)
    obtain ⟨v, hv⟩ := Option.isSome_iff_exists.1 hsome
    obtain ⟨op', hop', ho'⟩ := lastWriter_eq_some hv
    rcases Nat.lt_trichotomy w v with hlt | heq | hgt
    · exact absurd ho' (hlast v op' hlt hop')
    · rw [hv, heq]
    · exact absurd ho (not_written_after hv w op hgt hop)

theorem mem_edges_iff_feeds {m : Model} {w r : Nat} : (w, r) ∈ m.edges ↔ m.Feeds w r := by
  simp only [mem_edges, Feeds, producer?_eq_some_iff_writesLast]

/-! ## No circle, no standstill -/

open Classical in
/-- The operations that must come before one. -/
noncomputable def ancestors (m : Model) (i : Nat) : Finset Nat :=
  (Finset.range m.operations.length).filter fun j => Relation.TransGen m.Feeds j i

theorem mem_ancestors {m : Model} {i j : Nat} :
    j ∈ m.ancestors i ↔ j < m.operations.length ∧ Relation.TransGen m.Feeds j i := by
  simp [ancestors]

theorem Feeds.lt {m : Model} {w r : Nat} (h : m.Feeds w r) : w < m.operations.length := by
  obtain ⟨op, o, -, -, ⟨writer, hwriter, -⟩, -⟩ := h
  exact (List.getElem?_eq_some_iff.1 hwriter).1

/-- What comes before a writer comes before its reader, and so does the writer, which does not come
before itself. -/
theorem ancestors_ssubset {m : Model} (acyclic : ¬ m.Cyclic) {w r : Nat} (h : m.Feeds w r) :
    m.ancestors w ⊂ m.ancestors r := by
  have hsub : m.ancestors w ⊆ m.ancestors r := by
    intro j hj
    obtain ⟨hlt, hpath⟩ := mem_ancestors.1 hj
    exact mem_ancestors.2 ⟨hlt, hpath.tail h⟩
  refine (Finset.ssubset_iff_of_subset hsub).2 ⟨w, ?_, ?_⟩
  · exact mem_ancestors.2 ⟨h.lt, Relation.TransGen.single h⟩
  · intro hself
    exact acyclic ⟨w, (mem_ancestors.1 hself).2⟩

theorem exists_order_of_acyclic {m : Model} (acyclic : ¬ m.Cyclic) :
    ∃ order, m.topologicalOrder = .ok order := by
  apply topologicalOrder_of_rank fun i => (m.ancestors i).card
  rintro ⟨w, r⟩ he
  exact Finset.card_lt_card (ancestors_ssubset acyclic (mem_edges_iff_feeds.1 he))

/-! ## An order, no circle -/

section Order

variable {m : Model} {order : List Nat}

theorem eq_walkOrder (h : m.topologicalOrder = .ok order) : order = m.walkOrder := by
  rw [topologicalOrder] at h
  split at h
  · exact (Except.ok.inj h).symm
  · cases h

/-- Where every operation is listed behind all it depends on, whatever feeds an operation stands
before it. -/
theorem Ordered.idxOf_lt (h : Ordered m.edges order.reverse)
    (hperm : order.Perm (List.range m.operations.length)) {w r : Nat} (hfeeds : m.Feeds w r) :
    order.idxOf w < order.idxOf r := by
  have hedge := mem_edges_iff_feeds.2 hfeeds
  obtain ⟨hw, hr⟩ := edges_lt hedge
  have hlisted : ∀ i < m.operations.length, order[order.idxOf i]? = some i := fun i hi =>
    List.getElem?_idxOf (hperm.mem_iff.2 (List.mem_range.2 hi))
  exact h.lt_of_edge (hlisted w hw) (hlisted r hr) hedge

/-- In an order, whatever feeds an operation stands before it. -/
theorem idxOf_lt_of_feeds (h : m.topologicalOrder = .ok order) {w r : Nat} (hfeeds : m.Feeds w r) :
    order.idxOf w < order.idxOf r := by
  obtain ⟨hperm, hordered⟩ := topologicalOrder_ok h
  exact hordered.idxOf_lt hperm hfeeds

theorem not_cyclic_of_order (h : m.topologicalOrder = .ok order) : ¬ m.Cyclic := by
  rintro ⟨i, hcycle⟩
  have hall : ∀ j, Relation.TransGen m.Feeds i j → order.idxOf i < order.idxOf j := by
    intro j hpath
    induction hpath with
    | single hfeeds => exact idxOf_lt_of_feeds h hfeeds
    | tail _ hfeeds ih => exact Nat.lt_trans ih (idxOf_lt_of_feeds h hfeeds)
  exact Nat.lt_irrefl _ (hall i hcycle)

end Order

/-- An order is refused for a circle of dependencies and for nothing else.  Without one, the walk
gives the order: it lists every operation once, and each one behind all that it depends on. -/
theorem topologicalOrder_spec (m : Model) :
    (m.topologicalOrder = .error .cycle ↔ m.Cyclic) ∧
      (¬ m.Cyclic → m.topologicalOrder = .ok m.walkOrder ∧
        m.walkOrder.Perm (List.range m.operations.length) ∧
        ∀ w r, m.Feeds w r → m.walkOrder.idxOf w < m.walkOrder.idxOf r) := by
  constructor
  · constructor
    · intro herror
      by_contra acyclic
      obtain ⟨order, horder⟩ := exists_order_of_acyclic acyclic
      rw [herror] at horder
      cases horder
    · intro hcyclic
      unfold topologicalOrder
      split
      · next hlength => exact absurd hcyclic (not_cyclic_of_order (if_pos hlength))
      · rfl
  · intro acyclic
    obtain ⟨order, horder⟩ := exists_order_of_acyclic acyclic
    obtain rfl := eq_walkOrder horder
    exact ⟨horder, (topologicalOrder_ok horder).1, fun w r => idxOf_lt_of_feeds horder⟩

/-- An operation that reads what it writes depends on itself, one that reads what a later operation
writes once more does not depend on the earlier writer. -/
example :
    topologicalOrder { operations := [⟨.relu, [0], [0]⟩] } = .error .cycle ∧
      topologicalOrder { operations := [⟨.relu, [0], [1]⟩, ⟨.relu, [1], [2]⟩, ⟨.relu, [0], [1]⟩] } =
        .ok [2, 1, 0] := by decide

end NeuralDispatch.Model

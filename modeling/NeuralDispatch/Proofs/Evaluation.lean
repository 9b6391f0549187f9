import NeuralDispatch.Interpreter
import NeuralDispatch.Proofs.Validation

/-!
# What an evaluation computes

The value of an operand does not depend on the order in which operations are evaluated.  What counts
of a value are its words; the extents are carried along and decide nothing.

* `Consistent` — whether the words of all operands are those that the operations compute from each
  other.
* `consistent_of_evaluate` — an evaluation that comes to its end leaves consistent words.
* `evaluate_of_consistent` — where consistent words are known beforehand, every evaluation comes to
  its end and finds them.
-/

namespace NeuralDispatch

open Answer Model

/-! ## Words -/

/-- The words of operands, as far as they are known. -/
abbrev Contents := Nat → Option (List Single)

namespace Valuation

/-- The words of the values. -/
def contents (v : Valuation) : Contents := fun o => (v o).map (·.data)

theorem bind_self (v : Valuation) (o : Nat) (t : Tensor) : v.bind o t o = some t := if_pos rfl

theorem bind_of_ne (v : Valuation) {o o' : Nat} (t : Tensor) (h : o' ≠ o) :
    v.bind o t o' = v o' := if_neg h

theorem contents_bind (v : Valuation) (o : Nat) (t : Tensor) (o' : Nat) :
    (v.bind o t).contents o' = if o' = o then some t.data else v.contents o' := by
  unfold contents bind
  split <;> rfl

/-- The words of some operands are those of their values. -/
theorem mapM_contents (v : Valuation) (os : List Nat) :
    os.mapM v.contents = (os.mapM v).map (List.map (·.data)) := mapM_map

end Valuation

/-- The words that an operation computes from those of its inputs. -/
def OperationType.compute (type : OperationType) (args : List (List Single)) :
    Option (List Single) :=
  (type.apply (args.map fun data => ⟨[], data⟩)).map (·.data)

/-- The extents of the inputs play no part in the words of the result. -/
theorem OperationType.map_apply (type : OperationType) (args : List Tensor) :
    (type.apply args).map (·.data) = type.compute (args.map (·.data)) := by
  rcases args with _ | ⟨a, _ | ⟨b, _ | ⟨c, rest⟩⟩⟩ <;> cases type <;>
    simp only [compute, apply, List.map_cons, List.map_nil, Option.map_none, Option.map_some,
      Tensor.map] <;>
    · unfold Tensor.zipWith?
      split <;> rfl

namespace Interpreter

/-- The words of all operands are those that the operations compute from each other. -/
structure Consistent (m : Model) (words : Contents) : Prop where
  computes : ∀ op ∈ m.operations, ∃ args o result, op.inputs.mapM words = some args ∧
    op.type.compute args = some result ∧ op.outputs.head? = some o ∧ words o = some result
  /-- Nothing but the first output of an operation gets a value. -/
  headed : ∀ op ∈ m.operations, ∀ o ∈ op.outputs, words o ≠ none → op.outputs.head? = some o

/-! ## One operation -/

theorem evaluate_eq_some {m : Model} {v v' : Valuation} {i : Nat} :
    evaluate m v i = some v' ↔
      ∃ op args result o, m.operations[i]? = some op ∧ op.inputs.mapM v = some args ∧
        op.type.apply args = some result ∧ op.outputs.head? = some o ∧ v' = v.bind o result := by
  simp only [evaluate, Option.bind_eq_bind, Option.bind_eq_some_iff, Option.pure_def,
    Option.some.injEq]
  constructor
  · rintro ⟨op, hop, args, hargs, result, hresult, o, ho, rfl⟩
    exact ⟨op, args, result, o, hop, hargs, hresult, ho, rfl⟩
  · rintro ⟨op, args, result, o, hop, hargs, hresult, ho, rfl⟩
    exact ⟨op, hop, args, hargs, result, hresult, o, ho, rfl⟩

/-- An operation finds the words that are consistent with those of its inputs. -/
theorem evaluate_ok {m : Model} {words : Contents} (h : Consistent m words) {v : Valuation}
    {i : Nat}
    {op : Operation} (hop : m.operations[i]? = some op)
    (hinputs : ∀ o ∈ op.inputs, v.contents o = words o) :
    ∃ o t, op.outputs.head? = some o ∧ words o = some t.data ∧
      evaluate m v i = some (v.bind o t) := by
  obtain ⟨args, o, result, hargs, hresult, ho, hword⟩ := h.computes op (List.mem_of_getElem? hop)
  rw [← mapM_eq_of_forall hinputs, Valuation.mapM_contents] at hargs
  obtain ⟨tensors, htensors, rfl⟩ := Option.map_eq_some_iff.1 hargs
  rw [← OperationType.map_apply] at hresult
  obtain ⟨t, ht, rfl⟩ := Option.map_eq_some_iff.1 hresult
  exact ⟨o, t, ho, hword, evaluate_eq_some.2 ⟨op, tensors, t, o, hop, htensors, ht, ho, rfl⟩⟩

/-! ## All operations -/

/-- An evaluation that comes to its end leaves consistent words, and all that no operation writes
as it was. -/
theorem foldlM_evaluate {m : Model} (single : m.written.Nodup) {order : List Nat}
    (hordered : Ordered m.edges order.reverse) {v v' : Valuation}
    (h : order.foldlM (evaluate m) v = some v') :
    (∀ i ∈ order, ∃ op args o result, m.operations[i]? = some op ∧ op.inputs.mapM v' = some args ∧
      op.type.apply args = some result ∧ op.outputs.head? = some o ∧ v' o = some result) ∧
      ∀ o, (∀ i ∈ order, ∀ op, m.operations[i]? = some op → op.outputs.head? ≠ some o) →
        v' o = v o := by
  induction order using List.reverseRecOn generalizing v' with
  | nil => exact ⟨by simp, fun o _ => congrFun (Option.some.inj h).symm o⟩
  | append_singleton init i ih =>
    obtain ⟨u, hu, hi⟩ := foldlM_concat_eq_some.1 h
    rw [List.reverse_append, List.reverse_singleton, List.singleton_append] at hordered
    obtain ⟨hnew, hready, hinit⟩ := hordered
    obtain ⟨hold, hkept⟩ := ih hinit hu
    obtain ⟨op, args, result, o, hop, hargs, hresult, ho, rfl⟩ := evaluate_eq_some.1 hi
    have howner : m.producer? o = some i :=
      (producer?_eq_some_iff single).2 ⟨op, hop, List.mem_of_head? ho⟩
    -- whatever reads the new value comes later
    have hunread : ∀ j ∈ i :: init.reverse, ∀ reader, m.operations[j]? = some reader →
        reader.inputs.mapM (u.bind o result) = reader.inputs.mapM u := by
      intro j hj reader hreader
      refine mapM_eq_of_forall fun o' ho' => Valuation.bind_of_ne u result ?_
      rintro rfl
      have hedge : (i, j) ∈ m.edges := mem_edges.2 ⟨reader, o', hreader, ho', howner⟩
      rcases List.mem_cons.1 hj with rfl | hj
      · exact hnew (hready _ hedge rfl)
      · exact hnew (hinit.closed hedge hj)
    constructor
    · intro j hj
      rcases List.mem_append.1 hj with hearlier | hlast
      · obtain ⟨op', args', o', result', hop', hargs', hresult', ho', hvalue⟩ := hold j hearlier
        refine ⟨op', args', o', result', hop', ?_, hresult', ho', ?_⟩
        · rw [hunread j (List.mem_cons_of_mem i (List.mem_reverse.2 hearlier)) op' hop', hargs']
        · rw [Valuation.bind_of_ne, hvalue]
          rintro rfl
          obtain rfl := writer_unique single hop' hop (List.mem_of_head? ho')
            (List.mem_of_head? ho)
          exact hnew (List.mem_reverse.2 hearlier)
      · obtain rfl := List.mem_singleton.1 hlast
        refine ⟨op, args, o, result, hop, ?_, hresult, ho, Valuation.bind_self u o result⟩
        rw [hunread j List.mem_cons_self op hop, hargs]
    · intro o' hunwritten
      rw [Valuation.bind_of_ne, hkept o' fun j hj => hunwritten j (List.mem_append_left _ hj)]
      rintro rfl
      exact hunwritten i (by simp) op hop ho

/-- An evaluation that comes to its end leaves consistent words. -/
theorem consistent_of_evaluate {m : Model} (single : m.written.Nodup) {order : List Nat}
    (hperm : order.Perm (List.range m.operations.length))
    (hordered : Ordered m.edges order.reverse) {v v' : Valuation}
    (hblank : ∀ o ∈ m.written, v o = none) (h : order.foldlM (evaluate m) v = some v') :
    Consistent m v'.contents ∧ ∀ o, o ∉ m.written → v' o = v o := by
  obtain ⟨hcomputes, hkept⟩ := foldlM_evaluate single hordered h
  have hall : ∀ op ∈ m.operations, ∃ i ∈ order, m.operations[i]? = some op := fun op hop => by
    obtain ⟨i, hi⟩ := List.mem_iff_getElem?.1 hop
    exact ⟨i, hperm.mem_iff.2 (List.mem_range.2 (List.getElem?_eq_some_iff.1 hi).1), hi⟩
  refine ⟨⟨fun op hop => ?_, fun op hop o ho hknown => ?_⟩, fun o ho => hkept o ?_⟩
  · obtain ⟨i, hi, hop⟩ := hall op hop
    obtain ⟨op', args, o, result, hop', hargs, hresult, ho, hvalue⟩ := hcomputes i hi
    obtain rfl := Option.some.inj (hop.symm.trans hop')
    refine ⟨args.map (·.data), o, result.data, ?_, ?_, ho, ?_⟩
    · rw [Valuation.mapM_contents, hargs, Option.map_some]
    · rw [← OperationType.map_apply, hresult, Option.map_some]
    · rw [Valuation.contents, hvalue, Option.map_some]
  · by_contra hother
    refine hknown ?_
    rw [Valuation.contents, hkept o, hblank o (mem_written.2 ⟨op, hop, ho⟩), Option.map_none]
    intro j hj op' hop' ho'
    obtain ⟨i, -, hi⟩ := hall op hop
    obtain rfl := writer_unique single hi hop' ho (List.mem_of_head? ho')
    obtain rfl := Option.some.inj (hi.symm.trans hop')
    exact hother ho'
  · intro i hi op hop ho'
    exact ho (mem_written.2 ⟨op, List.mem_of_getElem? hop, List.mem_of_head? ho'⟩)

/-- Where the consistent words of all that no operation writes are known beforehand, an evaluation
comes to its end and finds those of all results. -/
theorem evaluate_of_consistent {m : Model} {words : Contents} (h : Consistent m words)
    {v : Valuation}
    (hgiven : ∀ op ∈ m.operations, ∀ o ∈ op.inputs, o ∉ m.written → v.contents o = words o)
    {order : List Nat} (hlt : ∀ i ∈ order, i < m.operations.length)
    (hordered : Ordered m.edges order.reverse) :
    ∃ v', order.foldlM (evaluate m) v = some v' ∧
      (∀ i ∈ order, ∀ op, m.operations[i]? = some op → ∀ o, op.outputs.head? = some o →
        v'.contents o = words o) ∧
      ∀ o, o ∉ m.written → v' o = v o := by
  induction order using List.reverseRecOn with
  | nil => exact ⟨v, rfl, by simp, fun _ _ => rfl⟩
  | append_singleton init i ih =>
    rw [List.reverse_append, List.reverse_singleton, List.singleton_append] at hordered
    obtain ⟨-, hready, hinit⟩ := hordered
    obtain ⟨u, hu, hfound, hkept⟩ := ih (fun j hj => hlt j (List.mem_append_left _ hj)) hinit
    obtain ⟨op, hop⟩ : ∃ op, m.operations[i]? = some op :=
      ⟨_, List.getElem?_eq_getElem (hlt i (by simp))⟩
    have hmem := List.mem_of_getElem? hop
    obtain ⟨args, -, -, hargs, -⟩ := h.computes op hmem
    have hinputs : ∀ o ∈ op.inputs, u.contents o = words o := by
      intro o ho
      by_cases hwritten : o ∈ m.written
      · obtain ⟨j, hj⟩ := Option.isSome_iff_exists.1 (isSome_producer?.2 hwritten)
        obtain ⟨writer, hwriter, hwrites⟩ := lastWriter_eq_some hj
        have hlisted := hready _ (mem_edges.2 ⟨op, o, hop, ho, hj⟩) rfl
        obtain ⟨word, hword⟩ := exists_of_mapM_eq_some hargs ho
        have hhead := h.headed writer (List.mem_of_getElem? hwriter) o hwrites (by simp [hword])
        exact hfound j (List.mem_reverse.1 hlisted) writer hwriter o hhead
      · rw [Valuation.contents, hkept o hwritten]
        exact hgiven op hmem o ho hwritten
    obtain ⟨o, t, ho, hword, hevaluate⟩ := evaluate_ok h hop hinputs
    refine ⟨u.bind o t, ?_, fun j hj op' hop' o' ho' => ?_, fun o' ho' => ?_⟩
    · exact foldlM_concat_eq_some.2 ⟨u, hu, hevaluate⟩
    · rw [Valuation.contents_bind]
      split
      · next heq => rw [heq, hword]
      · next hne =>
        rcases List.mem_append.1 hj with hj | hj
        · exact hfound j hj op' hop' o' ho'
        · obtain rfl := List.mem_singleton.1 hj
          obtain rfl := Option.some.inj (hop.symm.trans hop')
          exact absurd (Option.some.inj (ho'.symm.trans ho)) hne
    · rw [Valuation.bind_of_ne, hkept o' ho']
      rintro rfl
      exact ho' (mem_written.2 ⟨op, hmem, List.mem_of_head? ho⟩)

end Interpreter

end NeuralDispatch

import NeuralDispatch.Proofs.Evaluation

/-!
# The order of operations in a model

A model lists its operations in the order in which they were added.  Another order gives them other
numbers, and the walk along the dependencies another course, but the values that come out are fixed
by what each operation computes, which does not mention numbers at all.

* `Solves` — the values of all operands in the end, without any order.
* `foldlM_evaluate_iff` — an evaluation in any topological order finds them, and fails if there are
  none.
* `run_perm` — models that list the same operations in different orders run alike.
-/

namespace NeuralDispatch

open Answer Model

namespace Interpreter

/-! ## Values without an order -/

/-- Every operation has computed its first output from its inputs, and whatever is not the first
output of an operation is as it was. -/
structure Solves (m : Model) (v u : Valuation) : Prop where
  computed : ∀ op ∈ m.operations, ∃ args o result, op.inputs.mapM u = some args ∧
    op.type.apply args = some result ∧ op.outputs.head? = some o ∧ u o = some result
  kept : ∀ o, (∀ op ∈ m.operations, op.outputs.head? ≠ some o) → u o = v o

/-- All that counts is which operations there are. -/
theorem solves_congr {m m' : Model} (h : ∀ op, op ∈ m'.operations ↔ op ∈ m.operations)
    {v u : Valuation} : Solves m' v u ↔ Solves m v u := by
  constructor
  · rintro ⟨hcomputed, hkept⟩
    exact ⟨fun op hop => hcomputed op ((h op).2 hop),
      fun o ho => hkept o fun op hop => ho op ((h op).1 hop)⟩
  · rintro ⟨hcomputed, hkept⟩
    exact ⟨fun op hop => hcomputed op ((h op).1 hop),
      fun o ho => hkept o fun op hop => ho op ((h op).2 hop)⟩

section Order

variable {m : Model} {order : List Nat} {v u : Valuation}

theorem mem_order (hperm : order.Perm (List.range m.operations.length)) {i : Nat} {op : Operation}
    (hop : m.operations[i]? = some op) : i ∈ order :=
  hperm.mem_iff.2 (List.mem_range.2 (List.getElem?_eq_some_iff.1 hop).1)

/-- What an evaluation finds, without the order. -/
theorem solves_of_foldlM (single : m.written.Nodup)
    (hperm : order.Perm (List.range m.operations.length))
    (hordered : Ordered m.edges order.reverse) (h : order.foldlM (evaluate m) v = some u) :
    Solves m v u := by
  obtain ⟨hcomputed, hkept⟩ := foldlM_evaluate single hordered h
  refine ⟨fun op hop => ?_, fun o ho => hkept o fun i _ op hop => ho op (List.mem_of_getElem? hop)⟩
  obtain ⟨i, hop⟩ := List.mem_iff_getElem?.1 hop
  obtain ⟨op', args, o, result, hop', hvalues⟩ := hcomputed i (mem_order hperm hop)
  obtain rfl := Option.some.inj (hop.symm.trans hop')
  exact ⟨args, o, result, hvalues⟩

/-- An operation finds its value in the end if its inputs have theirs. -/
theorem Solves.evaluate (h : Solves m v u) {w : Valuation} {i : Nat} {op : Operation}
    (hop : m.operations[i]? = some op) (hinputs : ∀ o ∈ op.inputs, w o = u o) :
    ∃ o t, op.outputs.head? = some o ∧ u o = some t ∧ evaluate m w i = some (w.bind o t) := by
  obtain ⟨args, o, result, hargs, hresult, ho, hvalue⟩ := h.computed op (List.mem_of_getElem? hop)
  rw [← mapM_eq_of_forall hinputs] at hargs
  exact ⟨o, result, ho, hvalue,
    evaluate_eq_some.2 ⟨op, args, result, o, hop, hargs, hresult, ho, rfl⟩⟩

/-- Halfway through an evaluation, the operations so far have their values in the end, and
everything else is as it was. -/
structure Halfway (m : Model) (listed : List Nat) (v u w : Valuation) : Prop where
  found : ∀ i ∈ listed, ∀ op o, m.operations[i]? = some op → op.outputs.head? = some o → w o = u o
  kept : ∀ o, (∀ i ∈ listed, ∀ op, m.operations[i]? = some op → op.outputs.head? ≠ some o) →
    w o = v o

/-- An operand has its value in the end once the operation that computes it, if any, has had its
turn. -/
theorem Halfway.eq_of_listed {listed : List Nat} {w : Valuation} (h : Halfway m listed v u w)
    (hsolves : Solves m v u) {o : Nat}
    (hlisted : ∀ i op, m.operations[i]? = some op → op.outputs.head? = some o → i ∈ listed) :
    w o = u o := by
  by_cases hwritten : ∃ writer ∈ m.operations, writer.outputs.head? = some o
  · obtain ⟨writer, hmem, hhead⟩ := hwritten
    obtain ⟨i, hi⟩ := List.mem_iff_getElem?.1 hmem
    exact h.found i (hlisted i writer hi hhead) writer o hi hhead
  · have hunwritten : ∀ writer ∈ m.operations, writer.outputs.head? ≠ some o :=
      fun writer hmem hhead => hwritten ⟨writer, hmem, hhead⟩
    rw [hsolves.kept o hunwritten]
    exact h.kept o fun i _ writer hi => hunwritten writer (List.mem_of_getElem? hi)

/-- The inputs of an operation whose turn it is have their values in the end. -/
theorem Halfway.inputs {listed : List Nat} {w : Valuation} (h : Halfway m listed v u w)
    (hsolves : Solves m v u) (single : m.written.Nodup) {i : Nat} {op : Operation}
    (hop : m.operations[i]? = some op) (hready : Ready m.edges listed i) :
    ∀ o ∈ op.inputs, w o = u o := by
  intro o ho
  refine h.eq_of_listed hsolves fun j writer hj hhead => ?_
  have hproducer : m.producer? o = some j :=
    (producer?_eq_some_iff single).2 ⟨writer, hj, List.mem_of_head? hhead⟩
  exact hready _ (mem_edges.2 ⟨op, o, hop, ho, hproducer⟩) rfl

/-- Another operation in its turn. -/
theorem Halfway.bind {listed : List Nat} {w : Valuation} (h : Halfway m listed v u w) {i o : Nat}
    {op : Operation} {t : Tensor} (hop : m.operations[i]? = some op)
    (ho : op.outputs.head? = some o) (ht : u o = some t) :
    Halfway m (listed ++ [i]) v u (w.bind o t) := by
  constructor
  · intro j hj op' o' hop' ho'
    by_cases heq : o' = o
    · rw [heq, Valuation.bind_self, ht]
    · rw [Valuation.bind_of_ne w t heq]
      rcases List.mem_append.1 hj with hj | hj
      · exact h.found j hj op' o' hop' ho'
      · obtain rfl := List.mem_singleton.1 hj
        obtain rfl := Option.some.inj (hop.symm.trans hop')
        exact absurd (Option.some.inj (ho'.symm.trans ho)) heq
  · intro o' hunwritten
    have hne : o' ≠ o := by
      rintro rfl
      exact hunwritten i (List.mem_append_right _ (List.mem_singleton_self i)) op hop ho
    rw [Valuation.bind_of_ne w t hne]
    exact h.kept o' fun j hj => hunwritten j (List.mem_append_left _ hj)

/-- Where there are values in the end, an evaluation gets halfway there by any part of an order. -/
theorem Solves.halfway (h : Solves m v u) (single : m.written.Nodup)
    (hlt : ∀ i ∈ order, i < m.operations.length) (hordered : Ordered m.edges order.reverse) :
    ∃ w, order.foldlM (Interpreter.evaluate m) v = some w ∧ Halfway m order v u w := by
  induction order using List.reverseRecOn with
  | nil => exact ⟨v, rfl, by simp, fun _ _ => rfl⟩
  | append_singleton init i ih =>
    rw [List.reverse_append, List.reverse_singleton, List.singleton_append] at hordered
    obtain ⟨-, hready, hinit⟩ := hordered
    obtain ⟨w, hw, halfway⟩ := ih (fun j hj => hlt j (List.mem_append_left _ hj)) hinit
    have hi : i < m.operations.length := hlt i (List.mem_append_right _ (List.mem_singleton_self i))
    have hop := List.getElem?_eq_getElem hi
    have hinputs := halfway.inputs h single hop (hready.mono fun j hj => List.mem_reverse.1 hj)
    obtain ⟨o, t, ho, ht, hevaluate⟩ := h.evaluate hop hinputs
    exact ⟨w.bind o t, foldlM_concat_eq_some.2 ⟨w, hw, hevaluate⟩, halfway.bind hop ho ht⟩

/-- An evaluation in a topological order finds the values in the end, and fails if there are
none. -/
theorem foldlM_evaluate_iff (single : m.written.Nodup)
    (hperm : order.Perm (List.range m.operations.length))
    (hordered : Ordered m.edges order.reverse) :
    order.foldlM (evaluate m) v = some u ↔ Solves m v u := by
  refine ⟨solves_of_foldlM single hperm hordered, fun h => ?_⟩
  obtain ⟨w, hw, halfway⟩ := h.halfway single
    (fun i hi => List.mem_range.1 (hperm.mem_iff.1 hi)) hordered
  have heq : w = u :=
    funext fun o => halfway.eq_of_listed h fun i op hop _ => mem_order hperm hop
  rw [hw, heq]

end Order

/-! ## Two models with the same operations -/

section Perm

variable {m m' : Model}

/-- Two evaluations of the same operations find the same values, or both fail. -/
theorem foldlM_evaluate_perm (hperm : m'.operations.Perm m.operations) (h : Valid m) (h' : Valid m')
    {order order' : List Nat} (horder : m.topologicalOrder = .ok order)
    (horder' : m'.topologicalOrder = .ok order') (v : Valuation) :
    order'.foldlM (evaluate m') v = order.foldlM (evaluate m) v := by
  obtain ⟨hlisted, hordered⟩ := topologicalOrder_ok horder
  obtain ⟨hlisted', hordered'⟩ := topologicalOrder_ok horder'
  ext u
  rw [foldlM_evaluate_iff h'.single hlisted' hordered',
    foldlM_evaluate_iff h.single hlisted hordered]
  exact solves_congr fun op => hperm.mem_iff

theorem bindConstants_congr (hoperands : m'.operands = m.operands) :
    bindConstants m' = bindConstants m := by
  rw [bindConstants, hoperands]
  rfl

theorem bindInputs_congr (hoperands : m'.operands = m.operands) (hinputs : m'.inputs = m.inputs)
    (r : Request) (v : Valuation) : bindInputs m' r v = bindInputs m r v := by
  have hread : readInput m' r = readInput m r := by
    funext o position
    rw [readInput, hoperands]
    rfl
  rw [bindInputs, hinputs, hread]
  rfl

/-- Models that list the same operations in different orders have the same values, or fail with the
same status. -/
theorem values_perm (hoperands : m'.operands = m.operands) (hinputs : m'.inputs = m.inputs)
    (hperm : m'.operations.Perm m.operations) (h : m.validate = .ok ()) (h' : m'.validate = .ok ())
    (r : Request) : values m' r = values m r := by
  have hvalid := validate_eq_ok_iff.1 h
  have hvalid' := validate_eq_ok_iff.1 h'
  obtain ⟨order, horder⟩ := hvalid.acyclic
  obtain ⟨order', horder'⟩ := hvalid'.acyclic
  have hfold := foldlM_evaluate_perm hperm hvalid hvalid' horder horder'
  unfold values
  rw [bindConstants_congr hoperands, horder, horder']
  cases bindConstants m with
  | none => rfl
  | some constants =>
    dsimp only
    rw [bindInputs_congr hoperands hinputs]
    cases bindInputs m r constants with
    | none => rfl
    | some v =>
      dsimp only
      rw [hfold v]

/-- Two models that pass validation and have the same operands, inputs and outputs, and the same
operations in different orders, run alike on every request: with the same status, the same shapes of
outputs, and the same bytes in all pools. -/
theorem run_perm (hoperands : m'.operands = m.operands) (hinputs : m'.inputs = m.inputs)
    (houtputs : m'.outputs = m.outputs) (hperm : m'.operations.Perm m.operations)
    (h : m.validate = .ok ()) (h' : m'.validate = .ok ()) (r : Request) :
    run m' r = run m r := by
  rw [run, run, values_perm hoperands hinputs hperm h h' r, houtputs]

end Perm

/-- Two branches that meet again, with their operations in a given order. -/
def branches (operations : List Call) : Model :=
  performAll {} (List.replicate 4 (.addOperand { type := .tensorFloat32, dimensions := [1] }) ++
    operations ++ [.identify [0] [3]])

/-- The operations along the data. -/
def forward : Model := branches
  [.addOperation .relu [0] [1], .addOperation .floor [0] [2], .addOperation .add [1, 2] [3]]

/-- The operations against the data. -/
def backward : Model := branches
  [.addOperation .add [1, 2] [3], .addOperation .floor [0] [2], .addOperation .relu [0] [1]]

/-- The branches are walked in another order, and 1.5 becomes 2.5 in both. -/
theorem run_perm_branches :
    backward.operations.Perm forward.operations ∧ forward.validate = .ok () ∧
      backward.validate = .ok () ∧ forward.walkOrder = [1, 0, 2] ∧ backward.walkOrder = [2, 1, 0] ∧
      run backward (.ofBuffers [[0, 0, 0xc0, 0x3f]] [4]) =
        run forward (.ofBuffers [[0, 0, 0xc0, 0x3f]] [4]) ∧
      (run forward (.ofBuffers [[0, 0, 0xc0, 0x3f]] [4])).1.output 0 =
        some [0, 0, 0x20, 0x40] := by
  have hperm : backward.operations.Perm forward.operations :=
    List.reverse_perm forward.operations
  have hvalid : forward.validate = .ok () := by decide
  have hvalid' : backward.validate = .ok () := by decide
  have hoperands : backward.operands = forward.operands := rfl
  have hsame := run_perm hoperands rfl rfl hperm hvalid hvalid'
    (.ofBuffers [[0, 0, 0xc0, 0x3f]] [4])
  exact ⟨hperm, hvalid, hvalid', by decide, by decide, hsame, by decide +kernel⟩

end Interpreter

end NeuralDispatch

import NeuralDispatch.Proofs.Growth
import NeuralDispatch.Proofs.Outputs

/-!
# Extents and lengths

A value is words with extents, and what is reported of an output are the extents.  The two travel
together from the inputs and the constants through all operations, but nobody compares them.

* `Tensor.Sized` — whether a value has as many words as its extents say.
* `OperationType.shape_apply` — the result of an operation has the shape of its first input.
* `SizedGiven` — what is asked of the constants and of the regions of the inputs.
* `sized_of_values` — if all that is given is sized, then so are all values.
* `values_alike` — which shapes come out depends on the shapes that go in, and not on the words.
-/

namespace NeuralDispatch

open Answer Model

/-- Bytes for a whole number of words are the bytes of some. -/
theorem Bytes.exists_ofSingles {n : Nat} {bytes : Bytes} (h : bytes.length = 4 * n) :
    ∃ xs, bytes = ofSingles xs ∧ xs.length = n := by
  induction n generalizing bytes with
  | zero => exact ⟨[], List.eq_nil_of_length_eq_zero h, rfl⟩
  | succ n ih =>
    rcases bytes with _ | ⟨a, _ | ⟨b, _ | ⟨c, _ | ⟨d, rest⟩⟩⟩⟩
    case cons.cons.cons.cons =>
      have hrest : rest.length = 4 * n := by
        simp only [List.length_cons] at h
        omega
      obtain ⟨xs, rfl, hxs⟩ := ih hrest
      refine ⟨⟨word a b c d⟩ :: xs, ?_, by rw [List.length_cons, hxs]⟩
      rw [ofSingles_cons, le32_word]
      rfl
    all_goals
      simp only [List.length_cons, List.length_nil] at h
      omega

/-- The number of elements that extents stand for. -/
def extent (dimensions : List UInt32) : Nat := dimensions.foldr (fun d n => d.toNat * n) 1

/-- The bytes of a tensor of words, if they can be counted in 64 bits. -/
theorem Operand.byteLength_float {o : Operand} (htype : o.type = .tensorFloat32)
    (hknown : 0 ∉ o.dimensions) (hcounted : 4 * extent o.dimensions < UInt64.size) :
    o.byteLength = some (4 * extent o.dimensions) := by
  have hcount : o.elementCount = some (extent o.dimensions) := by
    rw [elementCount, if_neg hknown]
    exact congrArg some (Nat.mod_eq_of_lt (show extent o.dimensions < UInt64.size by omega))
  rw [byteLength, hcount, htype, Option.map_some, Nat.mul_comm]
  exact congrArg some (Nat.mod_eq_of_lt hcounted)

namespace Tensor

/-- The extents, and the number of words. -/
def shape (t : Tensor) : List UInt32 × Nat := (t.dimensions, t.data.length)

/-- Whether there are as many words as the extents say, unless one of these is not known. -/
def Sized (t : Tensor) : Prop := 0 ∉ t.dimensions → t.data.length = extent t.dimensions

theorem sized_congr {t t' : Tensor} (h : t'.shape = t.shape) : t'.Sized ↔ t.Sized := by
  obtain ⟨hdimensions, hlength⟩ := Prod.mk.inj h
  rw [Sized, Sized, hdimensions, hlength]

end Tensor

/-! ## Operations -/

namespace OperationType

/-- The result of an operation has the shape of its first input. -/
theorem shape_apply {type : OperationType} {args : List Tensor} {t : Tensor}
    (h : type.apply args = some t) : ∃ a ∈ args, t.shape = a.shape := by
  rcases args with _ | ⟨a, rest⟩
  · cases type <;> cases h
  refine ⟨a, List.mem_cons_self, ?_⟩
  rcases rest with _ | ⟨b, _ | ⟨c, rest⟩⟩ <;> cases type <;>
    simp only [apply, Tensor.zipWith?, reduceCtorEq, Option.some.injEq,
      Option.ite_none_right_eq_some] at h
  all_goals first
    | subst h; simp [Tensor.shape, Tensor.map]
    | obtain ⟨hlength, rfl⟩ := h; simp [Tensor.shape, hlength]

/-- The shape of the result for inputs of some shapes. -/
def shape? (type : OperationType) (shapes : List (List UInt32 × Nat)) :
    Option (List UInt32 × Nat) :=
  (type.apply (shapes.map fun s => ⟨s.1, List.replicate s.2 .zero⟩)).map Tensor.shape

/-- The words of the inputs play no part in the shape of the result. -/
theorem map_shape_apply (type : OperationType) (args : List Tensor) :
    (type.apply args).map Tensor.shape = type.shape? (args.map Tensor.shape) := by
  rcases args with _ | ⟨a, _ | ⟨b, _ | ⟨c, rest⟩⟩⟩ <;> cases type <;>
    simp only [shape?, apply, List.map_cons, List.map_nil, Option.map_none, Option.map_some,
      Tensor.map, Tensor.zipWith?, Tensor.shape, List.length_replicate, List.length_map]
  all_goals
    split <;> simp [Tensor.shape, *]

end OperationType

/-- The extents of an input: those that the argument states, or those of the model. -/
def Argument.extents (a : Argument) (operand : Operand) : List UInt32 :=
  if a.dimensions.isEmpty then operand.dimensions else a.dimensions

namespace Interpreter

variable {m : Model} {r r' : Request}

theorem readInput_eq_some {o position : Nat} {t : Tensor} :
    readInput m r o position = some t ↔ ∃ a operand, r.inputs[position]? = some a ∧
      m.operands[o]? = some operand ∧ r.read a = some (Bytes.ofSingles t.data) ∧
      t.dimensions = a.extents operand := by
  obtain ⟨dimensions, data⟩ := t
  simp only [readInput, Option.bind_eq_bind, Option.bind_eq_some_iff, Option.pure_def,
    Option.some.injEq, Tensor.mk.injEq, Bytes.toSingles?_eq_some_iff]
  constructor
  · rintro ⟨a, ha, bytes, hbytes, _, rfl, operand, hoperand, rfl, rfl⟩
    exact ⟨a, operand, ha, hoperand, hbytes, rfl⟩
  · rintro ⟨a, operand, ha, hoperand, hbytes, rfl⟩
    exact ⟨a, ha, _, hbytes, _, rfl, operand, hoperand, rfl, rfl⟩

/-! ## Values that are sized -/

section Sized

/-- Whether the regions of the inputs have as many bytes as their extents say. -/
def SizedInputs (m : Model) (r : Request) : Prop :=
  ∀ o position a operand, (o, position) ∈ m.inputs.zipIdx → r.inputs[position]? = some a →
    m.operands[o]? = some operand → 0 ∉ a.extents operand →
    a.length = 4 * extent (a.extents operand)

/-- Whether all that is given of the values has as many bytes as its extents say. -/
structure SizedGiven (m : Model) (r : Request) : Prop where
  floats : ∀ operand ∈ m.operands, operand.type = .tensorFloat32
  constants : ∀ operand ∈ m.operands, ∀ bytes ∈ operand.value, 0 ∉ operand.dimensions →
    bytes.length = 4 * extent operand.dimensions
  inputs : SizedInputs m r

/-- A constant that is set has as many bytes as it takes, so nobody but the caller who chooses the
regions of the inputs has to see to it, unless an operand is added with other bytes, or takes more
than can be counted. -/
theorem sizedGiven_performAll {calls : List Call} (added : ∀ o, .addOperand o ∈ calls → o.Fits)
    (hfloats : ∀ operand ∈ (performAll {} calls).operands, operand.type = .tensorFloat32)
    (hcounted : ∀ operand ∈ (performAll {} calls).operands,
      4 * extent operand.dimensions < UInt64.size)
    (hinputs : SizedInputs (performAll {} calls) r) : SizedGiven (performAll {} calls) r where
  floats := hfloats
  constants operand hoperand bytes hbytes hknown := by
    obtain ⟨i, hi⟩ := List.mem_iff_getElem?.1 hoperand
    exact (fits_performAll added hi bytes hbytes _ (Operand.byteLength_float
      (hfloats operand hoperand) hknown (hcounted operand hoperand))).symm
  inputs := hinputs

theorem SizedGiven.congr (h : SizedGiven m r) (hinputs : r'.inputs = r.inputs) :
    SizedGiven m r' where
  floats := h.floats
  constants := h.constants
  inputs := by
    rw [SizedInputs, hinputs]
    exact h.inputs

/-- Whether all values are sized. -/
def Sized (v : Valuation) : Prop := ∀ o t, v o = some t → t.Sized

theorem Sized.bind {v : Valuation} (h : Sized v) {o : Nat} {t : Tensor} (ht : t.Sized) :
    Sized (v.bind o t) := by
  intro o' t' ht'
  by_cases ho : o' = o
  · rw [ho, Valuation.bind_self] at ht'
    exact Option.some.inj ht' ▸ ht
  · rw [Valuation.bind_of_ne _ _ ho] at ht'
    exact h o' t' ht'

theorem sized_of_bindConstants (h : SizedGiven m r) {v : Valuation}
    (hbind : bindConstants m = some v) : Sized v := by
  rw [bindConstants_eq] at hbind
  refine foldlM_preserves (P := Sized) (fun e he v v' hv hv' => ?_) ?_ hbind
  · obtain ⟨t, ht, rfl⟩ := Option.map_eq_some_iff.1 hv'
    obtain ⟨operand, hoperand, hvalue⟩ := mem_constants.1 he
    obtain ⟨_, hsame, hdimensions, hbytes⟩ := decode_eq_some.1 ht
    obtain rfl := Option.some.inj (hoperand.symm.trans hsame)
    have hmem := List.mem_of_getElem? hoperand
    refine hv.bind fun hknown => ?_
    rw [hdimensions] at hknown ⊢
    have hfits := h.constants operand hmem _ hvalue hknown
    rw [hbytes, Bytes.length_ofSingles] at hfits
    omega
  · intro o t ht
    cases ht

theorem sized_of_readInput (h : SizedGiven m r) {o position : Nat}
    (hmem : (o, position) ∈ m.inputs.zipIdx) {t : Tensor}
    (hread : readInput m r o position = some t) : t.Sized := by
  obtain ⟨a, operand, ha, hoperand, hbytes, hdimensions⟩ := readInput_eq_some.1 hread
  obtain ⟨-, hlength, -⟩ := Request.read_eq_some_iff.1 hbytes
  intro hknown
  rw [hdimensions] at hknown ⊢
  have hsized := h.inputs o position a operand hmem ha hoperand hknown
  rw [Bytes.length_ofSingles] at hlength
  omega

theorem sized_of_evaluate {v v' : Valuation} (h : Sized v) {i : Nat}
    (hevaluate : evaluate m v i = some v') : Sized v' := by
  obtain ⟨op, args, result, o, -, hargs, hresult, -, rfl⟩ := evaluate_eq_some.1 hevaluate
  obtain ⟨a, ha, hshape⟩ := OperationType.shape_apply hresult
  obtain ⟨input, -, hinput⟩ := counterpart_mem (mapM_eq_some.1 hargs).flip ha
  exact h.bind ((Tensor.sized_congr hshape).2 (h input a hinput))

/-- If all that is given is sized, then so are all values that are computed from it. -/
theorem sized_of_values (h : SizedGiven m r) {v : Valuation} (hvalues : values m r = .ok v) :
    Sized v := by
  rcases values_cases m r with ⟨v₀, v₁, order, v', hconstants, hinputs, -, hevaluate, hv⟩ | hv | hv
  · obtain rfl := Except.ok.inj (hvalues.symm.trans hv)
    have hgiven : Sized v₁ :=
      foldlM_preserves (P := Sized) (fun e he v v' hv hv' => by
        obtain ⟨t, ht, rfl⟩ := Option.map_eq_some_iff.1 hv'
        exact hv.bind (sized_of_readInput h he ht)) (sized_of_bindConstants h hconstants) hinputs
    exact foldlM_preserves (P := Sized) (fun i _ v v' hv hv' => sized_of_evaluate hv hv') hgiven
      hevaluate
  all_goals cases hvalues.symm.trans hv

end Sized

/-! ## Values of the same shapes -/

section Alike

/-- Whether values are known of the same operands, and have the same shapes. -/
def Alike (v v' : Valuation) : Prop := ∀ o, (v' o).map Tensor.shape = (v o).map Tensor.shape

theorem Alike.exists {v v' : Valuation} (h : Alike v v') {o : Nat} {t : Tensor}
    (ht : v o = some t) : ∃ t', v' o = some t' ∧ t'.shape = t.shape :=
  Option.map_eq_some_iff.1 ((h o).trans (by rw [ht, Option.map_some]))

theorem Alike.bind {v v' : Valuation} (h : Alike v v') (o : Nat) {t t' : Tensor}
    (hshape : t'.shape = t.shape) : Alike (v.bind o t) (v'.bind o t') := by
  intro o'
  by_cases ho : o' = o
  · rw [ho, Valuation.bind_self, Valuation.bind_self, Option.map_some, Option.map_some, hshape]
  · rw [Valuation.bind_of_ne _ _ ho, Valuation.bind_of_ne _ _ ho, h o']

/-- A request that differs from another one by the memory and the regions of the outputs: every
input that could be read there can be read here. -/
structure SameInputs (r r' : Request) : Prop where
  inputs : r'.inputs = r.inputs
  readable : ∀ a ∈ r.inputs, r.Contains a a.length → r'.Contains a a.length

theorem readInput_alike (h : SameInputs r r') {o position : Nat} {t : Tensor}
    (hread : readInput m r o position = some t) :
    ∃ t', readInput m r' o position = some t' ∧ t'.shape = t.shape := by
  obtain ⟨a, operand, ha, hoperand, hbytes, hdimensions⟩ := readInput_eq_some.1 hread
  obtain ⟨hinside, hlength, -⟩ := Request.read_eq_some_iff.1 hbytes
  have hinside' := h.readable a (List.mem_of_getElem? ha) hinside
  obtain ⟨bytes', hbytes'⟩ := Option.isSome_iff_exists.1 (Request.isSome_read.2 hinside')
  obtain ⟨-, hlength', -⟩ := Request.read_eq_some_iff.1 hbytes'
  obtain ⟨data', rfl, hdata'⟩ := Bytes.exists_ofSingles
    (hlength'.trans (hlength.symm.trans (Bytes.length_ofSingles _)))
  refine ⟨⟨t.dimensions, data'⟩, readInput_eq_some.2 ⟨a, operand, ?_, hoperand, hbytes',
    hdimensions⟩, ?_⟩
  · rw [h.inputs, ha]
  · rw [Tensor.shape, Tensor.shape, hdata']

theorem evaluate_alike {v v' u : Valuation} (h : Alike v v') {i : Nat}
    (hevaluate : evaluate m v i = some u) : ∃ u', evaluate m v' i = some u' ∧ Alike u u' := by
  obtain ⟨op, args, result, o, hop, hargs, hresult, ho, rfl⟩ := evaluate_eq_some.1 hevaluate
  have hshapes : (op.inputs.mapM v').map (List.map Tensor.shape) =
      some (args.map Tensor.shape) := by
    rw [← mapM_map, funext h, mapM_map, hargs, Option.map_some]
  obtain ⟨args', hargs', hsame⟩ := Option.map_eq_some_iff.1 hshapes
  have hfound : (op.type.apply args').map Tensor.shape = some result.shape := by
    rw [OperationType.map_shape_apply, hsame, ← OperationType.map_shape_apply, hresult,
      Option.map_some]
  obtain ⟨result', hresult', hshape⟩ := Option.map_eq_some_iff.1 hfound
  exact ⟨_, evaluate_eq_some.2 ⟨op, args', result', o, hop, hargs', hresult', ho, rfl⟩,
    h.bind o hshape⟩

/-- Which values are found, and of which shapes, does not depend on the bytes of the inputs. -/
theorem values_alike (h : SameInputs r r') {v : Valuation} (hvalues : values m r = .ok v) :
    ∃ v', values m r' = .ok v' ∧ Alike v v' := by
  rcases values_cases m r with
    ⟨v₀, v₁, order, u, hconstants, hinputs, horder, hevaluate, hu⟩ | hu | hu
  · obtain rfl := Except.ok.inj (hvalues.symm.trans hu)
    -- the constants and the order are those of the model: the inputs and the operations are left
    obtain ⟨v₁', hinputs', hgiven⟩ :
        ∃ v₁', bindInputs m r' v₀ = some v₁' ∧ Alike v₁ v₁' :=
      foldlM_related (R := Alike) (fun e _ v v' u hv hu => by
        obtain ⟨t, ht, rfl⟩ := Option.map_eq_some_iff.1 hu
        obtain ⟨t', ht', hshape⟩ := readInput_alike h ht
        exact ⟨v'.bind e.1 t', Option.map_eq_some_iff.2 ⟨t', ht', rfl⟩, hv.bind e.1 hshape⟩)
        (fun _ => rfl) hinputs
    obtain ⟨v', hevaluate', halike⟩ := foldlM_related (R := Alike) (f := evaluate m)
      (fun i _ v v' u hv hu => evaluate_alike hv hu) hgiven hevaluate
    refine ⟨v', ?_, halike⟩
    simp only [values, hconstants, hinputs', horder, hevaluate']
    rfl
  all_goals cases hvalues.symm.trans hu

end Alike

end Interpreter

end NeuralDispatch

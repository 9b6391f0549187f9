import NeuralDispatch.Proofs.Admission
import NeuralDispatch.Proofs.Extents
import NeuralDispatch.Proofs.Preparation
import NeuralDispatch.Proofs.Restore

/-!
# Outputs that wanted room

An execution that wants room reports the extents of all outputs, and the caller submits the request
again with regions of that size.  A region fits its value just if the value has as many words as
its extents say; nobody sees to that but the caller, who chooses the lengths of the inputs.

* `Outgoing.Roomy` — whether the region of an output is as large as the extents of its value.
* `outgoing_resubmitted` — the outputs of the request that is submitted again have such regions.
* `resubmission` — when the execution then succeeds, and when it fills all regions.
* `resubmission_stuck` — an input with a word too many, whose execution wants the same room again.
-/

namespace NeuralDispatch

open Answer Model Interpreter

/-! ## Regions as large as reported -/

/-- A request that is submitted again with regions for its outputs that have been made as large as
reported, and do not overlap. -/
structure Resubmits (r : Request) (shapes : List OutputShape) (r' : Request) : Prop
    extends SameInputs r r' where
  count : r'.outputs.length = r.outputs.length
  resized : List.Forall₂ (fun shape a => a.length = 4 * extent shape.dimensions ∧
    r'.Contains a a.length) shapes r'.outputs
  disjoint : r'.outputs.Pairwise Argument.Disjoint

namespace Interpreter

variable {m : Model} {r r' : Request} {v : Valuation}

namespace Outgoing

/-- Whether the region lies in its pool and is as large as the extents of the value. -/
def Roomy (r : Request) (x : Outgoing) : Prop :=
  x.region.length = 4 * extent x.value.dimensions ∧ r.Contains x.region x.region.length

theorem Roomy.admits_iff {x : Outgoing} (h : x.Roomy r) :
    r.Admits x.write ↔ x.value.data.length ≤ extent x.value.dimensions := by
  obtain ⟨hlength, hinside⟩ := h
  rw [Request.Admits, write, Bytes.length_ofSingles, hlength]
  dsimp only
  constructor
  · rintro ⟨hfits, -⟩
    omega
  · intro hfits
    exact ⟨by omega, hinside.mono (by omega)⟩

/-- The value fills the region just if it has as many words as its extents say. -/
theorem Roomy.read_iff {x : Outgoing} (h : x.Roomy r) :
    (r.offer x.write).read x.region = some (Bytes.ofSingles x.value.data) ↔
      x.value.data.length = extent x.value.dimensions := by
  constructor
  · intro hread
    obtain ⟨-, hlength, -⟩ := Request.read_eq_some_iff.1 hread
    rw [Bytes.length_ofSingles, h.1] at hlength
    omega
  · intro hfull
    obtain ⟨old, hold⟩ := Option.isSome_iff_exists.1 (Request.isSome_read.2 h.2)
    obtain ⟨-, hlength, -⟩ := Request.read_eq_some_iff.1 hold
    rw [h.1, ← hfull, ← Bytes.length_ofSingles] at hlength
    rw [show x.region = x.write.region from rfl,
      Request.read_offer (h.admits_iff.2 hfull.le), show x.write.region = x.region from rfl, hold,
      Option.map_some, show x.write.bytes = Bytes.ofSingles x.value.data from rfl, ← hlength,
      List.drop_length, List.append_nil]

end Outgoing

/-- The inputs that a run reads lie in their pools. -/
theorem contains_of_values (hvalues : values m r = .ok v) {k : Nat} {a : Argument}
    (hk : k < m.inputs.length) (ha : r.inputs[k]? = some a) : r.Contains a a.length := by
  rcases values_cases m r with ⟨v₀, v₁, order, u, -, hinputs, -⟩ | hu | hu
  · obtain ⟨_, _, hbind⟩ := exists_of_foldlM_eq_some hinputs
      (List.mem_iff_getElem?.2 ⟨k, by rw [List.getElem?_zipIdx, List.getElem?_eq_getElem hk]; rfl⟩)
    obtain ⟨t, ht, -⟩ := Option.map_eq_some_iff.1 hbind
    obtain ⟨a', operand, ha', -, hread, -⟩ := readInput_eq_some.1 ht
    obtain rfl := Option.some.inj (ha.symm.trans (by simpa using ha'))
    exact (Request.read_eq_some_iff.1 hread).1
  all_goals cases hvalues.symm.trans hu

/-- The outputs of a run go through the regions that the request has for them. -/
theorem regions_of_outgoing (hlength : r.outputs.length = m.outputs.length) {xs : List Outgoing}
    (h : m.outputs.zipIdx.mapM (outgoing v r) = some xs) : xs.map (·.region) = r.outputs := by
  have hbound := mapM_eq_some.1 h
  have hcount := hbound.length_eq
  rw [List.length_zipIdx] at hcount
  refine List.ext_getElem? fun k => ?_
  by_cases hk : k < m.outputs.length
  · obtain ⟨x, hx, hout⟩ := counterpart hbound (i := k) (x := (m.outputs[k], k)) (by simp [hk])
    obtain ⟨region, hregion, hvalue⟩ := Option.bind_eq_some_iff.1 hout
    obtain ⟨t, -, rfl⟩ := Option.map_eq_some_iff.1 hvalue
    rw [List.getElem?_map, hx, hregion, Option.map_some]
  · rw [List.getElem?_eq_none, List.getElem?_eq_none (by omega)]
    rw [List.length_map]
    omega

theorem map_shape_outgoing (v : Valuation) (r : Request) (e : Nat × Nat) :
    (outgoing v r e).map (·.value.shape) =
      if e.2 < r.outputs.length then (v e.1).map Tensor.shape else none := by
  rw [outgoing]
  split
  · next h =>
    rw [List.getElem?_eq_getElem h, Option.bind_some, Option.map_map]
    rfl
  · next h =>
    rw [List.getElem?_eq_none (Nat.le_of_not_lt h)]
    rfl

/-- Where the values have the same shapes and there are as many regions, the same outputs leave. -/
theorem outgoing_alike {v' : Valuation} (hvalues : Alike v v')
    (hcount : r'.outputs.length = r.outputs.length) {xs : List Outgoing}
    (h : m.outputs.zipIdx.mapM (outgoing v r) = some xs) :
    ∃ xs', m.outputs.zipIdx.mapM (outgoing v' r') = some xs' ∧
      List.Forall₂ (fun x x' => x'.value.shape = x.value.shape) xs xs' := by
  have hsame : (fun e => (outgoing v' r' e).map (·.value.shape)) =
      fun e => (outgoing v r e).map (·.value.shape) := by
    funext e
    rw [map_shape_outgoing, map_shape_outgoing, hcount, hvalues e.1]
  have hshapes : (m.outputs.zipIdx.mapM (outgoing v' r')).map (List.map (·.value.shape)) =
      some (xs.map (·.value.shape)) := by
    rw [← mapM_map, hsame, mapM_map, h, Option.map_some]
  obtain ⟨xs', hxs', hmap⟩ := Option.map_eq_some_iff.1 hshapes
  refine ⟨xs', hxs', ?_⟩
  rw [← List.forall₂_eq_eq_eq, List.forall₂_map_left_iff, List.forall₂_map_right_iff] at hmap
  exact hmap.flip

/-- The outputs of a request that is submitted again have regions as large as their extents. -/
theorem outgoing_resubmitted {shapes : List OutputShape} (h : Resubmits r shapes r')
    (hvalues : values m r = .ok v) {xs : List Outgoing}
    (hlength : r.outputs.length = m.outputs.length)
    (hbound : m.outputs.zipIdx.mapM (outgoing v r) = some xs)
    (hshapes : shapes = xs.map (·.shape r)) :
    ∃ v' xs', values m r' = .ok v' ∧ m.outputs.zipIdx.mapM (outgoing v' r') = some xs' ∧
      xs'.map (·.value.dimensions) = shapes.map (·.dimensions) ∧
      xs'.map (·.region) = r'.outputs ∧ ∀ x ∈ xs', x.Roomy r' := by
  obtain ⟨v', hvalues', halike⟩ := values_alike h.toSameInputs hvalues
  obtain ⟨xs', hbound', hsame⟩ := outgoing_alike halike h.count hbound
  have hregions := regions_of_outgoing (h.count.trans hlength) hbound'
  have hresized := h.resized
  rw [hshapes, ← hregions, List.forall₂_map_left_iff, List.forall₂_map_right_iff] at hresized
  refine ⟨v', xs', hvalues', hbound', ?_, hregions, fun x' hx' => ?_⟩
  · rw [hshapes, List.map_map, ← List.forall₂_eq_eq_eq, List.forall₂_map_left_iff,
      List.forall₂_map_right_iff]
    exact hsame.flip.imp fun x' x hshape => congrArg Prod.fst hshape
  · obtain ⟨k, hk⟩ := List.mem_iff_getElem?.1 hx'
    obtain ⟨x, hx, hshape⟩ := counterpart hsame.flip hk
    obtain ⟨_, hy, hlength, hinside⟩ := counterpart hresized hx
    obtain rfl := Option.some.inj (hk.symm.trans hy)
    refine ⟨?_, hinside⟩
    rw [show x'.value.dimensions = x.value.dimensions from congrArg Prod.fst hshape]
    exact hlength

/-- A run on a request that is submitted again succeeds if no value has more words than its extents
say, and fills the regions of those that have as many. -/
theorem run_resubmitted {shapes : List OutputShape} (h : Resubmits r shapes r')
    (hlength : r.outputs.length = m.outputs.length)
    (hstatus : (run m r).2.status = .outputInsufficientSize)
    (hshapes : shapes = (run m r).2.shapes) :
    ∃ v xs, values m r' = .ok v ∧ m.outputs.zipIdx.mapM (outgoing v r') = some xs ∧
      xs.map (·.region) = r'.outputs ∧
      xs.map (·.value.dimensions) = shapes.map (·.dimensions) ∧
      (SizedGiven m r → (∀ shape ∈ shapes, 0 ∉ shape.dimensions) →
        ∀ x ∈ xs, x.value.data.length = extent x.value.dimensions) ∧
      (run m r').2.shapes.map (·.dimensions) = shapes.map (·.dimensions) ∧
      (run m r').2.status =
        (if ∀ x ∈ xs, x.value.data.length ≤ extent x.value.dimensions then .success
          else .outputInsufficientSize) ∧
      ∀ x ∈ xs, (run m r').1.read x.region = some (Bytes.ofSingles x.value.data) ↔
        x.value.data.length = extent x.value.dimensions := by
  obtain ⟨ys, hleaves, -⟩ := exists_leaves m r
  obtain ⟨v, hvalues, hbound, hfound⟩ := hleaves.exists_values hstatus
  obtain ⟨v', xs, hvalues', hbound', hdimensions, hregions, hroomy⟩ :=
    outgoing_resubmitted h hvalues hlength hbound (hshapes.trans hfound)
  refine ⟨v', xs, hvalues', hbound', hregions, hdimensions, ?_, ?_, ?_, ?_⟩
  · -- the same extents come out again, so they are still known
    intro hgiven hknown x hx
    obtain ⟨entry, -, hout⟩ := counterpart_mem (mapM_eq_some.1 hbound').flip hx
    obtain ⟨region, -, hvalue⟩ := Option.bind_eq_some_iff.1 hout
    obtain ⟨t, ht, rfl⟩ := Option.map_eq_some_iff.1 hvalue
    refine sized_of_values (hgiven.congr h.inputs) hvalues' _ t ht ?_
    have hreported : t.dimensions ∈ shapes.map (·.dimensions) :=
      hdimensions ▸ List.mem_map.2 ⟨_, hx, rfl⟩
    obtain ⟨shape, hshape, hsame⟩ := List.mem_map.1 hreported
    exact hsame ▸ hknown shape hshape
  · rw [run_of_bound hvalues' hbound', ← hdimensions, List.map_map]
    rfl
  · rw [run_of_bound hvalues' hbound']
    exact if_congr (forall₂_congr fun x hx => (hroomy x hx).admits_iff) rfl rfl
  · intro x hx
    have hdisjoint : ((xs.map (·.write)).map (·.region)).Pairwise Argument.Disjoint := by
      rw [List.map_map]
      exact hregions ▸ h.disjoint
    rw [run_of_bound hvalues' hbound', ← (hroomy x hx).read_iff]
    rw [show x.region = x.write.region from rfl,
      Request.read_offerAll hdisjoint (List.mem_map_of_mem hx)]

end Interpreter

/-! ## Executions -/

/-- The shapes are reported where outputs were computed. -/
theorem Execution.shapes_sanitize {e : Execution} (measure : Bool)
    (h : e.status = .success ∨ e.status = .outputInsufficientSize) :
    (e.sanitize measure).shapes = e.shapes := by
  rcases h with h | h <;> rw [sanitize, h]

namespace ReferenceModel

variable (p : ReferenceModel) (r : Request) (measure : Bool)

theorem accepts_of_status (h : (p.run r measure).2.status ≠ .invalidArgument) :
    p.accepts r = true := by
  by_contra hrefused
  rw [run, if_neg hrefused] at h
  exact h rfl

/-- A run that reports shapes is an interpretation. -/
theorem computes_of_shapes (h : (p.run r measure).2.shapes ≠ []) :
    p.driver.config.executionStatus = .success := by
  unfold run compute at h
  split at h
  · split at h
    · next hsuccess => exact Status.isOk_iff.1 hsuccess
    · exact absurd rfl h
  · exact absurd rfl h

variable {p r}

/-- An accepted request is interpreted. -/
theorem run_interpreted (hstatus : p.driver.config.executionStatus = .success)
    (haccepts : p.accepts r = true) :
    (p.run r measure).1 = (Interpreter.run p.model r).1 ∧
      (p.run r measure).2.status = (Interpreter.run p.model r).2.status ∧
      (p.run r measure).2.shapes = (Interpreter.run p.model r).2.shapes := by
  rw [run, if_pos haccepts, compute, hstatus]
  exact ⟨rfl, rfl, rfl⟩

/-- A request that is submitted again is accepted again. -/
theorem accepts_resubmitted (haccepts : p.accepts r = true) {shapes : List OutputShape}
    {r' : Request} (h : Resubmits r shapes r') {v : Valuation}
    (hvalues : values p.model r' = .ok v) : p.accepts r' = true := by
  obtain ⟨hinputs, houtputs, -⟩ := accepts_iff.1 haccepts
  rw [← h.inputs] at hinputs
  rw [← h.count] at houtputs
  have hinside : ∀ a ∈ r'.inputs ++ r'.outputs, r'.Contains a a.length := by
    intro a ha
    rcases List.mem_append.1 ha with hinput | houtput
    · obtain ⟨k, hk⟩ := List.mem_iff_getElem?.1 hinput
      exact contains_of_values hvalues (hinputs ▸ (List.getElem?_eq_some_iff.1 hk).1) hk
    · obtain ⟨_, -, -, hcontains⟩ := counterpart_mem h.resized.flip houtput
      exact hcontains
  refine accepts_iff.2 ⟨hinputs, houtputs, fun a ha => ?_⟩
  obtain ⟨pool, hpool, -⟩ := Request.contains_iff.1 (hinside a ha)
  exact (List.getElem?_eq_some_iff.1 hpool).1

end ReferenceModel

/-- An execution that wants room has found shapes for the outputs.  Submitted again with regions of
that size, the request is executed again, with the same shapes.  That succeeds if no value has more
words than its extents say, and fills the regions of those values that have as many.  All values
have as many if all that is given does: constants when they are set, and inputs if the caller
chooses their regions so. -/
theorem resubmission {d : ReferenceDriver} {m : Model} (hnewest : d.config.revision = .v1_2)
    (haccepts : d.accepts m = true) {r r₁ r' : Request} {measure : Bool} {e : Execution}
    (hexecute : (ReferenceModel.toPrepared ⟨d, m⟩).executeSynchronously r measure = (r₁, .ok e))
    (hstatus : e.status = .outputInsufficientSize) (h : Resubmits r e.shapes r') :
    ∃ v xs, values m r' = .ok v ∧ m.outputs.zipIdx.mapM (outgoing v r') = some xs ∧
      xs.map (·.region) = r'.outputs ∧
      xs.map (·.value.dimensions) = e.shapes.map (·.dimensions) ∧
      (SizedGiven m r → (∀ shape ∈ e.shapes, 0 ∉ shape.dimensions) →
        ∀ x ∈ xs, x.value.data.length = extent x.value.dimensions) ∧
      ∀ measure', ∃ r₂ e',
        (ReferenceModel.toPrepared ⟨d, m⟩).executeSynchronously r' measure' = (r₂, .ok e') ∧
        e'.shapes.map (·.dimensions) = e.shapes.map (·.dimensions) ∧
        (e'.status = if ∀ x ∈ xs, x.value.data.length ≤ extent x.value.dimensions then .success
          else .outputInsufficientSize) ∧
        ∀ x ∈ xs, r₂.read x.region = some (Bytes.ofSingles x.value.data) ↔
          x.value.data.length = extent x.value.dimensions := by
  set p : ReferenceModel := ⟨d, m⟩ with hp
  have hreports : Revision.v1_2 ≤ p.driver.config.revision := by
    rw [show p.driver.config.revision = .v1_2 from hnewest]
    decide
  rw [p.executeSynchronously_newest r measure hreports] at hexecute
  obtain rfl := Except.ok.inj (Prod.mk.inj hexecute).2
  have hwants : (p.run r measure).2.status = .outputInsufficientSize := hstatus
  rw [Execution.shapes_sanitize measure (.inr hwants)] at h ⊢
  have hadmitted : p.accepts r = true :=
    p.accepts_of_status r measure (by rw [hwants]; exact Status.noConfusion)
  have hlength : r.outputs.length = m.outputs.length :=
    (ReferenceModel.accepts_iff.1 hadmitted).2.1
  -- a status that the driver has been set to comes without shapes, and does not get here
  have hsome : (p.run r measure).2.shapes ≠ [] := by
    intro hnone
    have hempty := h.resized.length_eq
    rw [hnone, h.count, hlength] at hempty
    have hvalid := validate_eq_ok_iff.1 (ReferenceDriver.accepts_iff.1 haccepts).1
    exact hvalid.outputs_ne (List.eq_nil_of_length_eq_zero hempty.symm)
  have hcomputes := p.computes_of_shapes r measure hsome
  obtain ⟨-, hrun, hshapes⟩ := ReferenceModel.run_interpreted measure hcomputes hadmitted
  obtain ⟨v, xs, hvalues, hbound, hregions, hdimensions, hsized, hagain, hend, hread⟩ :=
    run_resubmitted h hlength (hrun ▸ hwants) hshapes
  refine ⟨v, xs, hvalues, hbound, hregions, hdimensions, hsized, fun measure' => ?_⟩
  obtain ⟨hmemory', hstatus', hshapes'⟩ := ReferenceModel.run_interpreted measure' hcomputes
    (ReferenceModel.accepts_resubmitted hadmitted h hvalues)
  have hends : (p.run r' measure').2.status = .success ∨
      (p.run r' measure').2.status = .outputInsufficientSize := by
    rw [hstatus', hend]
    split
    · exact .inl rfl
    · exact .inr rfl
  refine ⟨_, _, p.executeSynchronously_newest r' measure' hreports, ?_, hstatus'.trans hend, ?_⟩
  · rw [Execution.shapes_sanitize measure' hends, hshapes', ← hagain]
  · intro x hx
    rw [← hread x hx, ← hmemory']
    rfl

/-! ## Two words -/

open ReferenceDriver

/-- A model that rectifies two words. -/
def pair : Model := performAll {}
  (List.replicate 2 (.addOperand { type := .tensorFloat32, dimensions := [2] }) ++
    [.addOperation .relu [0] [1], .identify [0] [1]])

/-- A request with some words and room for so many. -/
def pairRequest (words room : Nat) : Request :=
  .ofBuffers [Bytes.ofSingles (List.replicate words ⟨0x3fc00000⟩)] [4 * room]

/-- Two words want room for two, and get it. -/
theorem resubmission_pair :
    plain.config.revision = .v1_2 ∧ plain.accepts pair = true ∧ SizedGiven pair (pairRequest 2 1) ∧
      ((ReferenceModel.toPrepared ⟨plain, pair⟩).executeSynchronously (pairRequest 2 1) false).2 =
        .ok ⟨.outputInsufficientSize, [⟨[2], false⟩], .unavailable⟩ ∧
      Resubmits (pairRequest 2 1) [⟨[2], false⟩] (pairRequest 2 2) ∧
      ∃ r₂ e', (ReferenceModel.toPrepared ⟨plain, pair⟩).executeSynchronously (pairRequest 2 2)
        true = (r₂, .ok e') ∧ e'.status = .success := by
  have haccepts : plain.accepts pair = true := by decide
  have hgiven : SizedGiven pair (pairRequest 2 1) := by
    refine sizedGiven_performAll (fun o ho => ?_) (by decide) (by decide) ?_
    · obtain rfl : o = { type := .tensorFloat32, dimensions := [2] } := by simpa using ho
      intro bytes hbytes
      cases hbytes
    · intro o position a operand hinput ha hoperand _
      cases List.mem_singleton.1 hinput
      cases ha
      cases hoperand
      rfl
  have hagain : Resubmits (pairRequest 2 1) [⟨[2], false⟩] (pairRequest 2 2) :=
    ⟨⟨rfl, by decide⟩, rfl, .cons (by decide) .nil, List.pairwise_singleton _ _⟩
  have hwants : ((ReferenceModel.toPrepared ⟨plain, pair⟩).executeSynchronously (pairRequest 2 1)
      false).2 = .ok ⟨.outputInsufficientSize, [⟨[2], false⟩], .unavailable⟩ := by rfl
  obtain ⟨v, xs, -, -, -, -, hsized, hexecute⟩ :=
    resubmission rfl haccepts (Prod.ext rfl hwants) rfl hagain
  obtain ⟨r₂, e', hend, -, hstatus, -⟩ := hexecute true
  refine ⟨rfl, haccepts, hgiven, hwants, hagain, r₂, e', hend, ?_⟩
  rw [hstatus, if_pos fun x hx => (hsized hgiven (by decide) x hx).le]

/-- Three words for extents of two want room for two, and again when they have it. -/
theorem resubmission_stuck :
    Built pair ∧ plain.accepts pair = true ∧
      ((ReferenceModel.toPrepared ⟨plain, pair⟩).executeSynchronously (pairRequest 3 1) false).2 =
        .ok ⟨.outputInsufficientSize, [⟨[2], false⟩], .unavailable⟩ ∧
      Resubmits (pairRequest 3 1) [⟨[2], false⟩] (pairRequest 3 2) ∧
      ((ReferenceModel.toPrepared ⟨plain, pair⟩).executeSynchronously (pairRequest 3 2) false).2 =
        .ok ⟨.outputInsufficientSize, [⟨[2], false⟩], .unavailable⟩ :=
  ⟨⟨_, rfl⟩, by decide, by rfl,
    ⟨⟨rfl, by decide⟩, rfl, .cons (by decide) .nil, List.pairwise_singleton _ _⟩, by rfl⟩

end NeuralDispatch

import NeuralDispatch.Plan.Assignment
import NeuralDispatch.Proofs.Validation

/-!
# What an assignment takes

An assignment exists when every operation is supported somewhere, and otherwise names the first
operation that is not.

* `Supported` — whether one of the devices supports an operation, by the flags of all devices.
* `ofModel_ok` — an assignment gives every operation a device that supports it.
* `ofModel_error` — the first operation that no device supports is named, with its signature.
-/

namespace NeuralDispatch

open Answer

/-- Operations of models that calls have built have signatures. -/
theorem Model.Sound.signature_ok {m : Model} (h : Sound m) {i : Nat}
    (hi : i < m.operations.length) : ∃ s, m.signature i = .ok s := by
  obtain ⟨op, hop⟩ : ∃ op, m.operations[i]? = some op := ⟨_, List.getElem?_eq_getElem hi⟩
  have hmem := List.mem_of_getElem? hop
  rw [signature, operation, hop]
  dsimp only [ok_bind]
  cases htouched : op.inputs ++ op.outputs with
  | nil => exact absurd (List.append_eq_nil_iff.1 htouched).2 (h.computes op hmem)
  | cons first rest =>
    have hlt := h.exist op hmem first (htouched ▸ List.mem_cons_self)
    obtain ⟨operand, hoperand⟩ := exists_operand hlt
    dsimp only
    rw [operand_eq_ok.2 hoperand]
    exact ⟨_, rfl⟩

/-- Only the operations of a model have signatures there. -/
theorem Model.lt_of_signature {m : Model} {i : Nat} {s : Signature} (h : m.signature i = .ok s) :
    i < m.operations.length := by
  obtain ⟨op, hop, -⟩ := bind_eq_ok.1 h
  rw [operation] at hop
  split at hop
  · next hsome => exact (List.getElem?_eq_some_iff.1 hsome).1
  · cases hop

namespace Assignment

/-- The flags of a device that goes by its declared signatures. -/
theorem getD_support_declared {m : Model} {d : Device} (hdeclared : d.hasSignatures = true)
    {flags : List Bool} (hflags : support m d = .ok flags) {i : Nat} :
    flags.getD i false = true ↔ ∃ s, m.signature i = .ok s ∧ d.supportsSignature s = true := by
  rw [support, if_pos hdeclared] at hflags
  rw [List.getD_eq_getElem?_getD]
  constructor
  · intro hset
    cases hflag : flags[i]? with
    | none => simp [hflag] at hset
    | some flag =>
      obtain ⟨j, hj, hanswer⟩ := counterpart (mapM_eq_ok.1 hflags).flip hflag
      obtain ⟨hlt, rfl⟩ := List.getElem?_eq_some_iff.1 hj
      obtain ⟨s, hs, hsupports⟩ := bind_eq_ok.1 hanswer
      rw [List.getElem_range] at hs
      rw [hflag, Option.getD_some] at hset
      exact ⟨s, mapError_eq_ok.1 hs, (pure_eq_ok.1 hsupports).trans hset⟩
  · rintro ⟨s, hs, hsupports⟩
    have hrange := List.getElem?_range (Model.lt_of_signature hs)
    obtain ⟨flag, hflag, hanswer⟩ := counterpart (mapM_eq_ok.1 hflags) hrange
    obtain ⟨s', hs', hsame⟩ := bind_eq_ok.1 hanswer
    obtain rfl := Except.ok.inj (hs.symm.trans (mapError_eq_ok.1 hs'))
    rw [hflag, Option.getD_some, ← pure_eq_ok.1 hsame, hsupports]

/-- Whether one of the devices supports an operation, by the flags of all devices. -/
def Supported (support : List (List Bool)) (i : Nat) : Prop :=
  ∃ flags ∈ support, flags.getD i false = true

instance (support : List (List Bool)) (i : Nat) : Decidable (Supported support i) :=
  inferInstanceAs (Decidable (∃ flags ∈ support, flags.getD i false = true))

/-! ## The best candidate -/

theorem mem_of_foldl_better {candidates : List (Nat × Single)} {best : Option (Nat × Single)}
    {c : Nat × Single} (h : candidates.foldl better best = some c) :
    c ∈ candidates ∨ best = some c := by
  induction candidates generalizing best with
  | nil => exact Or.inr h
  | cons candidate rest ih =>
    rcases ih h with hrest | hbest
    · exact Or.inl (List.mem_cons_of_mem _ hrest)
    · unfold better at hbest
      split at hbest
      · exact Or.inl (Option.some.inj hbest ▸ List.mem_cons_self)
      · split at hbest
        · exact Or.inl (Option.some.inj hbest ▸ List.mem_cons_self)
        · exact Or.inr hbest

theorem isSome_foldl_better {candidates : List (Nat × Single)} {best : Option (Nat × Single)}
    (h : candidates ≠ [] ∨ best.isSome) : (candidates.foldl better best).isSome := by
  induction candidates generalizing best with
  | nil => exact h.resolve_left fun hne => hne rfl
  | cons candidate rest ih =>
    refine ih (Or.inr ?_)
    unfold better
    split
    · rfl
    · split <;> rfl

section Devices

variable {m : Model} {devices : List Device} {support : List (List Bool)} {preference : Preference}

theorem mem_candidates {i k : Nat} {s : Signature} {relaxed : Bool} {figure : Single} :
    (k, figure) ∈ candidates devices support i s relaxed preference ↔
      ∃ d flags, devices[k]? = some d ∧ support[k]? = some flags ∧ flags.getD i false = true ∧
        figure = d.performance s relaxed preference := by
  constructor
  · intro h
    obtain ⟨⟨⟨d, flags⟩, position⟩, hentry, heq⟩ := List.mem_filterMap.1 h
    obtain ⟨hd, hflags⟩ := List.getElem?_zip_eq_some.1 (List.mem_zipIdx_iff_getElem?.1 hentry)
    dsimp only at heq
    split at heq
    · next hset =>
      obtain ⟨rfl, rfl⟩ := Prod.mk.inj (Option.some.inj heq)
      exact ⟨d, flags, hd, hflags, hset, rfl⟩
    · cases heq
  · rintro ⟨d, flags, hd, hflags, hset, rfl⟩
    have hentry : ((d, flags), k) ∈ (devices.zip support).zipIdx :=
      List.mem_zipIdx_iff_getElem?.2 (List.getElem?_zip_eq_some.2 ⟨hd, hflags⟩)
    exact List.mem_filterMap.2 ⟨_, hentry, if_pos hset⟩

theorem candidates_ne_nil (hlength : support.length = devices.length) {i : Nat}
    (h : Supported support i) (s : Signature) (relaxed : Bool) (preference : Preference) :
    candidates devices support i s relaxed preference ≠ [] := by
  obtain ⟨flags, hflags, hset⟩ := h
  obtain ⟨k, hk⟩ := List.mem_iff_getElem?.1 hflags
  have hlt := (List.getElem?_eq_some_iff.1 hk).1.trans_eq hlength
  exact List.ne_nil_of_mem
    (mem_candidates.2 ⟨devices[k], flags, List.getElem?_eq_getElem hlt, hk, hset, rfl⟩)

/-! ## One operation -/

/-- An operation is assigned to a device that supports it. -/
theorem assign_eq_ok {i d : Nat} (h : assign m devices support preference i = .ok d) :
    d < devices.length ∧ ∃ flags, support[d]? = some flags ∧ flags.getD i false = true := by
  rw [assign] at h
  obtain ⟨s, -, h⟩ := bind_eq_ok.1 h
  dsimp only at h
  split at h
  · next position figure hbest =>
    obtain rfl := pure_eq_ok.1 h
    obtain ⟨device, flags, hdevice, hflags, hset, -⟩ :=
      mem_candidates.1 ((mem_of_foldl_better hbest).resolve_right (by simp))
    exact ⟨(List.getElem?_eq_some_iff.1 hdevice).1, flags, hflags, hset⟩
  · exact absurd h (by simp)

theorem assign_ok (hlength : support.length = devices.length) {i : Nat} {s : Signature}
    (hs : m.signature i = .ok s) (h : Supported support i) :
    ∃ d, assign m devices support preference i = .ok d := by
  have hsome : ((candidates devices support i s (m.relaxed && s.operand.isFloat32)
      preference).foldl better none).isSome :=
    isSome_foldl_better (Or.inl (candidates_ne_nil hlength h s _ preference))
  obtain ⟨best, hbest⟩ := Option.isSome_iff_exists.1 hsome
  rw [assign, hs]
  dsimp only [PlanError.ofModel, Except.mapError, ok_bind]
  rw [hbest]
  exact ⟨best.1, rfl⟩

theorem assign_error {i : Nat} {s : Signature} (hs : m.signature i = .ok s)
    (h : ¬ Supported support i) :
    assign m devices support preference i = .error (.noDevice i s) := by
  rw [assign, hs]
  dsimp only [PlanError.ofModel, Except.mapError, ok_bind]
  cases hbest : (candidates devices support i s (m.relaxed && s.operand.isFloat32)
      preference).foldl better none with
  | none => rfl
  | some best =>
    obtain ⟨-, flags, -, hflags, hset, -⟩ := mem_candidates.1
      ((mem_of_foldl_better hbest).resolve_right (by simp))
    exact absurd ⟨flags, List.mem_of_getElem? hflags, hset⟩ h

/-! ## All operations -/

/-- Every operation is assigned to a device that exists and supports it. -/
theorem assigned_of_ofModel {assignment : List Nat}
    (h : ofModel m devices preference = .ok assignment) :
    ∃ support, devices.mapM (Assignment.support m) = .ok support ∧
      ∀ i < m.operations.length, assignment.getD i 0 < devices.length ∧
        ∃ flags, support[assignment.getD i 0]? = some flags ∧ flags.getD i false = true := by
  rw [ofModel] at h
  obtain ⟨support, hsupport, h⟩ := bind_eq_ok.1 h
  refine ⟨support, hsupport, fun i hi => ?_⟩
  have hrange : (List.range m.operations.length)[i]? = some i := by
    rw [List.getElem?_range hi]
  obtain ⟨d, hd, hassign⟩ := counterpart (mapM_eq_ok.1 h) hrange
  rw [List.getD_eq_getElem?_getD, hd, Option.getD_some]
  exact assign_eq_ok hassign

theorem length_of_ofModel {assignment : List Nat}
    (h : ofModel m devices preference = .ok assignment) :
    assignment.length = m.operations.length := by
  obtain ⟨support, -, hmapped⟩ := bind_eq_ok.1 h
  simpa using (mapM_eq_ok.1 hmapped).length_eq.symm

theorem lt_of_ofModel {assignment : List Nat} (h : ofModel m devices preference = .ok assignment) :
    ∀ i < m.operations.length, assignment.getD i 0 < devices.length := by
  obtain ⟨support, -, hassigned⟩ := assigned_of_ofModel h
  exact fun i hi => (hassigned i hi).1

theorem exists_of_ofModel {assignment : List Nat}
    (h : ofModel m devices preference = .ok assignment) :
    ∀ i < m.operations.length, ∃ d < devices.length, assignment[i]? = some d := by
  intro i hi
  have hlt := lt_of_ofModel h i hi
  rw [← length_of_ofModel h] at hi
  rw [List.getD_eq_getElem?_getD, List.getElem?_eq_getElem hi] at hlt
  exact ⟨assignment[i], hlt, List.getElem?_eq_getElem hi⟩

variable (preference) in
theorem ofModel_ok (sound : Model.Sound m)
    (hsupport : devices.mapM (Assignment.support m) = .ok support)
    (h : ∀ i < m.operations.length, Supported support i) :
    ∃ assignment, ofModel m devices preference = .ok assignment := by
  have hlength := (mapM_eq_ok.1 hsupport).length_eq.symm
  obtain ⟨assignment, hassignment⟩ : ∃ assignment, (List.range m.operations.length).mapM
      (assign m devices support preference) = .ok assignment :=
    mapM_ok_of_forall fun i hi => by
      have hlt := List.mem_range.1 hi
      obtain ⟨s, hs⟩ := sound.signature_ok hlt
      exact assign_ok hlength hs (h i hlt)
  exact ⟨assignment, by rw [ofModel, hsupport, ok_bind, hassignment]⟩

variable (preference) in
/-- The first operation that no device supports is named. -/
theorem ofModel_error (sound : Model.Sound m)
    (hsupport : devices.mapM (Assignment.support m) = .ok support) {i : Nat}
    (hi : i < m.operations.length) (before : ∀ j < i, Supported support j)
    (h : ¬ Supported support i) :
    ∃ s, m.signature i = .ok s ∧ ofModel m devices preference = .error (.noDevice i s) := by
  have hlength := (mapM_eq_ok.1 hsupport).length_eq.symm
  obtain ⟨s, hs⟩ := sound.signature_ok hi
  refine ⟨s, hs, ?_⟩
  rw [ofModel, hsupport, ok_bind]
  refine mapM_error_of_first (List.getElem?_range hi) (fun j hj => ?_) (assign_error hs h)
  rw [List.take_range, List.mem_range] at hj
  have hji : j < i := hj.trans_le (Nat.min_le_left _ _)
  obtain ⟨s', hs'⟩ := sound.signature_ok (hji.trans hi)
  exact assign_ok hlength hs' (before j hji)

end Devices

end Assignment

end NeuralDispatch

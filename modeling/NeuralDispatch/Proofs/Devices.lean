import NeuralDispatch.Proofs.Assignment

/-!
# What a device runs

A device goes by what its driver has told of itself when it was asked once.  Where that is nothing,
or the coverage mode does not go by it, the driver is asked again for each model, and its answer is
checked before it counts.

* `Device.declared` — what the driver of a device declares.
* `Initialized.declarations` — a device that has been asked keeps that, as far as its mode lets it.
* `supportedOperations_eq_success` — when an answer about a model is taken.
* `Device.Runs`, `Initialized.support_iff` — the operations for which a device sets its flags.
-/

namespace NeuralDispatch

open Answer Model

/-- A driver's answer about the support of a model is taken if the revision of the driver can
express the model, and the answer is a success with one flag for each operation. -/
theorem DriverHandle.supportedOperations_eq_success {h : DriverHandle} {m : Model}
    {flags : List Bool} :
    h.supportedOperations m = .ok (.success, flags) ↔
      ∃ r, h.revision? = some r ∧ m.isCompliantWith r = true ∧
        h.askSupported m = .ok (.success, flags) ∧ flags.length = m.operations.length := by
  rw [supportedOperations]
  cases h.revision? with
  | none => simp
  | some r =>
    dsimp only
    by_cases hcompliant : m.isCompliantWith r = true
    · rw [if_neg (by simp [hcompliant])]
      constructor
      · intro hreply
        obtain ⟨⟨status, answer⟩, hanswer, hchecked⟩ := bind_eq_ok.1 hreply
        have heq := pure_eq_ok.1 hchecked
        split at heq
        · cases heq
        · next hlength =>
          obtain ⟨rfl, rfl⟩ := Prod.mk.inj heq
          exact ⟨r, rfl, hcompliant, hanswer, by simpa [Status.isOk] using hlength⟩
      · rintro ⟨r', hr, -, hanswer, hlength⟩
        refine bind_eq_ok.2 ⟨_, hanswer, ?_⟩
        simp [hlength]
    · rw [if_pos (by simpa using hcompliant)]
      constructor
      · intro hreply
        cases hreply
      · rintro ⟨r', hr, hcompliant', -⟩
        obtain rfl := Option.some.inj hr
        exact absurd hcompliant' hcompliant

namespace Device

/-- Whether a device has been asked for the declarations of its driver, once. -/
def Initialized (d : Device) : Prop :=
  ∃ name driver coverage, d = (Device.new name driver coverage).activate.1

/-- What the driver of a device declares, which is nothing unless it answers with success. -/
def declared (d : Device) : Capabilities :=
  match d.handle.capabilities with
  | .ok (status, capabilities) => if status.isOk then capabilities else {}
  | .error _ => {}

/-- Whether a device runs an operation of a model.  If signatures are declared, and the mode does
not go by occurrence, that of the operation has to be among those that the mode keeps.  Otherwise
the driver has to be fit for the model, and to answer so, with one flag for each operation; and the
mode that goes by occurrence has to keep the operation. -/
inductive Runs (d : Device) (m : Model) (i : Nat) : Prop
  | declared {s : Signature} (hdeclared : d.declared.signatures ≠ [])
      (hmode : d.coverage ≠ .occurrenceParity) (hs : m.signature i = .ok s)
      (hmem : s ∈ d.declared.signatures)
      (hkept : d.coverage.keepsSignature d.nameHash s = true) : d.Runs m i
  | answered {r : Revision} {flags : List Bool}
      (hsilent : d.declared.signatures = [] ∨ d.coverage = .occurrenceParity)
      (hrevision : d.handle.revision? = some r) (hcompliant : m.isCompliantWith r = true)
      (hanswer : d.handle.askSupported m = .ok (.success, flags))
      (hlength : flags.length = m.operations.length) (hflag : flags[i]? = some true)
      (hkept : d.coverage = .occurrenceParity →
        Coverage.keepsOccurrence d.nameHash m i = true) : d.Runs m i

variable {d : Device} {m : Model}

/-- Asking for the declarations leaves the driver and the mode alone. -/
theorem activate_keeps (d : Device) :
    d.activate.1.handle = d.handle ∧ d.activate.1.coverage = d.coverage := by
  unfold activate
  split
  · exact ⟨rfl, rfl⟩
  · dsimp only
    split
    · exact ⟨rfl, rfl⟩
    · split <;> exact ⟨rfl, rfl⟩

/-- What an initialized device goes by. -/
theorem Initialized.declarations (h : d.Initialized) :
    d.capabilities = d.declared ∧
      ∀ s, s ∈ d.signatures ↔
        s ∈ d.declared.signatures ∧ d.coverage.keepsSignature d.nameHash s = true := by
  obtain ⟨name, driver, coverage, rfl⟩ := h
  rw [activate, if_neg (by simp [Device.new])]
  dsimp only [Device.new]
  cases hanswer : (DriverHandle.ofDriver driver).capabilities with
  | error fault => simp [declared, hanswer]
  | ok answer =>
    obtain ⟨status, capabilities⟩ := answer
    dsimp only
    split
    · next hstatus =>
      simp only [declare, declared, hanswer, if_pos hstatus, Signature.toSet, Sorted.mem_ofList,
        List.mem_filter, true_and]
      exact fun s => Iff.rfl
    · next hstatus =>
      have hne : status ≠ .success := fun heq => hstatus (Status.isOk_iff.2 heq)
      simp [declared, hanswer, hne]

/-- What an initialized device goes by signatures for. -/
theorem Initialized.hasSignatures_iff (h : d.Initialized) :
    d.hasSignatures = true ↔
      d.declared.signatures ≠ [] ∧ d.coverage ≠ .occurrenceParity := by
  rw [hasSignatures, h.declarations.1, CoverageMode.usesDeclared]
  simp [and_comm]

/-- What a device makes of the answer of its driver. -/
theorem supportedOperations_getD {flags : List Bool} (h : d.supportedOperations m = .ok flags)
    (i : Nat) :
    flags.getD i false = true ↔
      ∃ answer, d.handle.supportedOperations m = .ok (.success, answer) ∧ answer[i]? = some true ∧
        (d.coverage = .occurrenceParity → Coverage.keepsOccurrence d.nameHash m i = true) := by
  rw [supportedOperations] at h
  obtain ⟨⟨status, answer⟩, hanswer, hflags⟩ := bind_eq_ok.1 h
  dsimp only at hflags
  rw [List.getD_eq_getElem?_getD, hanswer]
  by_cases hstatus : status = .success
  · subst hstatus
    simp only [Except.ok.injEq, Prod.mk.injEq, true_and, exists_eq_left']
    rw [if_neg (by decide)] at hflags
    split at hflags
    · next hmode =>
      obtain rfl := pure_eq_ok.1 hflags
      cases hi : answer[i]? with
      | none => simp [hi]
      | some flag => cases flag <;> simp [hi, hmode]
    · next hmode =>
      obtain rfl := pure_eq_ok.1 hflags
      cases hi : answer[i]? with
      | none => simp
      | some flag => cases flag <;> simp [hmode]
  · have hfailed : status.isOk = false := by simpa [Status.isOk] using hstatus
    rw [hfailed, if_pos (by decide)] at hflags
    obtain rfl := pure_eq_ok.1 hflags
    constructor
    · intro hflag
      rw [List.getElem?_replicate] at hflag
      split at hflag <;> cases hflag
    · rintro ⟨answer', heq, -⟩
      exact absurd (Prod.mk.inj (Except.ok.inj heq)).1 hstatus

/-- The flags of an initialized device are set for the operations that it runs. -/
theorem Initialized.support_iff (h : d.Initialized) {flags : List Bool}
    (hflags : Assignment.support m d = .ok flags) (i : Nat) :
    flags.getD i false = true ↔ d.Runs m i := by
  by_cases hdeclared : d.hasSignatures = true
  · obtain ⟨hsome, hmode⟩ := h.hasSignatures_iff.1 hdeclared
    rw [Assignment.getD_support_declared hdeclared hflags]
    constructor
    · rintro ⟨s, hs, hsupports⟩
      obtain ⟨hmem, hkept⟩ := (h.declarations.2 s).1 (List.contains_iff_mem.1 hsupports)
      exact .declared hsome hmode hs hmem hkept
    · rintro (⟨-, -, hs, hmem, hkept⟩ | ⟨hsilent, -⟩)
      · exact ⟨_, hs, List.contains_iff_mem.2 ((h.declarations.2 _).2 ⟨hmem, hkept⟩)⟩
      · exact absurd hsilent (not_or.2 ⟨hsome, hmode⟩)
  · have hsilent : d.declared.signatures = [] ∨ d.coverage = .occurrenceParity := by
      by_contra hnot
      obtain ⟨hsome, hmode⟩ := not_or.1 hnot
      exact hdeclared (h.hasSignatures_iff.2 ⟨hsome, hmode⟩)
    rw [Assignment.support, if_neg hdeclared] at hflags
    rw [supportedOperations_getD (mapError_eq_ok.1 hflags)]
    constructor
    · rintro ⟨answer, hanswer, hflag, hkept⟩
      obtain ⟨r, hrevision, hcompliant, hasked, hlength⟩ :=
        DriverHandle.supportedOperations_eq_success.1 hanswer
      exact .answered hsilent hrevision hcompliant hasked hlength hflag hkept
    · rintro (⟨hsome, hmode, -⟩ | ⟨-, hrevision, hcompliant, hasked, hlength, hflag, hkept⟩)
      · exact absurd hsilent (not_or.2 ⟨hsome, hmode⟩)
      · exact ⟨_, DriverHandle.supportedOperations_eq_success.2
          ⟨_, hrevision, hcompliant, hasked, hlength⟩, hflag, hkept⟩

end Device

/-- The operations that are supported are those that a device runs. -/
theorem Assignment.supported_iff {m : Model} {devices : List Device}
    (hdevices : ∀ d ∈ devices, d.Initialized) {support : List (List Bool)}
    (hsupport : devices.mapM (Assignment.support m) = .ok support) (i : Nat) :
    Supported support i ↔ ∃ d ∈ devices, d.Runs m i := by
  have hanswers := mapM_eq_ok.1 hsupport
  constructor
  · rintro ⟨flags, hflags, hset⟩
    obtain ⟨d, hd, hanswer⟩ := counterpart_mem hanswers.flip hflags
    exact ⟨d, hd, ((hdevices d hd).support_iff hanswer i).1 hset⟩
  · rintro ⟨d, hd, hruns⟩
    obtain ⟨flags, hflags, hanswer⟩ := counterpart_mem hanswers hd
    exact ⟨flags, hflags, ((hdevices d hd).support_iff hanswer i).2 hruns⟩

end NeuralDispatch

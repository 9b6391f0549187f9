import NeuralDispatch.Driver.Handle
import NeuralDispatch.Driver.Reference
import NeuralDispatch.Proofs.Answers

/-!
# Support and preparation

A planner asks a driver which operations of a model it runs long before it hands the model over.
Both questions are answered by checks of their own, first those of the handle, then those of the
driver, and they lead to the same verdict.

* `objection?` — why a reference driver turns down a model as a whole.
* `supportedOperations_eq`, `prepare_eq` — both answers, by the objection to the model and by the
  flags of its operations.
* `prepare_agrees_with_support` — a preparation is launched exactly if all operations are supported,
  and is refused with the status of the other answer, or as an invalid argument.
-/

namespace NeuralDispatch

open Answer Model

/-! ## Refusals -/

namespace DriverHandle

variable (callback : PrepareCallback PreparedModel) (status : Status)

theorem refuse_eq :
    refuse callback status = (status, ⟨callback.result?.or (some ⟨status, none⟩)⟩) := by
  rcases callback with ⟨_ | first⟩
  · cases status <;> rfl
  · rfl

/-- A preparation is answered with the status of its launch. -/
theorem follow_fst (launch : PrepareLaunch PreparedModel) :
    (follow callback launch).1 = launch.status := by
  unfold follow settle
  split <;> rfl

/-- A launch that is reported on is over with its own status, and an older report stands. -/
theorem follow_reported {report : Preparation PreparedModel} (hclean : report.sanitize = report) :
    follow callback ⟨status, [report]⟩ = (status, ⟨callback.result?.or (some report)⟩) := by
  rcases callback with ⟨_ | first⟩
  · show settle ⟨some report.sanitize⟩ status = (status, ⟨some report⟩)
    rw [hclean]
    cases status <;> rfl
  · show settle ⟨some first⟩ status = (status, ⟨some first⟩)
    cases status <;> rfl

end DriverHandle

namespace ReferenceDriver

variable {d : ReferenceDriver} {m : Model}

/-! ## The driver behind a handle -/

section Handle

variable (d m) (preference : Preference)

theorem revision?_toDriver :
    (DriverHandle.ofDriver d.toDriver).revision? = some d.config.revision := by
  cases h : d.config.revision <;> simp [DriverHandle.ofDriver, toDriver, h] <;> rfl

theorem askSupported_toDriver :
    (DriverHandle.ofDriver d.toDriver).askSupported m = (d.supportedOperations m).await := by
  cases h : d.config.revision <;> simp [DriverHandle.ofDriver, toDriver, h] <;> rfl

theorem launchPrepare_toDriver :
    (DriverHandle.ofDriver d.toDriver).launchPrepare m preference =
      (d.prepare m).map (·.toPrepared) := by
  cases h : d.config.revision <;> simp [DriverHandle.ofDriver, toDriver, h] <;> rfl

end Handle

theorem supports_iff {i : Nat} :
    d.supports m i = true ↔ ∃ s ∈ d.config.signatures, m.signature i = .ok s := by
  unfold supports
  cases m.signature i with
  | error e => simp
  | ok s => simp

/-- What a driver accepts. -/
theorem accepts_iff :
    d.accepts m = true ↔ m.validate = .ok () ∧
      ∀ i < m.operations.length, ∃ s ∈ d.config.signatures, m.signature i = .ok s := by
  have hvalid : m.validate.isOk = true ↔ m.validate = .ok () := by
    cases m.validate <;> simp [Except.isOk, Except.toBool]
  unfold accepts
  rw [Bool.and_eq_true, hvalid, List.all_eq_true]
  simp only [List.mem_range, supports_iff]

/-! ## Objections -/

/-- Why a driver turns down a model as a whole, before any signature is looked for: its revision
cannot express the model, or the model is not well formed. -/
def objection? (d : ReferenceDriver) (m : Model) : Option Status :=
  if m.isCompliantWith d.config.revision = false then some .generalFailure
  else if m.validate.isOk = false then some .invalidArgument
  else none

/-- The flags of a driver that has no objection. -/
def flags (d : ReferenceDriver) (m : Model) : List Bool :=
  (List.range m.operations.length).map (d.supports m)

theorem length_flags : (d.flags m).length = m.operations.length := by
  rw [flags, List.length_map, List.length_range]

theorem ne_success_of_objection? {status : Status} (h : d.objection? m = some status) :
    status ≠ .success := by
  unfold objection? at h
  rintro rfl
  split at h
  · cases h
  · split at h <;> cases h

/-- The kinds of models, by the objection to them. -/
theorem objection?_cases (d : ReferenceDriver) (m : Model) :
    (m.isCompliantWith d.config.revision = false ∧ d.objection? m = some .generalFailure) ∨
      m.isCompliantWith d.config.revision = true ∧
        ((∃ e, m.validate = .error e ∧ d.objection? m = some .invalidArgument) ∨
          m.validate = .ok () ∧ d.objection? m = none) := by
  cases hcompliant : m.isCompliantWith d.config.revision with
  | false => exact Or.inl ⟨rfl, if_pos hcompliant⟩
  | true =>
    refine Or.inr ⟨rfl, ?_⟩
    have hne : ¬ m.isCompliantWith d.config.revision = false := by rw [hcompliant]; decide
    cases hvalid : m.validate with
    | error e => exact Or.inl ⟨e, rfl, by rw [objection?, if_neg hne, hvalid]; rfl⟩
    | ok u => exact Or.inr ⟨rfl, by rw [objection?, if_neg hne, hvalid]; rfl⟩

theorem objection?_eq_none_iff :
    d.objection? m = none ↔
      m.isCompliantWith d.config.revision = true ∧ m.validate = .ok () := by
  obtain ⟨hcompliant, h⟩ | ⟨hcompliant, ⟨e, hvalid, h⟩ | ⟨hvalid, h⟩⟩ := d.objection?_cases m
  · simp [h, hcompliant]
  · simp [h, hvalid]
  · simp [h, hcompliant, hvalid]

/-- Without an objection, a model is accepted exactly if all its flags are set. -/
theorem accepts_iff_flags (h : d.objection? m = none) :
    d.accepts m = true ↔ ∀ flag ∈ d.flags m, flag = true := by
  rw [accepts, (objection?_eq_none_iff.1 h).2, flags, List.forall_mem_map, ← List.all_eq_true]
  rfl

/-! ## Both answers -/

/-- What a reference driver answers about the support of a model. -/
theorem supportedOperations_eq :
    (DriverHandle.ofDriver d.toDriver).supportedOperations m =
      .ok (match d.objection? m with
        | some status => (status, [])
        | none => (.success, d.flags m)) := by
  rw [DriverHandle.supportedOperations, revision?_toDriver, askSupported_toDriver,
    supportedOperations]
  obtain ⟨hcompliant, h⟩ | ⟨hcompliant, ⟨e, hvalid, h⟩ | ⟨hvalid, h⟩⟩ := d.objection?_cases m
  · simp [h, hcompliant]
  · simp [h, hcompliant, hvalid, Reply.await]
  · simp [h, hcompliant, hvalid, Reply.await, flags]

variable {preference : Preference} {callback : PrepareCallback PreparedModel}

/-- What becomes of a preparation by a reference driver. -/
theorem prepare_eq :
    (DriverHandle.ofDriver d.toDriver).prepare m preference callback =
      match d.objection? m with
      | some status => (status, ⟨callback.result?.or (some ⟨status, none⟩)⟩)
      | none =>
        if d.accepts m then DriverHandle.follow callback ((d.launch m).map (·.toPrepared))
        else (.invalidArgument, ⟨callback.result?.or (some ⟨.invalidArgument, none⟩)⟩) := by
  have hrefused :
      DriverHandle.follow callback ((refuse .invalidArgument).map (·.toPrepared)) =
        (.invalidArgument, ⟨callback.result?.or (some ⟨.invalidArgument, none⟩)⟩) :=
    DriverHandle.follow_reported callback .invalidArgument rfl
  rw [DriverHandle.prepare, revision?_toDriver, launchPrepare_toDriver, prepare]
  obtain ⟨hcompliant, h⟩ | ⟨hcompliant, ⟨e, hvalid, h⟩ | ⟨hvalid, h⟩⟩ := d.objection?_cases m
  · simp [h, hcompliant, DriverHandle.refuse_eq]
  · have haccepts : d.accepts m = false := by rw [accepts, hvalid]; rfl
    simp only [h, hcompliant, haccepts, if_true, if_neg Bool.false_ne_true]
    exact hrefused
  · simp only [h, hcompliant, if_true]
    split
    · rfl
    · exact hrefused

/-- A model that a driver can be handed and accepts is prepared, if preparations are to end with
success. -/
theorem prepare_of_accepts (hcompliant : m.isCompliantWith d.config.revision = true)
    (haccepts : d.accepts m = true) (hstatus : d.config.preparationStatus = .success) :
    (DriverHandle.ofDriver d.toDriver).prepare m preference .new =
      (.success, ⟨some ⟨.success, some (ReferenceModel.toPrepared ⟨d, m⟩)⟩⟩) := by
  rw [prepare_eq, objection?_eq_none_iff.2 ⟨hcompliant, (accepts_iff.1 haccepts).1⟩]
  dsimp only
  rw [if_pos haccepts, launch, hstatus]
  rfl

variable (d m preference callback)

/-- A reference driver always answers which operations of a model it supports, and what becomes of a
preparation follows from that answer, for every model, well formed or not.  The preparation is
launched exactly if the answer is a success with every flag set.  It is refused with the status of
an answer that is not a success, and as an invalid argument if some flag is not set; and the
callback, if it has not been notified before, holds that status and no model. -/
theorem prepare_agrees_with_support :
    ∃ status flags,
      (DriverHandle.ofDriver d.toDriver).supportedOperations m = .ok (status, flags) ∧
      (status = .success → flags.length = m.operations.length) ∧
      ∃ answer callback',
        (DriverHandle.ofDriver d.toDriver).prepare m preference callback = (answer, callback') ∧
        (answer = .success ↔ status = .success ∧ ∀ flag ∈ flags, flag = true) ∧
        (status ≠ .success → answer = status ∧
          callback'.result? = callback.result?.or (some ⟨status, none⟩)) ∧
        (status = .success → false ∈ flags → answer = .invalidArgument ∧
          callback'.result? = callback.result?.or (some ⟨.invalidArgument, none⟩)) := by
  rw [supportedOperations_eq, prepare_eq]
  cases h : d.objection? m with
  | some status =>
    have hne := ne_success_of_objection? h
    exact ⟨_, _, rfl, fun heq => absurd heq hne, _, _, rfl,
      ⟨fun heq => absurd heq hne, fun heq => absurd heq.1 hne⟩, fun _ => ⟨rfl, rfl⟩,
      fun heq => absurd heq hne⟩
  | none =>
    refine ⟨_, _, rfl, fun _ => length_flags, ?_⟩
    have hflags := accepts_iff_flags h
    by_cases haccepts : d.accepts m = true
    · have hall := hflags.1 haccepts
      have hanswer := DriverHandle.follow_fst callback ((d.launch m).map (·.toPrepared))
      rw [if_pos haccepts]
      exact ⟨_, _, Prod.ext hanswer rfl, ⟨fun _ => ⟨rfl, hall⟩, fun _ => rfl⟩,
        fun hne => absurd rfl hne, fun _ hfalse => absurd (hall false hfalse) Bool.false_ne_true⟩
    · have hnot : ¬ ∀ flag ∈ d.flags m, flag = true := fun hall => haccepts (hflags.2 hall)
      rw [if_neg haccepts]
      exact ⟨_, _, rfl, ⟨nofun, fun heq => absurd heq.2 hnot⟩,
        fun hne => absurd rfl hne, fun _ _ => ⟨rfl, rfl⟩⟩

end ReferenceDriver

end NeuralDispatch

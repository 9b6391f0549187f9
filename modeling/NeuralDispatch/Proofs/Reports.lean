import NeuralDispatch.Driver.Handle
import NeuralDispatch.Proofs.Decoded
import NeuralDispatch.Proofs.Preparation
import NeuralDispatch.Proofs.Restore

/-!
# What a restoration reports

The two files that a restoration starts from need not come from the driver.  Whatever they hold,
the caller is told exactly once how the restoration ended, and gets a model only if the driver would
also prepare it when it is handed over directly.

* `restoreReports` — all that is reported to a new callback.
* `ReferenceDriver.Restores` — what has to hold for a model to be restored.
* `restore_fails_closed` — a restoration fails with a single report, or such a model is restored.
-/

namespace NeuralDispatch

open Answer Model

/-! ## Reports to a new callback -/

namespace DriverHandle

/-- What a new callback is told of a launch: what the driver reports, and the failure of a launch of
which it reports nothing. -/
def reportsOf (launch : PrepareLaunch PreparedModel) : List (Preparation PreparedModel) :=
  launch.notifications ++
    if !launch.status.isOk && launch.notifications.isEmpty then [⟨launch.status, none⟩] else []

theorem follow_new (launch : PrepareLaunch PreparedModel) :
    follow Callback.new launch =
      (launch.status, PrepareCallback.reportAll Callback.new (reportsOf launch)) := by
  obtain ⟨status, notifications⟩ := launch
  unfold follow settle reportsOf
  cases notifications with
  | nil => cases status <;> rfl
  | cons first rest =>
    have hnotified :
        (PrepareCallback.reportAll Callback.new (first :: rest)).isNotified = true := by
      unfold Callback.isNotified PrepareCallback.reportAll
      rw [Callback.result?_notifyAll]
      rfl
    simp [hnotified]

/-- All that a new callback is told of a restoration. -/
def restoreReports (h : DriverHandle) (store : FileStore) (model data : FileHandle)
    (token : Cache.Token) : List (Preparation PreparedModel) :=
  match h with
  | .v1_2 _ driver => reportsOf (driver.restore store model data token)
  | _ => [⟨.generalFailure, none⟩]

/-- The callback keeps the first of the reports. -/
theorem restore_new (h : DriverHandle) (store : FileStore) (model data : FileHandle)
    (token : Cache.Token) :
    (h.restore store model data token Callback.new).2 =
      PrepareCallback.reportAll Callback.new (h.restoreReports store model data token) := by
  cases h with
  | v1_2 base driver =>
    show (follow Callback.new (driver.restore store model data token)).2 = _
    rw [follow_new]
    rfl
  | invalid => rfl
  | v1_0 base => rfl
  | v1_1 base driver => rfl

theorem restore_of_reports {h : DriverHandle} {store : FileStore} {model data : FileHandle}
    {token : Cache.Token} {report : Preparation PreparedModel}
    (hreports : h.restoreReports store model data token = [report])
    (hclean : report.sanitize = report) :
    (h.restore store model data token Callback.new).2 = ⟨some report⟩ := by
  rw [restore_new, hreports]
  show (⟨some report.sanitize⟩ : PrepareCallback PreparedModel) = _
  rw [hclean]

end DriverHandle

/-! ## What is restored -/

namespace ReferenceDriver

variable (d : ReferenceDriver) (store : FileStore) (model data : FileHandle) (token : Cache.Token)

/-- Whether the driver restores this model from two files. -/
structure Restores (m : Model) : Prop where
  revision : (DriverHandle.ofDriver d.toDriver).revision? = some .v1_2
  caching : d.config.caching = true
  decoded : ∃ modelBytes dataBytes, store.read? model = some modelBytes ∧
    store.read? data = some dataBytes ∧ Cache.decode modelBytes dataBytes token d.key = .ok m
  valid : m.validate = .ok ()
  supported : ∀ i < m.operations.length, ∃ s ∈ d.config.signatures, m.signature i = .ok s

variable {d store model data token}

theorem restores_iff {m : Model} :
    d.Restores store model data token m ↔
      d.config.revision = .v1_2 ∧ d.restorable? store model data token = some m := by
  rw [restorable?_eq_some, accepts_iff]
  constructor
  · intro h
    have hrevision := h.revision
    rw [revision?_toDriver, Option.some.injEq] at hrevision
    exact ⟨hrevision, h.caching, ⟨h.valid, h.supported⟩, h.decoded⟩
  · rintro ⟨hrevision, hcaching, ⟨hvalid, hsupported⟩, hdecoded⟩
    refine ⟨?_, hcaching, hdecoded, hvalid, hsupported⟩
    rw [revision?_toDriver, hrevision]

theorem restoreReports_toDriver :
    (DriverHandle.ofDriver d.toDriver).restoreReports store model data token =
      if d.config.revision = .v1_2 then
        DriverHandle.reportsOf ((d.restore store model data token).map (·.toPrepared))
      else [⟨.generalFailure, none⟩] := by
  cases h : d.config.revision <;> simp [DriverHandle.ofDriver, toDriver, h] <;> rfl

theorem restore_toDriver (callback : PrepareCallback PreparedModel) :
    (DriverHandle.ofDriver d.toDriver).restore store model data token callback =
      if d.config.revision = .v1_2 then
        DriverHandle.follow callback ((d.restore store model data token).map (·.toPrepared))
      else DriverHandle.refuse callback .generalFailure := by
  cases h : d.config.revision <;> simp [DriverHandle.ofDriver, toDriver, h] <;> rfl

/-- What is reported of a model that is restored. -/
def restoredReport (d : ReferenceDriver) (m : Model) : Preparation PreparedModel where
  status := d.config.preparationStatus
  model? :=
    if d.config.preparationStatus = .success then some (ReferenceModel.toPrepared ⟨d, m⟩) else none

theorem sanitize_restoredReport (m : Model) :
    (d.restoredReport m).sanitize = d.restoredReport m := by
  unfold Preparation.sanitize
  split
  · rfl
  · next hstatus =>
    have hne : d.config.preparationStatus ≠ .success := fun h => hstatus (Status.isOk_iff.2 h)
    unfold restoredReport
    rw [if_neg hne]

theorem launch_toPrepared (m : Model) :
    (d.launch m).map (·.toPrepared) = ⟨.success, [d.restoredReport m]⟩ := by
  unfold launch restoredReport
  by_cases hstatus : d.config.preparationStatus = .success
  · simp [PrepareLaunch.map, hstatus]
  · simp [PrepareLaunch.map, hstatus]

/-- What becomes of a restoration when the driver takes no model from the files. -/
theorem restore_of_none
    (h : d.config.revision = .v1_2 → d.restorable? store model data token = none) :
    ((DriverHandle.ofDriver d.toDriver).restore store model data token Callback.new).1 =
        .generalFailure ∧
      (DriverHandle.ofDriver d.toDriver).restoreReports store model data token =
        [⟨.generalFailure, none⟩] := by
  rw [restore_toDriver, restoreReports_toDriver]
  by_cases hrevision : d.config.revision = .v1_2
  · rw [if_pos hrevision, if_pos hrevision]
    unfold restore
    rw [h hrevision]
    exact ⟨rfl, rfl⟩
  · rw [if_neg hrevision, if_neg hrevision]
    exact ⟨rfl, rfl⟩

/-- What becomes of a restoration when the driver takes a model from the files. -/
theorem restore_of_some {m : Model} (hrevision : d.config.revision = .v1_2)
    (h : d.restorable? store model data token = some m) :
    ((DriverHandle.ofDriver d.toDriver).restore store model data token Callback.new).1 = .success ∧
      (DriverHandle.ofDriver d.toDriver).restoreReports store model data token =
        [d.restoredReport m] := by
  rw [restore_toDriver, restoreReports_toDriver, if_pos hrevision, if_pos hrevision]
  unfold restore
  rw [h]
  dsimp only
  rw [launch_toPrepared, DriverHandle.follow_new]
  exact ⟨rfl, rfl⟩

variable (d store model data token)

/-- What is decoded from the files, whatever they hold, can be worked on without looking outside of
it.  The callback is left as the reports of the restoration leave it, and there is a single one,
which the callback keeps: either of a general failure,
or of a model that its driver accepts, with the status that preparations are to end with.  The
report brings the model if that status is success. -/
theorem restore_fails_closed :
    (∀ modelBytes dataBytes m, Cache.decode modelBytes dataBytes token d.key = .ok m → Intact m) ∧
    ((DriverHandle.ofDriver d.toDriver).restore store model data token Callback.new).2 =
      PrepareCallback.reportAll Callback.new
        ((DriverHandle.ofDriver d.toDriver).restoreReports store model data token) ∧
    ∃ status report,
      (DriverHandle.ofDriver d.toDriver).restore store model data token Callback.new =
        (status, ⟨some report⟩) ∧
      (DriverHandle.ofDriver d.toDriver).restoreReports store model data token = [report] ∧
      ((status = .generalFailure ∧ report = ⟨.generalFailure, none⟩ ∧
          ∀ m, ¬ d.Restores store model data token m) ∨
        (status = .success ∧ ∃ m, d.Restores store model data token m ∧
          report = d.restoredReport m)) := by
  refine ⟨fun modelBytes dataBytes m => Cache.intact_of_decode, DriverHandle.restore_new .., ?_⟩
  by_cases h : ∃ m, d.Restores store model data token m
  · obtain ⟨m, hm⟩ := h
    obtain ⟨hrevision, hrestorable⟩ := restores_iff.1 hm
    obtain ⟨hstatus, hreports⟩ := restore_of_some hrevision hrestorable
    have hkept := DriverHandle.restore_of_reports hreports (sanitize_restoredReport m)
    exact ⟨.success, d.restoredReport m, Prod.ext hstatus hkept, hreports,
      Or.inr ⟨rfl, m, hm, rfl⟩⟩
  · have hnone : d.config.revision = .v1_2 → d.restorable? store model data token = none := by
      intro hrevision
      rw [Option.eq_none_iff_forall_ne_some]
      intro m hrestorable
      exact h ⟨m, restores_iff.2 ⟨hrevision, hrestorable⟩⟩
    obtain ⟨hstatus, hreports⟩ := restore_of_none hnone
    have hkept := DriverHandle.restore_of_reports hreports rfl
    exact ⟨.generalFailure, ⟨.generalFailure, none⟩, Prod.ext hstatus hkept, hreports,
      Or.inl ⟨rfl, rfl, not_exists.1 h⟩⟩

end ReferenceDriver

end NeuralDispatch

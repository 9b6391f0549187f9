import NeuralDispatch.Proofs.DataFlow
import NeuralDispatch.Proofs.Preparation
import NeuralDispatch.Proofs.Restore

/-!
# One driver at several revisions

A driver can be built to offer an older revision than it could.  What a caller loses by that is
what the older revision cannot carry, and nothing else.

* `ReferenceDriver.capped` — a reference driver that offers a revision and those before it.
* `ReferenceDriver.prepare_capped` — it prepares the models that the revision can express, if they
  are supported at all.
* `Execution.Restrained` — what a report may say, by the revision and by what was asked for.
* `executeSynchronously_transparent` — an execution ends with the same status and leaves the same
  memory at every revision, although the old ones only know launches.
-/

namespace NeuralDispatch

open Model

/-! ## What a report may say -/

/-- Whether a report says no more than a revision can carry, its status allows and the caller has
asked for. -/
structure Execution.Restrained (e : Execution) (r : Revision) (measure : Bool) : Prop where
  shapes : r ≠ .v1_2 ∨ (e.status ≠ .success ∧ e.status ≠ .outputInsufficientSize) → e.shapes = []
  timing : r ≠ .v1_2 ∨ measure = false ∨ e.status ≠ .success → e.timing = .unavailable

theorem Execution.restrained_sanitize (e : Execution) (measure : Bool) :
    (e.sanitize measure).Restrained .v1_2 measure := by
  obtain ⟨status, shapes, timing⟩ := e
  constructor
  · rintro (hold | ⟨hfull, hpartial⟩)
    · exact absurd rfl hold
    · cases status
      case success => exact absurd rfl hfull
      case outputInsufficientSize => exact absurd rfl hpartial
      all_goals rfl
  · rintro (hold | hsilent | hfailed)
    · exact absurd rfl hold
    · rw [hsilent]
      rfl
    · cases status
      case success => exact absurd rfl hfailed
      all_goals cases measure <;> rfl

/-- A report of nothing but a status suits every revision. -/
theorem Execution.restrained_status (status : Status) (r : Revision) (measure : Bool) :
    (sanitize { status } measure).Restrained r measure := by
  constructor <;> intro _ <;> cases status <;> cases measure <;> rfl

namespace ReferenceModel

variable (p : ReferenceModel) (r : Request)

/-- A launch by a caller of the oldest revision ends with a status and nothing else. -/
theorem awaitLaunch_statusOnly :
    ∃ status, PreparedModel.awaitLaunch (p.launch r false true) = .ok { status } := by
  by_cases haccepts : p.accepts r = true
  · refine ⟨(p.run r false).2.status, ?_⟩
    simp only [launch, haccepts]
    rfl
  · refine ⟨.invalidArgument, ?_⟩
    simp only [launch, haccepts]
    rfl

theorem restrained_of_executeSynchronously {measure : Bool} {r' : Request} {e : Execution}
    (h : p.toPrepared.executeSynchronously r measure = (r', .ok e)) :
    e.Restrained p.driver.config.revision measure := by
  by_cases hnewest : Revision.v1_2 ≤ p.driver.config.revision
  · have hrevision : p.driver.config.revision = .v1_2 := by
      revert hnewest
      cases p.driver.config.revision <;> decide
    rw [p.executeSynchronously_newest r measure hnewest] at h
    obtain rfl := Except.ok.inj (Prod.mk.inj h).2
    rw [hrevision]
    exact Execution.restrained_sanitize _ measure
  · obtain ⟨status, hlaunch⟩ := p.awaitLaunch_statusOnly r
    simp only [PreparedModel.executeSynchronously, toPrepared, if_neg hnewest, hlaunch] at h
    obtain rfl := Except.ok.inj (Prod.mk.inj h).2
    exact Execution.restrained_status status _ measure

end ReferenceModel

/-! ## The same driver at another revision -/

namespace ReferenceDriver

/-- The driver as it is when a revision is the newest that it offers. -/
def capped (d : ReferenceDriver) (r : Revision) : ReferenceDriver :=
  { d with config := { d.config with revision := r } }

variable (d : ReferenceDriver) (m : Model)

/-- A model that a revision can express is prepared at that revision as at any other. -/
theorem prepare_capped (hstatus : d.config.preparationStatus = .success)
    (haccepts : d.accepts m = true) {r : Revision} (hrevision : m.minRevision ≤ r)
    (preference : Preference) :
    (DriverHandle.ofDriver (d.capped r).toDriver).prepare m preference .new =
      (.success, ⟨some ⟨.success, some (ReferenceModel.toPrepared ⟨d.capped r, m⟩)⟩⟩) :=
  prepare_of_accepts (decide_eq_true hrevision) haccepts hstatus

/-- A run does not depend on the revision that the driver offers. -/
theorem run_capped (r : Revision) (request : Request) (measure : Bool) :
    ReferenceModel.run ⟨d.capped r, m⟩ request measure =
      ReferenceModel.run ⟨d, m⟩ request measure := rfl

end ReferenceDriver

open ReferenceDriver

/-- A supported model is prepared at every revision that can express it, and a request, whatever it
asks for, then ends with the same status and leaves the same memory.  What is reported beyond the
status is restrained by the revision. -/
theorem executeSynchronously_transparent {d : ReferenceDriver} {m : Model}
    (hstatus : d.config.preparationStatus = .success) (haccepts : d.accepts m = true)
    {r r' : Revision} (hr : m.minRevision ≤ r) (hr' : m.minRevision ≤ r')
    (preference preference' : Preference) :
    ∃ p p', (DriverHandle.ofDriver (d.capped r).toDriver).prepare m preference .new =
        (.success, ⟨some ⟨.success, some p⟩⟩) ∧
      (DriverHandle.ofDriver (d.capped r').toDriver).prepare m preference' .new =
        (.success, ⟨some ⟨.success, some p'⟩⟩) ∧
      ∀ request measure, ∃ pools e e',
        p.executeSynchronously request measure = ({ request with pools }, .ok e) ∧
        p'.executeSynchronously request measure = ({ request with pools }, .ok e') ∧
        e.status = e'.status ∧ e.Restrained r measure ∧ e'.Restrained r' measure := by
  refine ⟨_, _, d.prepare_capped m hstatus haccepts hr preference,
    d.prepare_capped m hstatus haccepts hr' preference', ?_⟩
  intro request measure
  obtain ⟨e, hexecute, hsame⟩ :=
    ReferenceModel.executeSynchronously_eq ⟨d.capped r, m⟩ request measure
  obtain ⟨e', hexecute', hsame'⟩ :=
    ReferenceModel.executeSynchronously_eq ⟨d.capped r', m⟩ request measure
  refine ⟨(ReferenceModel.run ⟨d, m⟩ request false).1.pools, e, e', ?_, ?_, ?_, ?_, ?_⟩
  · rw [hexecute, run_capped]
  · rw [hexecute', run_capped]
  · rw [hsame, hsame', run_capped, run_capped]
  · exact ReferenceModel.restrained_of_executeSynchronously _ request hexecute
  · exact ReferenceModel.restrained_of_executeSynchronously _ request hexecute'

/-- The chain runs alike at the oldest and at the newest revision. -/
theorem executeSynchronously_transparent_chain :
    plain.config.preparationStatus = .success ∧ plain.accepts Plan.chain = true ∧
      Plan.chain.minRevision ≤ .v1_0 ∧ Plan.chain.minRevision ≤ .v1_2 ∧
      ∃ p p' : PreparedModel, ∀ request measure, ∃ pools e e',
        p.executeSynchronously request measure = ({ request with pools }, .ok e) ∧
        p'.executeSynchronously request measure = ({ request with pools }, .ok e') ∧
        e.status = e'.status ∧ e.Restrained .v1_0 measure ∧ e'.Restrained .v1_2 measure := by
  have hstatus : plain.config.preparationStatus = .success := rfl
  have haccepts : plain.accepts Plan.chain = true := by decide
  have hold : Plan.chain.minRevision ≤ .v1_0 := by decide
  have hnew : Plan.chain.minRevision ≤ .v1_2 := by decide
  obtain ⟨p, p', -, -, halike⟩ := executeSynchronously_transparent hstatus haccepts hold hnew
    .lowPower .fastSingleAnswer
  exact ⟨hstatus, haccepts, hold, hnew, p, p', halike⟩

end NeuralDispatch

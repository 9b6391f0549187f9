import Mathlib.Logic.Relation
import NeuralDispatch.Driver.Handle
import NeuralDispatch.Driver.Prepared

/-!
# Calls that race with their driver

A driver that has been called may report to the callback from any of its threads, before its call
returns, afterwards or not at all.  Meanwhile whoever called the driver looks whether there is a
report and makes one if a failure has none, and others wait for it.  The definitions of the calls
know one order of all this, in which a driver has made its reports when its call returns.  Here they
come in any order.

* `AsyncCall` — the calls that take a callback, and when they fail without asking the driver.
* `AsyncCall.Move` — what can happen next.
* `AsyncCall.CompletesOnce` — what is expected of a call and its callback at any time.
* `AsyncCall.exists_returned` — no call waits for anything but its driver.
* `DriverHandle.prepare_yields`, `DriverHandle.restore_yields` and
  `PreparedModel.executeAsync_yields` — the definitions of the calls are among the ways in which it
  can go.
* `completes_once` — whatever happens, each of the three calls fulfils it, and the definitions of the
  calls are among what can happen.
-/

namespace NeuralDispatch

/-! ## The calls -/

/-- A call that takes a callback. -/
structure AsyncCall (α : Type) where
  /-- A report as the callback keeps it. -/
  keep : α → α
  status : α → Status
  /-- What the call itself reports of a failure. -/
  failure : Status → α
  /-- The status with which the call fails without asking the driver. -/
  refusal? : Option Status
  status_failure : ∀ r, status (keep (failure r)) = r

/-- The preparation of a model (`VersionedDevice.prepare_model`). -/
def DriverHandle.preparing (h : DriverHandle) (m : Model) :
    AsyncCall (Preparation PreparedModel) where
  keep := Preparation.sanitize
  status := Preparation.status
  failure := fun r => ⟨r, none⟩
  refusal? :=
    match h.revision? with
    | none => some .deviceUnavailable
    | some revision => if m.isCompliantWith revision then none else some .generalFailure
  status_failure := fun r => by cases r <;> rfl

theorem DriverHandle.refusal?_preparing_of_none {h : DriverHandle} {m : Model}
    (hrevision : h.revision? = none) :
    (h.preparing m).refusal? = some .deviceUnavailable := by
  simp [preparing, hrevision]

theorem DriverHandle.refusal?_preparing_of_some {h : DriverHandle} {m : Model}
    {revision : Revision} (hrevision : h.revision? = some revision) :
    (h.preparing m).refusal? =
      if m.isCompliantWith revision then none else some .generalFailure := by
  simp [preparing, hrevision]

/-- The preparation of a model that is kept in cache files (`prepare_model_from_cache`). -/
def DriverHandle.restoring (h : DriverHandle) : AsyncCall (Preparation PreparedModel) where
  keep := Preparation.sanitize
  status := Preparation.status
  failure := fun r => ⟨r, none⟩
  refusal? := if h.revision? = some .v1_2 then none else some .generalFailure
  status_failure := fun r => by cases r <;> rfl

/-- An execution of a prepared model (`VersionedPreparedModel.execute`), which is never refused. -/
def PreparedModel.executing : AsyncCall Execution where
  keep := id
  status := Execution.status
  failure := fun r => { status := r }
  refusal? := none
  status_failure := fun _ => rfl

namespace AsyncCall

variable {α : Type}

/-! ## What can happen -/

/-- How far a call has come. -/
inductive Phase where
  | entering
  /-- The driver is at work on its own call. -/
  | launched
  /-- The driver's call has returned, and nobody has looked at the callback yet. -/
  | answered (r : Status)
  /-- It remains to report this failure. -/
  | failing (r : Status)
  | returned (r : Status)
  deriving DecidableEq

/-- A call, its callback, and what has happened so far. -/
structure Session (α : Type) where
  callback : Callback α := .new
  phase : Phase := .entering
  /-- How often the driver has been called. -/
  calls : Nat := 0
  /-- All reports, in the order in which they took the lock, with the answers that they got. -/
  log : List (α × Bool) := []
  /-- What those got that have waited for the callback. -/
  seen : List α := []

/-- The session after a report to the callback. -/
def notified (c : AsyncCall α) (s : Session α) (a : α) : Session α :=
  { s with
    callback := (s.callback.notify (c.keep a)).1
    log := s.log ++ [(a, (s.callback.notify (c.keep a)).2)] }

/-- What can happen next.  A report is `Slot.set`; `answered`, `failing` and `returned` are the
steps of `settle_launch`.  Every move takes the lock of the callback at most once, so that moves of
different threads come one after the other.  Which thread of the driver reports, and who waits,
makes no difference. -/
inductive Move (c : AsyncCall α) (s : Session α) : Session α → Prop where
  /-- The call does not ask the driver. -/
  | refuse {r : Status} (hphase : s.phase = .entering) (hrefusal : c.refusal? = some r) :
    Move c s { s with phase := .failing r }
  /-- The driver is called, and has the callback from now on. -/
  | launch (hphase : s.phase = .entering) (hrefusal : c.refusal? = none) :
    Move c s { s with phase := .launched, calls := s.calls + 1 }
  /-- A thread of the driver reports whatever it likes. -/
  | notify (hcalls : s.calls ≠ 0) (a : α) : Move c s (c.notified s a)
  /-- The driver's call returns any status. -/
  | answer (hphase : s.phase = .launched) (r : Status) : Move c s { s with phase := .answered r }
  /-- There is nothing that the call has to report. -/
  | rest {r : Status} (hphase : s.phase = .answered r)
      (hchecked : (!r.isOk && !s.callback.isNotified) = false) :
    Move c s { s with phase := .returned r }
  /-- The call finds that a failure has not been reported. -/
  | notice {r : Status} (hphase : s.phase = .answered r)
      (hchecked : (!r.isOk && !s.callback.isNotified) = true) :
    Move c s { s with phase := .failing r }
  /-- The call reports its failure, to a callback that others may have notified by now. -/
  | fail {r : Status} (hphase : s.phase = .failing r) :
    Move c s { c.notified s (c.failure r) with phase := .returned r }
  /-- Somebody who waits for the callback gets its report. -/
  | wake {a : α} (hresult : s.callback.result? = some a) :
    Move c s { s with seen := s.seen ++ [a] }

/-- Whether this can happen, with any number of reports and waiters in any order. -/
abbrev Reaches (c : AsyncCall α) : Session α → Session α → Prop := Relation.ReflTransGen c.Move

variable {c : AsyncCall α} {s s' : Session α}

/-! ## The callback -/

/-- No move replaces what the callback keeps. -/
theorem Move.result? (hmove : c.Move s s') {a : α} (ha : s.callback.result? = some a) :
    s'.callback.result? = some a := by
  have hnotify : ∀ b, (s.callback.notify b).1.result? = some a := by
    intro b
    rw [Callback.result?_notify, ha]
    rfl
  cases hmove with
  | notify hcalls b => exact hnotify _
  | fail hphase => exact hnotify _
  | refuse | launch | answer | rest | notice | wake => exact ha

theorem Reaches.result? (h : c.Reaches s s') {a : α} (ha : s.callback.result? = some a) :
    s'.callback.result? = some a := by
  induction h with
  | refl => exact ha
  | tail _ hmove ih => exact hmove.result? ih

theorem Move.isNotified (hmove : c.Move s s') (h : s.callback.isNotified = true) :
    s'.callback.isNotified = true := by
  obtain ⟨a, ha⟩ := Option.isSome_iff_exists.1 h
  exact Option.isSome_iff_exists.2 ⟨a, hmove.result? ha⟩

/-- What a callback keeps and answers when it has got these reports. -/
structure Recorded (c : AsyncCall α) (callback : Callback α) (log : List (α × Bool)) : Prop where
  /-- It keeps the first of them. -/
  kept : callback.result? = log.head?.map fun entry => c.keep entry.1
  /-- It accepts the first of them and no other. -/
  accepted : ∀ k a b, log[k]? = some (a, b) → (b = true ↔ k = 0)

theorem Recorded.new : c.Recorded .new [] := ⟨rfl, nofun⟩

theorem Recorded.isNotified {callback : Callback α} {log : List (α × Bool)}
    (h : c.Recorded callback log) : callback.isNotified = !log.isEmpty := by
  unfold Callback.isNotified
  rw [h.kept]
  cases log <;> rfl

theorem Recorded.notify {callback : Callback α} {log : List (α × Bool)}
    (h : c.Recorded callback log) (a : α) :
    c.Recorded (callback.notify (c.keep a)).1
      (log ++ [(a, (callback.notify (c.keep a)).2)]) where
  kept := by
    rw [Callback.result?_notify, h.kept]
    cases log <;> rfl
  accepted := by
    intro k b answer hk
    rcases Nat.lt_or_ge k log.length with hlt | hge
    · rw [List.getElem?_append_left hlt] at hk
      exact h.accepted k b answer hk
    · -- the last entry: it was accepted just if there was none before it
      rw [List.getElem?_append_right hge] at hk
      obtain ⟨hlast, he⟩ := List.getElem?_eq_some_iff.1 hk
      have hk0 : k = log.length := by
        rw [List.length_singleton] at hlast
        omega
      subst hk0
      have hanswer : answer = log.isEmpty := by
        have he' : (a, (callback.notify (c.keep a)).2) = (b, answer) := by simpa using he
        rw [← (Prod.mk.inj he').2, Callback.notify_snd, h.isNotified, Bool.not_not]
      rw [hanswer, List.isEmpty_iff, List.length_eq_zero_iff]

/-! ## The whole call -/

/-- What holds of a callback and the call that it was passed to, at any time. -/
structure CompletesOnce (c : AsyncCall α) (s : Session α) : Prop where
  recorded : c.Recorded s.callback s.log
  /-- Whoever has waited got the first report. -/
  seen : ∀ a ∈ s.seen, s.callback.result? = some a
  /-- What the callback keeps, it keeps for ever. -/
  final : ∀ later, c.Reaches s later → ∀ a, s.callback.result? = some a →
    later.callback.result? = some a
  /-- When the call has returned a failure, there has been a report. -/
  reported : ∀ r, s.phase = .returned r → r ≠ .success → s.callback.isNotified = true
  single : s.calls ≤ 1

/-- What has become of a call that fails without asking the driver. -/
structure Refused (c : AsyncCall α) (s : Session α) (r : Status) : Prop where
  uncalled : s.calls = 0
  /-- Once the call has returned, the status that is stored is the one that is returned. -/
  stored : ∀ r', s.phase = .returned r' → r' = r ∧ s.callback.result?.map c.status = some r'

/-- The course of a call that fails without asking the driver: there is no report but its own. -/
def TurnedAway (c : AsyncCall α) (r : Status) : Phase → List (α × Bool) → Prop
  | .entering, log => log = []
  | .failing r', log => r' = r ∧ log = []
  | .returned r', log => r' = r ∧ log = [(c.failure r, true)]
  | .launched, _ | .answered _, _ => False

/-- What every move preserves. -/
structure Consistent (c : AsyncCall α) (s : Session α) : Prop extends CompletesOnce c s where
  entering : s.phase = .entering → s.calls = 0
  refused : ∀ r, c.refusal? = some r → s.calls = 0 ∧ c.TurnedAway r s.phase s.log

theorem Consistent.new : c.Consistent {} where
  recorded := .new
  seen := nofun
  final := fun _ h _ => Reaches.result? h
  reported := nofun
  single := Nat.zero_le 1
  entering := fun _ => rfl
  refused := fun _ _ => ⟨rfl, rfl⟩

/-- A call that has gone another way has not been refused. -/
theorem Consistent.refusal?_eq_none (h : c.Consistent s)
    (hphase : ∀ r, ¬ c.TurnedAway r s.phase s.log) : c.refusal? = none := by
  cases hrefusal : c.refusal? with
  | none => rfl
  | some r => exact absurd (h.refused r hrefusal).2 (hphase r)

/-- The invariant of all moves.  A refused call never has a driver that could report, so that the
report of its own is the first. -/
theorem Consistent.move (h : c.Consistent s) (hmove : c.Move s s') : c.Consistent s' := by
  have hseen : ∀ a ∈ s.seen, s'.callback.result? = some a := fun a ha => hmove.result? (h.seen a ha)
  have hfinal : ∀ later, c.Reaches s' later → ∀ a, s'.callback.result? = some a →
      later.callback.result? = some a := fun _ hlater _ => Reaches.result? hlater
  have hreported : ∀ r, s.phase = .returned r → r ≠ .success → s'.callback.isNotified = true :=
    fun r hr hne => hmove.isNotified (h.reported r hr hne)
  cases hmove with
  | refuse hphase hrefusal =>
    refine { h with final := hfinal, reported := nofun, entering := nofun, refused := ?_ }
    intro r hr
    obtain ⟨hcalls, haway⟩ := h.refused r hr
    rw [hphase] at haway
    exact ⟨hcalls, Option.some.inj (hrefusal.symm.trans hr), haway⟩
  | launch hphase hrefusal =>
    have hcalls := h.entering hphase
    refine { h with final := hfinal, reported := nofun, entering := nofun, single := ?_,
                    refused := by rw [hrefusal]; nofun }
    show s.calls + 1 ≤ 1
    omega
  | notify hcalls b =>
    refine { h with recorded := h.recorded.notify b, seen := hseen, final := hfinal,
                    reported := hreported, refused := ?_ }
    intro r hr
    exact absurd (h.refused r hr).1 hcalls
  | answer hphase r =>
    have hasked := h.refusal?_eq_none (by rw [hphase]; exact fun _ => id)
    exact { h with final := hfinal, reported := nofun, entering := nofun,
                   refused := by rw [hasked]; nofun }
  | @rest r hphase hchecked =>
    have hasked := h.refusal?_eq_none (by rw [hphase]; exact fun _ => id)
    refine { h with final := hfinal, reported := ?_, entering := nofun,
                    refused := by rw [hasked]; nofun }
    intro r' hr' hne
    obtain rfl := Phase.returned.inj hr'
    have hfailed : r.isOk = false := Bool.eq_false_iff.2 fun hok => hne (Status.isOk_iff.1 hok)
    simpa [hfailed] using hchecked
  | notice hphase hchecked =>
    have hasked := h.refusal?_eq_none (by rw [hphase]; exact fun _ => id)
    exact { h with final := hfinal, reported := nofun, entering := nofun,
                   refused := by rw [hasked]; nofun }
  | @fail r hphase =>
    refine { h with recorded := h.recorded.notify _, seen := hseen, final := hfinal,
                    reported := ?_, entering := nofun, refused := ?_ }
    · intro _ _ _
      exact Callback.isNotified_notify _ _
    · intro r' hr'
      obtain ⟨hcalls, haway⟩ := h.refused r' hr'
      rw [hphase] at haway
      obtain ⟨rfl, hlog⟩ := haway
      have haccepted : (s.callback.notify (c.keep (c.failure r))).2 = true := by
        rw [Callback.notify_snd, h.recorded.isNotified, hlog]
        rfl
      refine ⟨hcalls, rfl, ?_⟩
      show s.log ++ [(c.failure r, (s.callback.notify (c.keep (c.failure r))).2)] = _
      rw [haccepted, hlog]
      rfl
  | @wake a hresult =>
    refine { h with seen := ?_, final := hfinal }
    intro b hb
    rcases List.mem_append.1 hb with hb | hb
    · exact h.seen b hb
    · rw [List.mem_singleton.1 hb]
      exact hresult

theorem Reaches.consistent (h : c.Reaches {} s) : c.Consistent s := by
  induction h with
  | refl => exact .new
  | tail _ hmove ih => exact ih.move hmove

theorem Consistent.refused_of_refusal (h : c.Consistent s) {r : Status}
    (hrefusal : c.refusal? = some r) : c.Refused s r where
  uncalled := (h.refused r hrefusal).1
  stored := by
    intro r' hphase
    obtain ⟨-, haway⟩ := h.refused r hrefusal
    rw [hphase] at haway
    obtain ⟨rfl, hlog⟩ := haway
    refine ⟨rfl, ?_⟩
    rw [h.recorded.kept, hlog]
    exact congrArg some (c.status_failure r')

/-- A callback never keeps a prepared model along with a failure. -/
theorem Recorded.status_of_model {μ : Type} {c : AsyncCall (Preparation μ)}
    (hkeep : c.keep = Preparation.sanitize) {callback : Callback (Preparation μ)}
    {log : List (Preparation μ × Bool)} (h : c.Recorded callback log) {p : Preparation μ}
    (hp : callback.result? = some p) (hmodel : p.model?.isSome = true) : p.status = .success := by
  rw [h.kept, hkeep] at hp
  obtain ⟨entry, -, rfl⟩ := Option.map_eq_some_iff.1 hp
  unfold Preparation.sanitize at hmodel ⊢
  split at hmodel
  · next hok =>
    rw [if_pos hok]
    exact Status.isOk_iff.1 hok
  · cases hmodel

/-! ## How it can go -/

/-- Whether it can go so that the call returns this status when this is its callback. -/
def Yields (c : AsyncCall α) (r : Status) (callback : Callback α) : Prop :=
  ∃ s, c.Reaches {} s ∧ s.phase = .returned r ∧ s.callback = callback

theorem yields_refused {r : Status} (hrefusal : c.refusal? = some r) :
    c.Yields r (Callback.new.notify (c.keep (c.failure r))).1 :=
  ⟨_, .tail (.tail .refl (.refuse rfl hrefusal)) (.fail rfl), rfl, rfl⟩

theorem reaches_reports (hcalls : s.calls ≠ 0) (reports : List α) :
    c.Reaches s (reports.foldl c.notified s) := by
  induction reports generalizing s with
  | nil => exact .refl
  | cons a rest ih => exact .head (.notify hcalls a) (ih hcalls)

theorem phase_reports (reports : List α) :
    (reports.foldl c.notified s).phase = s.phase := by
  induction reports generalizing s with
  | nil => rfl
  | cons a rest ih => exact ih

theorem callback_reports (reports : List α) :
    (reports.foldl c.notified s).callback = s.callback.notifyAll (reports.map c.keep) := by
  induction reports generalizing s with
  | nil => rfl
  | cons a rest ih => exact ih

/-- The driver may report all it has to report before its call returns, and then the call may look
at the callback and act on what it finds before anybody else does. -/
theorem yields_launched (hrefusal : c.refusal? = none) (r : Status) (reports : List α) :
    c.Yields r
      (if !r.isOk && !(Callback.new.notifyAll (reports.map c.keep)).isNotified then
        ((Callback.new.notifyAll (reports.map c.keep)).notify (c.keep (c.failure r))).1
      else Callback.new.notifyAll (reports.map c.keep)) := by
  have hlaunched : c.Reaches {} (reports.foldl c.notified { phase := .launched, calls := 1 }) :=
    .head (.launch rfl hrefusal) (reaches_reports Nat.one_ne_zero reports)
  have hanswered := hlaunched.tail (.answer (phase_reports reports) r)
  have hcallback := callback_reports (c := c) (s := { phase := .launched, calls := 1 }) reports
  split
  · next hchecked =>
    rw [← hcallback] at hchecked ⊢
    exact ⟨_, (hanswered.tail (.notice rfl hchecked)).tail (.fail rfl), rfl, rfl⟩
  · next hchecked =>
    rw [← hcallback] at hchecked ⊢
    exact ⟨_, hanswered.tail (.rest rfl (Bool.eq_false_iff.2 hchecked)), rfl, rfl⟩

/-- Nothing that has happened keeps a call from returning, if its driver answers. -/
theorem exists_returned (c : AsyncCall α) (s : Session α) :
    ∃ s' r, c.Reaches s s' ∧ s'.phase = .returned r := by
  have hanswered : ∀ (s : Session α) (r : Status), s.phase = .answered r →
      ∃ s' r', c.Reaches s s' ∧ s'.phase = .returned r' := by
    intro s r hphase
    cases hchecked : !r.isOk && !s.callback.isNotified with
    | true => exact ⟨_, r, .tail (.single (.notice hphase hchecked)) (.fail rfl), rfl⟩
    | false => exact ⟨_, r, .single (.rest hphase hchecked), rfl⟩
  have hlaunched : ∀ s : Session α, s.phase = .launched →
      ∃ s' r', c.Reaches s s' ∧ s'.phase = .returned r' := by
    intro s hphase
    obtain ⟨s', r, hreaches, hreturned⟩ := hanswered { s with phase := .answered .success } _ rfl
    exact ⟨s', r, .head (.answer hphase _) hreaches, hreturned⟩
  cases hphase : s.phase with
  | entering =>
    cases hrefusal : c.refusal? with
    | some r => exact ⟨_, r, .tail (.single (.refuse hphase hrefusal)) (.fail rfl), rfl⟩
    | none =>
      obtain ⟨s', r, hreaches, hreturned⟩ :=
        hlaunched { s with phase := .launched, calls := s.calls + 1 } rfl
      exact ⟨s', r, .head (.launch hphase hrefusal) hreaches, hreturned⟩
  | launched => exact hlaunched s hphase
  | answered r => exact hanswered s r hphase
  | failing r => exact ⟨_, r, .single (.fail hphase), rfl⟩
  | returned r => exact ⟨s, r, .refl, hphase⟩

/-- A driver may report after the call has looked at the callback and before it makes its own
report, which is then too late. -/
theorem reaches_overtaken (hrefusal : c.refusal? = none) {r : Status} (hfailed : r.isOk = false)
    (a : α) :
    ∃ s, c.Reaches {} s ∧ s.phase = .returned r ∧ s.seen = [c.keep a] ∧
      s.log = [(a, true), (c.failure r, false)] := by
  have hchecked : (!r.isOk && !(Callback.new : Callback α).isNotified) = true := by
    rw [hfailed]
    rfl
  have hnoticed : c.Reaches {} { phase := .failing r, calls := 1 } :=
    .tail (.tail (.single (.launch rfl hrefusal)) (.answer rfl r)) (.notice rfl hchecked)
  exact ⟨_, .tail (.tail (hnoticed.tail (.notify Nat.one_ne_zero a)) (.fail rfl)) (.wake rfl),
    rfl, rfl, rfl⟩

end AsyncCall

open AsyncCall

/-! ## The calls as they are defined -/

theorem DriverHandle.follow_eq (callback : PrepareCallback PreparedModel)
    (launch : PrepareLaunch PreparedModel) :
    follow callback launch =
      (launch.status,
        if !launch.status.isOk && !(callback.reportAll launch.notifications).isNotified then
          ((callback.reportAll launch.notifications).report ⟨launch.status, none⟩).1
        else callback.reportAll launch.notifications) := by
  unfold follow settle refuse
  split <;> rfl

theorem DriverHandle.prepare_yields (h : DriverHandle) (m : Model) (preference : Preference) :
    (h.preparing m).Yields (h.prepare m preference .new).1 (h.prepare m preference .new).2 := by
  unfold prepare
  split
  · next hrevision =>
    exact yields_refused (r := .deviceUnavailable) (refusal?_preparing_of_none hrevision)
  · next revision hrevision =>
    have hrefusal := refusal?_preparing_of_some hrevision (m := m)
    split
    · next hcompliant =>
      rw [follow_eq]
      exact yields_launched (hrefusal.trans (if_pos hcompliant)) _ _
    · next hcompliant =>
      exact yields_refused (r := .generalFailure) (hrefusal.trans (if_neg hcompliant))

theorem DriverHandle.restore_yields (h : DriverHandle) (store : FileStore)
    (model data : FileHandle) (token : Cache.Token) :
    h.restoring.Yields (h.restore store model data token .new).1
      (h.restore store model data token .new).2 := by
  cases h with
  | v1_2 base driver =>
    show AsyncCall.Yields _ (follow .new _).1 (follow .new _).2
    rw [follow_eq]
    exact yields_launched rfl _ _
  | invalid => exact yields_refused rfl
  | v1_0 base => exact yields_refused rfl
  | v1_1 base driver => exact yields_refused rfl

theorem PreparedModel.executeAsync_yields (p : PreparedModel) (r : Request) (measure : Bool) :
    executing.Yields (p.executeAsync r measure .new).2.1 (p.executeAsync r measure .new).2.2 := by
  have hyields := yields_launched (c := executing) rfl (p.launch r measure).status
    (p.launch r measure).notifications
  have hkeep : (p.launch r measure).notifications.map executing.keep =
      (p.launch r measure).notifications := List.map_id _
  rw [hkeep] at hyields
  exact hyields

/-! ## What holds of every call -/

/-- Each of the three calls completes its callback once, whatever else happens and in whatever
order: of all reports the first is kept and accepted and no other, whoever waits gets this one, and
no call returns a failure that nobody has reported.  A callback that keeps a prepared model keeps
success with it.  A call that is refused does not reach the driver, and stores what it returns.
What the definitions of the calls return, and the callback they leave, is one of the ends that a
call can come to. -/
theorem completes_once :
    (∀ (h : DriverHandle) (m : Model) (s : Session (Preparation PreparedModel)),
      (h.preparing m).Reaches {} s →
        (h.preparing m).CompletesOnce s ∧
        (∀ p, s.callback.result? = some p → p.model?.isSome → p.status = .success) ∧
        (h.isValid = false → (h.preparing m).Refused s .deviceUnavailable) ∧
        ∀ revision, h.revision? = some revision → m.isCompliantWith revision = false →
          (h.preparing m).Refused s .generalFailure) ∧
    (∀ (h : DriverHandle) (s : Session (Preparation PreparedModel)), h.restoring.Reaches {} s →
        h.restoring.CompletesOnce s ∧
        (∀ p, s.callback.result? = some p → p.model?.isSome → p.status = .success) ∧
        (h.revision? ≠ some .v1_2 → h.restoring.Refused s .generalFailure)) ∧
    (∀ s : Session Execution, PreparedModel.executing.Reaches {} s →
      PreparedModel.executing.CompletesOnce s) ∧
    (∀ (h : DriverHandle) (m : Model) (preference : Preference),
      (h.preparing m).Yields (h.prepare m preference .new).1 (h.prepare m preference .new).2) ∧
    (∀ (h : DriverHandle) (store : FileStore) (model data : FileHandle) (token : Cache.Token),
      h.restoring.Yields (h.restore store model data token .new).1
        (h.restore store model data token .new).2) ∧
    ∀ (p : PreparedModel) (r : Request) (measure : Bool),
      PreparedModel.executing.Yields (p.executeAsync r measure .new).2.1
        (p.executeAsync r measure .new).2.2 := by
  refine ⟨?_, ?_, fun s hs => hs.consistent.toCompletesOnce, DriverHandle.prepare_yields,
    DriverHandle.restore_yields, PreparedModel.executeAsync_yields⟩
  · intro h m s hs
    have hconsistent := hs.consistent
    refine ⟨hconsistent.toCompletesOnce, fun p => hconsistent.recorded.status_of_model rfl, ?_, ?_⟩
    · intro hinvalid
      have hnone : h.revision? = none :=
        Option.isNone_iff_eq_none.1 (Option.isSome_eq_false_iff.1 hinvalid)
      exact hconsistent.refused_of_refusal (DriverHandle.refusal?_preparing_of_none hnone)
    · intro revision hrevision hcompliant
      refine hconsistent.refused_of_refusal ?_
      rw [DriverHandle.refusal?_preparing_of_some hrevision, hcompliant]
      rfl
  · intro h s hs
    have hconsistent := hs.consistent
    refine ⟨hconsistent.toCompletesOnce, fun p => hconsistent.recorded.status_of_model rfl, ?_⟩
    intro hrevision
    exact hconsistent.refused_of_refusal (if_neg hrevision)

/-- A driver of the oldest revision that does nothing with what it is given. -/
def idleDriver : Driver.V1_0 where
  capabilities := .dropped
  supportedOperations := fun _ => .dropped
  prepare := fun _ => ⟨.success, []⟩
  status := .available

/-- The driver overtakes the calls that it is asked for, and the others are refused: there is no
driver, it is too old for the model, and it is too old to restore one. -/
theorem completes_once_racing :
    (∃ s, ((DriverHandle.v1_0 idleDriver).preparing {}).Reaches {} s ∧
      s.phase = .returned .generalFailure ∧ s.log.length = 2 ∧
      ((DriverHandle.v1_0 idleDriver).preparing {}).CompletesOnce s) ∧
    (∃ s, (DriverHandle.invalid.preparing {}).Reaches {} s ∧
      s.phase = .returned .deviceUnavailable ∧
      (DriverHandle.invalid.preparing {}).Refused s .deviceUnavailable) ∧
    (∃ s, ((DriverHandle.v1_0 idleDriver).preparing { relaxed := true }).Reaches {} s ∧
      s.phase = .returned .generalFailure ∧
      ((DriverHandle.v1_0 idleDriver).preparing { relaxed := true }).Refused s .generalFailure) ∧
    (∃ s, (DriverHandle.v1_0 idleDriver).restoring.Reaches {} s ∧
      s.phase = .returned .generalFailure ∧
      (DriverHandle.v1_0 idleDriver).restoring.Refused s .generalFailure) ∧
    ∃ s, PreparedModel.executing.Reaches {} s ∧ s.phase = .returned .generalFailure ∧
      s.log.length = 2 ∧ PreparedModel.executing.CompletesOnce s := by
  obtain ⟨hpreparing, hrestoring, hexecuting, -, -, -⟩ := completes_once
  refine ⟨?_, ?_, ?_, ?_, ?_⟩
  · obtain ⟨s, hs, hphase, -, hlog⟩ :=
      reaches_overtaken (c := (DriverHandle.v1_0 idleDriver).preparing {}) rfl
        (r := .generalFailure) rfl ⟨.success, some ⟨fun r => ⟨.success, [], r.pools⟩, none⟩⟩
    exact ⟨s, hs, hphase, by rw [hlog]; rfl, (hpreparing _ _ s hs).1⟩
  · obtain ⟨s, hs, hphase, -⟩ :=
      yields_refused (c := DriverHandle.invalid.preparing {}) (r := .deviceUnavailable) rfl
    exact ⟨s, hs, hphase, (hpreparing _ _ s hs).2.2.1 rfl⟩
  · obtain ⟨s, hs, hphase, -⟩ :=
      yields_refused (c := (DriverHandle.v1_0 idleDriver).preparing { relaxed := true })
        (r := .generalFailure) rfl
    exact ⟨s, hs, hphase, (hpreparing _ _ s hs).2.2.2 .v1_0 rfl rfl⟩
  · obtain ⟨s, hs, hphase, -⟩ :=
      yields_refused (c := (DriverHandle.v1_0 idleDriver).restoring) (r := .generalFailure) rfl
    exact ⟨s, hs, hphase, (hrestoring _ s hs).2.2 (by decide)⟩
  · obtain ⟨s, hs, hphase, -, hlog⟩ :=
      reaches_overtaken (c := PreparedModel.executing) rfl (r := .generalFailure) rfl
        { status := .success }
    exact ⟨s, hs, hphase, by rw [hlog]; rfl, hexecuting s hs⟩

end NeuralDispatch

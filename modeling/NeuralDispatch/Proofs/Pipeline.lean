import Mathlib.Data.List.Infix
import Mathlib.Logic.Function.Basic
import Mathlib.Logic.Relation
import NeuralDispatch.Driver.Burst

/-!
# Bursts under any schedule

A burst has two threads, which share nothing but two channels.  `Burst.compute` knows one order of
what they do: the worker serves a job as soon as it has been sent.  Here the worker may take its
time over everything, its driver may crash over any job, and what is left of the worker then closes
its ends of the channels one after the other, while the next calls are made already.  The
controller keeps its own ends as long as there are calls.

* `answers` — what a series of calls gets, which depends on the driver alone.
* `Move` — what can happen next.
* `Stage` — where the one job is that is under way.
* `Consistent.move` — what every move preserves.
* `Reaches.isPrefix_answers` — whatever happens, the calls return the answers.
-/

namespace NeuralDispatch.Burst

/-! ## What the calls get -/

/-- What a call returns. -/
structure Answer where
  /-- The request, with its memory as it has become. -/
  request : Request
  report : Execution
  /-- The number of the call whose result this is, if it is a result. -/
  origin? : Option Nat := none
  deriving DecidableEq, Repr

section Answers

/-! The calls are made one after the other, and `driver n` is the prepared model in the state in
which its `n`-th execution finds it. -/

variable (driver : Nat → PreparedModel.V1_2) (calls : List Job)

/-- What the driver does with a job. -/
def serve (n : Nat) (job : Job) : Request × Except Fault Execution :=
  (driver n).report job.request job.measure

/-- The driver crashes over the call with this number, if it gets that far. -/
def Crashes (n : Nat) : Prop :=
  (calls[n]?.any fun job => !(serve driver n job).2.isOk) = true

instance (n : Nat) : Decidable (Crashes driver calls n) := inferInstanceAs (Decidable (_ = true))

/-- What the call with this number returns. -/
def answer (n : Nat) (job : Job) : Answer :=
  if ∃ k < n, Crashes driver calls k then
    { request := job.request, report := failure }
  else
    match (serve driver n job).2 with
    | .ok report => ⟨(serve driver n job).1, report.sanitize job.measure, some n⟩
    | .error _ => { request := (serve driver n job).1, report := failure }

/-- What all the calls return. -/
def answers : List Answer := calls.mapIdx (answer driver calls)

variable {driver calls} {n : Nat} {job : Job}

theorem crashes_iff (hjob : calls[n]? = some job) :
    Crashes driver calls n ↔ (serve driver n job).2.isOk = false := by
  simp [Crashes, hjob]

theorem not_crashes_of_ok {report : Execution} (hjob : calls[n]? = some job)
    (hserve : (serve driver n job).2 = .ok report) : ¬ Crashes driver calls n := by
  rw [crashes_iff hjob, hserve]
  nofun

theorem crashes_of_error {fault : Fault} (hjob : calls[n]? = some job)
    (hserve : (serve driver n job).2 = .error fault) : Crashes driver calls n := by
  rw [crashes_iff hjob, hserve]
  rfl

/-- Before the first crash every call gets what the driver makes of its job. -/
theorem answer_of_unharmed (hunharmed : ∀ k < n, ¬ Crashes driver calls k) :
    answer driver calls n job =
      match (serve driver n job).2 with
      | .ok report => ⟨(serve driver n job).1, report.sanitize job.measure, some n⟩
      | .error _ => { request := (serve driver n job).1, report := failure } := by
  refine if_neg ?_
  rintro ⟨k, hk, hcrash⟩
  exact hunharmed k hk hcrash

/-- After a crash no call has its job served. -/
theorem answer_of_harmed {k : Nat} (hk : k < n) (hcrash : Crashes driver calls k) :
    answer driver calls n job = { request := job.request, report := failure } :=
  if_pos ⟨k, hk, hcrash⟩

theorem getElem?_answers (driver : Nat → PreparedModel.V1_2) (calls : List Job) (n : Nat) :
    (answers driver calls)[n]? = calls[n]?.map (answer driver calls n) :=
  List.getElem?_mapIdx

end Answers

/-! ## What can happen -/

/-- What the worker is doing. -/
inductive Worker where
  | idle
  /-- It waits for the driver's reply about a job with this number. -/
  | serving (n : Nat) (job : Job)
  /-- It has the report. -/
  | holding (n : Nat) (report : Execution)
  /-- The driver has crashed, and the worker with it. -/
  | dead

/-- A controller and its worker.  What is sent carries the number of the call that it is about,
which neither of them knows. -/
structure Session where
  jobs : List (Nat × Job) := []
  results : List (Nat × Execution) := []
  /-- Whether the worker's end of the channel for jobs still exists. -/
  jobsOpen : Bool := true
  /-- Whether the worker's end of the channel for results still exists. -/
  resultsOpen : Bool := true
  worker : Worker := .idle
  /-- How many jobs the driver has dealt with. -/
  served : Nat := 0
  /-- What the driver has made of the memory of a call, once it has dealt with the job. -/
  written? : Nat → Option Request := fun _ => none
  /-- Whether the caller waits for a result. -/
  isWaiting : Bool := false
  /-- What the calls so far have returned. -/
  returned : List Answer := []

namespace Session

/-- The number of the call that is made now or next. -/
def current (s : Session) : Nat := s.returned.length

/-- The memory of the current call. -/
def memory (s : Session) (job : Job) : Request := (s.written? s.current).getD job.request

/-- The current call returns without a result. -/
def giveUp (s : Session) (job : Job) : Session :=
  { s with
    isWaiting := false
    returned := s.returned ++ [{ request := s.memory job, report := failure }] }

/-- The driver is done with a job, and the worker goes on like this. -/
def finished (s : Session) (n : Nat) (request : Request) (worker : Worker) : Session :=
  { s with
    worker
    served := s.served + 1
    written? := Function.update s.written? n (some request) }

end Session

/-- What can happen next when these calls are to be made, by `ExecutionBurstController.compute` on
one side and the loop of the worker on the other. -/
inductive Move (driver : Nat → PreparedModel.V1_2) (calls : List Job) (blocking : Bool)
    (s : Session) : Session → Prop where
  /-- The next call puts its job into the channel. -/
  | send {job : Job} (hwaiting : s.isWaiting = false) (hjob : calls[s.current]? = some job)
      (hopen : s.jobsOpen = true) :
    Move driver calls blocking s
      { s with jobs := s.jobs ++ [(s.current, job)], isWaiting := true }
  /-- There is no one left that the next call could send its job to. -/
  | refuse {job : Job} (hwaiting : s.isWaiting = false) (hjob : calls[s.current]? = some job)
      (hclosed : s.jobsOpen = false) :
    Move driver calls blocking s (s.giveUp job)
  /-- The worker takes a job and hands it to the driver. -/
  | take {n : Nat} {job : Job} {rest : List (Nat × Job)} (hworker : s.worker = .idle)
      (hjobs : s.jobs = (n, job) :: rest) :
    Move driver calls blocking s { s with jobs := rest, worker := .serving n job }
  /-- The driver replies, or lets go of the reply. -/
  | answer {n : Nat} {job : Job} {report : Execution} (hworker : s.worker = .serving n job)
      (hreport : (serve driver s.served job).2 = .ok report) :
    Move driver calls blocking s
      (s.finished n (serve driver s.served job).1 (.holding n report))
  /-- The driver crashes. -/
  | die {n : Nat} {job : Job} {fault : Fault} (hworker : s.worker = .serving n job)
      (hreport : (serve driver s.served job).2 = .error fault) :
    Move driver calls blocking s (s.finished n (serve driver s.served job).1 .dead)
  /-- The worker sends the report. -/
  | deliver {n : Nat} {report : Execution} (hworker : s.worker = .holding n report) :
    Move driver calls blocking s
      { s with worker := .idle, results := s.results ++ [(n, report)] }
  /-- The end of the channel for jobs goes, and the jobs that are in it. -/
  | closeJobs (hworker : s.worker = .dead) (hopen : s.jobsOpen = true) :
    Move driver calls blocking s { s with jobs := [], jobsOpen := false }
  /-- The end of the channel for results goes, but no result that is in it. -/
  | closeResults (hworker : s.worker = .dead) (hopen : s.resultsOpen = true) :
    Move driver calls blocking s { s with resultsOpen := false }
  /-- The caller takes a result, whichever it is. -/
  | receive {n : Nat} {report : Execution} {rest : List (Nat × Execution)} {job : Job}
      (hwaiting : s.isWaiting = true) (hjob : calls[s.current]? = some job)
      (hresults : s.results = (n, report) :: rest) :
    Move driver calls blocking s
      { s with
        results := rest
        isWaiting := false
        returned := s.returned ++ [⟨s.memory job, report.sanitize job.measure, some n⟩] }
  /-- The caller learns that there will be no result. -/
  | disconnect {job : Job} (hwaiting : s.isWaiting = true) (hjob : calls[s.current]? = some job)
      (hresults : s.results = []) (hclosed : s.resultsOpen = false) :
    Move driver calls blocking s (s.giveUp job)
  /-- A caller that does not sleep asks for a result in vain. -/
  | poll (hmode : blocking = false) (hwaiting : s.isWaiting = true) (hresults : s.results = [])
      (hopen : s.resultsOpen = true) :
    Move driver calls blocking s s

/-- Whether this can happen. -/
abbrev Reaches (driver : Nat → PreparedModel.V1_2) (calls : List Job) (blocking : Bool) :
    Session → Session → Prop :=
  Relation.ReflTransGen (Move driver calls blocking)

variable {driver : Nat → PreparedModel.V1_2} {calls : List Job} {blocking : Bool}
  {s s' : Session}

/-! ## One job at a time -/

/-- Where the job of the current call is. -/
inductive Stage (driver : Nat → PreparedModel.V1_2) (calls : List Job) (s : Session) : Prop where
  /-- There is none. -/
  | quiet (hwaiting : s.isWaiting = false) (hjobs : s.jobs = []) (hworker : s.worker = .idle)
      (hresults : s.results = []) (hserved : s.served = s.current)
  | sent {job : Job} (hwaiting : s.isWaiting = true) (hjob : calls[s.current]? = some job)
      (hjobs : s.jobs = [(s.current, job)]) (hworker : s.worker = .idle)
      (hresults : s.results = []) (hserved : s.served = s.current)
  | taken {job : Job} (hwaiting : s.isWaiting = true) (hjob : calls[s.current]? = some job)
      (hjobs : s.jobs = []) (hworker : s.worker = .serving s.current job)
      (hresults : s.results = []) (hserved : s.served = s.current)
  | answered {job : Job} {report : Execution} (hwaiting : s.isWaiting = true)
      (hjob : calls[s.current]? = some job)
      (hreport : (serve driver s.current job).2 = .ok report)
      (hjobs : s.jobs = []) (hworker : s.worker = .holding s.current report)
      (hresults : s.results = []) (hserved : s.served = s.current + 1)
  | delivered {job : Job} {report : Execution} (hwaiting : s.isWaiting = true)
      (hjob : calls[s.current]? = some job)
      (hreport : (serve driver s.current job).2 = .ok report)
      (hjobs : s.jobs = []) (hworker : s.worker = .idle)
      (hresults : s.results = [(s.current, report)]) (hserved : s.served = s.current + 1)
  /-- It will not come back: the driver has crashed over it, or over an earlier one. -/
  | lost {k : Nat} (hcrash : Crashes driver calls k)
      (hfirst : ∀ j < k, ¬ Crashes driver calls j) (hcurrent : k ≤ s.current)
      (hwaiting : s.current = k → s.isWaiting = true) (hworker : s.worker = .dead)
      (hresults : s.results = []) (hserved : s.served = k + 1)

/-- What every move preserves. -/
structure Consistent (driver : Nat → PreparedModel.V1_2) (calls : List Job) (s : Session) :
    Prop where
  stage : Stage driver calls s
  /-- A worker that lives has its ends of the channels, and its driver has never crashed. -/
  living : s.worker ≠ .dead →
    s.jobsOpen = true ∧ s.resultsOpen = true ∧ ∀ k < s.served, ¬ Crashes driver calls k
  written : ∀ n, s.written? n =
    if n < s.served then calls[n]?.map fun job => (serve driver n job).1 else none
  returned : s.returned <+: answers driver calls

theorem Consistent.new : Consistent driver calls {} where
  stage := .quiet rfl rfl rfl rfl rfl
  living := fun _ => ⟨rfl, rfl, fun _ hk => absurd hk (Nat.not_lt_zero _)⟩
  written := fun n => (if_neg (Nat.not_lt_zero n)).symm
  returned := List.nil_prefix

/-! Each part of the pipeline tells where the job is. -/

theorem Stage.of_serving (h : Stage driver calls s) {n : Nat} {job : Job}
    (hserving : s.worker = .serving n job) :
    n = s.current ∧ s.isWaiting = true ∧ calls[s.current]? = some job ∧ s.jobs = [] ∧
      s.results = [] ∧ s.served = s.current := by
  cases h with
  | taken hwaiting hjob hjobs hworker hresults hserved =>
    obtain ⟨rfl, rfl⟩ := Worker.serving.inj (hserving.symm.trans hworker)
    exact ⟨rfl, hwaiting, hjob, hjobs, hresults, hserved⟩
  | quiet | sent | answered | delivered | lost => simp_all

theorem Stage.of_holding (h : Stage driver calls s) {n : Nat} {report : Execution}
    (hholding : s.worker = .holding n report) :
    n = s.current ∧ s.isWaiting = true ∧ s.jobs = [] ∧ s.results = [] ∧
      s.served = s.current + 1 ∧
      ∃ job, calls[s.current]? = some job ∧ (serve driver s.current job).2 = .ok report := by
  cases h with
  | answered hwaiting hjob hreport hjobs hworker hresults hserved =>
    obtain ⟨rfl, rfl⟩ := Worker.holding.inj (hholding.symm.trans hworker)
    exact ⟨rfl, hwaiting, hjobs, hresults, hserved, _, hjob, hreport⟩
  | quiet | sent | taken | delivered | lost => simp_all

theorem Stage.of_dead (h : Stage driver calls s) (hdead : s.worker = .dead) :
    s.results = [] ∧ ∃ k, Crashes driver calls k ∧
      (∀ j < k, ¬ Crashes driver calls j) ∧ k ≤ s.current ∧
      (s.current = k → s.isWaiting = true) ∧ s.served = k + 1 := by
  cases h with
  | lost hcrash hfirst hcurrent hwaiting hworker hresults hserved =>
    exact ⟨hresults, _, hcrash, hfirst, hcurrent, hwaiting, hserved⟩
  | quiet | sent | taken | answered | delivered => simp_all

/-- The next answer extends those that have been returned. -/
theorem Consistent.returned_concat (h : Consistent driver calls s) {job : Job}
    (hjob : calls[s.current]? = some job) :
    s.returned ++ [answer driver calls s.current job] <+: answers driver calls := by
  have hnext : (answers driver calls)[s.returned.length]? =
      some (answer driver calls s.current job) := by
    rw [getElem?_answers, ← Session.current, hjob]
    rfl
  obtain ⟨hlength, hget⟩ := List.getElem?_eq_some_iff.1 hnext
  have hinitial := List.concat_get_prefix h.returned hlength
  rwa [List.get_eq_getElem, hget] at hinitial

/-- What the driver has left in the memory of the current call, when it has dealt with the job. -/
theorem Consistent.memory_of_served (h : Consistent driver calls s) {job : Job}
    (hjob : calls[s.current]? = some job) (hserved : s.current < s.served) :
    s.memory job = (serve driver s.current job).1 := by
  unfold Session.memory
  rw [h.written, if_pos hserved, hjob]
  rfl

/-- The driver is done with the job that is next. -/
theorem Consistent.written_finished (h : Consistent driver calls s) {job : Job}
    (hjob : calls[s.current]? = some job) (hserved : s.served = s.current) (worker : Worker)
    (n : Nat) :
    (s.finished s.current (serve driver s.current job).1 worker).written? n =
      if n < s.served + 1 then calls[n]?.map fun job => (serve driver n job).1 else none := by
  show Function.update s.written? s.current _ n = _
  rcases eq_or_ne n s.current with rfl | hne
  · rw [Function.update_self, if_pos (by omega), hjob]
    rfl
  · rw [Function.update_of_ne hne, h.written]
    exact if_congr (by omega) rfl rfl

/-- Whoever waits for a worker that is dead returns what a crash leaves to be returned. -/
theorem Consistent.giveUp (h : Consistent driver calls s) (hdead : s.worker = .dead) {job : Job}
    (hjob : calls[s.current]? = some job) : Consistent driver calls (s.giveUp job) := by
  obtain ⟨hresults, k, hcrash, hfirst, hcurrent, -, hserved⟩ := h.stage.of_dead hdead
  have hlength : (s.giveUp job).current = s.current + 1 := List.length_append
  have hanswer :
      { request := s.memory job, report := failure } = answer driver calls s.current job := by
    rcases Nat.eq_or_lt_of_le hcurrent with rfl | hlater
    · -- the job of this call is the one that the driver has crashed over
      rw [h.memory_of_served hjob (by omega), answer_of_unharmed hfirst]
      cases hserve : (serve driver s.current job).2 with
      | ok report => exact absurd hcrash (not_crashes_of_ok hjob hserve)
      | error fault => rfl
    · rw [answer_of_harmed hlater hcrash]
      unfold Session.memory
      rw [h.written, if_neg (by omega)]
      rfl
  refine { h with stage := ?_, returned := ?_ }
  · exact .lost hcrash hfirst (by omega) (by omega) hdead hresults hserved
  · show s.returned ++ [_] <+: _
    rw [hanswer]
    exact h.returned_concat hjob

/-- The invariant of all moves. -/
theorem Consistent.move (h : Consistent driver calls s) (hmove : Move driver calls blocking s s') :
    Consistent driver calls s' := by
  cases hmove with
  | @send job hwaiting hjob hopen =>
    refine { h with stage := ?_ }
    cases h.stage with
    | quiet _ hjobs hworker hresults hserved =>
      refine .sent rfl hjob ?_ hworker hresults hserved
      show s.jobs ++ _ = _
      rw [hjobs]
      rfl
    | lost hcrash hfirst hcurrent _ hworker hresults hserved =>
      exact .lost hcrash hfirst hcurrent (fun _ => rfl) hworker hresults hserved
    | sent | taken | answered | delivered => simp_all
  | @refuse job hwaiting hjob hclosed =>
    refine h.giveUp ?_ hjob
    by_contra halive
    simp [(h.living halive).1] at hclosed
  | @take n job rest hworker hjobs =>
    refine { h with stage := ?_, living := fun _ => h.living (by simp [hworker]) }
    cases h.stage with
    | sent hwaiting hjob hjobs' _ hresults hserved =>
      obtain ⟨hhead, rfl⟩ := List.cons.inj (hjobs.symm.trans hjobs')
      obtain ⟨rfl, rfl⟩ := Prod.mk.inj hhead
      exact .taken hwaiting hjob rfl rfl hresults hserved
    | quiet | taken | answered | delivered | lost => simp_all
  | @answer n job report hworker hreport =>
    obtain ⟨rfl, hwaiting, hjob, hjobs, hresults, hserved⟩ := h.stage.of_serving hworker
    obtain ⟨hjobsOpen, hresultsOpen, hunharmed⟩ := h.living (by simp [hworker])
    rw [hserved] at hreport ⊢
    refine { h with stage := ?_, living := fun _ => ⟨hjobsOpen, hresultsOpen, ?_⟩,
                    written := h.written_finished hjob hserved _ }
    · exact .answered hwaiting hjob hreport hjobs rfl hresults (congrArg (· + 1) hserved)
    · intro k hk
      rcases Nat.lt_succ_iff_lt_or_eq.1 hk with hlt | rfl
      · exact hunharmed k hlt
      · rw [hserved]
        exact not_crashes_of_ok hjob hreport
  | @die n job fault hworker hreport =>
    obtain ⟨rfl, hwaiting, hjob, hjobs, hresults, hserved⟩ := h.stage.of_serving hworker
    obtain ⟨-, -, hunharmed⟩ := h.living (by simp [hworker])
    rw [hserved] at hreport hunharmed ⊢
    refine { h with stage := ?_, living := fun halive => absurd rfl halive,
                    written := h.written_finished hjob hserved _ }
    exact .lost (crashes_of_error hjob hreport) hunharmed (Nat.le_refl _) (fun _ => hwaiting) rfl
      hresults (congrArg (· + 1) hserved)
  | @deliver n report hworker =>
    obtain ⟨rfl, hwaiting, hjobs, hresults, hserved, job, hjob, hreport⟩ :=
      h.stage.of_holding hworker
    refine { h with stage := ?_, living := fun _ => h.living (by simp [hworker]) }
    refine .delivered hwaiting hjob hreport hjobs rfl ?_ hserved
    show s.results ++ _ = _
    rw [hresults]
    rfl
  | closeJobs hworker hopen =>
    obtain ⟨hresults, k, hcrash, hfirst, hcurrent, hwaiting, hserved⟩ := h.stage.of_dead hworker
    exact { h with stage := .lost hcrash hfirst hcurrent hwaiting hworker hresults hserved,
                   living := fun halive => absurd hworker halive }
  | closeResults hworker hopen =>
    obtain ⟨hresults, k, hcrash, hfirst, hcurrent, hwaiting, hserved⟩ := h.stage.of_dead hworker
    exact { h with stage := .lost hcrash hfirst hcurrent hwaiting hworker hresults hserved,
                   living := fun halive => absurd hworker halive }
  | @receive n report rest job hwaiting hjob hresults =>
    cases h.stage with
    | delivered _ hjob' hreport hjobs hworker hresults' hserved =>
      obtain ⟨hhead, rfl⟩ := List.cons.inj (hresults.symm.trans hresults')
      obtain ⟨rfl, rfl⟩ := Prod.mk.inj hhead
      obtain rfl := Option.some.inj (hjob.symm.trans hjob')
      have hunharmed : ∀ k < s.current, ¬ Crashes driver calls k := by
        intro k hk
        exact (h.living (by simp [hworker])).2.2 k (by omega)
      have hanswer : ⟨s.memory job, report.sanitize job.measure, some s.current⟩ =
          answer driver calls s.current job := by
        rw [h.memory_of_served hjob (by omega), answer_of_unharmed hunharmed, hreport]
      refine { h with stage := ?_, returned := ?_ }
      · refine .quiet rfl hjobs hworker rfl ?_
        show s.served = (s.returned ++ [_]).length
        rw [List.length_append]
        exact hserved
      · show s.returned ++ [_] <+: _
        rw [hanswer]
        exact h.returned_concat hjob
    | quiet | sent | taken | answered | lost => simp_all
  | disconnect hwaiting hjob hresults hclosed =>
    refine h.giveUp ?_ hjob
    by_contra halive
    simp [(h.living halive).2.1] at hclosed
  | poll => exact h

theorem Reaches.consistent (h : Reaches driver calls blocking {} s) :
    Consistent driver calls s := by
  induction h with
  | refl => exact .new
  | tail _ hmove ih => exact ih.move hmove

/-- Whatever happens, the calls return what the driver makes of their jobs. -/
theorem Reaches.isPrefix_answers (h : Reaches driver calls blocking {} s) :
    s.returned <+: answers driver calls :=
  h.consistent.returned

end NeuralDispatch.Burst

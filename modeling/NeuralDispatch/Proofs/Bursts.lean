import Mathlib.Order.Monotone.Basic
import NeuralDispatch.Proofs.Pipeline

/-!
# Bursts and synchronous executions

A caller of a burst cannot tell it from a prepared model that is executed in the caller's thread,
except that a driver that crashes takes only its worker with it.

* `Move.rank_lt` and `Consistent.exists_move` — moves run out only when all calls have returned.
* `Schedule.exists_complete` — all calls return, unless from some time on nothing happens but that
  a caller asks for a result in vain.
* `computes_eq_answers` — the definition of the call returns what every schedule does.
* `as_if_synchronous` — until the driver crashes the answers are those of synchronous executions,
  and general failures from then on.
-/

namespace NeuralDispatch.Burst

variable {driver : Nat → PreparedModel.V1_2} {calls : List Job} {blocking : Bool}
  {s s' : Session}

/-! ## No call waits for ever -/

/-- What the worker still has to do with the job that it has. -/
def Worker.rank : Worker → Nat
  | .serving .. => 3
  | .holding .. => 2
  | .idle | .dead => 0

/-- How many moves can be made yet, at the most. -/
def Session.rank (calls : List Job) (s : Session) : Nat :=
  6 * (calls.length - s.current - s.isWaiting.toNat) + s.isWaiting.toNat + 4 * s.jobs.length +
    s.worker.rank + s.results.length + s.jobsOpen.toNat + s.resultsOpen.toNat

theorem Session.rank_giveUp (job : Job) (hmore : s.returned.length < calls.length) :
    (s.giveUp job).rank calls < s.rank calls := by
  simp only [rank, current, giveUp, List.length_append, List.length_singleton, Bool.toNat_false]
  cases s.isWaiting with
  | false => simp only [Bool.toNat_false]; omega
  | true => simp only [Bool.toNat_true]; omega

/-- Every move but a vain question brings the end closer. -/
theorem Move.rank_lt (hmove : Move driver calls blocking s s') :
    s' = s ∨ s'.rank calls < s.rank calls := by
  have hbound : ∀ job, calls[s.current]? = some job → s.returned.length < calls.length :=
    fun job hjob => (List.getElem?_eq_some_iff.1 hjob).1
  cases hmove with
  | poll => exact .inl rfl
  | refuse hwaiting hjob hclosed => exact .inr (Session.rank_giveUp _ (hbound _ hjob))
  | disconnect hwaiting hjob hresults hclosed =>
    exact .inr (Session.rank_giveUp _ (hbound _ hjob))
  | send hwaiting hjob hopen =>
    have hmore := hbound _ hjob
    simp only [Session.rank, Session.current, hwaiting, List.length_append, List.length_singleton,
      Bool.toNat_false, Bool.toNat_true]
    omega
  | receive hwaiting hjob hresults =>
    have hmore := hbound _ hjob
    simp only [Session.rank, Session.current, hwaiting, hresults, List.length_append,
      List.length_cons, List.length_nil, Bool.toNat_false, Bool.toNat_true]
    omega
  | take hworker hjobs =>
    simp only [Session.rank, Session.current, hworker, hjobs, Worker.rank, List.length_cons]
    omega
  | answer hworker hreport =>
    simp only [Session.rank, Session.current, Session.finished, hworker, Worker.rank]
    omega
  | die hworker hreport =>
    simp only [Session.rank, Session.current, Session.finished, hworker, Worker.rank]
    omega
  | deliver hworker =>
    simp only [Session.rank, Session.current, hworker, Worker.rank, List.length_append,
      List.length_singleton]
    omega
  | closeJobs hworker hopen =>
    simp only [Session.rank, Session.current, hopen, List.length_nil, Bool.toNat_false,
      Bool.toNat_true]
    omega
  | closeResults hworker hopen =>
    simp only [Session.rank, Session.current, hopen, Bool.toNat_false, Bool.toNat_true]
    omega

/-- As long as there are calls to return, something can happen. -/
theorem Consistent.exists_move (h : Consistent driver calls s)
    (hmore : s.current < calls.length) :
    ∃ s', Move driver calls blocking s s' ∧ s' ≠ s := by
  have hnext : calls[s.current]? = some calls[s.current] := List.getElem?_eq_getElem hmore
  cases h.stage with
  | quiet hwaiting hjobs hworker hresults hserved =>
    have hopen := (h.living (by simp [hworker])).1
    refine ⟨_, .send hwaiting hnext hopen, fun heq => ?_⟩
    simpa [hwaiting] using congrArg Session.isWaiting heq
  | sent hwaiting hjob hjobs hworker hresults hserved =>
    refine ⟨_, .take hworker hjobs, fun heq => ?_⟩
    simpa [hworker] using congrArg Session.worker heq
  | @taken job hwaiting hjob hjobs hworker hresults hserved =>
    cases hserve : (serve driver s.served job).2 with
    | ok report =>
      refine ⟨_, .answer hworker hserve, fun heq => ?_⟩
      simpa [Session.finished] using congrArg Session.served heq
    | error fault =>
      refine ⟨_, .die hworker hserve, fun heq => ?_⟩
      simpa [Session.finished] using congrArg Session.served heq
  | answered hwaiting hjob hreport hjobs hworker hresults hserved =>
    refine ⟨_, .deliver hworker, fun heq => ?_⟩
    simpa [hworker] using congrArg Session.worker heq
  | delivered hwaiting hjob hreport hjobs hworker hresults hserved =>
    refine ⟨_, .receive hwaiting hnext hresults, fun heq => ?_⟩
    simpa [hwaiting] using congrArg Session.isWaiting heq
  | lost hcrash hfirst hcurrent hwaits hworker hresults hserved =>
    -- what is left of the worker closes both channels, and after that the caller need not wait
    cases hresultsOpen : s.resultsOpen with
    | true =>
      refine ⟨_, .closeResults hworker hresultsOpen, fun heq => ?_⟩
      simpa [hresultsOpen] using congrArg Session.resultsOpen heq
    | false =>
      cases hwaiting : s.isWaiting with
      | true =>
        refine ⟨_, .disconnect hwaiting hnext hresults hresultsOpen, fun heq => ?_⟩
        simpa [Session.giveUp] using congrArg Session.returned heq
      | false =>
        cases hjobsOpen : s.jobsOpen with
        | true =>
          refine ⟨_, .closeJobs hworker hjobsOpen, fun heq => ?_⟩
          simpa [hjobsOpen] using congrArg Session.jobsOpen heq
        | false =>
          refine ⟨_, .refuse hwaiting hnext hjobsOpen, fun heq => ?_⟩
          simpa [Session.giveUp] using congrArg Session.returned heq

/-- A course of events that does not end with a caller who asks in vain for ever. -/
structure Schedule (driver : Nat → PreparedModel.V1_2) (calls : List Job) (blocking : Bool) where
  state : Nat → Session
  start : state 0 = {}
  move : ∀ n, state (n + 1) = state n ∨ Move driver calls blocking (state n) (state (n + 1))
  /-- As long as there are calls to return, something happens again. -/
  fair : ∀ n, (state n).current < calls.length → ∃ m ≥ n, state (m + 1) ≠ state m

theorem Schedule.reaches (σ : Schedule driver calls blocking) (n : Nat) :
    Reaches driver calls blocking {} (σ.state n) := by
  induction n with
  | zero => rw [σ.start]
  | succ n ih =>
    rcases σ.move n with heq | hmove
    · rwa [heq]
    · exact ih.tail hmove

theorem Schedule.rank_antitone (σ : Schedule driver calls blocking) :
    Antitone fun n => (σ.state n).rank calls := by
  refine antitone_nat_of_succ_le fun n => ?_
  rcases σ.move n with heq | hmove
  · rw [heq]
  · rcases hmove.rank_lt with heq | hlt
    · rw [heq]
    · exact Nat.le_of_lt hlt

/-- All the calls return. -/
theorem Schedule.exists_complete (σ : Schedule driver calls blocking) :
    ∃ n, (σ.state n).returned = answers driver calls := by
  suffices h : ∀ r n, (σ.state n).rank calls = r →
      ∃ n, (σ.state n).returned = answers driver calls from h _ 0 rfl
  intro r
  induction r using Nat.strong_induction_on with
  | h r ih =>
    rintro n rfl
    by_cases hmore : (σ.state n).current < calls.length
    · obtain ⟨m, hm, hmoved⟩ := σ.fair n hmore
      have hlt : (σ.state (m + 1)).rank calls < (σ.state m).rank calls :=
        ((σ.move m).resolve_left hmoved).rank_lt.resolve_left hmoved
      exact ih _ (Nat.lt_of_lt_of_le hlt (σ.rank_antitone hm)) _ rfl
    · refine ⟨n, (σ.reaches n).isPrefix_answers.eq_of_length_le ?_⟩
      rw [answers, List.length_mapIdx]
      exact Nat.le_of_not_lt hmore

open Classical in
/-- The session after some move that changes it, if there is one. -/
noncomputable def Session.moved (driver : Nat → PreparedModel.V1_2) (calls : List Job)
    (blocking : Bool) (s : Session) : Session :=
  if h : ∃ s', Move driver calls blocking s s' ∧ s' ≠ s then h.choose else s

theorem Session.moved_spec (h : ∃ s', Move driver calls blocking s s' ∧ s' ≠ s) :
    Move driver calls blocking s (s.moved driver calls blocking) ∧
      s.moved driver calls blocking ≠ s := by
  rw [moved, dif_pos h]
  exact h.choose_spec

theorem Session.moved_eq_or (s : Session) :
    s.moved driver calls blocking = s ∨
      Move driver calls blocking s (s.moved driver calls blocking) := by
  by_cases h : ∃ s', Move driver calls blocking s s' ∧ s' ≠ s
  · exact .inr (moved_spec h).1
  · exact .inl (dif_neg h)

/-- There is such a course: something happens whenever something can. -/
theorem exists_schedule (driver : Nat → PreparedModel.V1_2) (calls : List Job)
    (blocking : Bool) : Nonempty (Schedule driver calls blocking) := by
  let state (n : Nat) : Session := (Session.moved driver calls blocking)^[n] {}
  have hstate : ∀ n, state (n + 1) = (state n).moved driver calls blocking :=
    fun n => Function.iterate_succ_apply' _ n _
  have hconsistent : ∀ n, Consistent driver calls (state n) := by
    intro n
    induction n with
    | zero => exact .new
    | succ n ih =>
      rw [hstate]
      rcases (state n).moved_eq_or with heq | hmove
      · rwa [heq]
      · exact ih.move hmove
  refine ⟨⟨state, rfl, fun n => ?_, fun n hmore => ⟨n, Nat.le_refl _, ?_⟩⟩⟩
  · rw [hstate]
    exact (state n).moved_eq_or
  · rw [hstate]
    exact (Session.moved_spec ((hconsistent n).exists_move hmore)).2

/-! ## The call as it is defined -/

section Compute

variable {b : Burst} {r request : Request} {measure : Bool}

theorem compute_of_dead (hdead : b.workerAlive = false) :
    b.compute r measure = (b, r, failure) := by
  simp [Burst.compute, submit, hdead]

theorem compute_of_ok {report : Execution} (halive : b.workerAlive = true) (hjobs : b.jobs = [])
    (hresults : b.results = []) (hreport : b.model.report r measure = (request, .ok report)) :
    b.compute r measure = (b, request, report.sanitize measure) := by
  obtain ⟨model, blocking, alive, jobs, results⟩ := b
  subst halive hjobs hresults
  simp [Burst.compute, submit, work, collect, hreport]

theorem compute_of_error {fault : Fault} (halive : b.workerAlive = true) (hjobs : b.jobs = [])
    (hresults : b.results = []) (hreport : b.model.report r measure = (request, .error fault)) :
    b.compute r measure = ({ b with workerAlive := false }, request, failure) := by
  obtain ⟨model, blocking, alive, jobs, results⟩ := b
  subst halive hjobs hresults
  simp [Burst.compute, submit, work, collect, hreport]

end Compute

/-- What a series of calls returns, of which the first has this number. -/
def computes (driver : Nat → PreparedModel.V1_2) : Burst → Nat → List Job →
    List (Request × Execution)
  | _, _, [] => []
  | b, n, job :: rest =>
    let (b, answer) := { b with model := driver n }.compute job.request job.measure
    answer :: computes driver b (n + 1) rest

/-- A burst between two calls, after the first `n`. -/
structure Settled (driver : Nat → PreparedModel.V1_2) (calls : List Job) (n : Nat) (b : Burst) :
    Prop where
  jobs : b.jobs = []
  results : b.results = []
  alive : b.workerAlive = true ↔ ∀ k < n, ¬ Crashes driver calls k

theorem Settled.compute {n : Nat} {b : Burst} (h : Settled driver calls n b) {job : Job}
    (hjob : calls[n]? = some job) (hmodel : b.model = driver n) :
    ∃ b', Settled driver calls (n + 1) b' ∧
      b.compute job.request job.measure =
        (b', (answer driver calls n job).request, (answer driver calls n job).report) := by
  by_cases hunharmed : ∀ k < n, ¬ Crashes driver calls k
  · have halive : b.workerAlive = true := h.alive.2 hunharmed
    rw [answer_of_unharmed hunharmed]
    rcases hserve : serve driver n job with ⟨request, fault | report⟩
    · have hcrash := crashes_of_error hjob (congrArg Prod.snd hserve)
      rw [serve, ← hmodel] at hserve
      refine ⟨{ b with workerAlive := false }, ⟨h.jobs, h.results, ?_⟩,
        compute_of_error halive h.jobs h.results hserve⟩
      refine iff_of_false Bool.false_ne_true fun hall => ?_
      exact hall n (Nat.lt_succ_self n) hcrash
    · have hsound := not_crashes_of_ok hjob (congrArg Prod.snd hserve)
      rw [serve, ← hmodel] at hserve
      refine ⟨_, ⟨h.jobs, h.results, ?_⟩, compute_of_ok halive h.jobs h.results hserve⟩
      refine iff_of_true halive fun k hk => ?_
      rcases Nat.lt_succ_iff_lt_or_eq.1 hk with hlt | rfl
      · exact hunharmed k hlt
      · exact hsound
  · have hdead : b.workerAlive = false :=
      Bool.eq_false_iff.2 fun halive => hunharmed (h.alive.1 halive)
    obtain ⟨k, hk, hcrash⟩ : ∃ k < n, Crashes driver calls k := by
      simpa using hunharmed
    rw [answer_of_harmed hk hcrash]
    refine ⟨_, ⟨h.jobs, h.results, ?_⟩, compute_of_dead hdead⟩
    refine iff_of_false (Bool.eq_false_iff.1 hdead) fun hall => ?_
    exact hall k (by omega) hcrash

theorem Settled.computes {n : Nat} {b : Burst} (h : Settled driver calls n b) {rest : List Job}
    (hrest : calls.drop n = rest) :
    computes driver b n rest =
      ((answers driver calls).drop n).map fun a => (a.request, a.report) := by
  induction rest generalizing n b with
  | nil =>
    have hend : (answers driver calls).drop n = [] := by
      rw [List.drop_eq_nil_iff, answers, List.length_mapIdx]
      exact List.drop_eq_nil_iff.1 hrest
    rw [hend]
    rfl
  | cons job rest ih =>
    have hjob : calls[n]? = some job := by
      rw [← List.head?_drop, hrest]
      rfl
    have hrest' : calls.drop (n + 1) = rest := by
      rw [← List.tail_drop, hrest]
      rfl
    have hanswer : (answers driver calls)[n]? = some (answer driver calls n job) := by
      rw [getElem?_answers, hjob]
      rfl
    obtain ⟨hlength, hget⟩ := List.getElem?_eq_some_iff.1 hanswer
    have hsettled : Settled driver calls n { b with model := driver n } :=
      ⟨h.jobs, h.results, h.alive⟩
    obtain ⟨b', h', hcompute⟩ := hsettled.compute hjob rfl
    rw [List.drop_eq_getElem_cons hlength, hget, List.map_cons, ← ih h' hrest', Burst.computes,
      hcompute]

/-- The definition of the call returns what every schedule returns. -/
theorem computes_eq_answers {b : Burst} (hjobs : b.jobs = []) (hresults : b.results = [])
    (halive : b.workerAlive = true) :
    computes driver b 0 calls = (answers driver calls).map fun a => (a.request, a.report) := by
  have hsettled : Settled driver calls 0 b :=
    ⟨hjobs, hresults, iff_of_true halive fun _ hk => absurd hk (Nat.not_lt_zero _)⟩
  exact hsettled.computes rfl

/-! ## The whole burst -/

theorem executeSynchronously_of_ok {n : Nat} {job : Job} {report : Execution} {p : PreparedModel}
    (hp : p.v1_2? = some (driver n)) (hserve : (serve driver n job).2 = .ok report) :
    p.executeSynchronously job.request job.measure =
      ((serve driver n job).1, .ok (report.sanitize job.measure)) := by
  unfold PreparedModel.executeSynchronously
  rw [hp]
  show ((serve driver n job).1, (serve driver n job).2.map _) = _
  rw [hserve]
  rfl

theorem sanitize_failure (measure : Bool) : failure.sanitize measure = failure := by
  cases measure <;> rfl

theorem serve_of_dropped {n : Nat} {job : Job}
    (hdropped : ((driver n).executeSynchronously job.request job.measure).2 = .dropped) :
    (serve driver n job).2 = .ok failure := by
  show (Reply.await ((driver n).executeSynchronously job.request job.measure).2).map _ = _
  rw [hdropped]
  rfl

/-- What is expected of the answer to a call. -/
structure Answer.Fits (driver : Nat → PreparedModel.V1_2) (calls : List Job) (n : Nat) (job : Job)
    (a : Answer) : Prop where
  /-- It is never the result of another call. -/
  own : ∀ m, a.origin? = some m → m = n
  /-- Until the driver crashes it is what an execution in the caller's thread returns, of the same
  prepared model in the same state. -/
  alike : (∀ k ≤ n, ¬ Crashes driver calls k) → a.origin? = some n ∧
    ∀ p : PreparedModel, p.v1_2? = some (driver n) →
      p.executeSynchronously job.request job.measure = (a.request, .ok a.report)
  /-- A reply that the driver lets go of is a general failure, and no crash. -/
  dropped : (∀ k < n, ¬ Crashes driver calls k) →
    ((driver n).executeSynchronously job.request job.measure).2 = .dropped →
    ¬ Crashes driver calls n ∧ a.report = ⟨.generalFailure, [], .unavailable⟩
  /-- From the first crash on it is a general failure. -/
  failed : (∃ k ≤ n, Crashes driver calls k) →
    a.origin? = none ∧ a.report = ⟨.generalFailure, [], .unavailable⟩

theorem answer_fits {n : Nat} {job : Job} (hjob : calls[n]? = some job) :
    (answer driver calls n job).Fits driver calls n job := by
  by_cases hunharmed : ∀ k < n, ¬ Crashes driver calls k
  · rw [answer_of_unharmed hunharmed]
    cases hserve : (serve driver n job).2 with
    | ok report =>
      have hsound := not_crashes_of_ok hjob hserve
      refine ⟨fun m hm => (Option.some.inj hm).symm, fun _ => ⟨rfl, fun p hp => ?_⟩,
        fun _ hdropped => ⟨hsound, ?_⟩, ?_⟩
      · exact executeSynchronously_of_ok hp hserve
      · obtain rfl := Except.ok.inj (hserve.symm.trans (serve_of_dropped hdropped))
        exact sanitize_failure job.measure
      · rintro ⟨k, hk, hcrash⟩
        rcases Nat.lt_or_eq_of_le hk with hlt | rfl
        · exact absurd hcrash (hunharmed k hlt)
        · exact absurd hcrash hsound
    | error fault =>
      have hcrash := crashes_of_error hjob hserve
      refine ⟨nofun, fun hall => ?_, fun _ hdropped => ?_, fun _ => ⟨rfl, rfl⟩⟩
      · exact absurd hcrash (hall n (Nat.le_refl n))
      · cases hserve.symm.trans (serve_of_dropped hdropped)
  · obtain ⟨k, hk, hcrash⟩ : ∃ k < n, Crashes driver calls k := by
      simpa using hunharmed
    rw [answer_of_harmed hk hcrash]
    refine ⟨nofun, fun hall => ?_, fun hall _ => absurd hall hunharmed, fun _ => ⟨rfl, rfl⟩⟩
    exact absurd hcrash (hall k (Nat.le_of_lt hk))

/-- However caller and worker are scheduled, and whether the caller sleeps or keeps asking: what
the calls of a burst return is what as many synchronous executions would, until the driver crashes,
and general failures from then on.  No call gets the result of another, and none waits for anything
but that something happens.  The definition of the call gives the same answers. -/
theorem as_if_synchronous (driver : Nat → PreparedModel.V1_2) (calls : List Job)
    (blocking : Bool) :
    (∀ s, Reaches driver calls blocking {} s →
      (∀ (n : Nat) (a : Answer), s.returned[n]? = some a →
        ∃ job, calls[n]? = some job ∧ a.Fits driver calls n job) ∧
      (s.returned.length < calls.length → ∃ s', Move driver calls blocking s s' ∧ s' ≠ s)) ∧
    (∀ σ : Schedule driver calls blocking, ∃ n, (σ.state n).returned.length = calls.length) ∧
    ∀ (p : PreparedModel) (b : Burst), configure p blocking = some b →
      ∀ s, Reaches driver calls blocking {} s →
        (s.returned.map fun a => (a.request, a.report)) <+: computes driver b 0 calls := by
  refine ⟨fun s hs => ⟨fun n a ha => ?_, hs.consistent.exists_move⟩, fun σ => ?_, ?_⟩
  · obtain ⟨hlength, rfl⟩ := List.getElem?_eq_some_iff.1 ha
    have hanswer := List.getElem?_eq_some_iff.2 ⟨_, (hs.isPrefix_answers.getElem hlength).symm⟩
    rw [getElem?_answers] at hanswer
    obtain ⟨job, hjob, heq⟩ := Option.map_eq_some_iff.1 hanswer
    rw [← heq]
    exact ⟨job, hjob, answer_fits hjob⟩
  · obtain ⟨n, hn⟩ := σ.exists_complete
    refine ⟨n, ?_⟩
    rw [hn, answers, List.length_mapIdx]
  · intro p b hb s hs
    obtain ⟨model, -, rfl⟩ := Option.map_eq_some_iff.1 hb
    rw [computes_eq_answers rfl rfl rfl]
    exact hs.isPrefix_answers.map _

/-- A prepared model that replies once, lets go of the second reply, crashes over the third job and
would reply again after that. -/
def moody (n : Nat) : PreparedModel.V1_2 where
  execute := fun r _ => ⟨.success, [], r.pools⟩
  executeSynchronously := fun r _ =>
    (r.pools,
      match n with
      | 1 => .dropped
      | 2 => .died "out of memory"
      | _ => .answered .success ([⟨[2], true⟩], ⟨3, 4⟩))
  save := fun store _ _ _ => (store, .generalFailure)

/-- Four calls of it, one of which does not ask for durations. -/
def moodyCalls : List Job := [⟨{}, true⟩, ⟨{}, true⟩, ⟨{}, true⟩, ⟨{}, false⟩]

/-- A caller who keeps asking gets one report, and three failures for three different reasons. -/
theorem as_if_synchronous_moody :
    (∃ s, Reaches moody moodyCalls false {} s ∧
      s.returned[0]?.map (·.report) = some ⟨.success, [⟨[2], true⟩], ⟨3, 4⟩⟩ ∧
      s.returned[1]?.map (·.report) = some ⟨.generalFailure, [], .unavailable⟩ ∧
      s.returned[2]?.map (·.report) = some ⟨.generalFailure, [], .unavailable⟩ ∧
      s.returned[3]?.map (·.report) = some ⟨.generalFailure, [], .unavailable⟩ ∧
      (s.returned.map fun a => (a.request, a.report)) <+:
        computes moody { model := moody 0, blocking := false } 0 moodyCalls) ∧
    ∃ s, Move moody moodyCalls false {} s ∧ s ≠ {} := by
  obtain ⟨hreached, hcomplete, hdefined⟩ := as_if_synchronous moody moodyCalls false
  refine ⟨?_, (hreached {} .refl).2 (by decide)⟩
  obtain ⟨σ⟩ := exists_schedule moody moodyCalls false
  obtain ⟨n, hn⟩ := hcomplete σ
  have hfits := (hreached _ (σ.reaches n)).1
  have hanswer : ∀ i < 4, ∃ a, (σ.state n).returned[i]? = some a := by
    intro i hi
    exact ⟨_, List.getElem?_eq_getElem (hn ▸ hi)⟩
  have hinitial := hdefined ⟨fun r => ⟨.success, [], r.pools⟩, some (moody 0)⟩ _ rfl _ (σ.reaches n)
  refine ⟨σ.state n, σ.reaches n, ?_, ?_, ?_, ?_, hinitial⟩
  · obtain ⟨a, ha⟩ := hanswer 0 (by decide)
    obtain ⟨job, hjob, hfit⟩ := hfits 0 a ha
    obtain rfl := Option.some.inj hjob
    obtain ⟨-, halike⟩ := hfit.alike (by decide)
    have hreport :=
      congrArg Prod.snd (halike ⟨fun r => ⟨.success, [], r.pools⟩, some (moody 0)⟩ rfl)
    rw [ha]
    exact congrArg some (Except.ok.inj hreport).symm
  · obtain ⟨a, ha⟩ := hanswer 1 (by decide)
    obtain ⟨job, hjob, hfit⟩ := hfits 1 a ha
    rw [ha]
    exact congrArg some (hfit.dropped (by decide) rfl).2
  · obtain ⟨a, ha⟩ := hanswer 2 (by decide)
    obtain ⟨job, hjob, hfit⟩ := hfits 2 a ha
    rw [ha]
    exact congrArg some (hfit.failed ⟨2, by decide, by decide⟩).2
  · obtain ⟨a, ha⟩ := hanswer 3 (by decide)
    obtain ⟨job, hjob, hfit⟩ := hfits 3 a ha
    rw [ha]
    exact congrArg some (hfit.failed ⟨2, by decide, by decide⟩).2

end NeuralDispatch.Burst

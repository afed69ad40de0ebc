import Passkey.Library.Fairness
import Passkey.Daemon.Withdrawals

/-!
Every request ends. The worker of a request leaves its loop by the deadline at
the latest, asks no link twice, and gives the busy slot back, whatever links,
browsers and other requests do, provided that its own steps and those of the
threads in `cancel` are not put off for ever: that writes and locks come back
and that time goes on.
-/

namespace Passkey.Daemon

open Library

/-- The steps of a thread that reads the device. -/
def hidEvents (t : ThreadId) : Set Event :=
  {e | ∃ ok, e = .hid t ok}

/-- The steps of the worker of a request. -/
def workerEvents (r : RequestId) : Set Event :=
  {e | ∃ ok, e = .worker r ok}

/-! ### The lock comes back -/

/-- A locked list of links is in the hands of a thread in `cancel`. -/
def Held (s : State) : Prop :=
  ∀ (r : RequestId) (w : Worker), s.workers[r]? = some w → w.locked = true →
    ∃ t todo cause, s.hid t = .withdraw r todo cause

/-- A thread that is withdrawing a request goes on, to the next link or to the
end. -/
inductive Withdrawing (s : State) (e : Event) (t : State) (u : ThreadId) (r : RequestId)
    (todo : List LinkId) (cause : Cause) : Prop where
  | waits (he : e ∉ hidEvents u) (hu : t.hid u = .withdraw r todo cause)
  | tells {l : LinkId} {rest : List LinkId} (htodo : todo = l :: rest)
      (hu : t.hid u = .withdraw r rest cause)
  | unlocks (hfree : ∀ w', t.workers[r]? = some w' → w'.locked = false)

/-- Only its own step moves a thread that is withdrawing. -/
theorem Step.hid_stays {s t : State} {e : Event} (h : Step s e t) {u : ThreadId}
    (he : e ∉ hidEvents u) (hbusy : s.hid u ≠ .idle) : t.hid u = s.hid u := by
  cases h with
  | worker => simp
  | @hid v ok =>
      have hv : u ≠ v := by
        rintro rfl
        exact he ⟨ok, rfl⟩
      rw [setHid_hid, if_neg hv, perform_hid]
  | @begin _ v pc hidle =>
      have hv : u ≠ v := by
        rintro rfl
        exact hbusy hidle
      rw [setHid_hid, if_neg hv]
  | outside hout => rw [hout.hid]

theorem setLocked_free {s : State} {r : RequestId} {w' : Worker}
    (h : (s.setLocked r false).workers[r]? = some w') : w'.locked = false := by
  simp only [State.setLocked, List.getElem?_modify_eq] at h
  obtain ⟨w, -, rfl⟩ := Option.map_eq_some_iff.mp h
  rfl

theorem next_withdrawing {s t : State} {e : Event} (h : next s e = some t) {u : ThreadId}
    {r : RequestId} {todo : List LinkId} {cause : Cause}
    (hu : s.hid u = .withdraw r todo cause) : Withdrawing s e t u r todo cause := by
  by_cases he : e ∈ hidEvents u
  · obtain ⟨ok, rfl⟩ := he
    obtain ⟨⟨pc, act⟩, hturn, rfl⟩ := Option.map_eq_some_iff.mp h
    rw [hu] at hturn
    cases hidStep_cases hturn with
    | withdraw hw => exact .tells rfl (by simp [setHid_hid])
    | withdrawn => exact .unlocks fun w' hw' => setLocked_free hw'
  · apply Withdrawing.waits he
    rw [(step_cases h).hid_stays he (by simp [hu]), hu]

theorem held_start (pid : UInt32) : Held (start pid) := by
  intro r w hw
  simp [start] at hw

/-- Who holds a lock keeps it until it unlocks. -/
theorem Held.step {s t : State} {e : Event} (h : Held s) (hnext : next s e = some t) : Held t := by
  intro r w' hw' hlocked
  -- A lock that was taken before stays with the thread that has it.
  have hkept {w : Worker} (hw : s.workers[r]? = some w) (hbefore : w.locked = true) :
      ∃ u todo cause, t.hid u = .withdraw r todo cause := by
    obtain ⟨u, todo, cause, hu⟩ := h r w hw hbefore
    cases next_withdrawing hnext hu with
    | waits _ hu' => exact ⟨u, todo, cause, hu'⟩
    | tells _ hu' => exact ⟨u, _, cause, hu'⟩
    | unlocks hfree => simp [hfree w' hw'] at hlocked
  have hstep := step_cases hnext
  cases hstep.moved hw' with
  | own he hw hturn => exact hkept hw ((turn_keeps hturn).2.1 ▸ hlocked)
  | spawned hr hnew =>
      rw [hnew] at hlocked
      cases hlocked
  | @other w locked hw hsame =>
      by_cases hbefore : w.locked = true
      · exact hkept hw hbefore
      · -- The lock is taken in this step.
        cases hstep.lock with
        | aside _ _ hworkers =>
            obtain ⟨v, hv, -, hsame', -⟩ := hworkers r w hw
            obtain rfl := Option.some.inj (hv.symm.trans hw')
            exact absurd (hsame' ▸ hlocked) hbefore
        | @lock u ok q cause v he hu hv hfree ht =>
            by_cases hq : q = r
            · subst hq
              exact ⟨u, v.published, cause, by rw [ht, setHid_hid, if_pos rfl]⟩
            · have hother : t.workers[r]? = s.workers[r]? := by
                rw [ht, setHid_workers]
                exact setLocked_other true hq
              obtain rfl := Option.some.inj (hw'.symm.trans (hother.trans hw))
              exact absurd hlocked hbefore
        | tell _ _ ht =>
            have hother : t.workers[r]? = s.workers[r]? := by rw [ht]; rfl
            obtain rfl := Option.some.inj (hw'.symm.trans (hother.trans hw))
            exact absurd hlocked hbefore
        | @unlock u q cause hu ht =>
            by_cases hq : q = r
            · subst hq
              rw [ht, setHid_workers] at hw'
              simp [setLocked_free hw'] at hlocked
            · have hother : t.workers[r]? = s.workers[r]? := by
                rw [ht, setHid_workers]
                exact setLocked_other false hq
              obtain rfl := Option.some.inj (hw'.symm.trans (hother.trans hw))
              exact absurd hlocked hbefore

theorem held_reachable {pid : UInt32} {s : State} (h : Reach next always (start pid) s) :
    Held s :=
  h.invariant (held_start pid) fun _ _ _ ht _ hnext => ht.step hnext

/-- How many links a thread in `cancel` has still to tell. -/
def State.untold (s : State) (u : ThreadId) : ℕ :=
  match s.hid u with
  | .withdraw _ todo _ => todo.length
  | _ => 0

/-- The thread is withdrawing the request, which was accepted. -/
def Cancelling (u : ThreadId) (r : RequestId) (s : State) : Prop :=
  r < s.workers.length ∧ ∃ todo cause, s.hid u = .withdraw r todo cause

/-- Nobody holds the lock of the request's links. -/
def Unlocked (r : RequestId) (s : State) : Prop :=
  ∀ w, s.workers[r]? = some w → w.locked = false

theorem cancelling_enabled {u : ThreadId} {r : RequestId} {s : State} (h : Cancelling u r s) :
    Enabled next (hidEvents u) s := by
  obtain ⟨hr, todo, cause, hu⟩ := h
  refine ⟨.hid u false, ⟨false, rfl⟩, ?_⟩
  cases todo with
  | nil => simp [next, hu, HidPc.turn]
  | cons l rest => simp [next, hu, HidPc.turn, List.getElem?_eq_getElem hr]

/-- Every step of a thread in `cancel` takes it towards the end. -/
theorem cancelling_approaches (u : ThreadId) (r : RequestId) :
    Endless.Approaches next always (hidEvents u) (Cancelling u r) (Unlocked r)
      (State.untold · u) := by
  rintro s e t ⟨hr, todo, cause, hu⟩ - - hnext
  have hr' : r < t.workers.length := Nat.lt_of_lt_of_le hr (step_cases hnext).slot.length_le
  cases next_withdrawing hnext hu with
  | waits he hu' =>
      refine .inr ⟨⟨hr', todo, cause, hu'⟩, ?_, fun hmine => absurd hmine he⟩
      simp [State.untold, hu, hu']
  | tells htodo hu' =>
      subst htodo
      refine .inr ⟨⟨hr', _, cause, hu'⟩, ?_, fun _ => ?_⟩
      · simp [State.untold, hu, hu']
      · simp [State.untold, hu, hu']
  | unlocks hfree => exact .inl hfree

theorem lock_comes_back {run : Endless next} {u : ThreadId} {r : RequestId} {i : ℕ}
    (hfair : run.WeaklyFair (hidEvents u)) (h : Cancelling u r (run.state i)) :
    ∃ j ≥ i, Unlocked r (run.state j) :=
  hfair.eventually (cancelling_approaches u r)
    (fun _ hcancelling _ => cancelling_enabled hcancelling) (fun _ _ => trivial) h

/-! ### A worker can go on -/

/-- The worker needs the lock of its pending links next. -/
def Pc.locking : Pc → Bool
  | .publish | .clear => true
  | _ => false

theorem turn_isSome (s : State) (r : RequestId) {w : Worker} (hdone : w.pc ≠ .done)
    (hfree : w.pc.locking = true → w.locked = false) : (w.turn s r false).isSome := by
  cases hpc : w.pc with
  | publish => simp [Worker.turn, hpc, hfree (by rw [hpc]; rfl)]
  | clear => simp [Worker.turn, hpc, hfree (by rw [hpc]; rfl)]
  | done => exact absurd hpc hdone
  | send todo => cases todo <;> simp [Worker.turn, hpc]
  | withdraw todo => cases todo <;> simp [Worker.turn, hpc]
  | report rest => cases rest <;> simp [Worker.turn, hpc]
  | round | check | beat | verdict =>
      simp only [Worker.turn, hpc]
      split <;> rfl
  | sweep rest heard =>
      cases rest with
      | nil => simp [Worker.turn, hpc]
      | cons l rest =>
          simp only [Worker.turn, hpc]
          split <;> rfl
  | _ => simp [Worker.turn, hpc]

theorem worker_enabled {s : State} {r : RequestId} {w : Worker} (hw : s.workers[r]? = some w)
    (hdone : w.pc ≠ .done) (hfree : w.pc.locking = true → w.locked = false) :
    Enabled next (workerEvents r) s := by
  refine ⟨.worker r false, ⟨false, rfl⟩, ?_⟩
  have hturn := turn_isSome s r hdone hfree
  simp [next, hw, hturn]

/-! ### The way of a worker -/

/-- The steps of a worker up to `handle_cbor`'s first round. -/
def Pc.planning : Pc → ℕ
  | .plan => 2
  | .consult => 1
  | _ => 0

/-- How many steps the rounds that have not begun take at most. -/
def toCome (rounds : List (List LinkId)) : ℕ :=
  (rounds.map fun targets => 2 * targets.length + 10).sum

/-- How far a worker whose deadline is over is from its end: first the rounds,
and then the reply. -/
def Worker.distance (w : Worker) : ℕ ×ₗ ℕ :=
  match w.pc with
  | .plan | .consult => toLex (2, 0)
  | .round => toLex (1, toCome w.rounds + 1)
  | .send todo => toLex (1, toCome w.rounds + 2 * todo.length + w.pending.length + 8)
  | .publish => toLex (1, toCome w.rounds + w.pending.length + 7)
  | .check => toLex (1, toCome w.rounds + w.pending.length + 6)
  | .sweep rest _ => toLex (1, toCome w.rounds + w.pending.length + rest.length + 8)
  | .beat => toLex (1, toCome w.rounds + w.pending.length + 7)
  | .clear => toLex (1, toCome w.rounds + w.pending.length + 5)
  | .withdraw todo => toLex (1, toCome w.rounds + todo.length + 4)
  | .judge => toLex (1, toCome w.rounds + 3)
  | .verdict payload => toLex (0, (reply w.channel CBOR payload).length + 3)
  | .report rest => toLex (0, rest.length + 2)
  | .finish => toLex (0, 1)
  | .done => toLex (0, 0)

theorem lex_within {a b c : ℕ} (h : b < c) : (toLex (a, b) : ℕ ×ₗ ℕ) < toLex (a, c) :=
  Prod.Lex.toLex_lt_toLex.mpr (.inr ⟨rfl, h⟩)

theorem lex_down {a b c d : ℕ} (h : a < c) : (toLex (a, b) : ℕ ×ₗ ℕ) < toLex (c, d) :=
  Prod.Lex.toLex_lt_toLex.mpr (.inl h)

theorem poll_nears {w : Worker} {l : LinkId} {rest : List LinkId} {heard : Bool}
    (hpc : w.pc = .sweep (l :: rest) heard) (response : UInt32 × Bytes) :
    (w.poll l rest heard (some response)).distance < w.distance := by
  have hfilter : (w.pending.filter (· ≠ l)).length ≤ w.pending.length := List.length_filter_le ..
  unfold Worker.poll
  repeat' split
  all_goals
    simp only [Worker.distance, hpc]
    apply lex_within
    simp only [List.length_cons, List.length_nil]
    omega

theorem judge_nears {w : Worker} (hpc : w.pc = .judge) (device : LinkId → Text) :
    (w.judge device).1.distance < w.distance := by
  unfold Worker.judge
  repeat' split
  all_goals
    simp only [Worker.distance, hpc]
    first
      | exact lex_down Nat.zero_lt_one
      | exact lex_within (Nat.add_lt_add_left (by decide) _)

/-- Once the deadline is over, every step of a worker takes it towards its end. -/
theorem turn_nears {s : State} {r : RequestId} {w w' : Worker} {act : Act}
    (h : Turn s r w w' act) (hlaid : w.pc.planning = 0) (hlate : w.deadline ≤ s.now) :
    w'.distance < w.distance := by
  cases h with
  | plan hpc => simp [hpc, Pc.planning] at hlaid
  | consult hpc => simp [hpc, Pc.planning] at hlaid
  | goOn _ _ _ htime => omega
  | take hpc => exact poll_nears hpc _
  | judge hpc => exact judge_nears hpc _
  | roundsOver hpc hrounds =>
      simp only [Worker.distance, hpc]
      exact lex_down Nat.zero_lt_one
  | emptyRound hpc hrounds =>
      simp only [Worker.distance, hpc, hrounds]
      apply lex_within
      simp [toCome]
  | enter hpc hrounds =>
      simp only [Worker.distance, hpc, hrounds]
      apply lex_within
      simp only [toCome, List.map_cons, List.sum_cons, List.length_nil]
      omega
  | @send l rest ok hpc =>
      have hpending :
          (if ok then w.pending ++ [l] else w.pending).length ≤ w.pending.length + 1 := by
        split <;> simp
      simp only [Worker.distance, hpc]
      apply lex_within
      simp only [List.length_cons]
      omega
  | @swept heard hpc =>
      simp only [Worker.distance, hpc]
      cases heard <;> exact lex_within (by simp only [List.length_nil]; omega)
  | silence hpc | withdraw hpc | report hpc =>
      simp only [Worker.distance, hpc]
      apply lex_within
      simp only [List.length_cons]
      omega
  | allSent hpc | withdrawn hpc | reported hpc =>
      simp only [Worker.distance, hpc, List.length_nil]
      exact lex_within (by omega)
  | _ hpc =>
      simp only [Worker.distance, hpc]
      exact lex_within (by omega)

/-! ### The stages of a worker -/

/-- The worker has laid out its rounds, with this deadline. -/
def Due (r : RequestId) (ms : ℕ) (s : State) : Prop :=
  ∃ w, s.workers[r]? = some w ∧ w.pc.planning = 0 ∧ w.deadline = ms

def LaidOut (r : RequestId) (s : State) : Prop :=
  ∃ ms, Due r ms s

/-- Its deadline is over. -/
def Overdue (r : RequestId) (s : State) : Prop :=
  ∃ ms ≤ s.now, Due r ms s

/-- The worker has returned. -/
def Returned (r : RequestId) (s : State) : Prop :=
  ∃ w, s.workers[r]? = some w ∧ w.pc = .done

theorem turn_deadline {s : State} {r : RequestId} {w w' : Worker} {act : Act}
    (h : Turn s r w w' act) (hlaid : w.pc.planning = 0) :
    w'.pc.planning = 0 ∧ w'.deadline = w.deadline := by
  cases h with
  | plan hpc => simp [hpc, Pc.planning] at hlaid
  | consult hpc => simp [hpc, Pc.planning] at hlaid
  | emptyRound => exact ⟨hlaid, rfl⟩
  | @swept heard => cases heard <;> exact ⟨rfl, rfl⟩
  | take =>
      unfold Worker.poll
      repeat' split
      all_goals exact ⟨rfl, rfl⟩
  | judge =>
      unfold Worker.judge
      repeat' split
      all_goals exact ⟨rfl, rfl⟩
  | _ => exact ⟨rfl, rfl⟩

theorem turn_planning {s : State} {r : RequestId} {w w' : Worker} {act : Act}
    (h : Turn s r w w' act) (hplanning : w.pc.planning ≠ 0) :
    w'.pc.planning < w.pc.planning := by
  cases h with
  | plan hpc => simp [hpc, Pc.planning]
  | consult hpc => simp [hpc, Pc.planning]
  | _ hpc => simp [hpc, Pc.planning] at hplanning

theorem next_now {s t : State} {e : Event} (h : next s e = some t) : s.now ≤ t.now := by
  rcases (step_cases h).now with hsame | ⟨ms, -, hlater⟩ <;> omega

/-- The steps a worker has to take before its rounds. -/
def State.planning (r : RequestId) (s : State) : ℕ :=
  (s.workers[r]?.map fun w => w.pc.planning).getD 0

def State.distance (r : RequestId) (s : State) : ℕ ×ₗ ℕ :=
  (s.workers[r]?.map Worker.distance).getD (toLex (0, 0))

/-- Only its own steps move a worker. -/
theorem next_moves {s t : State} {e : Event} (h : next s e = some t) {r : RequestId} {w : Worker}
    (hw : s.workers[r]? = some w) : ∃ w', t.workers[r]? = some w' ∧
      ((∃ act, Turn s r w w' act) ∨
        e ∉ workerEvents r ∧ ∃ locked, w' = {w with locked := locked}) := by
  by_cases he : e ∈ workerEvents r
  · obtain ⟨ok, rfl⟩ := he
    obtain ⟨⟨w', act⟩, hbind, rfl⟩ := Option.map_eq_some_iff.mp h
    obtain ⟨v, hv, hturn⟩ := Option.bind_eq_some_iff.mp hbind
    obtain rfl := Option.some.inj (hv.symm.trans hw)
    have hcases := turn_cases hturn
    refine ⟨w', ?_, .inl ⟨act, hcases⟩⟩
    rw [setWorker_workers, (turn_own hcases).workers]
    exact List.getElem?_set_self (List.getElem?_eq_some_iff.mp hw).1
  · obtain ⟨w', hw', ⟨ok, act, rfl, -, -⟩ | ⟨locked, hsame, -⟩⟩ := (step_cases h).after hw
    · exact absurd ⟨ok, rfl⟩ he
    · exact ⟨w', hw', .inr ⟨he, locked, hsame⟩⟩

theorem planning_approaches (r : RequestId) :
    Endless.Approaches next always (workerEvents r) (fun s => r < s.workers.length) (LaidOut r)
      (State.planning r) := by
  rintro s e t (hr : r < s.workers.length) hnot - hnext
  have hw := List.getElem?_eq_getElem hr
  obtain ⟨w', hw', ⟨act, hturn⟩ | ⟨he, locked, rfl⟩⟩ := next_moves hnext hw
  · have hless := turn_planning hturn fun hzero => hnot ⟨_, _, hw, hzero, rfl⟩
    refine .inr ⟨(List.getElem?_eq_some_iff.mp hw').1, ?_, fun _ => ?_⟩
    · simpa [State.planning, hw, hw'] using hless.le
    · simpa [State.planning, hw, hw'] using hless
  · refine .inr ⟨(List.getElem?_eq_some_iff.mp hw').1, ?_, fun hmine => absurd hmine he⟩
    simp [State.planning, hw, hw']

theorem overdue_approaches (r : RequestId) :
    Endless.Approaches next always (workerEvents r) (Overdue r) (Returned r)
      (State.distance r) := by
  rintro s e t ⟨ms, hlate, w, hw, hlaid, rfl⟩ - - hnext
  have hnow := next_now hnext
  obtain ⟨w', hw', ⟨act, hturn⟩ | ⟨he, locked, rfl⟩⟩ := next_moves hnext hw
  · obtain ⟨hlaid', hdeadline⟩ := turn_deadline hturn hlaid
    have hless := turn_nears hturn hlaid hlate
    refine .inr ⟨⟨w.deadline, hlate.trans hnow, w', hw', hlaid', hdeadline⟩, ?_, fun _ => ?_⟩
    · simpa [State.distance, hw, hw'] using hless.le
    · simpa [State.distance, hw, hw'] using hless
  · refine .inr ⟨⟨w.deadline, hlate.trans hnow, _, hw', hlaid, rfl⟩, ?_,
      fun hmine => absurd hmine he⟩
    simp [State.distance, hw, hw', Worker.distance]

theorem Due.step {s t : State} {e : Event} {r : RequestId} {ms : ℕ} (h : Due r ms s)
    (hnext : next s e = some t) : Due r ms t := by
  obtain ⟨w, hw, hlaid, rfl⟩ := h
  obtain ⟨w', hw', ⟨act, hturn⟩ | ⟨-, locked, rfl⟩⟩ := next_moves hnext hw
  · exact ⟨w', hw', turn_deadline hturn hlaid⟩
  · exact ⟨_, hw', hlaid, rfl⟩

theorem Returned.step {s t : State} {e : Event} {r : RequestId} (h : Returned r s)
    (hnext : next s e = some t) : Returned r t := by
  obtain ⟨w, hw, hdone⟩ := h
  obtain ⟨w', hw', ⟨act, hturn⟩ | ⟨-, locked, rfl⟩⟩ := next_moves hnext hw
  · exact absurd hdone (turn_not_done hturn)
  · exact ⟨_, hw', hdone⟩

/-! ### Every request ends -/

/-- What the daemon needs of the threads, the links and the clock: the steps of
a thread in `cancel` come, a worker gets its turn and its lock, and time has no
end. -/
structure Live (run : Endless next) : Prop where
  readers : ∀ u, run.WeaklyFair (hidEvents u)
  workers : ∀ r, run.StronglyFair (workerEvents r)
  clock : ∀ ms, ∃ i, ms ≤ (run.state i).now

section Run

variable {run : Endless next} {pid : UInt32} {r : RequestId} {i : ℕ}

theorem run_reachable (hstart : run.state 0 = start pid) (i : ℕ) :
    Reach next always (start pid) (run.state i) :=
  hstart ▸ run.reach (Nat.zero_le i)

theorem eventually_laidOut (hlive : Live run) (hr : r < (run.state i).workers.length) :
    ∃ j ≥ i, LaidOut r (run.state j) := by
  apply (hlive.workers r).eventually (planning_approaches r) _ (fun _ _ => trivial) hr
  intro j _ hr hnot
  have hw := List.getElem?_eq_getElem hr
  have hplanning (hzero : (run.state j).workers[r].pc.planning = 0) : False :=
    hnot ⟨_, _, hw, hzero, rfl⟩
  refine ⟨j, le_rfl, .inr (worker_enabled hw ?_ ?_)⟩
  · intro hdone
    exact hplanning (by rw [hdone]; rfl)
  · intro hlocking
    refine (hplanning ?_).elim
    cases hpc : (run.state j).workers[r].pc <;> simp_all [Pc.locking, Pc.planning]

/-- A worker that waits for the lock gets to a moment at which it is free. -/
theorem eventually_enabled (hstart : run.state 0 = start pid) (hlive : Live run)
    (hlate : Overdue r (run.state i)) (hnot : ¬ Returned r (run.state i)) :
    ∃ j ≥ i, Returned r (run.state j) ∨ Enabled next (workerEvents r) (run.state j) := by
  obtain ⟨-, -, w, hw, -⟩ := hlate
  have hdone : w.pc ≠ .done := fun hdone => hnot ⟨w, hw, hdone⟩
  by_cases hlocked : w.locked = true
  · obtain ⟨u, todo, cause, hu⟩ := held_reachable (run_reachable hstart i) r w hw hlocked
    have hr := (List.getElem?_eq_some_iff.mp hw).1
    obtain ⟨j, hij, hfree⟩ := lock_comes_back (hlive.readers u) ⟨hr, todo, cause, hu⟩
    have hr' : r < (run.state j).workers.length :=
      Endless.stays (P := fun s => r < s.workers.length)
        (fun s e t hs hnext => hs.trans_le (step_cases hnext).slot.length_le) hij hr
    have hw' := List.getElem?_eq_getElem hr'
    refine ⟨j, hij, ?_⟩
    by_cases hdone' : (run.state j).workers[r].pc = .done
    · exact .inl ⟨_, hw', hdone'⟩
    · exact .inr (worker_enabled hw' hdone' fun _ => hfree _ hw')
  · exact ⟨i, le_rfl, .inr (worker_enabled hw hdone fun _ => Bool.eq_false_of_not_eq_true hlocked)⟩

theorem eventually_returned (hstart : run.state 0 = start pid) (hlive : Live run)
    (hr : r < (run.state i).workers.length) : ∃ j ≥ i, Returned r (run.state j) := by
  obtain ⟨j, hij, ms, hdue⟩ := eventually_laidOut hlive hr
  obtain ⟨k, hjk, hover⟩ := Endless.beyond (f := State.now) (fun _ _ _ => next_now) hlive.clock ms j
  have hlate : Overdue r (run.state k) :=
    ⟨ms, hover k le_rfl, Endless.stays (P := Due r ms) (fun _ _ _ => Due.step) hjk hdue⟩
  obtain ⟨m, hkm, hended⟩ := (hlive.workers r).eventually (overdue_approaches r)
    (fun _ _ => eventually_enabled hstart hlive) (fun _ _ => trivial) hlate
  exact ⟨m, by omega, hended⟩

/-- A request that has ended is not the busy one. -/
theorem Returned.free {s : State} (h : Returned r s) (hrun : Reach next always (start pid) s) :
    s.busy ≠ some r := by
  obtain ⟨w, hw, hdone⟩ := h
  intro hbusy
  exact (inv_reachable hrun).serving r w hbusy hw hdone

/-- The busy slot changes hands only while it is free. -/
theorem free_between (hbusy : (run.state i).busy = some r) {j : ℕ} (hij : i ≤ j) :
    (run.state j).busy = some r ∨ ∃ k ≥ i, (run.state k).busy = none := by
  induction j, hij using Nat.le_induction with
  | base => exact .inl hbusy
  | succ j hij ih =>
      rcases ih with hstill | hfree
      · cases (step_cases (run.step j)).slot with
        | same hsame => exact .inl (hsame.trans hstill)
        | accept hnone => cases hnone.symm.trans hstill
        | abandon _ _ _ _ _ hnone => exact .inr ⟨j + 1, by omega, hnone⟩
        | release _ _ _ _ _ hnone => exact .inr ⟨j + 1, by omega, hnone⟩
      · exact .inr hfree

/-- Every request that is accepted ends and never has the busy slot from then
on, and the slot is free again and again. -/
theorem every_request_ends (hstart : run.state 0 = start pid) (hlive : Live run) (i : ℕ) :
    (∀ r < (run.state i).workers.length, ∃ j ≥ i, ∀ k ≥ j,
      Returned r (run.state k) ∧ (run.state k).busy ≠ some r) ∧
    ∃ j ≥ i, (run.state j).busy = none := by
  constructor
  · intro r hr
    obtain ⟨j, hij, hended⟩ := eventually_returned hstart hlive hr
    refine ⟨j, hij, fun k hjk => ?_⟩
    have hstill : Returned r (run.state k) :=
      Endless.stays (P := Returned r) (fun _ _ _ => Returned.step) hjk hended
    exact ⟨hstill, hstill.free (run_reachable hstart k)⟩
  · cases hbusy : (run.state i).busy with
    | none => exact ⟨i, le_rfl, hbusy⟩
    | some r =>
        have hnewest := (inv_reachable (run_reachable hstart i)).newest r hbusy
        have hr : r < (run.state i).workers.length := hnewest ▸ Nat.lt_succ_self r
        obtain ⟨j, hij, hended⟩ := eventually_returned hstart hlive hr
        rcases free_between hbusy hij with hstill | hfree
        · exact absurd hstill (hended.free (run_reachable hstart j))
        · exact hfree

end Run

/-- Every request has ended, and no thread has anything to do. -/
structure Resting (s : State) : Prop where
  idle : ∀ u, s.hid u = .idle
  returned : ∀ (r : RequestId) (w : Worker), s.workers[r]? = some w → w.pc = .done

/-- From here on nothing happens but that time goes on. -/
def waiting (s : State) : Endless next where
  state i := {s with now := s.now + i}
  event _ := .tick 1
  step _ := rfl

theorem Resting.no_reader {s : State} (h : Resting s) (u : ThreadId) :
    ¬ Enabled next (hidEvents u) s := by
  rintro ⟨e, ⟨ok, rfl⟩, hsome⟩
  simp [next, h.idle u, HidPc.turn] at hsome

theorem Resting.no_worker {s : State} (h : Resting s) (r : RequestId) :
    ¬ Enabled next (workerEvents r) s := by
  rintro ⟨e, ⟨ok, rfl⟩, hsome⟩
  cases hw : s.workers[r]? with
  | none => simp [next, hw] at hsome
  | some w => simp [next, hw, Worker.turn, h.returned r w hw] at hsome

theorem Resting.live {s : State} (h : Resting s) {run : Endless next} {n : ℕ}
    (hrun : ∀ i, run.state (n + i) = (waiting s).state i) : Live run := by
  have hrest (i : ℕ) : Resting (run.state (n + i)) := by
    rw [hrun]
    exact ⟨h.idle, h.returned⟩
  refine ⟨fun u i henabled => ?_, fun r i henabled => ?_, fun ms => ⟨n + ms, ?_⟩⟩
  · exact absurd (henabled (n + i) (by omega)) ((hrest i).no_reader u)
  · obtain ⟨k, hk, hpossible⟩ := henabled (n + i) (by omega)
    obtain ⟨m, rfl⟩ := Nat.exists_eq_add_of_le (show n ≤ k by omega)
    exact absurd hpossible ((hrest m).no_worker r)
  · rw [hrun]
    exact Nat.le_add_left ..

theorem getInfo_ends : ∃ run : Endless next, run.state 0 = start 1 ∧ Live run ∧
    (run.state 8).busy = some 0 ∧ ∃ j ≥ 8, ∀ k ≥ j,
      Returned 0 (run.state k) ∧ (run.state k).busy ≠ some 0 := by
  obtain ⟨s, t, w, hs, ht, hbusy, hlength, hworkers, hdone, hidle⟩ : ∃ s t w,
      replay next always (start 1) (getInfoEvents.take 8) = some s ∧
        replay next always s (getInfoEvents.drop 8) = some t ∧ s.busy = some 0 ∧
        s.workers.length = 1 ∧ t.workers = [w] ∧ w.pc = .done ∧ ∀ u, t.hid u = .idle := by
    refine ⟨_, _, _, rfl, rfl, rfl, rfl, rfl, rfl, ?_⟩
    rintro (_ | u) <;> rfl
  have hrest : Resting t := by
    refine ⟨hidle, fun r v hv => ?_⟩
    rw [hworkers] at hv
    obtain rfl := List.mem_singleton.mp (List.mem_of_getElem? hv)
    exact hdone
  obtain ⟨run, hrun, htail⟩ := (waiting t).exists_after ht
  obtain ⟨whole, hwhole, hlast⟩ := run.exists_after (hrun.symm ▸ hs)
  have hlive : Live whole := hrest.live (n := 8 + 23) fun i => by
    rw [Nat.add_assoc]
    exact (hlast (23 + i)).trans (htail i)
  have hmiddle : whole.state 8 = s := (hlast 0).trans hrun
  refine ⟨whole, hwhole, hlive, hmiddle ▸ hbusy, ?_⟩
  have hlaw := every_request_ends hwhole hlive 8
  exact hlaw.1 0 (hmiddle ▸ hlength ▸ Nat.zero_lt_one)

end Passkey.Daemon

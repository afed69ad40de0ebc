import Passkey.Phone.Prompts

/-!
The requests of a connection, from the frame that brought them to the reply.
A connection handles what it has read in order, so at every moment the requests
handled, the one in progress and the queue are the requests read, but for those
that `shutdownNow` dropped.
-/

namespace Passkey.Phone.KeyService

open Library

/-! ### What the log says of a connection -/

def Entry.requestOn (c : Owner) : Entry → Option Task
  | .request d task => if d = c then some task else none
  | _ => none

def Entry.handledOn (c : Owner) : Entry → Option (Task × Bytes)
  | .handled d task r => if d = c then some (task, r) else none
  | _ => none

/-- The requests read from the connection, in order. -/
def requested (c : Owner) (log : List Entry) : List Task :=
  log.filterMap (Entry.requestOn c)

/-- The requests that `handle` returned for, with what it returned. -/
def handledOn (c : Owner) (log : List Entry) : List (Task × Bytes) :=
  log.filterMap (Entry.handledOn c)

/-- The task that the worker took and `handle` has not returned for. -/
def Worker.task : Worker → Option Task
  | .entering task | .command task | .opened task _ | .waiting task _ _ | .answered task _ =>
      some task
  | .idle | .replying .. => none

def Conn.tasks (k : Conn) : List Task :=
  k.worker.task.toList ++ k.queue

theorem mem_handledOn {c : Owner} {log : List Entry} {x : Task × Bytes} :
    x ∈ handledOn c log ↔ .handled c x.1 x.2 ∈ log := by
  constructor
  · intro h
    obtain ⟨e, hmem, he⟩ := List.mem_filterMap.mp h
    unfold Entry.handledOn at he
    split at he
    · obtain ⟨rfl, heq⟩ := Option.ite_none_right_eq_some.mp he
      cases heq
      exact hmem
    · cases he
  · intro h
    exact List.mem_filterMap.mpr ⟨_, h, if_pos rfl⟩

/-! ### What a step does to a connection -/

/-- Nothing arrives, is read or written, and the tasks stay. -/
structure Conn.Still (k k' : Conn) : Prop where
  received : k'.received = k.received
  sent : k'.sent = k.sent
  tasks : k'.tasks = k.tasks
  replying : ∀ task r, k'.worker = .replying task r → k.worker = .replying task r
  ended : k.reader = .ended → k'.reader = .ended
  reading : k'.reader ≠ .ended → k.reader ≠ .ended

theorem Conn.Still.refl (k : Conn) : k.Still k :=
  ⟨rfl, rfl, rfl, fun _ _ h => h, id, id⟩

/-- The log gained no request of the connection and no reply to one. -/
def SameLog (c : Owner) (s t : State) : Prop :=
  requested c t.log = requested c s.log ∧ handledOn c t.log = handledOn c s.log

theorem SameLog.of_eq {c : Owner} {s t : State} (h : t.log = s.log) : SameLog c s t := by
  simp [SameLog, h]

theorem SameLog.snoc {c : Owner} {s t : State} {e : Entry} (h : t.log = s.log ++ [e])
    (hrequest : e.requestOn c = none) (hhandled : e.handledOn c = none) : SameLog c s t := by
  simp [SameLog, requested, handledOn, h, hrequest, hhandled]

inductive Traffic (sha : Sha256) (s t : State) (c : Owner) : Event → Prop where
  | quiet {e : Event} (hconn : (s.conn c).Still (t.conn c)) (hlog : SameLog c s t) :
      Traffic sha s t c e
  | arrives {bytes : Bytes}
      (hconn : t.conn c = {s.conn c with received := (s.conn c).received ++ bytes})
      (hlog : t.log = s.log) : Traffic sha s t c (.receive c bytes)
  | drops (hconn : t.conn c = {s.conn c with reader := .ended, queue := []})
      (hlog : t.log = s.log) : Traffic sha s t c (.finallyStep c)
  | request {ok : Bool} {body rest seqNo req : Bytes} (hreading : (s.conn c).reader = .reading)
      (hread : readFrame maxBody (s.conn c).received = .message body rest)
      (hbody : parse body = .req seqNo req) (hconn : t.conn c = {s.conn c with
        received := rest
        requests := (s.conn c).requests + 1
        queue := (s.conn c).queue ++ [⟨(s.conn c).requests, seqNo, req⟩]})
      (hlog : t.log = s.log ++ [.request c ⟨(s.conn c).requests, seqNo, req⟩]) :
      Traffic sha s t c (.serve c ok)
  | ping {ok : Bool} {body rest : Bytes} (hreading : (s.conn c).reader = .reading)
      (hread : readFrame maxBody (s.conn c).received = .message body rest)
      (hbody : parse body = .ping)
      (hconn : t.conn c = {Conn.write {s.conn c with received := rest} [PONG] ok with
        reader := if ok then .reading else .closing})
      (hlog : t.log = s.log) : Traffic sha s t c (.serve c ok)
  | skip {ok : Bool} {body rest : Bytes} (hreading : (s.conn c).reader = .reading)
      (hread : readFrame maxBody (s.conn c).received = .message body rest)
      (hbody : ∀ seqNo req, parse body ≠ .req seqNo req)
      (hconn : Conn.Still {s.conn c with received := rest} (t.conn c)) (hlog : SameLog c s t) :
      Traffic sha s t c (.serve c ok)
  | handles {env : Env} {task : Task} (htask : (s.conn c).worker.task = some task)
      (ht : t = s.leave c task env (handle sha env task.req c s.session.authenticator)) :
      Traffic sha s t c (.finish c env)
  | replies {ok : Bool} {task : Task} {r : Bytes} (hworker : (s.conn c).worker = .replying task r)
      (hlength : r.length + 5 < 2 ^ 31)
      (hconn : t.conn c =
        {(s.conn c).write (response task.seqNo r) ok with worker := .idle})
      (hlog : t.log = s.log) : Traffic sha s t c (.reply c ok)

/-- A step about one connection says nothing about another. -/
theorem traffic_of {sha : Sha256} {s t : State} {c d : Owner} {e : Event}
    (hconn : c ≠ d → t.conn c = s.conn c) (hother : d ≠ c → SameLog c s t)
    (hown : d = c → Traffic sha s t c e) : Traffic sha s t c e := by
  by_cases hd : d = c
  · exact hown hd
  · refine .quiet ?_ (hother hd)
    rw [hconn (Ne.symm hd)]
    exact .refl _

theorem setConn_other {s : State} {c d : Owner} (k : Conn) (h : c ≠ d) :
    (s.setConn d k).conn c = s.conn c := by
  rw [setConn_conn, if_neg h]

theorem requestOn_other {c d : Owner} (h : d ≠ c) (task : Task) :
    (Entry.request d task).requestOn c = none :=
  if_neg h

theorem handledOn_other {c d : Owner} (h : d ≠ c) (task : Task) (r : Bytes) :
    (Entry.handled d task r).handledOn c = none :=
  if_neg h

theorem cancel_still (s : State) (c d : Owner) (seq : Int32) (closed : Bool) :
    (s.conn c).Still ((s.cancel d seq closed).conn c) := by
  change (s.conn c).Still ((s.setConn d {s.conn d with
    cancelled := seq, closed := (s.conn d).closed || closed}).conn c)
  rw [setConn_conn]
  split
  · rename_i hc
    subst hc
    exact ⟨rfl, rfl, rfl, fun _ _ h => h, id, id⟩
  · exact .refl _

theorem cancel_other {s : State} {c d : Owner} {seq : Int32} {closed : Bool}
    (h : c ≠ d) : (s.cancel d seq closed).conn c = s.conn c :=
  setConn_other _ h

theorem setWorker_still {s : State} {c d : Owner} {w : Worker}
    (htask : w.task = (s.conn d).worker.task)
    (hreplying : ∀ task r, w ≠ .replying task r) :
    (s.conn c).Still ((s.setWorker d w).conn c) := by
  rw [State.setWorker, setConn_conn]
  split
  · rename_i hc
    subst hc
    refine ⟨rfl, rfl, ?_, fun task r h => absurd h (hreplying task r), id, id⟩
    simp [Conn.tasks, htask]
  · exact .refl _

theorem traffic_serve {sha : Sha256} {s t : State} {c d : Owner} {ok : Bool}
    (h : s.serve d ok = some t) : Traffic sha s t c (.serve d ok) := by
  unfold State.serve at h
  split at h
  · rename_i hreading
    split at h
    · cases h
    · cases h
      refine traffic_of (setConn_other _) (fun _ => .of_eq rfl) fun hd => ?_
      subst hd
      refine .quiet ?_ (.of_eq rfl)
      rw [setConn_same]
      exact ⟨rfl, rfl, rfl, fun _ _ h => h, fun hended => by simp [hended] at hreading, by
        simp [hreading]⟩
    · rename_i body rest hread
      obtain rfl := Option.some.inj h
      generalize hs' : s.setConn d {s.conn d with received := rest} = s'
      have hlog' : s'.log = s.log := by
        rw [← hs']
        rfl
      have hown : s'.conn d = {s.conn d with received := rest} := by
        rw [← hs', setConn_same]
      have hothers (hc : c ≠ d) : s'.conn c = s.conn c := by
        rw [← hs', setConn_other _ hc]
      cases hbody : parse body with
      | ping =>
          refine traffic_of (fun hc => (setConn_other _ hc).trans (hothers hc))
            (fun _ => .of_eq hlog') fun hd => ?_
          subst hd
          refine .ping hreading hread hbody ?_ hlog'
          rw [State.read, setConn_same, hown]
      | cancel seq =>
          have hlog : (s'.cancel d seq false).log = s.log ++ [.cancel d seq false] := by
            rw [← hlog']
            rfl
          refine traffic_of (fun hc => (cancel_other hc).trans (hothers hc))
            (fun _ => .snoc hlog rfl rfl) fun hd => ?_
          subst hd
          exact .skip hreading hread (by simp [hbody]) (hown ▸ cancel_still ..)
            (.snoc hlog rfl rfl)
      | req seqNo req =>
          refine traffic_of (fun hc => (setConn_other _ hc).trans (hothers hc))
            (fun hd => .snoc (by rw [← hlog']; rfl) (requestOn_other hd _) rfl) fun hd => ?_
          subst hd
          refine .request hreading hread hbody ?_ ?_
          · change (s'.setConn d _).conn d = _
            rw [setConn_same, hown]
          · change s'.log ++ [_] = _
            rw [hlog', hown]
      | unknown =>
          refine traffic_of hothers (fun _ => .of_eq hlog') fun hd => ?_
          subst hd
          refine .skip hreading hread (by simp [hbody]) ?_ (.of_eq hlog')
          change Conn.Still _ (s'.conn d)
          rw [hown]
          exact .refl _
  · cases h

theorem traffic_finally {sha : Sha256} {s t : State} {c d : Owner}
    (h : s.finallyStep d = some t) : Traffic sha s t c (.finallyStep d) := by
  unfold State.finallyStep at h
  split at h
  · rename_i hreader
    cases h
    have hlog : SameLog c s ((s.setConn d {s.conn d with reader := .stopping}).cancel d 0 true) :=
      .snoc rfl rfl rfl
    refine traffic_of (fun hc => (cancel_other hc).trans (setConn_other _ hc)) (fun _ => hlog)
      fun hd => ?_
    subst hd
    refine .quiet ?_ hlog
    have hstill := cancel_still (s.setConn d {s.conn d with reader := .stopping}) d d 0 true
    rw [setConn_same] at hstill
    exact ⟨hstill.received, hstill.sent, hstill.tasks, hstill.replying,
      fun hended => by simp [hended] at hreader, fun _ => by simp [hreader]⟩
  · cases h
    refine traffic_of (setConn_other _) (fun _ => .of_eq rfl) fun hd => ?_
    subst hd
    exact .drops (setConn_same ..) rfl
  · cases h

/-- A worker that goes on with its task. -/
theorem traffic_setWorker {sha : Sha256} {s t : State} {c d : Owner} {w : Worker} {e : Event}
    {task : Task} (hconn : t.conn = (s.setWorker d w).conn) (hlog : SameLog c s t)
    (hbefore : (s.conn d).worker.task = some task) (hafter : w.task = some task) :
    Traffic sha s t c e := by
  refine .quiet ?_ hlog
  rw [hconn]
  refine setWorker_still (hafter.trans hbefore.symm) fun task' r hw => ?_
  rw [hw] at hafter
  cases hafter

theorem traffic_wake {sha : Sha256} {s : State} {c d : Owner} {task : Task} {id deadline : Int}
    {interrupted : Bool} {e : Event} (htask : (s.conn d).worker.task = some task) :
    Traffic sha s (s.wake d task id deadline interrupted) c e := by
  unfold State.wake
  split
  · exact traffic_setWorker rfl (.of_eq rfl) htask rfl
  · exact traffic_setWorker rfl (.snoc rfl rfl rfl) htask rfl

/-- `handle` returns, and the worker has the reply. -/
theorem traffic_leave {sha : Sha256} {s : State} {c d : Owner} {task : Task} {env : Env}
    (htask : (s.conn d).worker.task = some task) :
    Traffic sha s (s.leave d task env (handle sha env task.req d s.session.authenticator)) c
      (.finish d env) := by
  refine traffic_of (setConn_other _) (fun hd => .snoc rfl rfl (handledOn_other hd _ _))
    fun hd => ?_
  subst hd
  exact .handles htask rfl

theorem traffic_finish {sha : Sha256} {s t : State} {c d : Owner} {env : Env}
    (h : s.finish sha d env = some t) : Traffic sha s t c (.finish d env) := by
  unfold State.finish at h
  split at h
  · rename_i task hworker
    obtain ⟨-, heq⟩ := Option.ite_none_left_eq_some.mp h
    cases heq
    exact traffic_leave (by rw [hworker]; rfl)
  · rename_i task status hworker
    obtain ⟨-, heq⟩ := Option.ite_none_right_eq_some.mp h
    cases heq
    exact traffic_leave (by rw [hworker]; rfl)
  · cases h

/-- An answer and what the activities do leave the connections alone. -/
theorem traffic_aside {sha : Sha256} {s t : State} {c : Owner} {e : Event}
    (hconn : t.conn = s.conn) (hlog : SameLog c s t) : Traffic sha s t c e :=
  .quiet (hconn ▸ .refl _) hlog

theorem traffic_answer {sha : Sha256} {s s' : State} {c : Owner} {e : Event} {id status : Int}
    (hconn : s'.conn = s.conn) (hlog : s'.log = s.log) :
    Traffic sha s (s'.answer id status) c e := by
  unfold State.answer
  split
  · exact traffic_aside hconn (.of_eq hlog)
  · exact traffic_aside hconn (@SameLog.snoc c s _ (.answered id status)
      (congrArg (· ++ [Entry.answered id status]) hlog) rfl rfl)

theorem traffic_report {sha : Sha256} {s t : State} {c : Owner} {e : Event} {a : ActivityId}
    {status : Int} (h : s.report a status = some t) : Traffic sha s t c e := by
  unfold State.report at h
  split at h
  · obtain ⟨-, heq⟩ := Option.ite_none_left_eq_some.mp h
    cases heq
    exact traffic_answer rfl rfl
  · cases h

theorem traffic_cases {sha : Sha256} {s t : State} {e : Event} (h : next sha s e = some t)
    (c : Owner) : Traffic sha s t c e := by
  cases e with
  | receive d bytes =>
      cases h
      refine traffic_of (setConn_other _) (fun _ => .of_eq rfl) fun hd => ?_
      subst hd
      exact .arrives (setConn_same ..) rfl
  | serve d ok => exact traffic_serve h
  | endServe d =>
      obtain ⟨hreading, heq⟩ := Option.ite_none_right_eq_some.mp h
      cases heq
      refine traffic_of (setConn_other _) (fun _ => .of_eq rfl) fun hd => ?_
      subst hd
      refine .quiet ?_ (.of_eq rfl)
      rw [setConn_same]
      exact ⟨rfl, rfl, rfl, fun _ _ h => h, fun hended => by simp [hended] at hreading, by
        simp [hreading]⟩
  | finallyStep d => exact traffic_finally h
  | execute d =>
      simp only [next, State.execute] at h
      split at h
      · rename_i task rest hworker hqueue
        cases h
        refine traffic_of (setConn_other _) (fun _ => .of_eq rfl) fun hd => ?_
        subst hd
        refine .quiet ?_ (.of_eq rfl)
        rw [setConn_same]
        exact ⟨rfl, rfl, by simp [Conn.tasks, Worker.task, hworker, hqueue], by simp, id, id⟩
      · cases h
  | enter d =>
      simp only [next, State.enter] at h
      split at h
      · rename_i task hworker hfree
        cases h
        exact traffic_setWorker rfl (.of_eq rfl) (by rw [hworker]; rfl) rfl
      · cases h
  | confirm d =>
      simp only [next, State.confirm] at h
      split at h
      · rename_i task hworker
        have htask : (s.conn d).worker.task = some task := by
          rw [hworker]
          rfl
        split at h
        · cases h
          exact traffic_setWorker rfl (.snoc rfl rfl rfl) htask rfl
        · cases h
          exact traffic_setWorker rfl (.snoc rfl rfl rfl) htask rfl
      · cases h
  | awaitAnswer d interrupted =>
      simp only [next, State.awaitAnswer] at h
      split at h
      · rename_i task id hworker
        cases h
        exact traffic_wake (by rw [hworker]; rfl)
      · rename_i task id deadline hworker
        cases h
        exact traffic_wake (by rw [hworker]; rfl)
      · cases h
  | finish d env => exact traffic_finish h
  | reply d ok =>
      simp only [next, State.reply] at h
      split at h
      · rename_i task r hworker
        obtain ⟨hlength, heq⟩ := Option.ite_none_left_eq_some.mp h
        cases heq
        refine traffic_of (setConn_other _) (fun _ => .of_eq rfl) fun hd => ?_
        subst hd
        refine .replies hworker ?_ (setConn_same ..) rfl
        simp only [Bool.or_eq_true, decide_eq_true_eq, not_or, Nat.not_le] at hlength
        exact hlength.1
      · cases h
  | create id =>
      obtain ⟨-, heq⟩ := Option.ite_none_right_eq_some.mp h
      cases heq
      exact traffic_aside rfl (.of_eq rfl)
  | approve a => exact traffic_report h
  | deny a => exact traffic_report h
  | abort a =>
      obtain ⟨-, heq⟩ := Option.ite_none_right_eq_some.mp h
      cases heq
      exact traffic_aside rfl (.of_eq rfl)
  | destroy a =>
      simp only [next, State.destroy] at h
      split at h
      · split at h
        · cases h
          exact traffic_aside rfl (.of_eq rfl)
        · cases h
          exact traffic_aside rfl (.of_eq rfl)
      · cases h
  | reject id =>
      obtain ⟨-, heq⟩ := Option.ite_none_right_eq_some.mp h
      cases heq
      exact traffic_answer rfl rfl
  | clock now =>
      cases h
      exact traffic_aside rfl (.of_eq rfl)

/-! ### The order of the requests -/

/-- The requests of a connection are handled in the order they were read. -/
structure Serving (s : State) (c : Owner) : Prop where
  /-- As long as the queue was not dropped, no request is missing. -/
  whole : (s.conn c).reader ≠ .ended →
    (handledOn c s.log).map Prod.fst ++ (s.conn c).tasks = requested c s.log
  order : (handledOn c s.log).map Prod.fst ++ (s.conn c).tasks <+: requested c s.log
  replying : ∀ task r, (s.conn c).worker = .replying task r → (task, r) ∈ handledOn c s.log

theorem serving_start (store : Store) (keys : List Bytes) (c : Owner) :
    Serving (start store keys) c :=
  ⟨fun _ => rfl, List.prefix_rfl, by simp [start]⟩

/-- A step that leaves the tasks and the log of the connection alone. -/
theorem Serving.keep {s t : State} {c : Owner} (h : Serving s c) (hlog : SameLog c s t)
    (htasks : (t.conn c).tasks = (s.conn c).tasks)
    (hreading : (t.conn c).reader ≠ .ended → (s.conn c).reader ≠ .ended)
    (hreplying : ∀ task r, (t.conn c).worker = .replying task r →
      (s.conn c).worker = .replying task r) : Serving t c where
  whole hne := by
    rw [hlog.1, hlog.2, htasks]
    exact h.whole (hreading hne)
  order := by
    rw [hlog.1, hlog.2, htasks]
    exact h.order
  replying task r hworker := by
    rw [hlog.2]
    exact h.replying task r (hreplying task r hworker)

theorem requested_snoc (c : Owner) (log : List Entry) (e : Entry) :
    requested c (log ++ [e]) = requested c log ++ (e.requestOn c).toList := by
  cases h : e.requestOn c <;> simp [requested, h]

theorem handledOn_snoc (c : Owner) (log : List Entry) (e : Entry) :
    handledOn c (log ++ [e]) = handledOn c log ++ (e.handledOn c).toList := by
  cases h : e.handledOn c <;> simp [handledOn, h]

theorem write_tasks (k : Conn) (body : Bytes) (ok : Bool) :
    (k.write body ok).tasks = k.tasks ∧ (k.write body ok).worker = k.worker ∧
      (k.write body ok).reader = k.reader := by
  unfold Conn.write
  split <;> exact ⟨rfl, rfl, rfl⟩

theorem Serving.request {s t : State} {c : Owner} (h : Serving s c) {task : Task}
    (hreading : (s.conn c).reader = .reading)
    (htasks : (t.conn c).tasks = (s.conn c).tasks ++ [task])
    (hworker : (t.conn c).worker = (s.conn c).worker)
    (hlog : t.log = s.log ++ [.request c task]) : Serving t c := by
  have hopen : (s.conn c).reader ≠ .ended := by simp [hreading]
  have hrequested : requested c t.log = requested c s.log ++ [task] := by
    rw [hlog, requested_snoc]
    simp [Entry.requestOn]
  have hhandled : handledOn c t.log = handledOn c s.log := by
    rw [hlog, handledOn_snoc]
    simp [Entry.handledOn]
  have hall : (handledOn c t.log).map Prod.fst ++ (t.conn c).tasks = requested c t.log := by
    rw [hhandled, htasks, hrequested, ← List.append_assoc, h.whole hopen]
  exact ⟨fun _ => hall, hall ▸ List.prefix_rfl, fun task r hr =>
    hhandled ▸ h.replying task r (hworker ▸ hr)⟩

theorem Serving.handle {s t : State} {c : Owner} (h : Serving s c) {task : Task} {r : Bytes}
    (htask : (s.conn c).worker.task = some task)
    (hconn : t.conn c = {s.conn c with worker := .replying task r})
    (hlog : t.log = s.log ++ [.handled c task r]) : Serving t c := by
  have hrequested : requested c t.log = requested c s.log := by
    rw [hlog, requested_snoc]
    simp [Entry.requestOn]
  have hhandled : handledOn c t.log = handledOn c s.log ++ [(task, r)] := by
    rw [hlog, handledOn_snoc]
    simp [Entry.handledOn]
  have hmoved : (handledOn c t.log).map Prod.fst ++ (t.conn c).tasks =
      (handledOn c s.log).map Prod.fst ++ (s.conn c).tasks := by
    have htasks : (t.conn c).tasks = (s.conn c).queue := by
      rw [hconn]
      rfl
    rw [htasks, hhandled, Conn.tasks, htask]
    simp
  refine ⟨fun hne => ?_, ?_, fun task' r' hworker => ?_⟩
  · rw [hmoved, hrequested]
    exact h.whole (by simpa [hconn] using hne)
  · rw [hmoved, hrequested]
    exact h.order
  · rw [hconn] at hworker
    cases hworker
    rw [hhandled]
    exact List.mem_append_right _ (List.mem_singleton_self _)

theorem Serving.step {sha : Sha256} {s t : State} {c : Owner} {e : Event} (h : Serving s c)
    (htraffic : Traffic sha s t c e) : Serving t c := by
  cases htraffic with
  | quiet hconn hlog => exact h.keep hlog hconn.tasks hconn.reading hconn.replying
  | arrives hconn hlog =>
      exact h.keep (.of_eq hlog) (by rw [hconn]; rfl) (by simp [hconn]) (by simp [hconn])
  | drops hconn hlog =>
      obtain ⟨hrequested, hhandled⟩ := SameLog.of_eq (c := c) hlog
      refine ⟨by simp [hconn], ?_, fun task r hworker => ?_⟩
      · rw [hrequested, hhandled]
        refine List.IsPrefix.trans ?_ h.order
        exact ⟨(s.conn c).queue, by simp [hconn, Conn.tasks]⟩
      · rw [hhandled]
        exact h.replying task r (by simpa [hconn] using hworker)
  | request hreading hread hbody hconn hlog =>
      exact h.request hreading (by simp [hconn, Conn.tasks]) (by rw [hconn]) hlog
  | @ping ok body rest hreading hread hbody hconn hlog =>
      obtain ⟨htasks, hworker, -⟩ := write_tasks {s.conn c with received := rest} [PONG] ok
      refine h.keep (.of_eq hlog) ?_ (fun _ => by simp [hreading]) fun task r hr => ?_
      · rw [hconn]
        exact htasks
      · rw [hconn] at hr
        exact hworker ▸ hr
  | skip hreading hread hbody hconn hlog =>
      exact h.keep hlog hconn.tasks hconn.reading hconn.replying
  | handles htask ht => exact h.handle htask (by rw [ht]; exact setConn_same ..) (by rw [ht]; rfl)
  | @replies ok task r hworker hlength hconn hlog =>
      obtain ⟨htasks, -, hreader⟩ := write_tasks (s.conn c) (response task.seqNo r) ok
      refine h.keep (.of_eq hlog) ?_ (fun hne => ?_) fun task r hr => ?_
      · rw [hconn]
        have hqueue : ((s.conn c).write (response task.seqNo r) ok).queue = (s.conn c).queue := by
          unfold Conn.write
          split <;> rfl
        simp [Conn.tasks, hqueue, hworker, Worker.task]
      · rw [hconn] at hne
        exact hreader ▸ hne
      · rw [hconn] at hr
        cases hr

theorem serving_reachable {sha : Sha256} {store : Store} {keys : List Bytes} {s : State}
    (h : Reach (next sha) always (start store keys) s) (c : Owner) : Serving s c :=
  h.invariant (I := fun s => Serving s c) (serving_start store keys c)
    fun _ _ _ hs _ hnext => hs.step (traffic_cases hnext c)

/-! ### The calls of `handle` -/

def Entry.call : Entry → Option (Owner × Bytes × Bytes)
  | .handled c task r => some (c, task.req, r)
  | _ => none

/-- The log and the session tell the same calls. -/
structure Recounted (sha : Sha256) (store : Store) (keys : List Bytes) (s : State) : Prop where
  session : Reach (Session.next sha) always ⟨.fresh store keys, []⟩ s.session
  calls : s.log.filterMap Entry.call =
    s.session.history.map fun x => (x.1.owner, x.1.req, x.2.reply.bytes)

/-- A step makes no call, or it is the one in which `handle` returns. -/
inductive CallStep (sha : Sha256) (s t : State) : Prop where
  | none (hsession : t.session = s.session)
      (hcalls : t.log.filterMap Entry.call = s.log.filterMap Entry.call)
  | leave {c : Owner} {task : Task} {env : Env}
      (ht : t = s.leave c task env (handle sha env task.req c s.session.authenticator))

theorem CallStep.quiet {sha : Sha256} {s t : State} (hsession : t.session = s.session)
    (hlog : t.log = s.log) : CallStep sha s t :=
  .none hsession (by rw [hlog])

theorem CallStep.snoc {sha : Sha256} {s t : State} {e : Entry} (hsession : t.session = s.session)
    (hlog : t.log = s.log ++ [e]) (he : e.call = Option.none) : CallStep sha s t :=
  .none hsession (by simp [hlog, he])

theorem callStep_answer {sha : Sha256} {s s' : State} {id status : Int}
    (hsession : s'.session = s.session) (hlog : s'.log = s.log) :
    CallStep sha s (s'.answer id status) := by
  unfold State.answer
  split
  · exact .quiet hsession hlog
  · exact @CallStep.snoc sha s _ (.answered id status) hsession
      (congrArg (· ++ [Entry.answered id status]) hlog) rfl

theorem callStep_report {sha : Sha256} {s t : State} {a : ActivityId} {status : Int}
    (h : s.report a status = some t) : CallStep sha s t := by
  unfold State.report at h
  split at h
  · obtain ⟨-, heq⟩ := Option.ite_none_left_eq_some.mp h
    cases heq
    exact callStep_answer rfl rfl
  · cases h

theorem callStep_wake {sha : Sha256} {s : State} {c : Owner} {task : Task} {id deadline : Int}
    {interrupted : Bool} : CallStep sha s (s.wake c task id deadline interrupted) := by
  unfold State.wake
  split
  · exact .quiet rfl rfl
  · exact .snoc rfl rfl rfl

theorem callStep_cases {sha : Sha256} {s t : State} {e : Event} (h : next sha s e = some t) :
    CallStep sha s t := by
  cases e with
  | serve c ok =>
      simp only [next, State.serve] at h
      split at h
      · split at h
        · cases h
        · cases h
          exact .quiet rfl rfl
        · obtain rfl := Option.some.inj h
          unfold State.read
          split
          · exact .quiet rfl rfl
          · exact .snoc rfl rfl rfl
          · exact .snoc rfl rfl rfl
          · exact .quiet rfl rfl
      · cases h
  | finallyStep c =>
      simp only [next, State.finallyStep] at h
      split at h
      · cases h
        exact .snoc rfl rfl rfl
      · cases h
        exact .quiet rfl rfl
      · cases h
  | confirm c =>
      simp only [next, State.confirm] at h
      split at h
      · split at h
        · cases h
          exact .snoc rfl rfl rfl
        · cases h
          exact .snoc rfl rfl rfl
      · cases h
  | awaitAnswer c interrupted =>
      simp only [next, State.awaitAnswer] at h
      split at h
      · cases h
        exact callStep_wake
      · cases h
        exact callStep_wake
      · cases h
  | finish c env =>
      simp only [next, State.finish] at h
      split at h
      · obtain ⟨-, heq⟩ := Option.ite_none_left_eq_some.mp h
        exact .leave (Option.some.inj heq).symm
      · obtain ⟨-, heq⟩ := Option.ite_none_right_eq_some.mp h
        exact .leave (Option.some.inj heq).symm
      · cases h
  | approve a => exact callStep_report h
  | deny a => exact callStep_report h
  | reject id =>
      obtain ⟨-, heq⟩ := Option.ite_none_right_eq_some.mp h
      cases heq
      exact callStep_answer rfl rfl
  | reply c ok =>
      simp only [next, State.reply] at h
      split at h
      · obtain ⟨-, heq⟩ := Option.ite_none_left_eq_some.mp h
        cases heq
        exact .quiet rfl rfl
      · cases h
  | execute c | enter c =>
      simp only [next, State.execute, State.enter] at h
      split at h
      · cases h
        exact .quiet rfl rfl
      · cases h
  | destroy a =>
      simp only [next, State.destroy] at h
      split at h
      · split at h
        all_goals
          cases h
          exact .quiet rfl rfl
      · cases h
  | endServe c | create id | abort a =>
      obtain ⟨-, heq⟩ := Option.ite_none_right_eq_some.mp h
      cases heq
      exact .quiet rfl rfl
  | receive c bytes | clock now =>
      cases h
      exact .quiet rfl rfl

theorem Recounted.step {sha : Sha256} {store : Store} {keys : List Bytes} {s t : State}
    (h : Recounted sha store keys s) (hstep : CallStep sha s t) : Recounted sha store keys t := by
  cases hstep with
  | none hsession hcalls => exact ⟨hsession ▸ h.session, by rw [hcalls, hsession, h.calls]⟩
  | @leave c task env ht =>
      subst ht
      refine ⟨@Reach.tail _ _ _ _ _ _ _ (State.call c task env) h.session trivial rfl, ?_⟩
      change (s.log ++ [_]).filterMap Entry.call = (s.session.history ++ [_]).map _
      rw [List.filterMap_append, h.calls, List.map_append]
      rfl

theorem recounted_reachable {sha : Sha256} {store : Store} {keys : List Bytes} {s : State}
    (h : Reach (next sha) always (start store keys) s) : Recounted sha store keys s :=
  h.invariant ⟨.refl, rfl⟩ fun _ _ _ hs _ hnext => hs.step (callStep_cases hnext)

/-- What the log has of a request is a call of `handle`. -/
theorem Recounted.handled {sha : Sha256} {store : Store} {keys : List Bytes} {s : State}
    (h : Recounted sha store keys s) {c : Owner} {task : Task} {r : Bytes}
    (hmem : .handled c task r ∈ s.log) : ∃ x ∈ s.session.history,
      x.1.owner = c ∧ x.1.req = task.req ∧ x.2.reply.bytes = r := by
  have hcall : (c, task.req, r) ∈ s.log.filterMap Entry.call :=
    List.mem_filterMap.mpr ⟨_, hmem, rfl⟩
  rw [h.calls] at hcall
  obtain ⟨x, hx, heq⟩ := List.mem_map.mp hcall
  simp only [Prod.mk.injEq] at heq
  exact ⟨x, hx, heq⟩

end Passkey.Phone.KeyService

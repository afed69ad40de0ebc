import Passkey.Library.Histories
import Passkey.Phone.KeyService

/-!
The prompt is a set of fields that every thread of the service shares. What
first ends a prompt decides what its `confirm` call returns; answers for older
prompts and cancels of other connections leave it alone.
-/

namespace Passkey.Phone.KeyService

open Library

/-- The prompt that the worker's `confirm` call was given. -/
def Worker.prompt : Worker → Option (Task × Int)
  | .opened t id | .waiting t id _ => some (t, id)
  | _ => none

/-- The prompt id that an answer carries. -/
def Event.answers (s : State) : Event → Option Int
  | .approve a | .deny a => s.activities[a]?.map (·.id)
  | .reject id => some id
  | _ => none

/-- The connection whose reader takes the step. -/
def Event.reader : Event → Option Owner
  | .receive c _ | .serve c _ | .endServe c | .finallyStep c => some c
  | _ => none

/-! ### What one step can do -/

@[simp] theorem setConn_prompt (s : State) (c : Owner) (k : Conn) :
    (s.setConn c k).prompt = s.prompt := rfl

@[simp] theorem setConn_monitor (s : State) (c : Owner) (k : Conn) :
    (s.setConn c k).monitor = s.monitor := rfl

@[simp] theorem setConn_log (s : State) (c : Owner) (k : Conn) :
    (s.setConn c k).log = s.log := rfl

@[simp] theorem setConn_posted (s : State) (c : Owner) (k : Conn) :
    (s.setConn c k).posted = s.posted := rfl

theorem setConn_conn (s : State) (c d : Owner) (k : Conn) :
    (s.setConn c k).conn d = if d = c then k else s.conn d := by
  simp [State.setConn, Function.update_apply]

@[simp] theorem setConn_same (s : State) (c : Owner) (k : Conn) : (s.setConn c k).conn c = k := by
  simp [setConn_conn]

/-- The fields of a prompt but for the activity that shows it. -/
def Prompt.Same (p q : Prompt) : Prop :=
  q = {p with shown := q.shown}

/-- The prompt ids of the activities came from `confirm`. -/
def State.Issued (s : State) : Prop :=
  ∀ a ∈ s.activities, 1 ≤ a.id

/-- What the steps of `serve` that read no REQ and no CANCEL leave alone, and
those of the activities that do not answer. -/
structure Aside (s t : State) : Prop where
  prompt : s.prompt.Same t.prompt
  monitor : t.monitor = s.monitor
  log : t.log = s.log
  worker : ∀ c, (t.conn c).worker = (s.conn c).worker
  cancelled : ∀ c, (t.conn c).cancelled = (s.conn c).cancelled
  closed : ∀ c, (t.conn c).closed = (s.conn c).closed
  requests : ∀ c, (t.conn c).requests = (s.conn c).requests
  queue : ∀ c, ∀ task ∈ (t.conn c).queue, task ∈ (s.conn c).queue
  issued : s.Issued → t.Issued

theorem Prompt.Same.refl (p : Prompt) : p.Same p := rfl

/-- A step that sets fields of a connection which nothing here looks at. -/
theorem aside_setConn {s : State} {c : Owner} {k : Conn}
    (hworker : k.worker = (s.conn c).worker) (hcancelled : k.cancelled = (s.conn c).cancelled)
    (hclosed : k.closed = (s.conn c).closed) (hrequests : k.requests = (s.conn c).requests)
    (hqueue : ∀ task ∈ k.queue, task ∈ (s.conn c).queue) : Aside s (s.setConn c k) := by
  refine ⟨.refl _, rfl, rfl, fun d => ?_, fun d => ?_, fun d => ?_, fun d => ?_, fun d => ?_, id⟩
  all_goals
    rw [setConn_conn]
    split
  all_goals simp_all

theorem Aside.trans {s t u : State} (h : Aside s t) (h' : Aside t u) : Aside s u where
  prompt := by
    have heq : u.prompt = {t.prompt with shown := u.prompt.shown} := h'.prompt
    have heq' : t.prompt = {s.prompt with shown := t.prompt.shown} := h.prompt
    rw [heq'] at heq
    exact heq
  monitor := h'.monitor.trans h.monitor
  log := h'.log.trans h.log
  worker c := (h'.worker c).trans (h.worker c)
  cancelled c := (h'.cancelled c).trans (h.cancelled c)
  closed c := (h'.closed c).trans (h.closed c)
  requests c := (h'.requests c).trans (h.requests c)
  queue c task htask := h.queue c task (h'.queue c task htask)
  issued := h'.issued ∘ h.issued

/-- A step that leaves the connections alone. -/
theorem aside_prompt {s t : State} (hprompt : s.prompt.Same t.prompt)
    (hmonitor : t.monitor = s.monitor) (hlog : t.log = s.log) (hconn : t.conn = s.conn)
    (hissued : s.Issued → t.Issued) : Aside s t := by
  refine ⟨hprompt, hmonitor, hlog, fun c => ?_, fun c => ?_, fun c => ?_, fun c => ?_,
    fun c task htask => ?_, hissued⟩
  all_goals first | rw [hconn] | exact hconn ▸ htask

theorem aside_write (s : State) (c : Owner) (body : Bytes) (ok : Bool) (reader : Reader) :
    Aside s (s.setConn c {(s.conn c).write body ok with reader := reader}) := by
  unfold Conn.write
  split
  all_goals exact aside_setConn rfl rfl rfl rfl fun _ => id

theorem attach_same (p : Prompt) (id : Int) (a : ActivityId) : p.Same (p.attach id a) := by
  unfold Prompt.attach
  split <;> rfl

theorem detach_same (p : Prompt) (id : Int) (a : ActivityId) : p.Same (p.detach id a) := by
  unfold Prompt.detach
  split <;> rfl

/-- A step of the service. -/
inductive Step (sha : Sha256) (s : State) : Event → State → Prop where
  | aside {e : Event} {t : State} (h : Aside s t) : Step sha s e t
  | request {c : Owner} {ok : Bool} {s' : State} {seqNo req : Bytes} (h : Aside s s') :
      Step sha s (.serve c ok) (s'.read c ok (.req seqNo req))
  | cancel {e : Event} {c : Owner} {seq : Int32} {closed : Bool} {s' : State} (h : Aside s s')
      (he : e = .finallyStep c ∧ closed = true ∨
        ∃ ok body rest, e = .serve c ok ∧ closed = false ∧
          readFrame maxBody (s.conn c).received = .message body rest ∧ parse body = .cancel seq) :
      Step sha s e (s'.cancel c seq closed)
  | execute {c : Owner} {task : Task} {rest : List Task} (hworker : (s.conn c).worker = .idle)
      (hqueue : (s.conn c).queue = task :: rest) :
      Step sha s (.execute c) (s.setConn c {s.conn c with queue := rest, worker := .entering task})
  | enter {c : Owner} {task : Task} (hworker : (s.conn c).worker = .entering task)
      (hfree : s.monitor = none) :
      Step sha s (.enter c) {s.setWorker c (.command task) with monitor := some c}
  | refuse {c : Owner} {task : Task} (hworker : (s.conn c).worker = .command task)
      (hgone : (s.conn c).closed = true ∨ (s.conn c).cancelled = task.reqSeq) :
      Step sha s (.confirm c)
        ((s.setWorker c (.answered task Status.keepaliveCancel)).note (.refused c task))
  | opens {c : Owner} {task : Task} (hworker : (s.conn c).worker = .command task)
      (hclosed : (s.conn c).closed = false) (hcancelled : (s.conn c).cancelled ≠ task.reqSeq) :
      Step sha s (.confirm c) (s.openPrompt c task)
  | wait {c : Owner} {task : Task} {id : Int} {deadline : Int} {interrupted : Bool}
      (hworker : (s.conn c).worker.prompt = some (task, id)) :
      Step sha s (.awaitAnswer c interrupted) (s.setWorker c (.waiting task id deadline))
  | close {c : Owner} {task : Task} {id : Int} {interrupted : Bool}
      (hworker : (s.conn c).worker.prompt = some (task, id)) :
      Step sha s (.awaitAnswer c interrupted) (s.closePrompt c task id)
  | leave {c : Owner} {task : Task} {env : Env}
      (hworker : (s.conn c).worker = .command task ∨
        (s.conn c).worker = .answered task env.decision) :
      Step sha s (.finish c env)
        (s.leave c task env (handle sha env task.req c s.session.authenticator))
  | reply {c : Owner} {ok : Bool} {task : Task} {r : Bytes}
      (hworker : (s.conn c).worker = .replying task r) :
      Step sha s (.reply c ok)
        (s.setConn c {(s.conn c).write (response task.seqNo r) ok with worker := .idle})
  | answer {e : Event} {id : Int} {status : Int} {s' : State} (h : Aside s s')
      (hprompt : s'.prompt = s.prompt) (he : e.answers s = some id)
      (hissued : s.Issued → 1 ≤ id) (hid : id = s.prompt.current) :
      Step sha s e ({s' with prompt := {s.prompt with result := status, current := -1}}.note
        (.answered id status))

/-! Each function of the service, as steps. -/

theorem serve_cases {sha : Sha256} {s t : State} {c : Owner} {ok : Bool}
    (h : s.serve c ok = some t) : Step sha s (.serve c ok) t := by
  unfold State.serve at h
  split at h
  · split at h
    · cases h
    · cases h
      exact .aside (aside_setConn rfl rfl rfl rfl fun _ => id)
    · rename_i body rest hread
      have haside : Aside s (s.setConn c {s.conn c with received := rest}) :=
        aside_setConn rfl rfl rfl rfl fun _ => id
      obtain rfl := Option.some.inj h
      cases hbody : parse body with
      | ping => exact .aside (haside.trans (aside_write ..))
      | cancel seq => exact .cancel haside (.inr ⟨ok, body, rest, rfl, rfl, hread, hbody⟩)
      | req seqNo req => exact .request haside
      | unknown => exact .aside haside
  · cases h

theorem finallyStep_cases {sha : Sha256} {s t : State} {c : Owner}
    (h : s.finallyStep c = some t) : Step sha s (.finallyStep c) t := by
  unfold State.finallyStep at h
  split at h
  · cases h
    exact .cancel (aside_setConn rfl rfl rfl rfl fun _ => id) (.inl ⟨rfl, rfl⟩)
  · cases h
    exact .aside (aside_setConn rfl rfl rfl rfl (by simp))
  · cases h

theorem confirm_cases {sha : Sha256} {s t : State} {c : Owner} (h : s.confirm c = some t) :
    Step sha s (.confirm c) t := by
  unfold State.confirm at h
  split at h
  · rename_i task hworker
    split at h
    · rename_i hgone
      cases h
      exact .refuse hworker (by simpa using hgone)
    · rename_i hgone
      simp only [Bool.or_eq_true, decide_eq_true_eq, not_or, Bool.not_eq_true] at hgone
      cases h
      exact .opens hworker hgone.1 hgone.2
  · cases h

theorem wake_cases {sha : Sha256} {s : State} {c : Owner} {task : Task} {id : Int}
    {deadline : Int} {interrupted : Bool} (hworker : (s.conn c).worker.prompt = some (task, id)) :
    Step sha s (.awaitAnswer c interrupted) (s.wake c task id deadline interrupted) := by
  unfold State.wake
  split
  · exact .wait hworker
  · exact .close hworker

theorem awaitAnswer_cases {sha : Sha256} {s t : State} {c : Owner} {interrupted : Bool}
    (h : s.awaitAnswer c interrupted = some t) : Step sha s (.awaitAnswer c interrupted) t := by
  unfold State.awaitAnswer at h
  split at h
  · rename_i task id hworker
    cases h
    exact wake_cases (by rw [hworker]; rfl)
  · rename_i task id deadline hworker
    cases h
    exact wake_cases (by rw [hworker]; rfl)
  · cases h

theorem finish_cases {sha : Sha256} {s t : State} {c : Owner} {env : Env}
    (h : s.finish sha c env = some t) : Step sha s (.finish c env) t := by
  unfold State.finish at h
  split at h
  · rename_i task hworker
    obtain ⟨-, heq⟩ := Option.ite_none_left_eq_some.mp h
    cases heq
    exact .leave (.inl hworker)
  · rename_i task status hworker
    obtain ⟨hasked, heq⟩ := Option.ite_none_right_eq_some.mp h
    simp only [Bool.and_eq_true, decide_eq_true_eq] at hasked
    cases heq
    exact .leave (.inr (hasked.1 ▸ hworker))
  · cases h

theorem issued_setReported {s : State} (h : s.Issued) (a : ActivityId) :
    (s.setReported a).Issued := by
  intro activity hmem
  obtain ⟨i, hi⟩ := List.mem_iff_getElem?.mp hmem
  simp only [State.setReported, List.getElem?_modify] at hi
  obtain ⟨before, hbefore, rfl⟩ := Option.map_eq_some_iff.mp hi
  have hid := h before (List.mem_of_getElem? hbefore)
  split <;> exact hid

theorem aside_setReported (s : State) (a : ActivityId) : Aside s (s.setReported a) :=
  aside_prompt rfl rfl rfl rfl fun h => issued_setReported h a

theorem issued_create {s : State} {id : Int} (h : s.Issued) (hid : 1 ≤ id)
    (prompt : Prompt) :
    {s with activities := s.activities ++ [{id}], prompt := prompt : State}.Issued := by
  intro activity hmem
  rcases List.mem_append.mp hmem with hold | hnew
  · exact h activity hold
  · rw [List.mem_singleton.mp hnew]
    exact hid

theorem answer_cases {sha : Sha256} {s s' : State} {e : Event} {id : Int} {status : Int}
    (h : Aside s s') (hprompt : s'.prompt = s.prompt) (he : e.answers s = some id)
    (hissued : s.Issued → 1 ≤ id) : Step sha s e (s'.answer id status) := by
  unfold State.answer
  split
  · exact .aside h
  · rename_i hid
    rw [ne_eq, Decidable.not_not, hprompt] at hid
    rw [hprompt]
    exact .answer h hprompt he hissued hid

theorem report_cases {sha : Sha256} {s t : State} {e : Event} {a : ActivityId} {status : Int}
    (he : e.answers s = s.activities[a]?.map (·.id)) (h : s.report a status = some t) :
    Step sha s e t := by
  unfold State.report at h
  split at h
  · rename_i activity hactivity
    obtain ⟨-, heq⟩ := Option.ite_none_left_eq_some.mp h
    cases heq
    exact answer_cases (aside_setReported s a) rfl (by rw [he, hactivity]; rfl)
      fun hissued => hissued activity (List.mem_of_getElem? hactivity)
  · cases h

theorem step_cases {sha : Sha256} {s t : State} {e : Event} (h : next sha s e = some t) :
    Step sha s e t := by
  cases e with
  | receive c bytes =>
      cases h
      exact .aside (aside_setConn rfl rfl rfl rfl fun _ => id)
  | serve c ok => exact serve_cases h
  | endServe c =>
      obtain ⟨-, heq⟩ := Option.ite_none_right_eq_some.mp h
      cases heq
      exact .aside (aside_setConn rfl rfl rfl rfl fun _ => id)
  | finallyStep c => exact finallyStep_cases h
  | execute c =>
      simp only [next, State.execute] at h
      split at h
      · rename_i task rest hworker hqueue
        cases h
        exact .execute hworker hqueue
      · cases h
  | enter c =>
      simp only [next, State.enter] at h
      split at h
      · rename_i task hworker hfree
        cases h
        exact .enter hworker hfree
      · cases h
  | confirm c => exact confirm_cases h
  | awaitAnswer c interrupted => exact awaitAnswer_cases h
  | finish c env => exact finish_cases h
  | reply c ok =>
      simp only [next, State.reply] at h
      split at h
      · rename_i task r hworker
        obtain ⟨-, heq⟩ := Option.ite_none_left_eq_some.mp h
        cases heq
        exact .reply hworker
      · cases h
  | create id =>
      obtain ⟨hhanded, heq⟩ := Option.ite_none_right_eq_some.mp h
      cases heq
      refine .aside (aside_prompt (attach_same ..) rfl rfl rfl fun hissued => ?_)
      exact issued_create hissued (by simpa using (Bool.and_eq_true_iff.mp hhanded).1) _
  | approve a => exact report_cases rfl h
  | deny a => exact report_cases rfl h
  | abort a =>
      obtain ⟨-, heq⟩ := Option.ite_none_right_eq_some.mp h
      cases heq
      exact .aside (aside_prompt rfl rfl rfl rfl fun h => issued_setReported h a)
  | destroy a =>
      simp only [next, State.destroy] at h
      split at h
      · split at h
        · cases h
          exact .aside (aside_prompt rfl rfl rfl rfl id)
        · cases h
          exact .aside (aside_prompt (detach_same ..) rfl rfl rfl id)
      · cases h
  | reject id =>
      obtain ⟨hhanded, heq⟩ := Option.ite_none_right_eq_some.mp h
      cases heq
      refine answer_cases (aside_prompt rfl rfl rfl rfl fun h => h) rfl rfl fun _ => ?_
      simpa using (Bool.and_eq_true_iff.mp hhanded).1
  | clock now =>
      cases h
      exact .aside (aside_prompt rfl rfl rfl rfl fun h => h)

/-! ### What ends a prompt -/

/-- How an entry ends the prompt that was opened for a task, if it does. -/
def Entry.ends (c : Owner) (task : Task) (id : Int) : Entry → Option Int
  | .answered k status => if k = id then some status else none
  | .cancel d seq closed =>
      if d = c ∧ (closed = true ∨ task.reqSeq = seq) then some Status.keepaliveCancel else none
  | _ => none

/-- The status that first ended the prompt. -/
def verdict (c : Owner) (task : Task) (id : Int) (log : List Entry) : Option Int :=
  (since (.opened c task id) log).findSome? (Entry.ends c task id)

theorem verdict_snoc {c : Owner} {task : Task} {id : Int} {log : List Entry} (e : Entry)
    (h : .opened c task id ∈ log) :
    verdict c task id (log ++ [e]) = (verdict c task id log).or (e.ends c task id) := by
  rw [verdict, since_append _ h, List.findSome?_append, verdict, List.findSome?_cons,
    List.findSome?_nil]
  cases e.ends c task id <;> rfl

theorem verdict_snoc_none {c : Owner} {task : Task} {id : Int} {log : List Entry} {e : Entry}
    (h : .opened c task id ∈ log) (he : e.ends c task id = none) :
    verdict c task id (log ++ [e]) = verdict c task id log := by
  rw [verdict_snoc e h, he, Option.or_none]

/-! ### The invariant -/

/-- The worker holds the monitor of the authenticator. -/
def Worker.inside : Worker → Bool
  | .command _ | .opened .. | .waiting .. | .answered .. => true
  | _ => false

/-- A prompt whose `confirm` call has not returned: it is the newest, the
fields are its own, and they hold what ended it. -/
structure Prompting (s : State) (c : Owner) (task : Task) (id : Int) : Prop where
  newest : id = s.prompt.seq
  owner : s.prompt.owner = some c
  ownerSeq : s.prompt.ownerSeq = task.reqSeq
  opened : .opened c task id ∈ s.log
  stillOpen : s.prompt.current = id →
    s.prompt.result = Status.userActionTimeout ∧ verdict c task id s.log = none
  ended : s.prompt.current ≠ id → verdict c task id s.log = some s.prompt.result

structure Inv (s : State) : Prop where
  monitor : ∀ c, (s.conn c).worker.inside → s.monitor = some c
  issued : s.Issued
  seq : 0 ≤ s.prompt.seq
  current : s.prompt.current = -1 ∨ s.prompt.current = s.prompt.seq
  used : ∀ c task id, .opened c task id ∈ s.log → 1 ≤ id ∧ id ≤ s.prompt.seq
  prompting : ∀ c task id, (s.conn c).worker.prompt = some (task, id) → Prompting s c task id
  returned : Each (fun before e => ∀ c task id status timedOut,
    e = .returned c task id status timedOut →
      status = (verdict c task id before).getD Status.userActionTimeout ∧
        timedOut = (verdict c task id before).isNone) s.log

theorem inv_start (store : Store) (keys : List Bytes) : Inv (start store keys) :=
  ⟨by simp [start, Worker.inside], by simp [start, State.Issued], by simp [start],
    by simp [start], by simp [start], by simp [start, Worker.prompt], .nil⟩

theorem inside_of_prompt {w : Worker} {task : Task} {id : Int}
    (h : w.prompt = some (task, id)) : w.inside = true := by
  cases w with
  | opened => rfl
  | waiting => rfl
  | _ => cases h

/-- A prompt stays as it is when the fields, but for the activity, and the
verdict do. -/
theorem Prompting.keep {s t : State} {c : Owner} {task : Task} {id : Int}
    (h : Prompting s c task id) (hprompt : s.prompt.Same t.prompt)
    (hopened : .opened c task id ∈ t.log)
    (hverdict : verdict c task id t.log = verdict c task id s.log) : Prompting t c task id := by
  have heq : t.prompt = {s.prompt with shown := t.prompt.shown} := hprompt
  refine ⟨?_, ?_, ?_, hopened, fun hcurrent => ?_, fun hcurrent => ?_⟩
  · rw [heq]
    exact h.newest
  · rw [heq]
    exact h.owner
  · rw [heq]
    exact h.ownerSeq
  · rw [heq] at hcurrent ⊢
    rw [hverdict]
    exact h.stillOpen hcurrent
  · rw [heq] at hcurrent ⊢
    rw [hverdict]
    exact h.ended hcurrent

theorem Inv.aside {s t : State} (h : Inv s) (haside : Aside s t) : Inv t := by
  have heq : t.prompt = {s.prompt with shown := t.prompt.shown} := haside.prompt
  refine ⟨fun c hc => ?_, haside.issued h.issued, ?_, ?_, fun c task id hmem => ?_,
    fun c task id hp => ?_, ?_⟩
  · rw [haside.worker] at hc
    exact haside.monitor.trans (h.monitor c hc)
  · rw [heq]
    exact h.seq
  · rw [heq]
    exact h.current
  · rw [heq]
    exact h.used c task id (haside.log ▸ hmem)
  · rw [haside.worker] at hp
    have hbefore := h.prompting c task id hp
    exact hbefore.keep haside.prompt (haside.log ▸ hbefore.opened) (by rw [haside.log])
  · exact haside.log ▸ h.returned

/-- An entry that neither opens, ends nor closes a prompt. -/
def Entry.Neutral : Entry → Prop
  | .request .. | .refused .. | .handled .. => True
  | _ => False

theorem Entry.Neutral.ends {e : Entry} (h : e.Neutral) (c : Owner) (task : Task)
    (id : Int) : e.ends c task id = none := by
  cases e with
  | request => rfl
  | refused => rfl
  | handled => rfl
  | _ => exact h.elim

theorem Entry.Neutral.ne_opened {e : Entry} (h : e.Neutral) (c : Owner) (task : Task)
    (id : Int) : .opened c task id ≠ e := by
  rintro rfl
  exact h

/-- The log after a step that concerns no prompt. -/
def Quiet (s t : State) : Prop :=
  t.log = s.log ∨ ∃ e, t.log = s.log ++ [e] ∧ e.Neutral

theorem Quiet.opened {s t : State} (h : Quiet s t) {c : Owner} {task : Task} {id : Int} :
    .opened c task id ∈ t.log ↔ .opened c task id ∈ s.log := by
  rcases h with hsame | ⟨e, hlog, hneutral⟩
  · rw [hsame]
  · simp [hlog, hneutral.ne_opened c task id]

theorem Quiet.verdict {s t : State} (h : Quiet s t) {c : Owner} {task : Task} {id : Int}
    (hopened : .opened c task id ∈ s.log) :
    verdict c task id t.log = verdict c task id s.log := by
  rcases h with hsame | ⟨e, hlog, hneutral⟩
  · rw [hsame]
  · rw [hlog, verdict_snoc_none hopened (hneutral.ends c task id)]

/-- A worker moves, and the prompt stays as it is. -/
theorem Inv.move {s t : State} (h : Inv s) (hprompt : t.prompt = s.prompt) (hlog : Quiet s t)
    (hactivities : t.activities = s.activities)
    (hmonitor : ∀ c, (t.conn c).worker.inside → t.monitor = some c)
    (hworker : ∀ c task id, (t.conn c).worker.prompt = some (task, id) →
      (s.conn c).worker.prompt = some (task, id)) : Inv t := by
  refine ⟨hmonitor, ?_, hprompt ▸ h.seq, hprompt ▸ h.current, fun c task id hmem => ?_,
    fun c task id hp => ?_, ?_⟩
  · rw [State.Issued, hactivities]
    exact h.issued
  · rw [hprompt]
    exact h.used c task id (hlog.opened.mp hmem)
  · have hbefore := h.prompting c task id (hworker c task id hp)
    refine hbefore.keep ?_ (hlog.opened.mpr hbefore.opened) (hlog.verdict hbefore.opened)
    rw [hprompt]
    rfl
  · rcases hlog with hsame | ⟨e, hlog, hneutral⟩
    · exact hsame ▸ h.returned
    · rw [hlog]
      refine h.returned.snoc fun c task id status timedOut heq => ?_
      subst heq
      exact hneutral.elim

theorem setWorker_worker (s : State) (c d : Owner) (w : Worker) :
    ((s.setWorker c w).conn d).worker = if d = c then w else (s.conn d).worker := by
  rw [State.setWorker, setConn_conn]
  split <;> rfl

/-- A worker that is in the monitor is the only one. -/
theorem Inv.alone {s : State} (h : Inv s) {c d : Owner} (hc : (s.conn c).worker.inside = true)
    (hd : (s.conn d).worker.inside = true) : d = c :=
  Option.some.inj ((h.monitor d hd).symm.trans (h.monitor c hc))

/-- An entry that ends a prompt, or leaves it open. -/
def Entry.Closing : Entry → Prop
  | .cancel .. | .answered .. => True
  | _ => False

/-- The log after a cancel or an answer. -/
theorem Inv.returned_closing {s t : State} (h : Inv s) {e : Entry}
    (hlog : t.log = s.log ++ [e]) (he : e.Closing) : Each (fun before e =>
      ∀ c task id status timedOut, e = .returned c task id status timedOut →
        status = (verdict c task id before).getD Status.userActionTimeout ∧
          timedOut = (verdict c task id before).isNone) t.log := by
  rw [hlog]
  refine h.returned.snoc fun c task id status timedOut heq => ?_
  rw [heq] at he
  exact he.elim

theorem Entry.Closing.opened {e : Entry} (he : e.Closing) {log : List Entry} {c : Owner}
    {task : Task} {id : Int} (h : .opened c task id ∈ log ++ [e]) :
    .opened c task id ∈ log := by
  rcases List.mem_append.mp h with hold | hnew
  · exact hold
  · rw [← List.mem_singleton.mp hnew] at he
    exact he.elim

/-- The current prompt is ended with this status. -/
theorem Inv.ended {s t : State} (h : Inv s) {e : Entry} {status : Int} (he : e.Closing)
    (hworker : ∀ c, (t.conn c).worker = (s.conn c).worker) (hmonitor : t.monitor = s.monitor)
    (hactivities : t.activities = s.activities) (hlog : t.log = s.log ++ [e])
    (hprompt : t.prompt = {s.prompt with result := status, current := -1})
    (hends : ∀ c task id, Prompting s c task id →
      s.prompt.current = id ∧ e.ends c task id = some status) : Inv t := by
  refine ⟨fun c hc => hmonitor.trans (h.monitor c (hworker c ▸ hc)), ?_, ?_, ?_,
    fun c task id hmem => ?_, fun c task id hp => ?_, h.returned_closing hlog he⟩
  · rw [State.Issued, hactivities]
    exact h.issued
  · rw [hprompt]
    exact h.seq
  · rw [hprompt]
    exact .inl rfl
  · rw [hprompt]
    exact h.used c task id (he.opened (hlog ▸ hmem))
  · have hbefore := h.prompting c task id (hworker c ▸ hp)
    have hpositive := (h.used c task id hbefore.opened).1
    obtain ⟨hcurrent, hentry⟩ := hends c task id hbefore
    have hopened : .opened c task id ∈ t.log := hlog ▸ List.mem_append_left _ hbefore.opened
    have hverdict : verdict c task id t.log = some status := by
      rw [hlog, verdict_snoc e hbefore.opened, (hbefore.stillOpen hcurrent).2, hentry,
        Option.none_or]
    refine ⟨?_, ?_, ?_, hopened, fun hstill => ?_, fun _ => ?_⟩
    · rw [hprompt]
      exact hbefore.newest
    · rw [hprompt]
      exact hbefore.owner
    · rw [hprompt]
      exact hbefore.ownerSeq
    · rw [hprompt] at hstill
      change -1 = id at hstill
      omega
    · rw [hprompt]
      exact hverdict

/-- A cancel that does not concern the prompt. -/
theorem Inv.spared {s t : State} (h : Inv s) {e : Entry} (he : e.Closing)
    (hworker : ∀ c, (t.conn c).worker = (s.conn c).worker) (hmonitor : t.monitor = s.monitor)
    (hactivities : t.activities = s.activities) (hlog : t.log = s.log ++ [e])
    (hprompt : t.prompt = s.prompt)
    (hspares : ∀ c task id, Prompting s c task id → s.prompt.current = id →
      e.ends c task id = none) : Inv t := by
  refine ⟨fun c hc => hmonitor.trans (h.monitor c (hworker c ▸ hc)), ?_, hprompt ▸ h.seq,
    hprompt ▸ h.current, fun c task id hmem => hprompt ▸ h.used c task id (he.opened (hlog ▸ hmem)),
    fun c task id hp => ?_, h.returned_closing hlog he⟩
  · rw [State.Issued, hactivities]
    exact h.issued
  · have hbefore := h.prompting c task id (hworker c ▸ hp)
    refine hbefore.keep ?_ (hlog ▸ List.mem_append_left _ hbefore.opened) ?_
    · rw [hprompt]
      rfl
    · rw [hlog, verdict_snoc e hbefore.opened]
      by_cases hcurrent : s.prompt.current = id
      · rw [hspares c task id hbefore hcurrent, Option.or_none]
      · rw [hbefore.ended hcurrent, Option.some_or]

theorem Inv.cancel {s : State} (h : Inv s) (c : Owner) (seq : Int32) (closed : Bool) :
    Inv (s.cancel c seq closed) := by
  have hworker (d : Owner) : ((s.cancel c seq closed).conn d).worker = (s.conn d).worker := by
    change ((s.setConn c _).conn d).worker = _
    rw [setConn_conn]
    split
    · rename_i hd
      rw [hd]
    · rfl
  by_cases hconcerns : s.prompt.concerns c seq closed = true
  · have hprompt : (s.cancel c seq closed).prompt =
        {s.prompt with result := Status.keepaliveCancel, current := -1} := if_pos hconcerns
    refine h.ended (e := .cancel c seq closed) trivial hworker rfl rfl rfl hprompt
      fun d task id hp => ?_
    simp only [Prompt.concerns, Bool.and_eq_true, Bool.or_eq_true, decide_eq_true_eq]
      at hconcerns
    obtain ⟨⟨hcurrent, howner⟩, hseq⟩ := hconcerns
    obtain rfl : c = d := Option.some.inj (howner.symm.trans hp.owner)
    refine ⟨?_, if_pos ⟨rfl, hp.ownerSeq ▸ hseq⟩⟩
    rcases h.current with hnone | hnewest
    · omega
    · exact hnewest.trans hp.newest.symm
  · refine h.spared (e := .cancel c seq closed) trivial hworker rfl rfl rfl
      (if_neg hconcerns) fun d task id hp hcurrent => if_neg fun hmatch => hconcerns ?_
    obtain ⟨rfl, hseq⟩ := hmatch
    have hpositive := (h.used c task id hp.opened).1
    simp only [Prompt.concerns, hp.owner, hp.ownerSeq, Bool.and_eq_true, Bool.or_eq_true,
      decide_eq_true_eq]
    exact ⟨⟨by omega, trivial⟩, hseq⟩

theorem Inv.answer {s s' : State} {id status : Int} (h : Inv s') (hprompt : s'.prompt = s.prompt)
    (hissued : 1 ≤ id) (hid : id = s.prompt.current) :
    Inv ({s' with prompt := {s.prompt with result := status, current := -1}}.note
      (.answered id status)) := by
  refine h.ended (e := .answered id status) trivial (fun _ => rfl) rfl rfl rfl
    (by rw [hprompt]; rfl) fun c task k hp => ?_
  have hcurrent : s'.prompt.current = k := by
    rcases h.current with hnone | hnewest
    · rw [hprompt] at hnone
      omega
    · exact hnewest.trans hp.newest.symm
  exact ⟨hcurrent, if_pos (by rw [← hcurrent, hprompt, hid])⟩

theorem Inv.opens {s : State} (h : Inv s) {c : Owner} {task : Task}
    (hworker : (s.conn c).worker = .command task) :
    Inv (s.openPrompt c task) := by
  have hinside : (s.conn c).worker.inside = true := by rw [hworker]; rfl
  have hseq := h.seq
  have hfresh (d : Owner) (other : Task) : .opened d other (s.prompt.seq + 1) ∉ s.log := by
    intro hmem
    have hle := (h.used d other _ hmem).2
    omega
  refine ⟨fun d hd => ?_, h.issued, ?_, .inr rfl, fun d other id hmem => ?_,
    fun d other id hp => ?_, ?_⟩
  · change ((s.setWorker c _).conn d).worker.inside = true at hd
    change s.monitor = some d
    rw [setWorker_worker] at hd
    split at hd
    · rename_i hdc
      exact hdc ▸ h.monitor c hinside
    · exact h.monitor d hd
  · change 0 ≤ s.prompt.seq + 1
    omega
  · change 1 ≤ id ∧ id ≤ s.prompt.seq + 1
    rcases List.mem_append.mp hmem with hold | hnew
    · obtain ⟨hpositive, hle⟩ := h.used d other id hold
      omega
    · obtain ⟨-, -, rfl⟩ := Entry.opened.inj (List.mem_singleton.mp hnew)
      omega
  · change ((s.setWorker c _).conn d).worker.prompt = some (other, id) at hp
    rw [setWorker_worker] at hp
    split at hp
    · rename_i hdc
      subst hdc
      obtain ⟨rfl, rfl⟩ := Prod.mk.inj (Option.some.inj hp)
      refine ⟨rfl, rfl, rfl, List.mem_append_right _ (List.mem_singleton_self _),
        fun _ => ⟨rfl, ?_⟩, fun hnot => absurd rfl hnot⟩
      change verdict _ _ _ (s.log ++ [_]) = none
      rw [verdict, since_snoc _ (hfresh _ _)]
      rfl
    · rename_i hdc
      exact absurd (h.alone hinside (inside_of_prompt hp)) hdc
  · exact h.returned.snoc fun d other id status timedOut heq => by cases heq

theorem Inv.close {s : State} (h : Inv s) {c : Owner} {task : Task} {id : Int}
    (hworker : (s.conn c).worker.prompt = some (task, id)) : Inv (s.closePrompt c task id) := by
  have hinside := inside_of_prompt hworker
  have hprompting := h.prompting c task id hworker
  refine ⟨fun d hd => ?_, h.issued, h.seq, ?_, fun d other k hmem => ?_,
    fun d other k hp => ?_, ?_⟩
  · change ((s.setWorker c _).conn d).worker.inside = true at hd
    change s.monitor = some d
    rw [setWorker_worker] at hd
    split at hd
    · rename_i hdc
      exact hdc ▸ h.monitor c hinside
    · exact h.monitor d hd
  · change (if s.prompt.current = id then -1 else s.prompt.current) = -1 ∨
      (if s.prompt.current = id then -1 else s.prompt.current) = s.prompt.seq
    split
    · exact .inl rfl
    · exact h.current
  · rcases List.mem_append.mp hmem with hold | hnew
    · exact h.used d other k hold
    · cases List.mem_singleton.mp hnew
  · change ((s.setWorker c _).conn d).worker.prompt = some (other, k) at hp
    rw [setWorker_worker] at hp
    split at hp
    · cases hp
    · rename_i hdc
      exact absurd (h.alone hinside (inside_of_prompt hp)) hdc
  · refine h.returned.snoc fun d other k status timedOut heq => ?_
    obtain ⟨rfl, rfl, rfl, rfl, rfl⟩ := Entry.returned.inj heq
    by_cases hcurrent : s.prompt.current = id
    · obtain ⟨hresult, hnone⟩ := hprompting.stillOpen hcurrent
      simp [hnone, hresult, hcurrent]
    · have hsome := hprompting.ended hcurrent
      simp [hsome, hcurrent]

theorem setConn_worker (s : State) (c d : Owner) (k : Conn) :
    ((s.setConn c k).conn d).worker = if d = c then k.worker else (s.conn d).worker := by
  rw [setConn_conn]
  split <;> rfl

/-- The worker of one connection moves, and the prompt stays as it is. -/
theorem Inv.goes {s t : State} (h : Inv s) {c : Owner} {w : Worker}
    (hworker : ∀ d, (t.conn d).worker = if d = c then w else (s.conn d).worker)
    (hprompt : t.prompt = s.prompt) (hlog : Quiet s t) (hactivities : t.activities = s.activities)
    (hinside : w.inside → t.monitor = some c)
    (hothers : ∀ d, d ≠ c → s.monitor = some d → t.monitor = some d)
    (hw : ∀ task id, w.prompt = some (task, id) → (s.conn c).worker.prompt = some (task, id)) :
    Inv t := by
  refine h.move hprompt hlog hactivities (fun d hd => ?_) fun d task id hp => ?_
  · rw [hworker] at hd
    split at hd
    · rename_i hdc
      exact hdc ▸ hinside hd
    · rename_i hdc
      exact hothers d hdc (h.monitor d hd)
  · rw [hworker] at hp
    split at hp
    · rename_i hdc
      exact hdc ▸ hw task id hp
    · exact hp

theorem Inv.step {sha : Sha256} {s t : State} {e : Event} (h : Inv s) (hstep : Step sha s e t) :
    Inv t := by
  cases hstep with
  | aside haside => exact h.aside haside
  | @request c ok s' seqNo req haside =>
      have h' := h.aside haside
      exact h'.goes (setConn_worker s' c · _) rfl (.inr ⟨_, rfl, trivial⟩) rfl
        (h'.monitor c ·) (fun _ _ hd => hd) fun _ _ hp => hp
  | cancel haside he => exact (h.aside haside).cancel ..
  | @execute c task rest hworker hqueue =>
      exact h.goes (setConn_worker s c · _) rfl (.inl rfl) rfl
        (fun hw => by cases hw) (fun _ _ hd => hd) fun _ _ hp => by cases hp
  | @enter c task hworker hfree =>
      exact h.goes (setWorker_worker s c · _) rfl (.inl rfl) rfl
        (fun _ => rfl) (fun d _ hd => by simp [hfree] at hd) fun _ _ hp => by cases hp
  | @refuse c task hworker hgone =>
      exact h.goes (setWorker_worker s c · _) rfl (.inr ⟨_, rfl, trivial⟩) rfl
        (fun _ => h.monitor c (by rw [hworker]; rfl)) (fun _ _ hd => hd) fun _ _ hp => by cases hp
  | opens hworker => exact h.opens hworker
  | @wait c task id deadline interrupted hworker =>
      exact h.goes (setWorker_worker s c · _) rfl (.inl rfl) rfl
        (fun _ => h.monitor c (inside_of_prompt hworker)) (fun _ _ hd => hd)
        fun _ _ hp => hworker.trans hp
  | close hworker => exact h.close hworker
  | @leave c task env hworker =>
      have hmonitor : s.monitor = some c :=
        h.monitor c (by rcases hworker with hw | hw <;> rw [hw] <;> rfl)
      refine h.goes (setWorker_worker s c · _) rfl (.inr ⟨_, rfl, trivial⟩) rfl
        (fun hw => by cases hw) (fun d hdc hd => ?_) fun _ _ hp => by cases hp
      exact absurd (Option.some.inj (hd.symm.trans hmonitor)) hdc
  | @reply c ok task r hworker =>
      exact h.goes (setConn_worker s c · _) rfl (.inl rfl) rfl
        (fun hw => by cases hw) (fun _ _ hd => hd) fun _ _ hp => by cases hp
  | answer haside hprompt he hissued hid =>
      exact (h.aside haside).answer hprompt (hissued h.issued) hid

theorem inv_reachable {sha : Sha256} {store : Store} {keys : List Bytes} {s : State}
    (h : Reach (next sha) always (start store keys) s) : Inv s :=
  h.invariant (inv_start store keys) fun _ _ _ ht _ hnext => ht.step (step_cases hnext)

/-! ### The law -/

/-- What a prompt can rely on while other threads act on its fields. -/
structure PromptLaw (sha : Sha256) (s : State) : Prop where
  /-- `confirm` returns OK only where OK was answered to its prompt while that
  was the current one, before any cancel, and the wait did not time out. -/
  credited : Each (fun before e => ∀ c task id timedOut,
    e = .returned c task id Status.ok timedOut → timedOut = false ∧
      ∃ mid rest, since (.opened c task id) before = mid ++ .answered id Status.ok :: rest ∧
        ∀ x ∈ mid, x.ends c task id = none) s.log
  /-- An answer for an older prompt changes nothing. -/
  stale : ∀ c task id, (s.conn c).worker.prompt = some (task, id) →
    ∀ e old t, e.answers s = some old → old < id → next sha s e = some t → t.prompt = s.prompt
  /-- What another connection's reader does changes nothing. -/
  separate : ∀ c task id, (s.conn c).worker.prompt = some (task, id) →
    ∀ e d t, e.reader = some d → d ≠ c → next sha s e = some t →
      t.prompt = s.prompt ∧ t.posted = s.posted ∧ t.conn c = s.conn c

theorem ends_ok {c : Owner} {task : Task} {id : Int} {e : Entry}
    (h : e.ends c task id = some Status.ok) : e = .answered id Status.ok := by
  cases e with
  | answered k status =>
      simp only [Entry.ends, Option.ite_none_right_eq_some, Option.some.injEq] at h
      rw [h.1, h.2]
  | cancel d seq closed =>
      simp only [Entry.ends, Option.ite_none_right_eq_some, Option.some.injEq] at h
      exact absurd h.2 (by decide)
  | _ => cases h

theorem credited_of_verdict {c : Owner} {task : Task} {id : Int} {log : List Entry}
    (h : verdict c task id log = some Status.ok) :
    ∃ mid rest, since (.opened c task id) log = mid ++ .answered id Status.ok :: rest ∧
      ∀ x ∈ mid, x.ends c task id = none := by
  obtain ⟨mid, e, rest, hsplit, he, hmid⟩ := List.findSome?_eq_some_iff.mp h
  rw [ends_ok he] at hsplit
  exact ⟨mid, rest, hsplit, hmid⟩

theorem answer_other {s : State} {id status : Int} (h : id ≠ s.prompt.current) :
    s.answer id status = s :=
  if_pos h

/-- An older prompt is not the current one. -/
theorem Inv.older {s : State} (h : Inv s) {c : Owner} {task : Task} {id old : Int}
    (hp : (s.conn c).worker.prompt = some (task, id)) (hissued : 1 ≤ old) (hold : old < id) :
    old ≠ s.prompt.current := by
  have hnewest := (h.prompting c task id hp).newest
  rcases h.current with hnone | hcurrent <;> omega

theorem Inv.stale {sha : Sha256} {s t : State} {e : Event} {c : Owner} {task : Task}
    {id old : Int} (h : Inv s) (hp : (s.conn c).worker.prompt = some (task, id))
    (he : e.answers s = some old) (hold : old < id) (hnext : next sha s e = some t) :
    t.prompt = s.prompt := by
  have hreport {a : ActivityId} {status : Int} (ha : s.activities[a]?.map (·.id) = some old)
      (hreport : s.report a status = some t) : t.prompt = s.prompt := by
    obtain ⟨activity, hactivity, rfl⟩ := Option.map_eq_some_iff.mp ha
    have hissued := h.issued activity (List.mem_of_getElem? hactivity)
    simp only [State.report, hactivity, Option.ite_none_left_eq_some, Option.some.injEq] at hreport
    obtain ⟨-, rfl⟩ := hreport
    have hother : activity.id ≠ (s.setReported a).prompt.current := h.older hp hissued hold
    rw [answer_other hother]
    rfl
  cases e with
  | approve a => exact hreport he hnext
  | deny a => exact hreport he hnext
  | reject k =>
      obtain rfl := Option.some.inj he
      obtain ⟨hhanded, heq⟩ := Option.ite_none_right_eq_some.mp hnext
      have hissued : 1 ≤ k := by simpa using (Bool.and_eq_true_iff.mp hhanded).1
      cases heq
      rw [answer_other (h.older hp hissued hold)]
  | _ => cases he

/-- What a step of the reader of `d` leaves alone. -/
def Spares (s : State) (c : Owner) (t : State) : Prop :=
  t.prompt = s.prompt ∧ t.posted = s.posted ∧ t.conn c = s.conn c

theorem spares_setConn {s : State} {c d : Owner} (hdc : d ≠ c) (k : Conn) :
    Spares s c (s.setConn d k) :=
  ⟨rfl, rfl, by rw [setConn_conn, if_neg (Ne.symm hdc)]⟩

theorem spares_cancel {s : State} {c d : Owner} (hdc : d ≠ c) (howner : s.prompt.owner = some c)
    (seq : Int32) (closed : Bool) : Spares s c (s.cancel d seq closed) := by
  have hconcerns : ¬ s.prompt.concerns d seq closed = true := by
    simp only [Prompt.concerns, howner, Bool.and_eq_true, decide_eq_true_eq, Option.some.injEq]
    exact fun hall => hdc hall.1.2.symm
  refine ⟨if_neg hconcerns, ?_, (spares_setConn hdc _).2.2⟩
  change s.posted ++ (if _ then _ else _) = s.posted
  rw [if_neg hconcerns, List.append_nil]

theorem spares_read {s : State} {c d : Owner} (hdc : d ≠ c) (howner : s.prompt.owner = some c)
    (ok : Bool) (m : Message) : Spares s c (s.read d ok m) := by
  cases m with
  | ping => exact spares_setConn hdc _
  | cancel seq => exact spares_cancel hdc howner ..
  | req seqNo req => exact ⟨rfl, rfl, (spares_setConn hdc _).2.2⟩
  | unknown => exact ⟨rfl, rfl, rfl⟩

theorem Spares.trans {s t u : State} {c : Owner} (h : Spares s c t) (h' : Spares t c u) :
    Spares s c u :=
  ⟨h'.1.trans h.1, h'.2.1.trans h.2.1, h'.2.2.trans h.2.2⟩

theorem Inv.separate {sha : Sha256} {s t : State} {e : Event} {c d : Owner} {task : Task}
    {id : Int} (h : Inv s) (hp : (s.conn c).worker.prompt = some (task, id))
    (he : e.reader = some d) (hdc : d ≠ c) (hnext : next sha s e = some t) : Spares s c t := by
  have howner := (h.prompting c task id hp).owner
  cases e with
  | receive x bytes =>
      obtain rfl := Option.some.inj he
      cases hnext
      exact spares_setConn hdc _
  | serve x ok =>
      obtain rfl := Option.some.inj he
      simp only [next, State.serve] at hnext
      split at hnext
      · split at hnext
        · cases hnext
        · cases hnext
          exact spares_setConn hdc _
        · cases hnext
          refine (spares_setConn hdc _).trans (spares_read hdc ?_ ..)
          exact howner
      · cases hnext
  | endServe x =>
      obtain rfl := Option.some.inj he
      obtain ⟨-, heq⟩ := Option.ite_none_right_eq_some.mp hnext
      cases heq
      exact spares_setConn hdc _
  | finallyStep x =>
      obtain rfl := Option.some.inj he
      simp only [next, State.finallyStep] at hnext
      split at hnext
      · cases hnext
        refine (spares_setConn hdc _).trans (spares_cancel hdc ?_ ..)
        exact howner
      · cases hnext
        exact spares_setConn hdc _
      · cases hnext
  | _ => cases he

/-- Over every interleaving of the workers, the readers and the activities:
`confirm` returns OK only for an answer to its own prompt that came first, and
older answers and other connections leave a prompt as it is. -/
theorem prompt_law {sha : Sha256} {store : Store} {keys : List Bytes} {s : State}
    (h : Reach (next sha) always (start store keys) s) : PromptLaw sha s := by
  have hinv := inv_reachable h
  refine ⟨hinv.returned.mono fun before e _ he c task id timedOut heq => ?_,
    fun c task id hp e old t ha hold hnext => hinv.stale hp ha hold hnext,
    fun c task id hp e d t ha hdc hnext => hinv.separate hp ha hdc hnext⟩
  obtain ⟨hstatus, htimedOut⟩ := he c task id Status.ok timedOut heq
  cases hverdict : verdict c task id before with
  | none =>
      rw [hverdict] at hstatus
      exact absurd hstatus (by decide)
  | some status =>
      rw [hverdict] at hstatus htimedOut
      obtain rfl : Status.ok = status := hstatus
      exact ⟨htimedOut, credited_of_verdict hverdict⟩

/-- A sign-in, approved on the screen of its prompt. -/
def approvedEvents : List Event :=
  [.receive 0 (frame (REQ :: [0, 0, 0, 1] ++ signInCall.req)), .serve 0 true, .execute 0, .enter 0,
    .confirm 0, .create 1, .awaitAnswer 0 false, .approve 0, .awaitAnswer 0 false]

theorem approved_credited : ∃ s task, Reach (next zeroDigest) always (start twoAccounts [[1], [2]]) s ∧
    s.log[3]? = some (.returned 0 task 1 Status.ok false) ∧ PromptLaw zeroDigest s := by
  obtain ⟨s, hrun, hreturned⟩ : ∃ s,
      replay (next zeroDigest) always (start twoAccounts [[1], [2]]) approvedEvents = some s ∧
        s.log[3]? = some (.returned 0 ⟨0, [0, 0, 0, 1], signInCall.req⟩ 1 Status.ok false) :=
    ⟨_, rfl, rfl⟩
  have hreach := reach_of_replay hrun
  exact ⟨s, _, hreach, hreturned, prompt_law hreach⟩

end Passkey.Phone.KeyService

import Passkey.Phone.Prompts

/-!
Requests that the computer withdraws. A connection remembers one withdrawn
number, so a cancel that comes before the prompt counts only until the next
cancel comes; a cancel of an open prompt, and the end of the connection, always
count.
-/

namespace Passkey.Phone.KeyService

open Library

/-- The CANCEL of the request was read since the request was. -/
def Withdrawn (c : Owner) (task : Task) (log : List Entry) : Prop :=
  .cancel c task.reqSeq false ∈ since (.request c task) log

instance (c : Owner) (task : Task) (log : List Entry) : Decidable (Withdrawn c task log) :=
  inferInstanceAs (Decidable (.cancel c task.reqSeq false ∈ since (.request c task) log))

/-- A prompt is open and belongs to the connection. -/
def Prompt.openFor (p : Prompt) (c : Owner) : Prop :=
  0 ≤ p.current ∧ p.owner = some c

structure CancelLaw (sha : Sha256) (s : State) : Prop where
  /-- `confirm` opens no prompt for a request that was withdrawn before. -/
  withheld : ∀ c task, (s.conn c).worker = .command task → Withdrawn c task s.log →
    ∀ t, next sha s (.confirm c) = some t →
      (t.conn c).worker = .answered task Status.keepaliveCancel ∧ t.prompt = s.prompt
  /-- A prompt that is open when its request is withdrawn ends with that. -/
  ended : Each (fun before e => ∀ c task id status timedOut,
    e = .returned c task id status timedOut → ∀ mid seq closed rest,
      since (.opened c task id) before = mid ++ .cancel c seq closed :: rest →
      closed = true ∨ task.reqSeq = seq → (∀ x ∈ mid, x.ends c task id = none) →
        status = Status.keepaliveCancel) s.log
  /-- A connection that closed has no prompt, and gets none. -/
  closed : ∀ c seq, .cancel c seq true ∈ s.log → ¬ s.prompt.openFor c
  sealed : Each (fun before e => ∀ c task id, e = .opened c task id →
    ∀ seq, .cancel c seq true ∉ before) s.log

/-! ### The condition -/

/-- The requests whose call of `confirm` is still to come. -/
def Conn.ahead (k : Conn) : List Task :=
  match k.worker with
  | .entering task | .command task => task :: k.queue
  | _ => k.queue

/-- The number of the CANCEL frame that `serve` reads next. -/
def State.withdraws (s : State) (c : Owner) : Option Int32 :=
  match readFrame maxBody (s.conn c).received with
  | .message body _ =>
      match parse body with
      | .cancel seq => some seq
      | _ => none
  | _ => none

/-- No CANCEL is read while a request withdrawn by another number is still to
come to `confirm`. -/
def Unshadowed (s : State) (e : Event) : Prop :=
  match e with
  | .serve c _ => ∀ seq ∈ s.withdraws c, ∀ task ∈ (s.conn c).ahead,
      Withdrawn c task s.log → task.reqSeq = seq
  | _ => True

instance (s : State) (e : Event) : Decidable (Unshadowed s e) :=
  match e with
  | .serve c _ => @Option.decidableForallMem _
      (fun seq => ∀ task ∈ (s.conn c).ahead, Withdrawn c task s.log → task.reqSeq = seq)
      (fun _ => inferInstance) (s.withdraws c)
  | .receive .. | .endServe _ | .finallyStep _ | .execute _ | .enter _ | .confirm _
  | .awaitAnswer .. | .finish .. | .reply .. | .create _ | .approve _ | .deny _ | .abort _
  | .destroy _ | .reject _ | .clock _ => .isTrue trivial

/-! ### The invariant -/

structure Closing (s : State) : Prop where
  closed : ∀ c seq, .cancel c seq true ∈ s.log → (s.conn c).closed = true
  shut : ∀ c, (s.conn c).closed = true → ¬ s.prompt.openFor c
  sealed : Each (fun before e => ∀ c task id, e = .opened c task id →
    ∀ seq, .cancel c seq true ∉ before) s.log

structure Remembering (s : State) : Prop where
  placed : ∀ c task, .request c task ∈ s.log → task.place < (s.conn c).requests
  known : ∀ c, ∀ task ∈ (s.conn c).ahead, .request c task ∈ s.log
  remembered : ∀ c, ∀ task ∈ (s.conn c).ahead, Withdrawn c task s.log →
    (s.conn c).closed = true ∨ (s.conn c).cancelled = task.reqSeq

theorem closing_start (store : Store) (keys : List Bytes) : Closing (start store keys) :=
  ⟨by simp [start], by simp [start], .nil⟩

theorem remembering_start (store : Store) (keys : List Bytes) :
    Remembering (start store keys) :=
  ⟨by simp [start], by simp [start, Conn.ahead], by simp [start, Conn.ahead]⟩

/-- An entry about a request that came to `confirm`. -/
def Entry.Past : Entry → Prop
  | .refused .. | .answered .. | .returned .. | .handled .. => True
  | _ => False

/-- A step after which what these invariants speak of is as before, or less. -/
structure Fewer (s t : State) : Prop where
  log : t.log = s.log ∨ ∃ e, t.log = s.log ++ [e] ∧ e.Past
  prompt : ∀ c, t.prompt.openFor c → s.prompt.openFor c
  closed : ∀ c, (t.conn c).closed = (s.conn c).closed
  cancelled : ∀ c, (t.conn c).cancelled = (s.conn c).cancelled
  requests : ∀ c, (t.conn c).requests = (s.conn c).requests
  ahead : ∀ c, ∀ task ∈ (t.conn c).ahead, task ∈ (s.conn c).ahead

theorem Closing.fewer {s t : State} (h : Closing s) (hfewer : Fewer s t) : Closing t := by
  refine ⟨fun c seq hmem => ?_, fun c hc hopen => ?_, ?_⟩
  · rw [hfewer.closed]
    rcases hfewer.log with hsame | ⟨e, hlog, hpast⟩
    · exact h.closed c seq (hsame ▸ hmem)
    · rw [hlog] at hmem
      rcases List.mem_append.mp hmem with hold | hnew
      · exact h.closed c seq hold
      · rw [← List.mem_singleton.mp hnew] at hpast
        exact hpast.elim
  · exact h.shut c (hfewer.closed c ▸ hc) (hfewer.prompt c hopen)
  · rcases hfewer.log with hsame | ⟨e, hlog, hpast⟩
    · exact hsame ▸ h.sealed
    · rw [hlog]
      refine h.sealed.snoc fun c task id heq => ?_
      rw [heq] at hpast
      exact hpast.elim

theorem withdrawn_snoc {c : Owner} {task : Task} {log : List Entry} {e : Entry}
    (hknown : .request c task ∈ log) (h : Withdrawn c task (log ++ [e])) :
    Withdrawn c task log ∨ e = .cancel c task.reqSeq false := by
  rw [Withdrawn, since_append _ hknown, List.mem_append, List.mem_singleton] at h
  exact h.imp_right Eq.symm

theorem Remembering.fewer {s t : State} (h : Remembering s) (hfewer : Fewer s t) :
    Remembering t := by
  have hrequest {c : Owner} {task : Task} : .request c task ∈ t.log ↔ .request c task ∈ s.log := by
    rcases hfewer.log with hsame | ⟨e, hlog, hpast⟩
    · rw [hsame]
    · rw [hlog, List.mem_append, List.mem_singleton]
      refine or_iff_left fun heq => ?_
      rw [← heq] at hpast
      exact hpast
  refine ⟨fun c task hmem => ?_, fun c task htask => ?_, fun c task htask hwithdrawn => ?_⟩
  · rw [hfewer.requests]
    exact h.placed c task (hrequest.mp hmem)
  · exact hrequest.mpr (h.known c task (hfewer.ahead c task htask))
  · have hbefore := hfewer.ahead c task htask
    rw [hfewer.closed, hfewer.cancelled]
    refine h.remembered c task hbefore ?_
    rcases hfewer.log with hsame | ⟨e, hlog, hpast⟩
    · exact hsame ▸ hwithdrawn
    · rw [hlog] at hwithdrawn
      refine (withdrawn_snoc (h.known c task hbefore) hwithdrawn).resolve_right fun heq => ?_
      rw [heq] at hpast
      exact hpast

theorem ahead_subset {k k' : Conn} (hworker : k'.worker = k.worker)
    (hqueue : ∀ task ∈ k'.queue, task ∈ k.queue) : ∀ task ∈ k'.ahead, task ∈ k.ahead := by
  intro task htask
  unfold Conn.ahead at htask ⊢
  rw [hworker] at htask
  split at htask
  · exact List.mem_cons.mpr ((List.mem_cons.mp htask).imp_right (hqueue task))
  · exact List.mem_cons.mpr ((List.mem_cons.mp htask).imp_right (hqueue task))
  · exact hqueue task htask

theorem Aside.fewer {s t : State} (h : Aside s t) : Fewer s t := by
  have heq : t.prompt = {s.prompt with shown := t.prompt.shown} := h.prompt
  refine ⟨.inl h.log, fun c hopen => ?_, h.closed, h.cancelled, h.requests,
    fun c => ahead_subset (h.worker c) (h.queue c)⟩
  rw [heq] at hopen
  exact hopen

/-- One connection moves on with its requests. -/
theorem fewer_setConn {s : State} {c : Owner} {k : Conn} (hclosed : k.closed = (s.conn c).closed)
    (hcancelled : k.cancelled = (s.conn c).cancelled)
    (hrequests : k.requests = (s.conn c).requests)
    (hahead : ∀ task ∈ k.ahead, task ∈ (s.conn c).ahead) : Fewer s (s.setConn c k) := by
  refine ⟨.inl rfl, fun _ hopen => hopen, fun d => ?_, fun d => ?_, fun d => ?_, fun d => ?_⟩
  all_goals
    rw [setConn_conn]
    split
  all_goals simp_all

theorem Fewer.note {s t : State} (h : Fewer s t) (hlog : t.log = s.log) {e : Entry}
    (he : e.Past) : Fewer s (t.note e) :=
  ⟨.inr ⟨e, by rw [← hlog]; rfl, he⟩, h.prompt, h.closed, h.cancelled, h.requests, h.ahead⟩

/-- A worker that left a place before `confirm`. -/
theorem fewer_setWorker {s : State} {c : Owner} {w : Worker}
    (hahead : {s.conn c with worker := w}.ahead = (s.conn c).queue ∨
      {s.conn c with worker := w}.ahead = (s.conn c).ahead) : Fewer s (s.setWorker c w) := by
  refine fewer_setConn rfl rfl rfl fun task htask => ?_
  rcases hahead with hqueue | hsame
  · rw [hqueue] at htask
    unfold Conn.ahead
    split
    · exact List.mem_cons_of_mem _ htask
    · exact List.mem_cons_of_mem _ htask
    · exact htask
  · exact hsame ▸ htask

/-- The steps that these invariants have to look at. -/
inductive Change (s : State) (e : Event) (t : State) : Prop where
  | fewer (h : Fewer s t)
  | request {c : Owner} {s' : State} {task : Task} (haside : Aside s s')
      (hplace : task.place = (s'.conn c).requests)
      (ht : t = s'.enqueue c task)
  | cancel {c : Owner} {seq : Int32} {closed : Bool} {s' : State} (haside : Aside s s')
      (he : closed = true ∨ ∃ ok, e = .serve c ok ∧ seq ∈ s.withdraws c)
      (ht : t = s'.cancel c seq closed)
  | opens {c : Owner} {task : Task} (hworker : (s.conn c).worker = .command task)
      (hclosed : (s.conn c).closed = false) (hcancelled : (s.conn c).cancelled ≠ task.reqSeq)
      (ht : t = s.openPrompt c task)

theorem Step.change {sha : Sha256} {s t : State} {e : Event} (h : Step sha s e t) :
    Change s e t := by
  cases h with
  | aside haside => exact .fewer haside.fewer
  | @request c ok s' seqNo req haside => exact .request haside rfl rfl
  | @cancel _ c seq closed s' haside he =>
      refine .cancel haside ?_ rfl
      rcases he with ⟨-, rfl⟩ | ⟨ok, body, rest, rfl, -, hread, hbody⟩
      · exact .inl rfl
      · exact .inr ⟨ok, rfl, by simp [State.withdraws, hread, hbody]⟩
  | execute hworker hqueue =>
      exact .fewer (fewer_setConn rfl rfl rfl (by simp [Conn.ahead, hworker, hqueue]))
  | @enter c task hworker hfree =>
      have hfewer : Fewer s (s.setWorker c (.command task)) :=
        fewer_setWorker (.inr (by simp [Conn.ahead, hworker]))
      exact .fewer ⟨hfewer.log, hfewer.prompt, hfewer.closed, hfewer.cancelled, hfewer.requests,
        hfewer.ahead⟩
  | refuse hworker hgone => exact .fewer ((fewer_setWorker (.inl rfl)).note rfl trivial)
  | opens hworker hclosed hcancelled => exact .opens hworker hclosed hcancelled rfl
  | wait hworker => exact .fewer (fewer_setWorker (.inl rfl))
  | @close c task id interrupted hworker =>
      have hfewer : Fewer s (s.setWorker c (.answered task s.prompt.result)) :=
        fewer_setWorker (.inl rfl)
      refine .fewer ⟨.inr ⟨_, rfl, trivial⟩, fun d hopen => ?_, hfewer.closed, hfewer.cancelled,
        hfewer.requests, hfewer.ahead⟩
      cases hopen.2
  | @leave c task env hworker =>
      have hfewer : Fewer s (s.setWorker c
          (.replying task (handle sha env task.req c s.session.authenticator).1.reply.bytes)) :=
        fewer_setWorker (.inl rfl)
      exact .fewer ⟨.inr ⟨_, rfl, trivial⟩, hfewer.prompt, hfewer.closed, hfewer.cancelled,
        hfewer.requests, hfewer.ahead⟩
  | @reply c ok task r hworker =>
      refine .fewer (fewer_setConn ?_ ?_ ?_ ?_)
      all_goals
        unfold Conn.write
        split
      all_goals simp [Conn.ahead, hworker]
  | @answer _ id status s' haside hprompt he hissued hid =>
      have hfewer := haside.fewer
      refine .fewer ⟨.inr ⟨.answered id status, by rw [← haside.log]; rfl, trivial⟩,
        fun d hopen => ?_, hfewer.closed, hfewer.cancelled, hfewer.requests, hfewer.ahead⟩
      have hnone : (0 : Int) ≤ -1 := hopen.1
      omega

/-! ### The invariants across a step -/

theorem cancel_conn (s : State) (c d : Owner) (seq : Int32) (closed : Bool) :
    (s.cancel c seq closed).conn d =
      if d = c then {s.conn c with
        cancelled := seq
        closed := (s.conn c).closed || closed}
      else s.conn d :=
  setConn_conn s c d _

theorem cancel_openFor {s : State} {c d : Owner} {seq : Int32} {closed : Bool}
    (h : (s.cancel c seq closed).prompt.openFor d) :
    s.prompt.openFor d ∧ s.prompt.concerns c seq closed = false := by
  have hprompt : (s.cancel c seq closed).prompt = s.prompt.cancel c seq closed := rfl
  rw [hprompt, Prompt.cancel] at h
  split at h
  · have hnone : (0 : Int) ≤ -1 := h.1
    omega
  · rename_i hconcerns
    exact ⟨h, Bool.eq_false_iff.mpr hconcerns⟩

theorem Closing.step {s t : State} {e : Event} (h : Closing s) (hchange : Change s e t) :
    Closing t := by
  cases hchange with
  | fewer hfewer => exact h.fewer hfewer
  | @request c s' task haside hplace ht =>
      have h' := h.fewer haside.fewer
      have hclosed (d : Owner) : (t.conn d).closed = (s'.conn d).closed := by
        rw [ht]
        change ((s'.setConn c _).conn d).closed = _
        rw [setConn_conn]
        split
        · rename_i hd
          rw [hd]
        · rfl
      have hlog : t.log = s'.log ++ [.request c task] := ht ▸ rfl
      refine ⟨fun d seq hmem => ?_, fun d hd => ?_, ?_⟩
      · rw [hclosed]
        refine h'.closed d seq ?_
        simpa [hlog] using hmem
      · rw [hclosed] at hd
        exact ht ▸ h'.shut d hd
      · rw [hlog]
        exact h'.sealed.snoc fun d other id heq => by cases heq
  | @cancel c seq closed s' haside he ht =>
      subst ht
      have h' := h.fewer haside.fewer
      refine ⟨fun d other hmem => ?_, fun d hd hopen => ?_, ?_⟩
      · rw [cancel_conn]
        rcases List.mem_append.mp hmem with hold | hnew
        · have hbefore := h'.closed d other hold
          split
          · rename_i hdc
            simp [← hdc, hbefore]
          · exact hbefore
        · obtain ⟨rfl, rfl, rfl⟩ := Entry.cancel.inj (List.mem_singleton.mp hnew)
          simp
      · obtain ⟨hbefore, hconcerns⟩ := cancel_openFor hopen
        rw [cancel_conn] at hd
        split at hd
        · rename_i hdc
          subst hdc
          cases closed with
          | true => simp [Prompt.concerns, hbefore.1, hbefore.2] at hconcerns
          | false => exact h'.shut d (by simpa using hd) hbefore
        · exact h'.shut d hd hbefore
      · exact h'.sealed.snoc fun d other id heq => by cases heq
  | @opens c task hworker hclosed hcancelled ht =>
      have hconn (d : Owner) : (t.conn d).closed = (s.conn d).closed := by
        rw [ht]
        change ((s.setWorker c _).conn d).closed = _
        rw [State.setWorker, setConn_conn]
        split
        · rename_i hd
          rw [hd]
        · rfl
      have hlog : t.log = s.log ++ [.opened c task (s.prompt.seq + 1)] := ht ▸ rfl
      refine ⟨fun d seq hmem => ?_, fun d hd hopen => ?_, ?_⟩
      · rw [hconn]
        exact h.closed d seq (by simpa [hlog] using hmem)
      · rw [hconn] at hd
        rw [ht] at hopen
        obtain rfl : c = d := Option.some.inj hopen.2
        rw [hclosed] at hd
        cases hd
      · rw [hlog]
        refine h.sealed.snoc fun d other id heq seq hmem => ?_
        obtain ⟨rfl, -, -⟩ := Entry.opened.inj heq
        rw [h.closed c seq hmem] at hclosed
        cases hclosed

theorem ahead_enqueue {k : Conn} {task new : Task} {requests : Nat}
    (h : task ∈ {k with requests := requests, queue := k.queue ++ [new] : Conn}.ahead) :
    task ∈ k.ahead ∨ task = new := by
  unfold Conn.ahead at h ⊢
  dsimp only at h
  split at h
  all_goals simp_all [or_assoc]

theorem enqueue_conn (s : State) (c d : Owner) (task : Task) :
    (s.enqueue c task).conn d =
      if d = c then {s.conn c with
        requests := (s.conn c).requests + 1
        queue := (s.conn c).queue ++ [task]}
      else s.conn d :=
  setConn_conn s c d _

theorem Remembering.request {s : State} (h : Remembering s) {c : Owner} {task : Task}
    (hplace : task.place = (s.conn c).requests) : Remembering (s.enqueue c task) := by
  have hlog : (s.enqueue c task).log = s.log ++ [.request c task] := rfl
  have hnew : .request c task ∉ s.log := fun hmem => by
    have hlt := h.placed c task hmem
    omega
  have hahead (d : Owner) (other : Task) (hmem : other ∈ ((s.enqueue c task).conn d).ahead) :
      other ∈ (s.conn d).ahead ∨ d = c ∧ other = task := by
    rw [enqueue_conn] at hmem
    split at hmem
    · rename_i hdc
      subst hdc
      exact (ahead_enqueue hmem).imp_right fun heq => ⟨rfl, heq⟩
    · exact .inl hmem
  refine ⟨fun d other hmem => ?_, fun d other hmem => ?_, fun d other hmem hwithdrawn => ?_⟩
  · rw [enqueue_conn]
    rcases List.mem_append.mp (hlog ▸ hmem) with hold | hlast
    · have hlt := h.placed d other hold
      split
      · rename_i hdc
        subst hdc
        exact Nat.lt_succ_of_lt hlt
      · exact hlt
    · obtain ⟨rfl, rfl⟩ := Entry.request.inj (List.mem_singleton.mp hlast)
      rw [if_pos rfl, hplace]
      exact Nat.lt_succ_self _
  · rw [hlog]
    rcases hahead d other hmem with hbefore | ⟨rfl, rfl⟩
    · exact List.mem_append_left _ (h.known d other hbefore)
    · exact List.mem_append_right _ (List.mem_singleton_self _)
  · rw [hlog] at hwithdrawn
    rcases hahead d other hmem with hbefore | ⟨rfl, rfl⟩
    · have hold := (withdrawn_snoc (h.known d other hbefore) hwithdrawn).resolve_right
        fun heq => by cases heq
      have hremembered := h.remembered d other hbefore hold
      rw [enqueue_conn]
      split
      · rename_i hdc
        subst hdc
        exact hremembered
      · exact hremembered
    · rw [Withdrawn, since_snoc _ hnew] at hwithdrawn
      cases hwithdrawn

theorem Remembering.cancel {s : State} (h : Remembering s) {c : Owner} {seq : Int32}
    {closed : Bool} (hok : closed = true ∨ ∀ task ∈ (s.conn c).ahead,
      Withdrawn c task s.log → task.reqSeq = seq) : Remembering (s.cancel c seq closed) := by
  have hlog : (s.cancel c seq closed).log = s.log ++ [.cancel c seq closed] := rfl
  have hrequests (d : Owner) : ((s.cancel c seq closed).conn d).requests = (s.conn d).requests := by
    rw [cancel_conn]
    split
    · rename_i hdc
      rw [hdc]
    · rfl
  have hahead (d : Owner) : ((s.cancel c seq closed).conn d).ahead = (s.conn d).ahead := by
    rw [cancel_conn]
    split
    · rename_i hdc
      rw [hdc]
      rfl
    · rfl
  refine ⟨fun d task hmem => ?_, fun d task hmem => ?_, fun d task hmem hwithdrawn => ?_⟩
  · rw [hrequests]
    exact h.placed d task (by simpa [hlog] using hmem)
  · rw [hahead] at hmem
    exact hlog ▸ List.mem_append_left _ (h.known d task hmem)
  · rw [hahead] at hmem
    rw [cancel_conn]
    split
    · rename_i hdc
      subst hdc
      rcases hok with rfl | hok
      · exact .inl (Bool.or_true _)
      · refine .inr ?_
        rcases withdrawn_snoc (h.known d task hmem) (hlog ▸ hwithdrawn) with hold | heq
        · exact (hok task hmem hold).symm
        · obtain ⟨-, hseq, -⟩ := Entry.cancel.inj heq
          exact hseq
    · rename_i hdc
      refine h.remembered d task hmem ?_
      refine (withdrawn_snoc (h.known d task hmem) (hlog ▸ hwithdrawn)).resolve_right fun heq => ?_
      exact hdc (Entry.cancel.inj heq).1.symm

theorem Remembering.opens {s : State} (h : Remembering s) (c : Owner) (task : Task) :
    Remembering (s.openPrompt c task) := by
  have hfewer : Fewer s (s.setWorker c (.opened task (s.prompt.seq + 1))) :=
    fewer_setWorker (.inl rfl)
  have hlog : (s.openPrompt c task).log = s.log ++ [.opened c task (s.prompt.seq + 1)] := rfl
  have hbefore := h.fewer hfewer
  refine ⟨fun d other hmem => ?_, fun d other hmem => ?_, fun d other hmem hwithdrawn => ?_⟩
  · have hold : .request d other ∈ s.log := by simpa [hlog] using hmem
    exact hbefore.placed d other hold
  · exact List.mem_append_left _ (hbefore.known d other hmem)
  · refine hbefore.remembered d other hmem ?_
    exact (withdrawn_snoc (hbefore.known d other hmem) hwithdrawn).resolve_right
      fun heq => by cases heq

theorem Remembering.step {s t : State} {e : Event} (h : Remembering s) (hok : Unshadowed s e)
    (hchange : Change s e t) : Remembering t := by
  cases hchange with
  | fewer hfewer => exact h.fewer hfewer
  | request haside hplace ht => exact ht ▸ (h.fewer haside.fewer).request hplace
  | @cancel c seq closed s' haside he ht =>
      refine ht ▸ (h.fewer haside.fewer).cancel (he.imp_right ?_)
      rintro ⟨ok, rfl, hseq⟩ task htask hwithdrawn
      exact hok seq hseq task (haside.fewer.ahead c task htask) (haside.log ▸ hwithdrawn)
  | opens hworker hclosed hcancelled ht => exact ht ▸ h.opens ..

/-! ### The law -/

theorem closing_reachable {sha : Sha256} {store : Store} {keys : List Bytes} {s : State}
    (h : Reach (next sha) always (start store keys) s) : Closing s :=
  h.invariant (closing_start store keys)
    fun _ _ _ ht _ hnext => ht.step (step_cases hnext).change

/-- A cancel that ended the prompt first is what `confirm` returns. -/
theorem verdict_cancel {c : Owner} {task : Task} {id : Int} {log mid rest : List Entry}
    {seq : Int32} {closed : Bool}
    (hsplit : since (.opened c task id) log = mid ++ .cancel c seq closed :: rest)
    (hmatch : closed = true ∨ task.reqSeq = seq) (hmid : ∀ x ∈ mid, x.ends c task id = none) :
    verdict c task id log = some Status.keepaliveCancel := by
  have hends : Entry.ends c task id (.cancel c seq closed) = some Status.keepaliveCancel :=
    if_pos ⟨rfl, hmatch⟩
  rw [verdict, hsplit, List.findSome?_append, List.findSome?_eq_none_iff.mpr hmid,
    Option.none_or, List.findSome?_cons, hends]

/-- In every run in which no CANCEL is read over one that is still to count, a
request that was withdrawn gets no prompt or loses it, and so do the requests
of a connection that closed. -/
theorem cancel_law {sha : Sha256} {store : Store} {keys : List Bytes} {s : State}
    (h : Reach (next sha) Unshadowed (start store keys) s) : CancelLaw sha s := by
  have hinv := inv_reachable h.weaken
  have hclosing := closing_reachable h.weaken
  have hremembering : Remembering s :=
    h.invariant (remembering_start store keys)
      fun _ _ _ ht hok hnext => ht.step hok (step_cases hnext).change
  refine ⟨fun c task hworker hwithdrawn t hnext => ?_, ?_, fun c seq hmem =>
    hclosing.shut c (hclosing.closed c seq hmem), hclosing.sealed⟩
  · have hgone := hremembering.remembered c task (by simp [Conn.ahead, hworker]) hwithdrawn
    have hcheck : ((s.conn c).closed || (s.conn c).cancelled = task.reqSeq) = true := by
      simpa using hgone
    simp only [next, State.confirm, hworker, hcheck, ↓reduceIte, Option.some.injEq] at hnext
    subst hnext
    exact ⟨by simp [State.note, setWorker_worker], rfl⟩
  · refine hinv.returned.mono fun before e _ he c task id status timedOut heq mid seq closed rest
      hsplit hmatch hmid => ?_
    obtain ⟨hstatus, -⟩ := he c task id status timedOut heq
    rw [hstatus, verdict_cancel hsplit hmatch hmid]
    rfl

def requestFrame (number : UInt8) : Bytes :=
  frame (REQ :: [0, 0, 0, number] ++ signInCall.req)

def cancelFrame (number : UInt8) : Bytes :=
  frame (CANCEL :: [0, 0, 0, number])

/-- The request of the worker, and whether it was withdrawn. -/
def commanded (s : State) (c : Owner) : Option (Task × Bool) :=
  match (s.conn c).worker with
  | .command task => some (task, Withdrawn c task s.log)
  | _ => none

theorem commanded_eq {s : State} {c : Owner} {task : Task}
    (h : commanded s c = some (task, true)) :
    (s.conn c).worker = .command task ∧ Withdrawn c task s.log := by
  unfold commanded at h
  split at h
  · rename_i found hworker
    obtain ⟨rfl, hwithdrawn⟩ := Prod.mk.inj (Option.some.inj h)
    exact ⟨hworker, of_decide_eq_true hwithdrawn⟩
  · cases h

/-- A request is withdrawn before its worker comes to `confirm`. -/
def withdrawnEvents : List Event :=
  [.receive 0 (requestFrame 1 ++ cancelFrame 1), .serve 0 true, .serve 0 true, .execute 0, .enter 0]

theorem withdrawn_withheld : ∃ s task,
    Reach (next zeroDigest) Unshadowed (start twoAccounts [[1], [2]]) s ∧
      (s.conn 0).worker = .command task ∧ Withdrawn 0 task s.log ∧ CancelLaw zeroDigest s := by
  have hruns : (replay (next zeroDigest) Unshadowed (start twoAccounts [[1], [2]])
      withdrawnEvents).map (commanded · 0) =
        some (some (⟨0, [0, 0, 0, 1], signInCall.req⟩, true)) := rfl
  obtain ⟨s, hrun, hcommanded⟩ := Option.map_eq_some_iff.mp hruns
  obtain ⟨hworker, hwithdrawn⟩ := commanded_eq hcommanded
  have hreach := reach_of_replay hrun
  exact ⟨s, _, hreach, hworker, hwithdrawn, cancel_law hreach⟩

/-! ### The second of two withdrawn requests hides the first -/

/-- Two requests are sent and withdrawn before the first comes to `confirm`. -/
def shadowedEvents : List Event :=
  List.flatten [[.receive 0 (requestFrame 1 ++ cancelFrame 1 ++ requestFrame 2 ++ cancelFrame 2)],
    List.replicate 4 (.serve 0 true), [.execute 0, .enter 0]]

/-- The prompt of the first request opens although it was withdrawn. -/
theorem withdrawn_opens : ∃ s, Reach (next zeroDigest) always (start twoAccounts [[1], [2]]) s ∧
    ¬ CancelLaw zeroDigest s := by
  have hruns : ((replay (next zeroDigest) always (start twoAccounts [[1], [2]])
      shadowedEvents).bind fun s => (next zeroDigest s (.confirm 0)).map fun t =>
        (commanded s 0, s.prompt.seq, t.prompt.seq)) =
          some (some (⟨0, [0, 0, 0, 1], signInCall.req⟩, true), 0, 1) := rfl
  obtain ⟨s, hrun, hrest⟩ := Option.bind_eq_some_iff.mp hruns
  obtain ⟨t, hstep, hfacts⟩ := Option.map_eq_some_iff.mp hrest
  simp only [Prod.mk.injEq] at hfacts
  obtain ⟨hcommanded, hbefore, hafter⟩ := hfacts
  obtain ⟨hworker, hwithdrawn⟩ := commanded_eq hcommanded
  refine ⟨s, reach_of_replay hrun, fun hlaw => ?_⟩
  obtain ⟨-, hkept⟩ := hlaw.withheld 0 _ hworker hwithdrawn t hstep
  rw [hkept, hbefore] at hafter
  exact absurd hafter (by decide)

end Passkey.Phone.KeyService

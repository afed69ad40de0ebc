import Passkey.Phone.Cancels
import Passkey.Phone.PromptActivity
import Passkey.Phone.Tasks

/-!
From a touch of the sensor to a signature. Over every interleaving of the
connections, the workers and the activities, what the authenticator creates or
signs with a flag set goes back to a sheet that the user approved while it was
shown for the request, or for the sign-in that opened the chain.
-/

namespace Passkey.Phone

open Library

/-! ### What `confirm` returns in a call -/

/-- Every prompt of the call so far came back with what the user decided. -/
def Decided (env : Env) (w : World) : Prop :=
  ∀ rpId title detail status, .confirm rpId title detail status ∈ w.effects →
    status = env.decision

section Decisions

variable {env : Env}

theorem note_decided {e : Effect}
    (he : ∀ rpId title detail status, e = .confirm rpId title detail status →
      status = env.decision) :
    Triple (Decided env) (note e) (fun _ => Decided env) (Decided env) := by
  refine Triple.update fun w hw => ?_
  intro rpId title detail status hmem
  rcases List.mem_append.mp hmem with hold | hnew
  · exact hw rpId title detail status hold
  · exact he rpId title detail status (List.mem_singleton.mp hnew).symm

theorem confirm_decided (rpId title suffix : Text) :
    Triple (Decided env) (confirm env rpId title suffix) (fun _ => Decided env)
      (Decided env) := by
  refine Triple.bind (note_decided ?_) fun _ => Triple.pure fun _ hw => hw
  intro rpId' title' detail status heq
  cases heq
  rfl

theorem ofExcept_decided {α : Type} (x : Except Thrown α) :
    Triple (Decided env) (ofExcept x : Java α) (fun _ => Decided env) (Decided env) :=
  Triple.ofExcept (fun _ _ _ hw => hw) fun _ hw => hw

theorem get_decided :
    Triple (Decided env) (get : Java World) (fun _ => Decided env) (Decided env) :=
  Triple.get fun _ hw => hw

theorem save_decided (id : Bytes) (c : Json) :
    Triple (Decided env) (save id c) (fun _ => Decided env) (Decided env) :=
  Triple.update fun _ hw => hw

theorem sign_decided (id ad cdh : Bytes) :
    Triple (Decided env) (sign env id ad cdh) (fun _ => Decided env) (Decided env) := by
  unfold sign
  split
  · exact Triple.bind (note_decided (by simp)) fun _ => Triple.pure fun _ hw => hw
  · exact Triple.throw fun _ hw => hw

theorem newKey_decided (id : Bytes) :
    Triple (Decided env) (newKey env id) (fun _ => Decided env) (Decided env) := by
  unfold newKey
  split
  · exact Triple.bind (R := fun _ => Decided env) (Triple.update fun _ hw => hw)
      fun _ => Triple.pure fun _ hw => hw
  · exact Triple.throw fun _ hw => hw

theorem replaceOld_decided (rpId : Text) (uid : Bytes) (store : Store) :
    Triple (Decided env) (replaceOld env rpId uid store) (fun _ => Decided env)
      (Decided env) := by
  induction store with
  | nil => exact Triple.pure fun _ hw => hw
  | cons entry rest ih =>
      refine Triple.bind (ofExcept_decided _) fun old => ?_
      cases old with
      | true =>
          exact Triple.bind (R := fun _ => Decided env) (Triple.update fun _ hw => hw) fun _ => ih
      | false => exact ih

theorem create_decided (sha : Sha256) (r : Registration) (rpId : Text) :
    Triple (Decided env) (create sha env r rpId) (fun _ => Decided env) (Decided env) := by
  have hstore : Triple (Decided env) (create.store sha env r rpId) (fun _ => Decided env)
      (Decided env) := by
    unfold create.store
    refine Triple.bind (newKey_decided _) fun point => ?_
    refine Triple.bind (ofExcept_decided _) fun uid => ?_
    refine Triple.bind (save_decided _ _) fun _ => ?_
    refine Triple.bind (note_decided (by simp)) fun _ => ?_
    refine Triple.bind (ofExcept_decided _) fun cose => ?_
    exact Triple.bind (sign_decided _ _ _) fun sig => ofExcept_decided _
  unfold create
  refine Triple.bind get_decided fun w => Triple.ite (fun _ => ?_) fun _ => hstore
  refine Triple.bind (ofExcept_decided _) fun uid => ?_
  exact Triple.bind (replaceOld_decided rpId uid _) fun _ => hstore

theorem makeCredential_decided (sha : Sha256) (p : Option Object) :
    Triple (Decided env) (makeCredential sha env p) (fun _ => Decided env) (Decided env) := by
  unfold makeCredential
  refine Triple.bind (ofExcept_decided _) fun p => ?_
  refine Triple.bind (ofExcept_decided _) fun parameters => ?_
  cases parameters with
  | error status => exact Triple.pure fun _ hw => hw
  | ok r =>
      refine Triple.bind get_decided fun w => ?_
      refine Triple.bind (ofExcept_decided _) fun already => ?_
      refine Triple.bind (ofExcept_decided _) fun rpId => ?_
      refine Triple.ite (fun _ => ?_) fun _ => ?_
      · exact Triple.bind (confirm_decided _ _ _) fun s => Triple.pure fun _ hw => hw
      · refine Triple.bind (confirm_decided _ _ _) fun s => ?_
        exact Triple.ite (fun _ => Triple.pure fun _ hw => hw) fun _ => create_decided sha r rpId

theorem assertion_decided (sha : Sha256) (id : Bytes) (rpId : Text) (cdh : Bytes)
    (flags : UInt8) (count : Nat) (withUser : Bool) :
    Triple (Decided env) (assertion sha env id rpId cdh flags count withUser)
      (fun _ => Decided env) (Decided env) := by
  unfold assertion
  refine Triple.bind get_decided fun w => ?_
  refine Triple.bind (save_decided _ _) fun _ => ?_
  refine Triple.ite (fun _ => Triple.throw fun _ hw => hw) fun _ => ?_
  refine Triple.bind (sign_decided _ _ _) fun sig => ?_
  refine Triple.ite (fun _ => ?_) fun _ => Triple.pure fun _ hw => hw
  exact Triple.bind (ofExcept_decided _) fun uid => Triple.pure fun _ hw => hw

theorem getAssertion_decided (sha : Sha256) (p : Option Object) :
    Triple (Decided env) (getAssertion sha env p) (fun _ => Decided env) (Decided env) := by
  have hanswer (q : SignIn) (first : Bytes) (rest : List Bytes) :
      Triple (Decided env) (answer sha env q first rest) (fun _ => Decided env)
        (Decided env) := by
    unfold answer
    refine Triple.bind (R := fun _ => Decided env) (Triple.update fun _ hw => hw) fun _ => ?_
    exact Triple.bind (assertion_decided sha _ _ _ _ _ _) fun m => ofExcept_decided _
  unfold getAssertion
  refine Triple.bind (ofExcept_decided _) fun p => ?_
  refine Triple.bind (ofExcept_decided _) fun parameters => ?_
  cases parameters with
  | error status => exact Triple.pure fun _ hw => hw
  | ok q =>
      refine Triple.bind get_decided fun w => ?_
      refine Triple.bind (ofExcept_decided _) fun found => ?_
      cases found with
      | nil =>
          refine Triple.ite (fun _ => ?_) fun _ => Triple.pure fun _ hw => hw
          exact Triple.bind (confirm_decided _ _ _) fun s => Triple.pure fun _ hw => hw
      | cons first rest =>
          refine Triple.ite (fun _ => ?_) fun _ => hanswer q first rest
          refine Triple.bind (confirm_decided _ _ _) fun s => ?_
          exact Triple.ite (fun _ => Triple.pure fun _ hw => hw) fun _ => hanswer q first rest

theorem getNextAssertion_decided (sha : Sha256) :
    Triple (Decided env) (getNextAssertion sha env) (fun _ => Decided env) (Decided env) := by
  unfold getNextAssertion
  refine Triple.bind get_decided fun w => ?_
  split
  · exact Triple.pure fun _ hw => hw
  · refine Triple.bind (R := fun _ => Decided env) (Triple.update fun _ hw => hw) fun _ => ?_
    refine Triple.bind (ofExcept_decided _) fun rpId => ?_
    refine Triple.bind (ofExcept_decided _) fun cdh => ?_
    exact Triple.bind (assertion_decided sha _ _ _ _ _ _) fun m => ofExcept_decided _

theorem dispatch_decided (sha : Sha256) (cmd : UInt8) (req : Bytes) :
    Triple (Decided env) (dispatch sha env cmd req) (fun _ => Decided env) (Decided env) := by
  unfold dispatch
  refine Triple.bind (ofExcept_decided _) fun p => ?_
  refine Triple.ite (fun _ => ofExcept_decided _) fun _ => ?_
  refine Triple.ite (fun _ => makeCredential_decided sha p) fun _ => ?_
  refine Triple.ite (fun _ => getAssertion_decided sha p) fun _ => ?_
  exact Triple.ite (fun _ => getNextAssertion_decided sha) fun _ => Triple.pure fun _ hw => hw

/-- A prompt of a call came back with what the user decided. -/
theorem handle_decided {sha : Sha256} {req : Bytes} {c : Owner} {a : Authenticator}
    {rpId title detail : Text} {status : Int}
    (h : .confirm rpId title detail status ∈ (handle sha env req c a).1.effects) :
    status = env.decision := by
  unfold handle at h
  split at h
  · simp at h
  · rename_i cmd rest
    have hspec := @dispatch_decided env sha cmd (cmd :: rest)
      {a.enter env cmd c with} (by simp [Decided])
    split at h
    · rename_i reply w hrun
      rw [hrun] at hspec
      exact hspec _ _ _ _ h
    · rename_i e w hrun
      rw [hrun] at hspec
      exact hspec _ _ _ _ h

end Decisions

namespace KeyService

/-! ### The requests behind the calls -/

def Entry.handling : Entry → Option (Owner × Task)
  | .handled c task _ => some (c, task)
  | _ => none

/-- The requests that `handle` was called for, in order. -/
def calls (log : List Entry) : List (Owner × Task) :=
  log.filterMap Entry.handling

/-- The call was made for the request, and what the user approved in it is a
prompt that was opened for the request. -/
structure Credit (log : List Entry) (x : Owner × Task) (y : Call × Outcome) : Prop where
  owner : y.1.owner = x.1
  req : y.1.req = x.2.req
  approved : ∀ rpId title detail, .confirm rpId title detail Status.ok ∈ y.2.effects →
    ∃ id timedOut, .returned x.1 x.2 id Status.ok timedOut ∈ log

structure Credited (s : State) : Prop where
  answered : ∀ c task, (s.conn c).worker = .answered task Status.ok →
    ∃ id timedOut, .returned c task id Status.ok timedOut ∈ s.log
  calls : List.Forall₂ (Credit s.log) (calls s.log) s.session.history

/-- A step in which `handle` does not return. -/
structure Moves (s t : State) : Prop where
  log : ∃ new : Option Entry, t.log = s.log ++ new.toList ∧ ∀ e ∈ new, e.handling = none
  answered : ∀ c task status, (t.conn c).worker = .answered task status →
    (s.conn c).worker = .answered task status ∨ status = Status.keepaliveCancel ∨
      ∃ id timedOut, .returned c task id status timedOut ∈ t.log

/-- A step that leaves the workers alone. -/
theorem Moves.still {s t : State} {n : Option Entry} (hlog : t.log = s.log ++ n.toList)
    (hnew : ∀ e ∈ n, e.handling = none)
    (hworker : ∀ c, (t.conn c).worker = (s.conn c).worker) : Moves s t :=
  ⟨⟨n, hlog, hnew⟩, fun c _ _ h => .inl (hworker c ▸ h)⟩

/-- A step of one worker. -/
theorem Moves.goes {s t : State} {c : Owner} {w : Worker} {n : Option Entry}
    (hlog : t.log = s.log ++ n.toList) (hnew : ∀ e ∈ n, e.handling = none)
    (hworker : ∀ d, (t.conn d).worker = if d = c then w else (s.conn d).worker)
    (hw : ∀ task status, w = .answered task status → status = Status.keepaliveCancel ∨
      ∃ id timedOut, .returned c task id status timedOut ∈ t.log) : Moves s t := by
  refine ⟨⟨n, hlog, hnew⟩, fun d task status h => ?_⟩
  rw [hworker] at h
  split at h
  · rename_i hdc
    subst hdc
    exact .inr (hw task status h)
  · exact .inl h

theorem cancel_worker (s : State) (c d : Owner) (seq : Int32) (closed : Bool) :
    ((s.cancel c seq closed).conn d).worker = (s.conn d).worker := by
  rw [cancel_conn]
  split
  · rename_i hdc
    rw [hdc]
  · rfl

theorem enqueue_worker (s : State) (c d : Owner) (task : Task) :
    ((s.enqueue c task).conn d).worker = (s.conn d).worker := by
  rw [enqueue_conn]
  split
  · rename_i hdc
    rw [hdc]
  · rfl

/-- A step is a return of `handle` or none. -/
theorem Step.moves {sha : Sha256} {s t : State} {e : Event} (h : Step sha s e t) :
    Moves s t ∨ ∃ c task env, ((s.conn c).worker = .command task ∨
        (s.conn c).worker = .answered task env.decision) ∧ e = .finish c env ∧
      t = s.leave c task env (handle sha env task.req c s.session.authenticator) := by
  cases h with
  | aside haside => exact .inl (.still (n := none) (by simp [haside.log]) (by simp) haside.worker)
  | @request c ok s' seqNo req haside =>
      refine .inl (.still (n := some _) (congrArg (· ++ [_]) haside.log) (by simp; rfl) ?_)
      exact fun d => (enqueue_worker ..).trans (haside.worker d)
  | @cancel _ c seq closed s' haside he =>
      refine .inl (.still (n := some _) (congrArg (· ++ [_]) haside.log) (by simp; rfl) ?_)
      exact fun d => (cancel_worker ..).trans (haside.worker d)
  | @execute c task rest hworker hqueue =>
      exact .inl (.goes (n := none) (by simp) (by simp) (setConn_worker s c · _) (by simp))
  | @enter c task hworker hfree =>
      exact .inl (.goes (n := none) (by simp [State.setWorker]) (by simp)
        (setWorker_worker s c · _) (by simp))
  | @refuse c task hworker hgone =>
      refine .inl (.goes (n := some _) rfl (by simp; rfl) (setWorker_worker s c · _) ?_)
      intro task' status heq
      cases heq
      exact .inl rfl
  | @opens c task hworker hclosed hcancelled =>
      exact .inl (.goes (n := some _) rfl (by simp; rfl) (setWorker_worker s c · _) (by simp))
  | @wait c task id deadline interrupted hworker =>
      exact .inl (.goes (n := none) (by simp [State.setWorker]) (by simp)
        (setWorker_worker s c · _) (by simp))
  | @close c task id interrupted hworker =>
      refine .inl (.goes (n := some _) rfl (by simp; rfl) (setWorker_worker s c · _) ?_)
      intro task' status heq
      cases heq
      exact .inr ⟨id, _, List.mem_append_right _ (List.mem_singleton_self _)⟩
  | @leave c task env hworker => exact .inr ⟨c, task, env, hworker, rfl, rfl⟩
  | @reply c ok task r hworker =>
      exact .inl (.goes (n := none) (by simp) (by simp) (setConn_worker s c · _) (by simp))
  | @answer _ id status s' haside hprompt he hissued hid =>
      exact .inl (.still (n := some _) (congrArg (· ++ [_]) haside.log) (by simp; rfl)
        haside.worker)

theorem Credit.mono {log more : List Entry} {x : Owner × Task} {y : Call × Outcome}
    (h : Credit log x y) : Credit (log ++ more) x y := by
  refine ⟨h.owner, h.req, fun rpId title detail hmem => ?_⟩
  obtain ⟨id, timedOut, hreturned⟩ := h.approved rpId title detail hmem
  exact ⟨id, timedOut, List.mem_append_left _ hreturned⟩

theorem asked_of_confirm {o : Outcome} {rpId title detail : Text} {status : Int}
    (h : .confirm rpId title detail status ∈ o.effects) : asked o = true :=
  List.any_eq_true.mpr ⟨_, h, rfl⟩

/-- A worker that returns from `handle` without a prompt asked nothing. -/
theorem unasked {sha : Sha256} {s t : State} {c : Owner} {env : Env} {task : Task}
    (h : s.finish sha c env = some t) (hworker : (s.conn c).worker = .command task) :
    asked (handle sha env task.req c s.session.authenticator).1 = false := by
  unfold State.finish at h
  rw [hworker] at h
  simpa using (Option.ite_none_left_eq_some.mp h).1

theorem Credited.moves {s t : State} (h : Credited s) (hmoves : Moves s t)
    (hsession : t.session = s.session) : Credited t := by
  obtain ⟨new, hlog, hnew⟩ := hmoves.log
  have hcalls : KeyService.calls t.log = KeyService.calls s.log := by
    cases new with
    | none => simp [hlog]
    | some e => simp [KeyService.calls, hlog, hnew e rfl]
  constructor
  · intro c task hworker
    rcases hmoves.answered c task _ hworker with hold | hcancel | hreturned
    · obtain ⟨id, timedOut, hmem⟩ := h.answered c task hold
      exact ⟨id, timedOut, hlog ▸ List.mem_append_left _ hmem⟩
    · exact absurd hcancel (by decide)
    · exact hreturned
  · rw [hcalls, hsession, hlog]
    exact h.calls.imp fun _ _ hcredit => hcredit.mono

theorem Credited.leave {sha : Sha256} {s t : State} (h : Credited s) {c : Owner} {task : Task}
    {env : Env} (hworker : (s.conn c).worker = .command task ∨
      (s.conn c).worker = .answered task env.decision)
    (hfinish : s.finish sha c env = some t)
    (ht : t = s.leave c task env (handle sha env task.req c s.session.authenticator)) :
    Credited t := by
  have hnew : Credit s.log (c, task)
      (State.call c task env, (handle sha env task.req c s.session.authenticator).1) := by
    refine ⟨rfl, rfl, fun rpId title detail hmem => ?_⟩
    rcases hworker with hcommand | hanswered
    · have hasked := asked_of_confirm hmem
      rw [unasked hfinish hcommand] at hasked
      cases hasked
    · rw [← handle_decided hmem] at hanswered
      exact h.answered c task hanswered
  subst ht
  constructor
  · intro d task' hanswered
    change ((s.setWorker c _).conn d).worker = _ at hanswered
    rw [setWorker_worker] at hanswered
    split at hanswered
    · cases hanswered
    · obtain ⟨id, timedOut, hmem⟩ := h.answered d task' hanswered
      exact ⟨id, timedOut, List.mem_append_left _ hmem⟩
  · change List.Forall₂ _ (KeyService.calls (s.log ++ [_])) (s.session.history ++ [_])
    rw [KeyService.calls, List.filterMap_append]
    refine List.rel_append (h.calls.imp fun _ _ hcredit => hcredit.mono) ?_
    exact .cons hnew.mono .nil

theorem credited_reachable {sha : Sha256} {store : Store} {keys : List Bytes} {s : State}
    (h : Reach (next sha) always (start store keys) s) : Credited s := by
  refine h.invariant ⟨by simp [start], .nil⟩ fun t e u ht _ hnext => ?_
  rcases (step_cases hnext).moves with hmoves | ⟨c, task, env, hworker, rfl, hu⟩
  · cases callStep_cases hnext with
    | none hsession hcalls => exact ht.moves hmoves hsession
    | leave hu =>
        obtain ⟨new, hlog, hnew⟩ := hmoves.log
        have hlogs : t.log ++ new.toList = t.log ++ [_] := hlog.symm.trans (congrArg State.log hu)
        cases new with
        | none => simp at hlogs
        | some e =>
            have he := hnew e rfl
            rw [List.singleton_inj.mp (List.append_cancel_left hlogs)] at he
            cases he
  · exact ht.leave hworker hnext hu

/-! ### The prompts behind the requests -/

/-- Prompt ids are used once. -/
def Numbered (log : List Entry) : Prop :=
  Each (fun before e => ∀ c task id, e = .opened c task id →
    ∀ c' task' id', .opened c' task' id' ∈ before → id' < id) log

theorem Numbered.single {log : List Entry} (h : Numbered log) {c c' : Owner}
    {task task' : Task} {id : Int} (hmem : .opened c task id ∈ log)
    (hmem' : .opened c' task' id ∈ log) : c = c' ∧ task = task' := by
  obtain ⟨before, after, hsplit⟩ := List.append_of_mem hmem
  rw [hsplit, List.mem_append, List.mem_cons] at hmem'
  rcases hmem' with hbefore | heq | hafter
  · exact absurd (h before _ after hsplit c task id rfl c' task' id hbefore) (lt_irrefl id)
  · cases heq
    exact ⟨rfl, rfl⟩
  · obtain ⟨mid, rest, rfl⟩ := List.append_of_mem hafter
    have hlt := h (before ++ .opened c task id :: mid) _ rest (by simpa using hsplit)
      c' task' id rfl c task id (by simp)
    exact absurd hlt (lt_irrefl id)

/-- What a step adds to the log: a prompt is given the next number, and an OK is
answered from the screen of its prompt. -/
structure Adds (s : State) (e : Event) (new : Entry) : Prop where
  opened : ∀ c task id, new = .opened c task id → id = s.prompt.seq + 1
  answered : ∀ id, new = .answered id Status.ok →
    ∃ a, e = .approve a ∧ s.activities[a]?.map (·.id) = some id

theorem Adds.other {s : State} {e : Event} {new : Entry}
    (hopened : ∀ c task id, new ≠ .opened c task id)
    (hanswered : ∀ id status, new ≠ .answered id status) : Adds s e new :=
  ⟨fun c task id h => absurd h (hopened c task id), fun id h => absurd h (hanswered id _)⟩

theorem report_log {s t : State} {a : ActivityId} {status : Int} (h : s.report a status = some t) :
    t.log = s.log ∨ ∃ id, t.log = s.log ++ [.answered id status] := by
  unfold State.report at h
  split at h
  · rename_i activity hactivity
    obtain ⟨-, heq⟩ := Option.ite_none_left_eq_some.mp h
    cases heq
    unfold State.answer
    split
    · exact .inl rfl
    · exact .inr ⟨activity.id, rfl⟩
  · cases h

/-- Only `approve` answers OK. -/
theorem approve_of_ok {sha : Sha256} {s t : State} {e : Event} {id id' : Int}
    (hnext : next sha s e = some t) (he : e.answers s = some id')
    (hlog : t.log = s.log ++ [.answered id Status.ok]) : ∃ a, e = .approve a := by
  have hdenied (h : t.log = s.log ∨ ∃ k, t.log = s.log ++ [.answered k Status.operationDenied]) :
      False := by
    rcases h with hsame | ⟨k, hdeny⟩
    · simp [hsame] at hlog
    · rw [hlog, List.append_cancel_left_eq] at hdeny
      cases hdeny
  cases e with
  | approve a => exact ⟨a, rfl⟩
  | deny a => exact (hdenied (report_log hnext)).elim
  | reject k =>
      obtain ⟨-, heq⟩ := Option.ite_none_right_eq_some.mp hnext
      cases heq
      unfold State.answer at hdenied
      split at hdenied
      · exact (hdenied (.inl rfl)).elim
      · exact (hdenied (.inr ⟨k, rfl⟩)).elim
  | _ => cases he

theorem adds_some {s t : State} {e : Event} {x : Entry} (hlog : t.log = s.log ++ [x])
    (hx : Adds s e x) :
    ∃ new : Option Entry, t.log = s.log ++ new.toList ∧ ∀ x ∈ new, Adds s e x := by
  refine ⟨some x, hlog, fun y hy => ?_⟩
  cases hy
  exact hx

theorem adds_of_next {sha : Sha256} {s t : State} {e : Event} (hnext : next sha s e = some t) :
    ∃ new : Option Entry, t.log = s.log ++ new.toList ∧ ∀ x ∈ new, Adds s e x := by
  cases step_cases hnext with
  | aside haside => exact ⟨none, by simp [haside.log], by simp⟩
  | request haside =>
      exact adds_some (congrArg (· ++ [_]) haside.log) (.other (by simp) (by simp))
  | cancel haside he =>
      exact adds_some (congrArg (· ++ [_]) haside.log) (.other (by simp) (by simp))
  | execute hworker hqueue => exact ⟨none, by simp, by simp⟩
  | enter hworker hfree => exact ⟨none, by simp [State.setWorker], by simp⟩
  | refuse hworker hgone => exact adds_some rfl (.other (by simp) (by simp))
  | opens hworker hclosed hcancelled =>
      refine adds_some rfl ⟨fun c task id heq => ?_, by simp⟩
      cases heq
      rfl
  | wait hworker => exact ⟨none, by simp [State.setWorker], by simp⟩
  | close hworker => exact adds_some rfl (.other (by simp) (by simp))
  | leave hworker => exact adds_some rfl (.other (by simp) (by simp))
  | reply hworker => exact ⟨none, by simp, by simp⟩
  | @answer _ id status s' haside hprompt he hissued hid =>
      have hlog := congrArg (· ++ [Entry.answered id status]) haside.log
      refine adds_some hlog ⟨by simp, fun k heq => ?_⟩
      cases heq
      obtain ⟨a, rfl⟩ := approve_of_ok hnext he hlog
      exact ⟨a, rfl, he⟩

theorem numbered_reachable {sha : Sha256} {store : Store} {keys : List Bytes} {s : State}
    (h : Reach (next sha) always (start store keys) s) : Numbered s.log := by
  refine h.invariant_with (K := Inv) (I := fun s => Numbered s.log) inv_reachable Each.nil
    fun t e u hinv ht _ hnext => ?_
  obtain ⟨new, hlog, hnew⟩ := adds_of_next hnext
  rw [hlog]
  cases new with
  | none => simpa using ht
  | some x =>
      refine Each.snoc ht fun c task id heq c' task' id' hmem => ?_
      have hid := (hnew x rfl).opened c task id heq
      have hused := (hinv.used c' task' id' hmem).2
      omega

end KeyService

namespace PromptActivity

open KeyService (ActivityId Entry Task Credit)

/-! ### Touches -/

/-- A sheet that the user approved, the prompt that it was shown for, and how
much the service had noted before. -/
structure Touch where
  sheet : SheetId
  id : Int
  place : Nat

def State.promptOf (s : State) (k : SheetId) : Option Int :=
  s.sheets[k]?.bind fun sheet => s.service.activities[sheet.activity]?.map (·.id)

def touched (s : State) (e : Event) (_ : State) (touches : List Touch) : List Touch :=
  match e with
  | .succeeded k =>
      touches ++ ((s.promptOf k).map fun id => ⟨k, id, s.service.log.length⟩).toList
  | _ => touches

/-- The prompt was opened for the request, and then the touch was its answer. -/
structure Served (log : List Entry) (touch : Touch) (c : Owner) (task : Task) : Prop where
  opened : .opened c task touch.id ∈ log.take touch.place
  answered : log[touch.place]? = some (.answered touch.id Status.ok)

/-- The call of `handle` at this place of the history was made for a request
that a touch approved. -/
def TouchedFor (x : State × List Touch) (i : Nat) (call : Call) : Prop :=
  ∃ task touch, (KeyService.calls x.1.service.log)[i]? = some (call.owner, task) ∧
    call.req = task.req ∧ touch ∈ x.2 ∧ Served x.1.service.log touch call.owner task

/-- The call continues a sign-in for the RP that a touch approved. -/
def TouchedBefore (x : State × List Touch) (i : Nat) (call : Call) (rpId : Text) : Prop :=
  call.cmd = some 0x08 ∧ ∃ j opener outcome, j < i ∧
    x.1.service.session.history[j]? = some (opener, outcome) ∧ opener.Discoverable rpId ∧
    call.owner = opener.owner ∧ call.env.now.toInt ≤ opener.env.later.toInt + 30000 ∧
    TouchedFor x j opener

structure TouchLaw (sha : Sha256) (x : State × List Touch) : Prop where
  /-- A sheet is approved once, and was shown for the prompt of its activity. -/
  once : (x.2.map Touch.sheet).Nodup
  shown : ∀ touch ∈ x.2, x.1.promptOf touch.sheet = some touch.id
  /-- A prompt id belongs to one request, whether its prompt is touched or not. -/
  numbered : ∀ c task c' task' id, .opened c task id ∈ x.1.service.log →
    .opened c' task' id ∈ x.1.service.log → c = c' ∧ task = task'
  /-- A touch serves one request. -/
  single : ∀ touch c task c' task', Served x.1.service.log touch c task →
    Served x.1.service.log touch c' task' → c = c' ∧ task = task'
  created : ∀ i call o, x.1.service.session.history[i]? = some (call, o) →
    ∀ id credential, .created id credential ∈ o.effects → TouchedFor x i call
  signed : ∀ i call o, x.1.service.session.history[i]? = some (call, o) →
    ∀ id ad cdh, .signed id ad cdh ∈ o.effects → ad[32]? = some 0 ∨
      ∃ rpId, ad.take 32 = sha.digest rpId ∧
        (TouchedFor x i call ∨ TouchedBefore x i call rpId)

/-! ### The invariant of the touches -/

structure Touching (x : State × List Touch) : Prop where
  once : (x.2.map Touch.sheet).Nodup
  ended : ∀ touch ∈ x.2, ∃ sheet, x.1.sheets[touch.sheet]? = some sheet ∧ sheet.ended = true
  shown : ∀ touch ∈ x.2, x.1.promptOf touch.sheet = some touch.id
  answered : ∀ id place, x.1.service.log[place]? = some (.answered id Status.ok) →
    ∃ touch ∈ x.2, touch.id = id ∧ touch.place = place

theorem Keeps.promptOf {s t : State} (h : Keeps s t) {k : SheetId} {id : Int}
    (hk : s.promptOf k = some id) : t.promptOf k = some id := by
  obtain ⟨sheet, hsheet, hid⟩ := Option.bind_eq_some_iff.mp hk
  obtain ⟨activity, hactivity, rfl⟩ := Option.map_eq_some_iff.mp hid
  obtain ⟨sheet', hsheet', hsame, -⟩ := h.sheets k sheet hsheet
  obtain ⟨activity', hactivity', hid, -⟩ := h.activities _ activity hactivity
  rw [State.promptOf, hsheet', Option.bind_some, hsame, hactivity', Option.map_some, hid]

theorem mem_touched {s t : State} {e : Event} {touches : List Touch} {touch : Touch}
    (h : touch ∈ touched s e t touches) : touch ∈ touches ∨
      e = .succeeded touch.sheet ∧ s.promptOf touch.sheet = some touch.id := by
  unfold touched at h
  split at h
  · rename_i k
    rw [List.mem_append] at h
    refine h.imp_right fun hnew => ?_
    obtain ⟨id, hid, rfl⟩ := Option.map_eq_some_iff.mp (Option.mem_toList.mp hnew)
    exact ⟨rfl, hid⟩
  · exact .inl h

theorem subset_touched (s t : State) (e : Event) (touches : List Touch) :
    touches ⊆ touched s e t touches := by
  intro touch hmem
  unfold touched
  split
  · exact List.mem_append_left _ hmem
  · exact hmem

theorem report_sheets (s : State) (a : ActivityId) (status : Int) :
    (s.report a status).sheets = s.sheets := by
  unfold State.report
  split <;> rfl

/-- A sheet is approved while it is shown, and then it is over. -/
theorem succeeded_cases {sha : Sha256} {s t : State} {k : SheetId}
    (h : next sha s (.succeeded k) = some t) : ∃ sheet, s.sheets[k]? = some sheet ∧
      sheet.ended = false ∧ t.sheets[k]? = some {sheet with ended := true} := by
  simp only [next] at h
  split at h
  · rename_i sheet hsheet
    obtain ⟨hshown, h⟩ := Option.ite_none_left_eq_some.mp h
    cases h
    refine ⟨sheet, hsheet, Bool.eq_false_iff.mpr hshown, ?_⟩
    rw [report_sheets, State.endSheet, List.getElem?_modify, hsheet]
    simp
  · cases h

theorem Touching.step {sha : Sha256} {s t : State} {e : Event} {touches : List Touch}
    (h : Touching (s, touches)) (hnext : next sha s e = some t) :
    Touching (t, touched s e t touches) := by
  have hkeeps := next_keeps hnext
  refine ⟨?_, fun touch hmem => ?_, fun touch hmem => ?_, fun id place hplace => ?_⟩
  · change ((touched s e t touches).map Touch.sheet).Nodup
    unfold touched
    split
    · rename_i k
      obtain ⟨sheet, hsheet, hshown, -⟩ := succeeded_cases hnext
      rw [List.map_append]
      refine h.once.append (by cases s.promptOf k <;> simp) ?_
      intro j hj hk
      obtain ⟨touch, hmem, rfl⟩ := List.mem_map.mp hj
      obtain ⟨sheet', hsheet', hended⟩ := h.ended touch hmem
      have hsame : touch.sheet = k := by
        cases hid : s.promptOf k <;> simp_all
      rw [hsame] at hsheet'
      cases hsheet.symm.trans hsheet'
      rw [hshown] at hended
      cases hended
    · exact h.once
  · rcases mem_touched (t := t) hmem with hold | ⟨rfl, -⟩
    · obtain ⟨sheet, hsheet, hended⟩ := h.ended touch hold
      obtain ⟨sheet', hsheet', -, hmono⟩ := hkeeps.sheets _ sheet hsheet
      exact ⟨sheet', hsheet', hmono hended⟩
    · obtain ⟨sheet, -, -, hover⟩ := succeeded_cases hnext
      exact ⟨_, hover, rfl⟩
  · rcases mem_touched (t := t) hmem with hold | ⟨-, hid⟩
    · exact hkeeps.promptOf (h.shown touch hold)
    · exact hkeeps.promptOf hid
  · have hold (hlog : s.service.log[place]? = some (.answered id Status.ok)) :
        ∃ touch ∈ touched s e t touches, touch.id = id ∧ touch.place = place := by
      obtain ⟨touch, hmem, htouch⟩ := h.answered id place hlog
      exact ⟨touch, subset_touched s t e touches hmem, htouch⟩
    rcases next_service hnext with hsame | ⟨x, hx, happrove⟩
    · exact hold (hsame ▸ hplace)
    · obtain ⟨new, hlog, hnew⟩ := KeyService.adds_of_next hx
      change t.service.log[place]? = _ at hplace
      rw [hlog] at hplace
      rcases Nat.lt_or_ge place s.service.log.length with hlt | hge
      · exact hold (by rwa [List.getElem?_append_left hlt] at hplace)
      · rw [List.getElem?_append_right hge] at hplace
        have hmem := List.mem_of_getElem? hplace
        obtain ⟨a, rfl, hid⟩ := (hnew _ (Option.mem_toList.mp hmem)).answered id rfl
        obtain ⟨k, sheet, rfl, hsheet, rfl⟩ := happrove a rfl
        have hprompt : s.promptOf k = some id := by
          rw [State.promptOf, hsheet, Option.bind_some, hid]
        have hlast : place = s.service.log.length := by
          have hlt := (List.getElem?_eq_some_iff.mp hplace).1
          have hone : new.toList.length ≤ 1 := by cases new <;> simp
          omega
        refine ⟨⟨k, id, s.service.log.length⟩, ?_, rfl, hlast.symm⟩
        simp [touched, hprompt]

theorem touching_reachable {sha : Sha256} {store : Store} {keys : List Bytes} {unlockFirst : Bool}
    {x : State × List Touch}
    (h : Reach (watch (next sha) touched) always (start store keys unlockFirst, []) x) :
    Touching x := by
  have hstart : Touching (start store keys unlockFirst, []) :=
    ⟨List.nodup_nil, by simp, by simp, by simp [start, KeyService.start]⟩
  refine h.invariant hstart ?_
  rintro ⟨s, touches⟩ e ⟨t, touches'⟩ hx _ hnext
  obtain ⟨hstep, hrecord⟩ := watch_eq hnext
  simp only at hstep hrecord
  exact hrecord ▸ hx.step hstep

/-- `confirm` returned OK only because of a touch. -/
theorem Touching.served {x : State × List Touch} (h : Touching x)
    (hinv : KeyService.Inv x.1.service) {c : Owner} {task : Task} {id : Int} {timedOut : Bool}
    (hreturned : .returned c task id Status.ok timedOut ∈ x.1.service.log) :
    ∃ touch ∈ x.2, Served x.1.service.log touch c task := by
  obtain ⟨before, after, hsplit⟩ := List.append_of_mem hreturned
  obtain ⟨hstatus, -⟩ := hinv.returned before _ after hsplit c task id _ _ rfl
  have hverdict : KeyService.verdict c task id before = some Status.ok := by
    cases hverdict : KeyService.verdict c task id before with
    | none =>
        rw [hverdict] at hstatus
        exact absurd hstatus (by decide)
    | some status =>
        rw [hverdict] at hstatus
        exact congrArg some hstatus.symm
  obtain ⟨mid, rest, hsince, -⟩ := KeyService.credited_of_verdict hverdict
  obtain ⟨older, hbefore, hopened⟩ := since_split hsince
  have hlog : x.1.service.log = older ++ .answered id Status.ok ::
      (rest ++ .returned c task id Status.ok timedOut :: after) := by
    rw [hsplit, hbefore, List.append_assoc, List.cons_append]
  obtain ⟨touch, hmem, rfl, hplace⟩ := h.answered id older.length (by simp [hlog])
  refine ⟨touch, hmem, ?_, ?_⟩
  · rw [hplace, hlog, List.take_left]
    exact hopened
  · rw [hplace]
    simp [hlog]

/-! ### The law -/

/-- An approval in a call is a touch for its request. -/
theorem Touching.touchedFor {sha : Sha256} {store : Store} {keys : List Bytes}
    {x : State × List Touch} (h : Touching x)
    (hrun : Reach (KeyService.next sha) always (KeyService.start store keys) x.1.service)
    {i : Nat} {call : Call} {o : Outcome}
    (hcall : x.1.service.session.history[i]? = some (call, o)) {title : String} {rpId : Text}
    (happroved : Approved title rpId o.effects) : TouchedFor x i call := by
  obtain ⟨detail, hconfirm⟩ := happroved
  have hcredited := (KeyService.credited_reachable hrun).calls
  obtain ⟨hlt, hget⟩ := List.getElem?_eq_some_iff.mp hcall
  have hcalls := hcredited.length_eq ▸ hlt
  have hcredit := List.forall₂_iff_get.mp hcredited |>.2 i hcalls hlt
  rw [List.get_eq_getElem, List.get_eq_getElem, hget] at hcredit
  obtain ⟨id, timedOut, hreturned⟩ := hcredit.approved _ _ _ hconfirm
  obtain ⟨touch, hmem, hserved⟩ := h.served (KeyService.inv_reachable hrun) hreturned
  refine ⟨_, touch, ?_, hcredit.req, hmem, ?_⟩
  · rw [List.getElem?_eq_getElem hcalls, hcredit.owner]
  · rw [hcredit.owner]
    exact hserved

/-- What is seen of a run is a run. -/
theorem reach_of_watched {sha : Sha256} {s : State} {touches : List Touch}
    {x : State × List Touch}
    (h : Reach (watch (next sha) touched) always (s, touches) x) :
    Reach (next sha) always s x.1 := by
  refine h.refines (f := Prod.fst) fun t e u _ hnext => ?_
  exact Reach.step trivial (watch_eq hnext).1

section Law

variable {sha : Sha256} {store : Store} {keys : List Bytes} {unlockFirst : Bool}
  {x : State × List Touch}

theorem covered_call
    (h : Reach (watch (next sha) touched) always (start store keys unlockFirst, []) x) {i : Nat}
    {call : Call} {o : Outcome} (hcall : x.1.service.session.history[i]? = some (call, o)) :
    Covered sha (x.1.service.session.history.take i) call o := by
  have hrun := service_reachable (reach_of_watched h)
  have hcovered : x.1.service.session.Inv sha :=
    (KeyService.recounted_reachable hrun).session.invariant
      ⟨fun hne => absurd rfl hne, .nil⟩ fun t e u ht _ hnext => t.inv_next e u ht hnext
  obtain ⟨hlt, hget⟩ := List.getElem?_eq_some_iff.mp hcall
  refine hcovered.covered _ (call, o) (x.1.service.session.history.drop (i + 1)) ?_
  rw [← hget, List.getElem_cons_drop, List.take_append_drop]

/-- A signature with a flag set is for a request, or a chain, that was touched. -/
theorem touched_of_signed
    (h : Reach (watch (next sha) touched) always (start store keys unlockFirst, []) x) {i : Nat}
    {call : Call} {o : Outcome} (hcall : x.1.service.session.history[i]? = some (call, o))
    {id ad cdh : Bytes} (hmem : .signed id ad cdh ∈ o.effects) : ad[32]? = some 0 ∨
      ∃ rpId, ad.take 32 = sha.digest rpId ∧
        (TouchedFor x i call ∨ TouchedBefore x i call rpId) := by
  have hrun := service_reachable (reach_of_watched h)
  have htouching := touching_reachable h
  refine ((covered_call h hcall).justified.signed id ad cdh hmem).imp_right ?_
  rintro ⟨rpId, hhash, hmake | hsign | hearned⟩
  · exact ⟨rpId, hhash, .inl (htouching.touchedFor hrun hcall hmake)⟩
  · exact ⟨rpId, hhash, .inl (htouching.touchedFor hrun hcall hsign)⟩
  · obtain ⟨hcmd, opener, outcome, ⟨before, mid, hsplit, -⟩, hopener, howner, htime,
      happroved⟩ := hearned
    have hj : x.1.service.session.history[before.length]? = some (opener, outcome) := by
      have htake := congrArg (·[before.length]?) hsplit
      simp only [List.getElem?_append_right le_rfl, Nat.sub_self, List.getElem?_cons_zero]
        at htake
      rw [List.getElem?_take] at htake
      exact (Option.ite_none_right_eq_some.mp htake).2
    have hlt : before.length < i := by
      have hlength := congrArg List.length hsplit
      simp only [List.length_take, List.length_append, List.length_cons] at hlength
      omega
    exact ⟨rpId, hhash, .inr ⟨hcmd, before.length, opener, outcome, hlt, hj, hopener, howner,
      htime, htouching.touchedFor hrun hj happroved⟩⟩

/-- Over every run of the app, and whatever the system and the computers do:
the authenticator creates a credential, or signs with a flag set, only for a
request, or a chain, that a touch on the sheet of its prompt approved. -/
theorem touch_law
    (h : Reach (watch (next sha) touched) always (start store keys unlockFirst, []) x) :
    TouchLaw sha x := by
  have hrun := service_reachable (reach_of_watched h)
  have htouching := touching_reachable h
  have hnumbered := KeyService.numbered_reachable hrun
  constructor
  · exact htouching.once
  · exact htouching.shown
  · intro c task c' task' id hopened hopened'
    exact hnumbered.single hopened hopened'
  · intro touch c task c' task' hserved hserved'
    exact hnumbered.single (List.mem_of_mem_take hserved.opened)
      (List.mem_of_mem_take hserved'.opened)
  · intro i call o hcall id credential hmem
    obtain ⟨rpId, -, happroved⟩ := (covered_call h hcall).justified.created id credential hmem
    exact htouching.touchedFor hrun hcall happroved
  · intro i call o hcall id ad cdh hmem
    exact touched_of_signed h hcall hmem

end Law

/-- A sign-in that the user approves on a phone whose lock screen keeps the
sensor: two sheets are cut short, the phone is unlocked, and a third is touched. -/
def touchedEvents : List Event :=
  [.service (.receive 0 (frame (KeyService.REQ :: [0, 0, 0, 1] ++ signInCall.req))),
    .service (.serve 0 true), .service (.execute 0), .service (.enter 0), .service (.confirm 0),
    .create 1, .keyguard true, .focus 0 true, .error 0 BIOMETRIC_ERROR_CANCELED, .focus 0 true,
    .error 1 BIOMETRIC_ERROR_CANCELED, .service (.awaitAnswer 0 false), .keyguard false,
    .dismissed 0 true, .succeeded 2, .service (.awaitAnswer 0 false),
    .service (.finish 0 (approving 0))]

/-- The run ends with one touch, and with a signature over both flags. -/
def signedOnce (x : State × List Touch) : Bool :=
  x.2.length = 1 && x.1.unlockFirst && x.1.service.session.history.any fun y =>
    y.2.effects.any fun
      | .signed _ ad _ => ad[32]? = some 5
      | _ => false

theorem touch_law_signed : ∃ x,
    Reach (watch (next zeroDigest) touched) always (start twoAccounts [[1], [2]] false, []) x ∧
      signedOnce x = true ∧ TouchLaw zeroDigest x := by
  have hrun : ((replay (watch (next zeroDigest) touched) always
      (start twoAccounts [[1], [2]] false, []) touchedEvents).any signedOnce) = true := by
    decide +kernel
  obtain ⟨x, hreplay, hsigned⟩ := (Option.any_eq_true ..).mp hrun
  have hreach := reach_of_replay hreplay
  exact ⟨x, hreach, hsigned, touch_law hreach⟩

end PromptActivity

end Passkey.Phone

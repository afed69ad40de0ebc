import Passkey.Phone.Cancels

/-!
The requests that `confirm` withholds from the user. The number that a
connection remembers as withdrawn starts as one that a request can bear, so
until a CANCEL is read the request of this number counts as withdrawn.
-/

namespace Passkey.Phone.KeyService

open Library

/-- The number of the request, as the computer counts. -/
def Task.number (t : Task) : UInt32 :=
  UInt32.ofNat (ofBigEndian t.seqNo)

/-- `Integer.MIN_VALUE`, as the computer counts. -/
def unsetNumber : UInt32 :=
  0x80000000

theorem toInt32_inj {a b : UInt32} : a.toInt32 = b.toInt32 ↔ a = b := by
  constructor
  · intro h
    rw [← UInt32.toUInt32_toInt32 a, h, UInt32.toUInt32_toInt32]
  · exact congrArg UInt32.toInt32

/-- The request came on a connection that closed or that brought its CANCEL. -/
def Excused (c : Owner) (task : Task) (log : List Entry) : Prop :=
  .cancel c task.number.toInt32 false ∈ log ∨ ∃ seq, .cancel c seq true ∈ log

structure WithheldLaw (sha : Sha256) (c : Owner) (s : State) : Prop where
  /-- `confirm` opens no prompt only for a request that was withdrawn. -/
  refused : Each (fun before e => ∀ task, e = .refused c task → Excused c task before) s.log
  /-- A prompt ends with a cancel only if its request was withdrawn. -/
  returned : Each (fun before e => ∀ task id timedOut,
    e = .returned c task id Status.keepaliveCancel timedOut → Excused c task before) s.log
  /-- A request that was not withdrawn gets its prompt. -/
  prompted : ∀ task, (s.conn c).worker = .command task → ¬ Excused c task s.log →
    next sha s (.confirm c) = some (s.openPrompt c task)

/-! ### The condition -/

def Entry.cancels (c : Owner) : Entry → Bool
  | .cancel d _ _ => d = c
  | _ => false

/-- The request that `confirm` is called for next. -/
def Worker.commanded : Worker → Option Task
  | .command task => some task
  | _ => none

/-- No request of the unset number is at `confirm` before its connection has a
withdrawn number. -/
def Discernible (c : Owner) (s : State) : Prop :=
  ∀ task ∈ (s.conn c).worker.commanded, task.number = unsetNumber →
    s.log.any (Entry.cancels c) = true

instance (c : Owner) (s : State) : Decidable (Discernible c s) :=
  inferInstanceAs (Decidable (∀ task ∈ (s.conn c).worker.commanded, _ → _))

/-! ### The invariant -/

/-- The number that a connection remembers came with a cancel of it, or there
was none. -/
structure Heeding (s : State) : Prop where
  closed : ∀ c, (s.conn c).closed = true → ∃ seq, .cancel c seq true ∈ s.log
  heard : ∀ c, s.log.any (Entry.cancels c) = true →
    ∃ closed, .cancel c (s.conn c).cancelled closed ∈ s.log
  unheard : ∀ c, s.log.any (Entry.cancels c) = false →
    (s.conn c).cancelled = unsetNumber.toInt32

theorem heeding_start (store : Store) (keys : List Bytes) : Heeding (start store keys) :=
  ⟨by simp [start], by simp [start], fun _ _ => rfl⟩

/-- A step that adds no cancel and keeps what the connections remember. -/
theorem Heeding.keep {s t : State} (h : Heeding s)
    (hlog : t.log = s.log ∨ ∃ e, t.log = s.log ++ [e] ∧ ∀ c, e.cancels c = false)
    (hclosed : ∀ c, (t.conn c).closed = (s.conn c).closed)
    (hcancelled : ∀ c, (t.conn c).cancelled = (s.conn c).cancelled) : Heeding t := by
  have hany (c : Owner) : t.log.any (Entry.cancels c) = s.log.any (Entry.cancels c) := by
    rcases hlog with hsame | ⟨e, hsnoc, he⟩
    · rw [hsame]
    · simp [hsnoc, he]
  have hmem {e : Entry} (he : e ∈ s.log) : e ∈ t.log := by
    rcases hlog with hsame | ⟨x, hsnoc, -⟩
    · exact hsame ▸ he
    · exact hsnoc ▸ List.mem_append_left _ he
  constructor
  · intro c hc
    obtain ⟨seq, hseq⟩ := h.closed c (hclosed c ▸ hc)
    exact ⟨seq, hmem hseq⟩
  · intro c hc
    obtain ⟨closed, hcancel⟩ := h.heard c (hany c ▸ hc)
    exact ⟨closed, hcancelled c ▸ hmem hcancel⟩
  · intro c hc
    rw [hcancelled]
    exact h.unheard c (hany c ▸ hc)

theorem Entry.Past.cancels {e : Entry} (h : e.Past) (c : Owner) : e.cancels c = false := by
  cases e with
  | cancel => exact h.elim
  | _ => rfl

theorem Heeding.cancel {s : State} (h : Heeding s) (c : Owner) (seq : Int32) (closed : Bool) :
    Heeding (s.cancel c seq closed) := by
  have hlog : (s.cancel c seq closed).log = s.log ++ [.cancel c seq closed] := rfl
  have hany {d : Owner} (hd : d ≠ c) : (s.cancel c seq closed).log.any (Entry.cancels d) =
      s.log.any (Entry.cancels d) := by
    simp [hlog, Entry.cancels, Ne.symm hd]
  constructor
  · intro d hd
    rw [cancel_conn] at hd
    split at hd
    · rename_i hdc
      subst hdc
      rcases Bool.or_eq_true_iff.mp hd with hbefore | rfl
      · obtain ⟨other, hother⟩ := h.closed d hbefore
        exact ⟨other, hlog ▸ List.mem_append_left _ hother⟩
      · exact ⟨seq, hlog ▸ List.mem_append_right _ (List.mem_singleton_self _)⟩
    · obtain ⟨other, hother⟩ := h.closed d hd
      exact ⟨other, hlog ▸ List.mem_append_left _ hother⟩
  · intro d hd
    rw [cancel_conn]
    split
    · rename_i hdc
      subst hdc
      exact ⟨closed, hlog ▸ List.mem_append_right _ (List.mem_singleton_self _)⟩
    · rename_i hdc
      obtain ⟨other, hother⟩ := h.heard d (hany hdc ▸ hd)
      exact ⟨other, hlog ▸ List.mem_append_left _ hother⟩
  · intro d hd
    rw [cancel_conn]
    split
    · rename_i hdc
      subst hdc
      simp [hlog, Entry.cancels] at hd
    · rename_i hdc
      exact h.unheard d (hany hdc ▸ hd)

theorem Heeding.step {s t : State} {e : Event} (h : Heeding s) (hchange : Change s e t) :
    Heeding t := by
  have hfewer {u : State} (hu : Fewer s u) : Heeding u :=
    h.keep (hu.log.imp_right fun hsnoc => by
      obtain ⟨x, hx, hpast⟩ := hsnoc
      exact ⟨x, hx, hpast.cancels⟩) hu.closed hu.cancelled
  cases hchange with
  | fewer hu => exact hfewer hu
  | @request c s' task haside hplace ht =>
      subst ht
      apply (hfewer haside.fewer).keep (.inr ⟨_, rfl, fun _ => rfl⟩)
      all_goals
        intro d
        rw [enqueue_conn]
        split
      all_goals simp_all
  | cancel haside he ht => exact ht ▸ (hfewer haside.fewer).cancel ..
  | @opens c task hworker hclosed hcancelled ht =>
      subst ht
      have hu : Fewer s (s.setWorker c (.opened task (s.prompt.seq + 1))) :=
        fewer_setWorker (.inl rfl)
      exact h.keep (.inr ⟨_, rfl, fun _ => rfl⟩) hu.closed hu.cancelled

theorem heeding_reachable {sha : Sha256} {store : Store} {keys : List Bytes} {s : State}
    (h : Reach (next sha) always (start store keys) s) : Heeding s :=
  h.invariant (heeding_start store keys) fun _ _ _ ht _ hnext => ht.step (step_cases hnext).change

/-! ### What `confirm` returns -/

/-- What the history may say after a step. An answer is never a cancel. -/
def Noted (s : State) : Entry → Prop
  | .refused c task => (s.conn c).worker = .command task ∧
      ((s.conn c).closed = true ∨ (s.conn c).cancelled = task.reqSeq)
  | .answered _ status => status ≠ Status.keepaliveCancel
  | _ => True

theorem noted_answer {s s' : State} {id status : Int} (hlog : s'.log = s.log)
    (hstatus : status ≠ Status.keepaliveCancel) : (s'.answer id status).log = s.log ∨
      ∃ x, (s'.answer id status).log = s.log ++ [x] ∧ Noted s x := by
  unfold State.answer
  split
  · exact .inl hlog
  · exact .inr ⟨_, congrArg (· ++ _) hlog, hstatus⟩

theorem noted_report {s t : State} {a : ActivityId} {status : Int}
    (h : s.report a status = some t) (hstatus : status ≠ Status.keepaliveCancel) :
    t.log = s.log ∨ ∃ x, t.log = s.log ++ [x] ∧ Noted s x := by
  unfold State.report at h
  split at h
  · obtain ⟨-, heq⟩ := Option.ite_none_left_eq_some.mp h
    cases heq
    exact noted_answer rfl hstatus
  · cases h

theorem noted_of_answers {sha : Sha256} {s t : State} {e : Event} {id : Int}
    (he : e.answers s = some id) (h : next sha s e = some t) :
    t.log = s.log ∨ ∃ x, t.log = s.log ++ [x] ∧ Noted s x := by
  cases e with
  | approve a => exact noted_report h (by decide)
  | deny a => exact noted_report h (by decide)
  | reject k =>
      obtain ⟨-, heq⟩ := Option.ite_none_right_eq_some.mp h
      cases heq
      exact noted_answer rfl (by decide)
  | _ => cases he

theorem noted_of_next {sha : Sha256} {s t : State} {e : Event} (h : next sha s e = some t) :
    t.log = s.log ∨ ∃ x, t.log = s.log ++ [x] ∧ Noted s x := by
  cases step_cases h with
  | aside haside => exact .inl haside.log
  | request haside => exact .inr ⟨_, congrArg (· ++ _) haside.log, trivial⟩
  | cancel haside he => exact .inr ⟨_, congrArg (· ++ _) haside.log, trivial⟩
  | execute => exact .inl rfl
  | enter => exact .inl rfl
  | refuse hworker hgone => exact .inr ⟨_, rfl, hworker, hgone⟩
  | opens => exact .inr ⟨_, rfl, trivial⟩
  | wait => exact .inl rfl
  | close => exact .inr ⟨_, rfl, trivial⟩
  | leave => exact .inr ⟨_, rfl, trivial⟩
  | reply => exact .inl rfl
  | answer haside hprompt he => exact noted_of_answers he h

/-- The user's answers are no cancels. -/
def Decided (s : State) : Prop :=
  ∀ id status, .answered id status ∈ s.log → status ≠ Status.keepaliveCancel

theorem decided_reachable {sha : Sha256} {store : Store} {keys : List Bytes} {s : State}
    (h : Reach (next sha) always (start store keys) s) : Decided s := by
  refine h.invariant (I := Decided) (by simp [Decided, start]) fun s e t hs _ hnext => ?_
  intro id status hmem
  rcases noted_of_next hnext with hsame | ⟨x, hsnoc, hx⟩
  · exact hs id status (hsame ▸ hmem)
  · rw [hsnoc] at hmem
    rcases List.mem_append.mp hmem with hold | hnew
    · exact hs id status hold
    · rw [← List.mem_singleton.mp hnew] at hx
      exact hx

theorem excused_of_verdict {c : Owner} {task : Task} {id : Int} {log : List Entry}
    (hanswered : ∀ status, .answered id status ∈ log → status ≠ Status.keepaliveCancel)
    (h : verdict c task id log = some Status.keepaliveCancel) : Excused c task log := by
  obtain ⟨mid, e, rest, hsplit, he, -⟩ := List.findSome?_eq_some_iff.mp h
  have hmem : e ∈ log := by
    apply mem_of_mem_since (a := .opened c task id)
    rw [hsplit]
    exact List.mem_append_right _ List.mem_cons_self
  cases e with
  | answered k status =>
      simp only [Entry.ends, Option.ite_none_right_eq_some, Option.some.injEq] at he
      exact absurd he.2 (hanswered status (he.1 ▸ hmem))
  | cancel d seq closed =>
      simp only [Entry.ends, Option.ite_none_right_eq_some, and_true] at he
      obtain ⟨rfl, hclosed⟩ := he
      cases closed with
      | true => exact .inr ⟨seq, hmem⟩
      | false =>
          obtain rfl := hclosed.resolve_left Bool.false_ne_true
          exact .inl hmem
  | _ => cases he

/-- A connection under which `confirm` refuses the request. -/
theorem Heeding.excused {s : State} (h : Heeding s) {c : Owner} {task : Task}
    (hdiscernible : Discernible c s) (hworker : (s.conn c).worker = .command task)
    (hgone : (s.conn c).closed = true ∨ (s.conn c).cancelled = task.reqSeq) :
    Excused c task s.log := by
  rcases hgone with hclosed | hcancelled
  · exact .inr (h.closed c hclosed)
  · cases hany : s.log.any (Entry.cancels c) with
    | true =>
        obtain ⟨closed, hmem⟩ := h.heard c hany
        cases closed with
        | true => exact .inr ⟨_, hmem⟩
        | false =>
            rw [hcancelled] at hmem
            exact .inl hmem
    | false =>
        have hnumber : task.number = unsetNumber :=
          toInt32_inj.mp (hcancelled.symm.trans (h.unheard c hany))
        have hheard := hdiscernible task (by simp [hworker, Worker.commanded]) hnumber
        rw [hany] at hheard
        cases hheard

theorem Heeding.prompted {sha : Sha256} {s : State} (h : Heeding s) {c : Owner} {task : Task}
    (hdiscernible : Discernible c s) (hworker : (s.conn c).worker = .command task)
    (hexcused : ¬ Excused c task s.log) :
    next sha s (.confirm c) = some (s.openPrompt c task) := by
  have hcheck : ¬ ((s.conn c).closed || (s.conn c).cancelled = task.reqSeq) = true := by
    intro hgone
    exact hexcused (h.excused hdiscernible hworker (by simpa using hgone))
  simp only [next, State.confirm, hworker, if_neg hcheck]

theorem not_excused {c : Owner} {task : Task} {log : List Entry}
    (h : log.any (Entry.cancels c) = false) : ¬ Excused c task log := by
  have hnone {seq : Int32} {closed : Bool} (hmem : .cancel c seq closed ∈ log) : False := by
    have hcancels := List.any_eq_false.mp h _ hmem
    simp [Entry.cancels] at hcancels
  rintro (hcancel | ⟨seq, hclosed⟩)
  · exact hnone hcancel
  · exact hnone hclosed

/-- The first request of the unset number is refused. -/
theorem Heeding.discernible {sha : Sha256} {s : State} (h : Heeding s) {c : Owner}
    (hprompted : ∀ task, (s.conn c).worker = .command task → ¬ Excused c task s.log →
      next sha s (.confirm c) = some (s.openPrompt c task)) : Discernible c s := by
  intro task htask hnumber
  have hworker : (s.conn c).worker = .command task := by
    cases hw : (s.conn c).worker with
    | command t =>
        rw [hw] at htask
        rw [Option.some.inj htask]
    | _ =>
        rw [hw] at htask
        cases htask
  by_contra hany
  rw [Bool.not_eq_true] at hany
  have hcancelled : (s.conn c).cancelled = task.reqSeq :=
    (h.unheard c hany).trans (congrArg UInt32.toInt32 hnumber.symm)
  have hopens := hprompted task hworker (not_excused hany)
  have hcheck : ((s.conn c).closed || (s.conn c).cancelled = task.reqSeq) = true := by
    simp [hcancelled]
  simp only [next, State.confirm, hworker, hcheck, ↓reduceIte, Option.some.injEq] at hopens
  have hlogs := congrArg State.log hopens
  simp [State.note, State.openPrompt, State.setWorker] at hlogs

/-! ### The law -/

theorem refused_law {sha : Sha256} {store : Store} {keys : List Bytes} {c : Owner} {s : State}
    (h : Reach (next sha) (fun s _ => Discernible c s) (start store keys) s) :
    Each (fun before e => ∀ task, e = .refused c task → Excused c task before) s.log := by
  refine h.invariant_with (I := fun s => Each _ s.log) heeding_reachable .nil
    fun s e t hheeding hs hok hnext => ?_
  rcases noted_of_next hnext with hsame | ⟨x, hsnoc, hx⟩
  · exact hsame ▸ hs
  · rw [hsnoc]
    refine hs.snoc fun task heq => ?_
    subst heq
    exact hheeding.excused hok hx.1 hx.2

theorem returned_law {sha : Sha256} {store : Store} {keys : List Bytes} {s : State}
    (h : Reach (next sha) always (start store keys) s) (c : Owner) :
    Each (fun before e => ∀ task id timedOut,
      e = .returned c task id Status.keepaliveCancel timedOut → Excused c task before) s.log := by
  intro before e after hsplit task id timedOut heq
  obtain ⟨hstatus, -⟩ := (inv_reachable h).returned before e after hsplit c task id _ timedOut heq
  have hverdict : verdict c task id before = some Status.keepaliveCancel := by
    cases hverdict : verdict c task id before with
    | none =>
        rw [hverdict] at hstatus
        exact absurd hstatus (by decide)
    | some status =>
        rw [hverdict] at hstatus
        exact congrArg some hstatus.symm
  refine excused_of_verdict (fun status hmem => ?_) hverdict
  exact decided_reachable h id status (hsplit ▸ List.mem_append_left _ hmem)

/-- In every run in which no request of the unset number came to `confirm`
before the first CANCEL of its connection, a request is withheld exactly if it
was withdrawn; where one comes so, it is refused. -/
theorem withheld_iff {sha : Sha256} {store : Store} {keys : List Bytes} {c : Owner} {s : State}
    (h : Reach (next sha) (fun s _ => Discernible c s) (start store keys) s) :
    WithheldLaw sha c s ↔ Discernible c s := by
  have hheeding := heeding_reachable h.weaken
  constructor
  · intro hlaw
    exact hheeding.discernible hlaw.prompted
  · intro hdiscernible
    exact ⟨refused_law h, returned_law h.weaken c,
      fun task hworker hexcused => hheeding.prompted hdiscernible hworker hexcused⟩

/-- The frame of a request whose number is the unset one. -/
def unsetFrame : Bytes :=
  frame (REQ :: [0x80, 0, 0, 0] ++ signInCall.req)

/-- A CANCEL of another number comes first. -/
def staleEvents : List Event :=
  [.receive 0 (cancelFrame 1 ++ unsetFrame), .serve 0 true, .serve 0 true, .execute 0, .enter 0]

theorem stale_prompted : ∃ s, Reach (next zeroDigest) (fun s _ => Discernible 0 s)
    (start twoAccounts [[1], [2]]) s ∧ (commanded s 0).isSome ∧ WithheldLaw zeroDigest 0 s := by
  obtain ⟨s, hrun, hcommanded, hdiscernible⟩ : ∃ s, replay (next zeroDigest)
      (fun s _ => Discernible 0 s) (start twoAccounts [[1], [2]]) staleEvents = some s ∧
        (commanded s 0).isSome = true ∧ Discernible 0 s := ⟨_, rfl, rfl, by decide⟩
  have hreach := reach_of_replay hrun
  exact ⟨s, hreach, hcommanded, (withheld_iff hreach).mpr hdiscernible⟩

/-! ### The first request of the unset number -/

/-- A request comes, and its connection reads no CANCEL. -/
def unsetEvents : List Event :=
  [.receive 0 unsetFrame, .serve 0 true, .execute 0, .enter 0, .confirm 0]

/-- `confirm` refuses a request that nothing withdrew. -/
theorem unset_refused : ∃ s, Reach (next zeroDigest) always (start twoAccounts [[1], [2]]) s ∧
    ¬ WithheldLaw zeroDigest 0 s := by
  obtain ⟨s, hrun, hlog⟩ : ∃ s,
      replay (next zeroDigest) always (start twoAccounts [[1], [2]]) unsetEvents = some s ∧
        s.log = [.request 0 ⟨0, [0x80, 0, 0, 0], signInCall.req⟩,
          .refused 0 ⟨0, [0x80, 0, 0, 0], signInCall.req⟩] := ⟨_, rfl, rfl⟩
  refine ⟨s, reach_of_replay hrun, fun hlaw => ?_⟩
  have hexcused := hlaw.refused [_] _ [] hlog _ rfl
  exact not_excused rfl hexcused

end Passkey.Phone.KeyService

import Passkey.Daemon.Records

/-!
The successes that the daemon delivered. A request is answered when its worker
finds it current; what it answers is the first success of its last round, or an
error. Once a newer request was accepted, nothing more is delivered for the
older ones.
-/

namespace Passkey.Daemon

open Library

/-- The worker of the request found it current and went on to reply. -/
def Entry.answers (r : RequestId) (e : Entry) : Bool :=
  match e.act with
  | .currency q true => q = r
  | _ => false

/-- The payload of a success that was delivered for the request. -/
def State.delivered (s : State) (r : RequestId) : Option Bytes :=
  if s.log.any (Entry.answers r) then (s.workers[r]?.bind fun w => w.wins.head?).map Prod.snd
  else none

/-- A GET_ASSERTION on the channel whose success was delivered. -/
def State.signedIn (s : State) (channel : UInt32) (g : RequestId) : Bool :=
  s.workers[g]?.any fun w =>
    w.channel = channel && w.data.head? = some GET_ASSERTION && (s.delivered g).isSome

/-- The last GET_ASSERTION before the request, on its channel, whose success
was delivered. -/
def State.lastSignIn (s : State) (r : RequestId) : Option RequestId :=
  s.workers[r]?.bind fun w => (List.range r).reverse.find? (s.signedIn w.channel)

/-! ### What is delivered -/

/-- No answer has been recorded in the rounds to come. -/
def Pc.Between : Pc → Prop
  | .plan | .consult | .round => True
  | _ => False

/-- The payload that a worker has decided on is its first success; it has none
where it decided on an error. -/
structure Decided (w : Worker) : Prop where
  between : w.pc.Between → w.wins = []
  verdict : ∀ payload, w.pc = .verdict payload →
    w.wins = [] ∨ w.wins.head?.map Prod.snd = some payload

theorem decided_poll (w : Worker) (l : LinkId) (rest : List LinkId) (heard : Bool)
    (response : Option (UInt32 × Bytes)) : Decided (w.poll l rest heard response) := by
  unfold Worker.poll
  repeat' split
  all_goals exact ⟨fun h => h.elim, by simp⟩

theorem decided_judge (w : Worker) (device : LinkId → Text) : Decided (w.judge device).1 := by
  unfold Worker.judge
  split
  · rename_i winner payload rest hwins
    refine ⟨fun h => h.elim, fun p hp => ?_⟩
    cases hp
    exact .inr (by rw [hwins]; rfl)
  · rename_i hwins
    split
    · exact ⟨fun h => h.elim, fun _ _ => .inl hwins⟩
    · exact ⟨fun _ => hwins, by simp⟩

theorem Decided.turn {s : State} {r : RequestId} {w w' : Worker} {act : Act} (h : Decided w)
    (hturn : Turn s r w w' act) : Decided w' := by
  cases hturn with
  | take => exact decided_poll ..
  | judge => exact decided_judge ..
  | plan hpc => exact ⟨fun _ => h.between (hpc ▸ trivial), by simp⟩
  | consult hpc => exact ⟨fun _ => h.between (hpc ▸ trivial), by simp⟩
  | roundsOver hpc => exact ⟨fun hb => hb.elim, fun _ _ => .inl (h.between (hpc ▸ trivial))⟩
  | emptyRound hpc => exact ⟨h.between, h.verdict⟩
  | enter => exact ⟨fun _ => rfl, by simp⟩
  | @swept heard => cases heard <;> exact ⟨fun hb => hb.elim, by simp⟩
  | _ => exact ⟨fun hb => hb.elim, by simp⟩

theorem decided_reachable {pid : UInt32} {s : State} (h : Reach next always (start pid) s)
    {r : RequestId} {w : Worker} (hw : s.workers[r]? = some w) : Decided w := by
  refine Reach.invariant (I := fun s => ∀ (r : RequestId) (w : Worker),
    s.workers[r]? = some w → Decided w) (by simp [start]) (fun _ _ _ hs _ hnext q v hv => ?_)
    h r w hw
  cases (step_cases hnext).moved hv with
  | own _ hold hturn => exact (hs q _ hold).turn hturn
  | other locked hold hsame =>
      subst hsame
      exact ⟨(hs q _ hold).between, (hs q _ hold).verdict⟩
  | spawned _ hnew =>
      subst hnew
      exact ⟨fun _ => rfl, by simp⟩

/-! ### Older requests -/

/-- A worker that went on to reply does not come back. -/
def Late (s : State) : Prop :=
  ∀ r, s.log.any (Entry.answers r) = true → ∃ w, s.workers[r]? = some w ∧ ¬ w.pc.Early

theorem any_snoc {log : List Entry} {e : Entry} {r : RequestId}
    (h : (log ++ [e]).any (Entry.answers r) = true) :
    log.any (Entry.answers r) = true ∨ e.act = .currency r true := by
  simp only [List.any_append, List.any_cons, List.any_nil, Bool.or_false, Bool.or_eq_true] at h
  refine h.imp_right fun hanswers => ?_
  unfold Entry.answers at hanswers
  split at hanswers
  · rename_i q hact
    rw [hact, of_decide_eq_true hanswers]
  · cases hanswers

/-- Only the worker of the busy request goes on to reply. -/
theorem turn_current {s : State} {r q : RequestId} {w w' : Worker} {act : Act}
    (h : Turn s r w w' act) (hact : act = .currency q true) :
    q = r ∧ s.busy = some r ∧ ¬ w'.pc.Early := by
  cases h with
  | current hpc hbusy =>
      cases hact
      exact ⟨rfl, hbusy, fun h => h⟩
  | judge =>
      unfold Worker.judge at hact
      repeat' split at hact
      all_goals cases hact
  | _ => cases hact

theorem Step.answers {s t : State} {e : Event} (h : Step s e t) {r : RequestId}
    (hanswers : t.log.any (Entry.answers r) = true) :
    s.log.any (Entry.answers r) = true ∨ s.busy = some r ∧
      ∃ w', t.workers[r]? = some w' ∧ ¬ w'.pc.Early := by
  cases h with
  | @worker q ok w w' act hw hturn =>
      refine (any_snoc hanswers).imp_right fun hact => ?_
      obtain ⟨rfl, hbusy, hlate⟩ := turn_current hturn hact
      have hlt := (List.getElem?_eq_some_iff.mp hw).1
      refine ⟨hbusy, w', ?_, hlate⟩
      rw [setWorker_workers, (turn_own hturn).workers]
      exact List.getElem?_set_self hlt
  | @hid u ok pc act hturn =>
      refine .inl ((any_snoc hanswers).resolve_right ?_)
      rintro rfl
      generalize s.hid u = before at hturn
      cases hturn with
      | quiet _ _ hact => cases hact
  | begin => exact .inl hanswers
  | outside hout => exact .inl (hout.log ▸ hanswers)

/-- Where the reply was decided on, the recorded answers stay. -/
theorem turn_late {s : State} {r : RequestId} {w w' : Worker} {act : Act}
    (h : Turn s r w w' act) (hlate : ¬ w.pc.Early) : ¬ w'.pc.Early ∧ w'.wins = w.wins := by
  cases h with
  | reported => exact ⟨fun h => h, rfl⟩
  | report => exact ⟨fun h => h, rfl⟩
  | finish => exact ⟨fun h => h, rfl⟩
  | _ => exact absurd (by simp [*, Pc.Early]) hlate

/-- What was recorded for an answered request stays. -/
theorem Late.kept {s t : State} {e : Event} (h : Late s) (hstep : Step s e t) {r : RequestId}
    (hanswers : s.log.any (Entry.answers r) = true) : ∃ w w', s.workers[r]? = some w ∧
      t.workers[r]? = some w' ∧ ¬ w'.pc.Early ∧ w'.wins = w.wins := by
  obtain ⟨w, hw, hlate⟩ := h r hanswers
  obtain ⟨w', hw', ⟨ok, act, -, hturn, -⟩ | ⟨locked, hsame, -⟩⟩ := hstep.after hw
  · exact ⟨w, w', hw, hw', turn_late hturn hlate⟩
  · subst hsame
    exact ⟨w, _, hw, hw', hlate, rfl⟩

theorem Late.step {s t : State} {e : Event} (h : Late s) (hstep : Step s e t) : Late t := by
  intro r hanswers
  rcases hstep.answers hanswers with hold | ⟨-, hnew⟩
  · obtain ⟨w, w', -, hw', hlate, -⟩ := h.kept hstep hold
    exact ⟨w', hw', hlate⟩
  · exact hnew

theorem late_reachable {pid : UInt32} {s : State} (h : Reach next always (start pid) s) :
    Late s :=
  h.invariant (fun _ hnone => by cases hnone) fun _ _ _ hs _ hnext => hs.step (step_cases hnext)

/-- What was delivered for a request changes only in a step in which it is
busy. -/
theorem Late.delivered {s t : State} {e : Event} (h : Late s) (hstep : Step s e t)
    {r : RequestId} (hidle : s.busy ≠ some r ∨ s.log.any (Entry.answers r) = true) :
    t.delivered r = s.delivered r := by
  obtain ⟨more, hlog⟩ := hstep.log
  by_cases hanswered : s.log.any (Entry.answers r) = true
  · obtain ⟨w, w', hw, hw', -, hwins⟩ := h.kept hstep hanswered
    have hafter : t.log.any (Entry.answers r) = true := by
      rw [hlog, List.any_append, hanswered, Bool.true_or]
    simp [State.delivered, hanswered, hafter, hw, hw', hwins]
  · have hafter : ¬ t.log.any (Entry.answers r) = true := by
      intro hnew
      rcases hstep.answers hnew with hold | ⟨hbusy, -⟩
      · exact hanswered hold
      · exact (hidle.resolve_right hanswered) hbusy
    rw [State.delivered, State.delivered, if_neg hanswered, if_neg hafter]

/-- The step in which a worker goes on to reply delivers the payload that it
has decided on, if this is a success. -/
def DeliversVerdicts (s : State) : Prop :=
  ∀ (r : RequestId) (ok : Bool) (w : Worker) (payload : Bytes) (t : State),
    s.workers[r]? = some w → w.pc = .verdict payload → s.busy = some r →
      next s (.worker r ok) = some t →
        t.delivered r = if payload.head? = some 0 then some payload else none

theorem delivered_of_verdict {pid : UInt32} {s : State} (h : Reach next always (start pid) s) :
    DeliversVerdicts s := by
  intro r ok w payload t hw hpc hbusy hnext
  have hsourced := sourced_reachable h hw
  have hwins : (w.wins.head?).map Prod.snd =
      if payload.head? = some 0 then some payload else none := by
    split
    · rename_i hsuccess
      exact hsourced.verdict payload hpc hsuccess
    · rename_i hfailure
      rcases (decided_reachable h hw).verdict payload hpc with hnone | hfirst
      · rw [hnone]
        rfl
      · obtain ⟨win, hwin, rfl⟩ := Option.map_eq_some_iff.mp hfirst
        exact absurd (hsourced.wins win (List.mem_of_mem_head? hwin)).2 hfailure
  have ht : t = (s.perform (.worker r) (.currency r true)).setWorker r
      {w with pc := .report (reply w.channel CBOR payload)} := by
    simpa [next, hw, Worker.turn, hpc, hbusy] using hnext.symm
  have hworker : t.workers[r]? = some {w with pc := .report (reply w.channel CBOR payload)} := by
    rw [ht, setWorker_workers]
    exact List.getElem?_set_self (List.getElem?_eq_some_iff.mp hw).1
  have hanswers : t.log.any (Entry.answers r) = true := by
    simp [ht, Entry.answers]
  rw [State.delivered, if_pos hanswers, hworker]
  exact hwins

/-! ### The last sign-in -/

theorem mem_lastSignIn {s : State} {r g : RequestId} {w : Worker} (hw : s.workers[r]? = some w)
    (h : s.lastSignIn r = some g) : g < r ∧ s.signedIn w.channel g = true := by
  rw [State.lastSignIn, hw] at h
  refine ⟨?_, List.find?_some h⟩
  exact List.mem_range.mp (List.mem_reverse.mp (List.mem_of_find?_eq_some h))

theorem answers_of_lastSignIn {s : State} {r g : RequestId} (h : s.lastSignIn r = some g) :
    s.log.any (Entry.answers g) = true := by
  obtain ⟨w, -, hfind⟩ := Option.bind_eq_some_iff.mp h
  have hsigned := List.find?_some hfind
  by_contra hnone
  rw [State.signedIn, State.delivered, if_neg hnone] at hsigned
  simp at hsigned

theorem Late.signedIn {s t : State} {e : Event} (h : Late s) (hstep : Step s e t)
    {g : RequestId} (hlt : g < s.workers.length) (hidle : s.busy ≠ some g) (channel : UInt32) :
    t.signedIn channel g = s.signedIn channel g := by
  obtain ⟨w', hw', hsame⟩ := hstep.request (List.getElem?_eq_getElem hlt)
  simp only [State.signedIn, hw', List.getElem?_eq_getElem hlt, Option.any_some,
    hsame.channel, hsame.data, h.delivered hstep (.inl hidle)]

/-- The last sign-in before a request does not change any more. -/
theorem Late.lastSignIn {s t : State} {e : Event} (h : Late s) (hinv : Inv s)
    (hstep : Step s e t) {r : RequestId} {w : Worker} (hw : s.workers[r]? = some w) :
    t.lastSignIn r = s.lastSignIn r := by
  obtain ⟨w', hw', hsame⟩ := hstep.request hw
  have hlt := (List.getElem?_eq_some_iff.mp hw).1
  simp only [State.lastSignIn, hw, hw', Option.bind_some, hsame.channel]
  rw [← List.head?_filter, ← List.head?_filter]
  apply congrArg List.head?
  apply List.filter_congr
  intro g hg
  have hgr := List.mem_range.mp (List.mem_reverse.mp hg)
  refine h.signedIn hstep (Nat.lt_trans hgr hlt) (fun hbusy => ?_) w.channel
  rw [← hinv.newest g hbusy] at hlt
  exact Nat.not_lt.mpr hgr hlt

end Passkey.Daemon

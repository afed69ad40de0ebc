import Passkey.Daemon.Turns

/-!
The busy slot and the replies. One request at a time is busy, the newest; its
worker answers the channel once, and nothing but the worker itself or an INIT
on its channel takes the slot from it.
-/

namespace Passkey.Daemon

open Library

/-- An INIT took the busy slot from the request. -/
def Abandoned (r : RequestId) (log : List Entry) : Prop :=
  ∃ e ∈ log, e.act = .abandon r

/-- The worker tested whether its request is current, before the reply; where
it is not, an INIT came first. -/
def Checked (r : RequestId) (current : Bool) (log : List Entry) : Prop :=
  ∃ before time after, log = before ++ ⟨time, .worker r, .currency r current⟩ :: after ∧
    (current = false → Abandoned r before)

/-- The report that an entry writes to the device for a request. -/
def Entry.reportOf (r : RequestId) (e : Entry) : Option Bytes :=
  if e.actor = .worker r then
    match e.act with
    | .report bytes => some bytes
    | _ => none
  else none

/-- The reports that the worker of a request wrote, in order. -/
def reportsOf (r : RequestId) (log : List Entry) : List Bytes :=
  log.filterMap (Entry.reportOf r)

/-- Nothing but KEEPALIVE messages on the channel. -/
def Beats (channel : UInt32) (reports : List Bytes) : Prop :=
  ∀ b ∈ reports, b ∈ reply channel KEEPALIVE [2]

/-- KEEPALIVE messages, then one CBOR reply that is not empty. -/
def Answers (channel : UInt32) (reports : List Bytes) : Prop :=
  ∃ beats payload, Beats channel beats ∧ payload ≠ [] ∧
    reports = beats ++ reply channel CBOR payload

/-! ### What a worker has written, by where it is -/

/-- The worker has made its one test, and has replied if it was current. -/
def Settled (r : RequestId) (channel : UInt32) (log : List Entry) : Prop :=
  Checked r true log ∧ Answers channel (reportsOf r log) ∨
    Checked r false log ∧ Beats channel (reportsOf r log)

/-- The reports written so far, and those still to come. -/
def Stage (r : RequestId) (channel : UInt32) (log : List Entry) : Pc → Prop
  | .report rest => Checked r true log ∧ Answers channel (reportsOf r log ++ rest)
  | .finish | .done => Settled r channel log
  | _ => Beats channel (reportsOf r log)

/-- The reply has not been decided on yet. -/
def Pc.Early : Pc → Prop
  | .report _ | .finish | .done => False
  | _ => True

theorem stage_early {r : RequestId} {channel : UInt32} {log : List Entry} {pc : Pc}
    (h : pc.Early) : Stage r channel log pc = Beats channel (reportsOf r log) := by
  cases pc with
  | report => exact h.elim
  | finish => exact h.elim
  | done => exact h.elim
  | _ => rfl

/-- The answers that a worker collected, and the one it chose, are not empty. -/
structure Filled (w : Worker) : Prop where
  wins : ∀ win ∈ w.wins, win.2 ≠ []
  failures : ∀ e ∈ w.failures, e ≠ []
  errors : ∀ e ∈ w.errors, e ≠ []
  verdict : ∀ payload, w.pc = .verdict payload → payload ≠ []

theorem Abandoned.append {r : RequestId} {log : List Entry} (h : Abandoned r log)
    (more : List Entry) : Abandoned r (log ++ more) := by
  obtain ⟨e, hmem, heq⟩ := h
  exact ⟨e, List.mem_append_left _ hmem, heq⟩

theorem Checked.append {r : RequestId} {current : Bool} {log : List Entry}
    (h : Checked r current log) (more : List Entry) : Checked r current (log ++ more) := by
  obtain ⟨before, time, after, rfl, habandoned⟩ := h
  exact ⟨before, time, after ++ more, by simp, habandoned⟩

theorem reportsOf_append (r : RequestId) (log more : List Entry) :
    reportsOf r (log ++ more) = reportsOf r log ++ reportsOf r more :=
  List.filterMap_append

theorem reportsOf_other {r : RequestId} {s t : State} (h : OthersLog r s t) :
    reportsOf r t.log = reportsOf r s.log := by
  rcases h with hlog | ⟨actor, act, hactor, hlog⟩
  · rw [hlog]
  · rw [hlog, reportsOf_append]
    simp [reportsOf, Entry.reportOf, hactor]

theorem Checked.other {r : RequestId} {current : Bool} {s t : State}
    (h : Checked r current s.log) (hlog : OthersLog r s t) : Checked r current t.log := by
  rcases hlog with heq | ⟨_, _, -, heq⟩
  · exact heq ▸ h
  · exact heq ▸ h.append _

theorem Settled.other {r : RequestId} {channel : UInt32} {s t : State}
    (h : Settled r channel s.log) (hlog : OthersLog r s t) : Settled r channel t.log := by
  have hreports := reportsOf_other hlog
  rcases h with ⟨hchecked, hanswers⟩ | ⟨hchecked, hbeats⟩
  · exact .inl ⟨hchecked.other hlog, hreports.symm ▸ hanswers⟩
  · exact .inr ⟨hchecked.other hlog, hreports.symm ▸ hbeats⟩

theorem Stage.other {r : RequestId} {channel : UInt32} {pc : Pc} {s t : State}
    (h : Stage r channel s.log pc) (hlog : OthersLog r s t) : Stage r channel t.log pc := by
  have hreports := reportsOf_other hlog
  cases pc with
  | report rest => exact ⟨h.1.other hlog, hreports.symm ▸ h.2⟩
  | finish => exact Settled.other h hlog
  | done => exact Settled.other h hlog
  | _ => exact (congrArg (Beats channel) hreports).mpr h

/-- What a step of the worker itself adds to its reports. -/
theorem reportsOf_own (s : State) (r : RequestId) (act : Act) (w : Worker) :
    reportsOf r ((s.perform (.worker r) act).setWorker r w).log =
      reportsOf r s.log ++ match act with
        | .report bytes => [bytes]
        | _ => [] := by
  rw [setWorker_log, perform_log, reportsOf_append]
  cases act <;> simp [reportsOf, Entry.reportOf]

theorem reportsOf_own_quiet {s : State} {r : RequestId} {act : Act} {w : Worker}
    (h : ∀ bytes, act ≠ .report bytes) :
    reportsOf r ((s.perform (.worker r) act).setWorker r w).log = reportsOf r s.log := by
  rw [reportsOf_own]
  cases act with
  | report bytes => exact absurd rfl (h bytes)
  | _ => simp

theorem judge_ne_report {w : Worker} {device : LinkId → Text} (bytes : Bytes) :
    (w.judge device).2 ≠ .report bytes := by
  unfold Worker.judge
  repeat' split
  all_goals simp

theorem judge_early (w : Worker) (device : LinkId → Text) :
    (w.judge device).1.pc.Early ∧ (w.judge device).1.channel = w.channel := by
  unfold Worker.judge
  repeat' split
  all_goals exact ⟨trivial, rfl⟩

theorem poll_early (w : Worker) (l : LinkId) (rest : List LinkId) (heard : Bool)
    (response : Option (UInt32 × Bytes)) :
    (w.poll l rest heard response).pc.Early ∧
      (w.poll l rest heard response).channel = w.channel := by
  unfold Worker.poll
  repeat' split
  all_goals exact ⟨trivial, rfl⟩

theorem finalError_ne_nil {errors : List Bytes} (h : ∀ e ∈ errors, e ≠ []) :
    finalError errors ≠ [] := by
  unfold finalError
  cases hfind : errors.find? isDecisive with
  | some e => exact h e (List.mem_of_find?_eq_some hfind)
  | none =>
      cases errors with
      | nil => simp
      | cons e rest => exact h e (List.mem_cons_self ..)

theorem Filled.poll {w : Worker} (h : Filled w) (l : LinkId) (rest : List LinkId) (heard : Bool)
    (response : Option (UInt32 × Bytes)) : Filled (w.poll l rest heard response) := by
  have hother : ∀ e ∈ w.failures ++ [[CTAP2_ERR_OTHER]], e ≠ [] := by
    intro e he
    rcases List.mem_append.mp he with hold | hnew
    · exact h.failures e hold
    · simp [List.mem_singleton.mp hnew]
  unfold Worker.poll
  split
  · exact ⟨h.wins, h.failures, h.errors, by simp⟩
  · rename_i number payload
    split
    · exact ⟨h.wins, hother, h.errors, by simp⟩
    · split
      · exact ⟨h.wins, h.failures, h.errors, by simp⟩
      · split
        · exact ⟨h.wins, hother, h.errors, by simp⟩
        · rename_i status more
          split
          · refine ⟨?_, h.failures, h.errors, by simp⟩
            intro win hwin
            rcases List.mem_append.mp hwin with hold | hnew
            · exact h.wins win hold
            · simp [List.mem_singleton.mp hnew]
          · refine ⟨h.wins, ?_, h.errors, by simp⟩
            intro e he
            rcases List.mem_append.mp he with hold | hnew
            · exact h.failures e hold
            · simp [List.mem_singleton.mp hnew]

theorem Filled.judge {w : Worker} (h : Filled w) (device : LinkId → Text) :
    Filled (w.judge device).1 := by
  have herrors : ∀ e ∈ w.errors ++ w.failures, e ≠ [] := by
    intro e he
    rcases List.mem_append.mp he with hold | hnew
    · exact h.errors e hold
    · exact h.failures e hnew
  unfold Worker.judge
  split
  · rename_i winner payload rest hwins
    refine ⟨h.wins, h.failures, h.errors, ?_⟩
    rintro _ ⟨⟩
    exact h.wins (winner, payload) (by simp [hwins])
  · split
    · refine ⟨h.wins, h.failures, herrors, ?_⟩
      rintro _ ⟨⟩
      exact finalError_ne_nil herrors
    · exact ⟨h.wins, h.failures, herrors, by simp⟩

theorem Filled.turn {s : State} {r : RequestId} {w w' : Worker} {act : Act} (h : Filled w)
    (hturn : Turn s r w w' act) : Filled w' := by
  cases hturn with
  | roundsOver =>
      refine ⟨h.wins, h.failures, h.errors, ?_⟩
      rintro _ ⟨⟩
      exact finalError_ne_nil h.errors
  | enter => exact ⟨by simp, by simp, h.errors, by simp⟩
  | take => exact h.poll ..
  | judge => exact h.judge _
  | swept => exact ⟨h.wins, h.failures, h.errors, fun _ hpc => by split at hpc <;> cases hpc⟩
  | emptyRound hpc => exact ⟨h.wins, h.failures, h.errors, h.verdict⟩
  | _ => exact ⟨h.wins, h.failures, h.errors, by simp⟩

/-! ### The invariant -/

structure Inv (s : State) : Prop where
  /-- The busy request is the newest, and is not done. -/
  newest : ∀ r, s.busy = some r → r + 1 = s.workers.length
  serving : ∀ (r : RequestId) (w : Worker), s.busy = some r → s.workers[r]? = some w → w.pc ≠ .done
  /-- A request that is not done is busy unless an INIT abandoned it. -/
  current : ∀ (r : RequestId) (w : Worker), s.workers[r]? = some w → w.pc ≠ .done →
    s.busy = some r ∨ Abandoned r s.log
  stage : ∀ (r : RequestId) (w : Worker), s.workers[r]? = some w → Stage r w.channel s.log w.pc
  filled : ∀ (r : RequestId) (w : Worker), s.workers[r]? = some w → Filled w
  /-- An abandoned request never is busy again. -/
  abandoned : ∀ r, Abandoned r s.log → r < s.workers.length ∧ s.busy ≠ some r
  unborn : ∀ r, s.workers.length ≤ r → reportsOf r s.log = []

theorem inv_start (pid : UInt32) : Inv (start pid) :=
  ⟨by simp [start], by simp [start], by simp [start], by simp [start], by simp [start],
    by simp [start, Abandoned], by simp [start, reportsOf]⟩

theorem stage_turn {s : State} {r : RequestId} {w w' : Worker} {act : Act} (h : Inv s)
    (hw : s.workers[r]? = some w) (hturn : Turn s r w w' act) :
    Stage r w'.channel ((s.perform (.worker r) act).setWorker r w').log w'.pc := by
  have hstage := h.stage r w hw
  have hquiet {act : Act} {u : Worker} (hact : ∀ bytes, act ≠ .report bytes)
      (hearly : w.pc.Early) :
      Beats w.channel (reportsOf r ((s.perform (.worker r) act).setWorker r u).log) := by
    rw [stage_early hearly] at hstage
    rwa [reportsOf_own_quiet hact]
  cases hturn with
  | @current payload hpc hbusy =>
      rw [hpc] at hstage
      refine ⟨⟨s.log, s.now, [], by simp, by simp⟩, reportsOf r s.log, payload, hstage, ?_, ?_⟩
      · exact (h.filled r w hw).verdict _ hpc
      · rw [reportsOf_own_quiet (by simp)]
  | stale hpc hbusy =>
      refine .inr ⟨⟨s.log, s.now, [], by simp, fun _ => ?_⟩, ?_⟩
      rotate_left
      · exact hquiet (by simp) (by simp [hpc, Pc.Early])
      exact (h.current r w hw (by simp [hpc])).resolve_left hbusy
  | reported hpc =>
      rw [hpc] at hstage
      refine .inl ⟨hstage.1.append _, ?_⟩
      rw [reportsOf_own_quiet (by simp)]
      simpa using hstage.2
  | report hpc =>
      rw [hpc] at hstage
      refine ⟨hstage.1.append _, ?_⟩
      rw [reportsOf_own]
      simpa using hstage.2
  | finish hpc =>
      rw [hpc] at hstage
      have hsame : reportsOf r ((s.perform (.worker r) (.release r)).setWorker r
          {w with pc := .done}).log = reportsOf r s.log := reportsOf_own_quiet (by simp)
      rcases hstage with ⟨hchecked, hanswers⟩ | ⟨hchecked, hbeats⟩
      · exact .inl ⟨hchecked.append _, hsame.symm ▸ hanswers⟩
      · exact .inr ⟨hchecked.append _, hsame.symm ▸ hbeats⟩
  | beat hpc =>
      rw [hpc] at hstage
      intro b hb
      rw [reportsOf_own] at hb
      rcases List.mem_append.mp hb with hold | hnew
      · exact hstage b hold
      · rw [reply_keepalive]
        exact hnew
  | @take l rest heard response queue hpc hqueue =>
      obtain ⟨hearly, hchannel⟩ := poll_early w l rest heard (some response)
      rw [stage_early hearly, hchannel]
      exact hquiet (by simp) (by simp [hpc, Pc.Early])
  | judge hpc =>
      obtain ⟨hearly, hchannel⟩ := judge_early w fun l => (s.link l).device
      rw [stage_early hearly, hchannel]
      exact hquiet judge_ne_report (by simp [hpc, Pc.Early])
  | @swept heard hpc =>
      rw [stage_early (by cases heard <;> trivial)]
      exact hquiet (by simp) (by simp [hpc, Pc.Early])
  | emptyRound hpc =>
      change Stage r w.channel _ w.pc
      rw [stage_early (by simp [hpc, Pc.Early])]
      exact hquiet (by simp) (by simp [hpc, Pc.Early])
  | _ => exact hquiet (by simp) (by simp [*, Pc.Early])

theorem turn_done {s : State} {r : RequestId} {w w' : Worker} {act : Act}
    (h : Turn s r w w' act) (hdone : w'.pc = .done) : act = .release r := by
  cases h with
  | finish => rfl
  | take => exact ((hdone ▸ (poll_early w _ _ _ _).1 : Pc.Early .done)).elim
  | judge => exact ((hdone ▸ (judge_early w _).1 : Pc.Early .done)).elim
  | swept => split at hdone <;> cases hdone
  | emptyRound hpc => simp [hpc] at hdone
  | _ => cases hdone

theorem turn_not_done {s : State} {r : RequestId} {w w' : Worker} {act : Act}
    (h : Turn s r w w' act) : w.pc ≠ .done := by
  cases h <;> simp [*]

/-- A worker that is not done after a step was not done before. -/
theorem Moved.not_done {s t : State} {e : Event} {r : RequestId} {w' : Worker}
    (h : Moved s e t r w') (hdone : w'.pc ≠ .done) :
    (∃ w, s.workers[r]? = some w ∧ w.pc ≠ .done) ∨ r = s.workers.length := by
  cases h with
  | own he hw hturn ht => exact .inl ⟨_, hw, turn_not_done hturn⟩
  | other locked hw hsame hlog =>
      exact .inl ⟨_, hw, fun hpc => hdone (by rw [hsame]; exact hpc)⟩
  | spawned hr => exact .inr hr

theorem Inv.newest_step {s t : State} {e : Event} (h : Inv s) (hslot : SlotStep s e t)
    {r : RequestId} (hbusy : t.busy = some r) : r + 1 = t.workers.length := by
  cases hslot with
  | same hsame hworkers =>
      rw [hworkers]
      exact h.newest r (hsame ▸ hbusy)
  | accept hfree hnew hworkers =>
      obtain rfl : s.workers.length = r := Option.some.inj (hnew.symm.trans hbusy)
      exact hworkers.symm
  | abandon _ _ _ _ _ hfree => simp [hfree] at hbusy
  | release _ _ _ _ _ hfree => simp [hfree] at hbusy

theorem Inv.serving_step {s t : State} {e : Event} (h : Inv s) (hstep : Step s e t)
    {r : RequestId} {w' : Worker} (hbusy : t.busy = some r) (hw' : t.workers[r]? = some w') :
    w'.pc ≠ .done := by
  have hlt (w : Worker) (hw : s.workers[r]? = some w) : r < s.workers.length :=
    (List.getElem?_eq_some_iff.mp hw).1
  have hbefore (w : Worker) (hw : s.workers[r]? = some w) : s.busy = some r := by
    cases hstep.slot with
    | same hsame => exact hsame ▸ hbusy
    | accept hfree hnew =>
        obtain rfl : s.workers.length = r := Option.some.inj (hnew.symm.trans hbusy)
        exact absurd (hlt w hw) (Nat.lt_irrefl _)
    | abandon _ _ _ _ _ hfree => simp [hfree] at hbusy
    | release _ _ _ _ _ hfree => simp [hfree] at hbusy
  cases hstep.moved hw' with
  | own he hw hturn ht =>
      intro hdone
      have hact := turn_done hturn hdone
      rw [ht, setWorker_busy, hact] at hbusy
      simp [State.perform, State.effect, hbefore _ hw] at hbusy
  | other locked hw hsame hlog =>
      have hnot := h.serving r _ (hbefore _ hw) hw
      subst hsame
      exact hnot
  | spawned hr hnew hlog =>
      subst hnew
      simp

theorem Inv.current_step {s t : State} {e : Event} (h : Inv s) (hstep : Step s e t)
    {r : RequestId} {w' : Worker} (hw' : t.workers[r]? = some w') (hdone : w'.pc ≠ .done) :
    t.busy = some r ∨ Abandoned r t.log := by
  obtain ⟨more, hlog⟩ := hstep.log
  have hlt : r < t.workers.length := (List.getElem?_eq_some_iff.mp hw').1
  rcases (hstep.moved hw').not_done hdone with ⟨w, hw, hwdone⟩ | rfl
  · rcases h.current r w hw hwdone with hbusy | habandoned
    · cases hstep.slot with
      | same hsame => exact .inl (hsame.trans hbusy)
      | accept hfree => simp [hfree] at hbusy
      | abandon _ _ _ _ hbusy' _ hlog' =>
          obtain rfl := Option.some.inj (hbusy'.symm.trans hbusy)
          exact .inr ⟨_, by rw [hlog']; exact List.mem_append_right _ (List.mem_singleton_self _),
            rfl⟩
      | release _ _ _ hbusy' hw'' =>
          obtain rfl := Option.some.inj (hbusy'.symm.trans hbusy)
          rw [hw', Option.some.injEq] at hw''
          exact absurd (by rw [hw'']) hdone
    · exact .inr (hlog ▸ habandoned.append more)
  · cases hstep.slot with
    | accept hfree hnew => exact .inl hnew
    | same _ hworkers => exact absurd hlt (by rw [hworkers]; exact Nat.lt_irrefl _)
    | abandon _ _ _ _ _ _ _ hworkers =>
        exact absurd hlt (by rw [hworkers]; exact Nat.lt_irrefl _)
    | release _ _ _ _ _ _ hworkers =>
        exact absurd hlt (by rw [hworkers]; exact Nat.lt_irrefl _)

theorem Inv.stage_step {s t : State} {e : Event} (h : Inv s) (hstep : Step s e t)
    {r : RequestId} {w' : Worker} (hw' : t.workers[r]? = some w') :
    Stage r w'.channel t.log w'.pc := by
  cases hstep.moved hw' with
  | own he hw hturn ht =>
      subst ht
      exact stage_turn h hw hturn
  | other locked hw hsame hlog =>
      subst hsame
      exact (h.stage r _ hw).other hlog
  | spawned hr hnew hlog =>
      subst hnew hr
      intro b hb
      rw [reportsOf_other hlog, h.unborn _ (Nat.le_refl _)] at hb
      cases hb

theorem Inv.filled_step {s t : State} {e : Event} (h : Inv s) (hstep : Step s e t)
    {r : RequestId} {w' : Worker} (hw' : t.workers[r]? = some w') : Filled w' := by
  cases hstep.moved hw' with
  | own he hw hturn ht => exact (h.filled r _ hw).turn hturn
  | other locked hw hsame hlog =>
      subst hsame
      have hfilled := h.filled r _ hw
      exact ⟨hfilled.wins, hfilled.failures, hfilled.errors, hfilled.verdict⟩
  | spawned hr hnew hlog =>
      subst hnew
      exact ⟨by simp, by simp, by simp, by simp⟩

theorem abandoned_snoc {r : RequestId} {log : List Entry} {e : Entry}
    (h : Abandoned r (log ++ [e])) : Abandoned r log ∨ e.act = .abandon r := by
  obtain ⟨x, hmem, hx⟩ := h
  rcases List.mem_append.mp hmem with hold | hnew
  · exact .inl ⟨x, hold, hx⟩
  · exact .inr (List.mem_singleton.mp hnew ▸ hx)

theorem turn_ne_abandon {s : State} {r q : RequestId} {w w' : Worker} {act : Act}
    (h : Turn s r w w' act) : act ≠ .abandon q := by
  rintro rfl
  cases turn_own h

/-- Only a step that takes the slot from the request abandons it. -/
theorem Step.abandoned {s t : State} {e : Event} (h : Step s e t) {r : RequestId}
    (habandoned : Abandoned r t.log) : Abandoned r s.log ∨
      (∃ w, s.workers[r]? = some w) ∧ t.busy = none := by
  cases h with
  | worker hw hturn =>
      exact .inl ((abandoned_snoc habandoned).resolve_right (turn_ne_abandon hturn))
  | @hid u ok pc act hturn =>
      rcases abandoned_snoc habandoned with hold | rfl
      · exact .inl hold
      · generalize s.hid u = before at hturn
        cases hturn with
        | quiet _ _ hact => cases hact
        | abandon hbusy hw => exact .inr ⟨⟨_, hw⟩, rfl⟩
  | begin => exact .inl habandoned
  | outside hout => exact .inl (hout.log ▸ habandoned)

theorem Inv.abandoned_step {s t : State} {e : Event} (h : Inv s) (hstep : Step s e t)
    {r : RequestId} (habandoned : Abandoned r t.log) :
    r < t.workers.length ∧ t.busy ≠ some r := by
  have hle := hstep.slot.length_le
  rcases hstep.abandoned habandoned with hold | ⟨⟨w, hw⟩, hfree⟩
  · obtain ⟨hlt, hbusy⟩ := h.abandoned r hold
    refine ⟨Nat.lt_of_lt_of_le hlt hle, fun hnew => ?_⟩
    cases hstep.slot with
    | same hsame => exact hbusy (hsame ▸ hnew)
    | accept _ hlast =>
        obtain rfl : s.workers.length = r := Option.some.inj (hlast.symm.trans hnew)
        exact Nat.lt_irrefl _ hlt
    | abandon _ _ _ _ _ hfree => simp [hfree] at hnew
    | release _ _ _ _ _ hfree => simp [hfree] at hnew
  · exact ⟨Nat.lt_of_lt_of_le (List.getElem?_eq_some_iff.mp hw).1 hle, by simp [hfree]⟩

theorem Inv.unborn_step {s t : State} {e : Event} (h : Inv s) (hstep : Step s e t)
    {r : RequestId} (hr : t.workers.length ≤ r) : reportsOf r t.log = [] := by
  have hle : s.workers.length ≤ r := Nat.le_trans hstep.slot.length_le hr
  have hnone : s.workers[r]? = none := List.getElem?_eq_none hle
  rw [reportsOf_other (hstep.othersLog fun w hw => by simp [hnone] at hw)]
  exact h.unborn r hle

theorem Inv.step {s t : State} {e : Event} (h : Inv s) (hnext : next s e = some t) : Inv t where
  newest _ hbusy := h.newest_step (step_cases hnext).slot hbusy
  serving _ _ hbusy hw := h.serving_step (step_cases hnext) hbusy hw
  current _ _ hw hdone := h.current_step (step_cases hnext) hw hdone
  stage _ _ hw := h.stage_step (step_cases hnext) hw
  filled _ _ hw := h.filled_step (step_cases hnext) hw
  abandoned _ habandoned := h.abandoned_step (step_cases hnext) habandoned
  unborn _ hr := h.unborn_step (step_cases hnext) hr

theorem inv_reachable {pid : UInt32} {s : State} (h : Reach next always (start pid) s) : Inv s :=
  h.invariant (inv_start pid) fun _ _ _ hinv _ hnext => hinv.step hnext

/-! ### The law -/

/-- A request loses the busy slot to its own worker, which is through with it,
or to an INIT on its own channel. -/
def Frees (s : State) (e : Event) (r : RequestId) : Prop :=
  ∃ w, s.workers[r]? = some w ∧
    ((∃ ok, e = .worker r ok ∧ w.pc = .finish) ∨
      ∃ u ok c p, e = .hid u ok ∧ s.hid u = .cancel (some w.channel) (.init c p))

/-- The slot is taken only when it is free, and freed only as `Frees` says. -/
def SlotLaw (s : State) : Prop :=
  ∀ e t, next s e = some t → ∀ r,
    (t.busy = some r → s.busy = some r ∨ s.busy = none ∧ r = s.workers.length) ∧
      (s.busy = some r → t.busy ≠ some r → t.busy = none ∧ Frees s e r)

/-- At most one reply at any time. -/
def AtMostOneReply (r : RequestId) (channel : UInt32) (log : List Entry) : Prop :=
  ∃ beats payload, Beats channel beats ∧ payload ≠ [] ∧
    reportsOf r log <+: beats ++ reply channel CBOR payload

/-- The worker tested once whether its request is current, and it replied
unless an INIT had abandoned the request before. -/
def RepliedUnlessAbandoned (r : RequestId) (channel : UInt32) (log : List Entry) : Prop :=
  ∃ before time current after,
    log = before ++ ⟨time, .worker r, .currency r current⟩ :: after ∧
      (¬ Abandoned r before → Answers channel (reportsOf r log))

theorem slotLaw (s : State) : SlotLaw s := by
  intro e t hnext r
  cases (step_cases hnext).slot with
  | same hsame =>
      exact ⟨fun hbusy => .inl (hsame ▸ hbusy), fun hbusy hne => absurd (hsame.trans hbusy) hne⟩
  | accept hfree hnew =>
      refine ⟨fun hbusy => .inr ⟨hfree, ?_⟩, fun hbusy => ?_⟩
      · exact (Option.some.inj (hnew.symm.trans hbusy)).symm
      · simp [hfree] at hbusy
  | @abandon u ok q w cause he hu hinit hw hbusy hfree hlog =>
      refine ⟨fun hbusy => by simp [hfree] at hbusy, fun hbusy' _ => ⟨hfree, ?_⟩⟩
      obtain rfl := Option.some.inj (hbusy'.symm.trans hbusy)
      cases cause with
      | init c p => exact ⟨w, hw, .inr ⟨u, ok, c, p, he, hu⟩⟩
      | cancel => cases hinit
      | close => cases hinit
  | @release ok q w he hw hpc hbusy hw' hfree =>
      refine ⟨fun hbusy => by simp [hfree] at hbusy, fun hbusy' _ => ⟨hfree, ?_⟩⟩
      obtain rfl := Option.some.inj (hbusy'.symm.trans hbusy)
      exact ⟨w, hw, .inl ⟨ok, he, hpc⟩⟩

theorem Answers.atMost {channel : UInt32} {reports rest : List Bytes}
    (h : Answers channel (reports ++ rest)) : ∃ beats payload, Beats channel beats ∧
      payload ≠ [] ∧ reports <+: beats ++ reply channel CBOR payload := by
  obtain ⟨beats, payload, hbeats, hpayload, heq⟩ := h
  exact ⟨beats, payload, hbeats, hpayload, heq ▸ List.prefix_append ..⟩

theorem Beats.atMost {channel : UInt32} {reports : List Bytes} (h : Beats channel reports) :
    ∃ beats payload, Beats channel beats ∧ payload ≠ [] ∧
      reports <+: beats ++ reply channel CBOR payload :=
  ⟨reports, [0], h, by simp, List.prefix_append ..⟩

theorem Stage.atMostOne {r : RequestId} {channel : UInt32} {log : List Entry} {pc : Pc}
    (h : Stage r channel log pc) : AtMostOneReply r channel log := by
  have hsettled (hs : Settled r channel log) : AtMostOneReply r channel log := by
    rcases hs with ⟨-, hanswers⟩ | ⟨-, hbeats⟩
    · rw [← List.append_nil (reportsOf r log)] at hanswers
      exact hanswers.atMost
    · exact hbeats.atMost
  cases pc with
  | report rest => exact h.2.atMost
  | finish => exact hsettled h
  | done => exact hsettled h
  | _ => exact Beats.atMost h

theorem Settled.replied {r : RequestId} {channel : UInt32} {log : List Entry}
    (h : Settled r channel log) : RepliedUnlessAbandoned r channel log := by
  rcases h with ⟨⟨before, time, after, heq, -⟩, hanswers⟩ | ⟨⟨before, time, after, heq, hab⟩, -⟩
  · exact ⟨before, time, true, after, heq, fun _ => hanswers⟩
  · exact ⟨before, time, false, after, heq, fun hnot => absurd (hab rfl) hnot⟩

/-- Over every interleaving: at most one request is busy, the newest, and it
is still being handled; its worker writes at most one CBOR reply, not empty and
on its own channel, and has written exactly one when it returns unless an INIT
on the channel was processed before it tested that the request is current; and
the slot of a request is freed by its own worker or by such an INIT only. -/
theorem one_reply_per_request {pid : UInt32} {s : State}
    (h : Reach next always (start pid) s) :
    (∀ r, s.busy = some r → r + 1 = s.workers.length ∧
      ∃ w, s.workers[r]? = some w ∧ w.pc ≠ .done) ∧
    (∀ (r : RequestId) (w : Worker), s.workers[r]? = some w →
      AtMostOneReply r w.channel s.log ∧
        (w.pc = .done → RepliedUnlessAbandoned r w.channel s.log)) ∧
    SlotLaw s := by
  have hinv := inv_reachable h
  refine ⟨fun r hbusy => ?_, fun r w hw => ?_, slotLaw s⟩
  · have hnewest := hinv.newest r hbusy
    have hlt : r < s.workers.length := by
      rw [← hnewest]
      exact Nat.lt_succ_self r
    refine ⟨hnewest, s.workers.get ⟨r, hlt⟩, List.getElem?_eq_getElem hlt, ?_⟩
    exact hinv.serving r _ hbusy (List.getElem?_eq_getElem hlt)
  · have hstage := hinv.stage r w hw
    refine ⟨hstage.atMostOne, fun hdone => ?_⟩
    rw [hdone] at hstage
    exact Settled.replied hstage

/-- A GET_INFO on channel 1, answered by the one phone. -/
def getInfoEvents : List Event :=
  List.flatten [[.connect "a".toList 0, .packet 0 [0, 0, 0, 1, CBOR, 0, 1, GET_INFO]],
    List.replicate 6 (.hid 0 true), List.replicate 8 (.worker 0 true),
    [.receive 0 (frame [RESP, 0, 0, 0, 1, 0, 0xa0]), .readLink 0],
    List.replicate 13 (.worker 0 true)]

theorem getInfo_replied : ∃ s w, Reach next always (start 1) s ∧ s.workers[0]? = some w ∧
    w.pc = .done ∧ w.channel = 1 ∧ RepliedUnlessAbandoned 0 w.channel s.log := by
  obtain ⟨s, w, hrun, hw, hpc, hchannel⟩ : ∃ s w,
      replay next always (start 1) getInfoEvents = some s ∧
        s.workers[0]? = some w ∧ w.pc = .done ∧ w.channel = 1 :=
    ⟨_, _, rfl, rfl, rfl, rfl⟩
  have hreach := reach_of_replay hrun
  exact ⟨s, w, hreach, hw, hpc, hchannel,
    ((one_reply_per_request hreach).2.1 0 w hw).2 hpc⟩

end Passkey.Daemon

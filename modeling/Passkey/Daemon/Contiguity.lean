import Passkey.Daemon.Turns

/-!
The reports of one reply among those of other threads. A reply locks the device
for each report of its own, so two threads that are inside `reply` at a time may
mix their reports; where no thread enters it while another is inside, replies
follow one another whole.
-/

namespace Passkey.Daemon

open Library

/-- The reports that were written, each with the thread that wrote it. -/
def reports (log : List Entry) : List (Actor × Bytes) :=
  log.filterMap fun e =>
    match e.act with
    | .report bytes => some (e.actor, bytes)
    | _ => none

def IsReply (reports : List Bytes) : Prop :=
  ∃ channel command data, reports = reply channel command data

/-- One reply after the other, each written by one thread; the last may not be
complete. -/
def Contiguous (reports : List (Actor × Bytes)) : Prop :=
  ∃ (whole : List (Actor × List Bytes)) (a : Actor) (begun rest : List Bytes),
    (∀ x ∈ whole, IsReply x.2) ∧ IsReply (begun ++ rest) ∧
      reports = whole.flatMap (fun x => x.2.map (x.1, ·)) ++ begun.map (a, ·)

/-! ### Who is inside `reply` -/

def HidPc.reports : HidPc → List Bytes
  | .report rest => rest
  | _ => []

def Pc.reports : Pc → List Bytes
  | .report rest => rest
  | _ => []

/-- The reports that the thread has still to write. -/
def State.unfinished (s : State) : Actor → List Bytes
  | .hid u => (s.hid u).reports
  | .worker r => (s.workers[r]?.map (·.pc.reports)).getD []

/-- The worker has reports of its answer left, or its next KEEPALIVE is due. -/
def Worker.inReply (w : Worker) (now : Nat) : Bool :=
  match w.pc with
  | .report rest => rest ≠ []
  | .beat => (now : Int) - w.lastBeat ≥ 100
  | _ => false

/-- The thread is inside `reply`. -/
def State.inReply (s : State) : Actor → Bool
  | .hid u => (s.hid u).reports ≠ []
  | .worker r => s.workers[r]?.any (·.inReply s.now)

/-- No two threads are inside `reply`. -/
def Exclusive (s : State) (_ : Event) : Prop :=
  ∀ a b, s.inReply a = true → s.inReply b = true → a = b

theorem inReply_of_unfinished {s : State} {a : Actor} (h : s.unfinished a ≠ []) :
    s.inReply a = true := by
  cases a with
  | hid u => exact decide_eq_true h
  | worker r =>
      cases hw : s.workers[r]? with
      | none => simp [State.unfinished, hw] at h
      | some w =>
          rw [State.inReply, hw, Option.any_some, Worker.inReply]
          rw [State.unfinished, hw, Option.map_some, Option.getD_some] at h
          cases hpc : w.pc with
          | report rest => simpa [hpc, Pc.reports] using h
          | _ => simp [hpc, Pc.reports] at h

/-! ### What a step writes -/

/-- A thread has nothing to write, or begins a reply. -/
def Begins (rest : List Bytes) : Prop :=
  rest = [] ∨ IsReply rest

inductive Writes (s t : State) : Prop where
  | none (hlog : t.log = s.log ∨ ∃ x, t.log = s.log ++ [x] ∧ reports [x] = [])
      (hrest : ∀ a, t.unfinished a = s.unfinished a ∨
        s.unfinished a = [] ∧ Begins (t.unfinished a))
  | one {a : Actor} {first : Bytes} {x : Entry} (hlog : t.log = s.log ++ [x])
      (hx : reports [x] = [(a, first)])
      (hinside : s.inReply a = true)
      (hself : s.unfinished a = first :: t.unfinished a ∨
        s.unfinished a = [] ∧ t.unfinished a = [] ∧ IsReply [first])
      (hothers : ∀ b, b ≠ a → t.unfinished b = s.unfinished b)

theorem isReply_reply (channel : UInt32) (command : UInt8) (data : Bytes) :
    IsReply (reply channel command data) :=
  ⟨channel, command, data, rfl⟩

theorem begins_dispatch (s : State) (channel : UInt32) (command : UInt8) (data : Bytes) :
    Begins (s.dispatch channel command data).reports := by
  unfold State.dispatch
  repeat' split
  all_goals first | exact .inr (isReply_reply ..) | exact .inl rfl

theorem begins_packet (bytes : Bytes) : Begins (packet bytes).reports := by
  unfold packet initPacket
  repeat' split
  all_goals first | exact .inr (isReply_reply ..) | exact .inl rfl

theorem begins_opening {e : Event} {u : ThreadId} {pc : HidPc} (h : pc.Opening e u) :
    Begins pc.reports := by
  rcases h with ⟨bytes, -, rfl⟩ | ⟨-, rfl⟩
  · exact begins_packet bytes
  · exact .inl rfl

theorem reports_next (cause : Cause) : cause.next.reports = [] := by
  cases cause <;> rfl

/-- The act writes no report. -/
def Act.silent : Act → Bool
  | .report _ => false
  | _ => true

theorem reports_silent {time : Nat} {actor : Actor} {act : Act} (h : act.silent = true) :
    reports [⟨time, actor, act⟩] = [] := by
  cases act with
  | report => cases h
  | _ => rfl

/-- A thread writes its next report, or has none and may begin a reply. -/
def Continues (rest : List Bytes) (act : Act) (rest' : List Bytes) : Prop :=
  (∃ first, act = .report first ∧ rest = first :: rest') ∨
    act.silent = true ∧ rest = [] ∧ Begins rest'

theorem hidTurn_reports {s : State} {ok : Bool} {pc pc' : HidPc} {act : Act}
    (h : pc.turn s ok = some (pc', act)) : Continues pc.reports act pc'.reports := by
  cases hidStep_cases h with
  | @report first rest =>
      refine .inl ⟨first, rfl, ?_⟩
      cases rest <;> rfl
  | unmatched | withdrawn => exact .inr ⟨rfl, rfl, .inl (reports_next _)⟩
  | dispatch => exact .inr ⟨rfl, rfl, begins_dispatch ..⟩
  | elsewhere | misnumbered | refuse | assign => exact .inr ⟨rfl, rfl, .inr (isReply_reply ..)⟩
  | _ => exact .inr ⟨rfl, rfl, .inl rfl⟩

theorem poll_reports (w : Worker) (l : LinkId) (rest : List LinkId) (heard : Bool)
    (response : Option (UInt32 × Bytes)) : (w.poll l rest heard response).pc.reports = [] := by
  unfold Worker.poll
  repeat' split
  all_goals rfl

theorem judge_reports (w : Worker) (device : LinkId → Text) :
    (w.judge device).1.pc.reports = [] ∧ (w.judge device).2.silent = true := by
  unfold Worker.judge
  repeat' split
  all_goals exact ⟨rfl, rfl⟩

/-- A KEEPALIVE is a reply of one report. -/
theorem turn_reports {s : State} {r : RequestId} {ok : Bool} {w w' : Worker} {act : Act}
    (h : w.turn s r ok = some (w', act)) : Continues w.pc.reports act w'.pc.reports ∨
      w.inReply s.now = true ∧ w.pc.reports = [] ∧ w'.pc.reports = [] ∧
        ∃ first, act = .report first ∧ IsReply [first] := by
  have hnone {pc : Pc} (hpc : w.pc = pc) (h : pc.reports = []) : w.pc.reports = [] := hpc ▸ h
  cases turn_cases h with
  | take hpc => exact .inl (.inr ⟨rfl, hnone hpc rfl, .inl (poll_reports ..)⟩)
  | beat hpc =>
      have hdue : (s.now : Int) - w.lastBeat ≥ 100 := by
        by_contra hearly
        rw [Worker.turn, hpc] at h
        simp [hearly] at h
      refine .inr ⟨by simpa [Worker.inReply, hpc] using hdue, hnone hpc rfl, rfl, _, rfl, ?_⟩
      rw [← reply_keepalive]
      exact isReply_reply ..
  | judge hpc =>
      obtain ⟨hreports, hsilent⟩ := judge_reports w fun l => (s.link l).device
      exact .inl (.inr ⟨hsilent, hnone hpc rfl, .inl hreports⟩)
  | current hpc => exact .inl (.inr ⟨rfl, hnone hpc rfl, .inr (isReply_reply ..)⟩)
  | report hpc => exact .inl (.inl ⟨_, rfl, congrArg Pc.reports hpc⟩)
  | @swept heard hpc => cases heard <;> exact .inl (.inr ⟨rfl, hnone hpc rfl, .inl rfl⟩)
  | emptyRound hpc => exact .inl (.inr ⟨rfl, hnone hpc rfl, .inl (hnone hpc rfl)⟩)
  | roundsOver hpc | plan hpc | consult hpc | enter hpc | allSent hpc | send hpc | publish hpc
  | goOn hpc | stop hpc | silence hpc | noBeat hpc | clear hpc | withdrawn hpc | withdraw hpc
  | stale hpc | reported hpc | finish hpc =>
      exact .inl (.inr ⟨rfl, hnone hpc rfl, .inl rfl⟩)

theorem Continues.writes {s t : State} {a : Actor} {act : Act}
    (h : Continues (s.unfinished a) act (t.unfinished a))
    (hlog : t.log = s.log ++ [⟨s.now, a, act⟩])
    (hothers : ∀ b, b ≠ a → t.unfinished b = s.unfinished b) : Writes s t := by
  rcases h with ⟨first, rfl, hrest⟩ | ⟨hsilent, hnone, hbegins⟩
  · exact .one hlog rfl (inReply_of_unfinished (by simp [hrest])) (.inl hrest) hothers
  · refine .none (.inr ⟨_, hlog, reports_silent hsilent⟩) fun b => ?_
    by_cases hb : b = a
    · exact hb ▸ .inr ⟨hnone, hbegins⟩
    · exact .inl (hothers b hb)

/-- The other workers have to write what they had before. -/
theorem Step.unfinished {s t : State} {e : Event} (h : Step s e t) {r : RequestId}
    (he : ∀ ok, e ≠ .worker r ok) : t.unfinished (.worker r) = s.unfinished (.worker r) := by
  cases hw' : t.workers[r]? with
  | none =>
      have hnone : s.workers[r]? = none := by
        rw [List.getElem?_eq_none_iff] at hw' ⊢
        exact h.slot.length_le.trans hw'
      simp [State.unfinished, hw', hnone]
  | some w' =>
      cases h.moved hw' with
      | own heq => exact absurd heq (he _)
      | other locked hw hsame => simp [State.unfinished, hw', hw, hsame]
      | spawned hr hnew =>
          have hnone : s.workers[r]? = none := List.getElem?_eq_none (Nat.le_of_eq hr.symm)
          simp [State.unfinished, hw', hnone, hnew, Pc.reports]

theorem worker_writes {s t : State} {r : RequestId} {ok : Bool}
    (hnext : next s (.worker r ok) = some t) : Writes s t := by
  have hstep := step_cases hnext
  obtain ⟨⟨w', act⟩, hbind, rfl⟩ := Option.map_eq_some_iff.mp hnext
  obtain ⟨w, hw, hrun⟩ := Option.bind_eq_some_iff.mp hbind
  have hworkers := (turn_own (turn_cases hrun)).workers s (.worker r)
  have hbefore : s.unfinished (.worker r) = w.pc.reports := by simp [State.unfinished, hw]
  have hafter : State.unfinished ((s.perform (.worker r) act).setWorker r w') (.worker r) =
      w'.pc.reports := by
    have hlt := (List.getElem?_eq_some_iff.mp hw).1
    simp [State.unfinished, hworkers, List.getElem?_set_self hlt]
  have hothers : ∀ b, b ≠ .worker r →
      State.unfinished ((s.perform (.worker r) act).setWorker r w') b = s.unfinished b := by
    intro b hb
    cases b with
    | hid u => simp [State.unfinished]
    | worker q =>
        refine hstep.unfinished fun ok' heq => hb ?_
        rw [(Event.worker.inj heq).1]
  rcases turn_reports hrun with hcontinues | ⟨hinside, hnone, hnone', first, rfl, hreply⟩
  · rw [← hbefore, ← hafter] at hcontinues
    exact hcontinues.writes rfl hothers
  · exact .one rfl rfl (by simpa [State.inReply, hw] using hinside)
      (.inr ⟨hbefore.trans hnone, hafter.trans hnone', hreply⟩) hothers

theorem next_writes {s t : State} {e : Event} (hnext : next s e = some t) : Writes s t := by
  have hstep := step_cases hnext
  cases hstep with
  | worker => exact worker_writes hnext
  | @hid u ok pc act _ hrun =>
      refine Continues.writes (a := .hid u) ?_ rfl fun b hb => ?_
      · simpa [State.unfinished, setHid_hid] using hidTurn_reports hrun
      · cases b with
        | hid v =>
            have hv : v ≠ u := fun heq => hb (heq ▸ rfl)
            simp [State.unfinished, setHid_hid, hv]
        | worker q => exact (step_cases hnext).unfinished fun ok' heq => by cases heq
  | @begin _ u pc hidle hopening =>
      refine .none (.inl rfl) fun a => ?_
      cases a with
      | hid v =>
          by_cases hv : v = u
          · subst hv
            refine .inr ⟨by simp [State.unfinished, hidle, HidPc.reports], ?_⟩
            simpa [State.unfinished, setHid_hid] using begins_opening hopening
          · exact .inl (by simp [State.unfinished, setHid_hid, hv])
      | worker r => exact .inl rfl
  | outside hout =>
      refine .none (.inl hout.log) fun a => .inl ?_
      cases a with
      | hid u => simp [State.unfinished, hout.hid]
      | worker r => simp [State.unfinished, hout.workers]

/-! ### The invariant -/

/-- The reports of whole replies, one after the other. -/
def flat (whole : List (Actor × List Bytes)) : List (Actor × Bytes) :=
  whole.flatMap fun x => x.2.map (x.1, ·)

/-- Nobody is in the middle of a reply, or this thread has begun one. -/
inductive Progress (s : State) : Option Actor → List (Actor × Bytes) → Prop where
  | between {whole : List (Actor × List Bytes)} (hwhole : ∀ x ∈ whole, IsReply x.2) :
      Progress s none (flat whole)
  | within {whole : List (Actor × List Bytes)} {a : Actor} {begun : List Bytes}
      (hwhole : ∀ x ∈ whole, IsReply x.2) (hrest : s.unfinished a ≠ [])
      (hreply : IsReply (begun ++ s.unfinished a)) :
      Progress s (some a) (flat whole ++ begun.map (a, ·))

structure Replying (s : State) (middle : Option Actor) : Prop where
  progress : Progress s middle (reports s.log)
  fresh : ∀ a, middle ≠ some a → Begins (s.unfinished a)

theorem replying_start (pid : UInt32) : Replying (start pid) none :=
  ⟨@Progress.between _ [] (by simp), fun a _ => .inl (by cases a <;> rfl)⟩

theorem reports_append (log more : List Entry) :
    reports (log ++ more) = reports log ++ reports more :=
  List.filterMap_append

/-- A reply that is begun goes on, or is complete. -/
theorem progress_of_begun {s : State} {whole : List (Actor × List Bytes)} {a : Actor}
    {begun : List Bytes} (hwhole : ∀ x ∈ whole, IsReply x.2)
    (hreply : IsReply (begun ++ s.unfinished a)) :
    Progress s (if s.unfinished a = [] then none else some a) (flat whole ++ begun.map (a, ·)) := by
  by_cases hrest : s.unfinished a = []
  · rw [if_pos hrest]
    rw [hrest, List.append_nil] at hreply
    have hflat : flat whole ++ begun.map (a, ·) = flat (whole ++ [(a, begun)]) := by
      simp [flat]
    rw [hflat]
    refine .between fun x hx => ?_
    rcases List.mem_append.mp hx with hold | hnew
    · exact hwhole x hold
    · exact List.mem_singleton.mp hnew ▸ hreply
  · rw [if_neg hrest]
    exact .within hwhole hrest hreply

theorem Begins.isReply {first : Bytes} {rest : List Bytes} (h : Begins (first :: rest)) :
    IsReply (first :: rest) :=
  h.resolve_left (List.cons_ne_nil _ _)

/-- The first report of a reply is written, or the next one of the reply that
was begun. -/
theorem Replying.grows {s : State} {middle : Option Actor} (h : Replying s middle) {a : Actor}
    {first : Bytes} {rest : List Bytes} (hmine : ∀ b ∈ middle, a = b)
    (hself : s.unfinished a = first :: rest ∨ s.unfinished a = [] ∧ rest = [] ∧ IsReply [first]) :
    ∃ whole begun, (∀ x ∈ whole, IsReply x.2) ∧ IsReply (begun ++ rest) ∧
      reports s.log ++ [(a, first)] = flat whole ++ begun.map (a, ·) := by
  obtain ⟨hprogress, hfresh⟩ := h
  generalize reports s.log = written at hprogress ⊢
  cases hprogress with
  | @between whole hwhole =>
      refine ⟨whole, [first], hwhole, ?_, rfl⟩
      rcases hself with hnext | ⟨-, rfl, hreply⟩
      · exact (hnext ▸ hfresh a (by simp)).isReply
      · exact hreply
  | @within whole b begun hwhole hrest hreply =>
      obtain rfl := hmine b rfl
      rcases hself with hnext | ⟨hnone, -⟩
      · refine ⟨whole, begun ++ [first], hwhole, ?_, by simp⟩
        rwa [hnext, List.append_cons] at hreply
      · exact absurd hnone hrest

/-- A thread that is in the middle of a reply is inside `reply`. -/
theorem Replying.inside {s : State} {a : Actor} (h : Replying s (some a)) :
    s.inReply a = true := by
  obtain ⟨hprogress, -⟩ := h
  generalize reports s.log = written at hprogress
  cases hprogress with
  | within _ hrest => exact inReply_of_unfinished hrest

theorem Replying.step {s t : State} {middle : Option Actor} {e : Event} (h : Replying s middle)
    (hok : Exclusive s e) (hnext : next s e = some t) : ∃ middle, Replying t middle := by
  cases next_writes hnext with
  | none hlog hrest =>
      have hquiet : reports t.log = reports s.log := by
        rcases hlog with hsame | ⟨x, hlog, hx⟩
        · rw [hsame]
        · rw [hlog, reports_append, hx, List.append_nil]
      refine ⟨middle, ?_, fun a ha => ?_⟩
      · rw [hquiet]
        obtain ⟨hprogress, -⟩ := h
        generalize reports s.log = written at hprogress ⊢
        cases hprogress with
        | between hwhole => exact .between hwhole
        | @within whole a begun hwhole hunfinished hreply =>
            have hsame := (hrest a).resolve_right fun hnone => hunfinished hnone.1
            exact .within hwhole (hsame ▸ hunfinished) (hsame ▸ hreply)
      · rcases hrest a with hsame | ⟨-, hbegins⟩
        · exact hsame ▸ h.fresh a ha
        · exact hbegins
  | @one a first x hlog hx hinside hself hothers =>
      -- The writer is inside its reply, so no other thread has begun one.
      have hmine : ∀ b ∈ middle, a = b := by
        rintro b rfl
        exact hok a b hinside h.inside
      obtain ⟨whole, begun, hwhole, hreply, hreports⟩ := h.grows hmine hself
      refine ⟨if t.unfinished a = [] then none else some a, ?_, fun b hb => ?_⟩
      · rw [hlog, reports_append, hx, hreports]
        exact progress_of_begun hwhole hreply
      · by_cases hab : b = a
        · subst hab
          refine .inl ?_
          by_contra hrest
          exact hb (if_neg hrest)
        · rw [hothers b hab]
          exact h.fresh b fun hmem => hab (hmine b hmem).symm

/-- In every run in which no thread enters `reply` while another is inside it,
replies are written one after the other. -/
theorem reports_contiguous {pid : UInt32} {s : State} (h : Reach next Exclusive (start pid) s) :
    Contiguous (reports s.log) := by
  obtain ⟨middle, hprogress, -⟩ := h.invariant (I := fun s => ∃ middle, Replying s middle)
    ⟨none, replying_start pid⟩ fun s e t ⟨_, hs⟩ hok hnext => hs.step hok hnext
  generalize reports s.log = written at hprogress
  cases hprogress with
  | @between whole hwhole =>
      exact ⟨whole, .hid 0, [], reply 0 0 [], hwhole, isReply_reply .., by simp [flat]⟩
  | @within whole a begun hwhole _ hreply => exact ⟨whole, a, begun, _, hwhole, hreply, rfl⟩

/-- A request on channel 1 is answered in two reports, of which the first is
written. -/
def answeredEvents : List Event :=
  List.flatten [[.connect "a".toList 0, .packet 0 [0, 0, 0, 1, CBOR, 0, 1, 1]],
    List.replicate 6 (.hid 0 true), List.replicate 6 (.worker 0 true),
    [.receive 0 (frame ([RESP, 0, 0, 0, 1] ++ List.replicate 60 0)), .readLink 0],
    List.replicate 9 (.worker 0 true)]

/-- A packet on channel 2 is answered as well. -/
def busyEvents : List Event :=
  [.packet 0 [0, 0, 0, 2, CBOR, 0, 1, 1]] ++ List.replicate 2 (.hid 0 true)

/-- The thread that reads the device in this step. -/
def Event.reader : Event → Option ThreadId
  | .packet u _ => some u
  | .uhidClose u => some u
  | .hid u _ => some u
  | _ => none

/-- One thread reads the device, there is one request at most, and the two are
not inside `reply` together. -/
def TakingTurns (s : State) (e : Event) : Prop :=
  (∀ u ∈ e.reader, u = 0) ∧ s.workers.length ≤ 1 ∧
    (s.inReply (.hid 0) && s.inReply (.worker 0)) = false

instance (s : State) (e : Event) : Decidable (TakingTurns s e) :=
  inferInstanceAs (Decidable ((∀ u ∈ e.reader, u = 0) ∧ s.workers.length ≤ 1 ∧
    (s.inReply (.hid 0) && s.inReply (.worker 0)) = false))

theorem hid_of_reader {s t : State} {e : Event} (h : Step s e t) {u : ThreadId}
    (he : e.reader ≠ some u) : t.hid u = s.hid u := by
  cases h with
  | worker => simp
  | @hid v =>
      have hv : u ≠ v := fun heq => he (heq ▸ rfl)
      simp [setHid_hid, hv]
  | @begin _ v pc _ hopening =>
      have hv : u ≠ v := by
        rintro rfl
        rcases hopening with ⟨bytes, rfl, -⟩ | ⟨rfl, -⟩ <;> exact he rfl
      simp [setHid_hid, hv]
  | outside hout => rw [hout.hid]

theorem exclusive_of_takingTurns {s : State} {e : Event} (hidle : ∀ u, u ≠ 0 → s.hid u = .idle)
    (h : TakingTurns s e) : Exclusive s e := by
  obtain ⟨-, hlength, hapart⟩ := h
  have hone {a : Actor} (ha : s.inReply a = true) : a = .hid 0 ∨ a = .worker 0 := by
    cases a with
    | hid u =>
        by_cases hu : u = 0
        · exact .inl (hu ▸ rfl)
        · simp [State.inReply, hidle u hu, HidPc.reports] at ha
    | worker r =>
        cases hw : s.workers[r]? with
        | none => simp [State.inReply, hw] at ha
        | some w =>
            have hlt := (List.getElem?_eq_some_iff.mp hw).1
            have hr : r = 0 := Nat.lt_one_iff.mp (Nat.lt_of_lt_of_le hlt hlength)
            exact .inr (hr ▸ rfl)
  intro a b ha hb
  rcases hone ha with rfl | rfl <;> rcases hone hb with rfl | rfl
  · rfl
  · simp [ha, hb] at hapart
  · simp [ha, hb] at hapart
  · rfl

theorem reach_exclusive {s : State} (h : Reach next TakingTurns (start 1) s) :
    (∀ u, u ≠ 0 → s.hid u = .idle) ∧ Reach next Exclusive (start 1) s := by
  induction h with
  | refl => exact ⟨fun _ _ => rfl, .refl⟩
  | @tail s t e _ hok hnext ih =>
      obtain ⟨hidle, hrun⟩ := ih
      refine ⟨fun u hu => ?_, hrun.tail (exclusive_of_takingTurns hidle hok) hnext⟩
      rw [hid_of_reader (step_cases hnext) fun he => hu (hok.1 u he)]
      exact hidle u hu

/-- The second reply comes after the first. -/
theorem answered_contiguous : ∃ s, Reach next Exclusive (start 1) s ∧
    (reports s.log).map (·.1) = [.worker 0, .worker 0, .hid 0] ∧ Contiguous (reports s.log) := by
  obtain ⟨s, hrun, hactors⟩ : ∃ s, replay next TakingTurns (start 1)
      (answeredEvents ++ [.worker 0 true] ++ busyEvents) = some s ∧
        (reports s.log).map (·.1) = [.worker 0, .worker 0, .hid 0] := ⟨_, rfl, rfl⟩
  have hreach := (reach_exclusive (reach_of_replay hrun)).2
  exact ⟨s, hreach, hactors, reports_contiguous hreach⟩

/-! ### A report of another channel comes between two of one reply -/

theorem reply_single {channel : UInt32} {command : UInt8} {data first : Bytes}
    (h : reply channel command data = [first]) :
    data.length ≤ 57 ∧ first[6]? = some (UInt8.ofNat data.length) := by
  obtain ⟨hfirst, hrest⟩ := List.cons.inj h
  have hshort : data.length ≤ 57 := by
    by_contra hlong
    have hfuel : data.length = (data.length - 1) + 1 := by omega
    have hmore : data.drop 57 ≠ [] := by
      rw [Ne, List.drop_eq_nil_iff]
      omega
    rw [hfuel, continuations, if_neg hmore] at hrest
    cases hrest
  refine ⟨hshort, ?_⟩
  have hlow : first[6]? = some (UInt8.ofNat (data.length % 2 ^ 16 / 256 ^ 0)) := by
    rw [← hfirst]
    rfl
  rw [hlow, Nat.mod_eq_of_lt (by omega)]
  simp

theorem report_between : ∃ s, Reach next always (start 1) s ∧ ¬ Contiguous (reports s.log) := by
  obtain ⟨s, x, y, z, hrun, hreports, hlength⟩ : ∃ s x y z,
      replay next always (start 1) (answeredEvents ++ busyEvents ++ [.worker 0 true]) = some s ∧
        reports s.log = [(.worker 0, x), (.hid 0, y), (.worker 0, z)] ∧ x[6]? = some 60 :=
    ⟨_, _, _, _, rfl, rfl, rfl⟩
  refine ⟨s, reach_of_replay hrun, ?_⟩
  rintro ⟨whole, a, begun, rest, hwhole, -, hsplit⟩
  rw [hreports] at hsplit
  cases whole with
  | nil =>
      obtain ⟨b, _, rfl, hb, hmore⟩ := List.map_eq_cons_iff.mp hsplit.symm
      obtain ⟨c, _, -, hc, -⟩ := List.map_eq_cons_iff.mp hmore
      exact absurd ((Prod.mk.inj hb).1.symm.trans (Prod.mk.inj hc).1) (by decide)
  | cons block whole =>
      obtain ⟨actor, written⟩ := block
      obtain ⟨channel, command, data, heq⟩ := hwhole (actor, written) List.mem_cons_self
      rw [List.flatMap_cons, List.append_assoc] at hsplit
      cases written with
      | nil => exact reply_ne_nil _ _ _ heq.symm
      | cons first more =>
          obtain ⟨hfirst, hmore⟩ := List.cons.inj hsplit
          obtain ⟨rfl, rfl⟩ := Prod.mk.inj hfirst
          cases more with
          | nil =>
              obtain ⟨hshort, hlow⟩ := reply_single heq.symm
              rw [hlength, Option.some.injEq] at hlow
              have hvalue := congrArg UInt8.toNat hlow
              rw [UInt8.toNat_ofNat_of_lt' (hshort.trans_lt (by decide))] at hvalue
              have hsixty : (60 : UInt8).toNat = 60 := rfl
              omega
          | cons second more =>
              have hactor : Actor.hid 0 = .worker 0 := (Prod.mk.inj (List.cons.inj hmore).1).1
              cases hactor

end Passkey.Daemon

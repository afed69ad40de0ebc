import Passkey.Daemon.FanOut
import Passkey.Daemon.Rounds

/-!
Whether nobody has a credential. A request is answered so when all errors of its
rounds say so, but a link whose REQ frame could not be sent leaves no error, and
neither does one that is still pending at the deadline; the law holds in the
runs where neither happens. A worker of the daemon is a worker on its own whose
steps see states of the run, so what is known of the latter carries over.
-/

namespace Passkey.Daemon

open Library

/-! ### A worker of the daemon on its own -/

/-- What the worker of a request did, in order. -/
def actsOf (r : RequestId) (log : List Entry) : List Act :=
  log.filterMap fun e => if e.actor = .worker r then some e.act else none

/-- The steps are those that the worker took in the run up to `s`, each of them
under the condition of the run. -/
structure Solo (ok : State → Event → Prop) (r : RequestId) (s : State) (w : Worker)
    (strides : List Stride) : Prop where
  run : ∃ channel number data, Reach (works r) always ({channel, number, data}, []) (w, strides)
  log : strides.map Stride.act = actsOf r s.log
  seen : ∀ x ∈ strides, ∃ b w', ok x.seen (.worker r b) ∧ x.seen.workers[r]? = some x.before ∧
    x.before.turn x.seen r b = some (w', x.act)
  busy : ∀ x ∈ strides, x.seen.busy ≠ some r → s.busy ≠ some r

theorem actsOf_append (r : RequestId) (log more : List Entry) :
    actsOf r (log ++ more) = actsOf r log ++ actsOf r more :=
  List.filterMap_append

theorem actsOf_other {r : RequestId} {s t : State} (h : OthersLog r s t) :
    actsOf r t.log = actsOf r s.log := by
  rcases h with hsame | ⟨actor, act, hactor, hlog⟩
  · rw [hsame]
  · rw [hlog, actsOf_append]
    simp [actsOf, hactor]

/-- A request that was not accepted yet has no worker that did anything. -/
theorem actsOf_unborn {ok : State → Event → Prop} {pid : UInt32} {s : State}
    (h : Reach next ok (start pid) s) :
    ∀ r, s.workers.length ≤ r → actsOf r s.log = [] := by
  refine Reach.invariant (I := fun s => ∀ r, s.workers.length ≤ r → actsOf r s.log = [])
    (fun _ _ => rfl) ?_ h
  intro s e t hs _ hnext r hr
  have hstep := step_cases hnext
  have hle : s.workers.length ≤ r := Nat.le_trans hstep.slot.length_le hr
  have hnone : s.workers[r]? = none := List.getElem?_eq_none hle
  rw [actsOf_other (hstep.othersLog fun w hw => by simp [hnone] at hw)]
  exact hs r hle

/-- A step of another thread. -/
theorem Solo.other {ok : State → Event → Prop} {r : RequestId} {s t : State} {w : Worker}
    {strides : List Stride} (h : Solo ok r s w strides) (locked : Bool) (hlog : OthersLog r s t)
    (hbusy : s.busy ≠ some r → t.busy ≠ some r) :
    Solo ok r t {w with locked := locked} strides where
  run := by
    obtain ⟨channel, number, data, hrun⟩ := h.run
    exact ⟨channel, number, data, hrun.tail (e := .lock locked) trivial rfl⟩
  log := by
    rw [actsOf_other hlog]
    exact h.log
  seen := h.seen
  busy := fun x hx hnot => hbusy (h.busy x hx hnot)

/-- A step of the worker itself. -/
theorem Solo.own {ok : State → Event → Prop} {r : RequestId} {s t : State} {w w' : Worker}
    {act : Act} {b : Bool} {strides : List Stride} (h : Solo ok r s w strides)
    (hw : s.workers[r]? = some w) (hok : ok s (.worker r b)) (hturn : w.turn s r b = some (w', act))
    (hlog : t.log = s.log ++ [⟨s.now, .worker r, act⟩])
    (hbusy : s.busy ≠ some r → t.busy ≠ some r) :
    Solo ok r t w' (strides ++ [⟨w, s, act⟩]) where
  run := by
    obtain ⟨channel, number, data, hrun⟩ := h.run
    refine ⟨channel, number, data, hrun.tail (e := .turn s b) trivial ?_⟩
    simp [works, hturn]
  log := by
    rw [List.map_append, h.log, hlog, actsOf_append]
    simp [actsOf]
  seen := by
    intro x hx
    rcases List.mem_append.mp hx with hold | hnew
    · exact h.seen x hold
    · obtain rfl := List.mem_singleton.mp hnew
      exact ⟨b, w', hok, hw, hturn⟩
  busy := by
    intro x hx hnot
    rcases List.mem_append.mp hx with hold | hnew
    · exact hbusy (h.busy x hold hnot)
    · obtain rfl := List.mem_singleton.mp hnew
      exact hbusy hnot

theorem next_worker {s t : State} {r : RequestId} {b : Bool} (h : next s (.worker r b) = some t) :
    ∃ w w' act, s.workers[r]? = some w ∧ w.turn s r b = some (w', act) ∧
      t = (s.perform (.worker r) act).setWorker r w' := by
  obtain ⟨⟨w', act⟩, hturn, rfl⟩ := Option.map_eq_some_iff.mp h
  obtain ⟨w, hw, hturn⟩ := Option.bind_eq_some_iff.mp hturn
  exact ⟨w, w', act, hw, hturn, rfl⟩

/-- Every worker of a run is a worker on its own that saw states of the run. -/
theorem solo_reachable {ok : State → Event → Prop} {pid : UInt32} {s : State}
    (h : Reach next ok (start pid) s) :
    ∀ (r : RequestId) (w : Worker), s.workers[r]? = some w → ∃ strides, Solo ok r s w strides := by
  induction h with
  | refl => simp [start]
  | @tail s t e hrun hok hnext ih =>
      intro r w' hw'
      have hstep := step_cases hnext
      have hbusy (hr : r < s.workers.length) (hnot : s.busy ≠ some r) : t.busy ≠ some r :=
        hstep.slot.stays_free hr hnot
      cases hstep.moved hw' with
      | @own b w act he hw hturn ht =>
          obtain ⟨strides, hsolo⟩ := ih r w hw
          subst he
          obtain ⟨v, v', act', hv, hrun', ht'⟩ := next_worker hnext
          obtain rfl := Option.some.inj (hw.symm.trans hv)
          have hlt := (List.getElem?_eq_some_iff.mp hw).1
          have hafter : v' = w' := by
            rw [ht', setWorker_workers, (turn_own (turn_cases hrun')).workers,
              List.getElem?_set_self'] at hw'
            rw [hw] at hw'
            exact Option.some.inj hw'
          subst hafter
          exact ⟨_, hsolo.own hw hok hrun' (by rw [ht']; rfl) (hbusy hlt)⟩
      | @other w locked hw hsame hlog =>
          obtain ⟨strides, hsolo⟩ := ih r w hw
          subst hsame
          have hlt := (List.getElem?_eq_some_iff.mp hw).1
          exact ⟨strides, hsolo.other locked hlog (hbusy hlt)⟩
      | @spawned channel number data hr hnew hlog =>
          subst hnew
          have hnone := actsOf_unborn hrun r (hr ▸ Nat.le_refl _)
          exact ⟨[], ⟨channel, number, data, .refl⟩, by rw [actsOf_other hlog, hnone]; rfl,
            by simp, by simp⟩

/-- The request whose worker does this, where only a worker can. -/
def Act.ofWorker : Act → Option RequestId
  | .write (.req r ..) _ _ => some r
  | .take r .. => some r
  | _ => none

theorem turn_ofWorker {s : State} {r q : RequestId} {w w' : Worker} {act : Act}
    (h : Turn s r w w' act) (hact : act.ofWorker = some q) : q = r := by
  cases h with
  | send => exact (Option.some.inj hact).symm
  | take => exact (Option.some.inj hact).symm
  | judge =>
      unfold Worker.judge at hact
      repeat' split at hact
      all_goals cases hact
  | _ => cases hact

/-- The worker of a request sends its REQ frames and takes its answers. -/
theorem own_actor {ok : State → Event → Prop} {pid : UInt32} {s : State}
    (h : Reach next ok (start pid) s) : ∀ e ∈ s.log, ∀ r, e.act.ofWorker = some r →
      e.actor = .worker r := by
  refine Reach.invariant (I := fun s => ∀ e ∈ s.log, ∀ r, e.act.ofWorker = some r →
    e.actor = .worker r) (by simp [start]) ?_ h
  intro s e t hs _ hnext x hx r hact
  cases step_cases hnext with
  | worker hw hturn =>
      rcases List.mem_append.mp hx with hold | hnew
      · exact hs x hold r hact
      · obtain rfl := List.mem_singleton.mp hnew
        rw [turn_ofWorker hturn hact]
  | @hid u ok pc act hturn =>
      rcases List.mem_append.mp hx with hold | hnew
      · exact hs x hold r hact
      · obtain rfl := List.mem_singleton.mp hnew
        dsimp only at hact
        generalize s.hid u = before at hturn
        cases hturn with
        | quiet _ _ hquiet => cases hquiet <;> cases hact
        | _ => cases hact
  | begin => exact hs x hx r hact
  | outside hout => exact hs x (hout.log ▸ hx) r hact

theorem mem_actsOf {r : RequestId} {log : List Entry} {act : Act} :
    act ∈ actsOf r log ↔ ∃ e ∈ log, e.actor = .worker r ∧ e.act = act := by
  simp [actsOf, List.mem_filterMap]

/-- An answer that is not empty came under the number of the request. -/
theorem counted_some {number : UInt32} {a : LinkId × UInt32 × Bytes} {b : LinkId × Bytes}
    (h : counted number a = some b) (hb : b.2 ≠ []) : a = (b.1, number, b.2) := by
  unfold counted at h
  split at h
  · rename_i hmine
    cases h
    rcases hmine with hsame | hclose
    · rw [← hsame]
    · rw [hclose] at hb
      exact absurd rfl hb
  · cases h

/-- The answers of the worker that are not empty are those that the log records. -/
theorem Solo.recorded {ok : State → Event → Prop} {pid : UInt32} {r : RequestId} {s : State}
    {w : Worker} {strides : List Stride} (h : Solo ok r s w strides)
    (hrun : Reach next ok (start pid) s) {b : LinkId × Bytes} :
    b ∈ answers w.number strides ∧ b.2 ≠ [] ↔ Recorded r w.number b.1 b.2 s.log := by
  rw [answers_eq]
  constructor
  · rintro ⟨hb, hne⟩
    obtain ⟨a, ha, hcounted⟩ := List.mem_filterMap.mp hb
    obtain rfl := counted_some hcounted hne
    obtain ⟨x, hx, htaken⟩ := mem_takes.mp ha
    obtain ⟨c, w', -, -, hturn⟩ := h.seen x hx
    have hact : x.act = .take r b.1 (w.number, b.2) := by
      cases hxact : x.act with
      | take q k response =>
          rw [hxact] at htaken hturn
          obtain rfl := turn_ofWorker (turn_cases hturn) rfl
          cases htaken
          rfl
      | _ => simp [hxact, Act.taken] at htaken
    have hmem : x.act ∈ actsOf r s.log := by
      rw [← h.log]
      exact List.mem_map_of_mem hx
    obtain ⟨e, he, -, heact⟩ := mem_actsOf.mp hmem
    exact ⟨e, he, heact.trans hact, hne⟩
  · rintro ⟨e, he, hact, hne⟩
    have hmem : e.act ∈ actsOf r s.log :=
      mem_actsOf.mpr ⟨e, he, own_actor hrun e he r (by rw [hact]; rfl), rfl⟩
    rw [← h.log] at hmem
    obtain ⟨x, hx, hxact⟩ := List.mem_map.mp hmem
    refine ⟨List.mem_filterMap.mpr ⟨(b.1, w.number, b.2), ?_, if_pos (.inl rfl)⟩, hne⟩
    exact mem_takes.mpr ⟨x, hx, by rw [hxact, hact]; rfl⟩

/-! ### The condition -/

/-- The loop of `fan_out` is about to look whether to go on, with links that have
not answered. -/
def Worker.waiting (w : Worker) : Bool :=
  match w.pc with
  | .check => w.pending ≠ [] && !w.done
  | _ => false

/-- Every REQ frame is sent, and no round is left at the deadline while a link
of it is pending. -/
def Reachable (s : State) (e : Event) : Prop :=
  match e with
  | .worker r ok => ∀ w ∈ s.workers[r]?, (w.sending = true → ok = true) ∧
      (w.waiting = true → s.busy = some r → s.now < w.deadline)
  | _ => True

instance (s : State) (e : Event) : Decidable (Reachable s e) :=
  match e with
  | .worker r ok => inferInstanceAs (Decidable (∀ w ∈ s.workers[r]?,
      (w.sending = true → ok = true) ∧ (w.waiting = true → s.busy = some r → s.now < w.deadline)))
  | .hid .. | .tick _ | .packet .. | .uhidClose _ | .ping .. | .stall .. | .connect .. | .close _
  | .remove _ | .receive .. | .readLink _ | .endRead _ | .choose _ => .isTrue trivial

/-- The step is one of a run under the condition. -/
def Met (r : RequestId) (x : Stride) : Prop :=
  (∀ q number data l ok, x.act = .write (.req q number data) l ok → ok = true) ∧
    (x.before.pc = .check → x.before.pending ≠ [] → x.before.done = false →
      x.seen.busy = some r → x.seen.now < x.before.deadline)

/-! ### Nothing is left -/

/-- Where a loop ended with links pending, an answer had ended the request or it
was not current. -/
structure Emptied (r : RequestId) (w : Worker) (strides : List Stride) : Prop where
  done : w.pc.looping = true → w.done = true → ∃ a ∈ takes strides, Ends w.number a.2
  empty : (∃ a ∈ takes strides, Ends w.number a.2) ∨
    (∃ x ∈ strides, x.seen.busy ≠ some r) ∨
    withdrawnFrom strides = [] ∧ (w.pc.ended = true → w.outstanding = [])

theorem ends_snoc {number : UInt32} {strides : List Stride} (x : Stride)
    (h : ∃ a ∈ takes strides, Ends number a.2) : ∃ a ∈ takes (strides ++ [x]), Ends number a.2 := by
  obtain ⟨a, ha, hends⟩ := h
  rw [takes_snoc]
  exact ⟨a, List.mem_append_left _ ha, hends⟩

theorem Emptied.keep {r : RequestId} {w w' : Worker} {strides : List Stride} {x : Stride}
    (h : Emptied r w strides) (hnumber : w'.number = w.number)
    (hlooping : w'.pc.looping = true → w'.done = true → w.pc.looping = true ∧ w.done = true)
    (hwithdrawn : x.act.withdrawnFrom = none)
    (hended : w'.pc.ended = true → w.pc.ended = true ∧ w'.outstanding = w.outstanding) :
    Emptied r w' (strides ++ [x]) := by
  have hmore (hends : ∃ a ∈ takes strides, Ends w.number a.2) :
      ∃ a ∈ takes (strides ++ [x]), Ends w'.number a.2 := by
    rw [hnumber]
    exact ends_snoc x hends
  constructor
  · intro hloop hdone
    obtain ⟨hbefore, hdone⟩ := hlooping hloop hdone
    exact hmore (h.done hbefore hdone)
  · rcases h.empty with hends | ⟨y, hy, hbusy⟩ | ⟨hnone, hleft⟩
    · exact .inl (hmore hends)
    · exact .inr (.inl ⟨y, List.mem_append_left _ hy, hbusy⟩)
    · refine .inr (.inr ⟨?_, ?_⟩)
      · rw [withdrawnFrom_snoc, hnone, hwithdrawn]
        rfl
      · intro hafter
        obtain ⟨hbefore, hsame⟩ := hended hafter
        rw [hsame]
        exact hleft hbefore

theorem Emptied.polled {r : RequestId} {w w' : Worker} {strides : List Stride} {x : Stride}
    {l : LinkId} {rest : List LinkId} {heard : Bool} {response : UInt32 × Bytes}
    (h : Emptied r w strides) (hpc : w.pc = .sweep (l :: rest) heard)
    (hpolled : Polled w l rest response w') (hact : x.act = .take r l response) :
    Emptied r w' (strides ++ [x]) := by
  have hsnoc : takes (strides ++ [x]) = takes strides ++ [(l, response)] := by
    rw [takes_snoc, hact]
    rfl
  have hwithdrawn : x.act.withdrawnFrom = none := by rw [hact]; rfl
  have hnow (hends : Ends w.number response) :
      ∃ a ∈ takes (strides ++ [x]), Ends w.number a.2 := by
    rw [hsnoc]
    exact ⟨_, List.mem_append_right _ (List.mem_singleton_self _), hends⟩
  have hloop : w.pc.looping = true := by rw [hpc]; rfl
  cases hpolled with
  | other => exact h.keep rfl (fun _ hdone => ⟨hloop, hdone⟩) hwithdrawn (by simp [Pc.ended])
  | lost => exact h.keep rfl (fun _ hdone => ⟨hloop, hdone⟩) hwithdrawn (by simp [Pc.ended])
  | win hsuccess => exact ⟨fun _ _ => hnow ⟨rfl, .inl hsuccess⟩, .inl (hnow ⟨rfl, .inl hsuccess⟩)⟩
  | @failure payload =>
      by_cases hdenied : Denied payload
      · exact ⟨fun _ _ => hnow ⟨rfl, .inr hdenied⟩, .inl (hnow ⟨rfl, .inr hdenied⟩)⟩
      · refine h.keep rfl (fun _ hdone => ?_) hwithdrawn (by simp [Pc.ended])
        simp [hdenied] at hdone

theorem Emptied.turn {s : State} {r : RequestId} {ok : Bool} {w w' : Worker} {act : Act}
    {strides : List Stride} (h : Emptied r w strides) (hnext : w.turn s r ok = some (w', act))
    (hmet : Met r ⟨w, s, act⟩) : Emptied r w' (strides ++ [⟨w, s, act⟩]) := by
  have hstop := turn_stop hnext
  cases turn_cases hnext with
  | take hpc => exact h.polled hpc (poll_polled ..) rfl
  | publish hpc =>
      exact h.keep rfl (fun _ hdone => by simp at hdone) rfl (by simp [Pc.ended])
  | stop hpc =>
      have hends (hdone : w.done = true) :
          ∃ a ∈ takes (strides ++ [⟨w, s, .pass⟩]), Ends w.number a.2 :=
        ends_snoc _ (h.done (by rw [hpc]; rfl) hdone)
      have hmem : (⟨w, s, .pass⟩ : Stride) ∈ strides ++ [⟨w, s, .pass⟩] :=
        List.mem_append_right _ (List.mem_singleton_self _)
      refine ⟨fun _ => hends, ?_⟩
      by_cases hdone : w.done = true
      · exact .inl (hends hdone)
      · by_cases hbusy : s.busy = some r
        · have hempty : w.pending = [] := by
            rcases hstop hpc rfl with hdone' | hpending | hlate | hstale
            · exact absurd hdone' hdone
            · exact hpending
            · by_contra hpending
              have htime := hmet.2 hpc hpending (Bool.eq_false_iff.mpr hdone) hbusy
              exact absurd htime (by simpa using hlate)
            · exact absurd hbusy hstale
          rcases h.empty with hended | ⟨y, hy, hstale⟩ | ⟨hnone, -⟩
          · exact .inl (ends_snoc _ hended)
          · exact .inr (.inl ⟨y, List.mem_append_left _ hy, hstale⟩)
          · refine .inr (.inr ⟨?_, fun _ => hempty⟩)
            rw [withdrawnFrom_snoc, hnone]
            rfl
        · exact .inr (.inl ⟨_, hmem, hbusy⟩)
  | @withdraw l rest ok hpc =>
      constructor
      · intro _ hdone
        exact ends_snoc _ (h.done (by rw [hpc]; rfl) hdone)
      · rcases h.empty with hended | ⟨y, hy, hstale⟩ | ⟨-, hleft⟩
        · exact .inl (ends_snoc _ hended)
        · exact .inr (.inl ⟨y, List.mem_append_left _ hy, hstale⟩)
        · have hnone := hleft (by rw [hpc]; rfl)
          rw [Worker.outstanding, hpc] at hnone
          cases hnone
  | judge hpc =>
      have hleft : (w.judge fun l => (s.link l).device).1.pc.looping = false ∧
          (w.judge fun l => (s.link l).device).1.pc.ended = false ∧
          (w.judge fun l => (s.link l).device).2.withdrawnFrom = none := by
        unfold Worker.judge
        repeat' split
        all_goals exact ⟨rfl, rfl, rfl⟩
      obtain ⟨hlooping, hended, hwithdrawn⟩ := hleft
      refine h.keep (judge_request ..).number ?_ hwithdrawn ?_
      · simp [hlooping]
      · simp [hended]
  | @swept heard hpc =>
      refine h.keep rfl ?_ rfl ?_
      · cases heard <;> simp [Pc.looping, hpc]
      · cases heard <;> simp [Pc.ended]
  | _ =>
      refine h.keep rfl ?_ rfl ?_
      · simp [Pc.looping, *]
      · simp [Pc.ended, Worker.outstanding, *]

/-! ### The last round -/

/-- A reply of NO_CREDENTIALS comes when no round is left. -/
def Exhausted (w : Worker) : Prop :=
  ∀ payload, w.pc = .verdict payload → w.rounds = [] ∨ payload.head? ≠ some NO_CREDENTIALS

/-- The rounds name each link once. -/
structure Planned (w : Worker) : Prop where
  devices : w.devices.Nodup
  rounds : w.rounds.flatten.Nodup

theorem finalError_decisive {errors : List Bytes} (h : errors.any isDecisive = true) :
    (finalError errors).head? ≠ some NO_CREDENTIALS := by
  obtain ⟨e, he, hdecisive⟩ := List.any_eq_true.mp h
  cases hfind : errors.find? isDecisive with
  | none =>
      have hnone := List.find?_eq_none.mp hfind e he
      exact absurd hdecisive hnone
  | some first =>
      have hfirst := List.find?_some hfind
      rw [finalError, hfind]
      exact of_decide_eq_true hfirst

theorem exhausted_turn {s : State} {r : RequestId} {w w' : Worker} {act : Act}
    {strides : List Stride} {base : List Bytes} (htallied : Tallied base w strides)
    (hturn : Turn s r w w' act) : Exhausted w' := by
  intro payload hpc'
  cases hturn with
  | roundsOver hpc hrounds => exact .inl hrounds
  | @take l rest heard response =>
      have hfanning := (poll_errors w l rest heard (some response)).2.1
      rw [hpc'] at hfanning
      cases hfanning
  | judge hpc =>
      right
      unfold Worker.judge at hpc'
      split at hpc'
      · rename_i winner answer rest hwins
        cases hpc'
        have hmem : (winner, payload) ∈ w.wins := by
          rw [hwins]
          exact List.mem_cons_self
        rw [htallied.wins] at hmem
        have hsuccess : Success payload := of_decide_eq_true (List.mem_filter.mp hmem).2
        rw [hsuccess]
        decide
      · split at hpc'
        · rename_i hdecisive
          cases hpc'
          apply finalError_decisive
          rw [List.any_append, hdecisive, Bool.or_true]
        · cases hpc'
  | @swept heard => cases heard <;> cases hpc'
  | emptyRound hpc =>
      have hnot : w.pc = .verdict payload := hpc'
      rw [hpc] at hnot
      cases hnot
  | _ => cases hpc'

theorem poll_rounds (w : Worker) (l : LinkId) (rest : List LinkId) (heard : Bool)
    (response : Option (UInt32 × Bytes)) : (w.poll l rest heard response).rounds = w.rounds := by
  unfold Worker.poll
  repeat' split
  all_goals rfl

theorem judge_rounds (w : Worker) (device : LinkId → Text) :
    (w.judge device).1.rounds = w.rounds := by
  unfold Worker.judge
  repeat' split
  all_goals rfl

theorem Planned.turn {s : State} {r : RequestId} {w w' : Worker} {act : Act} (h : Planned w)
    (hturn : Turn s r w w' act) : Planned w' := by
  refine ⟨turn_devices hturn h.devices, ?_⟩
  cases hturn with
  | consult => exact planRounds_nodup h.devices _ _ _
  | emptyRound _ hrounds => simpa [hrounds] using h.rounds
  | enter _ hrounds =>
      have hflatten := h.rounds
      rw [hrounds, List.flatten_cons] at hflatten
      exact (List.nodup_append.mp hflatten).2.1
  | take =>
      rw [poll_rounds]
      exact h.rounds
  | judge =>
      rw [judge_rounds]
      exact h.rounds
  | _ => exact h.rounds

/-! ### One request -/

/-- What holds of a worker whose steps are of a run under the condition. -/
structure Diligent (r : RequestId) (w : Worker) (strides : List Stride) : Prop where
  handling : Handling w strides
  conserved : Conserved w strides
  emptied : Emptied r w strides
  exhausted : Exhausted w
  planned : Planned w

theorem turn_write {s : State} {r q : RequestId} {b ok : Bool} {w w' : Worker} {number : UInt32}
    {data : Bytes} {l : LinkId}
    (h : w.turn s r b = some (w', .write (.req q number data) l ok)) :
    w.sending = true ∧ ok = b := by
  obtain ⟨-, -, -, rest, hpc, -⟩ := turn_req (turn_cases h)
  refine ⟨by rw [Worker.sending, hpc], ?_⟩
  rw [Worker.turn, hpc] at h
  dsimp only at h
  split at h
  · cases h
  · cases h
    rfl

/-- A worker of the run takes its steps under the condition. -/
theorem met_of_reachable {r : RequestId} {x : Stride} {b : Bool} {w' : Worker}
    (hok : Reachable x.seen (.worker r b)) (hw : x.seen.workers[r]? = some x.before)
    (hturn : x.before.turn x.seen r b = some (w', x.act)) : Met r x := by
  obtain ⟨hsend, hwait⟩ := hok x.before hw
  constructor
  · intro q number data l ok hact
    rw [hact] at hturn
    obtain ⟨hsending, rfl⟩ := turn_write hturn
    exact hsend hsending
  · intro hpc hpending hdone hbusy
    apply hwait _ hbusy
    simp [Worker.waiting, hpc, hpending, hdone]

theorem diligent_start (r : RequestId) (channel number : UInt32) (data : Bytes) :
    Diligent r {channel, number, data} [] where
  handling := handling_start channel number data
  conserved := ⟨.refl _, List.nodup_nil, by simp⟩
  emptied := ⟨by simp [Pc.looping], .inr (.inr ⟨rfl, by simp [Pc.ended]⟩)⟩
  exhausted := by simp [Exhausted]
  planned := ⟨List.nodup_nil, List.nodup_nil⟩

theorem Diligent.lock {r : RequestId} {w : Worker} {strides : List Stride} (h : Diligent r w strides)
    (locked : Bool) : Diligent r {w with locked := locked} strides where
  handling := h.handling.lock locked
  conserved := h.conserved.lock locked
  emptied := ⟨h.emptied.done, h.emptied.empty⟩
  exhausted := h.exhausted
  planned := ⟨h.planned.devices, h.planned.rounds⟩

theorem Diligent.turn {s : State} {r : RequestId} {ok : Bool} {w w' : Worker} {act : Act}
    {strides : List Stride} (h : Diligent r w strides) (hturn : w.turn s r ok = some (w', act))
    (hmet : Met r ⟨w, s, act⟩) : Diligent r w' (strides ++ [⟨w, s, act⟩]) := by
  have hcases := turn_cases hturn
  refine ⟨h.handling.turn hcases, h.conserved.turn hcases ?_, h.emptied.turn hturn hmet,
    exhausted_turn h.handling.tallied hcases, h.planned.turn hcases⟩
  intro _ targets htargets
  exact (List.nodup_flatten.mp h.planned.rounds).1 targets htargets

theorem diligent_run {r : RequestId} {channel number : UInt32} {data : Bytes} {w : Worker}
    {strides : List Stride}
    (hrun : Reach (works r) always ({channel, number, data}, []) (w, strides))
    (hmet : ∀ x ∈ strides, Met r x) : Diligent r w strides := by
  refine Reach.invariant (I := fun x => (∀ y ∈ x.2, Met r y) → Diligent r x.1 x.2)
    (fun _ => diligent_start r channel number data) ?_ hrun hmet
  intro x e y hx _ hnext hall
  rcases works_cases hnext with ⟨locked, rfl⟩ | ⟨s, ok, w', act, hturn, rfl⟩
  · exact (hx hall).lock locked
  · have hbefore := hx fun z hz => hall z (List.mem_append_left _ hz)
    exact hbefore.turn hturn (hall _ (List.mem_append_right _ (List.mem_singleton_self _)))

theorem written_eq {r : RequestId} {strides : List Stride} (h : ∀ x ∈ strides, Met r x) :
    written strides = sentTo strides := by
  apply List.filterMap_congr
  intro x hx
  cases hact : x.act with
  | write m l ok =>
      cases m with
      | req q number data =>
          obtain rfl := (h x hx).1 q number data l ok hact
          rfl
      | _ => rfl
  | _ => rfl

theorem not_decisive {e : Bytes} (h : ¬ isDecisive e = true) : e.head? = some NO_CREDENTIALS := by
  by_contra hnot
  exact h (decide_eq_true hnot)

/-- Every answer of a request that ends with NO_CREDENTIALS says so. -/
theorem Diligent.unanimous {r : RequestId} {w : Worker} {strides : List Stride} {payload : Bytes}
    (h : Diligent r w strides) (hpc : w.pc = .verdict payload)
    (hno : payload.head? = some NO_CREDENTIALS) :
    ∀ b ∈ answers w.number strides, b.2.head? = some NO_CREDENTIALS := by
  have htallied := h.handling.tallied
  have houtcome := htallied.verdict payload hpc
  have hwins : w.wins = [] := by
    cases hwins : w.wins with
    | nil => rfl
    | cons win rest =>
        have hmem : win ∈ w.wins := by
          rw [hwins]
          exact List.mem_cons_self
        rw [htallied.wins] at hmem
        have hsuccess : Success win.2 := of_decide_eq_true (List.mem_filter.mp hmem).2
        rw [Worker.outcome, hwins] at houtcome
        rw [houtcome, hsuccess] at hno
        exact absurd hno (by decide)
  have hcomplaints : w.complaints = w.errors := if_neg (by rw [hpc]; simp [Pc.fanning])
  have herrors := htallied.failures (.inr hwins)
  rw [hcomplaints, List.nil_append] at herrors
  rw [Worker.outcome, hwins] at houtcome
  have hnone : ¬ w.errors.any isDecisive = true := by
    intro hdecisive
    rw [houtcome] at hno
    exact finalError_decisive hdecisive hno
  intro b hb
  have hfailure : ¬ Success b.2 := by
    intro hsuccess
    have hmem : b ∈ w.wins := by
      rw [htallied.wins]
      exact List.mem_filter.mpr ⟨hb, decide_eq_true hsuccess⟩
    rw [hwins] at hmem
    cases hmem
  have hmem : complaint b.2 ∈ w.errors := by
    rw [herrors]
    exact List.mem_map_of_mem (List.mem_filter.mpr ⟨hb, decide_eq_true hfailure⟩)
  have hhead : (complaint b.2).head? = some NO_CREDENTIALS :=
    not_decisive fun hdecisive => hnone (List.any_eq_true.mpr ⟨_, hmem, hdecisive⟩)
  unfold complaint at hhead
  split at hhead
  · exact absurd hhead (by decide)
  · exact hhead

/-- A current request ends so only when all that were asked answered so. -/
theorem Diligent.complete {r : RequestId} {w : Worker} {strides : List Stride} {payload : Bytes}
    (h : Diligent r w strides) (hmet : ∀ x ∈ strides, Met r x)
    (hcurrent : ∀ x ∈ strides, x.seen.busy = some r) (hpc : w.pc = .verdict payload)
    (hno : payload.head? = some NO_CREDENTIALS) : w.rounds = [] ∧
      ∀ l ∈ written strides, ∃ b ∈ answers w.number strides, b.1 = l ∧
        b.2.head? = some NO_CREDENTIALS := by
  have hall := h.unanimous hpc hno
  constructor
  · rcases h.exhausted payload hpc with hrounds | hother
    · exact hrounds
    · exact absurd hno hother
  · have hwithdrawn : withdrawnFrom strides = [] := by
      rcases h.emptied.empty with ⟨a, ha, hends⟩ | ⟨x, hx, hstale⟩ | ⟨hnone, -⟩
      · have hcounted : counted w.number a = some (a.1, a.2.2) := if_pos (.inl hends.1)
        have hmem : (a.1, a.2.2) ∈ answers w.number strides := by
          rw [answers_eq]
          exact List.mem_filterMap.mpr ⟨a, ha, hcounted⟩
        have hhead := hall _ hmem
        rcases hends.2 with hsuccess | hdenied
        · rw [hsuccess] at hhead
          exact absurd hhead (by decide)
        · rw [hdenied] at hhead
          exact absurd hhead (by decide)
      · exact absurd (hcurrent x hx) hstale
      · exact hnone
    have haccounted := h.conserved.accounted
    rw [Worker.outstanding, hpc, hwithdrawn, ← written_eq hmet] at haccounted
    intro l hl
    have hmem := haccounted.subset hl
    simp only [List.nil_append, List.append_nil] at hmem
    obtain ⟨b, hb, rfl⟩ := List.mem_map.mp hmem
    exact ⟨b, hb, rfl, hall b hb⟩

/-! ### Every run -/

/-- A reply of NO_CREDENTIALS for a request is about to be given only if every
link that its rounds name was asked and answered NO_CREDENTIALS. -/
def NobodyHas (s : State) : Prop :=
  ∀ (r : RequestId) (w : Worker) (payload : Bytes), s.workers[r]? = some w →
    w.pc = .verdict payload → s.busy = some r → payload.head? = some NO_CREDENTIALS →
      ∀ l, AskedOn l r s.log ∨ l ∈ w.targets →
        ∃ answer, Recorded r w.number l answer s.log ∧ answer.head? = some NO_CREDENTIALS

/-- In every run in which every REQ frame is sent and no round is left at its
deadline, nobody has a credential only if everybody said so. -/
theorem nobody_has {pid : UInt32} {s : State} (h : Reach next Reachable (start pid) s) :
    NobodyHas s := by
  intro r w payload hw hpc hbusy hno l hl
  obtain ⟨strides, hsolo⟩ := solo_reachable h r w hw
  obtain ⟨channel, number, data, hrun⟩ := hsolo.run
  have hmet : ∀ x ∈ strides, Met r x := by
    intro x hx
    obtain ⟨b, w', hok, hbefore, hturn⟩ := hsolo.seen x hx
    exact met_of_reachable hok hbefore hturn
  have hcurrent : ∀ x ∈ strides, x.seen.busy = some r := by
    intro x hx
    by_contra hstale
    exact hsolo.busy x hx hstale hbusy
  obtain ⟨hrounds, hall⟩ := (diligent_run hrun hmet).complete hmet hcurrent hpc hno
  have hwritten : l ∈ written strides := by
    rcases hl with hasked | htarget
    · obtain ⟨ask, hask, rfl⟩ := List.mem_map.mp hasked
      obtain ⟨e, he, b, hact⟩ := mem_asks hask
      have hmem : e.act ∈ actsOf ask.r s.log :=
        mem_actsOf.mpr ⟨e, he, own_actor h e he _ (by rw [hact]; rfl), rfl⟩
      rw [← hsolo.log] at hmem
      obtain ⟨x, hx, hxact⟩ := List.mem_map.mp hmem
      refine List.mem_filterMap.mpr ⟨x, hx, ?_⟩
      rw [hxact, hact]
      rfl
    · rw [Worker.targets, hpc, hrounds] at htarget
      cases htarget
  obtain ⟨b, hb, rfl, hhead⟩ := hall l hwritten
  refine ⟨b.2, (hsolo.recorded h).mp ⟨hb, ?_⟩, hhead⟩
  intro hnil
  rw [hnil] at hhead
  cases hhead

/-- Two phones, and a GET_ASSERTION that is about to be sent to both. -/
def askBothEvents : List Event :=
  List.flatten [[.connect "a".toList 0, .connect "b".toList 0,
      .packet 0 [0, 0, 0, 1, CBOR, 0, 2, GET_ASSERTION, 0xa0]],
    List.replicate 6 (.hid 0 true), List.replicate 4 (.worker 0 true)]

/-- Both say that they have no credential. -/
theorem both_said_so : ∃ s, Reach next Reachable (start 1) s ∧ NobodyHas s ∧
    ∃ w, s.workers[0]? = some w ∧ w.pc = .verdict [NO_CREDENTIALS] := by
  obtain ⟨s, w, hrun, hw, hpc⟩ : ∃ s w, replay next Reachable (start 1) (List.flatten
      [askBothEvents, List.replicate 4 (.worker 0 true),
        [.receive 0 (frame [RESP, 0, 0, 0, 1, NO_CREDENTIALS]), .readLink 0,
          .receive 1 (frame [RESP, 0, 0, 0, 1, NO_CREDENTIALS]), .readLink 1],
        List.replicate 8 (.worker 0 true)]) = some s ∧
        s.workers[0]? = some w ∧ w.pc = .verdict [NO_CREDENTIALS] :=
    ⟨_, _, rfl, rfl, rfl⟩
  have hreach := reach_of_replay hrun
  exact ⟨s, hreach, nobody_has hreach, w, hw, hpc⟩

/-- The REQ frame does not get to the second phone, and nobody hears of it. -/
theorem unreached_not_counted : ∃ s, Reach next always (start 1) s ∧ ¬ NobodyHas s := by
  obtain ⟨s, w, hrun, hw, hpc, hbusy, hasked, htaken⟩ : ∃ s w, replay next always (start 1)
      (List.flatten [askBothEvents, [.worker 0 false], List.replicate 3 (.worker 0 true),
        [.receive 0 (frame [RESP, 0, 0, 0, 1, NO_CREDENTIALS]), .readLink 0],
        List.replicate 7 (.worker 0 true)]) = some s ∧
        s.workers[0]? = some w ∧ w.pc = .verdict [NO_CREDENTIALS] ∧ s.busy = some 0 ∧
        (asks 1 s.log).map Ask.r = [0] ∧
        (s.log.filterMap fun e => e.act.taken).map Prod.fst = [0] :=
    ⟨_, _, rfl, rfl, rfl, rfl, rfl, rfl⟩
  refine ⟨s, reach_of_replay hrun, ?_⟩
  intro hlaw
  have hone : AskedOn 1 0 s.log := by
    rw [AskedOn, hasked]
    exact List.mem_singleton_self 0
  obtain ⟨answer, ⟨e, he, hact, -⟩, -⟩ := hlaw 0 w _ hw hpc hbusy rfl 1 (.inl hone)
  have hmem : (1 : LinkId) ∈ (s.log.filterMap fun e => e.act.taken).map Prod.fst :=
    List.mem_map.mpr ⟨(1, w.number, answer), List.mem_filterMap.mpr ⟨e, he, by rw [hact]; rfl⟩, rfl⟩
  rw [htaken] at hmem
  simp at hmem

end Passkey.Daemon

import Passkey.Daemon.Replies

/-!
Two workers at the channel of one link. A worker looks at the busy slot once
per sweep, so the worker of an abandoned request can take a response that came
for the next request, and drop it. It does so only where the response comes
while that worker still has the link ahead of it in its last sweep.
-/

namespace Passkey.Daemon

open Library

/-- The links of this sweep that the worker has still to poll. -/
def Worker.ahead (w : Worker) : List LinkId :=
  match w.pc with
  | .sweep rest _ => rest
  | _ => []

/-- The link is pending in the worker's `fan_out`. -/
def Worker.awaits (w : Worker) (l : LinkId) : Bool :=
  match w.pc with
  | .send _ | .publish | .check | .sweep .. | .beat => l ∈ w.pending
  | _ => false

/-- What an entry takes from the link, and the request whose worker takes it. -/
def Entry.takeFrom (l : LinkId) (e : Entry) : Option (RequestId × (UInt32 × Bytes)) :=
  match e.act with
  | .take r k response => if k = l then some (r, response) else none
  | _ => none

/-- The responses that were taken from the link, in order. -/
def takesFrom (l : LinkId) (log : List Entry) : List (RequestId × (UInt32 × Bytes)) :=
  log.filterMap (Entry.takeFrom l)

/-- How many responses the channel of the link has carried. -/
def State.position (s : State) (l : LinkId) : Nat :=
  (takesFrom l s.log).length + (s.link l).responses.length

/-- `read_link` or `close` queues a response for a request, or the close marker,
on a link that is pending for the request. -/
structure Queued (s : State) (e : Event) (t : State) (n : RequestId) (l : LinkId)
    (response : UInt32 × Bytes) : Prop where
  event : e = .readLink l ∨ e = .close l
  step : next s e = some t
  queue : (t.link l).responses = (s.link l).responses ++ [response]
  pending : ∃ w, s.workers[n]? = some w ∧ w.awaits l = true ∧ Concerns w.number response

/-- Whoever takes what this step queues takes it whole, and is not the worker
of an older request: it is the worker of the request itself, unless that one
left it behind and a newer request was accepted. -/
def ReachesRequest (s t : State) (n : RequestId) (l : LinkId) (response : UInt32 × Bytes) : Prop :=
  ∀ u m x, Reach next always t u → (takesFrom l u.log)[s.position l]? = some (m, x) →
    x = response ∧ n ≤ m ∧ (u.workers.length = n + 1 → m = n)

/-- No worker of an older request has the link ahead of it. -/
def Passed (n : RequestId) (l : LinkId) (s : State) : Prop :=
  n < s.workers.length ∧
    ∀ (m : RequestId) (w : Worker), m < n → s.workers[m]? = some w → l ∉ w.ahead

theorem poll_ahead {w : Worker} {l k : LinkId} {rest : List LinkId} {heard : Bool}
    {response : Option (UInt32 × Bytes)} (hk : k ∈ (w.poll l rest heard response).ahead) :
    k ∈ rest := by
  unfold Worker.poll at hk
  repeat' split at hk
  all_goals
    simp only [Worker.ahead] at hk
    first | exact hk | cases hk

theorem judge_ahead (w : Worker) (device : LinkId → Text) : (w.judge device).1.ahead = [] := by
  unfold Worker.judge
  repeat' split
  all_goals rfl

/-- Only the busy request begins a sweep. -/
theorem turn_ahead {s : State} {r : RequestId} {w w' : Worker} {act : Act} {l : LinkId}
    (h : Turn s r w w' act) (hl : l ∈ w'.ahead) : l ∈ w.ahead ∨ s.busy = some r := by
  cases h with
  | goOn hpc hpending hdone htime hbusy => exact .inr hbusy
  | @take k rest heard response queue hpc hqueue =>
      refine .inl ?_
      simp only [Worker.ahead, hpc]
      exact List.mem_cons_of_mem k (poll_ahead hl)
  | @silence k rest heard hpc =>
      refine .inl ?_
      simp only [Worker.ahead, hpc]
      exact List.mem_cons_of_mem k hl
  | @swept heard => cases heard <;> cases hl
  | judge => simp [judge_ahead] at hl
  | emptyRound hpc => simp [Worker.ahead, hpc] at hl
  | _ => cases hl

/-- An older request never is busy again, so its worker begins no sweep. -/
theorem Passed.step {s t : State} {e : Event} {n : RequestId} {l : LinkId} (hinv : Inv s)
    (h : Passed n l s) (hstep : Step s e t) : Passed n l t := by
  obtain ⟨hn, hold⟩ := h
  refine ⟨Nat.lt_of_lt_of_le hn hstep.slot.length_le, fun m w' hm hw' hl => ?_⟩
  cases hstep.moved hw' with
  | @own ok w act he hw hturn ht =>
      rcases turn_ahead hturn hl with hbefore | hbusy
      · exact hold m w hm hw hbefore
      · have hnewest := hinv.newest m hbusy
        rw [← hnewest] at hn
        exact absurd (Nat.lt_succ_iff.mp hn) (Nat.not_le.mpr hm)
  | @other w locked hw hsame =>
      subst hsame
      exact hold m w hm hw hl
  | spawned hm' => exact Nat.lt_asymm hm (hm' ▸ hn)

theorem takesFrom_append (l : LinkId) (log more : List Entry) :
    takesFrom l (log ++ more) = takesFrom l log ++ takesFrom l more :=
  List.filterMap_append

theorem takesFrom_away {l : LinkId} {log : List Entry} {x : Entry} (h : x.act.AwayFrom l) :
    takesFrom l (log ++ [x]) = takesFrom l log := by
  obtain ⟨time, actor, act⟩ := x
  rw [takesFrom_append]
  cases act with
  | take r k response =>
      have hk : k ≠ l := h
      simp [takesFrom, Entry.takeFrom, hk]
  | _ => simp [takesFrom, Entry.takeFrom]

/-! ### The channel of a link is first in, first out -/

/-- All that the channel of the link has carried. -/
def State.stream (s : State) (l : LinkId) : List (UInt32 × Bytes) :=
  (takesFrom l s.log).map (·.2) ++ (s.link l).responses

theorem write_responses (k : Link) (body : Bytes) (ok : Bool) :
    (k.write body ok).responses = k.responses :=
  rfl

theorem close_responses (k : Link) : ∃ more, k.close.responses = k.responses ++ more := by
  unfold Link.close
  split
  · exact ⟨[], (List.append_nil _).symm⟩
  · exact ⟨[], (List.append_nil _).symm⟩
  · exact ⟨_, rfl⟩
  · exact ⟨[], (List.append_nil _).symm⟩

theorem hear_responses (k : Link) (body : Bytes) :
    ∃ more, (k.hear body).responses = k.responses ++ more := by
  unfold Link.hear
  split
  · exact ⟨_, rfl⟩
  · exact ⟨[], (List.append_nil _).symm⟩

theorem readLink_responses {k k' : Link} (h : k.readLink = some k') :
    ∃ more, k'.responses = k.responses ++ more := by
  unfold Link.readLink at h
  split at h
  · split at h
    · cases h
    · cases h
      exact ⟨[], (List.append_nil _).symm⟩
    · cases h
      exact hear_responses {k with received := _} _
  · cases h

/-- A step only adds to what the channel has carried. -/
theorem LinkStep.stream {s t : State} {e : Event} {l : LinkId} (h : LinkStep s e t l) :
    ∃ more, t.stream l = s.stream l ++ more := by
  have hgrow {more : List (UInt32 × Bytes)} (hlog : t.log = s.log)
      (hlink : (t.link l).responses = (s.link l).responses ++ more) :
      ∃ more, t.stream l = s.stream l ++ more :=
    ⟨more, by simp [State.stream, hlog, hlink]⟩
  cases h with
  | away hlink hlog =>
      refine ⟨[], ?_⟩
      rcases hlog with hsame | ⟨x, hnew, haway⟩
      · simp [State.stream, hsame, hlink]
      · simp [State.stream, hnew, hlink, takesFrom_away haway]
  | write hlink hlog =>
      refine ⟨[], ?_⟩
      simp [State.stream, hlog, hlink, write_responses, takesFrom, Entry.takeFrom]
  | take he hw hpc hqueue hlink hlog =>
      refine ⟨[], ?_⟩
      simp [State.stream, hlog, hlink, hqueue, takesFrom, Entry.takeFrom]
  | ping he hlink hlog =>
      exact hgrow hlog (by rw [hlink, write_responses, List.append_nil])
  | stall he hlink hlog => exact hgrow hlog (by rw [hlink, List.append_nil])
  | connect he hlink hlog => exact hgrow hlog (by rw [hlink, List.append_nil])
  | close he hlink hlog =>
      obtain ⟨more, hmore⟩ := close_responses (s.link l)
      exact hgrow hlog (hlink ▸ hmore)
  | receive he hlink hlog => exact hgrow hlog (by rw [hlink, List.append_nil])
  | readLink he hlink hlog =>
      obtain ⟨more, hmore⟩ := readLink_responses hlink
      exact hgrow hlog hmore
  | endRead he hlink hlog => exact hgrow hlog (by rw [hlink, List.append_nil])

theorem stream_run {s t : State} (l : LinkId) (h : Reach next always s t) :
    ∃ more, t.stream l = s.stream l ++ more := by
  induction h with
  | refl => exact ⟨[], (List.append_nil _).symm⟩
  | tail _ _ hnext ih =>
      obtain ⟨more, hmore⟩ := ih
      obtain ⟨more', hmore'⟩ := (next_link hnext l).stream
      exact ⟨more ++ more', by rw [hmore', hmore, List.append_assoc]⟩

/-! ### Who takes -/

/-- A step takes from the link only by a worker that has it ahead. -/
theorem LinkStep.takes {s t : State} {e : Event} {l : LinkId} (h : LinkStep s e t l) :
    takesFrom l t.log = takesFrom l s.log ∨
      ∃ (m : RequestId) (w : Worker) (response : UInt32 × Bytes),
        takesFrom l t.log = takesFrom l s.log ++ [(m, response)] ∧
          s.workers[m]? = some w ∧ l ∈ w.ahead := by
  cases h with
  | away hlink hlog =>
      rcases hlog with hsame | ⟨x, hnew, haway⟩
      · exact .inl (by rw [hsame])
      · exact .inl (by rw [hnew, takesFrom_away haway])
  | write hlink hlog =>
      exact .inl (by rw [hlog]; simp [takesFrom, Entry.takeFrom])
  | @take r ok w rest heard response queue he hw hpc hqueue hlink hlog =>
      refine .inr ⟨r, w, response, ?_, hw, by simp [Worker.ahead, hpc]⟩
      simp [hlog, takesFrom, Entry.takeFrom]
  | ping he hlink hlog => exact .inl (by rw [hlog])
  | stall he hlink hlog => exact .inl (by rw [hlog])
  | connect he hlink hlog => exact .inl (by rw [hlog])
  | close he hlink hlog => exact .inl (by rw [hlog])
  | receive he hlink hlog => exact .inl (by rw [hlog])
  | readLink he hlink hlog => exact .inl (by rw [hlog])
  | endRead he hlink hlog => exact .inl (by rw [hlog])

/-- From a state where older workers have passed the link, it is taken from by
this request and newer ones only. -/
theorem takes_run {s t : State} {n : RequestId} {l : LinkId} (hinv : Inv s)
    (hpassed : Passed n l s) (h : Reach next always s t) :
    ∃ more, takesFrom l t.log = takesFrom l s.log ++ more ∧
      ∀ take ∈ more, n ≤ take.1 ∧ take.1 < t.workers.length := by
  have hrun : (Inv t ∧ Passed n l t) ∧ ∃ more, takesFrom l t.log = takesFrom l s.log ++ more ∧
      ∀ take ∈ more, n ≤ take.1 ∧ take.1 < t.workers.length := by
    induction h with
    | refl => exact ⟨⟨hinv, hpassed⟩, [], by simp⟩
    | @tail t u e hrun _ hnext ih =>
        obtain ⟨⟨hinvt, hpassedt⟩, more, hmore, hnewer⟩ := ih
        have hstep := step_cases hnext
        have hle := hstep.slot.length_le
        refine ⟨⟨hinvt.step hnext, hpassedt.step hinvt hstep⟩, ?_⟩
        have hold : ∀ take ∈ more, n ≤ take.1 ∧ take.1 < u.workers.length :=
          fun take htake => ⟨(hnewer take htake).1, Nat.lt_of_lt_of_le (hnewer take htake).2 hle⟩
        rcases (next_link hnext l).takes with hsame | ⟨m, w, response, hnew, hw, hahead⟩
        · exact ⟨more, hsame.trans hmore, hold⟩
        · refine ⟨more ++ [(m, response)], by rw [hnew, hmore, List.append_assoc], ?_⟩
          intro take htake
          rcases List.mem_append.mp htake with hbefore | hlast
          · exact hold take hbefore
          · obtain rfl := List.mem_singleton.mp hlast
            have hlt : m < t.workers.length := (List.getElem?_eq_some_iff.mp hw).1
            refine ⟨?_, Nat.lt_of_lt_of_le hlt hle⟩
            by_contra hnot
            exact hpassedt.2 m w (Nat.lt_of_not_le hnot) hw hahead
  exact hrun.2

/-! ### The law -/

/-- The step that queues a response takes nothing. -/
theorem Queued.takes {s t : State} {e : Event} {n : RequestId} {l : LinkId}
    {response : UInt32 × Bytes} (h : Queued s e t n l response) :
    takesFrom l t.log = takesFrom l s.log := by
  rcases (next_link h.step l).takes with hsame | ⟨m, w, x, hnew, hw, hahead⟩
  · exact hsame
  · have hlog : t.log = s.log := by
      cases step_cases h.step with
      | worker => rcases h.event with heq | heq <;> cases heq
      | hid => rcases h.event with heq | heq <;> cases heq
      | begin => rfl
      | outside hout => exact hout.log
    rw [hlog] at hnew ⊢

/-- A response that is queued on a link pending for a request, while no worker
of an older request has the link ahead of it in a sweep, reaches the request. -/
theorem reaches_request {pid : UInt32} {s t : State} {e : Event} {n : RequestId} {l : LinkId}
    {response : UInt32 × Bytes} (hs : Reach next always (start pid) s)
    (hqueued : Queued s e t n l response)
    (hold : ∀ (m : RequestId) (w : Worker), m < n → s.workers[m]? = some w → l ∉ w.ahead) :
    ReachesRequest s t n l response := by
  intro u m x hu htake
  have hinv := inv_reachable hs
  have hstep := step_cases hqueued.step
  obtain ⟨w, hw, -⟩ := hqueued.pending
  have hn : n < s.workers.length := (List.getElem?_eq_some_iff.mp hw).1
  have hpassed : Passed n l t := Passed.step hinv ⟨hn, hold⟩ hstep
  have hlength : (takesFrom l t.log).length ≤ s.position l := by
    rw [hqueued.takes]
    exact Nat.le_add_right ..
  obtain ⟨more, hmore, hnewer⟩ := takes_run (hinv.step hqueued.step) hpassed hu
  have hmem : (m, x) ∈ more := by
    rw [hmore, List.getElem?_append_right hlength] at htake
    exact List.mem_of_getElem? htake
  refine ⟨?_, (hnewer _ hmem).1, fun hlast => ?_⟩
  · -- The channel is first in, first out: this is the response at the position.
    obtain ⟨later, hlater⟩ := stream_run l hu
    have hposition : (u.stream l)[s.position l]? = some response := by
      have hstream : t.stream l = s.stream l ++ [response] := by
        simp [State.stream, hqueued.takes, hqueued.queue]
      have hplace : s.position l = (s.stream l).length := by
        simp [State.position, State.stream]
      simp [hlater, hstream, hplace]
    have htaken : (u.stream l)[s.position l]? = some x := by
      rw [State.stream, List.getElem?_append_left, List.getElem?_map, htake]
      · rfl
      · rw [List.length_map]
        exact (List.getElem?_eq_some_iff.mp htake).1
    exact Option.some.inj (htaken.symm.trans hposition)
  · have hlt := (hnewer _ hmem).2
    rw [hlast] at hlt
    exact Nat.le_antisymm (Nat.lt_succ_iff.mp hlt) (hnewer _ hmem).1

/-- A request is asked of the one phone and abandoned while its worker polls;
the next request is asked. -/
def overlapEvents : List Event :=
  List.flatten [[.connect "a".toList 0, .packet 0 [0, 0, 0, 1, CBOR, 0, 1, 1]],
    List.replicate 6 (.hid 0 true), List.replicate 7 (.worker 0 true),
    [.packet 0 [0, 0, 0, 1, INIT, 0, 8, 1, 2, 3, 4, 5, 6, 7, 8]], List.replicate 9 (.hid 0 true),
    [.packet 0 [0, 0, 0, 1, CBOR, 0, 1, 1]], List.replicate 6 (.hid 0 true),
    List.replicate 4 (.worker 1 true), [.receive 0 (frame [RESP, 0, 0, 0, 2, 0])]]

/-- What these runs show: the queue before and after the response is read, what
the newer worker waits for, what the older one has ahead, and who takes it. -/
def overlapFacts (s t u : State) : List (UInt32 × Bytes) × List (UInt32 × Bytes) ×
    Option (Bool × UInt32) × Option (List LinkId) × Option (RequestId × (UInt32 × Bytes)) :=
  ((s.link 0).responses, (t.link 0).responses,
    s.workers[1]?.map fun w => (w.awaits 0, w.number),
    s.workers[0]?.map (·.ahead), (takesFrom 0 u.log)[s.position 0]?)

theorem overlap_queued {s t u : State} {ahead : Option (List LinkId)}
    {take : Option (RequestId × (UInt32 × Bytes))} (hstep : next s (.readLink 0) = some t)
    (h : overlapFacts s t u = ([], [(2, [0])], some (true, 2), ahead, take)) :
    Queued s (.readLink 0) t 1 0 (2, [0]) ∧ s.workers[0]?.map (·.ahead) = ahead ∧
      (takesFrom 0 u.log)[s.position 0]? = take := by
  simp only [overlapFacts, Prod.mk.injEq] at h
  obtain ⟨hbefore, hafter, hpending, hahead, htake⟩ := h
  obtain ⟨w, hw, hwaits⟩ := Option.map_eq_some_iff.mp hpending
  obtain ⟨hawaits, hnumber⟩ := Prod.mk.inj hwaits
  exact ⟨⟨.inl rfl, hstep, by rw [hbefore, hafter]; rfl, w, hw, hawaits, .inl hnumber.symm⟩,
    hahead, htake⟩

/-- The older worker ends its sweep before the response comes, and the newer
one takes it. -/
theorem overlap_reaches : ∃ s t u, Reach next always (start 1) s ∧
    Queued s (.readLink 0) t 1 0 (2, [0]) ∧ Reach next always t u ∧
    (takesFrom 0 u.log)[s.position 0]? = some (1, (2, [0])) ∧
    ReachesRequest s t 1 0 (2, [0]) := by
  have hruns : ((replay next always (start 1) (overlapEvents ++ [.worker 0 true])).bind fun s =>
      (next s (.readLink 0)).bind fun t =>
        (replay next always t (List.replicate 4 (.worker 1 true))).map (overlapFacts s t)) =
          some ([], [(2, [0])], some (true, 2), some [], some (1, (2, [0]))) := rfl
  obtain ⟨s, hrun, hrest⟩ := Option.bind_eq_some_iff.mp hruns
  obtain ⟨t, hstep, hrest⟩ := Option.bind_eq_some_iff.mp hrest
  obtain ⟨u, hlater, hfacts⟩ := Option.map_eq_some_iff.mp hrest
  obtain ⟨hqueued, hahead, htake⟩ := overlap_queued hstep hfacts
  have hreach := reach_of_replay hrun
  refine ⟨s, t, u, hreach, hqueued, reach_of_replay hlater, htake,
    reaches_request hreach hqueued fun m v hm hv => ?_⟩
  obtain rfl : m = 0 := Nat.lt_one_iff.mp hm
  rw [hv] at hahead
  have hnone : v.ahead = [] := Option.some.inj hahead
  rw [hnone]
  exact List.not_mem_nil

/-! ### A response that comes during the last sweep is dropped -/

theorem response_dropped : ∃ s t, Reach next always (start 1) s ∧
    Queued s (.readLink 0) t 1 0 (2, [0]) ∧ ¬ ReachesRequest s t 1 0 (2, [0]) := by
  have hruns : ((replay next always (start 1) overlapEvents).bind fun s =>
      (next s (.readLink 0)).bind fun t => (next t (.worker 0 true)).map (overlapFacts s t)) =
        some ([], [(2, [0])], some (true, 2), some [0], some (0, (2, [0]))) := rfl
  obtain ⟨s, hrun, hrest⟩ := Option.bind_eq_some_iff.mp hruns
  obtain ⟨t, hstep, hrest⟩ := Option.bind_eq_some_iff.mp hrest
  obtain ⟨u, hlater, hfacts⟩ := Option.map_eq_some_iff.mp hrest
  obtain ⟨hqueued, -, htake⟩ := overlap_queued hstep hfacts
  refine ⟨s, t, reach_of_replay hrun, hqueued, fun hlaw => ?_⟩
  have holder := (hlaw u 0 (2, [0]) (.tail .refl trivial hlater) htake).2.1
  exact Nat.not_succ_le_zero 0 holder

end Passkey.Daemon

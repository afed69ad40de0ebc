import Passkey.Daemon.Deliveries
import Passkey.Daemon.Targets
import Passkey.Network.Answers
import Passkey.Phone.Openers

/-!
The assertions that follow a sign-in. A phone keeps one chain for each
connection, and all channels share the connection of a device; the daemon
remembers the device that answered last, whatever channel it answered. So a
GET_NEXT_ASSERTION goes on with the last sign-in of its own channel in the runs
where this is also the last sign-in of the connection.
-/

namespace Passkey.Network

open Library

open Daemon (LinkId RequestId asks numberBytes)

open Phone (Owner)

open Phone.KeyService (Task handledOn lastSignIn Continued)

/-- The request that has this number. -/
def requestOf (s : Daemon.State) (seqNo : Bytes) : Option RequestId :=
  s.workers.findIdx? fun w => numberBytes w.number = seqNo

/-- The link whose success came first for the request. -/
def winner (s : Daemon.State) (r : RequestId) : Option LinkId :=
  (s.workers[r]?.bind fun w => w.wins.head?).map Prod.fst

/-- Where `handle` is to serve a getNextAssertion from the chain that is
pending, the last sign-in that the connection handled is the last that was
delivered on the channel of the request, and its success came from there. -/
def OwnChain (n : Setup) (s : State) (p : PhoneId) (c : Owner) (env : Phone.Env) : Prop :=
  ∀ task ∈ ((s.phone p).conn c).worker.task, task.req.head? = some 0x08 →
    ((s.phone p).session.authenticator.enter env 0x08 c).pending ≠ [] →
    ∀ l ∈ n.near p c, ∀ r ∈ requestOf s.daemon task.seqNo,
      ∀ opener ∈ lastSignIn c (s.phone p).log,
        s.daemon.lastSignIn r = requestOf s.daemon opener.1.seqNo ∧
          (s.daemon.lastSignIn r).bind (winner s.daemon) = some l

/-- The connection whose call of `handle` returns. -/
def Event.finishing : Event → Option (PhoneId × Owner × Phone.Env)
  | .phone p (.finish c env) => some (p, c, env)
  | _ => none

/-- Fewer than 2^32 requests come, no frame on a link is taken for a part of
another, and `OwnChain` holds at each getNextAssertion. -/
def Unshared (n : Setup) (s : State) (e : Event) : Prop :=
  Daemon.taken s.daemon.log + 1 < 2 ^ 32 ∧ Unmixed s e ∧
    ∀ x ∈ e.finishing, OwnChain n s x.1 x.2.1 x.2.2

instance (n : Setup) (s : State) (p : PhoneId) (c : Owner) (env : Phone.Env) :
    Decidable (OwnChain n s p c env) :=
  inferInstanceAs (Decidable (∀ task ∈ ((s.phone p).conn c).worker.task,
    task.req.head? = some 0x08 →
      ((s.phone p).session.authenticator.enter env 0x08 c).pending ≠ [] →
      ∀ l ∈ n.near p c, ∀ r ∈ requestOf s.daemon task.seqNo,
        ∀ opener ∈ lastSignIn c (s.phone p).log,
          s.daemon.lastSignIn r = requestOf s.daemon opener.1.seqNo ∧
            (s.daemon.lastSignIn r).bind (winner s.daemon) = some l))

instance (n : Setup) (s : State) (e : Event) : Decidable (Unshared n s e) :=
  inferInstanceAs (Decidable (Daemon.taken s.daemon.log + 1 < 2 ^ 32 ∧ Unmixed s e ∧
    ∀ x ∈ e.finishing, OwnChain n s x.1 x.2.1 x.2.2))

/-- The frames of such a run are as they were written. -/
theorem Unshared.unmixed {n : Setup} {s : State} {e : Event} (h : Unshared n s e) :
    Unmixed s e :=
  h.2.1

/-- The payload answers the request `w` with the next assertion of the sign-in
`v`, of which the success that was delivered came from the same connection: the
first of the credentials that this call found and that no call took yet, for
the RP and the client data hash of its parameters. -/
def GoesOn (n : Setup) (s : State) (v w : Daemon.Worker) (payload : Bytes) : Prop :=
  ∃ l success opener task, v.wins.head? = some (l, success) ∧
    opener.seqNo = numberBytes v.number ∧ opener.req = v.data ∧
    task.seqNo = numberBytes w.number ∧ task.req = w.data ∧
    Continued n.sha (n.store (n.far l).1) (n.keys (n.far l).1) (s.phone (n.far l).1) (n.far l).2
      opener success task payload

/-- Whenever a GET_NEXT_ASSERTION was answered with a success, this was the next
assertion of the last GET_ASSERTION that was delivered on its channel. -/
def ChannelsApart (n : Setup) (s : State) : Prop :=
  ∀ (r : RequestId) (w : Daemon.Worker) (payload : Bytes), s.daemon.workers[r]? = some w →
    w.data.head? = some Daemon.GET_NEXT_ASSERTION → s.daemon.delivered r = some payload →
    ∃ g v, s.daemon.lastSignIn r = some g ∧ s.daemon.workers[g]? = some v ∧
      v.channel = w.channel ∧ GoesOn n s v w payload

variable {n : Setup} {s t : State} {l : LinkId}

/-! ### Requests and tasks -/

theorem requestOf_eq {pid : UInt32} {s : Daemon.State}
    (h : Reach Daemon.next always (Daemon.start pid) s) (hfew : Daemon.taken s.log < 2 ^ 32)
    {r : RequestId} {w : Daemon.Worker} (hw : s.workers[r]? = some w) :
    requestOf s (numberBytes w.number) = some r := by
  obtain ⟨hlt, hget⟩ := List.getElem?_eq_some_iff.mp hw
  apply List.findIdx?_eq_some_iff_getElem.mpr
  refine ⟨hlt, by simp [hget], fun q hq => ?_⟩
  simp only [decide_eq_true_eq]
  intro hsame
  have hv : s.workers[q]? = some s.workers[q] := List.getElem?_eq_getElem (hq.trans hlt)
  have hrequest := (Daemon.numbered_reachable h).request hfew hv hw (numberBytes_injective hsame)
  exact Nat.ne_of_lt hq hrequest

/-- The request behind a frame that a connection read. -/
theorem request_of_ask {pid : UInt32} {d : Daemon.State}
    (h : Reach Daemon.next always (Daemon.start pid) d) (hfew : Daemon.taken d.log < 2 ^ 32)
    {task : Task} (hwire : wireOfTask task ∈ (asks l d.log).map wireOf) :
    ∃ r w, d.workers[r]? = some w ∧ task.seqNo = numberBytes w.number ∧ task.req = w.data ∧
      requestOf d task.seqNo = some r := by
  obtain ⟨a, ha, heq⟩ := List.mem_map.mp hwire
  obtain ⟨w, hw, hnumber, hdata⟩ := Daemon.issued_reachable h l a ha
  have hseq : task.seqNo = numberBytes w.number := by
    rw [hnumber]
    exact (congrArg Prod.fst heq).symm
  refine ⟨a.r, w, hw, hseq, ?_, ?_⟩
  · rw [hdata]
    exact (congrArg Prod.snd heq).symm
  · rw [hseq]
    exact requestOf_eq h hfew hw

/-- A connection handles each request once. -/
theorem handled_once (h : Reach (next n) Unmixed (start n) s)
    (hfew : Daemon.taken s.daemon.log < 2 ^ 32) {x y : Task × Bytes}
    (hx : x ∈ handledOn (n.far l).2 (s.phone (n.far l).1).log)
    (hy : y ∈ handledOn (n.far l).2 (s.phone (n.far l).1).log)
    (hsame : x.1.seqNo = y.1.seqNo) : x = y := by
  have horder := (linked_reachable h l).tasks
    (Phone.KeyService.serving_reachable (phone_run h (n.far l).1) (n.far l).2)
  have hnumbers : ((asks l s.daemon.log).map fun a => numberBytes a.number).Nodup := by
    have hnodup := Daemon.asks_numbers_nodup (daemon_run h) hfew l
    rw [← Function.comp_def numberBytes, ← List.map_map]
    exact hnodup.map fun _ _ => numberBytes_injective
  have hseq : List.Sublist
      ((handledOn (n.far l).2 (s.phone (n.far l).1).log).map fun x => x.1.seqNo)
      ((asks l s.daemon.log).map fun a => numberBytes a.number) := by
    have hfirst := horder.map Prod.fst
    simp only [List.map_append, List.map_map] at hfirst
    exact (List.sublist_append_left _ _).trans hfirst
  exact List.inj_on_of_nodup_map (hseq.nodup hnumbers) hx hy hsame

/-! ### What a step keeps -/

theorem Step.daemon_cases (h : Step n s t) :
    t.daemon = s.daemon ∨ ∃ e, Daemon.next s.daemon e = some t.daemon := by
  cases h with
  | daemon _ hnext => exact .inr ⟨_, hnext⟩
  | back hnext => exact .inr ⟨_, hnext⟩
  | phone _ _ _ hdaemon => exact .inl hdaemon
  | there _ _ hdaemon => exact .inl hdaemon

theorem Step.logs (h : Step n s t) (p : PhoneId) : (s.phone p).log <+: (t.phone p).log := by
  have hmove {q : PhoneId} {e : Phone.KeyService.Event}
      (hnext : Phone.KeyService.next n.sha (s.phone q) e = some (t.phone q))
      (hothers : ∀ r, r ≠ q → t.phone r = s.phone r) : (s.phone p).log <+: (t.phone p).log := by
    by_cases hp : p = q
    · subst hp
      exact (Phone.KeyService.step_cases hnext).log
    · rw [hothers p hp]
  cases h with
  | daemon _ _ hphone => rw [hphone]
  | back _ hphone => rw [hphone]
  | phone _ hnext hothers => exact hmove hnext hothers
  | there hnext hothers => exact hmove hnext hothers

/-- A request that a connection has handled just now. -/
def HandledNow (sha : Phone.Sha256) (s t : Phone.KeyService.State) (c : Owner) (env : Phone.Env)
    (x : Task × Bytes) : Prop :=
  (s.conn c).worker.task = some x.1 ∧
    (Phone.handle sha env x.1.req c s.session.authenticator).1.reply.bytes = x.2 ∧
    t.log = s.log ++ [.handled c x.1 x.2]

theorem traffic_handles {sha : Phone.Sha256} {s t : Phone.KeyService.State} {c : Owner}
    {e : Phone.KeyService.Event} (h : Phone.KeyService.Traffic sha s t c e) {x : Task × Bytes}
    (hx : x ∈ handledOn c t.log) : x ∈ handledOn c s.log ∨
      ∃ env, e = .finish c env ∧ HandledNow sha s t c env x := by
  cases h with
  | quiet _ hlog => exact .inl (hlog.2 ▸ hx)
  | arrives _ hlog => exact .inl (hlog ▸ hx)
  | drops _ hlog => exact .inl (hlog ▸ hx)
  | ping _ _ _ _ hlog => exact .inl (hlog ▸ hx)
  | skip _ _ _ _ hlog => exact .inl (hlog.2 ▸ hx)
  | replies _ _ _ hlog => exact .inl (hlog ▸ hx)
  | request _ _ _ _ hlog =>
      rw [hlog, Phone.KeyService.handledOn_snoc] at hx
      exact .inl ((List.append_nil _).subst hx)
  | @handles env task htask ht =>
      have hlog : t.log = s.log ++ [.handled c task
          (Phone.handle sha env task.req c s.session.authenticator).1.reply.bytes] := by
        rw [ht]
        rfl
      rw [hlog, Phone.KeyService.handledOn_snoc] at hx
      rcases List.mem_append.mp hx with hold | hnew
      · exact .inl hold
      · simp only [Phone.KeyService.Entry.handledOn, ↓reduceIte, Option.toList_some,
          List.mem_singleton] at hnew
        subst hnew
        exact .inr ⟨env, rfl, htask, rfl, hlog⟩

theorem next_handles {e : Event} (h : next n s e = some t) {p : PhoneId} {c : Owner}
    {x : Task × Bytes} (hx : x ∈ handledOn c (t.phone p).log) :
    x ∈ handledOn c (s.phone p).log ∨ ∃ env, e = .phone p (.finish c env) ∧
      t.daemon = s.daemon ∧ HandledNow n.sha (s.phone p) (t.phone p) c env x := by
  cases e with
  | daemon e =>
      obtain ⟨-, heq⟩ := Option.ite_none_left_eq_some.mp h
      obtain ⟨d, -, rfl⟩ := Option.map_eq_some_iff.mp heq
      exact .inl hx
  | back l k =>
      simp only [next, Option.map_eq_some_iff] at h
      obtain ⟨d, -, rfl⟩ := h
      exact .inl hx
  | phone q e =>
      obtain ⟨-, heq⟩ := Option.ite_none_left_eq_some.mp h
      obtain ⟨u, hnext, rfl⟩ := Option.map_eq_some_iff.mp heq
      by_cases hp : p = q
      · subst hp
        rw [setPhone_same] at hx
        rcases traffic_handles (Phone.KeyService.traffic_cases hnext c) hx with hold | hnow
        · exact .inl hold
        · obtain ⟨env, rfl, hhandled⟩ := hnow
          refine .inr ⟨env, rfl, rfl, ?_⟩
          rw [setPhone_same]
          exact hhandled
      · rw [setPhone_other s u hp] at hx
        exact .inl hx
  | there l k =>
      simp only [next, Option.map_eq_some_iff] at h
      obtain ⟨u, hnext, rfl⟩ := h
      by_cases hp : p = (n.far l).1
      · subst hp
        change x ∈ handledOn c ((s.setPhone _ u).phone _).log at hx
        rw [setPhone_same] at hx
        rcases traffic_handles (Phone.KeyService.traffic_cases hnext c) hx with hold | hnow
        · exact .inl hold
        · obtain ⟨env, he, -⟩ := hnow
          cases he
      · change x ∈ handledOn c ((s.setPhone _ u).phone _).log at hx
        rw [setPhone_other s u hp] at hx
        exact .inl hx

/-! ### The invariant -/

/-- The payload that a connection returned for the task goes on with the last
sign-in on the channel of its request. -/
structure Follows (n : Setup) (s : State) (l : LinkId) (task : Task) (payload : Bytes)
    (r g : RequestId) (w v : Daemon.Worker) : Prop where
  request : s.daemon.workers[r]? = some w
  wire : wireOfTask task = (numberBytes w.number, w.data)
  last : s.daemon.lastSignIn r = some g
  signIn : s.daemon.workers[g]? = some v
  goesOn : ∃ success opener, v.wins.head? = some (l, success) ∧
    wireOfTask opener = (numberBytes v.number, v.data) ∧
    Continued n.sha (n.store (n.far l).1) (n.keys (n.far l).1) (s.phone (n.far l).1) (n.far l).2
      opener success task payload

def Following (n : Setup) (s : State) : Prop :=
  ∀ l, ∀ x ∈ handledOn (n.far l).2 (s.phone (n.far l).1).log, x.1.req.head? = some 0x08 →
    Daemon.Success x.2 → ∃ r g w v, Follows n s l x.1 x.2 r g w v

theorem following_start (n : Setup) : Following n (start n) := by
  intro l x hx
  cases hx

theorem Follows.step {task : Task} {payload : Bytes} {r g : RequestId} {w v : Daemon.Worker}
    (h : Follows n s l task payload r g w v) (hrun : Reach (next n) always (start n) s)
    (hstep : Step n s t) : ∃ w' v', Follows n t l task payload r g w' v' := by
  obtain ⟨success, opener, hwins, hopener, hcontinued⟩ := h.goesOn
  have hcontinued' := hcontinued.step (hstep.logs (n.far l).1)
  rcases hstep.daemon_cases with hsame | ⟨e, hnext⟩
  · refine ⟨w, v, ?_, h.wire, ?_, ?_, success, opener, hwins, hopener, hcontinued'⟩
    · rw [hsame]
      exact h.request
    · rw [hsame]
      exact h.last
    · rw [hsame]
      exact h.signIn
  · have hdaemon := daemon_run hrun
    have hlate := Daemon.late_reachable hdaemon
    have hmoved := Daemon.step_cases hnext
    obtain ⟨w', hw', hrequest⟩ := hmoved.request h.request
    have hlast := hlate.lastSignIn (Daemon.inv_reachable hdaemon) hmoved h.request
    -- What was delivered for the sign-in does not change any more.
    have hanswers := Daemon.answers_of_lastSignIn h.last
    obtain ⟨u, v', hu, hv', -, hwins'⟩ := hlate.kept hmoved hanswers
    obtain rfl := Option.some.inj (hu.symm.trans h.signIn)
    obtain ⟨v'', hv'', hsignIn⟩ := hmoved.request h.signIn
    obtain rfl := Option.some.inj (hv''.symm.trans hv')
    refine ⟨w', v'', hw', ?_, hlast.trans h.last, hv', success, opener, ?_, ?_, hcontinued'⟩
    · rw [h.wire, hrequest.number, hrequest.data]
    · rw [hwins']
      exact hwins
    · rw [hopener, hsignIn.number, hsignIn.data]

/-- A getNextAssertion that is handled under `OwnChain` goes on with the last
sign-in on its channel. -/
theorem follows_of_handled {env : Phone.Env} {x : Task × Bytes}
    (hrun : Reach (next n) Unmixed (start n) s) (hfew : Daemon.taken s.daemon.log < 2 ^ 32)
    (hown : OwnChain n s (n.far l).1 (n.far l).2 env) (hdaemon : t.daemon = s.daemon)
    (hnow : HandledNow n.sha (s.phone (n.far l).1) (t.phone (n.far l).1) (n.far l).2 env x)
    (hcmd : x.1.req.head? = some 0x08) (hok : Daemon.Success x.2) :
    ∃ r g w v, Follows n t l x.1 x.2 r g w v := by
  obtain ⟨htask, hreply, hlog⟩ := hnow
  have hphone := phone_run hrun (n.far l).1
  have hd := daemon_run hrun
  have hserving := Phone.KeyService.serving_reachable hphone (n.far l).2
  have htasks := (linked_reachable hrun l).tasks hserving
  obtain ⟨hopen, opener, success, hcontinues⟩ := Phone.KeyService.continues_of_success hphone hcmd
    (by rw [hreply]; exact hok)
  -- The frames of the task and of its opener tell their requests.
  have hwire : wireOfTask x.1 ∈ (asks l s.daemon.log).map wireOf := by
    apply htasks.subset
    apply List.mem_map_of_mem
    apply List.mem_append_right
    rw [State.far, Phone.KeyService.Conn.tasks, htask]
    exact List.mem_cons_self
  obtain ⟨hopener, -⟩ := Phone.KeyService.mem_lastSignIn hcontinues.1
  have hwire' : wireOfTask opener ∈ (asks l s.daemon.log).map wireOf := by
    apply htasks.subset
    apply List.mem_map_of_mem
    apply List.mem_append_left
    exact List.mem_map_of_mem (f := Prod.fst) hopener
  obtain ⟨r, w, hw, hseq, hreq, hrequest⟩ := request_of_ask hd hfew hwire
  obtain ⟨g, v, hv, hseq', hreq', hrequest'⟩ := request_of_ask hd hfew hwire'
  obtain ⟨hlast, hwinner⟩ := hown x.1 htask hcmd hopen l ((n.near_iff ..).mpr rfl) r hrequest
    _ hcontinues.1
  rw [hrequest'] at hlast
  rw [hlast, Option.bind_some, winner, hv, Option.bind_some] at hwinner
  obtain ⟨⟨l', success'⟩, hhead, rfl⟩ := Option.map_eq_some_iff.mp hwinner
  -- The success that was recorded is the reply to the opener.
  have hrecorded := ((Daemon.sourced_reachable hd hv).wins _ (List.mem_of_mem_head? hhead)).1
  obtain ⟨-, ⟨task', hseq'', -, hhandled⟩, -⟩ := answered_of_recorded hrun hfew hv hrecorded
  have honce := handled_once (x := (task', success')) hrun hfew
    (Phone.KeyService.mem_handledOn.mpr hhandled) hopener
    (hseq''.trans hseq'.symm)
  obtain rfl : success' = success := congrArg Prod.snd honce
  rw [hreply] at hcontinues
  refine ⟨r, g, w, v, ?_, Prod.ext hseq hreq, ?_, ?_, success', opener, hhead,
    Prod.ext hseq' hreq', ?_⟩
  · rw [hdaemon]
    exact hw
  · rw [hdaemon]
    exact hlast
  · rw [hdaemon]
    exact hv
  · exact ⟨_, hphone, hlog ▸ List.prefix_rfl, hcontinues⟩

theorem taken_next {s t : Daemon.State} {e : Daemon.Event} (h : Daemon.next s e = some t) :
    Daemon.taken t.log ≤ Daemon.taken s.log + 1 := by
  cases (Daemon.step_cases h).number (Daemon.next_counter h) with
  | kept _ _ _ htaken => exact htaken ▸ Nat.le_succ _
  | fresh _ _ _ htaken => exact Nat.le_of_eq htaken

theorem following_reachable (h : Reach (next n) (Unshared n) (start n) s) :
    Daemon.taken s.daemon.log < 2 ^ 32 ∧ Following n s := by
  induction h with
  | refl => exact ⟨by simp [start, Daemon.start, Daemon.taken], following_start n⟩
  | @tail s t e hrun hok hnext ih =>
      obtain ⟨hfew, hfollowing⟩ := ih
      have hstep := step_cases hnext
      constructor
      · rcases hstep.daemon_cases with hsame | ⟨e, hmoved⟩
        · exact hsame ▸ hfew
        · exact Nat.lt_of_le_of_lt (taken_next hmoved) hok.1
      · intro l x hx hcmd hsuccess
        rcases next_handles hnext hx with hold | ⟨env, rfl, hdaemon, hnow⟩
        · obtain ⟨r, g, w, v, hfollows⟩ := hfollowing l x hold hcmd hsuccess
          obtain ⟨w', v', hafter⟩ := hfollows.step hrun.weaken hstep
          exact ⟨r, g, w', v', hafter⟩
        · exact follows_of_handled (hrun.mono fun _ _ => Unshared.unmixed) hfew
            (hok.2.2 _ rfl) hdaemon hnow hcmd hsuccess

/-! ### The law -/

/-- In every run in which fewer than 2^32 requests come, no frame is taken for a
part of another and the phones serve getNextAssertion only where the last sign-in
on the connection is the one that was delivered last on the channel: what answers
a GET_NEXT_ASSERTION is the next assertion of the last GET_ASSERTION that was
delivered on its channel. What counts as delivered is what the worker replies
with. -/
theorem channels_apart {n : Setup} {s : State} (h : Reach (next n) (Unshared n) (start n) s) :
    ChannelsApart n s ∧ Daemon.DeliversVerdicts s.daemon := by
  refine ⟨?_, Daemon.delivered_of_verdict (daemon_run h)⟩
  obtain ⟨hfew, hfollowing⟩ := following_reachable h
  intro r w payload hw hcmd hdelivered
  have hrun := h.mono fun _ _ => Unshared.unmixed
  have hdaemon := daemon_run hrun
  rw [Daemon.State.delivered] at hdelivered
  obtain ⟨-, hfirst⟩ := Option.ite_none_right_eq_some.mp hdelivered
  rw [hw, Option.bind_some] at hfirst
  obtain ⟨⟨l, p⟩, hhead, rfl⟩ := Option.map_eq_some_iff.mp hfirst
  obtain ⟨hrecorded, hsuccess⟩ :=
    (Daemon.sourced_reachable hdaemon hw).wins _ (List.mem_of_mem_head? hhead)
  -- The phone behind the winning link handled the request.
  obtain ⟨-, ⟨task, hseq, hreq, hhandled⟩, -⟩ := answered_of_recorded hrun hfew hw hrecorded
  obtain ⟨q, g, w', v, hfollows⟩ := hfollowing l (task, p)
    (Phone.KeyService.mem_handledOn.mpr hhandled) (by rw [hreq]; exact hcmd) hsuccess
  have hnumber : w'.number = w.number := by
    apply numberBytes_injective
    rw [← hseq]
    exact (congrArg Prod.fst hfollows.wire).symm
  obtain rfl := (Daemon.numbered_reachable hdaemon).request hfew hfollows.request hw hnumber
  obtain ⟨success, opener, hwins, hopener, hcontinued⟩ := hfollows.goesOn
  obtain ⟨-, hsigned⟩ := Daemon.mem_lastSignIn hw hfollows.last
  refine ⟨g, v, hfollows.last, hfollows.signIn, ?_, l, success, opener, task, hwins,
    congrArg Prod.fst hopener, congrArg Prod.snd hopener, hseq, hreq, hcontinued⟩
  rw [Daemon.State.signedIn, hfollows.signIn] at hsigned
  simp only [Option.any_some, Bool.and_eq_true, decide_eq_true_eq] at hsigned
  exact hsigned.1.1

/-! ### Two channels and one phone -/

/-- A request on a channel, what the phone does with it, and the steps of the
worker from the answer on. -/
def exchange (channel : UInt8) (r : RequestId) (data : List UInt8) (phone : List Event)
    (replying : Nat) : List Event :=
  List.flatten [
    [.daemon (.packet 0 ([0, 0, 0, channel, Daemon.CBOR, 0, UInt8.ofNat data.length] ++ data))],
    List.replicate 6 (.daemon (.hid 0 true)), List.replicate 7 (.daemon (.worker r true)),
    [.there 0 100], phone, [.back 0 1000, .daemon (.readLink 0)],
    List.replicate replying (.daemon (.worker r true))]

/-- The phone asks its user, who approves, and sends the reply. -/
def approving : List Event :=
  [.phone 0 (.serve 0 true), .phone 0 (.execute 0), .phone 0 (.enter 0), .phone 0 (.confirm 0),
    .phone 0 (.awaitAnswer 0 false), .phone 0 (.create 1), .phone 0 (.approve 0),
    .phone 0 (.awaitAnswer 0 false), .phone 0 (.finish 0 (Phone.approving 0)),
    .phone 0 (.reply 0 true)]

/-- A phone with two accounts of one site. -/
def twoAccounts : Setup :=
  onePhone Phone.twoAccounts [[1], [2]]

/-- A sign-in on channel 1, then a GET_NEXT_ASSERTION on a channel. -/
def followUpEvents (channel : UInt8) : List Event :=
  .daemon (.connect "a".toList 0) :: (exchange 1 0 Phone.signInCall.req approving 11 ++
    exchange channel 1 [Daemon.GET_NEXT_ASSERTION] (handling 0 (Phone.approving 29999)) 8)

theorem sameChannel_apart : ∃ s w payload,
    Reach (next twoAccounts) (Unshared twoAccounts) (start twoAccounts) s ∧
      s.daemon.workers[1]? = some w ∧ w.data = [Daemon.GET_NEXT_ASSERTION] ∧
      s.daemon.delivered 1 = some payload ∧ ChannelsApart twoAccounts s := by
  have hrun : ((replay (next twoAccounts) (Unshared twoAccounts) (start twoAccounts)
      (followUpEvents 1)).any fun s =>
        s.daemon.workers[1]?.map (·.data) = some [Daemon.GET_NEXT_ASSERTION] ∧
          (s.daemon.delivered 1).isSome) = true := by
    decide +kernel
  obtain ⟨s, hreplay, hfacts⟩ := (Option.any_eq_true ..).mp hrun
  obtain ⟨hdata, hdelivered⟩ := of_decide_eq_true hfacts
  obtain ⟨w, hw, hcmd⟩ := Option.map_eq_some_iff.mp hdata
  obtain ⟨payload, hpayload⟩ := Option.isSome_iff_exists.mp hdelivered
  have hreach := reach_of_replay hreplay
  exact ⟨s, w, payload, hreach, hw, hcmd, hpayload, (channels_apart hreach).1⟩

/-- A GET_NEXT_ASSERTION on channel 2 is answered with what is left of the
sign-in on channel 1. -/
theorem chain_leaks : ∃ s, Reach (next twoAccounts) always (start twoAccounts) s ∧
    ¬ ChannelsApart twoAccounts s := by
  have hrun : ((replay (next twoAccounts) always (start twoAccounts) (followUpEvents 2)).any
      fun s => s.daemon.workers[1]?.map (·.data) = some [Daemon.GET_NEXT_ASSERTION] ∧
        (s.daemon.delivered 1).isSome ∧ s.daemon.lastSignIn 1 = none) = true := by
    decide +kernel
  obtain ⟨s, hreplay, hfacts⟩ := (Option.any_eq_true ..).mp hrun
  obtain ⟨hdata, hdelivered, hlast⟩ := of_decide_eq_true hfacts
  obtain ⟨w, hw, hcmd⟩ := Option.map_eq_some_iff.mp hdata
  obtain ⟨payload, hpayload⟩ := Option.isSome_iff_exists.mp hdelivered
  refine ⟨s, reach_of_replay hreplay, fun hlaw => ?_⟩
  obtain ⟨g, v, hsome, -⟩ := hlaw 1 w payload hw (by rw [hcmd]; rfl) hpayload
  rw [hlast] at hsome
  cases hsome

end Passkey.Network

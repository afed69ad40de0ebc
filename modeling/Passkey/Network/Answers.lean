import Passkey.Network.Requests

/-!
From a phone to the daemon. What the daemon takes from a link under the number
of a request is what `handle` returned on the connection behind the link for
the bytes that were sent under this number, or the close marker. As long as no
two requests share a number, a late answer to an older request is dropped.
-/

namespace Passkey.Network

open Library

open Daemon (LinkId Link RequestId Ask asks numberBytes closeMarker decodeResponse Logged)

open Phone (Owner Sha256)

open Phone.KeyService (Conn Task Traffic requested handledOn response)

/-! ### Frames -/

theorem decodeResponse_response (number : UInt32) (r : Bytes) :
    decodeResponse (response (numberBytes number) r) = some (number, r) := by
  have hlength := length_numberBytes number
  have hvalue : ofBigEndian (numberBytes number) = number.toNat :=
    ofBigEndian_bigEndian (Nat.lt_of_lt_of_le number.toNat_lt (by decide))
  have htake : (numberBytes number ++ r).take 4 = numberBytes number := List.take_left' hlength
  have hdrop : (numberBytes number ++ r).drop 4 = r := List.drop_left' hlength
  have hhead : Phone.KeyService.RESP = Daemon.RESP := by decide
  simp [decodeResponse, response, htake, hdrop, hvalue, hlength, hhead]

theorem decodeResponse_pong : decodeResponse [Phone.KeyService.PONG] = none := by
  rfl

/-! ### What the phone writes -/

/-- A frame of a phone: a PONG, or what `handle` returned for a request. -/
def Said (c : Owner) (log : List Phone.KeyService.Entry) (body : Bytes) : Prop :=
  body = [Phone.KeyService.PONG] ∨ ∃ x ∈ handledOn c log, body = response x.1.seqNo x.2

inductive Says (s t : Phone.KeyService.State) (c : Owner) : Prop where
  | none (hsent : (t.conn c).sent = (s.conn c).sent)
  | body {body : Bytes} (hsent : (t.conn c).sent = (s.conn c).sent ++ frame body)
      (hbody : body = [Phone.KeyService.PONG] ∨
        ∃ x ∈ handledOn c s.log, body = response x.1.seqNo x.2 ∧ x.2.length + 5 < 2 ^ 31)

theorem says_of_write {s t : Phone.KeyService.State} {c : Owner} {k : Conn} {body : Bytes}
    {ok : Bool} (hk : k.sent = (s.conn c).sent) (hsent : (t.conn c).sent = (k.write body ok).sent)
    (hbody : body = [Phone.KeyService.PONG] ∨
      ∃ x ∈ handledOn c s.log, body = response x.1.seqNo x.2 ∧ x.2.length + 5 < 2 ^ 31) :
    Says s t c := by
  unfold Conn.write at hsent
  split at hsent
  · exact .none (hsent.trans hk)
  · exact .body (hsent.trans (congrArg (· ++ frame body) hk)) hbody

theorem traffic_said {sha : Sha256} {s t : Phone.KeyService.State} {c : Owner}
    {e : Phone.KeyService.Event} (hserving : Phone.KeyService.Serving s c)
    (h : Traffic sha s t c e) : Says s t c := by
  cases h with
  | quiet hconn => exact .none hconn.sent
  | arrives hconn => exact .none (by rw [hconn])
  | drops hconn => exact .none (by rw [hconn])
  | request _ _ _ hconn => exact .none (by rw [hconn])
  | ping _ _ _ hconn =>
      refine says_of_write ?_ (by rw [hconn]) (.inl rfl)
      rfl
  | skip _ _ _ hconn => exact .none hconn.sent
  | @handles env task htask ht =>
      generalize Phone.handle sha env task.req c s.session.authenticator = result at ht
      have hconn : t.conn c = {s.conn c with worker := .replying task result.1.reply.bytes} := by
        rw [ht]
        exact Phone.KeyService.setConn_same ..
      exact .none (by rw [hconn])
  | @replies ok task r hworker hlength hconn =>
      refine says_of_write rfl (by rw [hconn]) (.inr ⟨(task, r), ?_, rfl, hlength⟩)
      exact hserving.replying task r hworker

theorem traffic_handled {sha : Sha256} {s t : Phone.KeyService.State} {c : Owner}
    {e : Phone.KeyService.Event} (h : Traffic sha s t c e) {x : Task × Bytes}
    (hx : x ∈ handledOn c s.log) : x ∈ handledOn c t.log := by
  cases h with
  | quiet _ hlog => exact hlog.2 ▸ hx
  | arrives _ hlog => exact hlog ▸ hx
  | drops _ hlog => exact hlog ▸ hx
  | ping _ _ _ _ hlog => exact hlog ▸ hx
  | skip _ _ _ _ hlog => exact hlog.2 ▸ hx
  | replies _ _ _ hlog => exact hlog ▸ hx
  | request _ _ _ _ hlog =>
      rw [hlog, Phone.KeyService.handledOn_snoc]
      exact List.mem_append_left _ hx
  | handles _ ht =>
      rw [ht]
      exact (Phone.KeyService.handledOn_snoc ..).symm ▸ List.mem_append_left _ hx

/-! ### What the daemon hears -/

/-- A worker took this response from the link. -/
def Taken (l : LinkId) (x : UInt32 × Bytes) : List Daemon.Entry → Prop :=
  Logged fun act => ∃ r, act = .take r l x

/-- What a step of the daemon does to the responses of a link. -/
inductive Hears (s t : Daemon.State) (l : LinkId) : Prop where
  | none (hreceived : (t.link l).received = (s.link l).received)
      (hresponses : ∀ x ∈ (t.link l).responses, x ∈ (s.link l).responses ∨ x = closeMarker)
      (htaken : ∀ x, Taken l x t.log → Taken l x s.log ∨ x ∈ (s.link l).responses)
  | body {body rest : Bytes}
      (hread : readFrame Daemon.maxBody (s.link l).received = .message body rest)
      (hreceived : (t.link l).received = rest)
      (hresponses : ∀ x ∈ (t.link l).responses,
        x ∈ (s.link l).responses ∨ decodeResponse body = some x)
      (hlog : t.log = s.log)

theorem close_responses (k : Link) : k.close.received = k.received ∧
    ∀ x ∈ k.close.responses, x ∈ k.responses ∨ x = closeMarker := by
  unfold Link.close
  split
  · exact ⟨rfl, fun _ hx => .inl hx⟩
  · exact ⟨rfl, fun _ hx => .inl hx⟩
  · refine ⟨rfl, fun x hx => ?_⟩
    exact (List.mem_append.mp hx).imp_right List.mem_singleton.mp
  · exact ⟨rfl, fun _ hx => .inl hx⟩

theorem hear_responses (k : Link) (body : Bytes) : (k.hear body).received = k.received ∧
    ∀ x ∈ (k.hear body).responses, x ∈ k.responses ∨ decodeResponse body = some x := by
  unfold Link.hear
  split
  · rename_i response hdecode
    refine ⟨rfl, fun x hx => ?_⟩
    refine (List.mem_append.mp hx).imp_right fun hnew => ?_
    rw [List.mem_singleton.mp hnew, hdecode]
  · exact ⟨rfl, fun _ hx => .inl hx⟩

theorem taken_snoc {l : LinkId} {x : UInt32 × Bytes} {log : List Daemon.Entry} {e : Daemon.Entry}
    (h : Taken l x (log ++ [e])) : Taken l x log ∨ ∃ r, e.act = .take r l x :=
  Daemon.logged_snoc.mp h

theorem next_hears {s t : Daemon.State} {e : Daemon.Event} (h : Daemon.next s e = some t)
    (l : LinkId) (he : ∀ bytes, e ≠ .receive l bytes) : Hears s t l := by
  have hquiet (hlink : (t.link l).received = (s.link l).received ∧
      ∀ x ∈ (t.link l).responses, x ∈ (s.link l).responses ∨ x = closeMarker)
      (hlog : t.log = s.log) : Hears s t l :=
    .none hlink.1 hlink.2 fun x hx => .inl (hlog ▸ hx)
  cases Daemon.next_link h l with
  | away hlink hnew =>
      refine .none (by rw [hlink]) (fun x hx => .inl (hlink ▸ hx)) fun x hx => ?_
      rcases hnew with hsame | ⟨y, hlog, haway⟩
      · exact .inl (hsame ▸ hx)
      · refine .inl ((taken_snoc (hlog ▸ hx)).resolve_right ?_)
        rintro ⟨r, hact⟩
        rw [hact] at haway
        exact haway rfl
  | @write actor m ok hlink hlog =>
      have hsame : (t.link l).received = (s.link l).received ∧
          (t.link l).responses = (s.link l).responses := by
        rw [hlink]
        exact ⟨rfl, rfl⟩
      refine .none hsame.1 (fun x hx => .inl (hsame.2 ▸ hx)) fun x hx => ?_
      refine .inl ((taken_snoc (hlog ▸ hx)).resolve_right ?_)
      rintro ⟨r, hact⟩
      cases hact
  | take hevent hw hpc hqueue hlink hlog =>
      refine .none (by rw [hlink]) (fun x hx => .inl ?_) fun x hx => ?_
      · rw [hlink] at hx
        rw [hqueue]
        exact List.mem_cons_of_mem _ hx
      · refine (taken_snoc (hlog ▸ hx)).imp_right ?_
        rintro ⟨r, hact⟩
        cases hact
        rw [hqueue]
        exact List.mem_cons_self
  | ping hevent hlink hlog =>
      refine hquiet ?_ hlog
      rw [hlink]
      exact ⟨rfl, fun _ hx => .inl hx⟩
  | stall hevent hlink hlog =>
      exact hquiet ⟨by rw [hlink], fun x hx => .inl (by simpa [hlink] using hx)⟩ hlog
  | connect hevent hlink hlog =>
      exact hquiet ⟨by rw [hlink], fun x hx => .inl (by simpa [hlink] using hx)⟩ hlog
  | close hevent hlink hlog => exact hquiet (hlink ▸ close_responses _) hlog
  | receive hevent => exact absurd hevent (he _)
  | readLink hevent hread hlog =>
      unfold Link.readLink at hread
      split at hread
      · split at hread
        · cases hread
        · refine hquiet ?_ hlog
          rw [← Option.some.inj hread]
          exact ⟨rfl, fun _ hx => .inl hx⟩
        · rename_i body rest hframe
          obtain ⟨hreceived, hresponses⟩ := hear_responses {s.link l with received := rest} body
          rw [Option.some.inj hread] at hreceived hresponses
          exact .body hframe hreceived hresponses hlog
      · cases hread
  | endRead hevent hlink hlog =>
      exact hquiet ⟨by rw [hlink], fun x hx => .inl (by simpa [hlink] using hx)⟩ hlog

theorem receive_link {s t : Daemon.State} {l : LinkId} {bytes : Bytes}
    (h : Daemon.next s (.receive l bytes) = some t) :
    (t.link l).received = (s.link l).received ++ bytes ∧
      (t.link l).responses = (s.link l).responses ∧ t.log = s.log := by
  obtain ⟨-, heq⟩ := Option.ite_none_right_eq_some.mp h
  cases heq
  have hlink : (s.setLink l {s.link l with received := (s.link l).received ++ bytes}).link l =
      {s.link l with received := (s.link l).received ++ bytes} := Function.update_self ..
  rw [hlink]
  exact ⟨rfl, rfl, rfl⟩

/-! ### A link -/

/-- The connection behind the link handled a request and returned this. -/
def Genuine (n : Setup) (s : State) (l : LinkId) (x : UInt32 × Bytes) : Prop :=
  x = closeMarker ∨ ∃ y ∈ handledOn (n.far l).2 (s.phone (n.far l).1).log,
    y.1.seqNo = numberBytes x.1 ∧ y.2 = x.2

/-- The frames from the phone, of which the daemon has taken `done`. -/
structure Incoming (n : Setup) (s : State) (l : LinkId) (done pending : List Bytes) : Prop where
  bytes : Conveys (s.far n l).sent [] (s.daemon.link l).received (s.back l) done pending
  said : ∀ body ∈ pending, Said (n.far l).2 (s.phone (n.far l).1).log body
  queued : ∀ x ∈ (s.daemon.link l).responses, Genuine n s l x
  taken : ∀ x, Taken l x s.daemon.log → Genuine n s l x

def Answering (n : Setup) (s : State) (l : LinkId) : Prop :=
  ∃ done pending, Incoming n s l done pending

theorem answering_start (n : Setup) (l : LinkId) : Answering n (start n) l :=
  ⟨[], [], .start, by simp, by simp [start, Daemon.start],
    by simp [start, Daemon.start, Taken, Logged]⟩

variable {n : Setup} {s t : State} {l : LinkId} {done pending : List Bytes}

/-- What a connection handled, and what it has yet to handle, was written on its
link in this order. -/
theorem Linked.tasks (h : Linked n s l)
    (hserving : Phone.KeyService.Serving (s.phone (n.far l).1) (n.far l).2) :
    List.Sublist (((handledOn (n.far l).2 (s.phone (n.far l).1).log).map Prod.fst ++
      (s.far n l).tasks).map wireOfTask) ((asks l s.daemon.log).map wireOf) := by
  obtain ⟨missing, done, pending, h⟩ := h
  have hread := hserving.order.map wireOfTask
  rw [h.read] at hread
  apply hread.sublist.trans
  apply List.Sublist.trans _ h.order
  rw [List.filterMap_append]
  exact List.sublist_append_left ..

/-- What a connection handled is a request that was written on its link. -/
theorem Linked.handled (h : Linked n s l)
    (hserving : Phone.KeyService.Serving (s.phone (n.far l).1) (n.far l).2) {x : Task × Bytes}
    (hx : x ∈ handledOn (n.far l).2 (s.phone (n.far l).1).log) :
    ∃ a ∈ asks l s.daemon.log, x.1.seqNo = numberBytes a.number ∧ x.1.req = a.data := by
  have hwire : wireOfTask x.1 ∈ (asks l s.daemon.log).map wireOf := by
    apply (h.tasks hserving).subset
    apply List.mem_map_of_mem
    exact List.mem_append_left _ (List.mem_map_of_mem hx)
  obtain ⟨a, ha, heq⟩ := List.mem_map.mp hwire
  exact ⟨a, ha, (congrArg Prod.fst heq).symm, (congrArg Prod.snd heq).symm⟩

theorem Genuine.mono {x : UInt32 × Bytes} (h : Genuine n s l x)
    (hlog : ∀ y ∈ handledOn (n.far l).2 (s.phone (n.far l).1).log,
      y ∈ handledOn (n.far l).2 (t.phone (n.far l).1).log) : Genuine n t l x := by
  refine h.imp_right fun ⟨y, hy, hnumber, hpayload⟩ => ?_
  exact ⟨y, hlog y hy, hnumber, hpayload⟩

theorem Incoming.mono (h : Incoming n s l done pending)
    (hbytes : Conveys (t.far n l).sent [] (t.daemon.link l).received (t.back l) done pending)
    (hdaemon : t.daemon.log = s.daemon.log)
    (hresponses : (t.daemon.link l).responses = (s.daemon.link l).responses)
    (hlog : ∀ y ∈ handledOn (n.far l).2 (s.phone (n.far l).1).log,
      y ∈ handledOn (n.far l).2 (t.phone (n.far l).1).log) : Incoming n t l done pending where
  bytes := hbytes
  said body hbody := by
    refine (h.said body hbody).imp_right fun ⟨y, hy, heq⟩ => ?_
    exact ⟨y, hlog y hy, heq⟩
  queued x hx := (h.queued x (hresponses ▸ hx)).mono hlog
  taken x hx := (h.taken x (hdaemon ▸ hx)).mono hlog

/-- The phone moved, and wrote a frame or not. -/
theorem Incoming.written (h : Incoming n s l done pending) (hlinked : Linked n s l)
    (hserving : Phone.KeyService.Serving (s.phone (n.far l).1) (n.far l).2)
    (hsaid : Says (s.phone (n.far l).1) (t.phone (n.far l).1) (n.far l).2)
    (hlog : ∀ y ∈ handledOn (n.far l).2 (s.phone (n.far l).1).log,
      y ∈ handledOn (n.far l).2 (t.phone (n.far l).1).log)
    (hdaemon : t.daemon = s.daemon) (hback : t.back l = s.back l) : Answering n t l := by
  cases hsaid with
  | none hsent =>
      refine ⟨done, pending, h.mono ?_ (by rw [hdaemon]) (by rw [hdaemon]) hlog⟩
      rw [State.far, hsent, hdaemon, hback]
      exact h.bytes
  | @body body hsent hbody =>
      have hframed : Framed body := by
        rcases hbody with rfl | ⟨x, hx, rfl, hlength⟩
        · constructor <;> simp
        · obtain ⟨a, -, hnumber, -⟩ := hlinked.handled hserving hx
          have hsize : (response x.1.seqNo x.2).length = x.2.length + 5 := by
            simp [response, hnumber, length_numberBytes]
            omega
          constructor
          · omega
          · rw [hsize]
            exact Nat.lt_of_lt_of_le hlength (by decide)
      have hsaid : Said (n.far l).2 (s.phone (n.far l).1).log body := by
        rcases hbody with hpong | ⟨x, hx, heq, -⟩
        · exact .inl hpong
        · exact .inr ⟨x, hx, heq⟩
      have hmore : Incoming n t l done (pending ++ [body]) := by
        refine ⟨?_, fun b hb => ?_, fun x hx => ?_, fun x hx => ?_⟩
        · rw [State.far, hsent, hdaemon, hback]
          exact h.bytes.write hframed (List.append_nil _)
        · have hold : Said (n.far l).2 (s.phone (n.far l).1).log b := by
            rcases List.mem_append.mp hb with hbefore | hnew
            · exact h.said b hbefore
            · exact List.mem_singleton.mp hnew ▸ hsaid
          rcases hold with hpong | ⟨y, hy, heq⟩
          · exact .inl hpong
          · exact .inr ⟨y, hlog y hy, heq⟩
        · exact (h.queued x (hdaemon ▸ hx)).mono hlog
        · exact (h.taken x (hdaemon ▸ hx)).mono hlog
      exact ⟨done, pending ++ [body], hmore⟩

/-- The daemon moved, and took a frame from the link or not. -/
theorem Incoming.heard (h : Incoming n s l done pending) (hlinked : Linked n s l)
    (hserving : Phone.KeyService.Serving (s.phone (n.far l).1) (n.far l).2)
    (hhears : Hears s.daemon t.daemon l)
    (hphone : t.phone (n.far l).1 = s.phone (n.far l).1) (hback : t.back l = s.back l) :
    Answering n t l := by
  have hgenuine {x : UInt32 × Bytes} (hx : Genuine n s l x) : Genuine n t l x :=
    hx.mono fun y hy => hphone ▸ hy
  have hfar : t.far n l = s.far n l := by
    rw [State.far, hphone]
    rfl
  cases hhears with
  | none hreceived hresponses htaken =>
      refine ⟨done, pending, ?_, fun b hb => hphone ▸ h.said b hb, fun x hx => ?_, fun x hx => ?_⟩
      · rw [hfar, hreceived, hback]
        exact h.bytes
      · rcases hresponses x hx with hold | hmarker
        · exact hgenuine (h.queued x hold)
        · exact .inl hmarker
      · rcases htaken x hx with hold | hqueued
        · exact hgenuine (h.taken x hold)
        · exact hgenuine (h.queued x hqueued)
  | @body body rest hread hreceived hresponses hlog =>
      obtain ⟨more, rfl, hbytes⟩ := h.bytes.read hread
      refine ⟨done ++ [body], more, ?_, fun b hb => ?_, fun x hx => ?_, fun x hx => ?_⟩
      · rw [hfar, hreceived, hback]
        exact hbytes
      · exact hphone ▸ h.said b (List.mem_cons_of_mem _ hb)
      · rcases hresponses x hx with hold | hdecode
        · exact hgenuine (h.queued x hold)
        · rcases h.said body List.mem_cons_self with rfl | ⟨y, hy, rfl⟩
          · simp [decodeResponse_pong] at hdecode
          · obtain ⟨a, -, hnumber, -⟩ := hlinked.handled hserving hy
            rw [hnumber, decodeResponse_response] at hdecode
            cases hdecode
            exact hgenuine (.inr ⟨y, hy, hnumber, rfl⟩)
      · exact hgenuine (h.taken x (hlog ▸ hx))

/-- Bytes arrived at the daemon. -/
theorem Incoming.arrived (h : Incoming n s l done pending) {k : Nat}
    (hreceived : (t.daemon.link l).received =
      (s.daemon.link l).received ++ s.arrivingBack n l k)
    (hresponses : (t.daemon.link l).responses = (s.daemon.link l).responses)
    (hlog : t.daemon.log = s.daemon.log) (hphone : t.phone = s.phone)
    (hback : t.back l = s.back l + (s.arrivingBack n l k).length) : Answering n t l := by
  refine ⟨done, pending, h.mono ?_ hlog hresponses fun y hy => hphone ▸ hy⟩
  have hfar : t.far n l = s.far n l := by
    rw [State.far, hphone]
    rfl
  rw [hfar, hreceived, hback]
  exact h.bytes.arrive k

/-- The daemon stayed, and the phone took a step or not. -/
theorem Incoming.moved (h : Incoming n s l done pending) (hlinked : Linked n s l)
    (hserving : Phone.KeyService.Serving (s.phone (n.far l).1) (n.far l).2)
    (hfar : FarStep n s t l) (hdaemon : t.daemon = s.daemon) (hback : t.back l = s.back l) :
    Answering n t l := by
  have hmove {e : Phone.KeyService.Event}
      (hnext : Phone.KeyService.next n.sha (s.phone (n.far l).1) e =
        some (t.phone (n.far l).1)) : Answering n t l := by
    have htraffic := Phone.KeyService.traffic_cases hnext (n.far l).2
    exact h.written hlinked hserving (traffic_said hserving htraffic)
      (fun _ => traffic_handled htraffic) hdaemon hback
  cases hfar with
  | same hphone =>
      exact h.written hlinked hserving (.none (by rw [hphone])) (fun _ hy => hphone ▸ hy) hdaemon
        hback
  | own _ hnext => exact hmove hnext
  | arrived hnext => exact hmove hnext

theorem Answering.step (h : Answering n s l) (hlinked : Linked n s l)
    (hserving : Phone.KeyService.Serving (s.phone (n.far l).1) (n.far l).2)
    (hstep : Step n s t) : Answering n t l := by
  obtain ⟨done, pending, h⟩ := h
  have hfar := hstep.farStep l
  cases hstep with
  | @daemon e hlocal hnext hphone hthere hback =>
      refine h.heard hlinked hserving (next_hears hnext l fun bytes he => ?_) (by rw [hphone])
        (by rw [hback])
      rw [he] at hlocal
      cases hlocal
  | phone _ _ _ hdaemon _ hback => exact h.moved hlinked hserving hfar hdaemon (by rw [hback])
  | there _ _ hdaemon _ hback => exact h.moved hlinked hserving hfar hdaemon (by rw [hback])
  | @back m k hnext hphone hthere hback =>
      by_cases hm : m = l
      · subst hm
        obtain ⟨hreceived, hresponses, hlog⟩ := receive_link hnext
        exact h.arrived hreceived hresponses hlog hphone (by rw [hback, Function.update_self])
      · refine h.heard hlinked hserving (next_hears hnext l fun bytes he => ?_) (by rw [hphone])
          (by rw [hback, Function.update_of_ne (Ne.symm hm)])
        injection he with hml
        exact hm hml

theorem answering_reachable (h : Reach (next n) Unmixed (start n) s) (l : LinkId) :
    Answering n s l := by
  induction h with
  | refl => exact answering_start n l
  | tail hrun _ hstep ih =>
      exact ih.step (linked_reachable hrun l)
        (Phone.KeyService.serving_reachable (phone_run hrun _) _) (step_cases hstep)

/-! ### The law -/

/-- A call of `handle` on the connection returned this payload for these bytes:
in the calls of the phone it is the one that comes after those of `before`. -/
def Returned (n : Setup) (s : State) (p : PhoneId) (c : Owner) (req payload : Bytes) : Prop :=
  ∃ env before, Reach (Phone.Session.next n.sha) always
      ⟨.fresh (n.store p) (n.keys p), []⟩ before ∧
    before.history ++ [(⟨env, req, c⟩, (Phone.handle n.sha env req c before.authenticator).1)] <+:
      (s.phone p).session.history ∧
    (Phone.handle n.sha env req c before.authenticator).1.reply.bytes = payload

/-- The payload answers the REQ frame of request `r` that was written on the
link. -/
structure Answered (n : Setup) (s : State) (r : RequestId) (w : Daemon.Worker) (l : LinkId)
    (payload : Bytes) : Prop where
  sent : ⟨r, w.number, w.data⟩ ∈ asks l s.daemon.log
  handled : ∃ task, task.seqNo = numberBytes w.number ∧ task.req = w.data ∧
    .handled (n.far l).2 task payload ∈ (s.phone (n.far l).1).log
  returned : Returned n s (n.far l).1 (n.far l).2 w.data payload

theorem numberBytes_injective {a b : UInt32} (h : numberBytes a = numberBytes b) : a = b := by
  have hvalue (a : UInt32) : ofBigEndian (numberBytes a) = a.toNat :=
    ofBigEndian_bigEndian (Nat.lt_of_lt_of_le a.toNat_lt (by decide))
  apply UInt32.toNat_inj.mp
  rw [← hvalue a, h, hvalue b]

theorem returned_of_handled {ok : State → Event → Prop} (h : Reach (next n) ok (start n) s)
    {p : PhoneId} {c : Owner} {task : Task} {r : Bytes}
    (hmem : .handled c task r ∈ (s.phone p).log) : Returned n s p c task.req r := by
  have hcounted := Phone.KeyService.recounted_reachable (phone_run h p)
  obtain ⟨⟨call, outcome⟩, hx, rfl, hreq, rfl⟩ := hcounted.handled hmem
  obtain ⟨before, after, hsplit⟩ := List.append_of_mem hx
  obtain ⟨u, hrun, rfl, houtcome⟩ := Phone.session_call hcounted.session hsplit
  dsimp only at hreq houtcome ⊢
  rw [← hreq]
  refine ⟨call.env, u, hrun, ?_, by rw [houtcome]⟩
  rw [hsplit, houtcome]
  exact ⟨after, by simp⟩

/-- What a worker recorded from a link is what the connection behind the link
returned for the request that the worker sent. -/
theorem answered_of_recorded (h : Reach (next n) Unmixed (start n) s)
    (hfew : Daemon.taken s.daemon.log < 2 ^ 32) {r : RequestId} {w : Daemon.Worker}
    (hw : s.daemon.workers[r]? = some w) {payload : Bytes}
    (hrecorded : Daemon.Recorded r w.number l payload s.daemon.log) :
    Answered n s r w l payload := by
  have hdaemon := daemon_run h
  obtain ⟨e, he, hact, hpayload⟩ := hrecorded
  obtain ⟨done, pending, hincoming⟩ := answering_reachable h l
  rcases hincoming.taken (w.number, payload) ⟨e, he, r, hact⟩ with hmarker | hanswer
  · exact absurd (congrArg Prod.snd hmarker) hpayload
  · obtain ⟨⟨task, r'⟩, hy, hnumber, rfl⟩ := hanswer
    obtain ⟨a, ha, haseq, hareq⟩ := (linked_reachable h l).handled
      (Phone.KeyService.serving_reachable (phone_run h _) _) hy
    have hsame : a.number = w.number := numberBytes_injective (haseq.symm.trans hnumber)
    -- The number tells that the frame was for this request.
    obtain ⟨v, hv, hvnumber, hvdata⟩ := Daemon.issued_reachable hdaemon l a ha
    have hrequest := (Daemon.numbered_reachable hdaemon).request hfew hv hw
      (hvnumber.trans hsame)
    rw [hrequest, hw] at hv
    obtain rfl := Option.some.inj hv
    have hask : a = ⟨r, w.number, w.data⟩ := by rw [← hrequest, ← hsame, hvdata]
    have hhandled := Phone.KeyService.mem_handledOn.mp hy
    have hreq : task.req = w.data := hareq.trans hvdata.symm
    exact ⟨hask ▸ ha, ⟨task, hnumber, hreq, hhandled⟩, hreq ▸ returned_of_handled h hhandled⟩

/-- Over every run in which fewer than 2^32 requests come and no frame on a link
is taken for a part of another: each payload that `fan_out` records for a request
is what `handle` returned, on the connection behind the link it came from, for
the bytes that were sent there under the number of the request, and no other
request has this number. -/
theorem recorded_answers {n : Setup} {s : State} (h : Reach (next n) Unmixed (start n) s)
    (hfew : Daemon.taken s.daemon.log < 2 ^ 32) (r : RequestId) (w : Daemon.Worker)
    (hw : s.daemon.workers[r]? = some w) :
    (∀ l payload, Daemon.Recorded r w.number l payload s.daemon.log →
      Answered n s r w l payload) ∧
    (∀ win ∈ w.wins, Answered n s r w win.1 win.2) ∧
    (∀ e ∈ w.failures, e = [Daemon.CTAP2_ERR_OTHER] ∨ ∃ l, Answered n s r w l e) ∧
    ∀ (q : RequestId) (v : Daemon.Worker), s.daemon.workers[q]? = some v →
      v.number = w.number → q = r := by
  have hsourced := Daemon.sourced_reachable (daemon_run h) hw
  refine ⟨fun l payload => answered_of_recorded h hfew hw, fun win hwin => ?_, fun e he => ?_,
    fun q v hv hnumber => ?_⟩
  · exact answered_of_recorded h hfew hw (hsourced.wins win hwin).1
  · obtain ⟨-, hsource⟩ := hsourced.failures e (List.mem_append_left _ he)
    refine hsource.imp_right fun ⟨l, hrecorded⟩ => ?_
    exact ⟨l, answered_of_recorded h hfew hw hrecorded⟩
  · exact (Daemon.numbered_reachable (daemon_run h)).request hfew hv hw hnumber

/-- One phone, whose connections are those of the links. -/
def onePhone (store : Phone.Store) (keys : List Bytes) : Setup where
  sha := Phone.zeroDigest
  pid := 1
  store _ := store
  keys _ := keys
  far l := (0, l)
  near p c := if p = 0 then some c else none
  near_iff p c l := by
    by_cases hp : p = 0
    · simp [hp, eq_comm]
    · simp [hp, eq_comm]

/-- A connection has a request come in, handles it and sends the reply. -/
def handling (c : Owner) (env : Phone.Env) : List Event :=
  [.phone 0 (.serve c true), .phone 0 (.execute c), .phone 0 (.enter c), .phone 0 (.finish c env),
    .phone 0 (.reply c true)]

/-- A packet on channel 1 with a whole message, and the worker up to its first
write. -/
def asking (r : RequestId) (data : Bytes) : List Event :=
  List.flatten [
    [.daemon (.packet 0 ([0, 0, 0, 1, Daemon.CBOR, 0, UInt8.ofNat data.length] ++ data))],
    List.replicate 6 (.daemon (.hid 0 true)), List.replicate 3 (.daemon (.worker r true))]

/-- A ping on one link is cut off; on the other the phone answers a GET_INFO,
and the answer is polled. -/
def getInfoEvents : List Event :=
  List.flatten [[.daemon (.connect "a".toList 0), .daemon (.connect "b".toList 0),
      .daemon (.stall 1 3 0), .daemon (.ping 1 false)],
    asking 0 [Daemon.GET_INFO], List.replicate 4 (.daemon (.worker 0 true)), [.there 0 100],
    handling 0 (Phone.approving 0),
    [.back 0 100, .daemon (.readLink 0), .daemon (.worker 0 true)]]

theorem getInfo_answered : ∃ s w l payload, Reach (next (onePhone [] [])) Unmixed
      (start (onePhone [] [])) s ∧ s.daemon.workers[0]? = some w ∧ (l, payload) ∈ w.wins ∧
    Answered (onePhone [] []) s 0 w l payload := by
  obtain ⟨s, w, l, payload, hrun, hw, hwins, htaken⟩ : ∃ s w l payload,
      replay (next (onePhone [] [])) Unmixed (start (onePhone [] [])) getInfoEvents = some s ∧
        s.daemon.workers[0]? = some w ∧ w.wins = [(l, payload)] ∧
        Daemon.taken s.daemon.log = 1 :=
    ⟨_, _, _, _, rfl, rfl, rfl, rfl⟩
  have hreach := reach_of_replay hrun
  have hmem : (l, payload) ∈ w.wins := hwins ▸ List.mem_singleton_self _
  exact ⟨s, w, l, payload, hreach, hw, hmem,
    (recorded_answers hreach (by rw [htaken]; decide) 0 w hw).2.1 _ hmem⟩

/-- A request whose data ends with a frame of its own number. -/
def nestedFrame : Bytes :=
  [Daemon.GET_INFO, 0, 0, 0, 6, Daemon.REQ, 0, 0, 0, 2, Daemon.GET_INFO]

/-- The write of a GET_INFO gives up when all of its frame is in the TLS session.
The next request is written over the same session, which takes the first ten
bytes of it for those that it kept. -/
def misreadEvents : List Event :=
  List.flatten [[.daemon (.connect "a".toList 0), .daemon (.stall 0 10 10)],
    asking 0 [Daemon.GET_INFO], [.daemon (.worker 0 false)],
    List.replicate 11 (.daemon (.worker 0 true)), asking 1 nestedFrame,
    List.replicate 4 (.daemon (.worker 1 true)), [.there 0 100], handling 0 (Phone.approving 0),
    handling 0 (Phone.approving 0), [.back 0 1000, .daemon (.readLink 0), .daemon (.readLink 0)],
    List.replicate 4 (.daemon (.worker 1 true))]

/-- The phone answers number 2 for bytes that no request has, and `fan_out`
records this as the success of the second request. -/
theorem misread_recorded : ∃ s w l payload, Reach (next (onePhone [] [])) always
      (start (onePhone [] [])) s ∧ Daemon.taken s.daemon.log < 2 ^ 32 ∧
    s.daemon.workers[1]? = some w ∧ (l, payload) ∈ w.wins ∧
    ¬ Answered (onePhone [] []) s 1 w l payload := by
  have hrun : ((replay (next (onePhone [] [])) always (start (onePhone [] []))
      misreadEvents).any fun s =>
        s.daemon.workers[1]?.map (fun w => (w.data, w.wins.map Prod.fst)) =
            some (nestedFrame, [0]) ∧
          (∀ x ∈ handledOn 0 (s.phone 0).log, x.1.req = [Daemon.GET_INFO]) ∧
          Daemon.taken s.daemon.log = 2) = true := by
    decide +kernel
  obtain ⟨s, hreplay, hfacts⟩ := (Option.any_eq_true ..).mp hrun
  obtain ⟨hworker, hhandled, htaken⟩ := of_decide_eq_true hfacts
  obtain ⟨w, hw, hpair⟩ := Option.map_eq_some_iff.mp hworker
  obtain ⟨hdata, hlinks⟩ := Prod.ext_iff.mp hpair
  obtain ⟨⟨l, payload⟩, hwins, rfl⟩ := List.map_eq_singleton_iff.mp hlinks
  refine ⟨s, w, 0, payload, reach_of_replay hreplay, by rw [htaken]; decide, hw,
    hwins ▸ List.mem_singleton_self _, fun hanswered => ?_⟩
  obtain ⟨task, -, hreq, hmem⟩ := hanswered.handled
  have hlogged : (task, payload) ∈ handledOn 0 (s.phone 0).log :=
    Phone.KeyService.mem_handledOn.mpr hmem
  have hsame : w.data = [Daemon.GET_INFO] := hreq.symm.trans (hhandled _ hlogged)
  have hother : w.data = nestedFrame := hdata
  rw [hother] at hsame
  cases hsame

end Passkey.Network

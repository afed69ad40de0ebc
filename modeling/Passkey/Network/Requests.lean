import Passkey.Library.Streams
import Passkey.Network.System

/-!
From the daemon to a phone. The requests that a connection has read are among
those that were written on its link, in the same order and with the same number
and data, as long as each frame of which something gets through starts where
the one before it ends.
-/

namespace Passkey.Network

open Library

open Daemon (LinkId RequestId Link Ask asks numberBytes)

open Phone (Owner Sha256)

open Phone.KeyService (Conn Task Traffic requested parse)

/-! ### Frames -/

/-- The number and the command that a phone finds in a frame. -/
def asked (body : Bytes) : Option (Bytes × Bytes) :=
  match parse body with
  | .req seqNo req => some (seqNo, req)
  | _ => none

def wireOf (a : Ask) : Bytes × Bytes :=
  (numberBytes a.number, a.data)

def wireOfTask (task : Task) : Bytes × Bytes :=
  (task.seqNo, task.req)

theorem length_numberBytes (number : UInt32) : (numberBytes number).length = 4 := by
  simp [numberBytes]

theorem asked_request (number : UInt32) (data : Bytes) :
    asked (Daemon.request number data) = some (numberBytes number, data) := by
  have hlength := length_numberBytes number
  have htake : (numberBytes number ++ data).take 4 = numberBytes number :=
    List.take_left' hlength
  have hdrop : (numberBytes number ++ data).drop 4 = data := List.drop_left' hlength
  have hping : Daemon.REQ ≠ Phone.KeyService.PING := by decide
  have hcancel : Daemon.REQ ≠ Phone.KeyService.CANCEL := by decide
  simp [asked, parse, Daemon.request, htake, hdrop, hlength, hping, hcancel]

theorem asked_withdrawal (number : UInt32) : asked (Daemon.withdrawal number) = none := by
  have hping : Daemon.CANCEL ≠ Phone.KeyService.PING := by decide
  simp [asked, parse, Daemon.withdrawal, length_numberBytes, hping]

theorem asked_ping : asked [Daemon.PING] = none := by
  rfl

/-! ### What the daemon writes -/

/-- Where bytes of this frame get through, they are the first of it, and no
frame before it was cut off. -/
def Apart (k : Link) (body : Bytes) (ok : Bool) : Prop :=
  k.through body ok ≠ [] → k.torn = false ∧ k.lost = 0

instance (k : Link) (body : Bytes) (ok : Bool) : Decidable (Apart k body ok) :=
  inferInstanceAs (Decidable (k.through body ok ≠ [] → k.torn = false ∧ k.lost = 0))

/-- The frame that an event writes. -/
def writing (s : Daemon.State) : Daemon.Event → Option (LinkId × Daemon.Message × Bool)
  | .worker r ok =>
      s.workers[r]?.bind fun w =>
        match w.pc with
        | .send (l :: _) => some (l, .req r w.number w.data, ok)
        | .withdraw (l :: _) => some (l, .cancel r w.number, ok)
        | _ => none
  | .hid t ok =>
      match s.hid t with
      | .withdraw r (l :: _) _ => s.workers[r]?.map fun w => (l, .cancel r w.number, ok)
      | _ => none
  | .ping l ok => some (l, .ping, ok)
  | _ => none

/-- Of the frame that the event writes nothing gets through, or it comes after
frames that are whole. -/
def Aligned (s : Daemon.State) (e : Daemon.Event) : Prop :=
  ∀ x ∈ writing s e, Apart (s.link x.1) x.2.1.body x.2.2

instance (s : Daemon.State) (e : Daemon.Event) : Decidable (Aligned s e) :=
  inferInstanceAs (Decidable (∀ x ∈ writing s e, Apart (s.link x.1) x.2.1.body x.2.2))

/-- The event of the daemon, where the daemon takes the step. -/
def Event.ofDaemon : Event → Option Daemon.Event
  | .daemon e => some e
  | _ => none

/-- No frame on a link is taken for a part of another: whenever bytes of one get
through, they are its first, and every frame before it got through to its end or
not at all. -/
def Unmixed (s : State) (e : Event) : Prop :=
  ∀ d ∈ e.ofDaemon, Aligned s.daemon d

instance (s : State) (e : Event) : Decidable (Unmixed s e) :=
  inferInstanceAs (Decidable (∀ d ∈ e.ofDaemon, Aligned s.daemon d))

theorem turn_writing {s : Daemon.State} {r : RequestId} {ok b : Bool} {w w' : Daemon.Worker}
    {m : Daemon.Message} {l : LinkId} (hw : s.workers[r]? = some w)
    (h : w.turn s r ok = some (w', .write m l b)) :
    writing s (.worker r ok) = some (l, m, b) := by
  rw [writing, hw, Option.bind_some]
  generalize hact : Daemon.Act.write m l b = act at h
  cases Daemon.turn_cases h with
  | send hpc =>
      rw [Daemon.Worker.turn, hpc] at h
      cases hact
      simp only [Option.ite_none_left_eq_some, Option.some.injEq, Prod.mk.injEq,
        Daemon.Act.write.injEq, true_and] at h
      rw [hpc, h.2.2]
  | withdraw hpc =>
      rw [Daemon.Worker.turn, hpc] at h
      cases hact
      simp only [Option.ite_none_left_eq_some, Option.some.injEq, Prod.mk.injEq,
        Daemon.Act.write.injEq, true_and] at h
      rw [hpc, h.2]
  | judge =>
      unfold Daemon.Worker.judge at hact
      repeat' split at hact
      all_goals cases hact
  | _ => cases hact

theorem hidTurn_writing {s : Daemon.State} {u : Daemon.ThreadId} {ok b : Bool}
    {pc : Daemon.HidPc} {m : Daemon.Message} {l : LinkId}
    (h : (s.hid u).turn s ok = some (pc, .write m l b)) :
    writing s (.hid u ok) = some (l, m, b) := by
  rw [writing]
  generalize hact : Daemon.Act.write m l b = act at h
  generalize s.hid u = before at h ⊢
  cases Daemon.hidStep_cases h with
  | withdraw hw =>
      cases hact
      simp [hw]
  | _ => cases hact

theorem next_writing {s t : Daemon.State} {e : Daemon.Event} (h : Daemon.next s e = some t)
    {x : Daemon.Entry} {m : Daemon.Message} {l : LinkId} {ok : Bool}
    (hlog : t.log = s.log ++ [x]) (hact : x.act = .write m l ok) :
    writing s e = some (l, m, ok) := by
  cases e with
  | worker r b =>
      obtain ⟨⟨w', act⟩, hbind, rfl⟩ := Option.map_eq_some_iff.mp h
      obtain ⟨w, hw, hturn⟩ := Option.bind_eq_some_iff.mp hbind
      obtain rfl := List.singleton_inj.mp (List.append_cancel_left hlog)
      obtain rfl : act = .write m l ok := hact
      exact turn_writing hw hturn
  | hid u b =>
      obtain ⟨⟨pc, act⟩, hturn, rfl⟩ := Option.map_eq_some_iff.mp h
      obtain rfl := List.singleton_inj.mp (List.append_cancel_left hlog)
      obtain rfl : act = .write m l ok := hact
      exact hidTurn_writing hturn
  | _ =>
      -- The other steps are not logged.
      exfalso
      have hsame : t.log = s.log := by
        cases Daemon.step_cases h with
        | begin => rfl
        | outside hout => exact hout.log
      rw [hsame] at hlog
      simp at hlog

/-- What a step of the daemon writes on a link. -/
inductive Writes (s t : Daemon.State) (l : LinkId) : Prop where
  | none (hsent : (t.link l).sent = (s.link l).sent)
      (htorn : (t.link l).torn = (s.link l).torn) (hasks : asks l t.log = asks l s.log)
  | body {body : Bytes} {ok : Bool} (hsent : (t.link l).sent = ((s.link l).write body ok).sent)
      (htorn : (t.link l).torn = ((s.link l).write body ok).torn)
      (hasks : (asks l t.log).map wireOf = (asks l s.log).map wireOf ++ (asked body).toList)
      (hframed : Framed body) (hapart : Apart (s.link l) body ok)

theorem framed_request {number : UInt32} {data : Bytes} (h : data.length ≤ 7609) :
    Framed (Daemon.request number data) := by
  have hlength : (Daemon.request number data).length = 5 + data.length := by
    simp [Daemon.request, length_numberBytes]
    omega
  constructor <;> omega

theorem framed_withdrawal (number : UInt32) : Framed (Daemon.withdrawal number) := by
  have hlength : (Daemon.withdrawal number).length = 5 := by
    simp [Daemon.withdrawal, length_numberBytes]
  constructor <;> omega

theorem framed_ping : Framed [Daemon.PING] := by
  constructor <;> simp

theorem close_sent (k : Link) : k.close.sent = k.sent ∧ k.close.torn = k.torn := by
  unfold Link.close
  split <;> exact ⟨rfl, rfl⟩

theorem hear_sent (k : Link) (body : Bytes) :
    (k.hear body).sent = k.sent ∧ (k.hear body).torn = k.torn := by
  unfold Link.hear
  split <;> exact ⟨rfl, rfl⟩

theorem readLink_sent {k k' : Link} (h : k.readLink = some k') :
    k'.sent = k.sent ∧ k'.torn = k.torn := by
  unfold Link.readLink at h
  split at h
  · split at h
    · cases h
    · cases h
      exact ⟨rfl, rfl⟩
    · cases h
      exact hear_sent ..
  · cases h

/-- The REQ frame of a step that writes one is that of its request. -/
theorem next_sized {s t : Daemon.State} {e : Daemon.Event} (hs : Daemon.Sized s)
    (h : Daemon.next s e = some t) {x : Daemon.Entry} (hlog : t.log = s.log ++ [x])
    {r : Daemon.RequestId} {number : UInt32} {data : Bytes} {l : LinkId} {ok : Bool}
    (hact : x.act = .write (.req r number data) l ok) : data.length ≤ 7609 := by
  rcases (Daemon.step_cases h).req with hsame | ⟨y, hnew, -, hreq⟩
  · rw [hlog] at hsame
    simp at hsame
  · rw [hlog] at hnew
    obtain rfl := List.singleton_inj.mp (List.append_cancel_left hnew)
    obtain ⟨w, rest, hw, -, rfl, -⟩ := hreq _ _ _ _ _ hact
    exact (hs.worker r w hw).2

theorem next_writes {s t : Daemon.State} {e : Daemon.Event} (hs : Daemon.Sized s)
    (hok : Aligned s e) (h : Daemon.next s e = some t) (l : LinkId) : Writes s t l := by
  have hlog {x : Daemon.Entry} (hnew : t.log = s.log ++ [x]) :
      asks l t.log = asks l s.log ++ (x.act.asks l).toList := by
    rw [hnew, Daemon.asks_append, Daemon.asks_single]
  cases Daemon.next_link h l with
  | away hlink hnew =>
      refine .none (by rw [hlink]) (by rw [hlink]) ?_
      rcases hnew with hsame | ⟨x, hnew, haway⟩
      · rw [hsame]
      · simp [hlog hnew, haway.asks]
  | @write actor m ok hlink hnew =>
      have hapart := hok _ (next_writing h hnew rfl)
      cases m with
      | req r number data =>
          refine .body (congrArg Link.sent hlink) (congrArg Link.torn hlink) ?_
            (framed_request (next_sized hs h hnew rfl)) hapart
          simp [hlog hnew, Daemon.Act.asks, Daemon.Message.body, asked_request, wireOf]
      | cancel r number =>
          refine .body (congrArg Link.sent hlink) (congrArg Link.torn hlink) ?_
            (framed_withdrawal number) hapart
          simp [hlog hnew, Daemon.Act.asks, Daemon.Message.body, asked_withdrawal]
      | ping =>
          refine .body (congrArg Link.sent hlink) (congrArg Link.torn hlink) ?_ framed_ping hapart
          simp [hlog hnew, Daemon.Act.asks, Daemon.Message.body, asked_ping]
  | take he hw hpc hqueue hlink hnew =>
      refine .none (by rw [hlink]) (by rw [hlink]) ?_
      simp [hlog hnew, Daemon.Act.asks]
  | ping he hlink hsame =>
      subst he
      refine .body (congrArg Link.sent hlink) (congrArg Link.torn hlink) ?_ framed_ping
        (hok _ rfl)
      simp [hsame, asked_ping]
  | stall he hlink hsame => exact .none (by rw [hlink]) (by rw [hlink]) (by rw [hsame])
  | connect he hlink hsame => exact .none (by rw [hlink]) (by rw [hlink]) (by rw [hsame])
  | close he hlink hsame =>
      obtain ⟨hsent, htorn⟩ := close_sent (s.link l)
      exact .none (by rw [hlink, hsent]) (by rw [hlink, htorn]) (by rw [hsame])
  | receive he hlink hsame => exact .none (by rw [hlink]) (by rw [hlink]) (by rw [hsame])
  | readLink he hread hsame =>
      obtain ⟨hsent, htorn⟩ := readLink_sent hread
      exact .none hsent htorn (by rw [hsame])
  | endRead he hlink hsame => exact .none (by rw [hlink]) (by rw [hlink]) (by rw [hsame])

/-! ### What the phone reads -/

/-- What a step of a phone takes from a connection. -/
inductive Reads (s t : Phone.KeyService.State) (c : Owner) : Prop where
  | none (hreceived : (t.conn c).received = (s.conn c).received)
      (hrequested : requested c t.log = requested c s.log)
  | body {body rest : Bytes}
      (hread : readFrame Phone.KeyService.maxBody (s.conn c).received = .message body rest)
      (hreceived : (t.conn c).received = rest)
      (hrequested : (requested c t.log).map wireOfTask =
        (requested c s.log).map wireOfTask ++ (asked body).toList)

theorem asked_none {body : Bytes} (h : ∀ seqNo req, parse body ≠ .req seqNo req) :
    asked body = none := by
  unfold asked
  split
  · rename_i seqNo req hbody
    exact absurd hbody (h seqNo req)
  · rfl

theorem asked_req {body seqNo req : Bytes} (h : parse body = .req seqNo req) :
    asked body = some (seqNo, req) := by
  simp [asked, h]

theorem write_received (k : Conn) (body : Bytes) (ok : Bool) :
    (k.write body ok).received = k.received := by
  unfold Conn.write
  split <;> rfl

theorem traffic_reads {sha : Sha256} {s t : Phone.KeyService.State} {c : Owner}
    {e : Phone.KeyService.Event} (h : Traffic sha s t c e) (he : ∀ bytes, e ≠ .receive c bytes) :
    Reads s t c := by
  cases h with
  | quiet hconn hlog => exact .none hconn.received hlog.1
  | arrives => exact absurd rfl (he _)
  | drops hconn hlog => exact .none (by rw [hconn]) (by rw [hlog])
  | request hreading hread hbody hconn hlog =>
      refine .body hread (by rw [hconn]) ?_
      rw [hlog, Phone.KeyService.requested_snoc, asked_req hbody]
      simp [Phone.KeyService.Entry.requestOn, wireOfTask]
  | ping hreading hread hbody hconn hlog =>
      refine .body hread (by rw [hconn]; exact write_received ..) ?_
      rw [hlog, asked_none (by simp [hbody])]
      simp
  | skip hreading hread hbody hconn hlog =>
      refine .body hread hconn.received ?_
      rw [hlog.1, asked_none hbody]
      simp
  | @handles env task htask ht =>
      generalize hresult : Phone.handle sha env task.req c s.session.authenticator = result at ht
      have hconn : t.conn c = {s.conn c with worker := .replying task result.1.reply.bytes} := by
        rw [ht]
        exact Phone.KeyService.setConn_same ..
      refine .none (by rw [hconn]) ?_
      rw [ht]
      exact (Phone.KeyService.requested_snoc ..).trans (List.append_nil _)
  | replies hworker hlength hconn hlog =>
      exact .none (by rw [hconn]; exact write_received ..) (by rw [hlog])

theorem receive_log {sha : Sha256} {s t : Phone.KeyService.State} {c : Owner} {bytes : Bytes}
    (h : Phone.KeyService.next sha s (.receive c bytes) = some t) :
    (t.conn c).received = (s.conn c).received ++ bytes ∧
      requested c t.log = requested c s.log := by
  cases h
  exact ⟨congrArg Conn.received (Phone.KeyService.setConn_same ..), rfl⟩

/-! ### A link -/

/-- The frames of which something got through on a link: the phone has taken
`done` and has read the requests among these, and they were written in this
order. Only the last one may have been cut off. -/
structure Outgoing (n : Setup) (s : State) (l : LinkId) (missing : Bytes)
    (done pending : List Bytes) : Prop where
  bytes : Conveys (s.daemon.link l).sent missing (s.far n l).received (s.there l) done pending
  whole : (s.daemon.link l).torn = false → missing = []
  read : (requested (n.far l).2 (s.phone (n.far l).1).log).map wireOfTask = done.filterMap asked
  order : List.Sublist ((done ++ pending).filterMap asked) ((asks l s.daemon.log).map wireOf)

def Linked (n : Setup) (s : State) (l : LinkId) : Prop :=
  ∃ missing done pending, Outgoing n s l missing done pending

theorem linked_start (n : Setup) (l : LinkId) : Linked n (start n) l :=
  ⟨[], [], [], .start, fun _ => rfl, rfl, .slnil⟩

variable {n : Setup} {s t : State} {l : LinkId} {missing : Bytes} {done pending : List Bytes}

/-- What gets through of a frame that comes after whole ones is its beginning. -/
theorem through_append {k : Link} (body : Bytes) (ok : Bool) (hlost : k.lost = 0) :
    ∃ rest, k.through body ok ++ rest = frame body := by
  unfold Link.through
  rw [hlost, List.drop_zero]
  split
  · exact ⟨frame body, rfl⟩
  · split
    · exact ⟨[], List.append_nil _⟩
    · exact ⟨_, List.take_append_drop k.passing (frame body)⟩

/-- The phone did not move, and the daemon wrote on the link or not. -/
theorem Outgoing.written (h : Outgoing n s l missing done pending)
    (hwrites : Writes s.daemon t.daemon l)
    (hphone : t.phone (n.far l).1 = s.phone (n.far l).1)
    (hthere : t.there l = s.there l) : Linked n t l := by
  have hfar : t.far n l = s.far n l := by simp [State.far, hphone]
  have hread : (requested (n.far l).2 (t.phone (n.far l).1).log).map wireOfTask =
      done.filterMap asked := by
    rw [hphone]
    exact h.read
  cases hwrites with
  | none hsent htorn hasks =>
      refine ⟨missing, done, pending, ?_, ?_, hread, ?_⟩
      · rw [hsent, hfar, hthere]
        exact h.bytes
      · rw [htorn]
        exact h.whole
      · rw [hasks]
        exact h.order
  | @body body ok hsent htorn hasks hframed hapart =>
      by_cases hthrough : (s.daemon.link l).through body ok = []
      · refine ⟨missing, done, pending, ?_, ?_, hread, ?_⟩
        · rw [hsent, Link.write, hthrough, List.append_nil, hfar, hthere]
          exact h.bytes
        · rw [htorn]
          intro huntorn
          exact h.whole (Bool.or_eq_false_iff.mp huntorn).1
        · rw [hasks]
          exact h.order.trans (List.sublist_append_left ..)
      · obtain ⟨huntorn, hlost⟩ := hapart hthrough
        obtain ⟨rest, hrest⟩ := through_append body ok hlost
        have hbytes := h.bytes
        rw [h.whole huntorn] at hbytes
        refine ⟨rest, done, pending ++ [body], ?_, ?_, hread, ?_⟩
        · rw [hsent, hfar, hthere]
          exact hbytes.write hframed hrest
        · rw [htorn]
          intro hkept
          -- A frame that left the link untorn got through to its end.
          have hwhole : (s.daemon.link l).through body ok = frame body := by
            simpa [Link.write, huntorn, hthrough] using hkept
          rw [hwhole] at hrest
          exact List.append_right_eq_self.mp hrest
        · have hlast : [body].filterMap asked = (asked body).toList := by
            cases hbody : asked body <;> simp [hbody]
          rw [hasks, ← List.append_assoc, List.filterMap_append, hlast]
          exact h.order.append (.refl _)

/-- The daemon did not move, and the phone read a frame from the link or not. -/
theorem Outgoing.taken (h : Outgoing n s l missing done pending)
    (hreads : Reads (s.phone (n.far l).1) (t.phone (n.far l).1) (n.far l).2)
    (hdaemon : t.daemon = s.daemon) (hthere : t.there l = s.there l) : Linked n t l := by
  cases hreads with
  | none hreceived hrequested =>
      refine ⟨missing, done, pending, ?_, ?_, ?_, ?_⟩
      · rw [hdaemon, hthere, State.far, hreceived]
        exact h.bytes
      · rw [hdaemon]
        exact h.whole
      · rw [hrequested]
        exact h.read
      · rw [hdaemon]
        exact h.order
  | @body body rest hread hreceived hrequested =>
      obtain ⟨more, rfl, hbytes⟩ := h.bytes.read hread
      have hsame : done ++ [body] ++ more = done ++ body :: more := by simp
      refine ⟨missing, done ++ [body], more, ?_, ?_, ?_, ?_⟩
      · rw [hdaemon, hthere, State.far, hreceived]
        exact hbytes
      · rw [hdaemon]
        exact h.whole
      · rw [hrequested, h.read, List.filterMap_append]
        cases hbody : asked body <;> simp [hbody]
      · rw [hdaemon, hsame]
        exact h.order

/-- Bytes arrived at the phone. -/
theorem Outgoing.arrived (h : Outgoing n s l missing done pending) {k : Nat}
    (hreceived : (t.far n l).received = (s.far n l).received ++ s.arrivingThere l k)
    (hrequested : requested (n.far l).2 (t.phone (n.far l).1).log =
      requested (n.far l).2 (s.phone (n.far l).1).log)
    (hdaemon : t.daemon = s.daemon)
    (hthere : t.there l = s.there l + (s.arrivingThere l k).length) : Linked n t l := by
  refine ⟨missing, done, pending, ?_, ?_, ?_, ?_⟩
  · rw [hdaemon, hreceived, hthere]
    exact h.bytes.arrive k
  · rw [hdaemon]
    exact h.whole
  · rw [hrequested]
    exact h.read
  · rw [hdaemon]
    exact h.order

theorem next_writing_on {e : Event} (hs : Daemon.Sized s.daemon) (hok : Unmixed s e)
    (h : next n s e = some t) (l : LinkId) : Writes s.daemon t.daemon l := by
  cases e with
  | daemon e =>
      obtain ⟨-, heq⟩ := Option.ite_none_left_eq_some.mp h
      obtain ⟨d, hnext, rfl⟩ := Option.map_eq_some_iff.mp heq
      exact next_writes hs (hok e rfl) hnext l
  | back m k =>
      simp only [next, Option.map_eq_some_iff] at h
      obtain ⟨d, hnext, rfl⟩ := h
      exact next_writes hs (by simp [Aligned, writing]) hnext l
  | phone p e =>
      obtain ⟨-, heq⟩ := Option.ite_none_left_eq_some.mp h
      obtain ⟨u, -, rfl⟩ := Option.map_eq_some_iff.mp heq
      exact .none rfl rfl rfl
  | there m k =>
      simp only [next, Option.map_eq_some_iff] at h
      obtain ⟨u, -, rfl⟩ := h
      exact .none rfl rfl rfl

theorem Linked.step {e : Event} (hs : Daemon.Sized s.daemon) (h : Linked n s l)
    (hok : Unmixed s e) (hnext : next n s e = some t) : Linked n t l := by
  obtain ⟨missing, done, pending, h⟩ := h
  cases (step_cases hnext).farStep l with
  | same hphone hthere => exact h.written (next_writing_on hs hok hnext l) hphone hthere
  | own he hmoved hthere hdaemon =>
      exact h.taken (traffic_reads (Phone.KeyService.traffic_cases hmoved _) he) hdaemon hthere
  | arrived hmoved hthere hdaemon =>
      obtain ⟨hreceived, hrequested⟩ := receive_log hmoved
      exact h.arrived hreceived hrequested hdaemon hthere

theorem linked_reachable (h : Reach (next n) Unmixed (start n) s) (l : LinkId) :
    Linked n s l := by
  induction h with
  | refl => exact linked_start n l
  | tail hrun hok hnext ih =>
      exact ih.step (Daemon.sized_reachable (daemon_run hrun)) hok hnext

end Passkey.Network

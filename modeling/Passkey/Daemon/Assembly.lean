import Passkey.Daemon.Turns
import Passkey.Library.Hid

/-!
Messages from the host. `packet` keeps one partial message for each channel;
the packets of a message are put together however packets of other channels
come between them.
-/

namespace Passkey.Daemon

open Library

/-! ### Channels -/

/-- The channel that `packet` reads, where the packet is long enough. -/
def packetChannel : Bytes → Option UInt32
  | c0 :: c1 :: c2 :: c3 :: _ :: _ => some (UInt32.ofNat (ofBigEndian [c0, c1, c2, c3]))
  | _ => none

def Cause.channel : Cause → Option UInt32
  | .init channel _ => some channel
  | _ => none

/-- The channel whose partial message the thread may still change. -/
def HidPc.assembling : HidPc → Option UInt32
  | .reset channel _ | .busyCheck channel _ | .insert channel _ | .continuation channel _ _
  | .complete channel => some channel
  | .cancel _ cause | .lock _ cause | .withdraw _ _ cause => cause.channel
  | _ => none

/-- No thread handles a packet of the channel. -/
def State.untouched (s : State) (channel : UInt32) : Prop :=
  ∀ u, (s.hid u).assembling ≠ some channel

theorem assembling_next (cause : Cause) : cause.next.assembling = cause.channel := by
  cases cause <;> rfl

theorem assembling_dispatch (s : State) (channel : UInt32) (command : UInt8) (data : Bytes) :
    (s.dispatch channel command data).assembling = none := by
  unfold State.dispatch
  repeat' split
  all_goals rfl

theorem assembling_packet (bytes : Bytes) :
    (packet bytes).assembling = none ∨ (packet bytes).assembling = packetChannel bytes := by
  unfold packet initPacket
  repeat' split
  all_goals first | exact .inl rfl | exact .inr rfl

/-- A reader stays with its channel until it is done, and sets no partial
message but that of its channel. -/
theorem hidTurn_assembling {s : State} {ok : Bool} {pc pc' : HidPc} {act : Act}
    (h : pc.turn s ok = some (pc', act)) :
    (pc'.assembling = none ∨ pc'.assembling = pc.assembling) ∧
      ∀ channel p, act = .setPartial channel p → pc.assembling = some channel := by
  have hpass {P : UInt32 → Option Partial → Prop} {act : Act}
      (hact : ∀ c p, act ≠ .setPartial c p) :
      ∀ channel p, act = .setPartial channel p → P channel p :=
    fun channel p heq => absurd heq (hact channel p)
  have hset {pc : HidPc} {c : UInt32} {q : Option Partial} (hpc : pc.assembling = some c) :
      ∀ channel p, Act.setPartial c q = .setPartial channel p → pc.assembling = some channel :=
    fun channel p heq => (Act.setPartial.inj heq).1 ▸ hpc
  cases hidStep_cases h with
  | reset | insert | extend => exact ⟨.inr rfl, hset rfl⟩
  | misnumbered | whole => exact ⟨.inl rfl, hset rfl⟩
  | unmatched | withdrawn => exact ⟨.inr (assembling_next _), hpass (by simp)⟩
  | cancel | abandon | lock | withdraw | here => exact ⟨.inr rfl, hpass (by simp)⟩
  | dispatch => exact ⟨.inl (assembling_dispatch ..), hpass (by simp)⟩
  | @report first rest =>
      refine ⟨.inl ?_, hpass (by simp)⟩
      cases rest <;> rfl
  | _ => exact ⟨.inl rfl, hpass (by simp)⟩

theorem perform_partials {s : State} {actor : Actor} {act : Act} {channel : UInt32}
    (h : ∀ p, act ≠ .setPartial channel p) :
    (s.perform actor act).partials channel = s.partials channel := by
  cases act with
  | setPartial c p =>
      refine Function.update_of_ne ?_ ..
      rintro rfl
      exact h p rfl
  | _ => rfl

/-! ### One channel among others -/

/-- No packet of the channel arrives. -/
def Elsewhere (channel : UInt32) (_ : State) (e : Event) : Prop :=
  ∀ u bytes, e = .packet u bytes → packetChannel bytes ≠ some channel

/-- A step that leaves the partial message of a channel, and the threads that
do not handle the channel, as they are. -/
structure Spares (channel : UInt32) (s t : State) : Prop where
  partials : t.partials channel = s.partials channel
  threads : ∀ u, (s.hid u).assembling ≠ some channel → (t.hid u).assembling ≠ some channel

theorem turn_partials {s : State} {r : RequestId} {w w' : Worker} {act : Act} (h : Turn s r w w' act)
    (actor : Actor) : (s.perform actor act).partials = s.partials := by
  cases turn_own h <;> rfl

/-- A step of any thread but one that handles the channel. -/
theorem next_spares {s t : State} {e : Event} {channel : UInt32} (hnext : next s e = some t)
    (helsewhere : Elsewhere channel s e)
    (hthread : ∀ u ok, e = .hid u ok → (s.hid u).assembling ≠ some channel) :
    Spares channel s t := by
  cases step_cases hnext with
  | @worker r ok w w' act hw hturn =>
      exact ⟨congrFun (turn_partials hturn (.worker r)) channel, fun u hu => by simpa using hu⟩
  | @hid u ok pc act _ hrun =>
      obtain ⟨hpc, hact⟩ := hidTurn_assembling hrun
      have hu := hthread u ok rfl
      refine ⟨?_, fun v hv => ?_⟩
      · exact @perform_partials s (.hid u) act channel fun p heq => hu (hact channel p heq)
      · rw [setHid_hid]
        split
        · rcases hpc with hnone | hsame
          · simp [hnone]
          · exact hsame ▸ hu
        · rwa [perform_hid]
  | @begin _ u pc hidle hopening =>
      refine ⟨rfl, fun v hv => ?_⟩
      rw [setHid_hid]
      split
      · rcases hopening with ⟨bytes, rfl, rfl⟩ | ⟨-, rfl⟩
        · rcases assembling_packet bytes with hnone | hsame
          · simp [hnone]
          · exact hsame ▸ helsewhere u bytes rfl
        · exact nofun
      · exact hv
  | outside hout => exact ⟨congrFun hout.partials channel, fun u hu => by rwa [hout.hid]⟩

/-- Packets of other channels leave the partial message of a channel as it is. -/
theorem partials_kept {s t : State} {channel : UInt32} (hstart : s.untouched channel)
    (hrun : Reach next (Elsewhere channel) s t) :
    t.partials channel = s.partials channel ∧ t.untouched channel := by
  refine hrun.invariant (I := fun t => t.partials channel = s.partials channel ∧
    t.untouched channel) ⟨rfl, hstart⟩ fun t e u ⟨hkept, hfree⟩ hok hnext => ?_
  have hspares := next_spares hnext hok fun v _ _ => hfree v
  exact ⟨hspares.partials.trans hkept, fun v => hspares.threads v (hfree v)⟩

/-! ### One message -/

/-- What a run shows of a message: how many of its packets arrived, and the
calls of `dispatch` for its channel. -/
structure Delivery where
  sent : Nat := 0
  dispatched : List (UInt8 × Bytes) := []

/-- The call of `dispatch` that the step makes for the channel. -/
def dispatchOn (channel : UInt32) : HidPc → HidPc → List (UInt8 × Bytes)
  | .complete _, .dispatch c command data => if c = channel then [(command, data)] else []
  | _, _ => []

def observeMessage (channel : UInt32) (s : State) (e : Event) (t : State) (g : Delivery) :
    Delivery :=
  match e with
  | .packet _ bytes => if packetChannel bytes = some channel then {g with sent := g.sent + 1} else g
  | .hid u _ => {g with dispatched := g.dispatched ++ dispatchOn channel (s.hid u) (t.hid u)}
  | _ => g

/-- The thread looks whether a request of another channel is busy. -/
def HidPc.looks (channel : UInt32) : HidPc → Bool
  | .busyCheck c _ => c = channel
  | _ => false

/-- On the channel of the message its packets arrive, in order and at one
thread, and nothing else; no request of another channel is busy when the first
is looked at. -/
def Carries (thread : ThreadId) (m : Hid.Message) (x : State × Delivery) (e : Event) : Prop :=
  match e with
  | .packet u bytes => packetChannel bytes = some m.channel →
      u = thread ∧ m.packets[x.2.sent]? = some bytes
  | .hid u _ => (x.1.hid u).looks m.channel = true → x.1.busyElsewhere m.channel = false
  | _ => True

instance (thread : ThreadId) (m : Hid.Message) (x : State × Delivery) (e : Event) :
    Decidable (Carries thread m x e) :=
  match e with
  | .packet u bytes => inferInstanceAs (Decidable (packetChannel bytes = some m.channel →
      u = thread ∧ m.packets[x.2.sent]? = some bytes))
  | .hid u _ => inferInstanceAs (Decidable
      ((x.1.hid u).looks m.channel = true → x.1.busyElsewhere m.channel = false))
  | .uhidClose _ | .worker .. | .ping .. | .stall .. | .connect .. | .close _ | .remove _
  | .receive .. | .readLink _ | .endRead _ | .choose _ | .tick _ => .isTrue trivial

/-- What `packet` has of the message after the first packet and `k` more. -/
def partialAfter (m : Hid.Message) (k : Nat) : Partial where
  command := m.command
  total := m.payload.length
  data := m.payload.take (57 + 59 * k)
  nextSequence := UInt8.ofNat k

/-- Where the thread is with the message, after so many packets. -/
inductive Phase (m : Hid.Message) (pc : HidPc) (p : Option Partial) :
    Nat → List (UInt8 × Bytes) → Prop where
  | waiting (hpc : pc.assembling ≠ some m.channel) : Phase m pc p 0 []
  | first (hpc : pc = .busyCheck m.channel (partialAfter m 0) ∨
      pc = .insert m.channel (partialAfter m 0)) : Phase m pc p 1 []
  | next {k : Nat} (hpc : pc = .continuation m.channel (UInt8.ofNat k)
        (Hid.fill 59 ((m.payload.drop (57 + 59 * k)).take 59)))
      (hp : p = some (partialAfter m k)) (hk : k < m.continuations) : Phase m pc p (k + 2) []
  | added {k : Nat} (hpc : pc = .complete m.channel) (hp : p = some (partialAfter m k))
      (hk : k ≤ m.continuations) : Phase m pc p (k + 1) []
  | between {k : Nat} (hpc : pc.assembling ≠ some m.channel) (hp : p = some (partialAfter m k))
      (hk : k < m.continuations) : Phase m pc p (k + 1) []
  | dispatched (hpc : pc.assembling ≠ some m.channel) :
      Phase m pc p (m.continuations + 1) [(m.command, m.payload)]

/-- The messages that `packet` takes as they are. -/
structure Accepted (m : Hid.Message) : Prop where
  command : m.command &&& 0x80 ≠ 0
  init : m.command ≠ INIT
  cancel : m.command ≠ CANCEL_CMD
  payload : m.payload.length ≤ 7609

theorem packet_first {m : Hid.Message} (h : Accepted m) :
    packet m.first = .busyCheck m.channel (partialAfter m 0) := by
  have htotal : ofBigEndian (bigEndian 2 m.payload.length) = m.payload.length :=
    ofBigEndian_bigEndian (lt_of_le_of_lt h.payload (by decide))
  have hpacket : packet m.first =
      initPacket (UInt32.ofNat (ofBigEndian (bigEndian 4 m.channel.toNat))) m.command
        (ofBigEndian (bigEndian 2 m.payload.length)) (Hid.fill 57 (m.payload.take 57)) :=
    if_pos h.command
  rw [hpacket, Hid.ofNat_ofBigEndian, htotal, initPacket, if_neg (Nat.not_lt.mpr h.payload),
    if_neg h.cancel, if_neg h.init, m.take_first]
  rfl

theorem packet_continuation {m : Hid.Message} {k : Nat} (hk : k < 128) :
    packet (m.continuation k) = .continuation m.channel (UInt8.ofNat k)
      (Hid.fill 59 ((m.payload.drop (57 + 59 * k)).take 59)) := by
  have hpacket : packet (m.continuation k) =
      .continuation (UInt32.ofNat (ofBigEndian (bigEndian 4 m.channel.toNat))) (UInt8.ofNat k)
        (Hid.fill 59 ((m.payload.drop (57 + 59 * k)).take 59)) :=
    if_neg (not_not.mpr (Hid.Message.number_lt hk))
  rw [hpacket, Hid.ofNat_ofBigEndian]

/-- The next packet of the message comes to the thread. -/
theorem Phase.arrives {m : Hid.Message} (h : Accepted m) {p : Option Partial} {n : Nat}
    {dispatched : List (UInt8 × Bytes)} (hphase : Phase m .idle p n dispatched) {bytes : Bytes}
    (hbytes : m.packets[n]? = some bytes) : Phase m (packet bytes) p (n + 1) dispatched := by
  cases hphase with
  | waiting =>
      obtain rfl : m.first = bytes := Option.some.inj hbytes
      exact .first (.inl (packet_first h))
  | @between k _ hp hk =>
      rw [Hid.Message.packets, List.getElem?_cons_succ, List.getElem?_map,
        List.getElem?_range hk] at hbytes
      obtain rfl : m.continuation k = bytes := Option.some.inj hbytes
      have hshort : k < 128 := by
        have hlt := Hid.Message.lt_continuations.mp hk
        have hlength := h.payload
        omega
      exact .next (packet_continuation hshort) hp hk
  | dispatched =>
      rw [Hid.Message.packets, List.getElem?_cons_succ, List.getElem?_map,
        List.getElem?_eq_none (by simp)] at hbytes
      cases hbytes
  | first hpc => rcases hpc with heq | heq <;> cases heq
  | next hpc => cases hpc
  | added hpc => cases hpc

/-- How many steps the thread takes until it is done with a packet of a
message. -/
def HidPc.toGo : HidPc → Nat
  | .busyCheck .. => 3
  | .insert .. | .continuation .. => 2
  | .complete _ => 1
  | _ => 0

/-- While the thread is with the message, its next step is there to take, and
is the one that `packet` takes. -/
theorem Phase.turn {m : Hid.Message} {s : State} {actor : Actor} {pc : HidPc}
    {n : Nat} {dispatched : List (UInt8 × Bytes)} {ok : Bool}
    (hphase : Phase m pc (s.partials m.channel) n dispatched)
    (hmine : pc.assembling = some m.channel)
    (hlooks : pc.looks m.channel = true → s.busyElsewhere m.channel = false) :
    ∃ pc' act, pc.turn s ok = some (pc', act) ∧ pc'.looks m.channel = false ∧
      pc'.toGo < pc.toGo ∧
      Phase m pc' ((s.perform actor act).partials m.channel) n
        (dispatched ++ dispatchOn m.channel pc pc') := by
  cases hphase with
  | waiting hpc => exact absurd hmine hpc
  | between hpc => exact absurd hmine hpc
  | dispatched hpc => exact absurd hmine hpc
  | first hpc =>
      rcases hpc with rfl | rfl
      · have hidle := hlooks (decide_eq_true rfl)
        exact ⟨_, _, if_neg (by simp [hidle]), rfl, Nat.lt_succ_self 2, .first (.inr rfl)⟩
      · exact ⟨_, _, rfl, rfl, Nat.lt_succ_self 1,
          .added rfl (Function.update_self ..) (Nat.zero_le _)⟩
  | @next k hpc hp hk =>
      have hlt := Hid.Message.lt_continuations.mp hk
      have hdata := Hid.Message.length_data (Nat.le_of_lt hlt)
      subst hpc
      refine ⟨.complete m.channel, .setPartial m.channel (some (partialAfter m (k + 1))), ?_, rfl,
        Nat.lt_succ_self 1, .added rfl (Function.update_self ..) hk⟩
      simp only [HidPc.turn, hp, partialAfter, ne_eq, not_true_eq_false, ↓reduceIte,
        Option.some.injEq, Prod.mk.injEq, Act.setPartial.injEq, Partial.mk.injEq, true_and]
      refine ⟨?_, (UInt8.ofNat_add k 1).symm⟩
      rw [Hid.Message.after] at hdata
      rw [hdata, Hid.Message.take_continuation]
  | @added k hpc hp hk =>
      subst hpc
      by_cases hlast : k = m.continuations
      · subst hlast
        have hwhole : m.payload.take (57 + 59 * m.continuations) = m.payload := by
          refine List.take_of_length_le ?_
          unfold Hid.Message.continuations
          omega
        refine ⟨.dispatch m.channel m.command m.payload, .setPartial m.channel none, ?_, rfl,
          Nat.lt_succ_self 0, ?_⟩
        · simp [HidPc.turn, hp, partialAfter, hwhole]
        · simp only [dispatchOn, ↓reduceIte, List.nil_append]
          exact .dispatched (by simp [HidPc.assembling])
      · have hless : k < m.continuations := Nat.lt_of_le_of_ne hk hlast
        have hlt := Hid.Message.lt_continuations.mp hless
        refine ⟨.idle, .pass, ?_, rfl, Nat.lt_succ_self 0,
          .between (by simp [HidPc.assembling]) hp hless⟩
        have hdata := Hid.Message.length_data (Nat.le_of_lt hlt)
        rw [Hid.Message.after] at hdata
        simp only [HidPc.turn, hp, partialAfter, hdata]
        exact if_neg (Nat.not_le.mpr hlt)

theorem Phase.spared {m : Hid.Message} {pc pc' : HidPc} {p : Option Partial} {n : Nat}
    {dispatched : List (UInt8 × Bytes)} (h : Phase m pc p n dispatched)
    (hpc : pc.assembling ≠ some m.channel) (hpc' : pc'.assembling ≠ some m.channel) :
    Phase m pc' p n dispatched := by
  cases h with
  | waiting => exact .waiting hpc'
  | between _ hp hk => exact .between hpc' hp hk
  | dispatched => exact .dispatched hpc'
  | first heq => rcases heq with rfl | rfl <;> exact absurd rfl hpc
  | next heq => exact absurd (heq ▸ rfl) hpc
  | added heq => exact absurd (heq ▸ rfl) hpc

/-! ### Every run -/

structure Carrying (thread : ThreadId) (m : Hid.Message) (s : State) (g : Delivery) : Prop where
  phase : Phase m (s.hid thread) (s.partials m.channel) g.sent g.dispatched
  others : ∀ u, u ≠ thread → (s.hid u).assembling ≠ some m.channel

theorem dispatchOn_other {s : State} {ok : Bool} {pc pc' : HidPc} {act : Act} {channel : UInt32}
    (h : pc.turn s ok = some (pc', act)) (hpc : pc.assembling ≠ some channel) :
    dispatchOn channel pc pc' = [] := by
  cases hidStep_cases h with
  | @whole c =>
      have hc : c ≠ channel := fun heq => hpc (heq ▸ rfl)
      simp [dispatchOn, hc]
  | _ => rfl

/-- A thread moves in its own steps only. -/
theorem next_hid {s t : State} {e : Event} {u : ThreadId} (hnext : next s e = some t)
    (hbusy : s.isIdle u = false) (he : ∀ ok, e ≠ .hid u ok) : t.hid u = s.hid u := by
  cases step_cases hnext with
  | worker => simp
  | @hid v ok =>
      rw [setHid_hid, if_neg, perform_hid]
      rintro rfl
      exact he ok rfl
  | @begin _ v pc hidle =>
      rw [setHid_hid, if_neg]
      rintro rfl
      simp [State.isIdle, hidle] at hbusy
  | outside hout => rw [hout.hid]

theorem Carrying.spared {thread : ThreadId} {m : Hid.Message} {s t : State} {g : Delivery}
    {e : Event} (h : Carrying thread m s g) (hnext : next s e = some t)
    (hspares : Spares m.channel s t)
    (he : (s.hid thread).assembling = some m.channel → ∀ ok, e ≠ .hid thread ok) :
    Carrying thread m t g := by
  refine ⟨?_, fun u hu => hspares.threads u (h.others u hu)⟩
  rw [hspares.partials]
  by_cases hmine : (s.hid thread).assembling = some m.channel
  · have hbusy : s.isIdle thread = false := by
      refine Bool.eq_false_of_not_eq_true fun hidle => ?_
      rw [isIdle_iff hidle] at hmine
      cases hmine
    rw [next_hid hnext hbusy (he hmine)]
    exact h.phase
  · exact h.phase.spared hmine (hspares.threads thread hmine)

theorem Carrying.step {thread : ThreadId} {m : Hid.Message} (haccepted : Accepted m) {s t : State}
    {g : Delivery} {e : Event} (h : Carrying thread m s g) (hok : Carries thread m (s, g) e)
    (hnext : next s e = some t) :
    Carrying thread m t (observeMessage m.channel s e t g) := by
  have hquiet (helsewhere : Elsewhere m.channel s e)
      (he : ∀ u ok, e ≠ .hid u ok) : Carrying thread m t g :=
    h.spared hnext (next_spares hnext helsewhere fun u ok heq => absurd heq (he u ok))
      fun _ ok => he thread ok
  cases e with
  | packet u bytes =>
      simp only [observeMessage]
      split
      · rename_i hchannel
        obtain ⟨rfl, hbytes⟩ := hok hchannel
        obtain ⟨hidle, heq⟩ := Option.ite_none_right_eq_some.mp hnext
        cases heq
        refine ⟨?_, fun v hv => ?_⟩
        · have hphase := h.phase
          rw [isIdle_iff hidle] at hphase
          rw [setHid_hid, if_pos rfl]
          exact hphase.arrives haccepted hbytes
        · rw [setHid_hid, if_neg hv]
          exact h.others v hv
      · rename_i hchannel
        refine hquiet (fun v b heq => ?_) fun v ok heq => by cases heq
        obtain ⟨-, rfl⟩ := Event.packet.inj heq
        exact hchannel
  | hid u ok =>
      simp only [observeMessage]
      by_cases hmine : (s.hid u).assembling = some m.channel
      · obtain rfl : u = thread := by
          by_contra hu
          exact h.others u hu hmine
        obtain ⟨pc', act, hturn, -, -, hphase⟩ :=
          @Phase.turn m s (.hid u) _ _ _ ok h.phase hmine hok
        have ht : t = (s.perform (.hid u) act).setHid u pc' := by
          have hstep : next s (.hid u ok) = some ((s.perform (.hid u) act).setHid u pc') :=
            Option.map_eq_some_iff.mpr ⟨_, hturn, rfl⟩
          exact Option.some.inj (hnext.symm.trans hstep)
        subst ht
        refine ⟨?_, fun v hv => ?_⟩
        · simp only [setHid_hid, ↓reduceIte]
          exact hphase
        · rw [setHid_hid, if_neg hv, perform_hid]
          exact h.others v hv
      · have hspares : Spares m.channel s t := by
          refine next_spares hnext (fun v b heq => by cases heq) fun v ok' heq => ?_
          obtain ⟨rfl, -⟩ := Event.hid.inj heq
          exact hmine
        have hnone : dispatchOn m.channel (s.hid u) (t.hid u) = [] := by
          obtain ⟨⟨pc', act⟩, hturn, rfl⟩ := Option.map_eq_some_iff.mp hnext
          simpa [setHid_hid] using dispatchOn_other hturn hmine
        rw [hnone, List.append_nil]
        refine h.spared hnext hspares fun hthread ok' heq => ?_
        obtain ⟨rfl, -⟩ := Event.hid.inj heq
        exact hmine hthread
  | _ => exact hquiet (fun v b heq => by cases heq) fun v ok heq => by cases heq

/-- A thread that is not with the message when all packets are there is done
with it. -/
theorem Phase.dispatched_of_sent {m : Hid.Message} {pc : HidPc} {p : Option Partial} {n : Nat}
    {dispatched : List (UInt8 × Bytes)} (h : Phase m pc p n dispatched)
    (hn : n = m.continuations + 1) (hpc : pc.assembling ≠ some m.channel) :
    dispatched = [(m.command, m.payload)] := by
  cases h with
  | waiting => cases hn
  | between _ _ hk => exact absurd (Nat.succ.inj hn) (Nat.ne_of_lt hk)
  | dispatched => rfl
  | first heq => rcases heq with rfl | rfl <;> exact absurd rfl hpc
  | next heq => exact absurd (heq ▸ rfl) hpc
  | added heq => exact absurd (heq ▸ rfl) hpc

/-- The thread alone comes to the call of `dispatch` once all packets are there. -/
theorem Carrying.finishes {thread : ThreadId} {m : Hid.Message} (haccepted : Accepted m)
    (n : Nat) {s : State} {g : Delivery} (h : Carrying thread m s g)
    (hsent : g.sent = m.continuations + 1)
    (hlooks : (s.hid thread).looks m.channel = true → s.busyElsewhere m.channel = false)
    (hn : (s.hid thread).toGo ≤ n) :
    ∃ y, Reach (watch next (observeMessage m.channel)) (Carries thread m) (s, g) y ∧
      y.2.dispatched = [(m.command, m.payload)] := by
  induction n generalizing s g with
  | zero =>
      refine ⟨_, .refl, h.phase.dispatched_of_sent hsent fun hmine => ?_⟩
      obtain ⟨_, _, _, _, hless, _⟩ :=
        @Phase.turn m s (.hid thread) _ _ _ true h.phase hmine hlooks
      exact absurd (hless.trans_le hn) (Nat.not_lt_zero _)
  | succ n ih =>
      by_cases hmine : (s.hid thread).assembling = some m.channel
      · obtain ⟨pc, act, hturn, hquiet, hless, -⟩ :=
          @Phase.turn m s (.hid thread) _ _ _ true h.phase hmine hlooks
        have hstep : next s (.hid thread true) =
            some ((s.perform (.hid thread) act).setHid thread pc) :=
          Option.map_eq_some_iff.mpr ⟨_, hturn, rfl⟩
        have hpc : ((s.perform (.hid thread) act).setHid thread pc).hid thread = pc := by
          rw [setHid_hid, if_pos rfl]
        have hafter := h.step haccepted (e := .hid thread true) hlooks hstep
        obtain ⟨y, hrun, hy⟩ := ih hafter hsent
          (fun hpc' => by rw [hpc, hquiet] at hpc'; cases hpc')
          (by rw [hpc]; exact Nat.le_of_lt_succ (hless.trans_le hn))
        have hfirst : Reach (watch next (observeMessage m.channel)) (Carries thread m) (s, g) _ :=
          .tail (e := .hid thread true) .refl hlooks (Option.map_eq_some_iff.mpr ⟨_, hstep, rfl⟩)
        exact ⟨y, hfirst.trans hrun, hy⟩
      · exact ⟨_, .refl, h.phase.dispatched_of_sent hsent hmine⟩

/-- What a run in which the packets of a message arrive shows of `dispatch`. -/
structure DispatchedOnce (thread : ThreadId) (m : Hid.Message) (x : State × Delivery) : Prop where
  /-- Not before the last packet. -/
  early : x.2.sent < m.packets.length → x.2.dispatched = []
  /-- At most once, with the command and the payload of the message. -/
  only : x.2.dispatched = [] ∨ x.2.dispatched = [(m.command, m.payload)]
  /-- Once when the thread is done with the last packet. -/
  done : x.2.sent = m.packets.length → (x.1.hid thread).assembling ≠ some m.channel →
    x.2.dispatched = [(m.command, m.payload)]
  /-- Nothing holds the thread up in it. -/
  finishes : x.2.sent = m.packets.length →
    ((x.1.hid thread).looks m.channel = true → x.1.busyElsewhere m.channel = false) →
    ∃ y, Reach (watch next (observeMessage m.channel)) (Carries thread m) x y ∧
      y.2.dispatched = [(m.command, m.payload)]

theorem Carrying.once {thread : ThreadId} {m : Hid.Message} (haccepted : Accepted m) {s : State}
    {g : Delivery} (h : Carrying thread m s g) : DispatchedOnce thread m (s, g) := by
  have hlength : m.packets.length = m.continuations + 1 := by simp [Hid.Message.packets]
  have hphase := h.phase
  refine ⟨fun hearly => ?_, ?_, fun hsent hpc => ?_, fun hsent hlooks => ?_⟩
  · rw [hlength] at hearly
    generalize g.sent = n at hphase hearly
    generalize g.dispatched = dispatched at hphase ⊢
    cases hphase with
    | dispatched => exact absurd hearly (Nat.lt_irrefl _)
    | _ => rfl
  · generalize g.dispatched = dispatched at hphase ⊢
    generalize g.sent = n at hphase
    cases hphase with
    | dispatched => exact .inr rfl
    | _ => exact .inl rfl
  · exact hphase.dispatched_of_sent (hsent.trans hlength) hpc
  · refine h.finishes haccepted 3 (hsent.trans hlength) hlooks ?_
    cases s.hid thread <;> simp [HidPc.toGo]

/-- A message is dispatched once, when its last packet is handled, however its
packets and those of other channels come together; and packets of one channel
change no partial message of another. -/
theorem message_dispatched {thread : ThreadId} {m : Hid.Message} (haccepted : Accepted m)
    {s : State} (hstart : s.untouched m.channel) {x : State × Delivery}
    (hrun : Reach (watch next (observeMessage m.channel)) (Carries thread m) (s, {}) x) :
    DispatchedOnce thread m x ∧
      ∀ (channel : UInt32) (u v : State), u.untouched channel →
        Reach next (Elsewhere channel) u v → v.partials channel = u.partials channel := by
  refine ⟨?_, fun channel u v hu hrun => (partials_kept hu hrun).1⟩
  have hcarrying : Carrying thread m x.1 x.2 :=
    hrun.invariant (I := fun x => Carrying thread m x.1 x.2)
      ⟨.waiting (hstart thread), fun u _ => hstart u⟩ fun x e y hx hok hstep => by
        obtain ⟨hnext, hprogress⟩ := watch_eq hstep
        rw [hprogress]
        exact hx.step haccepted hok hnext
  exact hcarrying.once haccepted

theorem untouched_start (pid channel : UInt32) : (start pid).untouched channel := by
  intro u
  simp [start, HidPc.assembling]

def twoPackets : Hid.Message :=
  ⟨1, PING_CMD, List.replicate 60 7⟩

/-- A message of another channel comes between the packets. -/
def betweenEvents : List Event :=
  List.flatten [[.packet 0 twoPackets.first], List.replicate 3 (.hid 0 true),
    [.packet 0 [0, 0, 0, 2, PING_CMD, 0, 1, 9]], List.replicate 5 (.hid 0 true),
    [.packet 0 (twoPackets.continuation 0)], List.replicate 2 (.hid 0 true)]

theorem twoPackets_dispatched : ∃ x,
    Reach (watch next (observeMessage 1)) (Carries 0 twoPackets) (start 1, {}) x ∧
      x.2.dispatched = [(PING_CMD, twoPackets.payload)] ∧ DispatchedOnce 0 twoPackets x := by
  obtain ⟨x, hrun, hdispatched⟩ : ∃ x, replay (watch next (observeMessage 1))
      (Carries 0 twoPackets) (start 1, {}) betweenEvents = some x ∧
        x.2.dispatched = [(PING_CMD, twoPackets.payload)] := ⟨_, rfl, rfl⟩
  have hreach := reach_of_replay hrun
  have haccepted : Accepted twoPackets := ⟨by decide, by decide, by decide, by decide⟩
  exact ⟨x, hreach, hdispatched, (message_dispatched haccepted (untouched_start 1 1) hreach).1⟩

end Passkey.Daemon

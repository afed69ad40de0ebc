import Mathlib
import Passkey.Library.Runs
import Passkey.Text

/-!
The Wi-Fi transport of the phone: the user turns it on and off, a listener
thread accepts sockets, and each accepted socket has a thread that checks its
peer and serves it. A step is a section under one lock, a call on a socket or
listener, or a thread's way from one of these to the next.
-/

namespace Passkey.Phone.WifiTransport

open Library

def MAGIC : Bytes :=
  "PASSKEY-WIFI-1\n".toList.map fun c => UInt8.ofNat c.toNat

abbrev ListenerId := Nat
abbrev SocketId := Nat

/-- Where the thread of a listener is: at the test of its loop, in `accept`, or
with a socket that it accepted. -/
inductive Listening where
  | testing
  | waiting
  | accepted (k : SocketId)
  /-- The socket is not on the Wi-Fi interface, or there is no slot for it. -/
  | rejecting (k : SocketId)
  | onWifi (k : SocketId)
  | admitted (k : SocketId)
  | added (k : SocketId)
  | ended
  deriving DecidableEq

structure Listener where
  closed : Bool := false
  thread : Listening := .testing

/-- Where the thread of a connection is, from before its first call to behind
its `finally` block. -/
inductive Connection where
  | absent
  | starting
  | handshaking
  | reading
  | verifying (magic received : Bytes)
  | greeting
  | settling
  | calling
  | serving
  | closing
  | removing
  | releasing
  | ended
  deriving DecidableEq

/-- The thread was started and has not closed its socket itself. -/
def Connection.running : Connection → Bool
  | .absent | .removing | .releasing | .ended => false
  | _ => true

structure Socket where
  closed : Bool := false
  thread : Connection := .absent

/-- Where the user's thread is in a call that holds the monitor: before the
section of `disable` that closes the sockets, in `disable` as called by
`reset`, or behind that. `stop` sets its flag without the monitor. -/
inductive User where
  | idle
  | stopping
  | disabling
  | resetting
  | renewing
  deriving DecidableEq

/-- In `disable`, before its second section. -/
def User.closing : User → Bool
  | .disabling | .resetting => true
  | _ => false

structure State where
  enabled : Bool
  stopped : Bool := false
  secret : Bytes
  user : User := .idle
  listener : ListenerId → Listener := fun _ => ⟨true, .ended⟩
  listeners : Nat := 0
  server : Option ListenerId := none
  socket : SocketId → Socket := fun _ => {}
  /-- How many sockets were accepted. -/
  accepted : Nat := 0
  sockets : List SocketId := []
  slots : Nat := 4

namespace State

def setListener (s : State) (l : ListenerId) (x : Listener) : State :=
  {s with listener := Function.update s.listener l x}

def goes (s : State) (l : ListenerId) (p : Listening) : State :=
  s.setListener l {s.listener l with thread := p}

def setSocket (s : State) (k : SocketId) (x : Socket) : State :=
  {s with socket := Function.update s.socket k x}

def moves (s : State) (k : SocketId) (p : Connection) : State :=
  s.setSocket k {s.socket k with thread := p}

def close (s : State) (k : SocketId) : State :=
  s.setSocket k {s.socket k with closed := true}

/-! The user -/

/-- `disable`, up to its second section. -/
def closeServer (s : State) (user : User) : State :=
  match s.server with
  | some l => {s.setListener l {s.listener l with closed := true} with server := none, user := user}
  | none => {s with user := user}

/-- The second section of `disable`. -/
def closeSockets (s : State) : State :=
  {s with socket := fun k =>
    if k ∈ s.sockets then {s.socket k with closed := true} else s.socket k}

/-- A new listener is bound; its thread is at this place. -/
def bind (s : State) (thread : Listening) : State :=
  {s.setListener s.listeners {thread} with
    listeners := s.listeners + 1
    server := some s.listeners}

end State

/-- How far `start` gets: it may fail before the listener exists, or after. -/
inductive Outcome where
  | ready
  | unbound
  | unusable
  deriving DecidableEq

namespace State

def start (s : State) (o : Outcome) : State :=
  if !s.enabled || s.stopped || s.server.isSome then s
  else match o with
    | .ready => s.bind .testing
    | .unbound => s.closeServer .disabling
    | .unusable => (s.bind .ended).closeServer .disabling

/-! `listen` -/

/-- A step of the thread of a listener; `ok` is how a call or check ends. -/
def listen (s : State) (l : ListenerId) (ok : Bool) : Option State :=
  match (s.listener l).thread with
  | .testing => some (s.goes l (if !s.stopped && !(s.listener l).closed then .waiting else .ended))
  | .waiting =>
      if !ok then some (s.goes l .ended)
      else if (s.listener l).closed then none
      else some {s.goes l (.accepted s.accepted) with accepted := s.accepted + 1}
  | .accepted k => some (s.goes l (if ok then .onWifi k else .rejecting k))
  | .rejecting k => some ((s.close k).goes l (if ok then .testing else .ended))
  | .onWifi k =>
      if 0 < s.slots then some {s.goes l (.admitted k) with slots := s.slots - 1}
      else some (s.goes l (.rejecting k))
  | .admitted k => some {s.goes l (.added k) with sockets := s.sockets ++ [k]}
  | .added k => some ((s.moves k .starting).goes l .testing)
  | .ended => none

/-! The thread of a connection -/

/-- A call on a socket works only while it is open. -/
def uses (s : State) (k : SocketId) (ok : Bool) (p : Connection) : State :=
  s.moves k (if ok && !(s.socket k).closed then p else .closing)

def connection (s : State) (k : SocketId) (ok : Bool) : Option State :=
  match (s.socket k).thread with
  | .starting => some (s.uses k ok .handshaking)
  | .handshaking => some (s.uses k ok .reading)
  | .reading => if ok then none else some (s.moves k .closing)
  | .verifying magic received =>
      -- The secret is copied under the monitor.
      if s.user = .idle || s.user = .stopping then
        some (s.moves k (if magic = MAGIC && received = s.secret then .greeting else .closing))
      else none
  | .greeting => some (s.uses k ok .settling)
  | .settling => some (s.uses k ok .calling)
  | .calling => some (s.moves k .serving)
  | .serving => some (s.moves k .closing)
  | .closing => some ((s.close k).moves k .removing)
  | .removing => some {s.moves k .releasing with sockets := s.sockets.filter (· ≠ k)}
  | .releasing => some {s.moves k .ended with slots := s.slots + 1}
  | .absent | .ended => none

/-- The peer's first bytes arrive. -/
def receive (s : State) (k : SocketId) (magic received : Bytes) : Option State :=
  if (s.socket k).thread = .reading && !(s.socket k).closed then
    some (s.moves k (.verifying magic received))
  else none

/-- `serve` reads a frame, or one is sent for it. -/
def exchange (s : State) (k : SocketId) : Option State :=
  if (s.socket k).thread = .serving && !(s.socket k).closed then some s else none

end State

inductive Event where
  | enable (enabled : Bool)
  | start (o : Outcome)
  | disable
  | reset
  | stop
  | closeSockets
  /-- `reset` goes on with the new secret, if that could be saved. -/
  | renew (secret : Option Bytes) (o : Outcome)
  | listen (l : ListenerId) (ok : Bool)
  | connection (k : SocketId) (ok : Bool)
  | receive (k : SocketId) (magic received : Bytes)
  | exchange (k : SocketId)

def next : Next State Event := fun s e =>
  match e with
  | .enable enabled => some {s with enabled := enabled}
  | .start o => if s.user = .idle then some (s.start o) else none
  | .disable =>
      if s.user = .idle || s.user = .stopping then some (s.closeServer .disabling) else none
  | .reset => if s.user = .idle then some (s.closeServer .resetting) else none
  | .stop => if s.user = .idle then some {s with stopped := true, user := .stopping} else none
  | .closeSockets =>
      match s.user with
      | .disabling => some {s.closeSockets with user := .idle}
      | .resetting => some {s.closeSockets with user := .renewing}
      | _ => none
  | .renew secret o =>
      if s.user = .renewing then
        match secret with
        | some secret => some ({s with secret := secret, user := .idle}.start o)
        | none => some {s with user := .idle}
      else none
  | .listen l ok => s.listen l ok
  | .connection k ok => s.connection k ok
  | .receive k magic received => s.receive k magic received
  | .exchange k => s.exchange k

def start (enabled : Bool) (secret : Bytes) : State where
  enabled := enabled
  secret := secret

/-! ### Wi-Fi is off -/

/-- Whether `disable` returned and `start` was not called since. -/
def observeOff (_ : State) (e : Event) (_ : State) (off : Bool) : Bool :=
  match e with
  | .closeSockets => true
  | .start _ | .renew (some _) _ => false
  | _ => off

/-- The thread is about to add its socket to `sockets`. -/
def Listening.adds : Listening → Bool
  | .admitted _ => true
  | _ => false

/-- No listener adds a socket that it accepted while Wi-Fi is off. -/
def NoneAdded (x : State × Bool) (e : Event) : Prop :=
  match e with
  | .listen l _ => (x.2 && (x.1.listener l).thread.adds) = false
  | _ => True

instance (x : State × Bool) (e : Event) : Decidable (NoneAdded x e) :=
  match e with
  | .listen l _ => inferInstanceAs (Decidable ((x.2 && (x.1.listener l).thread.adds) = false))
  | .enable _ | .start _ | .disable | .reset | .stop | .closeSockets | .renew .. | .connection ..
  | .receive .. | .exchange _ => .isTrue trivial

namespace State

/-- The socket has a thread, or its listener is about to start one. -/
def Live (s : State) (k : SocketId) : Prop :=
  (s.socket k).thread.running = true ∨ ∃ l, (s.listener l).thread = .added k

theorem live_goes {s : State} {l : ListenerId} {p : Listening} {k : SocketId}
    (h : (s.goes l p).Live k) : s.Live k ∨ p = .added k := by
  rcases h with hrunning | ⟨l', hadded⟩
  · exact .inl (.inl hrunning)
  · by_cases hl : l' = l
    · subst hl
      simp only [goes, setListener, Function.update_self] at hadded
      exact .inr hadded
    · simp only [goes, setListener, Function.update_of_ne hl] at hadded
      exact .inl (.inr ⟨l', hadded⟩)

theorem live_moves {s : State} {k k' : SocketId} {p : Connection}
    (h : (s.moves k' p).Live k) : s.Live k ∨ (k = k' ∧ p.running = true) := by
  rcases h with hrunning | hadded
  · by_cases hk : k = k'
    · subst hk
      simp only [moves, setSocket, Function.update_self] at hrunning
      exact .inr ⟨rfl, hrunning⟩
    · simp only [moves, setSocket, Function.update_of_ne hk] at hrunning
      exact .inl (.inl hrunning)
  · exact .inl (.inr hadded)

theorem closed_moves (s : State) (k k' : SocketId) (p : Connection) :
    ((s.moves k' p).socket k).closed = (s.socket k).closed := by
  by_cases hk : k = k'
  · subst hk
    simp [moves, setSocket]
  · simp [moves, setSocket, Function.update_of_ne hk]

theorem closed_close {s : State} {k k' : SocketId} (h : (s.socket k).closed = true) :
    ((s.close k').socket k).closed = true := by
  by_cases hk : k = k'
  · subst hk
    simp [close, setSocket]
  · simpa [close, setSocket, Function.update_of_ne hk] using h

end State

/-- An open listener is the current one. Every open socket with a thread is in
`sockets`, where `disable` finds it, and while Wi-Fi is off there is none. -/
structure Inv (s : State) (off : Bool) : Prop where
  current : ∀ l, (s.listener l).closed = false → s.server = some l
  found : ∀ k, s.Live k → (s.socket k).closed = true ∨ k ∈ s.sockets
  removing : ∀ k, (s.socket k).thread = .removing → (s.socket k).closed = true
  closing : s.user.closing = true → s.server = none
  unbound : off = true → s.server = none
  dead : off = true → ∀ k, s.Live k → (s.socket k).closed = true

theorem inv_start (enabled : Bool) (secret : Bytes) : Inv (start enabled secret) false where
  current _ h := by cases h
  found k h := by
    rcases h with hrunning | ⟨l, hadded⟩
    · cases hrunning
    · cases hadded
  removing _ h := by cases h
  closing _ := rfl
  unbound _ := rfl
  dead h := by cases h

/-- What most steps do: no listener opens, no socket opens or gets a thread,
and a socket that has one stays in `sockets`. -/
structure Aside (s t : State) : Prop where
  server : t.server = s.server
  user : t.user.closing = true → s.user.closing = true
  listener : ∀ l, (t.listener l).closed = (s.listener l).closed
  live : ∀ k, t.Live k → s.Live k
  closed : ∀ k, (s.socket k).closed = true → (t.socket k).closed = true
  sockets : ∀ k, k ∈ s.sockets → (s.socket k).thread = .removing ∨ k ∈ t.sockets
  removing : ∀ k, (t.socket k).thread = .removing →
    (s.socket k).thread = .removing ∨ (t.socket k).closed = true

theorem Inv.aside {s t : State} {off : Bool} (h : Inv s off) (haside : Aside s t) : Inv t off where
  current l hl := by
    rw [haside.server]
    exact h.current l (haside.listener l ▸ hl)
  found k hk := by
    rcases h.found k (haside.live k hk) with hclosed | hmem
    · exact .inl (haside.closed k hclosed)
    · rcases haside.sockets k hmem with hremoving | hmem
      · exact .inl (haside.closed k (h.removing k hremoving))
      · exact .inr hmem
  removing k hk := by
    rcases haside.removing k hk with hremoving | hclosed
    · exact haside.closed k (h.removing k hremoving)
    · exact hclosed
  closing hclosing := by
    rw [haside.server]
    exact h.closing (haside.user hclosing)
  unbound hoff := by
    rw [haside.server]
    exact h.unbound hoff
  dead hoff k hk := haside.closed k (h.dead hoff k (haside.live k hk))

theorem Aside.refl (s : State) : Aside s s :=
  ⟨rfl, id, fun _ => rfl, fun _ => id, fun _ => id, fun _ => .inr, fun _ => .inl⟩

/-! ### The steps of the threads -/

theorem listener_goes (s : State) (l l' : ListenerId) (p : Listening) :
    ((s.goes l p).listener l').closed = (s.listener l').closed := by
  by_cases hl : l' = l
  · subst hl
    simp [State.goes, State.setListener]
  · simp [State.goes, State.setListener, Function.update_of_ne hl]

theorem aside_goes (s : State) (l : ListenerId) {p : Listening} (hp : ∀ k, p ≠ .added k) :
    Aside s (s.goes l p) where
  server := rfl
  user := id
  listener l' := listener_goes s l l' p
  live k hk := (State.live_goes hk).resolve_right (hp k)
  closed _ := id
  sockets _ := .inr
  removing _ := .inl

theorem thread_moves (s : State) (k k' : SocketId) (p : Connection) :
    ((s.moves k' p).socket k).thread = if k = k' then p else (s.socket k).thread := by
  by_cases hk : k = k'
  · subst hk
    simp [State.moves, State.setSocket]
  · simp [State.moves, State.setSocket, hk]

theorem aside_moves {s : State} {k : SocketId} {p : Connection}
    (hlive : p.running = true → s.Live k)
    (hp : p = .removing → (s.socket k).closed = true) : Aside s (s.moves k p) where
  server := rfl
  user := id
  listener _ := rfl
  live k' hk' := by
    rcases State.live_moves hk' with hold | ⟨rfl, hrunning⟩
    · exact hold
    · exact hlive hrunning
  closed k' hk' := by rwa [State.closed_moves]
  sockets _ := .inr
  removing k' hk' := by
    rw [thread_moves] at hk'
    split at hk'
    · rename_i heq
      subst heq
      rw [State.closed_moves]
      exact .inr (hp hk')
    · exact .inl hk'

theorem thread_close (s : State) (k k' : SocketId) :
    ((s.close k').socket k).thread = (s.socket k).thread := by
  by_cases hk : k = k'
  · subst hk
    simp [State.close, State.setSocket]
  · simp [State.close, State.setSocket, Function.update_of_ne hk]

theorem aside_close (s : State) (k : SocketId) : Aside s (s.close k) where
  server := rfl
  user := id
  listener _ := rfl
  live k' hk' := hk'.imp_left fun hrunning => by rwa [thread_close] at hrunning
  closed _ := State.closed_close
  sockets _ := .inr
  removing k' hk' := by
    rw [thread_close] at hk'
    exact .inl hk'

/-- A listener adds its socket while Wi-Fi is not off. -/
theorem Inv.add {s : State} (h : Inv s false) (l : ListenerId) (k : SocketId) :
    Inv {s.goes l (.added k) with sockets := s.sockets ++ [k]} false where
  current l' hl' := h.current l' (listener_goes s l l' _ ▸ hl')
  found k' hk' := by
    rcases State.live_goes (s := s) (l := l) (p := .added k) hk' with hold | hnew
    · exact (h.found k' hold).imp_right fun hmem => List.mem_append_left _ hmem
    · cases hnew
      exact .inr (List.mem_append_right _ List.mem_cons_self)
  removing := h.removing
  closing := h.closing
  unbound hoff := by cases hoff
  dead hoff := by cases hoff

theorem Inv.listen {s t : State} {off : Bool} {l : ListenerId} {ok : Bool} (h : Inv s off)
    (hok : NoneAdded (s, off) (.listen l ok)) (hnext : s.listen l ok = some t) : Inv t off := by
  have hgoes {p : Listening} (hp : ∀ k, p ≠ .added k) : Inv (s.goes l p) off :=
    h.aside (aside_goes s l hp)
  cases hthread : (s.listener l).thread with
  | testing =>
      simp only [State.listen, hthread, Option.some.injEq] at hnext
      subst hnext
      exact hgoes fun k => by split <;> simp
  | waiting =>
      simp only [State.listen, hthread] at hnext
      split_ifs at hnext
      · cases hnext
        exact hgoes fun k => by simp
      · cases hnext
        have haside := hgoes (p := .accepted s.accepted) fun k => by simp
        exact ⟨haside.current, haside.found, haside.removing, haside.closing, haside.unbound,
          haside.dead⟩
  | accepted k =>
      simp only [State.listen, hthread, Option.some.injEq] at hnext
      subst hnext
      exact hgoes fun k => by split <;> simp
  | rejecting k =>
      simp only [State.listen, hthread, Option.some.injEq] at hnext
      subst hnext
      exact (h.aside (aside_close s k)).aside (aside_goes _ l fun k => by split <;> simp)
  | onWifi k =>
      simp only [State.listen, hthread] at hnext
      split_ifs at hnext
      · cases hnext
        have haside := hgoes (p := .admitted k) fun k => by simp
        exact ⟨haside.current, haside.found, haside.removing, haside.closing, haside.unbound,
          haside.dead⟩
      · cases hnext
        exact hgoes fun k => by simp
  | admitted k =>
      simp only [State.listen, hthread, Option.some.injEq] at hnext
      subst hnext
      obtain rfl : off = false := by
        simpa [NoneAdded, hthread, Listening.adds] using hok
      exact h.add l k
  | added k =>
      simp only [State.listen, hthread, Option.some.injEq] at hnext
      subst hnext
      have hlive : s.Live k := .inr ⟨l, hthread⟩
      exact (h.aside (aside_moves (fun _ => hlive) fun hp => by cases hp)).aside
        (aside_goes _ l fun k => by simp)
  | ended =>
      simp [State.listen, hthread] at hnext

theorem Inv.connection {s t : State} {off : Bool} {k : SocketId} {ok : Bool} (h : Inv s off)
    (hnext : s.connection k ok = some t) : Inv t off := by
  have hmoves {p : Connection} (hrunning : (s.socket k).thread.running = true)
      (hp : p ≠ .removing) : Inv (s.moves k p) off :=
    h.aside (aside_moves (fun _ => .inl hrunning) fun heq => absurd heq hp)
  have huses {p : Connection} (hrunning : (s.socket k).thread.running = true)
      (hp : p ≠ .removing) : Inv (s.uses k ok p) off :=
    hmoves hrunning (by split <;> simp [hp])
  cases hthread : (s.socket k).thread with
  | starting =>
      simp only [State.connection, hthread, Option.some.injEq] at hnext
      subst hnext
      exact huses (by rw [hthread]; rfl) (by simp)
  | handshaking =>
      simp only [State.connection, hthread, Option.some.injEq] at hnext
      subst hnext
      exact huses (by rw [hthread]; rfl) (by simp)
  | reading =>
      simp only [State.connection, hthread] at hnext
      split_ifs at hnext
      cases hnext
      exact hmoves (by rw [hthread]; rfl) (by simp)
  | verifying magic received =>
      simp only [State.connection, hthread] at hnext
      split at hnext
      · cases hnext
        exact hmoves (by rw [hthread]; rfl) (by split <;> simp)
      · cases hnext
  | greeting =>
      simp only [State.connection, hthread, Option.some.injEq] at hnext
      subst hnext
      exact huses (by rw [hthread]; rfl) (by simp)
  | settling =>
      simp only [State.connection, hthread, Option.some.injEq] at hnext
      subst hnext
      exact huses (by rw [hthread]; rfl) (by simp)
  | calling =>
      simp only [State.connection, hthread, Option.some.injEq] at hnext
      subst hnext
      exact hmoves (by rw [hthread]; rfl) (by simp)
  | serving =>
      simp only [State.connection, hthread, Option.some.injEq] at hnext
      subst hnext
      exact hmoves (by rw [hthread]; rfl) (by simp)
  | closing =>
      simp only [State.connection, hthread, Option.some.injEq] at hnext
      subst hnext
      have hlive : (s.close k).Live k := .inl (by rw [thread_close, hthread]; rfl)
      have hclosed : ((s.close k).socket k).closed = true := by simp [State.close, State.setSocket]
      exact (h.aside (aside_close s k)).aside (aside_moves (fun _ => hlive) fun _ => hclosed)
  | removing =>
      simp only [State.connection, hthread, Option.some.injEq] at hnext
      subst hnext
      have haside := aside_moves (s := s) (k := k) (p := .releasing) (fun h => by cases h)
        fun h => by cases h
      refine h.aside ⟨haside.server, haside.user, haside.listener, haside.live, haside.closed,
        fun k' hk' => ?_, haside.removing⟩
      by_cases hk : k' = k
      · exact .inl (hk ▸ hthread)
      · exact .inr (List.mem_filter.mpr ⟨hk', by simpa using hk⟩)
  | releasing =>
      simp only [State.connection, hthread, Option.some.injEq] at hnext
      subst hnext
      have hended := h.aside (aside_moves (s := s) (k := k) (p := .ended) (fun h => by cases h)
        fun h => by cases h)
      exact ⟨hended.current, hended.found, hended.removing, hended.closing, hended.unbound,
        hended.dead⟩
  | absent =>
      simp [State.connection, hthread] at hnext
  | ended =>
      simp [State.connection, hthread] at hnext

/-! ### The user's steps -/

theorem live_setListener {s : State} {l : ListenerId} {x : Listener} {k : SocketId}
    (hx : ∀ k, x.thread ≠ .added k) (h : (s.setListener l x).Live k) : s.Live k := by
  rcases h with hrunning | ⟨l', hadded⟩
  · exact .inl hrunning
  · by_cases hl : l' = l
    · subst hl
      simp only [State.setListener, Function.update_self] at hadded
      exact absurd hadded (hx k)
    · simp only [State.setListener, Function.update_of_ne hl] at hadded
      exact .inr ⟨l', hadded⟩

theorem live_closed {s : State} {l : ListenerId} {k : SocketId}
    (h : (s.setListener l {s.listener l with closed := true}).Live k) : s.Live k := by
  rcases h with hrunning | ⟨l', hadded⟩
  · exact .inl hrunning
  · by_cases hl : l' = l
    · subst hl
      simp only [State.setListener, Function.update_self] at hadded
      exact .inr ⟨l', hadded⟩
    · simp only [State.setListener, Function.update_of_ne hl] at hadded
      exact .inr ⟨l', hadded⟩

theorem Inv.closeServer {s : State} {off : Bool} (h : Inv s off) (user : User) :
    Inv (s.closeServer user) off := by
  unfold State.closeServer
  split
  · rename_i l hserver
    refine ⟨fun l' hl' => ?_, fun k hk => h.found k (live_closed hk), h.removing, fun _ => rfl,
      fun _ => rfl, fun hoff k hk => h.dead hoff k (live_closed hk)⟩
    by_cases hl : l' = l
    · subst hl
      simp [State.setListener] at hl'
    · simp only [State.setListener, Function.update_of_ne hl] at hl'
      have hcurrent := h.current l' hl'
      rw [hserver, Option.some.injEq] at hcurrent
      exact absurd hcurrent.symm hl
  · rename_i hserver
    exact ⟨h.current, h.found, h.removing, fun _ => hserver, h.unbound, h.dead⟩

theorem Inv.on {s : State} {off : Bool} (h : Inv s off) : Inv s false where
  current := h.current
  found := h.found
  removing := h.removing
  closing := h.closing
  unbound hoff := by cases hoff
  dead hoff := by cases hoff

theorem Inv.bind {s : State} {off : Bool} (h : Inv s off) (hserver : s.server = none)
    (huser : s.user.closing = false) {p : Listening} (hp : ∀ k, p ≠ .added k) :
    Inv (s.bind p) false where
  current l hl := by
    by_cases hnew : l = s.listeners
    · exact congrArg some hnew.symm
    · simp only [State.bind, State.setListener, Function.update_of_ne hnew] at hl
      have hcurrent := h.current l hl
      rw [hserver] at hcurrent
      cases hcurrent
  found k hk := h.found k (live_setListener (s := s) (x := {thread := p}) hp hk)
  removing := h.removing
  closing hclosing := by
    have hopen : s.user.closing = true := hclosing
    rw [huser] at hopen
    cases hopen
  unbound hoff := by cases hoff
  dead hoff := by cases hoff

theorem Inv.start {s : State} {off : Bool} (h : Inv s off) (huser : s.user.closing = false)
    (o : Outcome) : Inv (s.start o) false := by
  unfold State.start
  split
  · exact h.on
  · rename_i hgo
    have hserver : s.server = none := by
      simp only [Bool.or_eq_true, not_or, Bool.not_eq_true, Option.isSome_eq_false_iff,
        Option.isNone_iff_eq_none] at hgo
      exact hgo.2
    cases o with
    | ready => exact h.bind hserver huser (by simp)
    | unbound => exact h.on.closeServer _
    | unusable => exact (h.bind hserver huser (by simp)).closeServer _

/-- Every socket with a thread was found, so it is closed now. -/
theorem Inv.closeSockets {s : State} {off : Bool} (h : Inv s off) (hclosing : s.user.closing = true)
    {user : User} (huser : user.closing = false) :
    Inv {s.closeSockets with user := user} true := by
  have hthread (k : SocketId) : (s.closeSockets.socket k).thread = (s.socket k).thread := by
    unfold State.closeSockets
    dsimp only
    split <;> rfl
  have hclosed {k : SocketId} (hk : (s.socket k).closed = true ∨ k ∈ s.sockets) :
      (s.closeSockets.socket k).closed = true := by
    unfold State.closeSockets
    dsimp only
    split
    · rfl
    · rename_i hmem
      exact hk.resolve_right hmem
  have hdead (k : SocketId) (hk : s.closeSockets.Live k) :
      (s.closeSockets.socket k).closed = true :=
    hclosed (h.found k (hk.imp_left fun hrunning => hthread k ▸ hrunning))
  exact {
    current := h.current
    found := fun k hk => .inl (hdead k hk)
    removing := fun k hk => hclosed (.inl (h.removing k ((hthread k).symm.trans hk)))
    closing := fun huser' => absurd (huser'.symm.trans huser) (by simp)
    unbound := fun _ => h.closing hclosing
    dead := fun _ => hdead}

theorem Inv.next {x y : State × Bool} {e : Event} (h : Inv x.1 x.2) (hok : NoneAdded x e)
    (hstep : watch next observeOff x e = some y) : Inv y.1 y.2 := by
  obtain ⟨s, off⟩ := x
  obtain ⟨t, off'⟩ := y
  obtain ⟨hnext, hoff⟩ := watch_eq hstep
  dsimp only at hnext hoff
  subst hoff
  cases e with
  | enable enabled =>
      cases hnext
      exact ⟨h.current, h.found, h.removing, h.closing, h.unbound, h.dead⟩
  | start o =>
      obtain ⟨huser, hnext⟩ := Option.ite_none_right_eq_some.mp hnext
      cases hnext
      exact h.start (by rw [huser]; rfl) o
  | disable =>
      obtain ⟨huser, hnext⟩ := Option.ite_none_right_eq_some.mp hnext
      cases hnext
      exact h.closeServer _
  | reset =>
      obtain ⟨huser, hnext⟩ := Option.ite_none_right_eq_some.mp hnext
      cases hnext
      exact h.closeServer _
  | stop =>
      obtain ⟨huser, hnext⟩ := Option.ite_none_right_eq_some.mp hnext
      cases hnext
      exact ⟨h.current, h.found, h.removing, fun h => absurd h Bool.false_ne_true, h.unbound,
        h.dead⟩
  | closeSockets =>
      cases huser : s.user with
      | disabling =>
          simp only [WifiTransport.next, huser, Option.some.injEq] at hnext
          subst hnext
          exact h.closeSockets (by rw [huser]; rfl) rfl
      | resetting =>
          simp only [WifiTransport.next, huser, Option.some.injEq] at hnext
          subst hnext
          exact h.closeSockets (by rw [huser]; rfl) rfl
      | idle | stopping | renewing => simp [WifiTransport.next, huser] at hnext
  | renew secret o =>
      obtain ⟨huser, hnext⟩ := Option.ite_none_right_eq_some.mp hnext
      cases secret with
      | none =>
          cases hnext
          exact ⟨h.current, h.found, h.removing, fun h => absurd h Bool.false_ne_true, h.unbound, h.dead⟩
      | some secret =>
          cases hnext
          have hidle : Inv {s with secret := secret, user := .idle} off :=
            ⟨h.current, h.found, h.removing, fun h => absurd h Bool.false_ne_true,
            h.unbound, h.dead⟩
          exact hidle.start rfl o
  | listen l ok => exact h.listen hok hnext
  | connection k ok => exact h.connection hnext
  | receive k magic received =>
      obtain ⟨hthread, hnext⟩ := Option.ite_none_right_eq_some.mp hnext
      cases hnext
      simp only [Bool.and_eq_true, decide_eq_true_eq] at hthread
      exact h.aside (aside_moves (fun _ => .inl (by rw [hthread.1]; rfl)) fun h => by cases h)
  | exchange k =>
      obtain ⟨-, hnext⟩ := Option.ite_none_right_eq_some.mp hnext
      cases hnext
      exact h

/-- In every run in which no listener adds a socket while Wi-Fi is off, `disable`
leaves nobody connected: a thread that is in `serve`, or may come there, has a
closed socket, and no frame is exchanged. -/
theorem off_disconnected {enabled : Bool} {secret : Bytes} {s : State}
    (h : Reach (watch next observeOff) NoneAdded (start enabled secret, false) (s, true)) :
    (∀ k, (s.socket k).thread.running = true → (s.socket k).closed = true) ∧
      ∀ k, next s (.exchange k) = none := by
  have hinv : Inv s true :=
    h.invariant (I := fun x => Inv x.1 x.2) (inv_start enabled secret)
      fun x e y hx hok hstep => hx.next hok hstep
  have hclosed (k : SocketId) (hrunning : (s.socket k).thread.running = true) :
      (s.socket k).closed = true := hinv.dead rfl k (.inl hrunning)
  refine ⟨hclosed, fun k => if_neg ?_⟩
  intro hserving
  simp only [Bool.and_eq_true, decide_eq_true_eq, Bool.not_eq_true'] at hserving
  have hdead := hclosed k (by rw [hserving.1]; rfl)
  rw [hserving.2] at hdead
  cases hdead

/-- A computer connects; its socket is accepted and has a slot. -/
def admittedEvents : List Event :=
  .start .ready :: List.replicate 4 (.listen 0 true)

/-- The socket is added and gets its thread, the computer shows the secret, and
the thread comes to `serve`. -/
def servedEvents : List Event :=
  [.listen 0 true, .listen 0 true, .connection 0 true, .connection 0 true,
    .receive 0 MAGIC [1]] ++ List.replicate 4 (.connection 0 true)

/-- A computer that is served when the user turns Wi-Fi off is disconnected. -/
theorem served_disconnected : ∃ s,
    Reach (watch next observeOff) NoneAdded (start true [1], false) (s, true) ∧
      (s.socket 0).thread = .serving ∧ next s (.exchange 0) = none := by
  obtain ⟨s, hrun, hserving⟩ : ∃ s,
      replay (watch next observeOff) NoneAdded (start true [1], false)
        (admittedEvents ++ servedEvents ++ [.disable, .closeSockets]) = some (s, true) ∧
      (s.socket 0).thread = .serving := ⟨_, rfl, rfl⟩
  have hreach := reach_of_replay hrun
  exact ⟨s, hreach, hserving, (off_disconnected hreach).2 0⟩

/-- One that is accepted before is served after Wi-Fi was turned off. -/
theorem accepted_served : ∃ s,
    Reach (watch next observeOff) always (start true [1], false) (s, true) ∧
      (s.socket 0).thread = .serving ∧ next s (.exchange 0) = some s := by
  obtain ⟨s, hrun, hserving, hexchange⟩ : ∃ s,
      replay (watch next observeOff) always (start true [1], false)
        (admittedEvents ++ [.disable, .closeSockets] ++ servedEvents) = some (s, true) ∧
      (s.socket 0).thread = .serving ∧ next s (.exchange 0) = some s := ⟨_, rfl, rfl, rfl⟩
  exact ⟨s, reach_of_replay hrun, hserving, hexchange⟩

end Passkey.Phone.WifiTransport

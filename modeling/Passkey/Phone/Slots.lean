import Passkey.Phone.WifiTransport

/-!
Whose the sockets are that the phone accepted over Wi-Fi. Each is in the hands
of one thread or closed, four of them at most are let in, and who is let in
takes a slot that comes back when its thread ends, however it ends.
-/

namespace Passkey.Phone.WifiTransport

open Library

/-! ### Who has a socket -/

/-- The socket that the thread of a listener has. -/
def Listening.hand : Listening → Option SocketId
  | .accepted k | .rejecting k | .onWifi k | .admitted k | .added k => some k
  | .testing | .waiting | .ended => none

/-- The socket that it has a slot for. -/
def Listening.slot : Listening → Option SocketId
  | .admitted k | .added k => some k
  | _ => none

/-- The socket that it added to `sockets`. -/
def Listening.listed : Listening → Option SocketId
  | .added k => some k
  | _ => none

/-- The thread was started and has not given its slot back. -/
def Connection.busy : Connection → Bool
  | .absent | .ended => false
  | _ => true

/-- Its socket was not removed from `sockets` yet. -/
def Connection.registered : Connection → Bool
  | .absent | .releasing | .ended => false
  | _ => true

/-- The socket is with a listener in the one way, or its own thread is at such
a place. -/
def State.Has (s : State) (f : Listening → Option SocketId) (g : Connection → Bool)
    (k : SocketId) : Prop :=
  (∃ l, f (s.listener l).thread = some k) ∨ g (s.socket k).thread = true

/-- A socket is with one thread, which goes on with it or closes it. -/
structure Placed (s : State) : Prop where
  apart : ∀ l l' k, (s.listener l).thread.hand = some k → (s.listener l').thread.hand = some k →
    l = l'
  taken : ∀ l k, (s.listener l).thread.hand = some k →
    k < s.accepted ∧ (s.socket k).thread = .absent
  unborn : ∀ k, s.accepted ≤ k → (s.socket k).thread = .absent
  unbound : ∀ l, s.listeners ≤ l → (s.listener l).thread = .ended
  disowned : ∀ k < s.accepted,
    ¬s.Has Listening.hand Connection.running k → (s.socket k).closed = true

/-- The free slots and those that were taken are four. -/
def Counted (s : State) : Prop :=
  ∃ held : Finset SocketId,
    (∀ k, k ∈ held ↔ s.Has Listening.slot Connection.busy k) ∧ s.slots + held.card = 4

/-- In `sockets` are those that were let in, until their threads remove them. -/
def Listed (s : State) : Prop :=
  ∀ k, k ∈ s.sockets ↔ s.Has Listening.listed Connection.registered k

variable {s t : State} {l : ListenerId} {k : SocketId} {f : Listening → Option SocketId}
  {g : Connection → Bool}

theorem Listening.slot_of_hand {p : Listening} (h : p.hand = none) : p.slot = none := by
  cases p with
  | testing | waiting | ended => rfl
  | accepted | rejecting | onWifi | admitted | added => cases h

theorem Listening.listed_of_hand {p : Listening} (h : p.hand = none) : p.listed = none := by
  cases p with
  | testing | waiting | ended => rfl
  | accepted | rejecting | onWifi | admitted | added => cases h

theorem Listening.hand_of_slot {p : Listening} (h : p.slot = some k) : p.hand = some k := by
  cases p with
  | admitted k' => exact h
  | added k' => exact h
  | testing | waiting | accepted | rejecting | onWifi | ended => cases h

theorem Listening.hand_of_listed {p : Listening} (h : p.listed = some k) : p.hand = some k := by
  cases p with
  | added k' => exact h
  | testing | waiting | accepted | rejecting | onWifi | admitted | ended => cases h

theorem Connection.busy_of_running {p : Connection} (h : p.running = true) : p.busy = true := by
  cases p with
  | absent | removing | releasing | ended => cases h
  | starting | handshaking | reading | verifying | greeting | settling | calling | serving
  | closing => rfl

theorem Connection.registered_of_running {p : Connection} (h : p.running = true) :
    p.registered = true := by
  cases p with
  | absent | removing | releasing | ended => cases h
  | starting | handshaking | reading | verifying | greeting | settling | calling | serving
  | closing => rfl

/-! ### The steps -/

/-- What the thread of a listener did in one step. -/
inductive Listened (s : State) (l : ListenerId) : State → Prop where
  | goes (p : Listening) (hhand : p.hand = (s.listener l).thread.hand)
      (hslot : p.slot = (s.listener l).thread.slot)
      (hlisted : p.listed = (s.listener l).thread.listed) : Listened s l (s.goes l p)
  | accepts (hthread : (s.listener l).thread = .waiting) :
      Listened s l {s.goes l (.accepted s.accepted) with accepted := s.accepted + 1}
  | rejects (k : SocketId) (p : Listening) (hthread : (s.listener l).thread = .rejecting k)
      (hp : p.hand = none) : Listened s l ((s.close k).goes l p)
  | admits (k : SocketId) (hthread : (s.listener l).thread = .onWifi k) (hfree : 0 < s.slots) :
      Listened s l {s.goes l (.admitted k) with slots := s.slots - 1}
  | adds (k : SocketId) (hthread : (s.listener l).thread = .admitted k) :
      Listened s l {s.goes l (.added k) with sockets := s.sockets ++ [k]}
  | spawns (k : SocketId) (hthread : (s.listener l).thread = .added k) :
      Listened s l ((s.moves k .starting).goes l .testing)

theorem listen_cases {ok : Bool} (h : s.listen l ok = some t) :
    (s.listener l).thread ≠ .ended ∧ Listened s l t := by
  have hgoes {p q : Listening} (hthread : (s.listener l).thread = q) (hhand : p.hand = q.hand)
      (hslot : p.slot = q.slot) (hlisted : p.listed = q.listed) : Listened s l (s.goes l p) := by
    subst hthread
    exact .goes p hhand hslot hlisted
  cases hthread : (s.listener l).thread with
  | testing =>
      simp only [State.listen, hthread, Option.some.injEq] at h
      subst h
      exact ⟨by simp, hgoes hthread (by split <;> rfl) (by split <;> rfl) (by split <;> rfl)⟩
  | waiting =>
      simp only [State.listen, hthread] at h
      split_ifs at h
      · cases h
        exact ⟨by simp, hgoes hthread rfl rfl rfl⟩
      · cases h
        exact ⟨by simp, .accepts hthread⟩
  | accepted k =>
      simp only [State.listen, hthread, Option.some.injEq] at h
      subst h
      exact ⟨by simp, hgoes hthread (by split <;> rfl) (by split <;> rfl) (by split <;> rfl)⟩
  | rejecting k =>
      simp only [State.listen, hthread, Option.some.injEq] at h
      subst h
      exact ⟨by simp, .rejects k _ hthread (by split <;> rfl)⟩
  | onWifi k =>
      simp only [State.listen, hthread] at h
      split_ifs at h with hfree
      · cases h
        exact ⟨by simp, .admits k hthread hfree⟩
      · cases h
        exact ⟨by simp, hgoes hthread rfl rfl rfl⟩
  | admitted k =>
      simp only [State.listen, hthread, Option.some.injEq] at h
      subst h
      exact ⟨by simp, .adds k hthread⟩
  | added k =>
      simp only [State.listen, hthread, Option.some.injEq] at h
      subst h
      exact ⟨by simp, .spawns k hthread⟩
  | ended => simp [State.listen, hthread] at h

/-- What the thread of a connection did in one step. -/
inductive Connected (s : State) (k : SocketId) : State → Prop where
  | moves (p : Connection) (hthread : (s.socket k).thread.running = true)
      (hp : p.running = true) : Connected s k (s.moves k p)
  | closes (hthread : (s.socket k).thread = .closing) :
      Connected s k ((s.close k).moves k .removing)
  | removes (hthread : (s.socket k).thread = .removing) :
      Connected s k {s.moves k .releasing with sockets := s.sockets.filter (· ≠ k)}
  | releases (hthread : (s.socket k).thread = .releasing) :
      Connected s k {s.moves k .ended with slots := s.slots + 1}

theorem connection_cases {ok : Bool} (h : s.connection k ok = some t) : Connected s k t := by
  have hmoves {p q : Connection} (hthread : (s.socket k).thread = q) (hq : q.running = true)
      (hp : p.running = true) : Connected s k (s.moves k p) := by
    subst hthread
    exact .moves p hq hp
  cases hthread : (s.socket k).thread with
  | starting | handshaking | greeting | settling =>
      simp only [State.connection, hthread, Option.some.injEq] at h
      subst h
      exact hmoves hthread rfl (by split <;> rfl)
  | reading =>
      simp only [State.connection, hthread] at h
      split_ifs at h
      cases h
      exact hmoves hthread rfl rfl
  | verifying magic received =>
      simp only [State.connection, hthread] at h
      split at h
      · cases h
        exact hmoves hthread rfl (by split <;> rfl)
      · cases h
  | calling | serving =>
      simp only [State.connection, hthread, Option.some.injEq] at h
      subst h
      exact hmoves hthread rfl rfl
  | closing =>
      simp only [State.connection, hthread, Option.some.injEq] at h
      subst h
      exact .closes hthread
  | removing =>
      simp only [State.connection, hthread, Option.some.injEq] at h
      subst h
      exact .removes hthread
  | releasing =>
      simp only [State.connection, hthread, Option.some.injEq] at h
      subst h
      exact .releases hthread
  | absent | ended => simp [State.connection, hthread] at h

/-- What the user's steps leave: no thread has another socket. -/
structure Left (s t : State) : Prop where
  listener : ∀ l, (t.listener l).thread = (s.listener l).thread ∨
    (s.listener l).thread.hand = none ∧ (t.listener l).thread.hand = none
  unbound : ∀ l, t.listeners ≤ l → s.listeners ≤ l ∧ (t.listener l).thread = (s.listener l).thread
  thread : ∀ k, (t.socket k).thread = (s.socket k).thread
  closed : ∀ k, (s.socket k).closed = true → (t.socket k).closed = true
  accepted : t.accepted = s.accepted
  sockets : t.sockets = s.sockets
  slots : t.slots = s.slots

/-! ### Who has what after a step -/

theorem thread_goes (s : State) (l l' : ListenerId) (p : Listening) :
    ((s.goes l p).listener l').thread = if l' = l then p else (s.listener l').thread := by
  by_cases hl : l' = l
  · subst hl
    simp [State.goes, State.setListener]
  · simp [State.goes, State.setListener, hl]

theorem has_congr (hl : ∀ l, f (t.listener l).thread = f (s.listener l).thread)
    (hk : ∀ k, g (t.socket k).thread = g (s.socket k).thread) (k : SocketId) :
    t.Has f g k ↔ s.Has f g k := by
  unfold State.Has
  simp only [hl, hk]

theorem has_goes {p : Listening} (hp : f p = f (s.listener l).thread) (k : SocketId) :
    (s.goes l p).Has f g k ↔ s.Has f g k := by
  refine has_congr (s := s) (t := s.goes l p) (fun l' => ?_) (fun _ => rfl) k
  rw [thread_goes]
  split
  · rename_i heq
    rw [heq, hp]
  · rfl

theorem has_moves {p : Connection} (hp : g p = g (s.socket k).thread) (k' : SocketId) :
    (s.moves k p).Has f g k' ↔ s.Has f g k' := by
  refine has_congr (s := s) (t := s.moves k p) (fun _ => rfl) (fun k' => ?_) k'
  rw [thread_moves]
  split
  · rename_i heq
    rw [heq, hp]
  · rfl

theorem has_close (k' : SocketId) : (s.close k).Has f g k' ↔ s.Has f g k' :=
  has_congr (s := s) (t := s.close k) (fun _ => rfl) (fun k' => by rw [thread_close]) k'

/-- A listener gets another socket. -/
theorem has_gain {p : Listening} (hnone : f (s.listener l).thread = none) (hp : f p = some k)
    (k' : SocketId) : (s.goes l p).Has f g k' ↔ k' = k ∨ s.Has f g k' := by
  constructor
  · rintro (⟨l', hl'⟩ | hthread)
    · rw [thread_goes] at hl'
      split at hl'
      · exact .inl (Option.some.inj (hl'.symm.trans hp))
      · exact .inr (.inl ⟨l', hl'⟩)
    · exact .inr (.inr hthread)
  · rintro (rfl | ⟨l', hl'⟩ | hthread)
    · exact .inl ⟨l, by rw [thread_goes, if_pos rfl, hp]⟩
    · refine .inl ⟨l', ?_⟩
      rw [thread_goes, if_neg]
      · exact hl'
      · rintro rfl
        cases hnone.symm.trans hl'
    · exact .inr hthread

/-- A connection gives its socket up. -/
theorem has_loss {p : Connection} (hfree : ∀ l, f (s.listener l).thread ≠ some k)
    (hp : g p = false) (k' : SocketId) : (s.moves k p).Has f g k' ↔ s.Has f g k' ∧ k' ≠ k := by
  constructor
  · rintro (⟨l, hl⟩ | hthread)
    · refine ⟨.inl ⟨l, hl⟩, ?_⟩
      rintro rfl
      exact hfree l hl
    · rw [thread_moves] at hthread
      split at hthread
      · cases hp.symm.trans hthread
      · exact ⟨.inr hthread, ‹_›⟩
  · rintro ⟨⟨l, hl⟩ | hthread, hne⟩
    · exact .inl ⟨l, hl⟩
    · exact .inr (by rwa [thread_moves, if_neg hne])

theorem thread_spawn (s : State) (k k' : SocketId) (l : ListenerId) :
    (((s.moves k .starting).goes l .testing).socket k').thread =
      if k' = k then .starting else (s.socket k').thread :=
  thread_moves s k' k .starting

/-- A listener hands its socket over to a thread of its own. -/
theorem has_spawn (hf : f (s.listener l).thread = some k) (hnone : f .testing = none)
    (hg : g .starting = true) (k' : SocketId) :
    ((s.moves k .starting).goes l .testing).Has f g k' ↔ s.Has f g k' := by
  constructor
  · rintro (⟨l', hl'⟩ | hthread)
    · rw [thread_goes] at hl'
      split at hl'
      · cases hnone.symm.trans hl'
      · exact .inl ⟨l', hl'⟩
    · rw [thread_spawn] at hthread
      split at hthread
      · rename_i heq
        exact .inl ⟨l, heq ▸ hf⟩
      · exact .inr hthread
  · rintro (⟨l', hl'⟩ | hthread)
    · by_cases hl : l' = l
      · subst hl
        refine .inr ?_
        rw [thread_spawn, if_pos (Option.some.inj (hl'.symm.trans hf)), hg]
      · exact .inl ⟨l', by rw [thread_goes, if_neg hl]; exact hl'⟩
    · refine .inr ?_
      rw [thread_spawn]
      split
      · exact hg
      · exact hthread

theorem Left.has (h : Left s t) (hf : ∀ p : Listening, p.hand = none → f p = none) (k : SocketId) :
    t.Has f g k ↔ s.Has f g k := by
  refine has_congr (fun l => ?_) (fun k => by rw [h.thread]) k
  rcases h.listener l with hsame | ⟨hold, hnew⟩
  · rw [hsame]
  · rw [hf _ hold, hf _ hnew]

/-! ### One thread has a socket -/

theorem placed_start (enabled : Bool) (secret : Bytes) : Placed (start enabled secret) where
  apart _ _ _ h := by cases h
  taken _ _ h := by cases h
  unborn _ _ := rfl
  unbound _ _ := rfl
  disowned _ h := absurd h (Nat.not_lt_zero _)

theorem Placed.bound (h : Placed s) (hthread : (s.listener l).thread ≠ .ended) :
    l < s.listeners := by
  by_contra hl
  exact hthread (h.unbound l (Nat.not_lt.mp hl))

theorem Placed.free (h : Placed s) (hthread : (s.socket k).thread ≠ .absent) (l : ListenerId) :
    (s.listener l).thread.hand ≠ some k :=
  fun hhand => hthread (h.taken l k hhand).2

theorem Placed.still_unbound (h : Placed s) (hl : l < s.listeners) {p : Listening}
    {l' : ListenerId} (hl' : s.listeners ≤ l') : ((s.goes l p).listener l').thread = .ended := by
  rw [thread_goes, if_neg (hl.trans_le hl').ne']
  exact h.unbound l' hl'

/-- A listener goes on with its socket, or leaves it closed. -/
theorem Placed.goes (h : Placed s) {p : Listening} (hl : l < s.listeners)
    (hhand : ∀ k, p.hand = some k → (s.listener l).thread.hand = some k)
    (hleft : ∀ k, (s.listener l).thread.hand = some k →
      p.hand = some k ∨ (s.socket k).closed = true) : Placed (s.goes l p) := by
  have hold {l' : ListenerId} {k : SocketId}
      (hl' : ((s.goes l p).listener l').thread.hand = some k) :
      (s.listener l').thread.hand = some k := by
    rw [thread_goes] at hl'
    split at hl'
    · rename_i heq
      exact heq ▸ hhand k hl'
    · exact hl'
  refine ⟨fun l₁ l₂ k h₁ h₂ => h.apart l₁ l₂ k (hold h₁) (hold h₂),
    fun l' k hl' => h.taken l' k (hold hl'), h.unborn, fun l' => h.still_unbound hl,
    fun k hk hnone => ?_⟩
  by_cases hhad : s.Has Listening.hand Connection.running k
  · rcases hhad with ⟨l', hl'⟩ | hrunning
    · by_cases heq : l' = l
      · subst heq
        refine (hleft k hl').resolve_left fun hp => hnone (.inl ⟨l', ?_⟩)
        rw [thread_goes, if_pos rfl, hp]
      · exact absurd (.inl ⟨l', by rw [thread_goes, if_neg heq]; exact hl'⟩) hnone
    · exact absurd (.inr hrunning) hnone
  · exact h.disowned k hk hhad

/-- Where a socket is has to do with no slot, and not with `sockets`. -/
theorem Placed.booked (h : Placed s) (sockets : List SocketId) (slots : Nat) :
    Placed {s with sockets, slots} :=
  ⟨h.apart, h.taken, h.unborn, h.unbound, h.disowned⟩

theorem Placed.close (h : Placed s) (k : SocketId) : Placed (s.close k) where
  apart := h.apart
  taken l k' hl := by
    rw [thread_close]
    exact h.taken l k' hl
  unborn k' hk' := by
    rw [thread_close]
    exact h.unborn k' hk'
  unbound := h.unbound
  disowned k' hk' hnone :=
    State.closed_close (h.disowned k' hk' fun hhad => hnone ((has_close k').mpr hhad))

theorem Placed.accept (h : Placed s) (hthread : (s.listener l).thread = .waiting) :
    Placed {s.goes l (.accepted s.accepted) with accepted := s.accepted + 1} := by
  have hold {l' : ListenerId} {k : SocketId}
      (hl' : ((s.goes l (.accepted s.accepted)).listener l').thread.hand = some k) :
      l' = l ∧ k = s.accepted ∨ (s.listener l').thread.hand = some k ∧ k < s.accepted := by
    rw [thread_goes] at hl'
    split at hl'
    · exact .inl ⟨‹_›, (Option.some.inj hl').symm⟩
    · exact .inr ⟨hl', (h.taken l' k hl').1⟩
  have hbound : l < s.listeners := h.bound (by simp [hthread])
  refine ⟨fun l₁ l₂ k h₁ h₂ => ?_, fun l' k hl' => ?_, fun k hk => h.unborn k (Nat.le_of_lt hk),
    fun l' => h.still_unbound hbound, fun k hk hnone => ?_⟩
  · rcases hold h₁ with ⟨rfl, hk₁⟩ | ⟨hold₁, hk₁⟩ <;> rcases hold h₂ with ⟨rfl, hk₂⟩ | ⟨hold₂, hk₂⟩
    · rfl
    · exact absurd hk₂ (hk₁ ▸ Nat.lt_irrefl _)
    · exact absurd hk₁ (hk₂ ▸ Nat.lt_irrefl _)
    · exact h.apart l₁ l₂ k hold₁ hold₂
  · rcases hold hl' with ⟨-, rfl⟩ | ⟨hhand, hk⟩
    · exact ⟨Nat.lt_succ_self _, h.unborn _ le_rfl⟩
    · exact ⟨Nat.lt_succ_of_lt hk, (h.taken l' k hhand).2⟩
  · have hgain := has_gain (s := s) (l := l) (p := .accepted s.accepted) (f := Listening.hand)
      (g := Connection.running) (by rw [hthread]; rfl) rfl k
    rcases Nat.lt_succ_iff_lt_or_eq.mp hk with hless | heq
    · exact h.disowned k hless fun hhad => hnone (hgain.mpr (.inr hhad))
    · exact absurd (hgain.mpr (.inl heq)) hnone

theorem Placed.spawn (h : Placed s) (hthread : (s.listener l).thread = .added k) :
    Placed ((s.moves k .starting).goes l .testing) := by
  have hhand : (s.listener l).thread.hand = some k := by
    rw [hthread]
    rfl
  have hold {l' : ListenerId} {k' : SocketId}
      (hl' : (((s.moves k .starting).goes l .testing).listener l').thread.hand = some k') :
      l' ≠ l ∧ (s.listener l').thread.hand = some k' := by
    rw [thread_goes] at hl'
    split at hl'
    · cases hl'
    · exact ⟨‹_›, hl'⟩
  refine ⟨fun l₁ l₂ k' h₁ h₂ => h.apart l₁ l₂ k' (hold h₁).2 (hold h₂).2, fun l' k' hl' => ?_,
    fun k' hk' => ?_, fun l' hl' => ?_, fun k' hk' hnone => ?_⟩
  · obtain ⟨hne, hbefore⟩ := hold hl'
    obtain ⟨hk', habsent⟩ := h.taken l' k' hbefore
    refine ⟨hk', ?_⟩
    rw [thread_spawn, if_neg]
    · exact habsent
    · rintro rfl
      exact hne (h.apart l' l k' hbefore hhand)
  · rw [thread_spawn, if_neg ((h.taken l k hhand).1.trans_le hk').ne']
    exact h.unborn k' hk'
  · rw [thread_goes, if_neg ((h.bound (by simp [hthread])).trans_le hl').ne']
    exact h.unbound l' hl'
  · have hclosed := h.disowned k' hk' fun hhad => hnone ((has_spawn hhand rfl rfl k').mpr hhad)
    exact (State.closed_moves s k' k .starting).trans hclosed

theorem Placed.listened (h : Placed s) (hthread : (s.listener l).thread ≠ .ended)
    (hstep : Listened s l t) : Placed t := by
  have hl := h.bound hthread
  cases hstep with
  | goes p hhand => exact h.goes hl (fun k => hhand.symm.trans) fun k => .inl ∘ hhand.trans
  | accepts hthread => exact h.accept hthread
  | rejects k p hthread hp =>
      refine (h.close k).goes hl (fun k' hk' => by cases hp.symm.trans hk') fun k' hk' => ?_
      obtain rfl : k = k' := by
        change (s.listener l).thread.hand = some k' at hk'
        rw [hthread] at hk'
        exact Option.some.inj hk'
      exact .inr (by simp [State.close, State.setSocket])
  | admits k hthread =>
      have hgoes := h.goes (p := .admitted k) hl (by simp [hthread, Listening.hand])
        (by simp [hthread, Listening.hand])
      exact hgoes.booked s.sockets (s.slots - 1)
  | adds k hthread =>
      have hgoes := h.goes (p := .added k) hl (by simp [hthread, Listening.hand])
        (by simp [hthread, Listening.hand])
      exact hgoes.booked (s.sockets ++ [k]) s.slots
  | spawns k hthread => exact h.spawn hthread

theorem Placed.moves (h : Placed s) {p : Connection} (hthread : (s.socket k).thread ≠ .absent)
    (hp : (s.socket k).thread.running = true → p.running = true ∨ (s.socket k).closed = true) :
    Placed (s.moves k p) := by
  have hother {k' : SocketId} (habsent : (s.socket k').thread = .absent) :
      ((s.moves k p).socket k').thread = .absent := by
    rw [thread_moves, if_neg]
    · exact habsent
    · rintro rfl
      exact hthread habsent
  refine ⟨h.apart, fun l k' hl => (h.taken l k' hl).imp_right hother,
    fun k' hk' => hother (h.unborn k' hk'), h.unbound, fun k' hk' hnone => ?_⟩
  rw [State.closed_moves]
  by_cases hhad : s.Has Listening.hand Connection.running k'
  · rcases hhad with ⟨l, hl⟩ | hrunning
    · exact absurd (.inl ⟨l, hl⟩) hnone
    · by_cases heq : k' = k
      · subst heq
        refine (hp hrunning).resolve_left fun hgoes => hnone (.inr ?_)
        rw [thread_moves, if_pos rfl, hgoes]
      · exact absurd (.inr (by rw [thread_moves, if_neg heq]; exact hrunning)) hnone
  · exact h.disowned k' hk' hhad

theorem Placed.connected (h : Placed s) (hstep : Connected s k t) : Placed t := by
  cases hstep with
  | moves p hthread hp =>
      refine h.moves (fun habsent => ?_) fun _ => .inl hp
      rw [habsent] at hthread
      cases hthread
  | closes hthread =>
      exact (h.close k).moves (by simp [thread_close, hthread]) fun _ =>
        .inr (by simp [State.close, State.setSocket])
  | removes hthread =>
      have hmoves := h.moves (k := k) (p := .releasing) (by simp [hthread])
        fun hrunning => by simp [hthread, Connection.running] at hrunning
      exact hmoves.booked _ s.slots
  | releases hthread =>
      have hmoves := h.moves (k := k) (p := .ended) (by simp [hthread])
        fun hrunning => by simp [hthread, Connection.running] at hrunning
      exact hmoves.booked s.sockets (s.slots + 1)

theorem Placed.left (h : Placed s) (hleft : Left s t) : Placed t := by
  have hold {l : ListenerId} {k : SocketId} (hl : (t.listener l).thread.hand = some k) :
      (s.listener l).thread.hand = some k := by
    rcases hleft.listener l with hsame | ⟨-, hnew⟩
    · exact hsame ▸ hl
    · cases hnew.symm.trans hl
  refine ⟨fun l l' k hl hl' => h.apart l l' k (hold hl) (hold hl'), fun l k hl => ?_,
    fun k hk => ?_, fun l hl => ?_, fun k hk hnone => ?_⟩
  · rw [hleft.accepted, hleft.thread]
    exact h.taken l k (hold hl)
  · rw [hleft.thread]
    exact h.unborn k (hleft.accepted ▸ hk)
  · obtain ⟨hbefore, hsame⟩ := hleft.unbound l hl
    exact hsame.trans (h.unbound l hbefore)
  · refine hleft.closed k (h.disowned k (hleft.accepted ▸ hk) fun hhad => hnone ?_)
    exact (hleft.has (fun _ => id) k).mpr hhad

/-! ### Four slots -/

theorem Counted.congr (h : Counted s)
    (hhas : ∀ k, t.Has Listening.slot Connection.busy k ↔ s.Has Listening.slot Connection.busy k)
    (hslots : t.slots = s.slots) : Counted t := by
  obtain ⟨held, hmem, hcount⟩ := h
  exact ⟨held, fun k => (hmem k).trans (hhas k).symm, hslots ▸ hcount⟩

theorem Counted.take (h : Counted s) (hnew : ¬s.Has Listening.slot Connection.busy k)
    (hfree : 0 < s.slots)
    (hhas : ∀ k', t.Has Listening.slot Connection.busy k' ↔
      k' = k ∨ s.Has Listening.slot Connection.busy k')
    (hslots : t.slots = s.slots - 1) : Counted t := by
  obtain ⟨held, hmem, hcount⟩ := h
  refine ⟨insert k held, fun k' => ?_, ?_⟩
  · rw [hhas, Finset.mem_insert, hmem]
  · rw [hslots, Finset.card_insert_of_notMem fun hk => hnew ((hmem k).mp hk)]
    omega

theorem Counted.give (h : Counted s) (hold : s.Has Listening.slot Connection.busy k)
    (hhas : ∀ k', t.Has Listening.slot Connection.busy k' ↔
      s.Has Listening.slot Connection.busy k' ∧ k' ≠ k)
    (hslots : t.slots = s.slots + 1) : Counted t := by
  obtain ⟨held, hmem, hcount⟩ := h
  refine ⟨held.erase k, fun k' => ?_, ?_⟩
  · rw [hhas, Finset.mem_erase, hmem, and_comm]
  · have hcard := Finset.card_erase_add_one ((hmem k).mpr hold)
    omega

theorem counted_start (enabled : Bool) (secret : Bytes) : Counted (start enabled secret) := by
  refine ⟨∅, fun k => ⟨fun h => absurd h (Finset.notMem_empty k), fun h => ?_⟩, rfl⟩
  rcases h with ⟨l, hslot⟩ | hbusy
  · cases hslot
  · cases hbusy

theorem Counted.listened (h : Counted s) (hplaced : Placed s) (hstep : Listened s l t) :
    Counted t := by
  cases hstep with
  | goes p _ hslot => exact h.congr (has_goes hslot) rfl
  | accepts hthread =>
      exact h.congr (has_goes (p := .accepted s.accepted) (by rw [hthread]; rfl)) rfl
  | rejects k p hthread hp =>
      have hslot : p.slot = ((s.close k).listener l).thread.slot :=
        (Listening.slot_of_hand hp).trans (congrArg Listening.slot hthread).symm
      exact h.congr (fun k' => (has_goes hslot k').trans (has_close k')) rfl
  | admits k hthread hfree =>
      have hhand : (s.listener l).thread.hand = some k := congrArg Listening.hand hthread
      refine h.take (k := k) ?_ hfree
        (has_gain (p := .admitted k) (congrArg Listening.slot hthread) rfl) rfl
      -- Only this listener has the socket, and it has no slot yet.
      rintro (⟨l', hl'⟩ | hbusy)
      · obtain rfl := hplaced.apart l' l k (Listening.hand_of_slot hl') hhand
        rw [hthread] at hl'
        cases hl'
      · rw [(hplaced.taken l k hhand).2] at hbusy
        cases hbusy
  | adds k hthread =>
      exact h.congr (has_goes (p := .added k) (by rw [hthread]; rfl)) rfl
  | spawns k hthread =>
      exact h.congr (has_spawn (congrArg Listening.slot hthread) rfl rfl) rfl

theorem Counted.connected (h : Counted s) (hplaced : Placed s) (hstep : Connected s k t) :
    Counted t := by
  cases hstep with
  | moves p hthread hp =>
      refine h.congr (has_moves ?_) rfl
      rw [Connection.busy_of_running hp, Connection.busy_of_running hthread]
  | closes hthread =>
      have hbusy : Connection.busy .removing = ((s.close k).socket k).thread.busy := by
        rw [thread_close, hthread]
        rfl
      exact h.congr (fun k' => (has_moves hbusy k').trans (has_close k')) rfl
  | removes hthread =>
      exact h.congr (has_moves (g := Connection.busy) (p := .releasing) (by rw [hthread]; rfl)) rfl
  | releases hthread =>
      refine h.give (k := k) (.inr (by rw [hthread]; rfl))
        (has_loss (s := s) (p := .ended) (fun l hl => ?_) rfl) rfl
      exact hplaced.free (by simp [hthread]) l (Listening.hand_of_slot hl)

/-! ### `sockets` -/

theorem listed_start (enabled : Bool) (secret : Bytes) : Listed (start enabled secret) := by
  refine fun k => ⟨fun h => (List.not_mem_nil h).elim, fun h => ?_⟩
  rcases h with ⟨l, hlisted⟩ | hregistered
  · cases hlisted
  · cases hregistered

theorem Listed.congr (h : Listed s)
    (hhas : ∀ k, t.Has Listening.listed Connection.registered k ↔
      s.Has Listening.listed Connection.registered k)
    (hsockets : t.sockets = s.sockets) : Listed t := by
  intro k
  rw [hsockets, hhas]
  exact h k

theorem Listed.listened (h : Listed s) (hstep : Listened s l t) : Listed t := by
  cases hstep with
  | goes p _ _ hlisted => exact h.congr (has_goes hlisted) rfl
  | accepts hthread =>
      exact h.congr (has_goes (p := .accepted s.accepted) (by rw [hthread]; rfl)) rfl
  | rejects k p hthread hp =>
      have hlisted : p.listed = ((s.close k).listener l).thread.listed :=
        (Listening.listed_of_hand hp).trans (congrArg Listening.listed hthread).symm
      exact h.congr (fun k' => (has_goes hlisted k').trans (has_close k')) rfl
  | admits k hthread =>
      exact h.congr (has_goes (p := .admitted k) (by rw [hthread]; rfl)) rfl
  | adds k hthread =>
      intro k'
      have hgain := has_gain (s := s) (g := Connection.registered) (p := .added k)
        (congrArg Listening.listed hthread) rfl k'
      refine Iff.trans ?_ hgain.symm
      rw [List.mem_append, List.mem_singleton, h k', or_comm]
  | spawns k hthread =>
      exact h.congr (has_spawn (congrArg Listening.listed hthread) rfl rfl) rfl

theorem Listed.connected (h : Listed s) (hplaced : Placed s) (hstep : Connected s k t) :
    Listed t := by
  cases hstep with
  | moves p hthread hp =>
      refine h.congr (has_moves ?_) rfl
      rw [Connection.registered_of_running hp, Connection.registered_of_running hthread]
  | closes hthread =>
      have hregistered :
          Connection.registered .removing = ((s.close k).socket k).thread.registered := by
        rw [thread_close, hthread]
        rfl
      exact h.congr (fun k' => (has_moves hregistered k').trans (has_close k')) rfl
  | removes hthread =>
      intro k'
      have hloss := has_loss (s := s) (k := k) (p := .releasing) (g := Connection.registered)
        (fun l hl => hplaced.free (by simp [hthread]) l (Listening.hand_of_listed hl)) rfl k'
      refine Iff.trans ?_ hloss.symm
      rw [List.mem_filter, decide_eq_true_eq, h k']
  | releases hthread =>
      exact h.congr
        (has_moves (g := Connection.registered) (p := .ended) (by rw [hthread]; rfl)) rfl

/-! ### The user -/

theorem left_closeServer (s : State) (user : User) : Left s (s.closeServer user) := by
  unfold State.closeServer
  split
  · rename_i l _
    have hsame (l' : ListenerId) :
        ((s.setListener l {s.listener l with closed := true}).listener l').thread =
          (s.listener l').thread := by
      by_cases hl : l' = l
      · subst hl
        simp [State.setListener]
      · simp [State.setListener, hl]
    exact ⟨fun l' => .inl (hsame l'), fun l' hl' => ⟨hl', hsame l'⟩, fun _ => rfl, fun _ => id,
      rfl, rfl, rfl⟩
  · exact ⟨fun _ => .inl rfl, fun _ hl => ⟨hl, rfl⟩, fun _ => rfl, fun _ => id, rfl, rfl, rfl⟩

theorem left_bind (h : Placed s) {p : Listening} (hp : p.hand = none) : Left s (s.bind p) := by
  have hother {l : ListenerId} (hl : l ≠ s.listeners) :
      ((s.bind p).listener l).thread = (s.listener l).thread := by
    simp [State.bind, State.setListener, hl]
  refine ⟨fun l => ?_, fun l hl => ?_, fun _ => rfl, fun _ => id, rfl, rfl, rfl⟩
  · by_cases hl : l = s.listeners
    · subst hl
      refine .inr ⟨by rw [h.unbound _ le_rfl]; rfl, ?_⟩
      simpa [State.bind, State.setListener] using hp
    · exact .inl (hother hl)
  · have hless : s.listeners < l := hl
    exact ⟨hless.le, hother hless.ne'⟩

theorem left_closeSockets (s : State) (user : User) :
    Left s {s.closeSockets with user := user} := by
  refine ⟨fun _ => .inl rfl, fun _ hl => ⟨hl, rfl⟩, fun k => ?_, fun k hk => ?_, rfl, rfl, rfl⟩
  · unfold State.closeSockets
    dsimp only
    split <;> rfl
  · unfold State.closeSockets
    dsimp only
    split
    · rfl
    · exact hk

structure Owned (s : State) : Prop where
  placed : Placed s
  counted : Counted s
  listed : Listed s

theorem owned_start (enabled : Bool) (secret : Bytes) : Owned (start enabled secret) :=
  ⟨placed_start enabled secret, counted_start enabled secret, listed_start enabled secret⟩

theorem Owned.left (h : Owned s) (hleft : Left s t) : Owned t where
  placed := h.placed.left hleft
  counted := h.counted.congr (hleft.has fun _ => Listening.slot_of_hand) hleft.slots
  listed := h.listed.congr (hleft.has fun _ => Listening.listed_of_hand) hleft.sockets

/-- Who has what does not depend on what the user set. -/
theorem Owned.setting (h : Owned s) (enabled stopped : Bool) (secret : Bytes) (user : User) :
    Owned {s with enabled, stopped, secret, user} :=
  h.left ⟨fun _ => .inl rfl, fun _ hl => ⟨hl, rfl⟩, fun _ => rfl, fun _ => id, rfl, rfl, rfl⟩

theorem Owned.start (h : Owned s) (o : Outcome) : Owned (s.start o) := by
  unfold State.start
  split
  · exact h
  · cases o with
    | ready => exact h.left (left_bind h.placed rfl)
    | unbound => exact h.left (left_closeServer s _)
    | unusable => exact (h.left (left_bind h.placed rfl)).left (left_closeServer _ _)

theorem Owned.next {e : Event} (h : Owned s) (hnext : next s e = some t) : Owned t := by
  cases e with
  | enable enabled =>
      cases hnext
      exact h.setting enabled s.stopped s.secret s.user
  | start o =>
      obtain ⟨-, hnext⟩ := Option.ite_none_right_eq_some.mp hnext
      cases hnext
      exact h.start o
  | disable =>
      obtain ⟨-, hnext⟩ := Option.ite_none_right_eq_some.mp hnext
      cases hnext
      exact h.left (left_closeServer s _)
  | reset =>
      obtain ⟨-, hnext⟩ := Option.ite_none_right_eq_some.mp hnext
      cases hnext
      exact h.left (left_closeServer s _)
  | stop =>
      obtain ⟨-, hnext⟩ := Option.ite_none_right_eq_some.mp hnext
      cases hnext
      exact h.setting s.enabled true s.secret .stopping
  | closeSockets =>
      cases huser : s.user with
      | disabling =>
          simp only [WifiTransport.next, huser, Option.some.injEq] at hnext
          subst hnext
          exact h.left (left_closeSockets s _)
      | resetting =>
          simp only [WifiTransport.next, huser, Option.some.injEq] at hnext
          subst hnext
          exact h.left (left_closeSockets s _)
      | idle | stopping | renewing => simp [WifiTransport.next, huser] at hnext
  | renew secret o =>
      obtain ⟨-, hnext⟩ := Option.ite_none_right_eq_some.mp hnext
      cases secret with
      | none =>
          cases hnext
          exact h.setting s.enabled s.stopped s.secret .idle
      | some secret =>
          cases hnext
          exact (h.setting s.enabled s.stopped secret .idle).start o
  | listen l ok =>
      obtain ⟨hthread, hstep⟩ := listen_cases hnext
      exact ⟨h.placed.listened hthread hstep, h.counted.listened h.placed hstep,
        h.listed.listened hstep⟩
  | connection k ok =>
      have hstep := connection_cases hnext
      exact ⟨h.placed.connected hstep, h.counted.connected h.placed hstep,
        h.listed.connected h.placed hstep⟩
  | receive k magic received =>
      obtain ⟨hthread, hnext⟩ := Option.ite_none_right_eq_some.mp hnext
      cases hnext
      simp only [Bool.and_eq_true, decide_eq_true_eq] at hthread
      have hstep : Connected s k (s.moves k (.verifying magic received)) :=
        .moves _ (by rw [hthread.1]; rfl) rfl
      exact ⟨h.placed.connected hstep, h.counted.connected h.placed hstep,
        h.listed.connected h.placed hstep⟩
  | exchange k =>
      obtain ⟨-, hnext⟩ := Option.ite_none_right_eq_some.mp hnext
      cases hnext
      exact h

/-- In every run each accepted socket is with one thread, a listener's or its
own, unless it is closed; the sockets that were let in and the free slots are
four together; and `sockets` has those that were let in and not removed. -/
theorem admission_law {enabled : Bool} {secret : Bytes} {s : State}
    (h : Reach next always (start enabled secret) s) :
    (∀ k < s.accepted, (∃ l, (s.listener l).thread.hand = some k) ∨
      (s.socket k).thread.running = true ∨ (s.socket k).closed = true) ∧
    (∀ l k, (s.listener l).thread.hand = some k → (s.socket k).thread = .absent ∧
      ∀ l', (s.listener l').thread.hand = some k → l = l') ∧
    (∃ held : Finset SocketId, s.slots + held.card = 4 ∧
      ∀ k, k ∈ held ↔ s.Has Listening.slot Connection.busy k) ∧
    ∀ k, k ∈ s.sockets ↔ s.Has Listening.listed Connection.registered k := by
  have howned : Owned s :=
    h.invariant (owned_start enabled secret) fun _ _ _ hs _ hnext => hs.next hnext
  obtain ⟨held, hmem, hcount⟩ := howned.counted
  refine ⟨fun k hk => ?_, fun l k hl => ?_, ⟨held, hcount, hmem⟩, howned.listed⟩
  · by_cases hhad : s.Has Listening.hand Connection.running k
    · exact hhad.imp_right .inl
    · exact .inr (.inr (howned.placed.disowned k hk hhad))
  · exact ⟨(howned.placed.taken l k hl).2, fun l' => howned.placed.apart l l' k hl⟩

/-- Four computers are let in and keep the slots; the fifth is not. -/
def crowdedEvents : List Event :=
  .start .ready :: (List.replicate 4 (List.replicate 6 (.listen 0 true))).flatten ++
    List.replicate 4 (.listen 0 true)

theorem fifth_rejected : ∃ s : State, (s.listener 0).thread = .rejecting 4 ∧
    (s.socket 4).closed = false ∧ ∃ held : Finset SocketId, held.card = 4 ∧
      ∀ k, k ∈ held ↔ s.Has Listening.slot Connection.busy k := by
  obtain ⟨s, hrun, hthread, hopen, hslots⟩ : ∃ s,
      replay next always (start true [1]) crowdedEvents = some s ∧
        (s.listener 0).thread = .rejecting 4 ∧ (s.socket 4).closed = false ∧ s.slots = 0 :=
    ⟨_, rfl, rfl, rfl, rfl⟩
  obtain ⟨-, -, ⟨held, hcount, hmem⟩, -⟩ := admission_law (reach_of_replay hrun)
  refine ⟨s, hthread, hopen, held, ?_, hmem⟩
  omega

end Passkey.Phone.WifiTransport

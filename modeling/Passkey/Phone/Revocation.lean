import Passkey.Phone.WifiTransport

/-!
A reset of the pairing. The secret is replaced while the monitor is held and
after every socket was closed, and a connection thread copies the secret under
the same monitor. So a thread that got past its check with the old secret has a
closed socket, and one that checks later compares with the new secret.
-/

namespace Passkey.Phone.WifiTransport

open Library

/-- The thread is past the check of its peer. -/
def Connection.paired : Connection → Bool
  | .greeting | .settling | .calling | .serving => true
  | _ => false

theorem Connection.running_of_paired {p : Connection} (h : p.paired = true) :
    p.running = true := by
  cases p <;> first | rfl | cases h

/-- What the peers presented, and the secrets that were replaced. -/
structure Record where
  presented : SocketId → Option Bytes := fun _ => none
  revoked : List Bytes := []

def observe (s : State) (e : Event) (_ : State) (g : Record) : Record :=
  match e with
  | .receive k _ received => {g with presented := Function.update g.presented k (some received)}
  | .renew (some _) _ => {g with revoked := s.secret :: g.revoked}
  | _ => g

/-- The random source draws no secret a second time. -/
def FreshSecret (x : State × Record) (e : Event) : Prop :=
  match e with
  | .renew (some secret) _ => secret ≠ x.1.secret ∧ secret ∉ x.2.revoked
  | _ => True

instance (x : State × Record) (e : Event) : Decidable (FreshSecret x e) :=
  match e with
  | .renew (some secret) _ =>
      inferInstanceAs (Decidable (secret ≠ x.1.secret ∧ secret ∉ x.2.revoked))
  | .renew none _ | .enable _ | .start _ | .disable | .reset | .stop | .closeSockets | .listen ..
  | .connection .. | .receive .. | .exchange _ => .isTrue trivial

/-! ### What a step does to the sockets -/

namespace State

/-- The thread is past its check and its socket is open. -/
def Open (s : State) (k : SocketId) : Prop :=
  (s.socket k).thread.paired = true ∧ (s.socket k).closed = false

@[simp] theorem socket_goes (s : State) (l : ListenerId) (p : Listening) :
    (s.goes l p).socket = s.socket := rfl

@[simp] theorem socket_closeServer (s : State) (user : User) :
    (s.closeServer user).socket = s.socket := by
  unfold closeServer
  split <;> rfl

@[simp] theorem socket_start (s : State) (o : Outcome) : (s.start o).socket = s.socket := by
  unfold start
  split
  · rfl
  · cases o
    · rfl
    · exact socket_closeServer s _
    · exact socket_closeServer _ _

@[simp] theorem secret_closeServer (s : State) (user : User) :
    (s.closeServer user).secret = s.secret := by
  unfold closeServer
  split <;> rfl

@[simp] theorem secret_start (s : State) (o : Outcome) : (s.start o).secret = s.secret := by
  unfold start
  split
  · rfl
  · cases o
    · rfl
    · exact secret_closeServer s _
    · exact secret_closeServer _ _

theorem user_closeServer (s : State) (user : User) : (s.closeServer user).user = user := by
  unfold closeServer
  split <;> rfl

theorem user_start {s : State} (h : s.user = .idle) (o : Outcome) :
    (s.start o).user ≠ .renewing := by
  unfold start
  split
  · simp [h]
  · cases o
    · simp [bind, setListener, h]
    · simp [user_closeServer]
    · simp [user_closeServer]

end State

/-- What a step does to the socket `k`: nothing opens it, and its thread gets
past the check only with the secret of that moment, while nobody holds the
monitor. -/
structure Keeps (s t : State) (e : Event) (k : SocketId) : Prop where
  opened : t.Open k → s.Open k ∨
    ∃ magic, (s.socket k).thread = .verifying magic s.secret ∧ s.user ≠ .renewing
  verifying : ∀ {magic received}, (t.socket k).thread = .verifying magic received →
    (s.socket k).thread = .verifying magic received ∨ e = .receive k magic received

theorem Keeps.same {s t : State} {e : Event} {k : SocketId} (h : t.socket k = s.socket k) :
    Keeps s t e k := by
  constructor
  · intro hopen
    unfold State.Open at hopen ⊢
    rw [h] at hopen
    exact .inl hopen
  · intro magic received hthread
    exact .inl (h ▸ hthread)

/-- The socket is closed, or its thread goes to another place. -/
theorem Keeps.moved {s t : State} {e : Event} {k : SocketId}
    (hclosed : (s.socket k).closed = true → (t.socket k).closed = true)
    (hpaired : (t.socket k).thread.paired = true → (s.socket k).thread.paired = true)
    (hthread : ∀ magic received, (t.socket k).thread = .verifying magic received →
      (s.socket k).thread = .verifying magic received) : Keeps s t e k := by
  constructor
  · intro hopen
    refine .inl ⟨hpaired hopen.1, ?_⟩
    by_contra hshut
    have hdead := hclosed (Bool.not_eq_false _ ▸ hshut)
    rw [hopen.2] at hdead
    cases hdead
  · intro magic received h
    exact .inl (hthread magic received h)

theorem Keeps.congr {s t t' : State} {e : Event} {k : SocketId} (h : Keeps s t e k)
    (hsocket : t'.socket = t.socket) : Keeps s t' e k := by
  constructor
  · intro hopen
    unfold State.Open at hopen
    rw [hsocket] at hopen
    exact h.opened hopen
  · intro magic received hthread
    rw [hsocket] at hthread
    exact h.verifying hthread

theorem keeps_moves {s : State} {k' : SocketId} {p : Connection} (e : Event) (k : SocketId)
    (hpaired : p.paired = true → (s.socket k').thread.paired = true)
    (hp : ∀ magic received, p ≠ .verifying magic received) : Keeps s (s.moves k' p) e k := by
  by_cases hk : k = k'
  · subst hk
    apply Keeps.moved
    · rw [State.closed_moves]
      exact id
    · rw [thread_moves, if_pos rfl]
      exact hpaired
    · rw [thread_moves, if_pos rfl]
      intro magic received heq
      exact absurd heq (hp magic received)
  · apply Keeps.same
    simp [State.moves, State.setSocket, hk]

theorem keeps_close (s : State) (e : Event) (k k' : SocketId) : Keeps s (s.close k') e k := by
  apply Keeps.moved
  · exact State.closed_close
  · rw [thread_close]
    exact id
  · rw [thread_close]
    exact fun _ _ => id

theorem keeps_closeSockets (s : State) (e : Event) (k : SocketId) :
    Keeps s s.closeSockets e k := by
  unfold State.closeSockets
  apply Keeps.moved
  · intro hclosed
    dsimp only
    split
    · rfl
    · exact hclosed
  · dsimp only
    split <;> exact id
  · intro magic received
    dsimp only
    split <;> exact id

/-- A call on the socket leads on, or to the end of the thread. -/
theorem keeps_uses {s : State} {k' : SocketId} {ok : Bool} {p : Connection} (e : Event)
    (k : SocketId) (hpaired : p.paired = true → (s.socket k').thread.paired = true)
    (hp : ∀ magic received, p ≠ .verifying magic received) : Keeps s (s.uses k' ok p) e k := by
  unfold State.uses
  split
  · exact keeps_moves e k hpaired hp
  · exact keeps_moves e k (fun h => by cases h) (by simp)

theorem keeps_listen {s t : State} {l : ListenerId} {ok : Bool} (e : Event) (k : SocketId)
    (hnext : s.listen l ok = some t) : Keeps s t e k := by
  unfold State.listen at hnext
  cases hthread : (s.listener l).thread with
  | testing | accepted =>
      simp only [hthread, Option.some.injEq] at hnext
      subst hnext
      exact .same rfl
  | waiting | onWifi =>
      simp only [hthread] at hnext
      split_ifs at hnext
      all_goals
        cases hnext
        exact .same rfl
  | rejecting k' =>
      simp only [hthread, Option.some.injEq] at hnext
      subst hnext
      exact (keeps_close s e k k').congr rfl
  | admitted k' =>
      simp only [hthread, Option.some.injEq] at hnext
      subst hnext
      exact .same rfl
  | added k' =>
      simp only [hthread, Option.some.injEq] at hnext
      subst hnext
      have hmoved : Keeps s (s.moves k' .starting) e k :=
        keeps_moves e k (fun h => by cases h) (by simp)
      exact hmoved.congr rfl
  | ended =>
      simp [hthread] at hnext

theorem keeps_connection {s t : State} {k' : SocketId} {ok : Bool} (e : Event) (k : SocketId)
    (hnext : s.connection k' ok = some t) : Keeps s t e k := by
  unfold State.connection at hnext
  cases hthread : (s.socket k').thread with
  | starting | handshaking =>
      simp only [hthread, Option.some.injEq] at hnext
      subst hnext
      exact keeps_uses e k (fun h => by cases h) (by simp)
  | greeting | settling =>
      simp only [hthread, Option.some.injEq] at hnext
      subst hnext
      apply keeps_uses e k _ (by simp)
      intro _
      rw [hthread]
      rfl
  | calling =>
      simp only [hthread, Option.some.injEq] at hnext
      subst hnext
      apply keeps_moves e k _ (by simp)
      intro _
      rw [hthread]
      rfl
  | serving =>
      simp only [hthread, Option.some.injEq] at hnext
      subst hnext
      exact keeps_moves e k (fun h => by cases h) (by simp)
  | reading =>
      simp only [hthread] at hnext
      split_ifs at hnext
      cases hnext
      exact keeps_moves e k (fun h => by cases h) (by simp)
  | verifying magic received =>
      simp only [hthread] at hnext
      split_ifs at hnext with huser hchecked
      · cases hnext
        simp only [Bool.and_eq_true, decide_eq_true_eq] at hchecked
        obtain ⟨-, rfl⟩ := hchecked
        by_cases hk : k = k'
        · subst hk
          constructor
          · intro _
            refine .inr ⟨magic, hthread, ?_⟩
            intro hrenewing
            simp [hrenewing] at huser
          · intro magic' received' h
            rw [thread_moves, if_pos rfl] at h
            cases h
        · apply Keeps.same
          simp [State.moves, State.setSocket, hk]
      · cases hnext
        exact keeps_moves e k (fun h => by cases h) (by simp)
  | closing =>
      simp only [hthread, Option.some.injEq] at hnext
      subst hnext
      by_cases hk : k = k'
      · subst hk
        apply Keeps.moved
        · intro hclosed
          rw [State.closed_moves]
          exact State.closed_close hclosed
        · rw [thread_moves, if_pos rfl]
          intro h
          cases h
        · rw [thread_moves, if_pos rfl]
          intro magic received h
          cases h
      · apply Keeps.same
        simp [State.moves, State.close, State.setSocket, hk]
  | removing =>
      simp only [hthread, Option.some.injEq] at hnext
      subst hnext
      have hmoved : Keeps s (s.moves k' .releasing) e k :=
        keeps_moves e k (fun h => by cases h) (by simp)
      exact hmoved.congr rfl
  | releasing =>
      simp only [hthread, Option.some.injEq] at hnext
      subst hnext
      have hmoved : Keeps s (s.moves k' .ended) e k :=
        keeps_moves e k (fun h => by cases h) (by simp)
      exact hmoved.congr rfl
  | absent | ended =>
      simp [hthread] at hnext

theorem keeps_next {s t : State} {e : Event} (k : SocketId) (hnext : next s e = some t) :
    Keeps s t e k := by
  cases e with
  | enable enabled =>
      cases hnext
      exact .same rfl
  | start o =>
      obtain ⟨-, hnext⟩ := Option.ite_none_right_eq_some.mp hnext
      cases hnext
      exact .same (by rw [State.socket_start])
  | disable | reset =>
      obtain ⟨-, hnext⟩ := Option.ite_none_right_eq_some.mp hnext
      cases hnext
      exact .same (by rw [State.socket_closeServer])
  | stop =>
      obtain ⟨-, hnext⟩ := Option.ite_none_right_eq_some.mp hnext
      cases hnext
      exact .same rfl
  | closeSockets =>
      cases huser : s.user with
      | disabling | resetting =>
          simp only [WifiTransport.next, huser, Option.some.injEq] at hnext
          subst hnext
          exact (keeps_closeSockets s _ k).congr rfl
      | idle | stopping | renewing => simp [WifiTransport.next, huser] at hnext
  | renew secret o =>
      obtain ⟨-, hnext⟩ := Option.ite_none_right_eq_some.mp hnext
      cases secret with
      | none =>
          cases hnext
          exact .same rfl
      | some secret =>
          cases hnext
          exact .same (by rw [State.socket_start])
  | listen l ok => exact keeps_listen _ k hnext
  | connection k' ok => exact keeps_connection _ k hnext
  | receive k' magic received =>
      obtain ⟨-, hnext⟩ := Option.ite_none_right_eq_some.mp hnext
      cases hnext
      by_cases hk : k = k'
      · subst hk
        constructor
        · intro hopen
          unfold State.Open at hopen
          rw [thread_moves, if_pos rfl] at hopen
          cases hopen.1
        · intro magic' received' hthread
          rw [thread_moves, if_pos rfl] at hthread
          cases hthread
          exact .inr rfl
      · apply Keeps.same
        simp [State.moves, State.setSocket, hk]
  | exchange k' =>
      obtain ⟨-, hnext⟩ := Option.ite_none_right_eq_some.mp hnext
      cases hnext
      exact .same rfl

/-! ### The secret and the monitor -/

theorem fields_listen {s t : State} {l : ListenerId} {ok : Bool} (h : s.listen l ok = some t) :
    t.secret = s.secret ∧ t.user = s.user := by
  unfold State.listen at h
  split at h
  all_goals
    try split_ifs at h
    all_goals
      cases h
      try exact ⟨rfl, rfl⟩

theorem fields_connection {s t : State} {k : SocketId} {ok : Bool}
    (h : s.connection k ok = some t) : t.secret = s.secret ∧ t.user = s.user := by
  unfold State.connection at h
  split at h
  all_goals
    try split_ifs at h
    all_goals
      cases h
      try exact ⟨rfl, rfl⟩

theorem next_secret {s t : State} {e : Event} (h : next s e = some t) :
    t.secret = s.secret ∨ s.user = .renewing ∧ ∃ o, e = .renew (some t.secret) o := by
  cases e with
  | enable =>
      cases h
      exact .inl rfl
  | start o =>
      obtain ⟨-, h⟩ := Option.ite_none_right_eq_some.mp h
      cases h
      exact .inl (State.secret_start s o)
  | disable | reset =>
      obtain ⟨-, h⟩ := Option.ite_none_right_eq_some.mp h
      cases h
      exact .inl (State.secret_closeServer s _)
  | stop | exchange | receive =>
      obtain ⟨-, h⟩ := Option.ite_none_right_eq_some.mp h
      cases h
      exact .inl rfl
  | closeSockets =>
      cases huser : s.user with
      | disabling | resetting =>
          simp only [WifiTransport.next, huser, Option.some.injEq] at h
          subst h
          exact .inl rfl
      | idle | stopping | renewing => simp [WifiTransport.next, huser] at h
  | renew secret o =>
      obtain ⟨huser, h⟩ := Option.ite_none_right_eq_some.mp h
      cases secret with
      | none =>
          cases h
          exact .inl rfl
      | some secret =>
          cases h
          rw [State.secret_start]
          exact .inr ⟨huser, o, rfl⟩
  | listen l ok => exact .inl (fields_listen h).1
  | connection k ok => exact .inl (fields_connection h).1

/-- `reset` comes to its renewal from the section that closes the sockets. -/
theorem next_renewing {s t : State} {e : Event} (h : next s e = some t)
    (ht : t.user = .renewing) :
    s.user = .renewing ∨ s.user = .resetting ∧ t.socket = s.closeSockets.socket := by
  cases e with
  | enable =>
      cases h
      exact .inl ht
  | start o =>
      obtain ⟨huser, h⟩ := Option.ite_none_right_eq_some.mp h
      cases h
      exact absurd ht (State.user_start huser o)
  | disable | reset =>
      obtain ⟨-, h⟩ := Option.ite_none_right_eq_some.mp h
      cases h
      rw [State.user_closeServer] at ht
      cases ht
  | stop =>
      obtain ⟨-, h⟩ := Option.ite_none_right_eq_some.mp h
      cases h
      cases ht
  | exchange | receive =>
      obtain ⟨-, h⟩ := Option.ite_none_right_eq_some.mp h
      cases h
      exact .inl ht
  | closeSockets =>
      cases huser : s.user with
      | disabling =>
          simp only [WifiTransport.next, huser, Option.some.injEq] at h
          subst h
          cases ht
      | resetting =>
          simp only [WifiTransport.next, huser, Option.some.injEq] at h
          subst h
          exact .inr ⟨rfl, rfl⟩
      | idle | stopping | renewing => simp [WifiTransport.next, huser] at h
  | renew secret o =>
      obtain ⟨huser, -⟩ := Option.ite_none_right_eq_some.mp h
      exact .inl huser
  | listen l ok => exact .inl ((fields_listen h).2 ▸ ht)
  | connection k ok => exact .inl ((fields_connection h).2 ▸ ht)

/-! ### Every run -/

/-- The part of `Inv` that needs nothing of the order of steps. -/
theorem Inv.any {s t : State} {e : Event} (h : Inv s false)
    (hnext : WifiTransport.next s e = some t) : Inv t false := by
  have hnone : NoneAdded (s, false) e := by
    cases e with
    | listen l ok => rfl
    | _ => trivial
  have hstep : watch WifiTransport.next observeOff (s, false) e = some (t, observeOff s e t false) :=
    Option.map_eq_some_iff.mpr ⟨t, hnext, rfl⟩
  exact (h.next hnone hstep).on

/-- A thread that is past its check on an open socket showed the secret in
force, which was never replaced. -/
structure Paired (s : State) (g : Record) : Prop where
  inv : Inv s false
  shown : ∀ {k magic received}, (s.socket k).thread = .verifying magic received →
    g.presented k = some received
  current : ∀ {k}, s.Open k → g.presented k = some s.secret
  renewing : s.user = .renewing → ∀ k, ¬ s.Open k
  fresh : s.secret ∉ g.revoked

theorem paired_start (enabled : Bool) (secret : Bytes) : Paired (start enabled secret) {} where
  inv := inv_start enabled secret
  shown h := by cases h
  current h := by cases h.1
  renewing h := by cases h
  fresh := List.not_mem_nil

/-- After the section that closes the sockets, no paired thread has an open one. -/
theorem Inv.shut {s : State} (h : Inv s false) (k : SocketId) : ¬ s.closeSockets.Open k := by
  intro ⟨hpaired, hopen⟩
  unfold State.closeSockets at hpaired hopen
  dsimp only at hpaired hopen
  split at hopen
  · cases hopen
  · rename_i hmem
    rw [if_neg hmem] at hpaired
    have hlive : s.Live k := .inl (Connection.running_of_paired hpaired)
    rcases h.found k hlive with hclosed | hfound
    · rw [hclosed] at hopen
      cases hopen
    · exact hmem hfound

theorem observe_presented {s t : State} {e : Event} {g : Record} {k : SocketId}
    (h : ∀ magic received, e ≠ .receive k magic received) :
    (observe s e t g).presented k = g.presented k := by
  cases e with
  | receive k' magic received =>
      have hk : k ≠ k' := fun heq => h magic received (heq ▸ rfl)
      simp [observe, hk]
  | renew secret o => cases secret <;> rfl
  | _ => rfl

theorem observe_revoked {s t : State} {e : Event} {g : Record}
    (h : ∀ secret o, e ≠ .renew (some secret) o) : (observe s e t g).revoked = g.revoked := by
  cases e with
  | renew secret o =>
      cases secret with
      | none => rfl
      | some secret => exact absurd rfl (h secret o)
  | _ => rfl

theorem Paired.next {x y : State × Record} {e : Event} (h : Paired x.1 x.2)
    (hfresh : FreshSecret x e) (hstep : watch next observe x e = some y) : Paired y.1 y.2 := by
  obtain ⟨s, g⟩ := x
  obtain ⟨t, g'⟩ := y
  obtain ⟨hnext, hrecord⟩ := watch_eq hstep
  dsimp only at h hnext hrecord ⊢
  have hshown {k : SocketId} {magic received : Bytes}
      (hthread : (t.socket k).thread = .verifying magic received) :
      g'.presented k = some received := by
    rw [hrecord]
    rcases (keeps_next k hnext).verifying hthread with hold | rfl
    · by_cases hreceive : ∃ magic received, e = .receive k magic received
      · obtain ⟨magic', received', rfl⟩ := hreceive
        obtain ⟨hreading, -⟩ := Option.ite_none_right_eq_some.mp hnext
        simp [hold] at hreading
      · rw [observe_presented fun magic received heq => hreceive ⟨magic, received, heq⟩]
        exact h.shown hold
    · simp [observe]
  have hrenewing (huser : t.user = .renewing) (k : SocketId) : ¬ t.Open k := by
    rcases next_renewing hnext huser with hold | ⟨hresetting, hsocket⟩
    · intro hopen
      rcases (keeps_next k hnext).opened hopen with hopen | ⟨-, -, hnot⟩
      · exact h.renewing hold k hopen
      · exact hnot hold
    · have hshut := h.inv.shut k
      unfold State.Open at hshut ⊢
      rw [hsocket]
      exact hshut
  have hcurrent {k : SocketId} (hopen : t.Open k) : g'.presented k = some t.secret := by
    rcases next_secret hnext with hsecret | ⟨huser, -, -⟩
    · have hpast : g.presented k = some s.secret := by
        rcases (keeps_next k hnext).opened hopen with hold | ⟨magic, hthread, -⟩
        · exact h.current hold
        · exact h.shown hthread
      rw [hrecord, hsecret, observe_presented]
      · exact hpast
      · rintro magic received rfl
        obtain ⟨-, heq⟩ := Option.ite_none_right_eq_some.mp hnext
        cases heq
        have hpaired := hopen.1
        rw [thread_moves, if_pos rfl] at hpaired
        cases hpaired
    · rcases (keeps_next k hnext).opened hopen with hold | ⟨-, -, hnot⟩
      · exact absurd hold (h.renewing huser k)
      · exact absurd huser hnot
  have hnew : t.secret ∉ g'.revoked := by
    rw [hrecord]
    by_cases hrenew : ∃ secret o, e = .renew (some secret) o
    · obtain ⟨secret, o, rfl⟩ := hrenew
      obtain ⟨hother, hnever⟩ := hfresh
      obtain ⟨-, heq⟩ := Option.ite_none_right_eq_some.mp hnext
      cases heq
      rw [State.secret_start]
      simp [observe, hother, hnever]
    · have hsecret : t.secret = s.secret := by
        rcases next_secret hnext with hsame | ⟨-, o, rfl⟩
        · exact hsame
        · exact absurd ⟨_, o, rfl⟩ hrenew
      rw [hsecret, observe_revoked fun secret o heq => hrenew ⟨secret, o, heq⟩]
      exact h.fresh
  exact ⟨h.inv.any hnext, hshown, hcurrent, hrenewing, hnew⟩

/-- Once `reset` has returned, a peer that presented a replaced secret is not
served: its socket is closed where its thread is past the check, so neither the
greeting nor a frame is exchanged, whenever it connected. -/
theorem revoked_unserved {enabled : Bool} {secret : Bytes} {s : State} {g : Record}
    (h : Reach (watch next observe) FreshSecret (start enabled secret, {}) (s, g)) {k : SocketId}
    {old : Bytes} (hrevoked : old ∈ g.revoked) (hpresented : g.presented k = some old) :
    ((s.socket k).thread.paired = true → (s.socket k).closed = true) ∧
      ((s.socket k).thread = .greeting →
        ∀ ok, next s (.connection k ok) = some (s.moves k .closing)) ∧
      next s (.exchange k) = none := by
  have hpaired : Paired s g :=
    h.invariant (I := fun x => Paired x.1 x.2) (paired_start enabled secret)
      fun x e y hx hok hstep => hx.next hok hstep
  have hshut : ¬ s.Open k := by
    intro hopen
    have hcurrent := hpaired.current hopen
    rw [hpresented, Option.some.injEq] at hcurrent
    exact hpaired.fresh (hcurrent ▸ hrevoked)
  have hclosed (hthread : (s.socket k).thread.paired = true) : (s.socket k).closed = true := by
    by_contra hopen
    exact hshut ⟨hthread, Bool.not_eq_true _ ▸ hopen⟩
  refine ⟨hclosed, fun hgreeting ok => ?_, if_neg ?_⟩
  · have hdead := hclosed (hgreeting ▸ rfl)
    simp [WifiTransport.next, State.connection, hgreeting, State.uses, hdead]
  · intro hserving
    simp only [Bool.and_eq_true, decide_eq_true_eq, Bool.not_eq_true'] at hserving
    exact hshut ⟨hserving.1 ▸ rfl, hserving.2⟩

/-- A computer is served with the first secret when the pairing is reset. -/
theorem served_revoked : ∃ s g,
    Reach (watch next observe) FreshSecret (start true [1], {}) (s, g) ∧
      (s.socket 0).thread = .serving ∧ next s (.exchange 0) = none := by
  obtain ⟨s, g, hrun, hserving, hrevoked, hpresented⟩ : ∃ s g,
      replay (watch next observe) FreshSecret (start true [1], {})
        (admittedEvents ++ servedEvents ++ [.reset, .closeSockets, .renew (some [2]) .ready])
          = some (s, g) ∧
      (s.socket 0).thread = .serving ∧ [1] ∈ g.revoked ∧ g.presented 0 = some [1] :=
    ⟨_, _, rfl, rfl, List.mem_cons_self, rfl⟩
  have hreach := reach_of_replay hrun
  exact ⟨s, g, hreach, hserving, (revoked_unserved hreach hrevoked hpresented).2.2⟩

end Passkey.Phone.WifiTransport

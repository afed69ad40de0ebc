import Passkey.Daemon.Records
import Passkey.Phone.Tasks

/-!
The daemon of one computer and the phones it is linked to. Each link leads to
one connection of one phone; the bytes written at either end arrive at the
other in order, at any time and in pieces of any size. The ping, or the
handshake, that comes before a link exists is left out: it carries no request.
Connections that belong to no link are those of other computers, which may
send a phone anything.
-/

namespace Passkey.Network

open Library

open Daemon (LinkId)

open Phone (Owner Sha256 Store)

abbrev PhoneId := Nat

/-- What is given: the process id of the daemon, the credentials of each phone,
and the connection that each link leads to, which is that of no other link. -/
structure Setup where
  sha : Sha256
  pid : UInt32
  store : PhoneId → Store
  keys : PhoneId → List Bytes
  far : LinkId → PhoneId × Owner
  near : PhoneId → Owner → Option LinkId
  near_iff : ∀ p c l, near p c = some l ↔ far l = (p, c)

structure State where
  daemon : Daemon.State
  phone : PhoneId → Phone.KeyService.State
  /-- How many of the bytes that the daemon wrote on a link have arrived. -/
  there : LinkId → Nat := fun _ => 0
  /-- How many of the bytes that the phone wrote have arrived. -/
  back : LinkId → Nat := fun _ => 0

inductive Event where
  | daemon (e : Daemon.Event)
  | phone (p : PhoneId) (e : Phone.KeyService.Event)
  /-- At most `n` more bytes arrive at the phone. -/
  | there (l : LinkId) (n : Nat)
  /-- At most `n` more bytes arrive at the daemon. -/
  | back (l : LinkId) (n : Nat)

namespace State

/-- The connection of the phone that a link leads to. -/
def far (n : Setup) (s : State) (l : LinkId) : Phone.KeyService.Conn :=
  (s.phone (n.far l).1).conn (n.far l).2

def setPhone (s : State) (p : PhoneId) (t : Phone.KeyService.State) : State :=
  {s with phone := Function.update s.phone p t}

/-- The next bytes on their way to the phone. -/
def arrivingThere (s : State) (l : LinkId) (k : Nat) : Bytes :=
  ((s.daemon.link l).sent.drop (s.there l)).take k

/-- The next bytes on their way to the daemon. -/
def arrivingBack (n : Setup) (s : State) (l : LinkId) (k : Nat) : Bytes :=
  ((s.far n l).sent.drop (s.back l)).take k

end State

/-- Bytes that come from the network are events of the links. -/
def fromOutside : Daemon.Event → Bool
  | .receive .. => true
  | _ => false

def Setup.overLink (n : Setup) (p : PhoneId) : Phone.KeyService.Event → Bool
  | .receive c _ => (n.near p c).isSome
  | _ => false

def next (n : Setup) : Next State Event := fun s e =>
  match e with
  | .daemon e =>
      if fromOutside e then none
      else (Daemon.next s.daemon e).map fun d => {s with daemon := d}
  | .phone p e =>
      if n.overLink p e then none
      else (Phone.KeyService.next n.sha (s.phone p) e).map (s.setPhone p)
  | .there l k =>
      (Phone.KeyService.next n.sha (s.phone (n.far l).1)
          (.receive (n.far l).2 (s.arrivingThere l k))).map fun t =>
        {s.setPhone (n.far l).1 t with
          there := Function.update s.there l (s.there l + (s.arrivingThere l k).length)}
  | .back l k =>
      (Daemon.next s.daemon (.receive l (s.arrivingBack n l k))).map fun d =>
        {s with
          daemon := d
          back := Function.update s.back l (s.back l + (s.arrivingBack n l k).length)}

def start (n : Setup) : State where
  daemon := Daemon.start n.pid
  phone p := Phone.KeyService.start (n.store p) (n.keys p)

/-! ### The runs of the parties -/

/-- A step of the system is a step of the daemon or of one phone. -/
inductive Step (n : Setup) (s : State) (t : State) : Prop where
  | daemon {e : Daemon.Event} (hlocal : fromOutside e = false)
      (hnext : Daemon.next s.daemon e = some t.daemon) (hphone : t.phone = s.phone)
      (hthere : t.there = s.there) (hback : t.back = s.back)
  | phone {p : PhoneId} {e : Phone.KeyService.Event} (hlocal : n.overLink p e = false)
      (hnext : Phone.KeyService.next n.sha (s.phone p) e = some (t.phone p))
      (hothers : ∀ q, q ≠ p → t.phone q = s.phone q) (hdaemon : t.daemon = s.daemon)
      (hthere : t.there = s.there) (hback : t.back = s.back)
  | there {l : LinkId} {k : Nat}
      (hnext : Phone.KeyService.next n.sha (s.phone (n.far l).1)
        (.receive (n.far l).2 (s.arrivingThere l k)) = some (t.phone (n.far l).1))
      (hothers : ∀ q, q ≠ (n.far l).1 → t.phone q = s.phone q) (hdaemon : t.daemon = s.daemon)
      (hthere : t.there =
        Function.update s.there l (s.there l + (s.arrivingThere l k).length))
      (hback : t.back = s.back)
  | back {l : LinkId} {k : Nat}
      (hnext : Daemon.next s.daemon (.receive l (s.arrivingBack n l k)) = some t.daemon)
      (hphone : t.phone = s.phone) (hthere : t.there = s.there)
      (hback : t.back =
        Function.update s.back l (s.back l + (s.arrivingBack n l k).length))

theorem setPhone_same (s : State) (p : PhoneId) (t : Phone.KeyService.State) :
    (s.setPhone p t).phone p = t :=
  Function.update_self ..

theorem setPhone_other (s : State) {p q : PhoneId} (t : Phone.KeyService.State) (h : q ≠ p) :
    (s.setPhone p t).phone q = s.phone q :=
  Function.update_of_ne h ..

theorem step_cases {n : Setup} {s t : State} {e : Event} (h : next n s e = some t) :
    Step n s t := by
  cases e with
  | daemon e =>
      obtain ⟨hlocal, heq⟩ := Option.ite_none_left_eq_some.mp h
      obtain ⟨d, hnext, rfl⟩ := Option.map_eq_some_iff.mp heq
      exact .daemon (Bool.eq_false_iff.mpr hlocal) hnext rfl rfl rfl
  | phone p e =>
      obtain ⟨hlocal, heq⟩ := Option.ite_none_left_eq_some.mp h
      obtain ⟨u, hnext, rfl⟩ := Option.map_eq_some_iff.mp heq
      refine .phone (Bool.eq_false_iff.mpr hlocal) ?_ (fun q hq => setPhone_other s u hq) rfl rfl
        rfl
      rw [setPhone_same, hnext]
  | there l k =>
      simp only [next, Option.map_eq_some_iff] at h
      obtain ⟨u, hnext, rfl⟩ := h
      refine .there ?_ (fun q hq => setPhone_other s u hq) rfl rfl rfl
      change _ = some ((s.setPhone _ u).phone _)
      rw [setPhone_same, hnext]
  | back l k =>
      simp only [next, Option.map_eq_some_iff] at h
      obtain ⟨d, hnext, rfl⟩ := h
      exact .back hnext rfl rfl rfl

/-- A run of the system is a run of the daemon. -/
theorem daemon_run {n : Setup} {ok : State → Event → Prop} {s : State}
    (h : Reach (next n) ok (start n) s) :
    Reach Daemon.next always (Daemon.start n.pid) s.daemon := by
  induction h with
  | refl => exact .refl
  | tail _ _ hstep ih =>
      cases step_cases hstep with
      | daemon _ hnext => exact ih.tail trivial hnext
      | phone _ _ _ hdaemon => exact hdaemon ▸ ih
      | there _ _ hdaemon => exact hdaemon ▸ ih
      | back hnext => exact ih.tail trivial hnext

/-- A run of the system is a run of each phone. -/
theorem phone_run {n : Setup} {ok : State → Event → Prop} {s : State}
    (h : Reach (next n) ok (start n) s) (p : PhoneId) :
    Reach (Phone.KeyService.next n.sha) always
      (Phone.KeyService.start (n.store p) (n.keys p)) (s.phone p) := by
  induction h with
  | refl => exact .refl
  | tail _ _ hstep ih =>
      have hmove {q : PhoneId} {e : Phone.KeyService.Event} {a b : State}
          (hrun : Reach (Phone.KeyService.next n.sha) always
            (Phone.KeyService.start (n.store p) (n.keys p)) (a.phone p))
          (hnext : Phone.KeyService.next n.sha (a.phone q) e = some (b.phone q))
          (hothers : ∀ r, r ≠ q → b.phone r = a.phone r) :
          Reach (Phone.KeyService.next n.sha) always
            (Phone.KeyService.start (n.store p) (n.keys p)) (b.phone p) := by
        by_cases hp : p = q
        · subst hp
          exact hrun.tail trivial hnext
        · exact hothers p hp ▸ hrun
      cases step_cases hstep with
      | daemon _ _ hphone => exact hphone ▸ ih
      | phone _ hnext hothers => exact hmove ih hnext hothers
      | there hnext hothers => exact hmove ih hnext hothers
      | back _ hphone => exact hphone ▸ ih

/-! ### The ends of a link -/

/-- No other link leads to the same connection. -/
theorem Setup.far_injective (n : Setup) {l m : LinkId} (h : n.far l = n.far m) : l = m := by
  have hl : n.near (n.far l).1 (n.far l).2 = some l := (n.near_iff ..).mpr rfl
  have hm : n.near (n.far l).1 (n.far l).2 = some m := (n.near_iff ..).mpr (h ▸ rfl)
  exact Option.some.inj (hl.symm.trans hm)

/-- What a step does to the phone that a link leads to: it stays, it takes a
step of its own in which nothing arrives on the link, or bytes arrive there. -/
inductive FarStep (n : Setup) (s t : State) (l : LinkId) : Prop where
  | same (hphone : t.phone (n.far l).1 = s.phone (n.far l).1) (hthere : t.there l = s.there l)
  | own {e : Phone.KeyService.Event} (he : ∀ bytes, e ≠ .receive (n.far l).2 bytes)
      (hnext : Phone.KeyService.next n.sha (s.phone (n.far l).1) e = some (t.phone (n.far l).1))
      (hthere : t.there l = s.there l) (hdaemon : t.daemon = s.daemon) (hback : t.back = s.back)
  | arrived {k : Nat} (hnext : Phone.KeyService.next n.sha (s.phone (n.far l).1)
        (.receive (n.far l).2 (s.arrivingThere l k)) = some (t.phone (n.far l).1))
      (hthere : t.there l = s.there l + (s.arrivingThere l k).length)
      (hdaemon : t.daemon = s.daemon) (hback : t.back = s.back)

theorem Step.farStep {n : Setup} {s t : State} (h : Step n s t) (l : LinkId) :
    FarStep n s t l := by
  cases h with
  | daemon _ _ hphone hthere => exact .same (by rw [hphone]) (by rw [hthere])
  | back _ hphone hthere => exact .same (by rw [hphone]) (by rw [hthere])
  | @phone p e hlocal hnext hothers hdaemon hthere hback =>
      by_cases hp : (n.far l).1 = p
      · subst hp
        refine .own (fun bytes he => ?_) hnext (by rw [hthere]) hdaemon hback
        rw [he, Setup.overLink, (n.near_iff _ _ l).mpr rfl] at hlocal
        cases hlocal
      · exact .same (hothers _ hp) (by rw [hthere])
  | @there m k hnext hothers hdaemon hthere hback =>
      by_cases hm : m = l
      · subst hm
        exact .arrived hnext (by rw [hthere, Function.update_self]) hdaemon hback
      · have hsame : t.there l = s.there l := by
          rw [hthere, Function.update_of_ne (Ne.symm hm)]
        by_cases hp : (n.far l).1 = (n.far m).1
        · refine .own (fun bytes he => ?_) (hp ▸ hnext) hsame hdaemon hback
          injection he with howner
          exact hm (n.far_injective (Prod.ext hp.symm howner))
        · exact .same (hothers _ hp) hsame

end Passkey.Network

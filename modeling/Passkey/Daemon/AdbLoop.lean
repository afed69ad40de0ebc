import Passkey.Daemon.Roster
import Passkey.Text

/-!
The thread that connects the phones on USB. In each round it asks the adb server
for their serials and tries those that no live link has, one after the other; a
phone that it failed to connect to is left alone for a while.
-/

namespace Passkey.Daemon.AdbLoop

open Library

abbrev Serial := Text

structure Link where
  serial : Serial
  alive : Bool := true

/-- Where `adb_loop` is, with the names of the links that were live when its
round began and what is left of the serials. Times are in milliseconds. -/
inductive Pc where
  | look
  | listed (serials : List Serial)
  | attempts (names todo : List Serial)
  | connecting (serial : Serial) (names todo : List Serial)
  | sleep (deadline : Nat)

structure State where
  clock : Nat := 61000
  links : List Link := []
  retry : Serial → Option Nat := fun _ => none
  lastStart : Nat := 0
  pc : Pc := .look

/-- What is found of the server: its devices, none of them if they cannot be
listed, or that it is not trusted. -/
inductive Server where
  | devices (serials : List Serial)
  | untrusted
  deriving DecidableEq

/-- How an attempt to connect ends. Where the timeout of the stream stays set,
`adb_loop` goes on with the next phone and sets no time for this one. -/
inductive Attempt where
  | added
  | failed
  | unset
  deriving DecidableEq

namespace State

/-- The serials of the live links. -/
def names (s : State) : List Serial :=
  (s.links.filter Link.alive).map Link.serial

def look (s : State) (server : Server) : Option State :=
  match s.pc with
  | .look =>
      match server with
      | .devices serials => some {s with pc := .listed serials}
      | .untrusted =>
          let lastStart := if 60000 < s.clock - s.lastStart then s.clock else s.lastStart
          some {s with lastStart, pc := .listed []}
  | .listed _ | .attempts .. | .connecting .. | .sleep _ => none

def turn (s : State) : Option State :=
  match s.pc with
  | .listed serials => some {s with pc := .attempts s.names serials}
  | .attempts _ [] => some {s with pc := .sleep (s.clock + 3000)}
  | .attempts names (serial :: todo) =>
      if serial ∈ names || (s.retry serial).any (s.clock < ·) then
        some {s with pc := .attempts names todo}
      else some {s with pc := .connecting serial names todo}
  | .sleep deadline => if deadline ≤ s.clock then some {s with pc := .look} else none
  | .look | .connecting .. => none

def attempt (s : State) (a : Attempt) : Option State :=
  match s.pc with
  | .connecting serial names todo =>
      match a with
      | .added => some {s with
          links := s.links ++ [{serial}]
          retry := Function.update s.retry serial none
          pc := .attempts names todo}
      | .failed => some {s with
          retry := Function.update s.retry serial (some (s.clock + 10000))
          pc := .attempts names todo}
      | .unset => some {s with pc := .attempts names todo}
  | .look | .listed _ | .attempts .. | .sleep _ => none

end State

inductive Event where
  | look (server : Server)
  | turn
  | attempt (a : Attempt)
  /-- A link closes. -/
  | close (i : Nat)
  | tick (ms : Nat)

def next : Next State Event := fun s e =>
  match e with
  | .look server => s.look server
  | .turn => s.turn
  | .attempt a => s.attempt a
  | .close i => some {s with links := s.links.modify i fun link => {link with alive := false}}
  | .tick ms => some {s with clock := s.clock + ms}

/-- The server lists a device once. -/
def Distinct (_ : State × List (Serial × Nat)) (e : Event) : Prop :=
  ∀ serials, e = .look (.devices serials) → serials.Nodup

/-- When an attempt failed, and with which phone. One that left the timeout set
is not among them: the phone is tried again in the next round. -/
def observeFailure (s : State) (e : Event) (_ : State) (failures : List (Serial × Nat)) :
    List (Serial × Nat) :=
  match s.pc, e with
  | .connecting serial _ _, .attempt .failed => (serial, s.clock) :: failures
  | _, _ => failures

/-! ### The live links -/

/-- What is left of a round is of phones that had a live link before it, if they
have one. -/
def Fresh (live : List Serial) : Pc → Prop
  | .look => True
  | .listed serials => serials.Nodup
  | .attempts names todo => todo.Nodup ∧ ∀ serial ∈ todo, serial ∈ live → serial ∈ names
  | .connecting serial names todo => (serial :: todo).Nodup ∧ serial ∉ live ∧
      ∀ serial ∈ todo, serial ∈ live → serial ∈ names
  | .sleep _ => True

theorem Fresh.mono {live live' : List Serial} {pc : Pc} (h : Fresh live pc) (hle : live' ⊆ live) :
    Fresh live' pc := by
  cases pc with
  | look => trivial
  | listed serials => exact h
  | attempts names todo => exact ⟨h.1, fun serial hmem hlive => h.2 serial hmem (hle hlive)⟩
  | connecting serial names todo =>
      exact ⟨h.1, fun hlive => h.2.1 (hle hlive),
        fun serial hmem hlive => h.2.2 serial hmem (hle hlive)⟩
  | sleep deadline => trivial

/-- Closing a link takes its serial from the live ones and leaves the others. -/
theorem names_close (links : List Link) (i : Nat) :
    (((links.modify i fun link => {link with alive := false}).filter Link.alive).map
      Link.serial).Sublist ((links.filter Link.alive).map Link.serial) := by
  induction links generalizing i with
  | nil => simp
  | cons link rest ih =>
      cases i with
      | zero =>
          rw [List.modify_zero_cons, List.filter_cons_of_neg (by simp)]
          exact ((List.sublist_cons_self link rest).filter Link.alive).map Link.serial
      | succ i =>
          rw [List.modify_succ_cons, List.filter_cons, List.filter_cons]
          split
          · exact (ih i).cons_cons link.serial
          · exact ih i

theorem names_add (s : State) (serial : Serial) :
    ((s.links ++ [Link.mk serial true]).filter Link.alive).map Link.serial =
      s.names ++ [serial] := by
  simp [State.names]

/-! ### The steps -/

variable {s t : State} {e : Event} {failures : List (Serial × Nat)}

inductive Step (s : State) : Event → State → Prop where
  | lists (serials : List Serial) (hpc : s.pc = .look) :
      Step s (.look (.devices serials)) {s with pc := .listed serials}
  | refuses (lastStart : Nat) (hpc : s.pc = .look) :
      Step s (.look .untrusted) {s with lastStart, pc := .listed []}
  | begins (serials : List Serial) (hpc : s.pc = .listed serials) :
      Step s .turn {s with pc := .attempts s.names serials}
  | ends (names : List Serial) (hpc : s.pc = .attempts names []) :
      Step s .turn {s with pc := .sleep (s.clock + 3000)}
  | skips (serial : Serial) (names todo : List Serial)
      (hpc : s.pc = .attempts names (serial :: todo)) :
      Step s .turn {s with pc := .attempts names todo}
  | tries (serial : Serial) (names todo : List Serial)
      (hpc : s.pc = .attempts names (serial :: todo)) (hnew : serial ∉ names)
      (hpast : ∀ deadline, s.retry serial = some deadline → deadline ≤ s.clock) :
      Step s .turn {s with pc := .connecting serial names todo}
  | wakes (deadline : Nat) (hpc : s.pc = .sleep deadline) : Step s .turn {s with pc := .look}
  | adds (serial : Serial) (names todo : List Serial) (hpc : s.pc = .connecting serial names todo) :
      Step s (.attempt .added) {s with
        links := s.links ++ [⟨serial, true⟩]
        retry := Function.update s.retry serial none
        pc := .attempts names todo}
  | fails (serial : Serial) (names todo : List Serial)
      (hpc : s.pc = .connecting serial names todo) :
      Step s (.attempt .failed) {s with
        retry := Function.update s.retry serial (some (s.clock + 10000))
        pc := .attempts names todo}
  | unsets (serial : Serial) (names todo : List Serial)
      (hpc : s.pc = .connecting serial names todo) :
      Step s (.attempt .unset) {s with pc := .attempts names todo}
  | closes (i : Nat) : Step s (.close i)
      {s with links := s.links.modify i fun link => {link with alive := false}}
  | ticks (ms : Nat) : Step s (.tick ms) {s with clock := s.clock + ms}

theorem look_cases {server : Server} (h : s.look server = some t) : Step s (.look server) t := by
  cases hpc : s.pc with
  | look =>
      cases server with
      | devices serials =>
          simp only [State.look, hpc, Option.some.injEq] at h
          subst h
          exact .lists serials hpc
      | untrusted =>
          simp only [State.look, hpc, Option.some.injEq] at h
          subst h
          exact .refuses _ hpc
  | listed | attempts | connecting | sleep => simp [State.look, hpc] at h

theorem turn_cases (h : s.turn = some t) : Step s .turn t := by
  cases hpc : s.pc with
  | listed serials =>
      simp only [State.turn, hpc, Option.some.injEq] at h
      subst h
      exact .begins serials hpc
  | attempts names todo =>
      cases todo with
      | nil =>
          simp only [State.turn, hpc, Option.some.injEq] at h
          subst h
          exact .ends names hpc
      | cons serial todo =>
          simp only [State.turn, hpc] at h
          split at h
          · cases h
            exact .skips serial names todo hpc
          · rename_i hgo
            cases h
            simp only [Bool.or_eq_true, decide_eq_true_eq, not_or] at hgo
            refine .tries serial names todo hpc hgo.1 fun deadline hretry => ?_
            simpa [hretry] using hgo.2
  | sleep deadline =>
      simp only [State.turn, hpc] at h
      split at h
      · cases h
        exact .wakes deadline hpc
      · cases h
  | look | connecting => simp [State.turn, hpc] at h

theorem attempt_cases {a : Attempt} (h : s.attempt a = some t) : Step s (.attempt a) t := by
  cases hpc : s.pc with
  | connecting serial names todo =>
      cases a with
      | added =>
          simp only [State.attempt, hpc, Option.some.injEq] at h
          subst h
          exact .adds serial names todo hpc
      | failed =>
          simp only [State.attempt, hpc, Option.some.injEq] at h
          subst h
          exact .fails serial names todo hpc
      | unset =>
          simp only [State.attempt, hpc, Option.some.injEq] at h
          subst h
          exact .unsets serial names todo hpc
  | look | listed | attempts | sleep => simp [State.attempt, hpc] at h

theorem next_cases (h : next s e = some t) : Step s e t := by
  cases e with
  | look server => exact look_cases h
  | turn => exact turn_cases h
  | attempt a => exact attempt_cases h
  | close i =>
      cases h
      exact .closes i
  | tick ms =>
      cases h
      exact .ticks ms

/-! ### One live link for a phone -/

structure Sole (s : State) : Prop where
  nodup : s.names.Nodup
  fresh : Fresh s.names s.pc

theorem sole_start : Sole {} where
  nodup := List.nodup_nil
  fresh := trivial

theorem Sole.step (h : Sole s) (hok : Distinct (s, failures) e) (hstep : Step s e t) : Sole t := by
  have hfresh := h.fresh
  cases hstep with
  | lists serials hpc => exact ⟨h.nodup, hok serials rfl⟩
  | refuses lastStart hpc => exact ⟨h.nodup, List.nodup_nil⟩
  | begins serials hpc =>
      rw [hpc] at hfresh
      exact ⟨h.nodup, hfresh, fun _ _ => id⟩
  | ends names hpc => exact ⟨h.nodup, trivial⟩
  | skips serial names todo hpc =>
      rw [hpc] at hfresh
      exact ⟨h.nodup, hfresh.1.of_cons, fun x hx => hfresh.2 x (List.mem_cons_of_mem _ hx)⟩
  | tries serial names todo hpc hnew =>
      rw [hpc] at hfresh
      exact ⟨h.nodup, hfresh.1, fun hlive => hnew (hfresh.2 serial List.mem_cons_self hlive),
        fun x hx => hfresh.2 x (List.mem_cons_of_mem _ hx)⟩
  | wakes deadline hpc => exact ⟨h.nodup, trivial⟩
  | adds serial names todo hpc =>
      rw [hpc] at hfresh
      obtain ⟨hnodup, hnew, hold⟩ := hfresh
      have hnames := names_add s serial
      have hboth : (s.names ++ [serial]).Nodup := List.concat_eq_append ▸ h.nodup.concat hnew
      refine ⟨(congrArg List.Nodup hnames).mpr hboth, hnodup.of_cons, fun x hx hlive => ?_⟩
      have hmem : x ∈ s.names ++ [serial] := (congrArg (x ∈ ·) hnames).mp hlive
      rcases List.mem_append.mp hmem with hlive | hlast
      · exact hold x hx hlive
      · -- The phone that was added is not listed again.
        obtain rfl := List.mem_singleton.mp hlast
        exact absurd hx (List.nodup_cons.mp hnodup).1
  | fails serial names todo hpc | unsets serial names todo hpc =>
      rw [hpc] at hfresh
      exact ⟨h.nodup, hfresh.1.of_cons, hfresh.2.2⟩
  | closes i =>
      have hsub := names_close s.links i
      exact ⟨h.nodup.sublist hsub, hfresh.mono hsub.subset⟩
  | ticks ms => exact ⟨h.nodup, hfresh⟩

/-! ### The pause -/

structure Paused (s : State) (failures : List (Serial × Nat)) : Prop where
  waits : ∀ serial n, (serial, n) ∈ failures → n + 10000 ≤ s.clock ∨
    ∃ deadline, s.retry serial = some deadline ∧ n + 10000 ≤ deadline
  connecting : ∀ serial names todo n, s.pc = .connecting serial names todo →
    (serial, n) ∈ failures → n + 10000 ≤ s.clock

theorem paused_start : Paused {} [] where
  waits _ _ h := by cases h
  connecting _ _ _ _ _ h := by cases h

/-- Steps that begin no attempt and end none. -/
theorem Paused.moves (h : Paused s failures) {pc : Pc}
    (hpc : ∀ serial names todo, pc ≠ .connecting serial names todo) (links : List Link)
    (lastStart : Nat) : Paused {s with links, lastStart, pc} failures where
  waits := h.waits
  connecting serial names todo _ heq := absurd heq (hpc serial names todo)

theorem observe_same (he : e ≠ .attempt .failed) : observeFailure s e t failures = failures := by
  unfold observeFailure
  split
  · exact absurd rfl he
  · rfl

theorem observe_failed {serial : Serial} {names todo : List Serial}
    (hpc : s.pc = .connecting serial names todo) :
    observeFailure s (.attempt .failed) t failures = (serial, s.clock) :: failures := by
  simp [observeFailure, hpc]

theorem Paused.added (h : Paused s failures) {serial : Serial} {names todo : List Serial}
    (hpc : s.pc = .connecting serial names todo) {x : Serial} {n : Nat}
    (hfailure : (x, n) ∈ failures) : n + 10000 ≤ s.clock ∨ ∃ deadline,
      Function.update s.retry serial none x = some deadline ∧ n + 10000 ≤ deadline := by
  by_cases hx : x = serial
  · subst hx
    exact .inl (h.connecting x names todo n hpc hfailure)
  · rw [Function.update_of_ne hx]
    exact h.waits x n hfailure

theorem Paused.failed (h : Paused s failures) {serial : Serial} {names todo : List Serial}
    (hpc : s.pc = .connecting serial names todo) {x : Serial} {n : Nat}
    (hfailure : (x, n) ∈ (serial, s.clock) :: failures) : n + 10000 ≤ s.clock ∨ ∃ deadline,
      Function.update s.retry serial (some (s.clock + 10000)) x = some deadline ∧
        n + 10000 ≤ deadline := by
  rcases List.mem_cons.mp hfailure with heq | hold
  · cases heq
    exact .inr ⟨_, Function.update_self .., le_rfl⟩
  · by_cases hx : x = serial
    · subst hx
      exact .inl (h.connecting x names todo n hpc hold)
    · rw [Function.update_of_ne hx]
      exact h.waits x n hold

theorem Paused.step (h : Paused s failures) (hstep : Step s e t) :
    Paused t (observeFailure s e t failures) := by
  cases hstep with
  | lists | begins | ends | skips | wakes | unsets =>
      rw [observe_same (by simp)]
      exact h.moves (by simp) s.links s.lastStart
  | refuses lastStart =>
      rw [observe_same (by simp)]
      exact h.moves (by simp) s.links lastStart
  | tries serial names todo hpc hnew hpast =>
      rw [observe_same (by simp)]
      refine ⟨h.waits, fun x _ _ n heq hfailure => ?_⟩
      cases heq
      rcases h.waits serial n hfailure with hlong | ⟨deadline, hretry, hn⟩
      · exact hlong
      · exact hn.trans (hpast deadline hretry)
  | adds serial names todo hpc =>
      rw [observe_same (by simp)]
      exact ⟨fun x n => h.added hpc, fun _ _ _ _ heq => by cases heq⟩
  | fails serial names todo hpc =>
      rw [observe_failed hpc]
      exact ⟨fun x n => h.failed hpc, fun _ _ _ _ heq => by cases heq⟩
  | closes i =>
      rw [observe_same (by simp)]
      exact ⟨h.waits, h.connecting⟩
  | ticks ms =>
      rw [observe_same (by simp)]
      refine ⟨fun x n hfailure => (h.waits x n hfailure).imp_left fun hlong => ?_,
        fun x names todo n hpc hfailure => ?_⟩
      · exact hlong.trans (Nat.le_add_right _ _)
      · exact (h.connecting x names todo n hpc hfailure).trans (Nat.le_add_right _ _)

/-- In every run in which the server lists a device once, no phone has two live
links; and whenever one is connected to, it has none, and ten seconds went by
since each attempt that failed with it, those aside that left the timeout set. -/
theorem usb_law {s : State} {failures : List (Serial × Nat)}
    (h : Reach (watch next observeFailure) Distinct ({}, []) (s, failures)) :
    s.names.Nodup ∧ ∀ serial names todo, s.pc = .connecting serial names todo →
      serial ∉ s.names ∧ ∀ n, (serial, n) ∈ failures → n + 10000 ≤ s.clock := by
  have hinv : Sole s ∧ Paused s failures := by
    refine h.invariant (I := fun x => Sole x.1 ∧ Paused x.1 x.2) ⟨sole_start, paused_start⟩ ?_
    rintro ⟨s, failures⟩ e ⟨t, failures'⟩ ⟨hsole, hpaused⟩ hok hstep
    obtain ⟨hnext, hfailures⟩ := watch_eq hstep
    dsimp only at hnext hfailures
    subst hfailures
    exact ⟨hsole.step hok (next_cases hnext), hpaused.step (next_cases hnext)⟩
  obtain ⟨hsole, hpaused⟩ := hinv
  refine ⟨hsole.nodup, fun serial names todo hpc => ⟨?_, fun n => ?_⟩⟩
  · have hfresh := hsole.fresh
    rw [hpc] at hfresh
    exact hfresh.2.1
  · exact hpaused.connecting serial names todo n hpc

/-! ### The links of the daemon -/

/-- A link on USB, which is named after the serial. -/
def ofRoster (k : Roster.Link) : Link :=
  ⟨k.name.drop 4, k.alive⟩

def onUsb (k : Roster.Link) : Bool :=
  k.priority = 0

def Shows (r : Roster.State) (s : State) : Prop :=
  s.links = (r.filter onUsb).map ofRoster

def addedLink (serial : Serial) : Roster.Link where
  name := Roster.usb ++ serial
  device := []
  label := []
  priority := 0
  named := by simp [Roster.usb, Roster.wifi]

theorem map_close (links : List Roster.Link) (i : Nat) :
    (links.modify i Roster.Link.close).map ofRoster =
      (links.map ofRoster).modify i fun link => {link with alive := false} :=
  Roster.map_modify (f := ofRoster) (g := Roster.Link.close) (fun _ => rfl) links i

/-- The thread sees the daemon's links on USB, and no other adds such links. -/
theorem beside_daemon :
    Roster.Beside Shows (· ≠ 0) {} next fun _ e => ∃ i, e = .close i := by
  refine .of_roster rfl ?_ ?_
  · intro r e r' s hs hok hnext
    cases e with
    | add k =>
        cases hnext
        refine ⟨s, .refl, ?_⟩
        have hother : onUsb {k with alive := true} = false := decide_eq_false hok
        rw [Shows, List.filter_append, List.filter_cons_of_neg (Bool.eq_false_iff.mp hother),
          List.filter_nil, List.append_nil]
        exact hs
    | close l =>
        cases hnext
        obtain ⟨i, hi⟩ := Roster.filter_close (p := onUsb) (fun _ => rfl) r l
        refine ⟨_, .step ⟨i, rfl⟩ rfl, ?_⟩
        rw [Shows, hi, map_close, ← hs]
  · intro s e t r hs _ hnext
    have hs : s.links = (r.filter onUsb).map ofRoster := hs
    cases next_cases hnext with
    | adds serial names todo hpc =>
        refine ⟨_, .step (e := .add (addedLink serial)) trivial rfl, ?_⟩
        change s.links ++ [_] = ((r ++ [_]).filter onUsb).map ofRoster
        rw [List.filter_append, List.map_append, hs]
        rfl
    | closes i =>
        obtain ⟨l, hl⟩ := Roster.close_filter (p := onUsb) (fun _ => rfl) r i
        refine ⟨_, .step (e := .close l) trivial rfl, ?_⟩
        rw [flip, Shows, ← hl, map_close, ← hs]
    | lists | refuses | begins | ends | skips | tries | wakes | fails | unsets | ticks =>
        exact ⟨r, .refl, hs⟩

theorem Shows.names {r : Roster.State} (h : Shows r s) :
    s.names = ((r.filter Roster.Link.alive).filter onUsb).map fun k => k.name.drop 4 := by
  rw [State.names, h, List.filter_map, List.map_map, List.filter_filter, List.filter_filter]
  refine congrArg (List.map _) (List.filter_congr fun k _ => ?_)
  exact Bool.and_comm ..

theorem Link.name_of_usb {k : Roster.Link} (h : onUsb k = true) :
    k.name = Roster.usb ++ k.name.drop 4 := by
  have hprefix : Roster.usb <+: k.name :=
    List.isPrefixOf_iff_prefix.mp (k.named.1.mpr (of_decide_eq_true h))
  obtain ⟨serial, hserial⟩ := hprefix
  rw [← hserial]
  rfl

/-- `adb_loop` looks for the name of the phone among those of all live links. -/
theorem Shows.mem_names {r : Roster.State} (h : Shows r s) {serial : Serial} :
    serial ∈ s.names ↔
      Roster.usb ++ serial ∈ (r.filter Roster.Link.alive).map Roster.Link.name := by
  rw [h.names, List.mem_map, List.mem_map]
  constructor
  · rintro ⟨k, hk, rfl⟩
    obtain ⟨hk, husb⟩ := List.mem_filter.mp hk
    exact ⟨k, hk, Link.name_of_usb husb⟩
  · rintro ⟨k, hk, hname⟩
    have hprefix : Roster.usb.isPrefixOf k.name = true :=
      List.isPrefixOf_iff_prefix.mpr ⟨serial, hname.symm⟩
    refine ⟨k, List.mem_filter.mpr ⟨hk, decide_eq_true (k.named.1.mp hprefix)⟩, ?_⟩
    rw [hname]
    rfl

theorem names_shared {d : Daemon.State} (h : Roster.Shared Shows d s) :
    s.names.length = (d.liveLinks.filter fun l => (d.link l).priority = 0).length := by
  obtain ⟨r, hlists, hshows⟩ := h
  have hfields := congrArg
    (List.filter fun x : Text × UInt8 × Bool => decide (x.2.1 = 0)) hlists.live_fields
  rw [List.filter_map, List.filter_map] at hfields
  have hlength := congrArg List.length hfields
  rw [List.length_map, List.length_map] at hlength
  rw [Shows.names hshows, List.length_map]
  exact hlength.symm

def pixel : Serial :=
  "R58M".toList

/-- An attempt fails; the next round skips the phone, and a later one tries it. -/
def retriedEvents : List Event :=
  [.look (.devices [pixel]), .turn, .turn, .attempt .failed, .turn, .tick 3000, .turn,
    .look (.devices [pixel]), .turn, .turn, .turn, .tick 7000, .turn,
    .look (.devices [pixel]), .turn, .turn]

theorem retried_late : ∃ s : State, ∃ failures : List (Serial × Nat),
    s.pc = .connecting pixel [] [] ∧ (pixel, 61000) ∈ failures ∧ pixel ∉ s.names ∧
      ∀ n, (pixel, n) ∈ failures → n + 10000 ≤ s.clock := by
  obtain ⟨s, failures, hrun, hpc, hfailure⟩ : ∃ s failures,
      replay (watch next observeFailure) always ({}, []) retriedEvents = some (s, failures) ∧
        s.pc = .connecting pixel [] [] ∧ failures = [(pixel, 61000)] :=
    ⟨_, _, rfl, rfl, rfl⟩
  have hok : ∀ x, ∀ e ∈ retriedEvents, Distinct x e := by
    intro x e he serials heq
    subst heq
    simp only [retriedEvents, List.mem_cons, List.not_mem_nil, Event.look.injEq,
      Server.devices.injEq, reduceCtorEq, or_false, false_or, or_self] at he
    subst he
    exact List.nodup_singleton pixel
  obtain ⟨-, hlaw⟩ := usb_law (reach_of_replay_of_forall hok hrun)
  obtain ⟨hnew, hlong⟩ := hlaw pixel [] [] hpc
  exact ⟨s, failures, hpc, hfailure ▸ List.mem_singleton_self _, hnew, hlong⟩

end Passkey.Daemon.AdbLoop

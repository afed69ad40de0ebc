import Passkey.Daemon.Roster
import Passkey.Library.Fairness

/-!
The thread that finds out which phones are gone. In each round it asks the links
that are up, one after the other, and closes those on which no answer is read in
time; the threads that read the links hear the answers.
-/

namespace Passkey.Daemon.Keepalive

open Library

abbrev LinkId := Nat

structure Link where
  alive : Bool := true
  pong : Bool := false

/-- Where `keepalive_loop` is, with what is left of its list of links; from
`send` to `wait` it is in `ping`. Times are in milliseconds. -/
inductive Pc where
  | sleep (deadline : Nat)
  | round (todo : List LinkId)
  | send (l : LinkId) (todo : List LinkId)
  | lock (l : LinkId) (todo : List LinkId)
  | wait (l : LinkId) (todo : List LinkId) (deadline : Nat)
  | close (l : LinkId) (todo : List LinkId)

structure State where
  clock : Nat := 0
  links : List Link := []
  pc : Pc := .sleep 20000

namespace State

def alive (s : State) (l : LinkId) : Bool :=
  (s.links[l]?).any Link.alive

def pong (s : State) (l : LinkId) : Bool :=
  (s.links[l]?).any Link.pong

def liveLinks (s : State) : List LinkId :=
  (List.range s.links.length).filter s.alive

def setPong (s : State) (l : LinkId) (pong : Bool) : State :=
  {s with links := s.links.modify l fun link => {link with pong}}

def close (s : State) (l : LinkId) : State :=
  {s with links := s.links.modify l fun link => {link with alive := false}}

/-- A step of the thread; `ok` is how a PING is sent. -/
def turn (s : State) (ok : Bool) : Option State :=
  match s.pc with
  | .sleep deadline =>
      if deadline ≤ s.clock then some {s with pc := .round s.liveLinks} else none
  | .round [] => some {s with pc := .sleep (s.clock + 20000)}
  | .round (l :: todo) => some {s.setPong l false with pc := .send l todo}
  | .send l todo => some {s with pc := if ok then .lock l todo else .close l todo}
  | .lock l todo => some {s with pc := .wait l todo (s.clock + 10000)}
  | .wait l todo deadline =>
      if s.pong l then some {s with pc := .round todo}
      else if deadline < s.clock then some {s with pc := .close l todo}
      else none
  | .close l todo => some {s.close l with pc := .round todo}

end State

inductive Event where
  | keepalive (ok : Bool)
  /-- The reader of the link reads a PONG. -/
  | pong (l : LinkId)
  | add
  /-- The link closes for another reason. -/
  | close (l : LinkId)
  | tick (ms : Nat)

def next : Next State Event := fun s e =>
  match e with
  | .keepalive ok => s.turn ok
  | .pong l => if l < s.links.length then some (s.setPong l true) else none
  | .add => some {s with links := s.links ++ [{}]}
  | .close l => some (s.close l)
  | .tick ms => some {s with clock := s.clock + ms}

def keepalives : Set Event :=
  {e | ∃ ok, e = .keepalive ok}

/-- What the thread did in one step. -/
inductive Turn (s : State) (ok : Bool) : State → Prop where
  | wakes (deadline : Nat) (hpc : s.pc = .sleep deadline) (hpast : deadline ≤ s.clock) :
      Turn s ok {s with pc := .round s.liveLinks}
  | ends (hpc : s.pc = .round []) : Turn s ok {s with pc := .sleep (s.clock + 20000)}
  | clears (l : LinkId) (todo : List LinkId) (hpc : s.pc = .round (l :: todo)) :
      Turn s ok {s.setPong l false with pc := .send l todo}
  | sends (l : LinkId) (todo : List LinkId) (hpc : s.pc = .send l todo) (hok : ok = true) :
      Turn s ok {s with pc := .lock l todo}
  | fails (l : LinkId) (todo : List LinkId) (hpc : s.pc = .send l todo) (hok : ok = false) :
      Turn s ok {s with pc := .close l todo}
  | locks (l : LinkId) (todo : List LinkId) (hpc : s.pc = .lock l todo) :
      Turn s ok {s with pc := .wait l todo (s.clock + 10000)}
  | hears (l : LinkId) (todo : List LinkId) (deadline : Nat) (hpc : s.pc = .wait l todo deadline)
      (hpong : s.pong l = true) : Turn s ok {s with pc := .round todo}
  | expires (l : LinkId) (todo : List LinkId) (deadline : Nat)
      (hpc : s.pc = .wait l todo deadline) (hpong : s.pong l = false)
      (hpast : deadline < s.clock) : Turn s ok {s with pc := .close l todo}
  | closes (l : LinkId) (todo : List LinkId) (hpc : s.pc = .close l todo) :
      Turn s ok {s.close l with pc := .round todo}

theorem turn_cases {s t : State} {ok : Bool} (h : s.turn ok = some t) : Turn s ok t := by
  unfold State.turn at h
  split at h
  · obtain ⟨hpast, heq⟩ := Option.ite_none_right_eq_some.mp h
    cases heq
    exact .wakes _ ‹_› hpast
  · cases h
    exact .ends ‹_›
  · cases h
    exact .clears _ _ ‹_›
  · cases h
    cases ok with
    | true => exact .sends _ _ ‹_› rfl
    | false => exact .fails _ _ ‹_› rfl
  · cases h
    exact .locks _ _ ‹_›
  · split at h
    · cases h
      exact .hears _ _ _ ‹_› ‹_›
    · rename_i hpong
      obtain ⟨hpast, heq⟩ := Option.ite_none_right_eq_some.mp h
      cases heq
      exact .expires _ _ _ ‹_› (Bool.eq_false_iff.mpr hpong) hpast
  · cases h
    exact .closes _ _ ‹_›

/-! ### The links -/

variable {s t : State} {l m : LinkId}

/-- What a change leaves of a link is left in the list. -/
theorem any_modify (q : Link → Bool) (f : Link → Link) (h : ∀ link, q (f link) = q link)
    (links : List Link) (l m : LinkId) : ((links.modify m f)[l]?).any q = (links[l]?).any q := by
  rw [List.getElem?_modify]
  split
  · cases links[l]? with
    | none => rfl
    | some link => exact h link
  · simp

@[simp] theorem alive_setPong (b : Bool) : (s.setPong m b).alive l = s.alive l :=
  any_modify Link.alive (fun link => {link with pong := b}) (fun _ => rfl) s.links l m

@[simp] theorem pong_close : (s.close m).pong l = s.pong l :=
  any_modify Link.pong (fun link => {link with alive := false}) (fun _ => rfl) s.links l m

theorem pong_setPong_ne (h : m ≠ l) (b : Bool) : (s.setPong m b).pong l = s.pong l := by
  unfold State.pong State.setPong
  rw [List.getElem?_modify_ne _ _ h]

theorem pong_setPong_false : (s.setPong l false).pong l = false := by
  unfold State.pong State.setPong
  rw [List.getElem?_modify_eq]
  cases s.links[l]? <;> rfl

theorem alive_close_ne (h : m ≠ l) : (s.close m).alive l = s.alive l := by
  unfold State.alive State.close
  rw [List.getElem?_modify_ne _ _ h]

theorem alive_close_self : (s.close l).alive l = false := by
  unfold State.alive State.close
  rw [List.getElem?_modify_eq]
  cases s.links[l]? <;> rfl

theorem mem_liveLinks (h : s.alive l = true) : l ∈ s.liveLinks := by
  rw [State.liveLinks, List.mem_filter, List.mem_range]
  refine ⟨?_, h⟩
  by_contra hlarge
  rw [State.alive, List.getElem?_eq_none (Nat.not_lt.mp hlarge)] at h
  cases h

/-- A link that is added answers to nothing that was there. -/
theorem pong_add : State.pong {s with links := s.links ++ [{}]} l = s.pong l := by
  unfold State.pong
  rw [List.getElem?_append]
  split
  · rfl
  · rename_i hlarge
    rw [List.getElem?_eq_none (Nat.not_lt.mp hlarge)]
    cases hnew : ([{}] : List Link)[l - s.links.length]? with
    | none => rfl
    | some link =>
        obtain rfl := List.mem_singleton.mp (List.mem_of_getElem? hnew)
        rfl

/-! ### A link that is silent -/

/-- The link will be asked in this round, or is asked and has not answered. -/
def Pc.due (l : LinkId) (pong : Bool) : Pc → Prop
  | .sleep _ => False
  | .round todo => l ∈ todo
  | .send m todo | .lock m todo | .wait m todo _ => l ∈ todo ∨ m = l ∧ pong = false
  | .close m todo => l ∈ todo ∨ m = l

/-- How many steps the thread takes up to the end of its round. -/
def Pc.steps : Pc → ℕ
  | .sleep _ => 0
  | .round todo => 5 * todo.length + 1
  | .send _ todo => 5 * todo.length + 5
  | .lock _ todo => 5 * todo.length + 4
  | .wait _ todo _ => 5 * todo.length + 3
  | .close _ todo => 5 * todo.length + 2

open Classical in
/-- First the round that does not ask the link ends, then the one that does. -/
noncomputable def rank (l : LinkId) (s : State) : ℕ ×ₗ ℕ :=
  toLex (if s.pc.due l (s.pong l) then 0 else 1, s.pc.steps)

theorem rank_lt {b : LinkId} (hdue : s.pc.due b (s.pong b) → t.pc.due b (t.pong b))
    (hsteps : t.pc.steps < s.pc.steps) : rank b t < rank b s := by
  rw [rank, rank, Prod.Lex.toLex_lt_toLex]
  by_cases hs : s.pc.due b (s.pong b)
  · exact .inr ⟨by rw [if_pos hs, if_pos (hdue hs)], hsteps⟩
  · by_cases ht : t.pc.due b (t.pong b)
    · exact .inl (by rw [if_neg hs, if_pos ht]; exact Nat.zero_lt_one)
    · exact .inr ⟨by rw [if_neg hs, if_neg ht], hsteps⟩

theorem rank_lt_of_due {b : LinkId} (hs : ¬ s.pc.due b (s.pong b)) (ht : t.pc.due b (t.pong b)) :
    rank b t < rank b s := by
  rw [rank, rank, Prod.Lex.toLex_lt_toLex, if_neg hs, if_pos ht]
  exact .inl Nat.zero_lt_one

theorem rank_eq {b : LinkId} (hpc : t.pc = s.pc) (hpong : t.pong b = s.pong b) :
    rank b t = rank b s := by
  rw [rank, rank, hpc, hpong]

/-- The thread comes nearer to the end of a link that is up and stays silent. -/
theorem turn_nearer {b : LinkId} {ok : Bool} (hturn : s.turn ok = some t)
    (halive : s.alive b = true) :
    t.alive b = false ∨ (t.alive b = true ∧ rank b t < rank b s) := by
  cases turn_cases hturn with
  | wakes deadline hpc hpast =>
      refine .inr ⟨halive, rank_lt_of_due ?_ (mem_liveLinks halive)⟩
      rw [hpc]
      exact id
  | ends hpc =>
      refine .inr ⟨halive, rank_lt ?_ ?_⟩
      · rw [hpc]
        exact fun hmem => absurd hmem List.not_mem_nil
      · rw [hpc]
        exact Nat.zero_lt_succ _
  | clears m todo hpc =>
      refine .inr ⟨(alive_setPong false).trans halive, rank_lt ?_ ?_⟩
      · rw [hpc]
        intro hmem
        rcases List.mem_cons.mp hmem with rfl | hrest
        · exact .inr ⟨rfl, pong_setPong_false⟩
        · exact .inl hrest
      · rw [hpc]
        change 5 * todo.length + 5 < 5 * (todo.length + 1) + 1
        omega
  | sends m todo hpc hok =>
      refine .inr ⟨halive, rank_lt ?_ ?_⟩
      · rw [hpc]
        exact id
      · rw [hpc]
        exact Nat.lt_succ_self _
  | fails m todo hpc hok =>
      refine .inr ⟨halive, rank_lt ?_ ?_⟩
      · rw [hpc]
        exact fun hdue => hdue.imp_right And.left
      · rw [hpc]
        change 5 * todo.length + 2 < 5 * todo.length + 5
        omega
  | locks m todo hpc =>
      refine .inr ⟨halive, rank_lt ?_ ?_⟩
      · rw [hpc]
        exact id
      · rw [hpc]
        exact Nat.lt_succ_self _
  | hears m todo deadline hpc hpong =>
      refine .inr ⟨halive, rank_lt ?_ ?_⟩
      · rw [hpc]
        rintro (hrest | ⟨rfl, hsilent⟩)
        · exact hrest
        · cases hpong.symm.trans hsilent
      · rw [hpc]
        change 5 * todo.length + 1 < 5 * todo.length + 3
        omega
  | expires m todo deadline hpc hpong hpast =>
      refine .inr ⟨halive, rank_lt ?_ ?_⟩
      · rw [hpc]
        exact fun hdue => hdue.imp_right And.left
      · rw [hpc]
        exact Nat.lt_succ_self _
  | closes m todo hpc =>
      by_cases hm : m = b
      · subst hm
        exact .inl alive_close_self
      · refine .inr ⟨(alive_close_ne hm).trans halive, rank_lt ?_ ?_⟩
        · rw [hpc]
          exact fun hdue => hdue.resolve_right hm
        · rw [hpc]
          exact Nat.lt_succ_self _

/-! ### Any step -/

/-- What another party does leaves the thread where it is, and the link as silent
as it was. -/
theorem others_pc {e : Event} (hnext : next s e = some t) (hother : e ∉ keepalives) :
    t.pc = s.pc ∧ ∀ b, e ≠ .pong b → t.pong b = s.pong b := by
  cases e with
  | keepalive ok => exact absurd ⟨ok, rfl⟩ hother
  | pong m =>
      obtain ⟨-, heq⟩ := Option.ite_none_right_eq_some.mp hnext
      cases heq
      refine ⟨rfl, fun b hsilent => pong_setPong_ne (fun heq => ?_) true⟩
      exact hsilent (congrArg Event.pong heq)
  | add =>
      cases hnext
      exact ⟨rfl, fun _ _ => pong_add⟩
  | close m =>
      cases hnext
      exact ⟨rfl, fun _ _ => pong_close⟩
  | tick ms =>
      cases hnext
      exact ⟨rfl, fun _ _ => rfl⟩

theorem turn_clock {ok : Bool} (hturn : s.turn ok = some t) : t.clock = s.clock := by
  cases turn_cases hturn <;> rfl

theorem clock_le {e : Event} (hnext : next s e = some t) : s.clock ≤ t.clock := by
  cases e with
  | keepalive ok => exact (turn_clock hnext).ge
  | pong m =>
      obtain ⟨-, heq⟩ := Option.ite_none_right_eq_some.mp hnext
      cases heq
      exact le_rfl
  | add =>
      cases hnext
      exact le_rfl
  | close m =>
      cases hnext
      exact le_rfl
  | tick ms =>
      cases hnext
      exact Nat.le_add_right s.clock ms

/-- The time at which the thread goes on by itself. -/
def Pc.deadline : Pc → ℕ
  | .sleep deadline | .wait _ _ deadline => deadline
  | _ => 0

theorem enabled_after (h : s.pc.deadline < s.clock) : Enabled next keepalives s := by
  refine ⟨.keepalive true, ⟨true, rfl⟩, ?_⟩
  change (s.turn true).isSome = true
  unfold State.turn
  cases hpc : s.pc with
  | sleep deadline =>
      rw [hpc] at h
      have hpast : deadline ≤ s.clock := le_of_lt h
      dsimp only
      rw [if_pos hpast]
      rfl
  | round todo => cases todo <;> rfl
  | send m todo => rfl
  | lock m todo => rfl
  | wait m todo deadline =>
      rw [hpc] at h
      have hpast : deadline < s.clock := h
      dsimp only
      split <;> rfl
  | close m todo => rfl

/-! ### Runs without an end -/

variable {run : Endless next}

theorem pc_stays {i : ℕ} (hnone : ∀ j ≥ i, run.event j ∉ keepalives) {j : ℕ} (hij : i ≤ j) :
    (run.state j).pc = (run.state i).pc := by
  induction j, hij using Nat.le_induction with
  | base => rfl
  | succ j hij ih =>
      exact (others_pc (run.step j) (hnone j hij)).1.trans ih

/-- The thread is not blocked for ever: it runs when it can, and time passes. -/
structure Lively (run : Endless next) : Prop where
  fair : run.WeaklyFair keepalives
  clock : ∀ n, ∃ i, n ≤ (run.state i).clock

theorem Lively.recurs (h : Lively run) (i : ℕ) : ∃ j ≥ i, run.event j ∈ keepalives := by
  by_contra hnone
  push Not at hnone
  obtain ⟨j, hij, hlate⟩ := Endless.beyond (fun _ _ _ hnext => clock_le hnext) h.clock
    ((run.state i).pc.deadline + 1) i
  obtain ⟨k, hjk, hevent⟩ := h.fair j fun k hjk => enabled_after (by
    rw [pc_stays hnone (hij.trans hjk)]
    exact hlate k hjk)
  exact hnone k (hij.trans hjk) hevent

/-- A link whose phone answers no more does not stay up. -/
theorem Lively.closes (h : Lively run) {b : LinkId} {i : ℕ}
    (hsilent : ∀ j ≥ i, run.event j ≠ .pong b) : ∃ j ≥ i, (run.state j).alive b = false := by
  by_cases halive : (run.state i).alive b = true
  · have happroaches : Endless.Approaches next (fun _ e => e ≠ .pong b) keepalives
        (fun s => s.alive b = true) (fun s => s.alive b = false) (rank b) := by
      intro s e t halive _ hsilent hnext
      by_cases hevent : e ∈ keepalives
      · obtain ⟨ok, rfl⟩ := hevent
        refine (turn_nearer hnext halive).imp_right fun hnear => ?_
        exact ⟨hnear.1, le_of_lt hnear.2, fun _ => hnear.2⟩
      · obtain ⟨hpc, hpong⟩ := others_pc hnext hevent
        cases ht : t.alive b with
        | false => exact .inl ht
        | true =>
            have hrank := rank_eq hpc (hpong b hsilent)
            exact .inr ⟨ht, hrank.le, fun hmem => absurd hmem hevent⟩
    exact happroaches.eventually hsilent halive fun _ j hij => h.recurs j
  · exact ⟨i, le_rfl, Bool.eq_false_iff.mpr halive⟩

/-! ### A link that is closed -/

theorem pong_setPong_true (h : l < s.links.length) : (s.setPong l true).pong l = true := by
  unfold State.pong State.setPong
  rw [List.getElem?_modify_eq, List.getElem?_eq_getElem h]
  rfl

/-- A PING is sent on the link. -/
def Pinged (run : Endless next) (l : LinkId) (i : ℕ) : Prop :=
  run.event i = .keepalive true ∧ ∃ todo, (run.state i).pc = .send l todo

/-- The phone was asked, long enough before this time, and if it is silent now it
was since. -/
def Asked (run : Endless next) (l : LinkId) (i time : ℕ) : Prop :=
  ∃ j < i, Pinged run l j ∧ (run.state j).clock + 10000 ≤ time ∧
    ((run.state i).pong l = false → ∀ k, j ≤ k → k < i → run.event k ≠ .pong l)

/-- Sending failed, or no PONG was read for more than ten seconds. -/
def Unanswered (run : Endless next) (l : LinkId) (i : ℕ) : Prop :=
  (∃ j < i, run.event j = .keepalive false ∧ ∃ todo, (run.state j).pc = .send l todo) ∨
    ∃ j k, j ≤ k ∧ k < i ∧ Pinged run l j ∧ (run.state j).clock + 10000 < (run.state k).clock ∧
      ∀ m, j ≤ m → m ≤ k → run.event m ≠ .pong l

def Account (run : Endless next) (i : ℕ) : Prop :=
  match (run.state i).pc with
  | .lock l _ => Asked run l i ((run.state i).clock + 10000)
  | .wait l _ deadline => Asked run l i deadline
  | .close l _ => Unanswered run l i
  | _ => True

theorem Asked.grow {i time time' : ℕ} (h : Asked run l i time) (htime : time ≤ time')
    (hpong : (run.state (i + 1)).pong l = false →
      (run.state i).pong l = false ∧ run.event i ≠ .pong l) : Asked run l (i + 1) time' := by
  obtain ⟨j, hj, hpinged, hclock, hsilent⟩ := h
  refine ⟨j, by omega, hpinged, hclock.trans htime, fun hquiet k hjk hk => ?_⟩
  obtain ⟨hbefore, hevent⟩ := hpong hquiet
  rcases Nat.lt_succ_iff_lt_or_eq.mp hk with hless | rfl
  · exact hsilent hbefore k hjk hless
  · exact hevent

theorem Unanswered.grow {i : ℕ} (h : Unanswered run l i) : Unanswered run l (i + 1) := by
  rcases h with ⟨j, hj, hfailed⟩ | ⟨j, k, hjk, hk, hsilent⟩
  · exact .inl ⟨j, by omega, hfailed⟩
  · exact .inr ⟨j, k, hjk, by omega, hsilent⟩

/-- A link that is silent after another party's step was before, and was not
heard in it. -/
theorem silent_before {e : Event} (hnext : next s e = some t) (hother : e ∉ keepalives)
    (hsilent : t.pong l = false) : s.pong l = false ∧ e ≠ .pong l := by
  have hevent : e ≠ .pong l := by
    rintro rfl
    obtain ⟨hl, heq⟩ := Option.ite_none_right_eq_some.mp hnext
    cases heq
    cases (pong_setPong_true hl).symm.trans hsilent
  exact ⟨(others_pc hnext hother).2 l hevent ▸ hsilent, hevent⟩

theorem Account.step {i : ℕ} (h : Account run i) : Account run (i + 1) := by
  have hnext := run.step i
  by_cases hevent : run.event i ∈ keepalives
  · obtain ⟨ok, hok⟩ := hevent
    have hquiet (m : LinkId) : run.event i ≠ .pong m := by
      rw [hok]
      exact Event.noConfusion
    rw [hok] at hnext
    have hclock := turn_clock hnext
    have hturn := turn_cases hnext
    unfold Account at h ⊢
    generalize hafter : run.state (i + 1) = t at hturn hclock
    cases hturn with
    | wakes | ends | clears | hears | closes => trivial
    | sends l todo hpc htrue =>
        refine ⟨i, Nat.lt_succ_self i, ⟨htrue ▸ hok, todo, hpc⟩, le_rfl, fun _ k hik hk => ?_⟩
        obtain rfl : k = i := by omega
        exact hquiet l
    | fails l todo hpc hfalse => exact .inl ⟨i, Nat.lt_succ_self i, hfalse ▸ hok, todo, hpc⟩
    | locks l todo hpc =>
        rw [hpc] at h
        refine Asked.grow h le_rfl fun hsilent => ⟨?_, hquiet l⟩
        rw [hafter] at hsilent
        exact hsilent
    | expires l todo deadline hpc hpong hpast =>
        rw [hpc] at h
        obtain ⟨j, hj, hpinged, hdeadline, hsilent⟩ := h
        refine .inr ⟨j, i, by omega, Nat.lt_succ_self i, hpinged, by omega, fun m hjm hmi => ?_⟩
        rcases Nat.lt_or_eq_of_le hmi with hless | rfl
        · exact hsilent hpong m hjm hless
        · exact hquiet l
  · have hpc := (others_pc hnext hevent).1
    have hclock := clock_le hnext
    unfold Account at h ⊢
    rw [hpc]
    split
    · rename_i l todo hlock
      rw [hlock] at h
      exact Asked.grow h (by omega) (silent_before hnext hevent)
    · rename_i l todo deadline hwait
      rw [hwait] at h
      exact Asked.grow h le_rfl (silent_before hnext hevent)
    · rename_i l todo hclose
      rw [hclose] at h
      exact Unanswered.grow h
    · trivial

theorem account (hstart : run.state 0 = {}) (i : ℕ) : Account run i := by
  induction i with
  | zero =>
      unfold Account
      rw [hstart]
      trivial
  | succ i ih => exact ih.step

/-- The thread closes a link in one place only. -/
theorem closing_pc {ok : Bool} (hturn : s.turn ok = some t) (halive : s.alive l = true)
    (hclosed : t.alive l = false) : ∃ todo, s.pc = .close l todo := by
  have hkept (hsame : t.alive l = s.alive l) : ∃ todo, s.pc = .close l todo := by
    cases halive.symm.trans (hsame.symm.trans hclosed)
  cases turn_cases hturn with
  | closes m todo hpc =>
      by_cases hm : m = l
      · exact ⟨todo, hm ▸ hpc⟩
      · exact hkept (alive_close_ne hm)
  | clears m todo hpc => exact hkept (alive_setPong false)
  | wakes | ends | sends | fails | locks | hears | expires => exact hkept rfl

/-! ### The law -/

/-- What a step can do to the links. -/
inductive Changes (links : List Link) : List Link → Prop where
  | same : Changes links links
  | pong (l : LinkId) (pong : Bool) : Changes links (links.modify l fun link => {link with pong})
  | close (l : LinkId) : Changes links (links.modify l fun link => {link with alive := false})
  | add : Changes links (links ++ [⟨true, false⟩])

theorem turn_changes {ok : Bool} (hturn : s.turn ok = some t) : Changes s.links t.links := by
  cases turn_cases hturn with
  | closes m todo hpc => exact .close m
  | clears m todo hpc => exact .pong m false
  | wakes | ends | sends | fails | locks | hears | expires => exact .same

theorem next_changes {e : Event} (hnext : next s e = some t) : Changes s.links t.links := by
  cases e with
  | keepalive ok => exact turn_changes hnext
  | pong m =>
      obtain ⟨-, heq⟩ := Option.ite_none_right_eq_some.mp hnext
      cases heq
      exact .pong m true
  | add =>
      cases hnext
      exact .add
  | close m =>
      cases hnext
      exact .close m
  | tick ms =>
      cases hnext
      exact .same

theorem Changes.length_le {links links' : List Link} (h : Changes links links') :
    links.length ≤ links'.length := by
  cases h with
  | same => exact le_rfl
  | pong l pong => exact (List.length_modify ..).ge
  | close l => exact (List.length_modify ..).ge
  | add => exact List.length_append.ge.trans' (Nat.le_add_right _ _)

/-- A link that was closed is not up again. -/
structure Gone (links : List Link) (l : LinkId) : Prop where
  there : l < links.length
  closed : (links[l]?).any Link.alive = false

theorem Gone.changes {links links' : List Link} (h : Gone links l)
    (hchanges : Changes links links') : Gone links' l := by
  refine ⟨h.there.trans_le hchanges.length_le, ?_⟩
  have hclosed := h.closed
  cases hchanges with
  | same => exact hclosed
  | pong m pong =>
      have hsame := any_modify Link.alive (fun link => {link with pong}) (fun _ => rfl) links l m
      exact hsame.trans hclosed
  | close m =>
      rw [List.getElem?_modify]
      split
      · cases links[l]? <;> rfl
      · simpa using hclosed
  | add =>
      rw [List.getElem?_append_left h.there]
      exact hclosed

theorem Lively.stays_gone (h : Lively run) {b : LinkId} {i : ℕ}
    (hsilent : ∀ j ≥ i, run.event j ≠ .pong b) :
    ∃ j ≥ i, ∀ k ≥ j, (run.state k).alive b = false := by
  by_cases hthere : ∃ k ≥ i, b < (run.state k).links.length
  · obtain ⟨k, hik, hk⟩ := hthere
    obtain ⟨j, hkj, hclosed⟩ := h.closes fun j hkj => hsilent j (hik.trans hkj)
    have hj : b < (run.state j).links.length :=
      Endless.stays (P := fun s => b < s.links.length)
        (fun _ _ _ hs hnext => hs.trans_le (next_changes hnext).length_le) hkj hk
    have hgone : Gone (run.state j).links b := ⟨hj, hclosed⟩
    refine ⟨j, hik.trans hkj, fun k hjk => ?_⟩
    exact (Endless.stays (P := fun s => Gone s.links b)
      (fun _ _ _ hs hnext => hs.changes (next_changes hnext)) hjk hgone).closed
  · push Not at hthere
    refine ⟨i, le_rfl, fun k hik => ?_⟩
    rw [State.alive, List.getElem?_eq_none (hthere k hik)]
    rfl

/-- The thread closes only links on which it could not ask, or on which nothing
was heard for more than ten seconds since it did; and a link whose phone answers
no more is gone for ever after some time, however many others there are. -/
theorem keepalive_law (run : Endless next) (hstart : run.state 0 = {}) (hlively : Lively run) :
    (∀ i ok l, run.event i = .keepalive ok → (run.state i).alive l = true →
      (run.state (i + 1)).alive l = false → Unanswered run l i) ∧
    ∀ b i, (∀ j ≥ i, run.event j ≠ .pong b) →
      ∃ j ≥ i, ∀ k ≥ j, (run.state k).alive b = false := by
  refine ⟨fun i ok l hevent halive hclosed => ?_, fun b i hsilent => hlively.stays_gone hsilent⟩
  have hnext := run.step i
  rw [hevent] at hnext
  obtain ⟨todo, hpc⟩ := closing_pc hnext halive hclosed
  have haccount := account hstart i
  unfold Account at haccount
  rw [hpc] at haccount
  exact haccount

/-! ### The links of the daemon -/

def Shows (r : Roster.State) (s : State) : Prop :=
  s.links.map Link.alive = r.map Roster.Link.alive

theorem Shows.closed {r : Roster.State} {links : List Link}
    (h : links.map Link.alive = r.map Roster.Link.alive) (l : LinkId) :
    (links.modify l fun link => {link with alive := false}).map Link.alive =
      (r.modify l Roster.Link.close).map Roster.Link.alive := by
  rw [Roster.map_modify (c := fun _ => false) (fun _ => rfl),
    Roster.map_modify (c := fun _ => false) (fun _ => rfl), h]

/-- The thread sees the links of the daemon, and the daemon's other threads are
those around it. -/
theorem beside_daemon : Roster.Beside Shows (fun _ => True) {} next fun _ e => e ∉ keepalives := by
  refine .of_roster rfl ?_ ?_
  · intro r e r' s hs _ hnext
    have hother {e : Event} (he : ∀ ok, e ≠ .keepalive ok) : e ∉ keepalives :=
      fun ⟨ok, heq⟩ => he ok heq
    cases e with
    | add k =>
        cases hnext
        refine ⟨_, .step (hother fun _ => Event.noConfusion) (e := .add) rfl, ?_⟩
        change (s.links ++ [_]).map Link.alive = (r ++ [_]).map Roster.Link.alive
        rw [List.map_append, List.map_append, hs]
        rfl
    | close l =>
        cases hnext
        exact ⟨_, .step (hother fun _ => Event.noConfusion) (e := .close l) rfl,
          Shows.closed hs l⟩
  · intro s e t r hs _ hnext
    have hs : s.links.map Link.alive = r.map Roster.Link.alive := hs
    have hchanges := next_changes hnext
    unfold flip Shows
    generalize t.links = links at hchanges
    cases hchanges with
    | same => exact ⟨r, .refl, hs⟩
    | pong l pong =>
        have halive := Roster.map_modify (f := Link.alive) (g := fun link => {link with pong})
          (c := id) (fun _ => rfl) s.links l
        exact ⟨r, .refl, halive.trans (by rw [List.modify_id, hs])⟩
    | close l => exact ⟨_, .step (e := .close l) trivial rfl, Shows.closed hs l⟩
    | add =>
        refine ⟨_, .step (e := .add (Roster.unnamed [] 2)) trivial rfl, ?_⟩
        rw [List.map_append, List.map_append, hs]
        rfl

theorem liveLinks_shared {d : Daemon.State} (h : Roster.Shared Shows d s) :
    s.liveLinks = d.liveLinks := by
  obtain ⟨r, hlists, hshows⟩ := h
  exact (Roster.liveLinks_eq hshows).trans hlists.liveLinks.symm

/-! ### A phone that goes away -/

/-- No link is up; the thread looks every twenty seconds. -/
def idleState (i : ℕ) : State where
  clock := 30001 + 20000 * ((i + 2) / 3)
  links := [⟨false, false⟩]
  pc := if i % 3 = 2 then .round [] else .sleep (50001 + 20000 * (i / 3))

def idleEvent (i : ℕ) : Event :=
  if i % 3 = 0 then .tick 20000 else .keepalive true

theorem idle_step (i : ℕ) : next (idleState i) (idleEvent i) = some (idleState (i + 1)) := by
  obtain ⟨n, rfl | rfl | rfl⟩ : ∃ n, i = 3 * n ∨ i = 3 * n + 1 ∨ i = 3 * n + 2 :=
    ⟨i / 3, by omega⟩
  · have hclock : (3 * n + 2) / 3 = n ∧ (3 * n + 1 + 2) / 3 = n + 1 := by omega
    have hplace : 3 * n % 3 = 0 ∧ (3 * n + 1) % 3 = 1 ∧ 3 * n / 3 = n ∧ (3 * n + 1) / 3 = n := by
      omega
    simp only [idleState, idleEvent, next, hclock, hplace]
    simp
    omega
  · have hclock : (3 * n + 1 + 2) / 3 = n + 1 ∧ (3 * n + 1 + 1 + 2) / 3 = n + 1 := by omega
    have hplace : (3 * n + 1) % 3 = 1 ∧ (3 * n + 1 + 1) % 3 = 2 ∧ (3 * n + 1) / 3 = n := by omega
    simp only [idleState, idleEvent, next, State.turn, hclock, hplace]
    simp [State.liveLinks, State.alive]
    omega
  · have hclock : (3 * n + 2 + 2) / 3 = n + 1 ∧ (3 * n + 2 + 1 + 2) / 3 = n + 1 := by omega
    have hplace : (3 * n + 2) % 3 = 2 ∧ (3 * n + 2 + 1) % 3 = 0 ∧ (3 * n + 2 + 1) / 3 = n + 1 := by
      omega
    simp only [idleState, idleEvent, next, State.turn, hclock, hplace]
    simp
    omega

def idle : Endless next where
  state := idleState
  event := idleEvent
  step := idle_step

/-- A phone connects, and does not answer when it is asked. -/
def lostEvents : List Event :=
  [.add, .tick 20000, .keepalive true, .keepalive true, .keepalive true, .keepalive true,
    .tick 10001, .keepalive true, .keepalive true, .keepalive true]

theorem idle_lively {n : ℕ} (h : ∀ i, run.state (n + i) = idle.state i) : Lively run := by
  refine ⟨fun i _ => ?_, fun m => ⟨n + 3 * m, ?_⟩⟩
  · by_contra hnone
    push Not at hnone
    -- The thread goes from its sleep to a round and back.
    have hasleep := pc_stays hnone (show i ≤ n + (3 * i + 1) by omega)
    have hround := pc_stays hnone (show i ≤ n + (3 * i + 2) by omega)
    have hplace : (3 * i + 1) % 3 = 1 ∧ (3 * i + 2) % 3 = 2 := by omega
    rw [← hasleep, h, h] at hround
    simp [idle, idleState, hplace] at hround
  · rw [h]
    change m ≤ 30001 + 20000 * ((3 * m + 2) / 3)
    omega

theorem idle_silent {n : ℕ} (h : ∀ i, run.state (n + i) = idle.state i) :
    ∀ j ≥ n, run.event j ≠ .pong 0 := by
  intro j hj hpong
  obtain ⟨i, rfl⟩ := Nat.exists_eq_add_of_le hj
  have hstep := run.step (n + i)
  rw [hpong] at hstep
  obtain ⟨hthere, heq⟩ := Option.ite_none_right_eq_some.mp hstep
  have hheard := pong_setPong_true hthere
  rw [Option.some.inj heq, Nat.add_assoc, h] at hheard
  cases hheard

theorem lost_phone_closed : ∃ run : Endless next, run.state 0 = {} ∧
    0 < (run.state 10).links.length ∧ ∃ j ≥ 10, ∀ k ≥ j, (run.state k).alive 0 = false := by
  have hreplay : replay next always {} lostEvents = some (idle.state 0) := rfl
  obtain ⟨whole, hstart, hwhole⟩ := idle.exists_after hreplay
  have hlinks : 0 < (whole.state 10).links.length := by
    have hstate := hwhole 0
    change whole.state 10 = idle.state 0 at hstate
    rw [hstate]
    exact Nat.zero_lt_one
  exact ⟨whole, hstart, hlinks,
    (keepalive_law whole hstart (idle_lively hwhole)).2 0 10 (idle_silent hwhole)⟩

end Passkey.Daemon.Keepalive

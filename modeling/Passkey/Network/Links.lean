import Passkey.Daemon.Roster
import Passkey.Network.Loads

/-!
What the daemon's Wi-Fi links owe to the profiles. A link that is up belongs to
a profile that was there since the last pass began that got to the end of its
closings. So a phone that is forgotten loses its link, at the latest in the
first pass that begins after that and can read the directory.
-/

namespace Passkey.Network.Wifi

open Net Text Library

namespace Profiles

/-! ### The loop -/

/-- What `wifi_loop` did in one step. -/
inductive Turn (s : Party) (act : Act) : Party → Prop where
  | opens (hloop : s.loop = .asleep) : Turn s act {s with loop := .load {listing := .of s.files}}
  | sleeps (hloop : s.loop = .asleep) : Turn s act s
  | reads (l m : Load) (hloop : s.loop = .load l) (hnext : l.next s.files act = some (.inl m)) :
      Turn s act {s with loop := .load m}
  | loads (l : Load) (peers : List Peer) (hloop : s.loop = .load l)
      (hnext : l.next s.files act = some (.inr (.ok peers))) :
      Turn s act {s with loop := .wanted peers}
  | givesUp (l : Load) (e : String) (hloop : s.loop = .load l)
      (hnext : l.next s.files act = some (.inr (.error e))) : Turn s act {s with loop := .asleep}
  | looks (peers : List Peer) (hloop : s.loop = .wanted peers) :
      Turn s act {s with loop := .close peers s.live}
  | closes (peers : List Peer) (l : LinkIndex) (todo : List LinkIndex) (link : Link)
      (hloop : s.loop = .close peers (l :: todo)) (hlink : s.links[l]? = some link)
      (hwifi : link.isWifi = true) (hunwanted : link.name ∉ peers.map Peer.linkName) :
      Turn s act {s.close l with loop := .close peers todo}
  | spares (peers : List Peer) (l : LinkIndex) (todo : List LinkIndex) (link : Link)
      (hloop : s.loop = .close peers (l :: todo)) (hlink : s.links[l]? = some link)
      (hwanted : link.isWifi = true → link.name ∈ peers.map Peer.linkName) :
      Turn s act {s with loop := .close peers todo}
  | settles (peers : List Peer) (hloop : s.loop = .close peers []) :
      Turn s act {s with loop := .connect peers}
  | ends (hloop : s.loop = .connect []) : Turn s act {s with loop := .asleep}
  | skips (peer : Peer) (rest : List Peer) (hloop : s.loop = .connect (peer :: rest)) :
      Turn s act {s with loop := .connect rest}
  | dials (peer : Peer) (rest : List Peer) (hloop : s.loop = .connect (peer :: rest))
      (hnone : s.hasLink peer.linkName = false) : Turn s act {s with loop := .dial peer rest}
  | connects (peer : Peer) (rest : List Peer) (hloop : s.loop = .dial peer rest) :
      Turn s act {s with loop := .connect rest, links := s.links ++ [⟨peer.linkName, true⟩]}
  | misses (peer : Peer) (rest : List Peer) (hloop : s.loop = .dial peer rest) :
      Turn s act {s with loop := .connect rest}

theorem wifiLoop_turn {s t : Party} {act : Act} (h : s.wifiLoop act = some t) : Turn s act t := by
  unfold Party.wifiLoop at h
  split at h
  · cases h
    exact .opens ‹_›
  · cases h
    exact .sleeps ‹_›
  · split at h <;> cases h
    · exact .reads _ _ ‹_› ‹_›
    · exact .loads _ _ ‹_› ‹_›
    · exact .givesUp _ _ ‹_› ‹_›
  · cases h
    exact .looks _ ‹_›
  · rename_i peers l todo hloop
    split at h
    · rename_i link hlink
      cases h
      split
      · rename_i hunwanted
        rw [Bool.and_eq_true, Bool.not_eq_true', List.contains_eq_mem, decide_eq_false_iff_not]
          at hunwanted
        exact .closes peers l todo link hloop hlink hunwanted.1 hunwanted.2
      · rename_i hwanted
        refine .spares peers l todo link hloop hlink fun hwifi => ?_
        simpa [hwifi] using hwanted
    · cases h
  · cases h
    exact .settles _ ‹_›
  · cases h
    exact .ends ‹_›
  · rename_i peer rest hloop
    split at h <;> cases h
    · exact .skips peer rest hloop
    · rename_i hnone
      exact .dials peer rest hloop (Bool.eq_false_iff.mpr hnone)
  · cases h
    exact .connects _ _ ‹_›
  · cases h
    exact .misses _ _ ‹_›
  · cases h

/-! ### The record -/

/-- What the directory was, step by step: since the loop opened it in its pass,
since the loop opened it in the last pass that got to the end of its closings,
and since each remover was started. -/
structure Record where
  pass : List Directory := [∅]
  settled : List Directory := [∅]
  removal : Nat → List Directory := fun _ => [∅]

def Looping.opened : Looping → Looping → Bool
  | .asleep, .load _ => true
  | _, _ => false

def Looping.closed : Looping → Looping → Bool
  | .close _ _, .connect _ => true
  | _, _ => false

def observe (s : Party) (_ : Event) (t : Party) (r : Record) : Record where
  pass := if s.loop.opened t.loop then [t.files] else r.pass ++ [t.files]
  settled := if s.loop.closed t.loop then r.pass ++ [t.files] else r.settled ++ [t.files]
  removal p := if p < s.removers.length then r.removal p ++ [t.files] else [t.files]

theorem Looping.Sees.not_opened {d : Directory} {a b : Looping} (h : a.Sees d b) :
    a.opened b = false := by
  cases h with
  | same => cases a <;> rfl
  | load l listing h => rfl

theorem Looping.Sees.not_closed {d : Directory} {a b : Looping} (h : a.Sees d b) :
    a.closed b = false := by
  cases h with
  | same => cases a <;> rfl
  | load l listing h => rfl

/-! ### What holds -/

/-- What a remover knows where it is. -/
def Removing.Fits (dirs : List Directory) (address : SocketAddr) : Removing → Prop
  | .start => True
  | .load l => Loading dirs l
  | .delete todo _ => ∀ peer, peer.address = address → (∀ d ∈ dirs, Stored d peer) → peer ∈ todo
  | .done ok => ok = true → ∀ peer, peer.address = address → ∃ d ∈ dirs, ¬ Stored d peer

/-- What the loop knows where it is. -/
def Looping.Fits (r : Record) (links : List Link) : Looping → Prop
  | .asleep => True
  | .load l => Loading r.pass l
  | .wanted peers => Loaded r.pass peers
  | .close peers todo => Loaded r.pass peers ∧
      ∀ i link, Up links i link → i ∈ todo ∨ link.name ∈ peers.map Peer.linkName
  | .connect rest => ∀ peer ∈ rest, ∃ d ∈ r.settled, Stored d peer
  | .dial peer rest => (∀ other ∈ peer :: rest, ∃ d ∈ r.settled, Stored d other) ∧
      ∀ i link, Up links i link → link.name ≠ peer.linkName

structure Holds (s : Party) (r : Record) : Prop where
  now : s.files ∈ r.pass
  sound : Sound s.files s.adders
  loop : s.loop.Fits r s.links
  served : ∀ i link, Up s.links i link →
    ∃ peer, link.name = peer.linkName ∧ ∃ d ∈ r.settled, Stored d peer
  single : ∀ i j a b, Up s.links i a → Up s.links j b → a.name = b.name → i = j
  removers : ∀ (p : Nat) (remover : Remover), s.removers[p]? = some remover →
    remover.pc.Fits (r.removal p) remover.address

theorem exists_grow {P : Directory → Prop} {dirs : List Directory} (h : ∃ d ∈ dirs, P d)
    (d : Directory) : ∃ d' ∈ dirs ++ [d], P d' := by
  obtain ⟨d', hd', hP⟩ := h
  exact ⟨d', List.mem_append_left _ hd', hP⟩

theorem forall_shrink {P : Directory → Prop} {dirs : List Directory} {d : Directory}
    (h : ∀ d' ∈ dirs ++ [d], P d') : ∀ d' ∈ dirs, P d' :=
  fun d' hd' => h d' (List.mem_append_left _ hd')

theorem Removing.Fits.sees {dirs : List Directory} {address : SocketAddr} {pc pc' : Removing}
    (h : pc.Fits dirs address) {d : Directory} (hsees : pc.Sees d pc') :
    pc'.Fits (dirs ++ [d]) address := by
  cases hsees with
  | load l listing hsees => exact Loading.change h hsees
  | same =>
      cases pc with
      | start => exact trivial
      | load l => exact Loading.grow h d
      | delete todo found => exact fun peer haddress hall => h peer haddress (forall_shrink hall)
      | done ok => exact fun hok peer haddress => exists_grow (h hok peer haddress) d

theorem Looping.Fits.sees {r r' : Record} {links links' : List Link} {loop loop' : Looping}
    (h : loop.Fits r links) {d : Directory} (hsees : loop.Sees d loop')
    (hkeeps : Keeps links links') (hpass : r'.pass = r.pass ++ [d])
    (hsettled : r'.settled = r.settled ++ [d]) : loop'.Fits r' links' := by
  cases hsees with
  | load l listing hsees =>
      change Loading r'.pass _
      rw [hpass]
      exact Loading.change h hsees
  | same =>
      cases loop with
      | asleep => exact trivial
      | load l =>
          change Loading r'.pass l
          rw [hpass]
          exact Loading.grow h d
      | wanted peers =>
          change Loaded r'.pass peers
          rw [hpass]
          exact Loaded.grow h d
      | close peers todo =>
          refine ⟨?_, fun i link hup => h.2 i link (hkeeps i link hup)⟩
          rw [hpass]
          exact h.1.grow d
      | connect rest =>
          intro peer hp
          rw [hsettled]
          exact exists_grow (h peer hp) d
      | dial peer rest =>
          refine ⟨fun other hp => ?_, fun i link hup => h.2 i link (hkeeps i link hup)⟩
          rw [hsettled]
          exact exists_grow (h.1 other hp) d

variable {s t : Party} {r : Record}

theorem observe_pass {e : Event} (h : s.loop.opened t.loop = false) :
    (observe s e t r).pass = r.pass ++ [t.files] := by
  simp [observe, h]

theorem observe_settled {e : Event} (h : s.loop.closed t.loop = false) :
    (observe s e t r).settled = r.settled ++ [t.files] := by
  simp [observe, h]

theorem now_observe (e : Event) : t.files ∈ (observe s e t r).pass := by
  unfold observe
  dsimp only
  split <;> simp

/-- Where the loop only sees what the others did. -/
theorem Holds.beside (h : Holds s r) (e : Event) (hsound : Sound t.files t.adders)
    (hkeeps : Keeps s.links t.links) (hsees : s.loop.Sees t.files t.loop)
    (hremovers : ∀ (p : Nat) (remover : Remover), t.removers[p]? = some remover →
      remover.pc.Fits ((observe s e t r).removal p) remover.address) :
    Holds t (observe s e t r) := by
  have hpass : (observe s e t r).pass = r.pass ++ [t.files] := observe_pass hsees.not_opened
  have hsettled : (observe s e t r).settled = r.settled ++ [t.files] :=
    observe_settled hsees.not_closed
  refine ⟨now_observe e, hsound, h.loop.sees hsees hkeeps hpass hsettled, fun i link hup => ?_,
    fun i j a b ha hb => h.single i j a b (hkeeps i a ha) (hkeeps j b hb), hremovers⟩
  obtain ⟨peer, hname, hmet⟩ := h.served i link (hkeeps i link hup)
  exact ⟨peer, hname, hsettled ▸ exists_grow hmet t.files⟩

theorem Holds.removers_seen (h : Holds s r) (e : Event) {p : Nat} {remover remover' : Remover}
    (hremover : s.removers[p]? = some remover) (haddress : remover'.address = remover.address)
    (hsees : remover.pc.Sees t.files remover'.pc) :
    remover'.pc.Fits ((observe s e t r).removal p) remover'.address := by
  have hp := (List.getElem?_eq_some_iff.mp hremover).1
  have hgrown : (observe s e t r).removal p = r.removal p ++ [t.files] := if_pos hp
  rw [hgrown, haddress]
  exact (h.removers p remover hremover).sees hsees

/-- A step of one who saves. -/
theorem Holds.kept (h : Holds s r) (e : Event) (hkept : Kept s t) :
    Holds t (observe s e t r) := by
  refine h.beside e hkept.sound hkept.beside.links hkept.beside.loop fun p remover' hremover' => ?_
  obtain ⟨remover, hremover, haddress, hsees⟩ := hkept.beside.removers p remover' hremover'
  exact h.removers_seen e hremover haddress hsees

/-! ### A step of one who forgets a phone -/

theorem Sound.erase {d : Directory} {adders : List Adder} (h : Sound d adders) (name : Text) :
    Sound (d.erase name) adders :=
  ⟨h.whole.erase name, h.near,
    fun a ha => (h.writes a ha).change fun _ _ htext => (lookup_of_erase htext).2, h.apart⟩

theorem Holds.removed (h : Holds s r) (e : Event) {p : Nat} {remover : Remover}
    (hremover : s.removers[p]? = some remover) {u : Party} (hsound : Sound u.files u.adders)
    (hbeside : Beside u.files s u) {pc : Removing}
    (hfits : pc.Fits (r.removal p ++ [u.files]) remover.address) :
    Holds (u.setRemover p remover pc) (observe s e (u.setRemover p remover pc) r) := by
  refine h.beside e hsound hbeside.links hbeside.loop fun q remover' hremover' => ?_
  change (u.removers.set p {remover with pc})[q]? = some remover' at hremover'
  by_cases hq : p = q
  · subst hq
    have hp := (List.getElem?_eq_some_iff.mp hremover').1
    rw [List.length_set] at hp
    rw [List.getElem?_set_self hp, Option.some.injEq] at hremover'
    subst hremover'
    have hgrown : (observe s e (u.setRemover p remover pc) r).removal p =
        r.removal p ++ [u.files] :=
      if_pos (List.getElem?_eq_some_iff.mp hremover).1
    rw [hgrown]
    exact hfits
  · rw [List.getElem?_set_ne hq] at hremover'
    obtain ⟨other, hother, haddress, hsees⟩ := hbeside.removers q remover' hremover'
    exact h.removers_seen e hother haddress hsees

theorem Holds.forget (h : Holds s r) (e : Event) {p : Nat} {remover : Remover} {act : Act}
    (hremover : s.removers[p]? = some remover) (hforget : s.forget p remover act = some t) :
    Holds t (observe s e t r) := by
  have hknows := h.removers p remover hremover
  have hstill {pc : Removing} (hfits : pc.Fits (r.removal p ++ [s.files]) remover.address) :
      Holds (s.setRemover p remover pc) (observe s e (s.setRemover p remover pc) r) :=
    h.removed e hremover h.sound (.refl _ s) hfits
  have hfailed : (Removing.done false).Fits (r.removal p ++ [s.files]) remover.address := nofun
  unfold Party.forget at hforget
  split at hforget
  · cases hforget
    exact hstill (loading_of (List.mem_append_right _ (List.mem_singleton_self s.files)))
  · cases hforget
    exact hstill hfailed
  · rename_i l hpc
    rw [hpc] at hknows
    have hload : Loading (r.removal p ++ [s.files]) l := Loading.grow hknows s.files
    have hhere : s.files ∈ r.removal p ++ [s.files] := by simp
    split at hforget <;> cases hforget
    · rename_i m hnext
      cases hload.turn hhere h.sound.whole hnext with
      | goesOn m hm => exact hstill hm
    · rename_i peers hnext
      cases hload.turn hhere h.sound.whole hnext with
      | returns peers hpeers => exact hstill fun peer _ hall => hpeers.complete peer hall
    · exact hstill hfailed
  · rename_i found hpc
    rw [hpc] at hknows
    cases hforget
    refine hstill fun _ peer haddress => ?_
    by_contra hnone
    push Not at hnone
    exact List.not_mem_nil (hknows peer haddress (forall_shrink hnone))
  · rename_i peer rest found hpc
    rw [hpc] at hknows
    split at hforget
    · rename_i hother
      cases hforget
      refine hstill fun peer' haddress hall => ?_
      refine (List.mem_cons.mp (hknows peer' haddress (forall_shrink hall))).resolve_left ?_
      rintro rfl
      exact hother haddress
    · split at hforget <;> cases hforget
      · refine h.removed e hremover (h.sound.erase peer.conf)
          (.unlink (not_mem_erase_self s.files peer.conf) s) fun peer' haddress hall => ?_
        refine (List.mem_cons.mp (hknows peer' haddress (forall_shrink hall))).resolve_left ?_
        rintro rfl
        have hplaced := (hall _ (List.mem_append_right _ (List.mem_singleton_self _))).placed
        exact (lookup_of_erase hplaced).1 rfl
      · exact hstill hfailed
  · split at hforget <;> cases hforget
    exact hstill hfailed
  · cases hforget

/-! ### A step of the loop -/

theorem keeps_close (links : List Link) (l : LinkIndex) :
    Keeps links (links.modify l fun link => {link with alive := false}) := by
  intro i link hup
  have hthere := hup.there
  rw [List.getElem?_modify] at hthere
  split at hthere
  · obtain ⟨old, -, rfl⟩ := Option.map_eq_some_iff.mp hthere
    cases hup.alive
  · exact ⟨by simpa using hthere, hup.alive, hup.wifi⟩

theorem up_close_ne {links : List Link} {i l : LinkIndex} {link : Link}
    (h : Up (links.modify l fun link => {link with alive := false}) i link) : i ≠ l := by
  rintro rfl
  have hthere := h.there
  rw [List.getElem?_modify_eq] at hthere
  obtain ⟨old, -, rfl⟩ := Option.map_eq_some_iff.mp hthere
  cases h.alive

theorem up_append {links : List Link} {new link : Link} {i : LinkIndex}
    (h : Up (links ++ [new]) i link) :
    Up links i link ∨ i = links.length ∧ link = new := by
  have hthere := h.there
  rw [List.getElem?_append] at hthere
  split at hthere
  · exact .inl ⟨hthere, h.alive, h.wifi⟩
  · rename_i hlast
    have hi := (List.getElem?_eq_some_iff.mp hthere).1
    rw [List.length_singleton, Nat.lt_one_iff] at hi
    have hplace := Nat.le_antisymm (Nat.sub_eq_zero_iff_le.mp hi) (Nat.not_lt.mp hlast)
    rw [hi] at hthere
    exact .inr ⟨hplace, (Option.some.inj hthere).symm⟩

theorem mem_live {s : Party} {i : LinkIndex} {link : Link} (h : Up s.links i link) :
    i ∈ s.live := by
  have hi := (List.getElem?_eq_some_iff.mp h.there).1
  rw [Party.live, List.mem_filter, List.mem_range, h.there]
  exact ⟨hi, h.alive⟩

theorem not_hasLink {s : Party} {name : Text} (h : s.hasLink name = false) {i : LinkIndex}
    {link : Link} (hup : Up s.links i link) : link.name ≠ name := by
  intro hname
  have hnone := List.any_eq_false.mp h link (List.mem_of_getElem? hup.there)
  simp [hup.alive, hname] at hnone

/-- The directory and those who change it stay as they are. -/
theorem Holds.of_loop (h : Holds s r) (e : Event) {links : List Link} {loop : Looping}
    (hloop : loop.Fits (observe s e {s with links, loop} r) links)
    (hserved : ∀ i link, Up links i link → ∃ peer, link.name = peer.linkName ∧
      ∃ d ∈ (observe s e {s with links, loop} r).settled, Stored d peer)
    (hsingle : ∀ i j a b, Up links i a → Up links j b → a.name = b.name → i = j) :
    Holds {s with links, loop} (observe s e {s with links, loop} r) :=
  ⟨now_observe e, h.sound, hloop, hserved, hsingle,
    fun _ _ hremover => h.removers_seen e hremover rfl (.same _)⟩

theorem Holds.goesOn (h : Holds s r) (e : Event) {links : List Link} {loop : Looping}
    (hkeeps : Keeps s.links links) (hclosed : s.loop.closed loop = false)
    (hloop : loop.Fits (observe s e {s with links, loop} r) links) :
    Holds {s with links, loop} (observe s e {s with links, loop} r) := by
  refine h.of_loop e hloop (fun i link hup => ?_)
    fun i j a b ha hb => h.single i j a b (hkeeps i a ha) (hkeeps j b hb)
  obtain ⟨peer, hname, hmet⟩ := h.served i link (hkeeps i link hup)
  have hsettled := @observe_settled s {s with links, loop} r e hclosed
  exact ⟨peer, hname, hsettled ▸ exists_grow hmet s.files⟩

theorem Holds.turn (h : Holds s r) (e : Event) {act : Act} (hturn : Turn s act t) :
    Holds t (observe s e t r) := by
  have hknows := h.loop
  have hsame : Keeps s.links s.links := fun _ _ hup => hup
  have hhere : s.files ∈ r.pass ++ [s.files] := by simp
  cases hturn with
  | opens hloop =>
      refine h.goesOn e hsame (by rw [hloop]; rfl) ?_
      have hpass : (observe s e {s with loop := .load {listing := .of s.files}} r).pass
          = [s.files] := by
        simp [observe, hloop, Looping.opened]
      change Loading (observe s e _ r).pass _
      rw [hpass]
      exact loading_of (List.mem_singleton_self s.files)
  | sleeps hloop =>
      refine h.beside e h.sound hsame (.same _) fun p remover hremover => ?_
      exact h.removers_seen e hremover rfl (.same _)
  | reads l m hloop hnext =>
      rw [hloop] at hknows
      refine h.goesOn e hsame (by rw [hloop]; rfl) ?_
      change Loading (observe s e _ r).pass m
      rw [observe_pass (by rw [hloop]; rfl)]
      cases (Loading.grow hknows s.files).turn hhere h.sound.whole hnext with
      | goesOn m hm => exact hm
  | loads l peers hloop hnext =>
      rw [hloop] at hknows
      refine h.goesOn e hsame (by rw [hloop]; rfl) ?_
      change Loaded (observe s e _ r).pass peers
      rw [observe_pass (by rw [hloop]; rfl)]
      cases (Loading.grow hknows s.files).turn hhere h.sound.whole hnext with
      | returns peers hpeers => exact hpeers
  | givesUp l _ hloop hnext => exact h.goesOn e hsame (by rw [hloop]; rfl) trivial
  | looks peers hloop =>
      rw [hloop] at hknows
      refine h.goesOn e hsame (by rw [hloop]; rfl) ⟨?_, fun i link hup => .inl (mem_live hup)⟩
      rw [observe_pass (by rw [hloop]; rfl)]
      exact Loaded.grow hknows s.files
  | closes peers l todo link hloop hlink hwifi hunwanted =>
      rw [hloop] at hknows
      refine h.goesOn e (keeps_close s.links l) (by rw [hloop]; rfl) ⟨?_, fun i other hup => ?_⟩
      · rw [observe_pass (by rw [hloop]; rfl)]
        exact hknows.1.grow s.files
      · rcases hknows.2 i other (keeps_close s.links l i other hup) with htodo | hwanted
        · exact .inl ((List.mem_cons.mp htodo).resolve_left (up_close_ne hup))
        · exact .inr hwanted
  | spares peers l todo link hloop hlink hwanted =>
      rw [hloop] at hknows
      refine h.goesOn e hsame (by rw [hloop]; rfl) ⟨?_, fun i other hup => ?_⟩
      · rw [observe_pass (by rw [hloop]; rfl)]
        exact hknows.1.grow s.files
      · rcases hknows.2 i other hup with htodo | hwanted'
        · rcases List.mem_cons.mp htodo with rfl | hrest
          · cases hup.there.symm.trans hlink
            exact .inr (hwanted hup.wifi)
          · exact .inl hrest
        · exact .inr hwanted'
  | settles peers hloop =>
      -- What the loop is to connect to, and the links it left, are of this pass.
      rw [hloop] at hknows
      have hsettled : (observe s e {s with loop := .connect peers} r).settled
          = r.pass ++ [s.files] := by
        simp [observe, hloop, Looping.closed]
      have hmet : ∀ peer ∈ peers, ∃ d ∈ (observe s e {s with loop := .connect peers} r).settled,
          Stored d peer := by
        rw [hsettled]
        exact (hknows.1.grow s.files).met
      refine h.of_loop e hmet (fun i link hup => ?_) h.single
      have hwanted := (hknows.2 i link hup).resolve_left List.not_mem_nil
      obtain ⟨peer, hp, hname⟩ := List.mem_map.mp hwanted
      exact ⟨peer, hname.symm, hmet peer hp⟩
  | ends hloop => exact h.goesOn e hsame (by rw [hloop]; rfl) trivial
  | skips peer rest hloop =>
      rw [hloop] at hknows
      refine h.goesOn e hsame (by rw [hloop]; rfl) fun other hp => ?_
      rw [observe_settled (by rw [hloop]; rfl)]
      exact exists_grow (hknows other (List.mem_cons_of_mem peer hp)) s.files
  | dials peer rest hloop hnone =>
      rw [hloop] at hknows
      refine h.goesOn e hsame (by rw [hloop]; rfl)
        ⟨fun other hp => ?_, fun i link hup => not_hasLink hnone hup⟩
      rw [observe_settled (by rw [hloop]; rfl)]
      exact exists_grow (hknows other hp) s.files
  | connects peer rest hloop =>
      rw [hloop] at hknows
      have hsettled : (observe s e {s with
          loop := .connect rest, links := s.links ++ [⟨peer.linkName, true⟩]} r).settled
          = r.settled ++ [s.files] := observe_settled (by rw [hloop]; rfl)
      refine h.of_loop e (fun other hp => ?_) (fun i link hup => ?_) fun i j a b ha hb hname => ?_
      · rw [hsettled]
        exact exists_grow (hknows.1 other (List.mem_cons_of_mem peer hp)) s.files
      · rw [hsettled]
        rcases up_append hup with hold | ⟨-, rfl⟩
        · obtain ⟨other, hname, hmet⟩ := h.served i link hold
          exact ⟨other, hname, exists_grow hmet s.files⟩
        · exact ⟨peer, rfl, exists_grow (hknows.1 peer List.mem_cons_self) s.files⟩
      · rcases up_append ha with hold | ⟨hi, rfl⟩ <;> rcases up_append hb with hold' | ⟨hj, rfl⟩
        · exact h.single i j a b hold hold' hname
        · exact (hknows.2 i a hold hname).elim
        · exact (hknows.2 j b hold' hname.symm).elim
        · exact hi.trans hj.symm
  | misses peer rest hloop =>
      rw [hloop] at hknows
      refine h.goesOn e hsame (by rw [hloop]; rfl) fun other hp => ?_
      rw [observe_settled (by rw [hloop]; rfl)]
      exact exists_grow (hknows.1 other (List.mem_cons_of_mem peer hp)) s.files

/-! ### A step of any of them -/

theorem Sound.add {d : Directory} {adders : List Adder} (h : Sound d adders) {pid : Nat}
    {peer : Peer} (hnear : ∃ value, endpoint value = .ok peer.address)
    (hfree : ∀ a ∈ adders, a.pc.running = true → a.pid ≠ pid) :
    Sound d (adders ++ [⟨pid, peer, .prepare⟩]) := by
  refine ⟨h.whole, fun a ha => ?_, fun a ha => ?_, fun p q a b ha hb hrun hrun' hpid => ?_⟩
  · rcases List.mem_append.mp ha with hold | hnew
    · exact h.near a hold
    · obtain rfl := List.mem_singleton.mp hnew
      exact hnear
  · rcases List.mem_append.mp ha with hold | hnew
    · exact h.writes a hold
    · obtain rfl := List.mem_singleton.mp hnew
      exact fun _ _ => trivial
  · have hat {p : Nat} {a : Adder} (ha : (adders ++ [⟨pid, peer, .prepare⟩])[p]? = some a) :
        adders[p]? = some a ∨ p = adders.length ∧ a.pid = pid := by
      rw [List.getElem?_append] at ha
      split at ha
      · exact .inl ha
      · have hp := (List.getElem?_eq_some_iff.mp ha).1
        rw [List.length_singleton, Nat.lt_one_iff] at hp
        rw [hp] at ha
        exact .inr ⟨by omega, congrArg Adder.pid (Option.some.inj ha).symm⟩
    rcases hat ha with hold | ⟨hp, hnew⟩ <;> rcases hat hb with hold' | ⟨hq, hnew'⟩
    · exact h.apart p q a b hold hold' hrun hrun' hpid
    · exact (hfree a (List.mem_of_getElem? hold) hrun (hpid.trans hnew')).elim
    · exact (hfree b (List.mem_of_getElem? hold') hrun' (hpid.symm.trans hnew)).elim
    · exact hp.trans hq.symm

theorem endpoint_of_rootWifiAdd {data : Text} {peer : Peer} (h : rootWifiAdd data = .ok peer) :
    ∃ value, endpoint value = .ok peer.address := by
  unfold rootWifiAdd at h
  split at h
  · cases h
  · exact endpoint_of_decode h

theorem keeps_append {links : List Link} {new : Link} (h : new.isWifi = false) :
    Keeps links (links ++ [new]) := by
  intro i link hup
  rcases up_append hup with hold | ⟨-, rfl⟩
  · exact hold
  · cases h.symm.trans hup.wifi

theorem Holds.next (h : Holds s r) {e : Event} (hnext : s.next e = some t) :
    Holds t (observe s e t r) := by
  -- Those who forget phones do not see a step that leaves the directory alone.
  have hremovers {t : Party} (hsame : t.removers = s.removers) (p : Nat) (remover : Remover)
      (hremover : t.removers[p]? = some remover) :
      remover.pc.Fits ((observe s e t r).removal p) remover.address :=
    h.removers_seen e (hsame ▸ hremover) rfl (.same _)
  unfold Party.next at hnext
  cases e with
  | add pid data =>
      dsimp only at hnext
      split at hnext
      · rename_i peer hpeer
        obtain ⟨hfree, heq⟩ := Option.ite_none_right_eq_some.mp hnext
        cases heq
        refine h.beside _ (h.sound.add (endpoint_of_rootWifiAdd hpeer) fun a ha hrun hpid => ?_)
          (fun _ _ hup => hup) (.same _) (hremovers rfl)
        have hother := List.all_eq_true.mp hfree a ha
        simp [hrun, hpid] at hother
      · cases hnext
  | save p act =>
      obtain ⟨a, ha, hsave⟩ := Option.bind_eq_some_iff.mp hnext
      exact h.kept _ (save_keeps h.sound ha hsave)
  | kill p =>
      obtain ⟨a, ha, hkill⟩ := Option.bind_eq_some_iff.mp hnext
      obtain ⟨hrunning, heq⟩ := Option.ite_none_right_eq_some.mp hkill
      cases heq
      exact h.kept _ (kept_still h.sound ha hrunning fun _ _ => trivial)
  | remove address =>
      cases hnext
      refine h.beside _ h.sound (fun _ _ hup => hup) (.same _) fun p remover hremover => ?_
      rw [List.getElem?_append] at hremover
      split at hremover
      · exact h.removers_seen _ hremover rfl (.same _)
      · have hnew := List.mem_singleton.mp (List.mem_of_getElem? hremover)
        rw [hnew]
        trivial
  | forget p act =>
      obtain ⟨remover, hremover, hforget⟩ := Option.bind_eq_some_iff.mp hnext
      exact h.forget _ hremover hforget
  | loop act => exact h.turn _ (wifiLoop_turn hnext)
  | link name =>
      obtain ⟨hname, heq⟩ := Option.ite_none_left_eq_some.mp hnext
      cases heq
      refine h.beside _ h.sound (keeps_append ?_) (.same _) (hremovers rfl)
      exact Bool.eq_false_iff.mpr hname
  | drop l =>
      cases hnext
      exact h.beside _ h.sound (keeps_close s.links l) (.same _) (hremovers rfl)

theorem holds_start : Holds {} {} := by
  refine ⟨List.mem_singleton_self _, ⟨?_, ?_, ?_, ?_⟩, trivial, fun i link hup => ?_,
    fun i j a b ha => ?_, ?_⟩
  · intro name text hlookup
    cases hlookup
  · simp
  · simp
  · simp
  · simpa using hup.there
  · simpa using ha.there
  · simp

/-! ### The law -/

structure Lawful (s : Party) (r : Record) : Prop where
  /-- What has the name of a profile is a whole one, and is read as what was saved. -/
  whole : ∀ name text, s.files.lookup name = some text →
    extension name = some "conf".toList →
    ∃ peer : Peer, name = peer.conf ∧ text = peer.encode ∧ Peer.decode text = .ok peer
  /-- A Wi-Fi link that is up is to a phone that was paired at some time since the last
  pass began that got to the end of its closings. -/
  served : ∀ i link, Up s.links i link →
    ∃ peer, link.name = peer.linkName ∧ ∃ d ∈ r.settled, Stored d peer
  single : ∀ i j a b, Up s.links i a → Up s.links j b → a.name = b.name → i = j
  /-- The loop closes no link to a phone that was paired since its pass began, nor one
  that is not over Wi-Fi. -/
  spares : ∀ act t, s.wifiLoop act = some t → ∀ (i : LinkIndex) (link : Link),
    s.links[i]? = some link → t.links[i]? ≠ some link → link.isWifi = true ∧
      ∀ peer : Peer, link.name = peer.linkName → ∃ d ∈ r.pass, ¬ Stored d peer
  /-- A pass that cannot read the profiles met a failure of the disk, or one of them went
  away since it began. -/
  reads : ∀ l e act, s.loop = .load l → l.next s.files act = some (.inr (.error e)) →
    act = .fails ∨ ∃ name, extension name = some "conf".toList ∧ (∃ d ∈ r.pass, name ∈ d) ∧
      name ∉ s.files
  /-- So did a process that forgets a phone and cannot read them. -/
  loads : ∀ (p : Nat) (remover : Remover) (l : Load) e act, s.removers[p]? = some remover →
    remover.pc = .load l → l.next s.files act = some (.inr (.error e)) →
    act = .fails ∨ ∃ name, extension name = some "conf".toList ∧
      (∃ d ∈ r.removal p, name ∈ d) ∧ name ∉ s.files
  /-- When a phone was forgotten, none with its address was paired all the time. -/
  forgotten : ∀ (p : Nat) (remover : Remover), s.removers[p]? = some remover →
    remover.pc = .done true → ∀ peer : Peer, peer.address = remover.address →
      ∃ d ∈ r.removal p, ¬ Stored d peer

theorem Turn.links {act : Act} (hturn : Turn s act t) {i : LinkIndex} {link : Link}
    (hthere : s.links[i]? = some link) (hchanged : t.links[i]? ≠ some link) :
    link.isWifi = true ∧ ∃ peers todo, s.loop = .close peers todo ∧
      link.name ∉ peers.map Peer.linkName := by
  cases hturn with
  | closes peers l todo link' hloop hlink hwifi hunwanted =>
      by_cases hi : l = i
      · subst hi
        cases hlink.symm.trans hthere
        exact ⟨hwifi, peers, l :: todo, hloop, hunwanted⟩
      · refine (hchanged ?_).elim
        exact (List.getElem?_modify_ne _ s.links hi).trans hthere
  | connects peer rest hloop =>
      refine (hchanged ?_).elim
      change (s.links ++ [_])[i]? = some link
      rwa [List.getElem?_append_left (List.getElem?_eq_some_iff.mp hthere).1]
  | opens | sleeps | reads | loads | givesUp | looks | spares | settles | ends | skips | dials
  | misses => exact (hchanged hthere).elim

theorem Holds.lawful (h : Holds s r) : Lawful s r where
  whole name text hlookup hconf := by
    obtain ⟨peer, hname, htext, hstored⟩ := h.sound.whole name text hlookup hconf
    exact ⟨peer, hname, htext, htext ▸ hstored.decodes⟩
  served := h.served
  single := h.single
  spares act t hnext i link hthere hchanged := by
    obtain ⟨hwifi, peers, todo, hloop, hunwanted⟩ :=
      (wifiLoop_turn hnext).links hthere hchanged
    have hknows := h.loop
    rw [hloop] at hknows
    refine ⟨hwifi, fun peer hname => ?_⟩
    by_contra hall
    push Not at hall
    exact hunwanted (List.mem_map.mpr ⟨peer, hknows.1.complete peer hall, hname.symm⟩)
  reads l e act hloop hnext := by
    have hknows := h.loop
    rw [hloop] at hknows
    exact Loading.gives_up hknows h.sound.whole hnext
  loads p remover l e act hremover hpc hnext := by
    have hknows := h.removers p remover hremover
    rw [hpc] at hknows
    exact Loading.gives_up hknows h.sound.whole hnext
  forgotten p remover hremover hpc peer haddress := by
    have hknows := h.removers p remover hremover
    rw [hpc] at hknows
    exact hknows rfl peer haddress

/-- However those who pair phones, those who forget them, the daemon's loop and
its links interleave, whatever the disk does and whoever is killed, the
profiles are whole, the loop keeps the links of the phones that stay paired,
one for each, and a link of a phone that was forgotten is gone after the
closings of the first pass that begins then and can read the profiles. -/
theorem links_law {x : Party × Record}
    (h : Reach (watch Party.next observe) always ({}, {}) x) : Lawful x.1 x.2 := by
  suffices Holds x.1 x.2 from this.lawful
  refine h.invariant (I := fun x => Holds x.1 x.2) holds_start fun y e z hholds _ hnext => ?_
  obtain ⟨hstep, hrecord⟩ := watch_eq hnext
  rw [hrecord]
  exact hholds.next hstep

/-! ### The links of the daemon -/

def ofRoster (k : Daemon.Roster.Link) : Link :=
  ⟨k.name, k.alive⟩

def Shows (r : Daemon.Roster.State) (s : Party) : Prop :=
  s.links = r.map ofRoster

/-- A step adds a link over another transport, one to a phone that the loop
connected to, closes one, or does nothing of this. -/
inductive LinksStep (links : List Link) : List Link → Prop where
  | same : LinksStep links links
  | link (name : Text) (hname : wifi.isPrefixOf name = false) :
      LinksStep links (links ++ [⟨name, true⟩])
  | connect (peer : Peer) : LinksStep links (links ++ [⟨peer.linkName, true⟩])
  | close (l : LinkIndex) :
      LinksStep links (links.modify l fun link => {link with alive := false})

theorem put_links (s : Party) (name text : Text) : (s.put name text).links = s.links := by
  unfold Party.put
  dsimp only
  split <;> rfl

theorem save_links {p : Nat} {a : Adder} {act : Act} (h : s.save p a act = some t) :
    t.links = s.links := by
  unfold Party.save at h
  dsimp only at h
  repeat' split at h
  all_goals cases h
  all_goals simp only [Party.setAdder, Party.unlink, Party.onListings, put_links]

theorem forget_links {p : Nat} {remover : Remover} {act : Act}
    (h : s.forget p remover act = some t) : t.links = s.links := by
  unfold Party.forget at h
  repeat' split at h
  all_goals cases h
  all_goals rfl

theorem turn_links {act : Act} (h : Turn s act t) : LinksStep s.links t.links := by
  cases h with
  | closes peers l todo link hloop hlink hwifi hunwanted => exact .close l
  | connects peer rest hloop => exact .connect peer
  | opens | sleeps | reads | loads | givesUp | looks | spares | settles | ends | skips | dials
  | misses => exact .same

theorem next_links {e : Event} (hnext : s.next e = some t) : LinksStep s.links t.links := by
  have hsame (h : t.links = s.links) : LinksStep s.links t.links := h ▸ .same
  unfold Party.next at hnext
  cases e with
  | add pid data =>
      dsimp only at hnext
      split at hnext
      · obtain ⟨-, heq⟩ := Option.ite_none_right_eq_some.mp hnext
        cases heq
        exact .same
      · cases hnext
  | save p act =>
      obtain ⟨a, -, hsave⟩ := Option.bind_eq_some_iff.mp hnext
      exact hsame (save_links hsave)
  | kill p =>
      obtain ⟨a, -, hkill⟩ := Option.bind_eq_some_iff.mp hnext
      obtain ⟨-, heq⟩ := Option.ite_none_right_eq_some.mp hkill
      cases heq
      exact .same
  | remove address =>
      cases hnext
      exact .same
  | forget p act =>
      obtain ⟨remover, -, hforget⟩ := Option.bind_eq_some_iff.mp hnext
      exact hsame (forget_links hforget)
  | loop act => exact turn_links (wifiLoop_turn hnext)
  | link name =>
      obtain ⟨hname, heq⟩ := Option.ite_none_left_eq_some.mp hnext
      cases heq
      exact .link name (Bool.eq_false_iff.mpr hname)
  | drop l =>
      cases hnext
      exact .close l

theorem map_close (links : List Daemon.Roster.Link) (l : LinkIndex) :
    (links.modify l Daemon.Roster.Link.close).map ofRoster =
      (links.map ofRoster).modify l fun link => {link with alive := false} :=
  Daemon.Roster.map_modify (f := ofRoster) (g := Daemon.Roster.Link.close) (fun _ => rfl) links l

theorem Shows.added {r : Daemon.Roster.State} (h : s.links = r.map ofRoster)
    (k : Daemon.Roster.Link) : s.links ++ [⟨k.name, true⟩] =
      (r ++ [{k with alive := true}]).map ofRoster := by
  rw [List.map_append, h]
  rfl

/-- A link that no profile is about. -/
def otherLink (name : Text) (h : wifi.isPrefixOf name = false) : Daemon.Roster.Link where
  name := name
  device := []
  label := []
  priority := if Daemon.Roster.usb.isPrefixOf name then 0 else 2
  named := by
    have hwifi : Daemon.Roster.wifi.isPrefixOf name = false := h
    split <;> simp_all

def dialedLink (peer : Peer) : Daemon.Roster.Link where
  name := peer.linkName
  device := wifi ++ peer.id
  label := []
  priority := 1
  named := by simp [Daemon.Roster.usb, Daemon.Roster.wifi, Peer.linkName, wifi]

/-- The loop sees the daemon's links, and no other adds links over Wi-Fi. -/
theorem beside_daemon : Daemon.Roster.Beside Shows (· ≠ 1) {} Party.next fun _ e =>
    (∃ name, e = .link name) ∨ ∃ l, e = .drop l := by
  refine .of_roster rfl ?_ ?_
  · intro r e r' s hs hok hnext
    have hs : s.links = r.map ofRoster := hs
    cases e with
    | add k =>
        cases hnext
        have hname : ¬ wifi.isPrefixOf k.name = true := fun h => hok (k.named.2.mp h)
        exact ⟨_, .step (.inl ⟨k.name, rfl⟩) (if_neg hname), Shows.added hs k⟩
    | close l =>
        cases hnext
        refine ⟨_, .step (.inr ⟨l, rfl⟩) rfl, ?_⟩
        change s.links.modify l _ = _
        rw [map_close, ← hs]
  · intro s e t r hs _ hnext
    have hs : s.links = r.map ofRoster := hs
    have hlinks := next_links hnext
    unfold flip Shows
    generalize t.links = links at hlinks
    cases hlinks with
    | same => exact ⟨r, .refl, hs⟩
    | link name hname =>
        exact ⟨_, .step (e := .add (otherLink name hname)) trivial rfl,
          Shows.added hs (otherLink name hname)⟩
    | connect peer =>
        exact ⟨_, .step (e := .add (dialedLink peer)) trivial rfl,
          Shows.added hs (dialedLink peer)⟩
    | close l =>
        refine ⟨_, .step (e := .close l) trivial rfl, ?_⟩
        rw [map_close, ← hs]

theorem live_shared {d : Daemon.State} (h : Daemon.Roster.Shared Shows d s) :
    s.live = d.liveLinks := by
  obtain ⟨r, hlists, hshows⟩ := h
  have halive : s.links.map Link.alive = r.map Daemon.Roster.Link.alive := by
    rw [show s.links = r.map ofRoster from hshows, List.map_map]
    rfl
  exact (Daemon.Roster.liveLinks_eq halive).trans hlists.liveLinks.symm

def paired : Peer where
  address := .v4 ⟨192, 168, 1, 10⟩ 40719
  pin := ⟨List.replicate 32 0x1f, rfl⟩
  secret := ⟨List.replicate 32 0xa2, rfl⟩

/-- The phone is paired and the daemon connects to it; then it is forgotten, and
the daemon looks again. -/
def forgottenEvents : List Event :=
  List.flatten [[.add 7 paired.encode],
    [.goes, .goes, .writes paired.encode.length, .goes, .goes, .goes].map (.save 0),
    [.goes, .entry paired.conf, .goes, .goes, .ends, .goes, .goes, .goes, .goes, .goes].map .loop,
    [.remove paired.address],
    [.goes, .entry paired.conf, .goes, .goes, .ends, .goes, .goes].map (.forget 0),
    [.goes, .ends, .goes, .goes, .goes].map .loop]

theorem forgotten_unlinked : ∃ x : Party × Record, x.1.links.map Link.name = [paired.linkName] ∧
    x.1.links.map Link.alive = [false] ∧ Lawful x.1 x.2 := by
  have hrun : ((replay (watch Party.next observe) always ({}, {}) forgottenEvents).any fun x =>
      decide (x.1.links.map Link.name = [paired.linkName] ∧
        x.1.links.map Link.alive = [false])) = true := by
    decide +kernel
  obtain ⟨x, hreplay, hlinks⟩ := (Option.any_eq_true ..).mp hrun
  obtain ⟨hname, halive⟩ := of_decide_eq_true hlinks
  exact ⟨x, hname, halive, links_law (reach_of_replay hreplay)⟩

end Profiles

end Passkey.Network.Wifi

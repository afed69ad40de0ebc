import Passkey.Network.Profiles

/-!
Those who save, read and forget the profiles at the same time. A profile is in
its place with its whole text or not at all: what is not whole has another
name. So who reads the directory, while others change it, meets only profiles
that were there meanwhile, and misses none that was there all the time.
-/

namespace Passkey.Network.Wifi

open Net Text Library
open Cli (decimal_inj)

/-! ### Names -/

theorem rsplitAtDot_append {stem ext : Text} (hstem : stem ≠ []) (hext : ext ≠ [])
    (hdot : '.' ∉ ext) : rsplitAtDot (stem ++ '.' :: ext) = some (stem, ext) := by
  have hreverse : (stem ++ '.' :: ext).reverse = ext.reverse ++ '.' :: stem.reverse := by simp
  have hplain : ∀ c ∈ ext.reverse, (decide (c ≠ '.')) = true := by
    intro c hc
    rw [List.mem_reverse] at hc
    exact decide_eq_true fun heq => hdot (heq ▸ hc)
  have hafter : (ext.reverse ++ '.' :: stem.reverse).takeWhile (· ≠ '.') = ext.reverse := by
    rw [List.takeWhile_append_of_pos hplain]
    simp
  have hbefore : (ext.reverse ++ '.' :: stem.reverse).dropWhile (· ≠ '.') =
      '.' :: stem.reverse := by
    rw [List.dropWhile_append_of_pos hplain]
    simp
  have hparent : ¬ stem ++ '.' :: ext = ['.', '.'] := by
    intro heq
    have hlength := congrArg List.length heq
    have hone := List.length_pos_iff.mpr hstem
    have hmore := List.length_pos_iff.mpr hext
    simp only [List.length_append, List.length_cons] at hlength
    change _ = 2 at hlength
    omega
  unfold rsplitAtDot
  rw [hreverse, hafter, hbefore]
  simp [hparent, hstem]

theorem id_ne_nil (peer : Peer) : peer.id ≠ [] := by
  intro hnil
  have hlength := length_hex peer.pin
  rw [← Peer.id, hnil, peer.pin.2] at hlength
  cases hlength

theorem rsplit_conf (peer : Peer) : rsplitAtDot peer.conf = some (peer.id, "conf".toList) :=
  rsplitAtDot_append (id_ne_nil peer) (by decide) (by decide)

theorem extension_conf (peer : Peer) : extension peer.conf = some "conf".toList := by
  rw [extension, rsplit_conf]
  rfl

theorem temp_eq (peer : Peer) (pid : Nat) :
    peer.temp pid = (peer.id ++ '.' :: decimal pid) ++ '.' :: "new".toList := by
  rw [Peer.temp, withExtension, rsplit_conf]
  simp

theorem extension_temp (peer : Peer) (pid : Nat) :
    extension (peer.temp pid) = some "new".toList := by
  rw [extension, temp_eq, rsplitAtDot_append (by simp) (by decide) (by decide)]
  rfl

theorem temp_ne_conf (peer peer' : Peer) (pid : Nat) : peer.temp pid ≠ peer'.conf := by
  intro heq
  have hsame := extension_temp peer pid
  rw [heq, extension_conf] at hsame
  exact absurd hsame (by decide)

theorem temp_inj {peer peer' : Peer} {pid pid' : Nat} (h : peer.temp pid = peer'.temp pid') :
    pid = pid' := by
  rw [temp_eq, temp_eq] at h
  have hfront := List.append_inj_left' h rfl
  have hlength : peer.id.length = peer'.id.length := by
    rw [Peer.id, Peer.id, length_hex, length_hex, peer.pin.2, peer'.pin.2]
  have hback := List.append_inj_right hfront hlength
  exact decimal_inj (List.cons.inj hback).2

namespace Profiles

/-! ### Profiles in the directory -/

/-- The profile is in its place, and its phone has a local address. -/
structure Stored (d : Directory) (peer : Peer) : Prop where
  near : ∃ value, endpoint value = .ok peer.address
  placed : d.lookup peer.conf = some peer.encode

/-- Nothing else is in such a place. -/
def Whole (d : Directory) : Prop :=
  ∀ name text, d.lookup name = some text → extension name = some "conf".toList →
    ∃ peer, name = peer.conf ∧ text = peer.encode ∧ Stored d peer

theorem Stored.decodes {d : Directory} {peer : Peer} (h : Stored d peer) :
    Peer.decode peer.encode = .ok peer := by
  obtain ⟨value, hvalue⟩ := h.near
  exact decode_profile hvalue

theorem proper_encode (peer : Peer) : proper (metadata peer.encode) = true := by
  have hlength := length_encode peer
  simpa [proper, metadata] using hlength

/-! ### A load -/

/-- A load since whose beginning the directory was each of these. -/
structure Loading (dirs : List Directory) (l : Load) : Prop where
  met : ∀ peer ∈ l.peers, ∃ d ∈ dirs, Stored d peer
  named : ∀ name ∈ l.listing.more, ∃ d ∈ dirs, name ∈ d
  current : ∀ name, l.pc = .stat name ∨ l.pc = .read name →
    extension name = some "conf".toList ∧ ∃ d ∈ dirs, name ∈ d
  sure : l.listing.sure.Nodup
  complete : ∀ peer, (∀ d ∈ dirs, Stored d peer) → peer ∈ l.peers ∨
    peer.conf ∈ l.listing.sure ∨ l.pc = .stat peer.conf ∨ l.pc = .read peer.conf

/-- What a load that succeeded gives. -/
structure Loaded (dirs : List Directory) (peers : List Peer) : Prop where
  met : ∀ peer ∈ peers, ∃ d ∈ dirs, Stored d peer
  complete : ∀ peer, (∀ d ∈ dirs, Stored d peer) → peer ∈ peers

theorem loading_of {dirs : List Directory} {d : Directory} (hd : d ∈ dirs) :
    Loading dirs {listing := .of d} where
  met _ h := absurd h List.not_mem_nil
  named _ h := ⟨d, hd, AList.mem_keys.mpr h⟩
  current _ h := by rcases h with h | h <;> cases h
  sure := d.keys_nodup
  complete peer h := by
    have hstored := (h d hd).placed
    exact .inr (.inl (AList.mem_keys.mp (AList.lookup_isSome.mp (by rw [hstored]; rfl))))

/-- What a listing may become when the directory becomes this one. -/
structure Listing.Sees (d : Directory) (a b : Listing) : Prop where
  nodup : a.sure.Nodup → b.sure.Nodup
  sure : ∀ name ∈ a.sure, name ∈ b.sure ∨ name ∉ d
  more : ∀ name ∈ b.more, name ∈ a.more ∨ name ∈ d

theorem Loading.change {dirs : List Directory} {l : Load} (h : Loading dirs l) {d : Directory}
    {listing : Listing} (hsees : l.listing.Sees d listing) :
    Loading (dirs ++ [d]) {l with listing} := by
  have hold {P : Directory → Prop} (hex : ∃ d ∈ dirs, P d) : ∃ d' ∈ dirs ++ [d], P d' := by
    obtain ⟨d', hd', hP⟩ := hex
    exact ⟨d', List.mem_append_left _ hd', hP⟩
  refine ⟨fun peer hp => hold (h.met peer hp), fun name hname => ?_, fun name hpc => ?_,
    hsees.nodup h.sure, fun peer hall => ?_⟩
  · rcases hsees.more name hname with hmem | hhere
    · exact hold (h.named name hmem)
    · exact ⟨d, by simp, hhere⟩
  · exact (h.current name hpc).imp_right hold
  · have hhere := (hall d (by simp)).placed
    rcases h.complete peer fun d' hd' => hall d' (List.mem_append_left _ hd') with
      hread | hcomes | hpc
    · exact .inl hread
    · refine .inr (.inl ((hsees.sure _ hcomes).resolve_right fun hgone => hgone ?_))
      exact AList.lookup_isSome.mp (by rw [hhere]; rfl)
    · exact .inr (.inr hpc)

theorem Loading.grow {dirs : List Directory} {l : Load} (h : Loading dirs l) (d : Directory) :
    Loading (dirs ++ [d]) l :=
  h.change ⟨id, fun _ hname => .inl hname, fun _ hname => .inl hname⟩

theorem Loaded.grow {dirs : List Directory} {peers : List Peer} (h : Loaded dirs peers)
    (d : Directory) : Loaded (dirs ++ [d]) peers := by
  refine ⟨fun peer hp => ?_, fun peer hall => ?_⟩
  · obtain ⟨d', hd', hstored⟩ := h.met peer hp
    exact ⟨d', List.mem_append_left _ hd', hstored⟩
  · exact h.complete peer fun d' hd' => hall d' (List.mem_append_left _ hd')

/-- A step of a load while the directory is the last of these. -/
inductive LoadTurn (dirs : List Directory) (l : Load) (d : Directory) (act : Act) :
    Load ⊕ Except String (List Peer) → Prop where
  | goesOn (m : Load) (hm : Loading dirs m) : LoadTurn dirs l d act (.inl m)
  | returns (peers : List Peer) (hpeers : Loaded dirs peers) :
      LoadTurn dirs l d act (.inr (.ok peers))
  /-- A profile that was there is gone. -/
  | misses (e : String) (name : Text) (hext : extension name = some "conf".toList)
      (hmet : ∃ d ∈ dirs, name ∈ d) (hgone : name ∉ d) : LoadTurn dirs l d act (.inr (.error e))
  | fails (e : String) (hact : act = .fails) : LoadTurn dirs l d act (.inr (.error e))

theorem Loading.turn {dirs : List Directory} {l : Load} {d : Directory} (h : Loading dirs l)
    (hd : d ∈ dirs) (hwhole : Whole d) {act : Act} {r : Load ⊕ Except String (List Peer)}
    (hnext : l.next d act = some r) : LoadTurn dirs l d act r := by
  unfold Load.next at hnext
  cases act with
  | writes n => cases hnext
  | fails =>
      cases hnext
      exact .fails _ rfl
  | ends =>
      cases hpc : l.pc with
      | entries =>
          simp only [hpc] at hnext
          obtain ⟨hsure, hnext⟩ := Option.ite_none_right_eq_some.mp hnext
          cases hnext
          refine .returns _ ⟨h.met, fun peer hall => ?_⟩
          rcases h.complete peer hall with hread | hcomes | hstat | hread
          · exact hread
          · rw [hsure] at hcomes
            cases hcomes
          · cases hpc.symm.trans hstat
          · cases hpc.symm.trans hread
      | stat name => simp [hpc] at hnext
      | read name => simp [hpc] at hnext
  | entry name =>
      cases hpc : l.pc with
      | entries =>
          simp only [hpc] at hnext
          obtain ⟨hmore, hnext⟩ := Option.ite_none_right_eq_some.mp hnext
          cases hnext
          refine .goesOn _ ⟨h.met, fun name' hname' => ?_, fun name' hpc' => ?_, ?_,
            fun peer hall => ?_⟩
          · exact h.named name' (List.mem_of_mem_erase hname')
          · dsimp only at hpc'
            split at hpc'
            · rename_i hext
              rcases hpc' with heq | heq
              · cases heq
                exact ⟨hext, h.named name hmore⟩
              · cases heq
            · rcases hpc' with heq | heq <;> cases heq
          · exact h.sure.erase name
          · rcases h.complete peer hall with hread | hcomes | hstat | hread
            · exact .inl hread
            · by_cases hname : peer.conf = name
              · refine .inr (.inr (.inl ?_))
                dsimp only
                rw [if_pos (hname ▸ extension_conf peer), hname]
              · exact .inr (.inl ((List.mem_erase_of_ne hname).mpr hcomes))
            · cases hpc.symm.trans hstat
            · cases hpc.symm.trans hread
      | stat other => simp [hpc] at hnext
      | read other => simp [hpc] at hnext
  | goes =>
      cases hpc : l.pc with
      | entries => simp [hpc] at hnext
      | stat name =>
          obtain ⟨hext, hmet⟩ := h.current name (.inl hpc)
          simp only [hpc] at hnext
          split at hnext
          · rename_i hnone
            cases hnext
            exact .misses _ name hext hmet (AList.lookup_eq_none.mp hnone)
          · rename_i text htext
            obtain ⟨peer, rfl, rfl, hstored⟩ := hwhole name text htext hext
            rw [if_pos (proper_encode peer)] at hnext
            cases hnext
            refine .goesOn _ ⟨h.met, h.named, fun name' hpc' => ?_, h.sure, fun peer' hall => ?_⟩
            · rcases hpc' with heq | heq
              · cases heq
              · cases heq
                exact ⟨hext, hmet⟩
            · rcases h.complete peer' hall with hread | hcomes | hstat | hread
              · exact .inl hread
              · exact .inr (.inl hcomes)
              · rw [hpc, LoadPc.stat.injEq] at hstat
                exact .inr (.inr (.inr (congrArg LoadPc.read hstat)))
              · cases hpc.symm.trans hread
      | read name =>
          obtain ⟨hext, hmet⟩ := h.current name (.inr hpc)
          simp only [hpc] at hnext
          split at hnext
          · rename_i hnone
            cases hnext
            exact .misses _ name hext hmet (AList.lookup_eq_none.mp hnone)
          · rename_i text htext
            obtain ⟨peer, rfl, rfl, hstored⟩ := hwhole name text htext hext
            rw [hstored.decodes] at hnext
            cases hnext
            refine .goesOn _ ⟨fun peer' hp => ?_, h.named, fun name' hpc' => ?_, h.sure,
              fun peer' hall => ?_⟩
            · rcases List.mem_append.mp hp with hold | hlast
              · exact h.met peer' hold
              · obtain rfl := List.mem_singleton.mp hlast
                exact ⟨d, hd, hstored⟩
            · rcases hpc' with heq | heq <;> cases heq
            · rcases h.complete peer' hall with hread | hcomes | hstat | hread
              · exact .inl (List.mem_append_left _ hread)
              · exact .inr (.inl hcomes)
              · cases hpc.symm.trans hstat
              · rw [hpc, LoadPc.read.injEq] at hread
                have hhere := (hall d hd).placed
                rw [← hread, hstored.placed, Option.some.injEq] at hhere
                have hsame := hstored.decodes
                rw [hhere, (hall d hd).decodes, Except.ok.injEq] at hsame
                exact .inl (List.mem_append_right _ (hsame ▸ List.mem_singleton_self _))

/-- A load that gives up met a failure of the disk, or a profile that was there
is gone. -/
theorem Loading.gives_up {dirs : List Directory} {l : Load} {d : Directory} (h : Loading dirs l)
    (hwhole : Whole d) {act : Act} {e : String} (hnext : l.next d act = some (.inr (.error e))) :
    act = .fails ∨ ∃ name, extension name = some "conf".toList ∧ (∃ d' ∈ dirs, name ∈ d') ∧
      name ∉ d := by
  have hhere : d ∈ dirs ++ [d] := List.mem_append_right _ (List.mem_singleton_self d)
  cases (h.grow d).turn hhere hwhole hnext with
  | fails _ hact => exact .inl hact
  | misses _ name hext hmet hgone =>
      obtain ⟨d', hd', hname⟩ := hmet
      refine .inr ⟨name, hext, ⟨d', ?_, hname⟩, hgone⟩
      rcases List.mem_append.mp hd' with hbefore | hnow
      · exact hbefore
      · obtain rfl := List.mem_singleton.mp hnow
        exact absurd hname hgone

/-! ### Changes of the directory -/

theorem Whole.insert_other {d : Directory} (h : Whole d) {name : Text}
    (hext : extension name ≠ some "conf".toList) (text : Text) : Whole (d.insert name text) := by
  intro name' text' hlookup hconf
  have hne : name' ≠ name := fun heq => hext (heq ▸ hconf)
  rw [AList.lookup_insert_ne hne] at hlookup
  obtain ⟨peer, hname, htext, hstored⟩ := h name' text' hlookup hconf
  refine ⟨peer, hname, htext, hstored.near, ?_⟩
  rw [AList.lookup_insert_ne (hname ▸ hne)]
  exact hstored.placed

theorem Whole.insert_conf {d : Directory} (h : Whole d) {peer : Peer}
    (hnear : ∃ value, endpoint value = .ok peer.address) :
    Whole (d.insert peer.conf peer.encode) := by
  intro name text hlookup hconf
  by_cases hname : name = peer.conf
  · subst hname
    rw [AList.lookup_insert, Option.some.injEq] at hlookup
    exact ⟨peer, rfl, hlookup.symm, hnear, AList.lookup_insert d⟩
  · rw [AList.lookup_insert_ne hname] at hlookup
    obtain ⟨peer', hname', htext, hstored⟩ := h name text hlookup hconf
    refine ⟨peer', hname', htext, hstored.near, ?_⟩
    rw [AList.lookup_insert_ne (hname' ▸ hname)]
    exact hstored.placed

theorem lookup_of_erase {d : Directory} {gone name text : Text}
    (h : (d.erase gone).lookup name = some text) : name ≠ gone ∧ d.lookup name = some text := by
  have hne : name ≠ gone := by
    rintro rfl
    rw [AList.lookup_erase] at h
    cases h
  rw [AList.lookup_erase_ne hne] at h
  exact ⟨hne, h⟩

theorem Whole.erase {d : Directory} (h : Whole d) (gone : Text) : Whole (d.erase gone) := by
  intro name text hlookup hconf
  obtain ⟨hne, hthere⟩ := lookup_of_erase hlookup
  obtain ⟨peer, hname, htext, hstored⟩ := h name text hthere hconf
  refine ⟨peer, hname, htext, hstored.near, ?_⟩
  rw [AList.lookup_erase_ne (hname ▸ hne)]
  exact hstored.placed

/-! ### The adders -/

/-- What is in the file of an adder that is here. -/
def Saving.Has (whole text : Text) : Saving → Prop
  | .write rest => text ++ rest = whole
  | .sync | .rename => text = whole
  | _ => True

/-- The file may be gone, for any process of root can remove it. -/
def Adder.Writes (d : Directory) (a : Adder) : Prop :=
  ∀ text, d.lookup a.temp = some text → a.pc.Has a.peer.encode text

structure Sound (d : Directory) (adders : List Adder) : Prop where
  whole : Whole d
  near : ∀ a ∈ adders, ∃ value, endpoint value = .ok a.peer.address
  writes : ∀ a ∈ adders, a.Writes d
  apart : ∀ (p q : Nat) (a b : Adder), adders[p]? = some a → adders[q]? = some b →
    a.pc.running = true → b.pc.running = true → a.pid = b.pid → p = q

theorem Adder.Writes.change {d d' : Directory} {a : Adder} (h : a.Writes d)
    (hfile : a.pc.running = true → ∀ text, d'.lookup a.temp = some text →
      d.lookup a.temp = some text) : a.Writes d' := by
  intro text htext
  by_cases hrunning : a.pc.running = true
  · exact h text (hfile hrunning text htext)
  · cases hpc : a.pc with
    | done ok => exact trivial
    | prepare | create | write rest | sync | rename | clean ok =>
        rw [hpc] at hrunning
        exact (hrunning rfl).elim

/-- One adder goes on, and the directory changes in its own files only. -/
theorem Sound.set {d d' : Directory} {adders : List Adder} (h : Sound d adders) {p : Nat}
    {a : Adder} (ha : adders[p]? = some a) (hrunning : a.pc.running = true) {pc : Saving}
    (hwhole : Whole d') (howns : Adder.Writes d' {a with pc})
    (hothers : ∀ b : Adder, b.temp ≠ a.temp → ∀ text, d'.lookup b.temp = some text →
      d.lookup b.temp = some text) : Sound d' (adders.set p {a with pc}) := by
  have hp : p < adders.length := (List.getElem?_eq_some_iff.mp ha).1
  have hat {q : Nat} {b : Adder} (hb : (adders.set p {a with pc})[q]? = some b) :
      (q = p ∧ b = {a with pc}) ∨ (q ≠ p ∧ adders[q]? = some b) := by
    by_cases hq : p = q
    · subst hq
      rw [List.getElem?_set_self hp, Option.some.injEq] at hb
      exact .inl ⟨rfl, hb.symm⟩
    · rw [List.getElem?_set_ne hq] at hb
      exact .inr ⟨Ne.symm hq, hb⟩
  refine ⟨hwhole, fun b hb => ?_, fun b hb => ?_, fun q q' b b' hb hb' hrun hrun' hpid => ?_⟩
  · rcases List.mem_or_eq_of_mem_set hb with hmem | rfl
    · exact h.near b hmem
    · exact h.near a (List.mem_of_getElem? ha)
  · obtain ⟨q, hq⟩ := List.getElem?_of_mem hb
    rcases hat hq with ⟨-, rfl⟩ | ⟨hne, hsame⟩
    · exact howns
    · refine (h.writes b (List.mem_of_getElem? hsame)).change fun hrun => hothers b fun htemp => ?_
      exact hne (h.apart q p b a hsame ha hrun hrunning (temp_inj htemp))
  · rcases hat hb with ⟨rfl, rfl⟩ | ⟨hne, hsame⟩ <;> rcases hat hb' with ⟨rfl, rfl⟩ | ⟨hne', hsame'⟩
    · rfl
    · exact h.apart _ _ a b' ha hsame' hrunning hrun' hpid
    · exact h.apart _ _ b a hsame ha hrun hrunning hpid
    · exact h.apart q q' b b' hsame hsame' hrun hrun' hpid

/-! ### What the others see of a change -/

namespace Listing

theorem Sees.refl (d : Directory) (s : Listing) : s.Sees d s :=
  ⟨id, fun _ hname => .inl hname, fun _ hname => .inl hname⟩

theorem Sees.trans {d : Directory} {a b c : Listing} (h : a.Sees d b) (h' : b.Sees d c) :
    a.Sees d c where
  nodup := h'.nodup ∘ h.nodup
  sure name hname := (h.sure name hname).elim (h'.sure name) .inr
  more name hname := (h'.more name hname).elim (h.more name) .inr

theorem appears_sees {d : Directory} {name : Text} (h : name ∈ d) (s : Listing) :
    s.Sees d (s.appears name) := by
  refine ⟨id, fun _ hname => .inl hname, fun name' hname => ?_⟩
  rcases List.mem_cons.mp hname with rfl | hmem
  · exact .inr h
  · exact .inl hmem

theorem vanishes_sees {d : Directory} {name : Text} (h : name ∉ d) (s : Listing) :
    s.Sees d (s.vanishes name) := by
  refine ⟨fun hnodup => hnodup.erase name, fun name' hname => ?_, fun _ hname => .inl hname⟩
  by_cases heq : name' = name
  · exact .inr (heq ▸ h)
  · exact .inl ((List.mem_erase_of_ne heq).mpr hname)

end Listing

inductive Looping.Sees (d : Directory) : Looping → Looping → Prop where
  | same (loop : Looping) : Looping.Sees d loop loop
  | load (l : Load) (listing : Listing) (h : l.listing.Sees d listing) :
      Looping.Sees d (.load l) (.load {l with listing})

inductive Removing.Sees (d : Directory) : Removing → Removing → Prop where
  | same (pc : Removing) : Removing.Sees d pc pc
  | load (l : Load) (listing : Listing) (h : l.listing.Sees d listing) :
      Removing.Sees d (.load l) (.load {l with listing})

theorem Looping.Sees.trans {d : Directory} {a b c : Looping} (h : a.Sees d b) (h' : b.Sees d c) :
    a.Sees d c := by
  cases h with
  | same => exact h'
  | load l listing h =>
      cases h' with
      | same => exact .load l listing h
      | load m listing' h' => exact .load l listing' (h.trans h')

theorem Removing.Sees.trans {d : Directory} {a b c : Removing} (h : a.Sees d b)
    (h' : b.Sees d c) : a.Sees d c := by
  cases h with
  | same => exact h'
  | load l listing h =>
      cases h' with
      | same => exact .load l listing h
      | load m listing' h' => exact .load l listing' (h.trans h')

/-- A Wi-Fi link that is up. -/
structure Up (links : List Link) (i : LinkIndex) (link : Link) : Prop where
  there : links[i]? = some link
  alive : link.alive = true
  wifi : link.isWifi = true

/-- No Wi-Fi link is up here that was not. -/
def Keeps (links links' : List Link) : Prop :=
  ∀ i link, Up links' i link → Up links i link

/-- The others' part when the directory becomes this one. -/
structure Beside (d : Directory) (s t : Party) : Prop where
  links : Keeps s.links t.links
  loop : s.loop.Sees d t.loop
  removers : ∀ (q : Nat) (r' : Remover), t.removers[q]? = some r' → ∃ r : Remover,
    s.removers[q]? = some r ∧ r'.address = r.address ∧ r.pc.Sees d r'.pc

namespace Beside

theorem refl (d : Directory) (s : Party) : Beside d s s :=
  ⟨fun _ _ h => h, .same _, fun _ r h => ⟨r, h, rfl, .same _⟩⟩

theorem trans {d : Directory} {s t u : Party} (h : Beside d s t) (h' : Beside d t u) :
    Beside d s u where
  links i link hup := h.links i link (h'.links i link hup)
  loop := h.loop.trans h'.loop
  removers q r'' hr'' := by
    obtain ⟨r', hr', haddress', hsees'⟩ := h'.removers q r'' hr''
    obtain ⟨r, hr, haddress, hsees⟩ := h.removers q r' hr'
    exact ⟨r, hr, haddress'.trans haddress, hsees.trans hsees'⟩

theorem onListings {d : Directory} {f : Listing → Listing} (hf : ∀ a, Listing.Sees d a (f a))
    (s : Party) : Beside d s (s.onListings f) := by
  refine ⟨fun _ _ h => h, ?_, fun q r' hr' => ?_⟩
  · unfold Party.onListings
    cases s.loop with
    | load l => exact .load l _ (hf _)
    | asleep | wanted peers | close peers todo | connect peers | dial peer rest => exact .same _
  · rw [Party.onListings, List.getElem?_map, Option.map_eq_some_iff] at hr'
    obtain ⟨r, hr, rfl⟩ := hr'
    refine ⟨r, hr, ?_⟩
    split
    · rename_i l hpc
      refine ⟨rfl, ?_⟩
      rw [hpc]
      exact .load _ _ (hf _)
    · exact ⟨rfl, .same _⟩

theorem put {d : Directory} {name : Text} (h : name ∈ d) (s : Party) (text : Text) :
    Beside d s (s.put name text) := by
  unfold Party.put
  split
  · exact ⟨(refl d s).links, (refl d s).loop, (refl d s).removers⟩
  · have hsees := onListings (Listing.appears_sees h) s
    exact ⟨hsees.links, hsees.loop, hsees.removers⟩

theorem unlink {d : Directory} {name : Text} (h : name ∉ d) (s : Party) :
    Beside d s (s.unlink name) := by
  have hsees := onListings (Listing.vanishes_sees h) s
  exact ⟨hsees.links, hsees.loop, hsees.removers⟩

end Beside

namespace Party

@[simp] theorem onListings_files (f : Listing → Listing) (s : Party) :
    (s.onListings f).files = s.files := rfl

@[simp] theorem onListings_adders (f : Listing → Listing) (s : Party) :
    (s.onListings f).adders = s.adders := rfl

@[simp] theorem put_files (s : Party) (name text : Text) :
    (s.put name text).files = s.files.insert name text := by
  unfold put
  split <;> rfl

@[simp] theorem put_adders (s : Party) (name text : Text) :
    (s.put name text).adders = s.adders := by
  unfold put
  split <;> rfl

@[simp] theorem unlink_files (s : Party) (name : Text) :
    (s.unlink name).files = s.files.erase name := rfl

@[simp] theorem unlink_adders (s : Party) (name : Text) : (s.unlink name).adders = s.adders := rfl

end Party

theorem mem_insert_self (d : Directory) (name text : Text) : name ∈ d.insert name text :=
  (AList.mem_insert d).mpr (.inl rfl)

theorem not_mem_erase_self (d : Directory) (name : Text) : name ∉ d.erase name := by
  rw [AList.mem_erase]
  exact fun h => h.1 rfl

/-- What a step of an adder keeps, and what the others see of it. -/
structure Kept (s t : Party) : Prop where
  sound : Sound t.files t.adders
  beside : Beside t.files s t

section Save

variable {s : Party} {p : Nat} {a : Adder} {pc : Saving}

theorem kept_still (h : Sound s.files s.adders) (ha : s.adders[p]? = some a)
    (hrunning : a.pc.running = true)
    (hhas : ∀ text, s.files.lookup a.temp = some text → pc.Has a.peer.encode text) :
    Kept s (s.setAdder p a pc) where
  sound := h.set ha hrunning h.whole hhas fun _ _ _ htext => htext
  beside :=
    have hsame := Beside.refl s.files s
    ⟨hsame.links, hsame.loop, hsame.removers⟩

theorem kept_put (h : Sound s.files s.adders) (ha : s.adders[p]? = some a)
    (hrunning : a.pc.running = true) {text : Text} (hhas : pc.Has a.peer.encode text) :
    Kept s ((s.put a.temp text).setAdder p a pc) := by
  have hext : extension a.temp ≠ some "conf".toList := by
    rw [Adder.temp, extension_temp]
    decide
  have hsees := Beside.put (mem_insert_self s.files a.temp text) s text
  rw [← Party.put_files] at hsees
  refine ⟨?_, hsees.links, hsees.loop, hsees.removers⟩
  change Sound (s.put a.temp text).files ((s.put a.temp text).adders.set p {a with pc})
  rw [Party.put_files, Party.put_adders]
  refine h.set ha hrunning (h.whole.insert_other hext text) (fun text' htext => ?_)
    fun b hne text' htext => ?_
  · change (s.files.insert a.temp text).lookup a.temp = some text' at htext
    rw [AList.lookup_insert, Option.some.injEq] at htext
    exact htext ▸ hhas
  · rwa [AList.lookup_insert_ne hne] at htext

theorem kept_unlink (h : Sound s.files s.adders) (ha : s.adders[p]? = some a)
    (hrunning : a.pc.running = true) : Kept s ((s.unlink a.temp).setAdder p a pc) := by
  have hsees := Beside.unlink (not_mem_erase_self s.files a.temp) s
  refine ⟨?_, hsees.links, hsees.loop, hsees.removers⟩
  exact h.set ha hrunning (h.whole.erase a.temp)
    (fun _ htext => absurd rfl (lookup_of_erase htext).1)
    fun _ _ _ htext => (lookup_of_erase htext).2

/-- The text is whole when it gets the name of a profile. -/
theorem kept_rename (h : Sound s.files s.adders) (ha : s.adders[p]? = some a)
    (hrunning : a.pc.running = true) :
    Kept s (((s.unlink a.temp).put a.peer.conf a.peer.encode).setAdder p a pc) := by
  have hnear := h.near a (List.mem_of_getElem? ha)
  have hfiles := Party.put_files (s.unlink a.temp) a.peer.conf a.peer.encode
  have hadders := Party.put_adders (s.unlink a.temp) a.peer.conf a.peer.encode
  have hthere {b : Adder} {text : Text}
      (htext : ((s.files.erase a.temp).insert a.peer.conf a.peer.encode).lookup b.temp =
        some text) : b.temp ≠ a.temp ∧ s.files.lookup b.temp = some text := by
    have hne : b.temp ≠ a.peer.conf := temp_ne_conf b.peer a.peer b.pid
    rw [AList.lookup_insert_ne hne] at htext
    exact lookup_of_erase htext
  have hgone : a.temp ∉ (s.files.erase a.temp).insert a.peer.conf a.peer.encode := by
    rw [AList.mem_insert, not_or]
    exact ⟨temp_ne_conf a.peer a.peer a.pid, not_mem_erase_self s.files a.temp⟩
  have hsees := (Beside.unlink hgone s).trans
    (Beside.put (mem_insert_self _ a.peer.conf a.peer.encode) (s.unlink a.temp) a.peer.encode)
  rw [← Party.unlink_files, ← hfiles] at hsees
  refine ⟨?_, hsees.links, hsees.loop, hsees.removers⟩
  change Sound ((s.unlink a.temp).put a.peer.conf a.peer.encode).files
    (((s.unlink a.temp).put a.peer.conf a.peer.encode).adders.set p {a with pc})
  rw [hfiles, hadders]
  exact h.set ha hrunning ((h.whole.erase a.temp).insert_conf hnear)
    (fun _ htext => absurd rfl (hthere htext).1) fun _ _ _ htext => (hthere htext).2

/-- What was written and what is left are the whole after some is written. -/
theorem has_written {whole text rest : Text} (h : text ++ rest = whole) (n : Nat) :
    (if rest.drop n = [] then Saving.sync else .write (rest.drop n)).Has whole
      (text ++ rest.take n) := by
  split
  · rename_i hnil
    change text ++ rest.take n = whole
    rw [← h, ← List.append_nil (rest.take n), ← hnil, List.take_append_drop]
  · change text ++ rest.take n ++ rest.drop n = whole
    rw [List.append_assoc, List.take_append_drop, h]

/-- No step of `save` leaves half a profile. -/
theorem save_keeps {t : Party} {act : Act} (h : Sound s.files s.adders)
    (ha : s.adders[p]? = some a) (hsave : s.save p a act = some t) : Kept s t := by
  have hmine := h.writes a (List.mem_of_getElem? ha)
  unfold Adder.Writes at hmine
  unfold Party.save at hsave
  split at hsave
  · rename_i hpc
    cases hsave
    exact kept_still h ha (by rw [hpc]; rfl) fun _ _ => trivial
  · rename_i hpc
    cases hsave
    exact kept_still h ha (by rw [hpc]; rfl) fun _ _ => trivial
  · rename_i hpc
    split at hsave <;> cases hsave
    · exact kept_still h ha (by rw [hpc]; rfl) fun _ _ => trivial
    · exact kept_put h ha (by rw [hpc]; rfl) (List.nil_append _)
  · rename_i rest n hpc
    obtain ⟨-, hsave⟩ := Option.ite_none_right_eq_some.mp hsave
    cases hsave
    rw [hpc] at hmine
    cases hfile : s.files.lookup a.temp with
    | some text => exact kept_put h ha (by rw [hpc]; rfl) (has_written (hmine text hfile) n)
    | none =>
        refine kept_still h ha (by rw [hpc]; rfl) fun text htext => ?_
        cases hfile.symm.trans htext
  · rename_i hpc
    cases hsave
    rw [hpc] at hmine
    exact kept_still h ha (by rw [hpc]; rfl) hmine
  · rename_i hpc
    rw [hpc] at hmine
    split at hsave <;> cases hsave
    · rename_i text hfile
      obtain rfl := hmine text hfile
      exact kept_rename h ha (by rw [hpc]; rfl)
    · exact kept_still h ha (by rw [hpc]; rfl) fun _ _ => trivial
  · rename_i hpc
    cases hsave
    exact kept_still h ha (by rw [hpc]; rfl) fun _ _ => trivial
  · rename_i hpc
    cases hsave
    exact kept_still h ha (by rw [hpc]; rfl) fun _ _ => trivial
  · rename_i hpc
    cases hsave
    exact kept_still h ha (by rw [hpc]; rfl) fun _ _ => trivial
  · rename_i hpc
    cases hsave
    exact kept_still h ha (by rw [hpc]; rfl) fun _ _ => trivial
  · rename_i hpc
    cases hsave
    exact kept_unlink h ha (by rw [hpc]; rfl)
  · rename_i hpc
    cases hsave
    exact kept_still h ha (by rw [hpc]; rfl) fun _ _ => trivial
  · cases hsave

end Save

end Profiles

end Passkey.Network.Wifi

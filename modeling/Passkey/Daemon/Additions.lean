import Passkey.Daemon.Listings
import Passkey.Daemon.Roster

/-!
`add`, `remove` and the devices file beside the daemon. The links are the same
as long as they are live and in the list; their numbers can differ, as they are
given here when `add` creates a link and there when it is put in the list.
-/

namespace Passkey.Daemon.Connections

open Library

/-! ### No link is listed twice -/

/-- The link that the call has still to put in the list. -/
def Pc.pushes : Pc → Option LinkId
  | .push l => some l
  | _ => none

structure Orderly (s : State) : Prop where
  created : Created s
  once : (s.links ++ s.calls.filterMap Pc.pushes).Nodup

/-- A call puts its link in the list, or leaves out some. -/
theorem turn_listed {s t : State} {pc after : Pc} (hturn : s.turn pc = some (t, after)) :
    after.pushes = none ∧ ((∃ l, pc = .push l ∧ t.links = s.links ++ [l]) ∨
      pc.pushes = none ∧ t.links.Sublist s.links) := by
  cases pc with
  | push new =>
      cases hturn
      exact ⟨rfl, .inl ⟨new, rfl, rfl⟩⟩
  | retain =>
      cases hturn
      exact ⟨rfl, .inr ⟨rfl, List.filter_sublist⟩⟩
  | count =>
      cases hturn
      exact ⟨by split <;> rfl, .inr ⟨rfl, .refl _⟩⟩
  | publish | write | cancel =>
      cases hturn
      exact ⟨rfl, .inr ⟨rfl, .refl _⟩⟩
  | sync =>
      cases hturn
      exact ⟨by split <;> rfl, .inr ⟨rfl, .refl _⟩⟩
  | rename =>
      cases hturn
      refine ⟨rfl, .inr ⟨rfl, ?_⟩⟩
      unfold State.rename
      split <;> exact .refl _
  | destroy =>
      cases hturn
      refine ⟨rfl, .inr ⟨rfl, ?_⟩⟩
      unfold State.destroyUhid
      split <;> exact .refl _
  | create =>
      cases hturn
      refine ⟨rfl, .inr ⟨rfl, ?_⟩⟩
      unfold State.createUhid
      split <;> exact .refl _
  | reset =>
      simp only [State.turn] at hturn
      split at hturn <;>
        · cases hturn
          exact ⟨rfl, .inr ⟨rfl, .refl _⟩⟩
  | done => cases hturn

theorem pushes_set {calls : List Pc} {i : Nat} {pc : Pc} (hi : calls[i]? = some pc) (after : Pc) :
    (calls.filterMap Pc.pushes).Perm
        (pc.pushes.toList ++ (calls.eraseIdx i).filterMap Pc.pushes) ∧
      ((calls.set i after).filterMap Pc.pushes).Perm
        (after.pushes.toList ++ (calls.eraseIdx i).filterMap Pc.pushes) := by
  obtain ⟨hlt, rfl⟩ := List.getElem?_eq_some_iff.mp hi
  have hbefore := (List.getElem_cons_eraseIdx_perm hlt).symm.filterMap Pc.pushes
  have hafter := (List.set_perm_cons_eraseIdx hlt after).filterMap Pc.pushes
  rw [List.filterMap_cons] at hbefore hafter
  refine ⟨hbefore.trans ?_, hafter.trans ?_⟩
  · cases (calls[i]).pushes <;> exact .refl _
  · cases after.pushes <;> exact .refl _

/-- A call leaves fewer links to be listed than before. -/
theorem once_set {s t : State} {i : Nat} {pc after : Pc}
    (h : (s.links ++ s.calls.filterMap Pc.pushes).Nodup) (hi : s.calls[i]? = some pc)
    (hsub : (t.links ++ after.pushes.toList).Sublist (s.links ++ pc.pushes.toList)) :
    (t.links ++ (s.calls.set i after).filterMap Pc.pushes).Nodup := by
  obtain ⟨hbefore, hafter⟩ := pushes_set hi after
  have hold := (hbefore.append_left s.links).nodup_iff.mp h
  rw [← List.append_assoc] at hold
  refine (hafter.append_left t.links).nodup_iff.mpr ?_
  rw [← List.append_assoc]
  exact hold.sublist (hsub.append_right _)

theorem Orderly.step {s t : State} {e : Event} (h : Orderly s) (hnext : next s e = some t) :
    Orderly t := by
  refine ⟨h.created.step hnext, ?_⟩
  have hother {pc : Pc} (hpc : pc.pushes = none) :
      (s.links ++ (s.calls ++ [pc]).filterMap Pc.pushes).Nodup := by
    rw [List.filterMap_append, List.filterMap_cons_none hpc, List.filterMap_nil, List.append_nil]
    exact h.once
  cases e with
  | add device label priority =>
      cases hnext
      change (s.links ++ (s.calls ++ [_]).filterMap Pc.pushes).Nodup
      rw [List.filterMap_append, ← List.append_assoc]
      refine List.nodup_append.mpr ⟨h.once, List.nodup_singleton s.created, ?_⟩
      intro a ha b hb
      obtain rfl := List.mem_singleton.mp hb
      refine Nat.ne_of_lt ?_
      rcases List.mem_append.mp ha with hlisted | hcall
      · exact h.created.1 a hlisted
      · obtain ⟨pc, hpc, hpushes⟩ := List.mem_filterMap.mp hcall
        cases pc <;> cases hpushes
        exact h.created.2 a hpc
  | remove | endRead =>
      obtain ⟨-, heq⟩ := Option.ite_none_right_eq_some.mp hnext
      cases heq
      exact hother rfl
  | close l =>
      obtain ⟨-, heq⟩ := Option.ite_none_right_eq_some.mp hnext
      cases heq
      exact h.once
  | call i =>
      obtain ⟨⟨u, after⟩, hbind, heq⟩ := Option.map_eq_some_iff.mp hnext
      obtain ⟨pc, hi, hturn⟩ := Option.bind_eq_some_iff.mp hbind
      subst heq
      obtain ⟨hafter, ⟨l, rfl, hlinks⟩ | ⟨hpc, hlinks⟩⟩ := turn_listed hturn
      · refine once_set (t := {u with calls := s.calls.set i after}) h.once hi ?_
        rw [hafter, Option.toList_none, List.append_nil]
        change u.links.Sublist (s.links ++ [l])
        rw [hlinks]
      · refine once_set (t := {u with calls := s.calls.set i after}) h.once hi ?_
        rw [hafter, hpc]
        exact hlinks.append_right _
  | fault i temporary =>
      simp only [next] at hnext
      split at hnext
      · rename_i hi
        cases hnext
        exact once_set (t := {s with temporary, calls := s.calls.set i .sync}) h.once hi (.refl _)
      · rename_i hi
        cases hnext
        exact once_set (t := {s with temporary, calls := s.calls.set i .sync}) h.once hi (.refl _)
      · cases hnext

/-! ### The links of the daemon -/

/-- What the devices file and the choice of devices know of a link. -/
def Link.fields (k : Link) : Text × Text × UInt8 :=
  (k.device, k.label, k.priority)

def State.shown (s : State) : List (Text × Text × UInt8) :=
  s.liveLinks.map fun l => (s.link l).fields

def ofRoster (k : Roster.Link) : Text × Text × UInt8 :=
  (k.device, k.label, k.priority)

structure Shows (r : Roster.State) (s : State) : Prop where
  orderly : Orderly s
  shown : s.shown = (r.filter Roster.Link.alive).map ofRoster

theorem shown_sublist {s t : State} (hlink : t.link = s.link) (hlinks : t.links.Sublist s.links) :
    t.shown.Sublist s.shown := by
  unfold State.shown State.liveLinks
  rw [hlink]
  exact (hlinks.filter _).map _

/-- A link that is put in the list is the last of those that are shown, if it is
live. -/
theorem shown_push {s t : State} {l : LinkId} (hlink : t.link = s.link)
    (hlinks : t.links = s.links ++ [l]) :
    t.shown = s.shown ++ if (s.link l).alive then [(s.link l).fields] else [] := by
  unfold State.shown State.liveLinks
  rw [hlink, hlinks, List.filter_append, List.map_append]
  cases halive : (s.link l).alive <;> simp [halive]

/-- Closing a link takes it from those that are shown. -/
theorem shown_close (s : State) (l : LinkId) :
    State.shown {s with link := Function.update s.link l {s.link l with alive := false}} =
      (s.liveLinks.filter (· ≠ l)).map fun l => (s.link l).fields := by
  have hsame (x : LinkId) (hx : x ≠ l) :
      Function.update s.link l {s.link l with alive := false} x = s.link x :=
    Function.update_of_ne hx ..
  unfold State.shown State.liveLinks
  rw [List.filter_filter]
  have hlive : (s.links.filter fun x =>
      (Function.update s.link l {s.link l with alive := false} x).alive) =
        s.links.filter fun x => decide (x ≠ l) && (s.link x).alive := by
    refine List.filter_congr fun x _ => ?_
    by_cases hx : x = l
    · subst hx
      simp
    · simp [hx]
  rw [hlive]
  refine List.map_congr_left fun x hx => congrArg Link.fields (hsame x ?_)
  exact of_decide_eq_true (Bool.and_eq_true_iff.mp (List.mem_filter.mp hx).2).1

/-- To close a link of the roster takes one from the live ones, or none. -/
theorem alive_close (r : Roster.State) (l : LinkId) :
    ∃ i, (r.modify l Roster.Link.close).filter Roster.Link.alive =
      (r.filter Roster.Link.alive).eraseIdx i := by
  induction r generalizing l with
  | nil => exact ⟨0, by simp⟩
  | cons k r ih =>
      cases l with
      | zero =>
          by_cases hk : k.alive = true
          · exact ⟨0, by simp [Roster.Link.close, hk]⟩
          · refine ⟨(r.filter Roster.Link.alive).length, ?_⟩
            simp [Roster.Link.close, hk, List.eraseIdx_of_length_le]
      | succ l =>
          obtain ⟨i, hi⟩ := ih l
          by_cases hk : k.alive = true
          · exact ⟨i + 1, by simp [hk, hi]⟩
          · exact ⟨i, by simp [hk, hi]⟩

theorem modify_middle (before : Roster.State) (k : Roster.Link) (after : Roster.State) :
    (before ++ k :: after).modify before.length Roster.Link.close =
      before ++ k.close :: after := by
  induction before with
  | nil => rfl
  | cons a before ih => simp [ih]

/-- Links of the roster can be closed until these are left. -/
theorem reach_of_sublist {shown : List (Text × Text × UInt8)} (before r : Roster.State)
    (h : shown.Sublist ((r.filter Roster.Link.alive).map ofRoster)) :
    ∃ r', Reach Roster.next always (before ++ r) (before ++ r') ∧
      (r'.filter Roster.Link.alive).map ofRoster = shown := by
  induction r generalizing before shown with
  | nil => exact ⟨[], .refl, (List.sublist_nil.mp h).symm⟩
  | cons k r ih =>
      have hassoc (k : Roster.Link) (r : Roster.State) :
          (before ++ [k]) ++ r = before ++ k :: r := by simp
      by_cases hk : k.alive = true
      · rw [List.filter_cons_of_pos hk, List.map_cons] at h
        cases h with
        | cons _ hrest =>
            obtain ⟨r', hrun, hr'⟩ := ih (before ++ [k.close]) hrest
            rw [hassoc, hassoc] at hrun
            refine ⟨k.close :: r', .trans (.step (e := .close before.length) trivial ?_) hrun, hr'⟩
            exact congrArg some (modify_middle before k r)
        | cons_cons _ hrest =>
            obtain ⟨r', hrun, hr'⟩ := ih (before ++ [k]) hrest
            rw [hassoc, hassoc] at hrun
            exact ⟨k :: r', hrun, by rw [List.filter_cons_of_pos hk, List.map_cons, hr']⟩
      · rw [List.filter_cons_of_neg hk] at h
        obtain ⟨r', hrun, hr'⟩ := ih (before ++ [k]) h
        rw [hassoc, hassoc] at hrun
        exact ⟨k :: r', hrun, by rw [List.filter_cons_of_neg hk, hr']⟩

/-- A call of `add` comes to the list, and nothing else happens meanwhile. -/
theorem add_reaches (s : State) (device label : Text) (priority : UInt8) :
    ∃ t, Reach next always s t ∧ t.links = s.links ++ [s.created] ∧
      t.link = Function.update s.link s.created {device, label, priority} := by
  have hadd : next s (.add device label priority) = some _ := rfl
  have hpush (t : State) (ht : t.calls[s.calls.length]? = some (.push s.created)) :
      next t (.call s.calls.length) = some {t with
        links := t.links ++ [s.created]
        calls := t.calls.set s.calls.length .publish} := by
    simp only [next, ht]
    rfl
  exact ⟨_, (Reach.step trivial hadd).tail trivial (hpush _ List.getElem?_concat_length), rfl, rfl⟩

theorem shown_created {s t : State} (h : Created s) {k : Link}
    (hlink : t.link = Function.update s.link s.created k) (hlinks : t.links = s.links) :
    t.shown = s.shown := by
  have hsame (x : LinkId) (hx : x ∈ s.links) : t.link x = s.link x := by
    rw [hlink]
    exact Function.update_of_ne (Nat.ne_of_lt (h.1 x hx)) ..
  unfold State.shown State.liveLinks
  rw [hlinks, List.filter_congr fun x hx => by rw [hsame x hx]]
  exact List.map_congr_left fun x hx => by rw [hsame x (List.mem_filter.mp hx).1]

/-- The link with a name of its transport. -/
def namedLink (k : Link) : Roster.Link where
  name := Roster.nameOf k.priority
  device := k.device
  label := k.label
  priority := k.priority
  named := Roster.nameOf_named k.priority

/-- What happens to the links of the roster, calls of `add` and closed links bring
about here. -/
theorem roster_follows : Follows Shows Roster.next (Roster.Adds fun _ => True) next always := by
  intro r e r' s hs _ hnext
  cases e with
  | add k =>
      cases hnext
      obtain ⟨t, hrun, hlinks, hlink⟩ := add_reaches s k.device k.label k.priority
      refine ⟨t, hrun, ?_, ?_⟩
      · exact hrun.invariant hs.orderly fun _ _ _ ht _ hnext => ht.step hnext
      · have hcreated :=
          shown_created (t := {t with links := s.links}) hs.orderly.created hlink rfl
        have hpush := shown_push (s := {t with links := s.links}) (t := t) rfl hlinks
        rw [hpush, hcreated, hs.shown, hlink, Function.update_self, List.filter_append,
          List.map_append]
        rfl
  | close l =>
      cases hnext
      obtain ⟨i, hi⟩ := alive_close r l
      by_cases hlt : i < s.liveLinks.length
      · have hmem := List.getElem_mem hlt
        have hclose : next s (.close s.liveLinks[i]) = some _ :=
          if_pos (hs.orderly.created.1 _ (List.mem_filter.mp hmem).1)
        refine ⟨_, .step trivial hclose, hs.orderly.step hclose, ?_⟩
        have hnodup : s.liveLinks.Nodup := (List.nodup_append.mp hs.orderly.once).1.filter _
        have herase : s.liveLinks.filter (· ≠ s.liveLinks[i]) = s.liveLinks.eraseIdx i := by
          rw [← hnodup.erase_getElem i hlt, hnodup.erase_eq_filter]
          refine List.filter_congr fun x _ => ?_
          simp [bne, beq_eq_decide]
        rw [shown_close, herase, hi, ← List.eraseIdx_map, ← List.eraseIdx_map, ← hs.shown]
        rfl
      · refine ⟨s, .refl, hs.orderly, ?_⟩
        have hlength := congrArg List.length hs.shown
        rw [State.shown, List.length_map, List.length_map] at hlength
        rw [hi, List.eraseIdx_of_length_le (hlength ▸ Nat.not_lt.mp hlt)]
        exact hs.shown

/-- What `add` and `remove` do to the links is to add one or to close some. -/
theorem follows_roster : Follows (flip Shows) next always Roster.next always := by
  intro s e t r hs _ hnext
  have hs : Shows r s := hs
  have horderly := hs.orderly.step hnext
  have hsame (h : t.shown = s.shown) : ∃ r', Reach Roster.next always r r' ∧ Shows r' t :=
    ⟨r, .refl, horderly, h.trans hs.shown⟩
  have hfewer (h : t.shown.Sublist s.shown) :
      ∃ r', Reach Roster.next always r r' ∧ Shows r' t := by
    rw [hs.shown] at h
    obtain ⟨r', hrun, hr'⟩ := reach_of_sublist [] r h
    exact ⟨r', hrun, horderly, hr'.symm⟩
  cases e with
  | add device label priority =>
      cases hnext
      exact hsame (shown_created hs.orderly.created rfl rfl)
  | remove | endRead =>
      obtain ⟨-, heq⟩ := Option.ite_none_right_eq_some.mp hnext
      cases heq
      exact hsame rfl
  | close l =>
      obtain ⟨-, heq⟩ := Option.ite_none_right_eq_some.mp hnext
      cases heq
      refine hfewer ?_
      rw [shown_close]
      exact List.filter_sublist.map _
  | call i =>
      obtain ⟨⟨u, after⟩, hbind, heq⟩ := Option.map_eq_some_iff.mp hnext
      obtain ⟨pc, hi, hturn⟩ := Option.bind_eq_some_iff.mp hbind
      subst heq
      obtain ⟨hlink, -⟩ := turn_links hturn
      obtain ⟨-, ⟨l, rfl, hlinks⟩ | ⟨-, hlinks⟩⟩ := turn_listed hturn
      · have hpush := shown_push (t := {u with calls := s.calls.set i after}) hlink hlinks
        cases halive : (s.link l).alive with
        | true =>
            rw [halive] at hpush
            refine ⟨_, .step (e := .add (namedLink (s.link l))) trivial rfl, horderly, ?_⟩
            rw [List.filter_append, List.map_append, ← hs.shown]
            exact hpush
        | false =>
            rw [halive] at hpush
            exact hsame (hpush.trans (List.append_nil _))
      · exact hfewer (shown_sublist hlink hlinks)
  | fault i temporary =>
      simp only [next] at hnext
      split at hnext
      · cases hnext
        exact hsame rfl
      · cases hnext
        exact hsame rfl
      · cases hnext

theorem beside_daemon : Roster.Beside Shows (fun _ => True) start next always :=
  .of_roster ⟨⟨by simp [Created, start], .nil⟩, rfl⟩ roster_follows follows_roster

/-! ### The devices -/

theorem firstOfDevice_map {device device' : LinkId → Text} {links links' : List LinkId}
    (h : links.map device = links'.map device') (seen : List Text) :
    (firstOfDevice device seen links).map device =
      (firstOfDevice device' seen links').map device' := by
  induction links generalizing links' seen with
  | nil =>
      obtain rfl := List.map_eq_nil_iff.mp h.symm
      rfl
  | cons l links ih =>
      obtain ⟨l', rest, rfl, hl, hrest⟩ := List.map_eq_cons_iff.mp h.symm
      rw [firstOfDevice, firstOfDevice, hl]
      split
      · exact ih hrest.symm seen
      · rw [List.map_cons, List.map_cons, hl, ih hrest.symm]

/-- Lists of links that have the same devices and priorities give the same
devices in the same order. -/
theorem ranked_map {f g : LinkId → Text × UInt8} {links links' : List LinkId}
    (h : links.map f = links'.map g) :
    ((firstOfDevice (fun l => (f l).1) []
      (links.insertionSort fun a b => (f a).2 ≤ (f b).2)).map fun l => (f l).1) =
    (firstOfDevice (fun l => (g l).1) []
      (links'.insertionSort fun a b => (g a).2 ≤ (g b).2)).map fun l => (g l).1 := by
  have hsort := List.map_insertionSort (r := fun a b => (f a).2 ≤ (f b).2)
    (s := fun x y : Text × UInt8 => x.2 ≤ y.2) f links fun _ _ _ _ => Iff.rfl
  have hsort' := List.map_insertionSort (r := fun a b => (g a).2 ≤ (g b).2)
    (s := fun x y : Text × UInt8 => x.2 ≤ y.2) g links' fun _ _ _ _ => Iff.rfl
  refine firstOfDevice_map ?_ []
  have hsame := congrArg (List.map Prod.fst) (hsort.trans ((congrArg _ h).trans hsort'.symm))
  rw [List.map_map, List.map_map] at hsame
  exact hsame

/-- The devices file lists the devices that a request is sent to, in that order. -/
theorem byDevice_shared {s : State} {d : Daemon.State} (h : Roster.Shared Shows d s) :
    (s.byDevice.map fun l => (s.link l).device) = d.byDevice.map fun l => (d.link l).device := by
  obtain ⟨r, hlists, hshows⟩ := h
  refine ranked_map (f := fun l => ((s.link l).device, (s.link l).priority))
    (g := fun l => ((d.link l).device, (d.link l).priority)) ?_
  have hshown := congrArg (List.map fun x : Text × Text × UInt8 => (x.1, x.2.2)) hshows.shown
  have hlisted := congrArg (List.map fun x : Text × UInt8 × Bool => (x.1, x.2.1))
    hlists.live_fields
  rw [State.shown, List.map_map, List.map_map] at hshown
  rw [List.map_map, List.map_map] at hlisted
  exact hshown.trans hlisted.symm

end Passkey.Daemon.Connections

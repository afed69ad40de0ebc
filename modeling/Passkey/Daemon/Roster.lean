import Passkey.Daemon.Turns
import Passkey.Library.Refinements

/-!
All links that there have been, in the order of `add`. The threads that add and
close links are modelled one by one, each with the fields of a link that it
reads, and the requests in a model of their own. This is what these have in
common: each of them shows the links of the roster, what happens to those in
one of them can happen in any other, and they agree on which are live.
-/

namespace Passkey.Daemon.Roster

open Library

def usb : Text :=
  "usb:".toList

def wifi : Text :=
  "wifi:".toList

/-- What `Link::new` is given, and whether the link is alive. -/
structure Link where
  name : Text
  device : Text
  label : Text
  priority : UInt8
  alive : Bool := true
  /-- The name of a link tells its transport, and so does its priority. -/
  named : (usb.isPrefixOf name = true ↔ priority = 0) ∧
    (wifi.isPrefixOf name = true ↔ priority = 1)

def Link.close (k : Link) : Link :=
  {k with alive := false}

abbrev State := List Link

inductive Event where
  | add (k : Link)
  | close (l : LinkId)

def next : Next State Event := fun r e =>
  match e with
  | .add k => some (r ++ [{k with alive := true}])
  | .close l => some (r.modify l Link.close)

def liveLinks (r : State) : List LinkId :=
  (List.range r.length).filter fun l => (r[l]?).any Link.alive

/-- Only links of these priorities are added. -/
def Adds (P : UInt8 → Prop) (_ : State) : Event → Prop
  | .add k => P k.priority
  | .close _ => True

/-! ### Lists that show the roster -/

theorem map_modify {α β : Type*} {f : α → β} {g : α → α} {c : β → β}
    (h : ∀ a, f (g a) = c (f a)) (as : List α) (l : Nat) :
    (as.modify l g).map f = (as.map f).modify l c := by
  induction as generalizing l with
  | nil => simp
  | cons a as ih =>
      cases l with
      | zero => simp [h]
      | succ l => simp [ih]

/-- To close a link of the roster is to close one of those with a property, or
none of them. -/
theorem filter_close {p : Link → Bool} (h : ∀ k, p k.close = p k) (r : State) (l : LinkId) :
    ∃ i, (r.modify l Link.close).filter p = (r.filter p).modify i Link.close := by
  induction r generalizing l with
  | nil => exact ⟨0, by simp⟩
  | cons k r ih =>
      cases l with
      | zero =>
          by_cases hk : p k = true
          · exact ⟨0, by simp [h, hk]⟩
          · exact ⟨(r.filter p).length, by simp [h, hk, List.modify_eq_self]⟩
      | succ l =>
          obtain ⟨i, hi⟩ := ih l
          by_cases hk : p k = true
          · exact ⟨i + 1, by simp [hk, hi]⟩
          · exact ⟨i, by simp [hk, hi]⟩

/-- To close one of the links with a property is to close a link of the roster. -/
theorem close_filter {p : Link → Bool} (h : ∀ k, p k.close = p k) (r : State) (i : Nat) :
    ∃ l, (r.filter p).modify i Link.close = (r.modify l Link.close).filter p := by
  induction r generalizing i with
  | nil => exact ⟨0, by simp⟩
  | cons k r ih =>
      by_cases hk : p k = true
      · cases i with
        | zero => exact ⟨0, by simp [h, hk]⟩
        | succ i =>
            obtain ⟨l, hl⟩ := ih i
            exact ⟨l + 1, by simp [hk, hl]⟩
      · obtain ⟨l, hl⟩ := ih i
        exact ⟨l + 1, by simp [hk, hl]⟩

theorem liveLinks_eq {α : Type*} {q : α → Bool} {links : List α} {r : State}
    (h : links.map q = r.map Link.alive) :
    ((List.range links.length).filter fun l => (links[l]?).any q) = liveLinks r := by
  have hlength : links.length = r.length := by simpa using congrArg List.length h
  rw [liveLinks, hlength]
  refine List.filter_congr fun l _ => ?_
  have hl := congrArg (·[l]?) h
  simp only [List.getElem?_map] at hl
  cases hlink : links[l]? <;> cases hk : r[l]? <;> simp_all

/-! ### The links of the daemon -/

def Link.fields (k : Link) : Text × UInt8 × Bool :=
  (k.device, k.priority, k.alive)

def fields (k : Daemon.Link) : Text × UInt8 × Bool :=
  (k.device, k.priority, k.alive)

/-- The daemon's list has the links in their order, and those that are not in it
are closed. -/
structure Enrolled (s : Daemon.State) : Prop where
  fresh : ∀ l, s.created ≤ l → (s.link l).alive = true
  sorted : s.links.Pairwise (· < ·)
  created : ∀ l ∈ s.links, l < s.created
  complete : ∀ l < s.created, (s.link l).alive = true → l ∈ s.links

/-- The links of the daemon are these; it reads no names and no labels of them. -/
structure Lists (r : State) (s : Daemon.State) : Prop where
  enrolled : Enrolled s
  agree : r.map Link.fields = (List.range s.created).map fun l => fields (s.link l)

theorem lists_start (pid : UInt32) : Lists [] (Daemon.start pid) where
  enrolled := ⟨fun _ _ => rfl, .nil, by simp [start], by simp [start]⟩
  agree := rfl

theorem Lists.alive {r : State} {s : Daemon.State} (h : Lists r s) :
    r.map Link.alive = (List.range s.created).map fun l => (s.link l).alive := by
  have halive := congrArg (List.map fun x : Text × UInt8 × Bool => x.2.2) h.agree
  simpa [Function.comp_def, Link.fields, fields] using halive

/-- The daemon's list lacks closed links only, and has the others in order. -/
theorem Enrolled.liveLinks {s : Daemon.State} (h : Enrolled s) :
    s.liveLinks = (List.range s.created).filter fun l => (s.link l).alive := by
  have hsame : ∀ l, l ∈ s.liveLinks ↔
      l ∈ (List.range s.created).filter fun l => (s.link l).alive := by
    intro l
    rw [Daemon.State.liveLinks, List.mem_filter, List.mem_filter, List.mem_range]
    exact ⟨fun hl => ⟨h.created l hl.1, hl.2⟩, fun hl => ⟨h.complete l hl.1 hl.2, hl.2⟩⟩
  have hsorted : s.liveLinks.Pairwise (· < ·) := h.sorted.filter _
  have hsorted' := List.pairwise_lt_range (n := s.created) |>.filter fun l => (s.link l).alive
  exact List.Perm.eq_of_pairwise (fun a b _ _ hab hba => absurd hba (Nat.lt_asymm hab))
    hsorted hsorted' ((List.perm_ext_iff_of_nodup (hsorted.imp Nat.ne_of_lt)
      (hsorted'.imp Nat.ne_of_lt)).mpr hsame)

theorem Lists.liveLinks {r : State} {s : Daemon.State} (h : Lists r s) :
    s.liveLinks = Roster.liveLinks r := by
  have halive := h.alive
  have hlength : r.length = s.created := by simpa using congrArg List.length halive
  rw [h.enrolled.liveLinks, Roster.liveLinks, hlength]
  refine List.filter_congr fun l hl => ?_
  have hplace := congrArg (·[l]?) halive
  simp only [List.getElem?_map, List.getElem?_range (List.mem_range.mp hl)] at hplace
  obtain ⟨k, hk, halive⟩ := Option.map_eq_some_iff.mp hplace
  rw [hk, Option.any_some, halive]

theorem Lists.live_fields {r : State} {s : Daemon.State} (h : Lists r s) :
    (s.liveLinks.map fun l => Roster.fields (s.link l)) =
      (r.filter Link.alive).map Link.fields := by
  have hfilter := congrArg (List.filter fun x : Text × UInt8 × Bool => x.2.2) h.agree
  rw [List.filter_map, List.filter_map] at hfilter
  rw [h.enrolled.liveLinks]
  exact hfilter.symm

/-! ### What the daemon does to its links -/

theorem close_fields (k : Daemon.Link) :
    fields k.close = (k.device, k.priority, false) := by
  unfold Daemon.Link.close
  split <;> simp_all [fields, Daemon.Link.alive]

theorem readLink_fields {k k' : Daemon.Link} (h : k.readLink = some k') : fields k' = fields k := by
  unfold Link.readLink at h
  repeat' split at h
  all_goals cases h
  · rfl
  · unfold Link.hear
    split <;> rfl

/-- A step adds a link at the end, closes one, takes a closed one from the list,
or does nothing of this. -/
inductive Step (s t : Daemon.State) (e : Daemon.Event) : Prop where
  | same (hcreated : t.created = s.created) (hlinks : t.links = s.links)
      (hfields : ∀ l, fields (t.link l) = fields (s.link l))
  | connect (device : Text) (priority : UInt8) (he : e = .connect device priority)
      (hcreated : t.created = s.created + 1) (hlinks : t.links = s.links ++ [s.created])
      (hnew : fields (t.link s.created) = (device, priority, (s.link s.created).alive))
      (hfields : ∀ l ≠ s.created, fields (t.link l) = fields (s.link l))
  | close (l : LinkId) (hl : l < s.created) (hcreated : t.created = s.created)
      (hlinks : t.links = s.links)
      (hclosed : fields (t.link l) = ((s.link l).device, (s.link l).priority, false))
      (hfields : ∀ m ≠ l, fields (t.link m) = fields (s.link m))
  | remove (l : LinkId) (hclosed : (s.link l).alive = false) (hcreated : t.created = s.created)
      (hlinks : t.links = s.links.filter (· ≠ l)) (hlink : t.link = s.link)

/-- A step that sets a link without a change that matters here. -/
theorem Step.set {s : Daemon.State} {e : Daemon.Event} {l : LinkId} {k : Daemon.Link}
    (h : fields k = fields (s.link l)) : Step s (s.setLink l k) e := by
  refine .same rfl rfl fun m => ?_
  by_cases hm : m = l
  · subst hm
    exact (congrArg fields (Function.update_self ..)).trans h
  · exact congrArg fields (Function.update_of_ne hm ..)

theorem perform_same (s : Daemon.State) (actor : Actor) (act : Act) :
    (s.perform actor act).created = s.created ∧ (s.perform actor act).links = s.links ∧
      ∀ l, fields ((s.perform actor act).link l) = fields (s.link l) := by
  have hset {l : LinkId} {k : Daemon.Link} (h : fields k = fields (s.link l)) (m : LinkId) :
      fields (Function.update s.link l k m) = fields (s.link m) := by
    by_cases hm : m = l
    · subst hm
      rw [Function.update_self, h]
    · rw [Function.update_of_ne hm]
  cases act with
  | write m l ok => exact ⟨rfl, rfl, hset (k := (s.link l).write m.body ok) rfl⟩
  | take r l response =>
      exact ⟨rfl, rfl, hset (k := {s.link l with responses := (s.link l).responses.tail}) rfl⟩
  | _ => exact ⟨rfl, rfl, fun _ => rfl⟩

theorem step_cases {s t : Daemon.State} {e : Daemon.Event} (h : Daemon.next s e = some t) :
    Step s t e := by
  cases e with
  | hid u ok =>
      obtain ⟨⟨pc, act⟩, -, rfl⟩ := Option.map_eq_some_iff.mp h
      obtain ⟨hcreated, hlinks, hfields⟩ := perform_same s (.hid u) act
      exact .same hcreated hlinks hfields
  | worker r ok =>
      obtain ⟨⟨w', act⟩, -, rfl⟩ := Option.map_eq_some_iff.mp h
      obtain ⟨hcreated, hlinks, hfields⟩ := perform_same s (.worker r) act
      exact .same hcreated hlinks hfields
  | packet | uhidClose =>
      obtain ⟨-, heq⟩ := Option.ite_none_right_eq_some.mp h
      cases heq
      exact .same rfl rfl fun _ => rfl
  | stall | receive | endRead =>
      obtain ⟨-, heq⟩ := Option.ite_none_right_eq_some.mp h
      cases heq
      exact .set rfl
  | ping =>
      obtain ⟨-, heq⟩ := Option.ite_none_left_eq_some.mp h
      cases heq
      exact .set rfl
  | readLink l =>
      obtain ⟨-, heq⟩ := Option.ite_none_right_eq_some.mp h
      obtain ⟨link, hlink, rfl⟩ := Option.map_eq_some_iff.mp heq
      exact .set (readLink_fields hlink)
  | connect device priority =>
      cases h
      refine .connect device priority rfl rfl rfl ?_ fun l hl => ?_
      · refine (congrArg fields (Function.update_self ..)).trans ?_
        rfl
      · exact congrArg fields (Function.update_of_ne hl ..)
  | close l =>
      obtain ⟨hl, heq⟩ := Option.ite_none_right_eq_some.mp h
      cases heq
      refine .close l hl rfl rfl ?_ fun m hm => ?_
      · exact (congrArg fields (Function.update_self ..)).trans (close_fields _)
      · exact congrArg fields (Function.update_of_ne hm ..)
  | remove l =>
      obtain ⟨hgone, heq⟩ := Option.ite_none_left_eq_some.mp h
      cases heq
      rw [Bool.or_eq_true, not_or] at hgone
      exact .remove l (Bool.eq_false_iff.mpr hgone.1) rfl rfl rfl
  | choose | tick =>
      cases h
      exact .same rfl rfl fun _ => rfl

theorem alive_of_fields {k k' : Daemon.Link} (h : fields k = fields k') : k.alive = k'.alive :=
  congrArg (·.2.2) h

theorem Enrolled.step {s t : Daemon.State} {e : Daemon.Event} (h : Enrolled s)
    (hstep : Step s t e) : Enrolled t := by
  cases hstep with
  | same hcreated hlinks hfields =>
      have halive (l : LinkId) := alive_of_fields (hfields l)
      refine ⟨fun l hl => ?_, hlinks ▸ h.sorted, ?_, fun l hl hup => ?_⟩
      · rw [halive]
        exact h.fresh l (hcreated ▸ hl)
      · rw [hlinks, hcreated]
        exact h.created
      · rw [hlinks]
        exact h.complete l (hcreated ▸ hl) (halive l ▸ hup)
  | connect device priority he hcreated hlinks hnew hfields =>
      refine ⟨fun l hl => ?_, ?_, fun l hl => ?_, fun l hl hup => ?_⟩
      · rw [alive_of_fields (hfields l (by omega))]
        exact h.fresh l (by omega)
      · rw [hlinks, List.pairwise_append]
        refine ⟨h.sorted, List.pairwise_singleton .., fun a ha b hb => ?_⟩
        rw [List.mem_singleton.mp hb]
        exact h.created a ha
      · rw [hlinks, List.mem_append, List.mem_singleton] at hl
        rw [hcreated]
        rcases hl with hold | rfl
        · exact Nat.lt_succ_of_lt (h.created l hold)
        · exact Nat.lt_succ_self _
      · rw [hlinks, List.mem_append, List.mem_singleton]
        by_cases hl' : l = s.created
        · exact .inr hl'
        · rw [alive_of_fields (hfields l hl')] at hup
          exact .inl (h.complete l (by omega) hup)
  | close l hl hcreated hlinks hclosed hfields =>
      refine ⟨fun m hm => ?_, hlinks ▸ h.sorted, ?_, fun m hm hup => ?_⟩
      · have hnew : s.created ≤ m := hcreated ▸ hm
        rw [alive_of_fields (hfields m (Nat.ne_of_gt (hl.trans_le hnew)))]
        exact h.fresh m hnew
      · rw [hlinks, hcreated]
        exact h.created
      · by_cases hml : m = l
        · subst hml
          cases (congrArg (·.2.2) hclosed).symm.trans hup
        · rw [hlinks]
          exact h.complete m (hcreated ▸ hm) (alive_of_fields (hfields m hml) ▸ hup)
  | remove l hclosed hcreated hlinks hlink =>
      refine ⟨fun m hm => ?_, hlinks ▸ h.sorted.filter _, fun m hm => ?_, fun m hm hup => ?_⟩
      · rw [hlink]
        exact h.fresh m (hcreated ▸ hm)
      · rw [hcreated]
        exact h.created m (List.mem_filter.mp (hlinks ▸ hm)).1
      · rw [hlink] at hup
        rw [hlinks, List.mem_filter]
        refine ⟨h.complete m (hcreated ▸ hm) hup, decide_eq_true fun heq => ?_⟩
        rw [heq, hclosed] at hup
        cases hup

/-! ### The daemon and the roster -/

theorem map_range_modify {α : Type*} {f f' : Nat → α} {g : α → α} {l : Nat} (n : Nat)
    (hl : f' l = g (f l)) (h : ∀ m ≠ l, f' m = f m) :
    ((List.range n).map f).modify l g = (List.range n).map f' := by
  refine List.ext_getElem? fun m => ?_
  rw [List.getElem?_modify, List.getElem?_map, List.getElem?_map]
  by_cases hm : m < n
  · rw [List.getElem?_range hm]
    by_cases hlm : l = m
    · subst hlm
      simp [hl]
    · simp [hlm, h m (Ne.symm hlm)]
  · simp [hm]

section Steps

variable {r : State} {s t : Daemon.State}

theorem Lists.same (h : Lists r s) (henrolled : Enrolled t) (hcreated : t.created = s.created)
    (hfields : ∀ l, fields (t.link l) = fields (s.link l)) : Lists r t where
  enrolled := henrolled
  agree := by
    rw [h.agree, hcreated]
    exact List.map_congr_left fun l _ => (hfields l).symm

theorem Lists.added (h : Lists r s) (henrolled : Enrolled t)
    (hcreated : t.created = s.created + 1) {k : Link}
    (hnew : fields (t.link s.created) = k.fields)
    (hfields : ∀ l ≠ s.created, fields (t.link l) = fields (s.link l)) :
    Lists (r ++ [k]) t where
  enrolled := henrolled
  agree := by
    rw [List.map_append, h.agree, hcreated, List.range_succ, List.map_append]
    refine congrArg₂ (· ++ ·) (List.map_congr_left fun l hl => ?_) ?_
    · exact (hfields l (Nat.ne_of_lt (List.mem_range.mp hl))).symm
    · exact (congrArg (fun x => [x]) hnew).symm

theorem Lists.closed (h : Lists r s) (henrolled : Enrolled t) (hcreated : t.created = s.created)
    {l : LinkId} (hclosed : fields (t.link l) = ((s.link l).device, (s.link l).priority, false))
    (hfields : ∀ m ≠ l, fields (t.link m) = fields (s.link m)) :
    Lists (r.modify l Link.close) t where
  enrolled := henrolled
  agree := by
    rw [map_modify (c := fun x => (x.1, x.2.1, false)) (fun _ => rfl), h.agree, hcreated]
    exact map_range_modify s.created hclosed hfields

end Steps

/-- Links of these priorities only are added. -/
def Connects (P : UInt8 → Prop) (_ : Daemon.State) : Daemon.Event → Prop
  | .connect _ priority => P priority
  | _ => True

/-- A name for a link of this priority. -/
def nameOf (priority : UInt8) : Text :=
  if priority = 0 then usb else if priority = 1 then wifi else []

theorem nameOf_named (priority : UInt8) : (usb.isPrefixOf (nameOf priority) = true ↔ priority = 0) ∧
    (wifi.isPrefixOf (nameOf priority) = true ↔ priority = 1) := by
  unfold nameOf
  split
  · rename_i husb
    subst husb
    decide
  · split
    · rename_i hwifi
      subst hwifi
      decide
    · rename_i husb hwifi
      exact ⟨iff_of_false (by decide) husb, iff_of_false (by decide) hwifi⟩

/-- A link of the daemon's, which reads no names and no labels. -/
def unnamed (device : Text) (priority : UInt8) : Link where
  name := nameOf priority
  device := device
  label := []
  priority := priority
  named := nameOf_named priority

/-- What the daemon does to its links happens to the links of the roster. -/
theorem follows_daemon (P : UInt8 → Prop) :
    Follows (flip Lists) Daemon.next (Connects P) next (Adds P) := by
  intro s e t r hr hok hnext
  have henrolled := hr.enrolled.step (step_cases hnext)
  cases step_cases hnext with
  | same hcreated hlinks hfields => exact ⟨r, .refl, hr.same henrolled hcreated hfields⟩
  | connect device priority he hcreated hlinks hnew hfields =>
      subst he
      rw [hr.enrolled.fresh s.created le_rfl] at hnew
      refine ⟨_, .step (e := .add (unnamed device priority)) hok rfl, ?_⟩
      exact hr.added henrolled hcreated hnew hfields
  | close l hl hcreated hlinks hclosed hfields =>
      exact ⟨_, .step (e := .close l) trivial rfl, hr.closed henrolled hcreated hclosed hfields⟩
  | remove l hclosed hcreated hlinks hlink =>
      exact ⟨r, .refl, hr.same henrolled hcreated fun m => by rw [hlink]⟩

/-- What happens to the links of the roster can happen to those of the daemon. -/
theorem daemon_follows : Follows Lists next always Daemon.next always := by
  intro r e r' s hr _ hnext
  cases e with
  | add k =>
      cases hnext
      have hconnect : Daemon.next s (.connect k.device k.priority) = some _ := rfl
      refine ⟨_, .step trivial hconnect,
        hr.added (hr.enrolled.step (step_cases hconnect)) rfl ?_ fun l hl => ?_⟩
      · refine (congrArg fields (Function.update_self ..)).trans ?_
        exact congrArg (k.device, k.priority, ·) (hr.enrolled.fresh s.created le_rfl)
      · exact congrArg fields (Function.update_of_ne hl ..)
  | close l =>
      cases hnext
      by_cases hl : l < s.created
      · have hclose : Daemon.next s (.close l) = some _ := if_pos hl
        refine ⟨_, .step trivial hclose,
          hr.closed (hr.enrolled.step (step_cases hclose)) rfl ?_ fun m hm => ?_⟩
        · exact (congrArg fields (Function.update_self ..)).trans (close_fields _)
        · exact congrArg fields (Function.update_of_ne hm ..)
      · have hlength : r.length = s.created := by simpa using congrArg List.length hr.agree
        refine ⟨s, .refl, ?_⟩
        rwa [List.modify_eq_self (by rw [hlength]; exact Nat.not_lt.mp hl)]

/-! ### Models of threads -/

/-- The daemon and the model of a thread show the same links. -/
def Shared {τ : Type*} (R : State → τ → Prop) : Daemon.State → τ → Prop :=
  Relation.Comp (flip Lists) R

/-- The model of a thread that adds links of other priorities than these runs
beside the daemon: what the daemon does to its links, those around the thread
can do, and what becomes of the links in the model can become of the daemon's. -/
structure Beside {τ δ : Type*} (R : State → τ → Prop) (P : UInt8 → Prop) (start : τ)
    (next' : Next τ δ) (others : τ → δ → Prop) : Prop where
  starts : ∀ pid, Shared R (Daemon.start pid) start
  around : Follows (Shared R) Daemon.next (Connects P) next' others
  within : Follows (flip (Shared R)) next' always Daemon.next always

theorem Beside.of_roster {τ δ : Type*} {R : State → τ → Prop} {P : UInt8 → Prop} {start : τ}
    {next' : Next τ δ} {others : τ → δ → Prop} (hstart : R [] start)
    (haround : Follows R next (Adds P) next' others)
    (hwithin : Follows (flip R) next' always next always) : Beside R P start next' others where
  starts pid := ⟨[], lists_start pid, hstart⟩
  around := (follows_daemon P).comp haround
  within := by
    rw [Shared, Relation.flip_comp]
    exact hwithin.comp daemon_follows

end Passkey.Daemon.Roster

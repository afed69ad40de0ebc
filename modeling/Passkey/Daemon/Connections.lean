import Passkey.Daemon.State
import Passkey.Library.Runs

/-!
The calls of `add` and `remove`, with the devices file that `publish` writes and
the virtual device that `sync_uhid` keeps for as long as a phone is connected.
A step is a section under one lock, or a write or renaming of the file. Opening
and writing /dev/uhid succeeds.
-/

namespace Passkey.Daemon.Connections

open Library

structure Link where
  device : Text := []
  label : Text := []
  priority : UInt8 := 0
  alive : Bool := true

structure UhidState where
  generation : UInt64 := 0
  /-- Whether there is a file, and with it the device. -/
  file : Bool := false

/-- Where a call of `add` or `remove` is, or `read_uhid` after its loop. All of
them end with `sync_uhid`. -/
inductive Pc where
  | push (l : LinkId)
  | retain (l : LinkId)
  | count (before : Nat)
  | publish
  | write (text : Text)
  | rename
  | sync
  | cancel
  | destroy
  | create
  | reset (generation : UInt64)
  | done
  deriving DecidableEq

structure State where
  link : LinkId → Link := fun _ => {}
  /-- How many links have been created. -/
  created : Nat := 0
  links : List LinkId := []
  uhid : UhidState := {}
  nextGeneration : UInt64 := 1
  /-- The generations whose device is being read. -/
  readers : List UInt64 := []
  /-- The file that `atomic_write` renames. -/
  temporary : Option Text := none
  devices : Option Text := none
  calls : List Pc := []

namespace State

def liveLinks (s : State) : List LinkId :=
  s.links.filter fun l => (s.link l).alive

/-- One line for each device. -/
def listing (s : State) : Text :=
  ((firstOfDevice (fun l => (s.link l).device) []
    (s.liveLinks.insertionSort fun a b => (s.link a).priority ≤ (s.link b).priority)).map
      fun l => (s.link l).device ++ '\t' :: (s.link l).label ++ ['\n']).flatten

def rename (s : State) : State :=
  match s.temporary with
  | some text => {s with temporary := none, devices := some text}
  | none => s

def createUhid (s : State) : State :=
  if s.uhid.file then s
  else {s with
    uhid := ⟨s.nextGeneration, true⟩
    nextGeneration := s.nextGeneration + 1
    readers := s.readers ++ [s.nextGeneration]}

def destroyUhid (s : State) : State :=
  if s.uhid.file then {s with uhid := {}} else s

/-- One step of a call. The `cancel` of `sync_uhid` leaves links and device
alone; its own steps are those of `HidPc.cancel`. -/
def turn (s : State) : Pc → Option (State × Pc)
  | .push l => some ({s with links := s.links ++ [l]}, .publish)
  | .retain l => some ({s with links := s.links.filter (· ≠ l)}, .count s.links.length)
  | .count before => some (s, if before ≠ s.links.length then .publish else .done)
  | .publish => some (s, .write s.listing)
  | .write text => some ({s with temporary := some text}, .rename)
  | .rename => some (s.rename, .sync)
  | .sync => some (s, if s.liveLinks = [] then .cancel else .create)
  | .cancel => some (s, .destroy)
  | .destroy => some (s.destroyUhid, .done)
  | .create => some (s.createUhid, .done)
  | .reset generation =>
      if s.uhid.generation = generation then some ({s with uhid := {}}, .sync) else some (s, .done)
  | .done => none

end State

inductive Event where
  /-- `add` is called, and clones the stream of a new link. -/
  | add (device label : Text) (priority : UInt8)
  | remove (l : LinkId)
  /-- A link closes, for whatever reason. -/
  | close (l : LinkId)
  /-- Reading the device of this generation ends. -/
  | endRead (generation : UInt64)
  | call (i : Nat)
  /-- The temporary file cannot be written or renamed, and is left so. -/
  | fault (i : Nat) (temporary : Option Text)

def next : Next State Event := fun s e =>
  match e with
  | .add device label priority =>
      some {s with
        link := Function.update s.link s.created {device, label, priority}
        created := s.created + 1
        calls := s.calls ++ [.push s.created]}
  | .remove l => if l < s.created then some {s with calls := s.calls ++ [.retain l]} else none
  | .close l =>
      if l < s.created then
        some {s with link := Function.update s.link l {s.link l with alive := false}}
      else none
  | .endRead generation =>
      if generation ∈ s.readers then
        some {s with
          readers := s.readers.erase generation
          calls := s.calls ++ [.reset generation]}
      else none
  | .call i =>
      (s.calls[i]?.bind s.turn).map fun (t, pc) => {t with calls := s.calls.set i pc}
  | .fault i temporary =>
      match s.calls[i]? with
      | some (.write _) | some .rename => some {s with temporary, calls := s.calls.set i .sync}
      | _ => none

def start : State := {}

/-! ### The device and the links -/

/-- Whether the call has still to change something. A reader that has not come
back to the device has not. -/
def Pc.inProgress : Pc → Bool
  | .done | .reset _ => false
  | _ => true

/-- Once all calls are done and the closed links removed, there is a device if
and only if there is a live link. -/
def DeviceLaw (s : State) : Prop :=
  (∀ pc ∈ s.calls, pc.inProgress = false) → (∀ l ∈ s.links, (s.link l).alive = true) →
    (s.uhid.file = true ↔ ∃ l ∈ s.links, (s.link l).alive = true)

def State.live (s : State) : Bool :=
  !s.liveLinks.isEmpty

/-- The call has still to test for live links, or acts as the test would say
now. A `remove` that took out a link has still to test, unless a link was added
since: then it leaves that to the `add`. -/
def Pc.settles (live : Bool) (count : Nat) : Pc → Bool
  | .publish | .write _ | .rename | .sync => true
  | .cancel | .destroy => !live
  | .create => live
  | .count before => count < before
  | .push _ | .retain _ | .reset _ | .done => false

theorem Pc.inProgress_of_settles {live : Bool} {count : Nat} {pc : Pc}
    (h : pc.settles live count = true) : pc.inProgress = true := by
  cases pc with
  | push | retain | reset | done => cases h
  | _ => rfl

/-- Something is to come that settles whether there is a device: a closed link
to remove, or one of these calls. -/
def State.awaits (s : State) (calls : List Pc) : Bool :=
  s.links.any (fun l => !(s.link l).alive) || calls.any (Pc.settles s.live s.links.length)

/-- What the call is about to make of the device. -/
def Pc.makes : Pc → Option Bool
  | .create => some true
  | .destroy => some false
  | _ => none

/-- A call creates or destroys the device while its test still holds, or
something else is to come. -/
def Timely (s : State) (e : Event) : Prop :=
  match e with
  | .call i => ∀ pc ∈ s.calls[i]?, ∀ file ∈ pc.makes,
      file = s.live ∨ s.awaits (s.calls.eraseIdx i) = true
  | _ => True

instance (s : State) (e : Event) : Decidable (Timely s e) :=
  match e with
  | .call i => inferInstanceAs (Decidable (∀ pc ∈ s.calls[i]?, ∀ file ∈ pc.makes,
      file = s.live ∨ s.awaits (s.calls.eraseIdx i) = true))
  | .add .. | .remove _ | .close _ | .endRead _ | .fault .. => .isTrue trivial

def Inv (s : State) : Prop :=
  s.uhid.file = s.live ∨ s.awaits s.calls = true

/-! ### Every step keeps the invariant -/

/-- Links and device are as before. -/
structure Same (s t : State) : Prop where
  live : t.live = s.live
  closed : t.links.any (fun l => !(t.link l).alive) = s.links.any fun l => !(s.link l).alive
  count : t.links.length = s.links.length

theorem Same.awaits {s t : State} (h : Same s t) (calls : List Pc) :
    t.awaits calls = s.awaits calls := by
  simp only [State.awaits, h.live, h.closed, h.count]

theorem Same.of_links {s t : State} (hlink : t.link = s.link) (hlinks : t.links = s.links) :
    Same s t := by
  refine ⟨?_, ?_, ?_⟩
  · simp only [State.live, State.liveLinks, hlink, hlinks]
  · rw [hlink, hlinks]
  · rw [hlinks]

/-- A link that is not in the list does not count. -/
theorem Same.of_update {s t : State} {l : LinkId} {k : Link} (hl : l ∉ s.links)
    (hlink : t.link = Function.update s.link l k) (hlinks : t.links = s.links) : Same s t := by
  have hsame : ∀ x ∈ s.links, t.link x = s.link x := by
    intro x hx
    rw [hlink, Function.update_of_ne]
    rintro rfl
    exact hl hx
  have hlive : t.liveLinks = s.liveLinks := by
    rw [State.liveLinks, hlinks]
    exact List.filter_congr fun x hx => by rw [hsame x hx]
  refine ⟨by rw [State.live, hlive, State.live], ?_, by rw [hlinks]⟩
  rw [hlinks, Bool.eq_iff_iff]
  simp only [List.any_eq_true]
  exact exists_congr fun x => and_congr_right fun hx => by rw [hsame x hx]

theorem awaits_mono {s : State} {calls more : List Pc} (h : s.awaits calls = true)
    (hsub : ∀ pc ∈ calls, pc.settles s.live s.links.length = true → pc ∈ more) :
    s.awaits more = true := by
  rcases Bool.or_eq_true_iff.mp h with hclosed | hcalls
  · exact Bool.or_eq_true_iff.mpr (.inl hclosed)
  · obtain ⟨pc, hpc, hsettles⟩ := List.any_eq_true.mp hcalls
    exact Bool.or_eq_true_iff.mpr
      (.inr (List.any_eq_true.mpr ⟨pc, hsub pc hpc hsettles, hsettles⟩))

theorem awaits_of_settles {s : State} {calls : List Pc} {pc : Pc} (hmem : pc ∈ calls)
    (h : pc.settles s.live s.links.length = true) : s.awaits calls = true :=
  Bool.or_eq_true_iff.mpr (.inr (List.any_eq_true.mpr ⟨pc, hmem, h⟩))

theorem awaits_of_closed {s : State} {calls : List Pc} {l : LinkId} (hmem : l ∈ s.links)
    (h : (s.link l).alive = false) : s.awaits calls = true :=
  Bool.or_eq_true_iff.mpr (.inl (List.any_eq_true.mpr ⟨l, hmem, by rw [h]; rfl⟩))

/-- New calls, and calls that move on, change nothing as long as those that
settle the matter stay. -/
theorem Inv.same {s t : State} (h : Inv s) (hsame : Same s t) (huhid : t.uhid.file = s.uhid.file)
    (hcalls : ∀ pc ∈ s.calls, pc.settles s.live s.links.length = true → pc ∈ t.calls) :
    Inv t := by
  refine h.imp (fun heq => ?_) fun hawaits => ?_
  · rw [huhid, hsame.live, heq]
  · rw [hsame.awaits]
    exact awaits_mono hawaits hcalls

theorem mem_set_of_ne {calls : List Pc} {i : Nat} {pc after other : Pc}
    (hi : calls[i]? = some pc) (hmem : other ∈ calls) (hne : other ≠ pc) :
    other ∈ calls.set i after := by
  obtain ⟨j, hj⟩ := List.mem_iff_getElem?.mp hmem
  have hij : i ≠ j := by
    rintro rfl
    exact hne (Option.some.inj (hj.symm.trans hi))
  exact List.mem_iff_getElem?.mpr ⟨j, by rw [List.getElem?_set_ne hij, hj]⟩

theorem mem_set_self {calls : List Pc} {i : Nat} {pc after : Pc} (hi : calls[i]? = some pc) :
    after ∈ calls.set i after :=
  List.mem_set (List.getElem?_eq_some_iff.mp hi).1 after

/-- A call that settles nothing moves on. -/
theorem Inv.moves {s t : State} {i : Nat} {pc after : Pc} (h : Inv s)
    (hi : s.calls[i]? = some pc) (hpc : pc.settles s.live s.links.length = false)
    (hsame : Same s t) (huhid : t.uhid.file = s.uhid.file)
    (hcalls : t.calls = s.calls.set i after) : Inv t := by
  refine h.same hsame huhid fun other hmem hsettles => ?_
  rw [hcalls]
  refine mem_set_of_ne hi hmem ?_
  rintro rfl
  rw [hpc] at hsettles
  cases hsettles

/-- A call comes to a point where it settles the matter. -/
theorem inv_of_settles {t : State} {calls : List Pc} {i : Nat} {pc after : Pc}
    (hi : calls[i]? = some pc) (hcalls : t.calls = calls.set i after)
    (h : after.settles t.live t.links.length = true) : Inv t :=
  .inr (awaits_of_settles (hcalls ▸ mem_set_self hi) h)

/-- A call acts on the device. -/
theorem inv_of_makes {s t : State} {i : Nat} {pc after : Pc} {file : Bool}
    (hi : s.calls[i]? = some pc) (hok : Timely s (.call i)) (hmakes : pc.makes = some file)
    (hsame : Same s t) (huhid : t.uhid.file = file) (hcalls : t.calls = s.calls.set i after) :
    Inv t := by
  rcases hok pc hi file hmakes with htest | hothers
  · exact .inl (by rw [huhid, htest, hsame.live])
  · refine .inr ?_
    rw [hsame.awaits]
    refine awaits_mono hothers fun other hmem _ => ?_
    rw [hcalls]
    rw [← List.eraseIdx_set_eq] at hmem
    exact List.mem_of_mem_eraseIdx hmem

theorem createUhid_same (s : State) :
    Same s s.createUhid ∧ s.createUhid.uhid.file = true := by
  unfold State.createUhid
  split
  · rename_i hfile
    exact ⟨.of_links rfl rfl, hfile⟩
  · exact ⟨.of_links rfl rfl, rfl⟩

theorem destroyUhid_same (s : State) :
    Same s s.destroyUhid ∧ s.destroyUhid.uhid.file = false := by
  unfold State.destroyUhid
  split
  · exact ⟨.of_links rfl rfl, rfl⟩
  · rename_i hfile
    exact ⟨.of_links rfl rfl, Bool.eq_false_of_not_eq_true hfile⟩

theorem Inv.turn {s t : State} {i : Nat} {pc after : Pc} (h : Inv s)
    (hi : s.calls[i]? = some pc) (hok : Timely s (.call i)) (hturn : s.turn pc = some (t, after)) :
    Inv {t with calls := s.calls.set i after} := by
  cases pc with
  | push l =>
      cases hturn
      exact inv_of_settles hi rfl rfl
  | retain l =>
      cases hturn
      by_cases hl : l ∈ s.links
      · refine inv_of_settles hi rfl ?_
        refine decide_eq_true (List.length_filter_lt_length_iff_exists.mpr ⟨l, hl, ?_⟩)
        simp
      · have hkept : s.links.filter (· ≠ l) = s.links :=
          List.filter_eq_self.mpr fun x hx => decide_eq_true fun heq => hl (heq ▸ hx)
        exact h.moves hi rfl (.of_links rfl hkept) rfl rfl
  | count before =>
      cases hturn
      by_cases hcount : before ≠ s.links.length
      · rw [if_pos hcount]
        exact inv_of_settles hi rfl rfl
      · rw [if_neg hcount]
        refine h.moves hi (decide_eq_false ?_) (.of_links rfl rfl) rfl rfl
        rw [not_not.mp hcount]
        exact Nat.lt_irrefl _
  | publish | write text =>
      cases hturn
      exact inv_of_settles hi rfl rfl
  | rename =>
      cases hturn
      exact inv_of_settles hi rfl rfl
  | sync =>
      cases hturn
      have hsame (calls : List Pc) : Same s {s with calls} := .of_links rfl rfl
      refine inv_of_settles hi rfl ?_
      rw [(hsame _).live, State.live]
      split
      · rename_i hnone
        rw [hnone]
        rfl
      · rename_i hsome
        simpa [Pc.settles] using hsome
  | cancel =>
      cases hturn
      by_cases hlive : s.live = true
      · exact h.moves hi (by rw [Pc.settles, hlive]; rfl) (.of_links rfl rfl) rfl rfl
      · refine inv_of_settles hi rfl ?_
        have hsame : Same s {s with calls := s.calls.set i .destroy} := .of_links rfl rfl
        rw [Pc.settles, hsame.live, Bool.eq_false_of_not_eq_true hlive]
        rfl
  | destroy =>
      cases hturn
      obtain ⟨hsame, hfile⟩ := destroyUhid_same s
      exact inv_of_makes hi hok rfl ⟨hsame.live, hsame.closed, hsame.count⟩ hfile rfl
  | create =>
      cases hturn
      obtain ⟨hsame, hfile⟩ := createUhid_same s
      exact inv_of_makes hi hok rfl ⟨hsame.live, hsame.closed, hsame.count⟩ hfile rfl
  | reset generation =>
      simp only [State.turn] at hturn
      split at hturn
      · cases hturn
        exact inv_of_settles hi rfl rfl
      · cases hturn
        exact h.moves hi rfl (.of_links rfl rfl) rfl rfl
  | done => cases hturn

theorem Inv.appends {s t : State} {pc : Pc} (h : Inv s) (hsame : Same s t)
    (huhid : t.uhid = s.uhid) (hcalls : t.calls = s.calls ++ [pc]) : Inv t := by
  refine h.same hsame (by rw [huhid]) fun other hmem _ => ?_
  rw [hcalls]
  exact List.mem_append_left _ hmem

/-- Links get their numbers before they get into the list. -/
def Created (s : State) : Prop :=
  (∀ l ∈ s.links, l < s.created) ∧ ∀ l, .push l ∈ s.calls → l < s.created

theorem turn_links {s t : State} {pc after : Pc} (hturn : s.turn pc = some (t, after)) :
    t.link = s.link ∧ t.created = s.created ∧
      (∀ l ∈ t.links, l ∈ s.links ∨ pc = .push l) ∧ ∀ l, after ≠ .push l := by
  have hkept : ∀ l ∈ s.links, l ∈ s.links ∨ pc = .push l := fun _ => .inl
  cases pc with
  | push new =>
      cases hturn
      refine ⟨rfl, rfl, fun l hl => ?_, fun l heq => by cases heq⟩
      exact (List.mem_append.mp hl).imp_right fun hnew => by rw [List.mem_singleton.mp hnew]
  | retain =>
      cases hturn
      exact ⟨rfl, rfl, fun l hl => .inl (List.mem_filter.mp hl).1, fun l heq => by cases heq⟩
  | count =>
      cases hturn
      exact ⟨rfl, rfl, hkept, fun l heq => by split at heq <;> cases heq⟩
  | publish | write | cancel =>
      cases hturn
      exact ⟨rfl, rfl, hkept, fun l heq => by cases heq⟩
  | rename =>
      cases hturn
      unfold State.rename
      split <;> exact ⟨rfl, rfl, hkept, fun l heq => by cases heq⟩
  | sync =>
      cases hturn
      exact ⟨rfl, rfl, hkept, fun l heq => by split at heq <;> cases heq⟩
  | destroy =>
      cases hturn
      unfold State.destroyUhid
      split <;> exact ⟨rfl, rfl, hkept, fun l heq => by cases heq⟩
  | create =>
      cases hturn
      unfold State.createUhid
      split <;> exact ⟨rfl, rfl, hkept, fun l heq => by cases heq⟩
  | reset =>
      simp only [State.turn] at hturn
      split at hturn <;>
        · cases hturn
          exact ⟨rfl, rfl, hkept, fun l heq => by cases heq⟩
  | done => cases hturn

theorem Created.appends {s t : State} {pc : Pc} (h : Created s) (hlinks : t.links = s.links)
    (hcreated : s.created ≤ t.created) (hcalls : t.calls = s.calls ++ [pc])
    (hpc : ∀ l, pc = .push l → l < t.created) : Created t := by
  refine ⟨fun l hl => (h.1 l (hlinks ▸ hl)).trans_le hcreated, fun l hl => ?_⟩
  rw [hcalls] at hl
  rcases List.mem_append.mp hl with hold | hnew
  · exact (h.2 l hold).trans_le hcreated
  · exact hpc l (List.mem_singleton.mp hnew).symm

theorem Created.step {s t : State} {e : Event} (h : Created s) (hnext : next s e = some t) :
    Created t := by
  cases e with
  | add device label priority =>
      cases hnext
      refine h.appends rfl (Nat.le_succ _) rfl fun l heq => ?_
      rw [← Pc.push.inj heq]
      exact Nat.lt_succ_self _
  | remove l =>
      obtain ⟨-, ht⟩ := Option.ite_none_right_eq_some.mp hnext
      cases ht
      exact h.appends rfl le_rfl rfl fun l heq => by cases heq
  | close l =>
      obtain ⟨-, ht⟩ := Option.ite_none_right_eq_some.mp hnext
      cases ht
      exact h
  | endRead generation =>
      obtain ⟨-, ht⟩ := Option.ite_none_right_eq_some.mp hnext
      cases ht
      exact h.appends rfl le_rfl rfl fun l heq => by cases heq
  | call i =>
      obtain ⟨⟨u, after⟩, hbind, ht⟩ := Option.map_eq_some_iff.mp hnext
      obtain ⟨pc, hi, hturn⟩ := Option.bind_eq_some_iff.mp hbind
      obtain ⟨-, hcreated, hlinks, hafter⟩ := turn_links hturn
      subst ht
      refine ⟨fun l hl => ?_, fun l hl => ?_⟩
      · refine hcreated ▸ (hlinks l hl).elim (h.1 l) fun hpush => h.2 l ?_
        exact hpush ▸ List.mem_of_getElem? hi
      · refine hcreated ▸ h.2 l ((List.mem_or_eq_of_mem_set hl).resolve_right fun heq => ?_)
        exact hafter l heq.symm
  | fault i temporary =>
      have hset : ∀ l, .push l ∈ s.calls.set i .sync → l < s.created := by
        intro l hl
        exact h.2 l ((List.mem_or_eq_of_mem_set hl).resolve_right fun heq => by cases heq)
      simp only [next] at hnext
      split at hnext
      · cases hnext
        exact ⟨h.1, hset⟩
      · cases hnext
        exact ⟨h.1, hset⟩
      · cases hnext

theorem Inv.step {s t : State} {e : Event} (h : Inv s) (hcreated : Created s) (hok : Timely s e)
    (hnext : next s e = some t) : Inv t := by
  cases e with
  | add device label priority =>
      cases hnext
      have hnew : s.created ∉ s.links := fun hl => Nat.lt_irrefl _ (hcreated.1 _ hl)
      exact h.appends (.of_update hnew rfl rfl) rfl rfl
  | remove l =>
      obtain ⟨-, ht⟩ := Option.ite_none_right_eq_some.mp hnext
      cases ht
      exact h.appends (.of_links rfl rfl) rfl rfl
  | close l =>
      obtain ⟨-, ht⟩ := Option.ite_none_right_eq_some.mp hnext
      cases ht
      by_cases hl : l ∈ s.links
      · have hclosed :
            (Function.update s.link l {s.link l with alive := false} l).alive = false := by
          rw [Function.update_self]
        exact .inr (awaits_of_closed hl hclosed)
      · exact h.same (.of_update hl rfl rfl) rfl fun pc hpc _ => hpc
  | endRead generation =>
      obtain ⟨-, ht⟩ := Option.ite_none_right_eq_some.mp hnext
      cases ht
      exact h.appends (.of_links rfl rfl) rfl rfl
  | call i =>
      obtain ⟨⟨u, after⟩, hbind, ht⟩ := Option.map_eq_some_iff.mp hnext
      obtain ⟨pc, hi, hturn⟩ := Option.bind_eq_some_iff.mp hbind
      subst ht
      exact h.turn hi hok hturn
  | fault i temporary =>
      simp only [next] at hnext
      split at hnext
      · rename_i hi
        cases hnext
        exact inv_of_settles hi rfl rfl
      · rename_i hi
        cases hnext
        exact inv_of_settles hi rfl rfl
      · cases hnext

/-- In every run in which no stale test is acted on last, a device exists in
the end if and only if a phone is connected. -/
theorem device_law {s : State} (h : Reach next Timely start s) : DeviceLaw s := by
  have hinv : Inv s :=
    h.invariant_with
      (fun hrun => hrun.invariant (by simp [Created, start]) fun _ _ _ ht _ hnext => ht.step hnext)
      (.inl rfl) fun _ _ _ hcreated ht hok hnext => ht.step hcreated hok hnext
  intro hidle hopen
  rcases hinv with hsettled | hawaits
  · rw [hsettled]
    simp [State.live, State.liveLinks]
  · rcases Bool.or_eq_true_iff.mp hawaits with hclosed | hcalls
    · obtain ⟨l, hl, hclosed⟩ := List.any_eq_true.mp hclosed
      rw [hopen l hl] at hclosed
      cases hclosed
    · obtain ⟨pc, hpc, hsettles⟩ := List.any_eq_true.mp hcalls
      have hprogress := Pc.inProgress_of_settles hsettles
      rw [hidle pc hpc] at hprogress
      cases hprogress

/-- A phone is connected, and its link closes. -/
def closedEvents : List Event :=
  List.flatten [[.add "a".toList [] 1], List.replicate 6 (.call 0), [.close 0, .remove 0]]

/-- What these runs show: the calls, the links and whether there is a device. -/
def facts (s : State) : List Pc × List (LinkId × Bool) × Bool :=
  (s.calls, s.links.map fun l => (l, (s.link l).alive), s.uhid.file)

/-- The phone comes back after its `remove` destroyed the device. -/
def reconnectEvents : List Event :=
  List.flatten [closedEvents, List.replicate 8 (.call 1), [.add "a".toList [] 0],
    List.replicate 6 (.call 2)]

theorem reconnect_device : ∃ s, Reach next Timely start s ∧
    facts s = ([.done, .done, .done], [(1, true)], true) ∧ DeviceLaw s := by
  obtain ⟨s, hrun, hfacts⟩ : ∃ s, replay next Timely start reconnectEvents = some s ∧
      facts s = ([.done, .done, .done], [(1, true)], true) := ⟨_, rfl, rfl⟩
  have hreach := reach_of_replay hrun
  exact ⟨s, hreach, hfacts, device_law hreach⟩

/-! ### The device is destroyed after a phone came back -/

/-- `remove` finds no live link, and destroys the device after an `add` that
found it in place. -/
def lostEvents : List Event :=
  List.flatten [closedEvents, List.replicate 6 (.call 1), [.add "a".toList [] 0],
    List.replicate 6 (.call 2), List.replicate 2 (.call 1)]

theorem device_lost : ∃ s, Reach next always start s ∧ ¬ DeviceLaw s := by
  obtain ⟨s, hrun, hfacts⟩ : ∃ s, replay next always start lostEvents = some s ∧
      facts s = ([.done, .done, .done], [(1, true)], false) := ⟨_, rfl, rfl⟩
  simp only [facts, Prod.mk.injEq] at hfacts
  obtain ⟨hcalls, hlinks, hfile⟩ := hfacts
  have halive : ∀ l ∈ s.links, (s.link l).alive = true := by
    intro l hl
    have hmem := List.mem_map_of_mem (f := fun l => (l, (s.link l).alive)) hl
    rw [hlinks, List.mem_singleton] at hmem
    exact (Prod.mk.inj hmem).2
  obtain ⟨l, hl, -⟩ := List.mem_map.mp (hlinks ▸ List.mem_singleton_self (1, true))
  refine ⟨s, reach_of_replay hrun, fun hlaw => ?_⟩
  have hdevice := (hlaw (by simp [hcalls, Pc.inProgress]) halive).mpr ⟨l, hl, halive l hl⟩
  rw [hfile] at hdevice
  cases hdevice

end Passkey.Daemon.Connections

import Passkey.Daemon.Connections
import Passkey.Daemon.Devices

/-!
The devices file. `publish` reads the links under their lock, but writes and
renames one temporary file without it, so a list that is not current any more
can replace a newer one; the file lists the connected devices in the runs where
none does as the last.
-/

namespace Passkey.Daemon.Connections

open Library

/-- `by_device`. -/
def State.byDevice (s : State) : List LinkId :=
  firstOfDevice (fun l => (s.link l).device) []
    (s.liveLinks.insertionSort fun a b => (s.link a).priority ≤ (s.link b).priority)

/-- The line of a link in the file. -/
def Link.line (k : Link) : Text :=
  k.device ++ '\t' :: k.label ++ ['\n']

/-- Whether the call has still to come to the end of `publish`. -/
def Pc.announcing : Pc → Bool
  | .push _ | .retain _ | .count _ | .publish | .write _ | .rename => true
  | _ => false

/-- Once no call of `add` or `remove` is before the end of `publish` and the
closed links are removed, the file lists the devices in order; without a file
none are listed. -/
def ListingLaw (s : State) : Prop :=
  (∀ pc ∈ s.calls, pc.announcing = false) → (∀ l ∈ s.links, (s.link l).alive = true) →
    s.devices.getD [] = (s.byDevice.map fun l => (s.link l).line).flatten

/-! ### The condition -/

/-- The file lists what is connected. -/
def State.announced (s : State) : Bool :=
  s.devices.getD [] = s.listing

/-- The call has still to list what is connected, or has the list of now to
write or to rename. -/
def Pc.brings (s : State) : Pc → Bool
  | .push _ | .publish => true
  | .retain l => l ∈ s.links
  | .count before => before ≠ s.links.length
  | .write text => text = s.listing
  | .rename => s.temporary = some s.listing
  | .sync | .cancel | .destroy | .create | .reset _ | .done => false

/-- A list is to come: of a closed link to remove, or of one of these calls. -/
def State.pending (s : State) (calls : List Pc) : Bool :=
  s.links.any (fun l => !(s.link l).alive) || calls.any (Pc.brings s)

/-- The call writes or renames a list that is current, or a current one is in
place or to come. -/
def Pc.Fresh (s : State) (others : List Pc) : Pc → Prop
  | .write text => text = s.listing ∨ s.announced = true ∨
      {s with temporary := some text}.pending others = true
  | .rename => ∀ text ∈ s.temporary, text = s.listing ∨
      {s with temporary := none}.pending others = true
  | _ => True

instance (s : State) (others : List Pc) (pc : Pc) : Decidable (pc.Fresh s others) :=
  match pc with
  | .write text => inferInstanceAs (Decidable (text = s.listing ∨ s.announced = true ∨
      {s with temporary := some text}.pending others = true))
  | .rename => inferInstanceAs (Decidable (∀ text ∈ s.temporary, text = s.listing ∨
      {s with temporary := none}.pending others = true))
  | .push _ | .retain _ | .count _ | .publish | .sync | .cancel | .destroy | .create | .reset _
  | .done => .isTrue trivial

/-- No list that is not current becomes the last, and no current one is lost. -/
def Fresh (s : State) (e : Event) : Prop :=
  match e with
  | .call i => ∀ pc ∈ s.calls[i]?, pc.Fresh s (s.calls.eraseIdx i)
  | .fault i temporary => s.announced = true ∨
      {s with temporary := temporary}.pending (s.calls.eraseIdx i) = true
  | _ => True

instance (s : State) (e : Event) : Decidable (Fresh s e) :=
  match e with
  | .call i => inferInstanceAs (Decidable (∀ pc ∈ s.calls[i]?, pc.Fresh s (s.calls.eraseIdx i)))
  | .fault i temporary => inferInstanceAs (Decidable (s.announced = true ∨
      {s with temporary := temporary}.pending (s.calls.eraseIdx i) = true))
  | .add .. | .remove _ | .close _ | .endRead _ => .isTrue trivial

/-! ### Every step keeps the invariant -/

/-- The file is current, or a current list is to come. -/
def Listed (s : State) : Prop :=
  s.announced = true ∨ s.pending s.calls = true

/-- The links in the list are the same. -/
structure Alike (s t : State) : Prop where
  links : t.links = s.links
  link : ∀ l ∈ s.links, t.link l = s.link l

theorem Alike.of_eq {s t : State} (hlink : t.link = s.link) (hlinks : t.links = s.links) :
    Alike s t :=
  ⟨hlinks, fun l _ => by rw [hlink]⟩

theorem Alike.of_update {s t : State} {l : LinkId} {k : Link} (hl : l ∉ s.links)
    (hlink : t.link = Function.update s.link l k) (hlinks : t.links = s.links) : Alike s t := by
  refine ⟨hlinks, ?_⟩
  intro x hx
  rw [hlink, Function.update_of_ne]
  intro heq
  exact hl (heq ▸ hx)

theorem Alike.closed {s t : State} (h : Alike s t) :
    t.links.any (fun l => !(t.link l).alive) = s.links.any fun l => !(s.link l).alive := by
  rw [h.links, Bool.eq_iff_iff, List.any_eq_true, List.any_eq_true]
  exact exists_congr fun x => and_congr_right fun hx => by rw [h.link x hx]

theorem firstOfDevice_congr {device device' : LinkId → Text} {links : List LinkId}
    (h : ∀ l ∈ links, device' l = device l) :
    ∀ seen, firstOfDevice device' seen links = firstOfDevice device seen links := by
  induction links with
  | nil => exact fun _ => rfl
  | cons a rest ih =>
      intro seen
      have hrest := ih fun l hl => h l (List.mem_cons_of_mem _ hl)
      rw [firstOfDevice, firstOfDevice, h a List.mem_cons_self, hrest, hrest]

theorem Alike.byDevice {s t : State} (h : Alike s t) : t.byDevice = s.byDevice := by
  have hlive : t.liveLinks = s.liveLinks := by
    rw [State.liveLinks, h.links]
    apply List.filter_congr
    intro l hl
    rw [h.link l hl]
  have hlink : ∀ l ∈ s.liveLinks, t.link l = s.link l := fun l hl =>
    h.link l (List.mem_filter.mp hl).1
  have hsort : (s.liveLinks.insertionSort fun a b => (t.link a).priority ≤ (t.link b).priority) =
      s.liveLinks.insertionSort fun a b => (s.link a).priority ≤ (s.link b).priority := by
    have hmap := List.map_insertionSort (fun a b => (t.link a).priority ≤ (t.link b).priority)
      (s := fun a b => (s.link a).priority ≤ (s.link b).priority) id s.liveLinks
      fun a ha b hb => by rw [hlink a ha, hlink b hb]; exact Iff.rfl
    simpa using hmap
  rw [State.byDevice, hlive, hsort]
  apply firstOfDevice_congr
  intro l hl
  rw [hlink l ((List.mem_insertionSort _).mp hl)]

theorem mem_byDevice {s : State} {l : LinkId} (h : l ∈ s.byDevice) :
    l ∈ s.links ∧ (s.link l).alive = true := by
  have hsorted := firstOfDevice_subset l h
  rw [List.mem_insertionSort] at hsorted
  exact List.mem_filter.mp hsorted

theorem listing_eq (s : State) :
    s.listing = (s.byDevice.map fun l => (s.link l).line).flatten := rfl

theorem Alike.listing {s t : State} (h : Alike s t) : t.listing = s.listing := by
  rw [listing_eq, listing_eq, h.byDevice]
  congr 1
  apply List.map_congr_left
  intro l hl
  rw [h.link l (mem_byDevice hl).1]

theorem Alike.brings {s t : State} (h : Alike s t) (htemporary : t.temporary = s.temporary)
    (pc : Pc) : pc.brings t = pc.brings s := by
  cases pc with
  | retain => simp only [Pc.brings, h.links]
  | count => simp only [Pc.brings, h.links]
  | write => simp only [Pc.brings, h.listing]
  | rename => simp only [Pc.brings, h.listing, htemporary]
  | _ => rfl

theorem Alike.pending {s t : State} (h : Alike s t) (htemporary : t.temporary = s.temporary)
    (calls : List Pc) : t.pending calls = s.pending calls := by
  have hbrings : Pc.brings t = Pc.brings s := funext (h.brings htemporary)
  rw [State.pending, State.pending, h.closed, hbrings]

theorem pending_mono {s : State} {calls more : List Pc} (h : s.pending calls = true)
    (hsub : ∀ pc ∈ calls, pc.brings s = true → pc ∈ more) : s.pending more = true := by
  rcases Bool.or_eq_true_iff.mp h with hclosed | hcalls
  · exact Bool.or_eq_true_iff.mpr (.inl hclosed)
  · obtain ⟨pc, hpc, hbrings⟩ := List.any_eq_true.mp hcalls
    exact Bool.or_eq_true_iff.mpr
      (.inr (List.any_eq_true.mpr ⟨pc, hsub pc hpc hbrings, hbrings⟩))

/-- Files and links are as before, and the calls that bring a list are there. -/
theorem Listed.keep {s t : State} (h : Listed s) (halike : Alike s t)
    (hdevices : t.devices = s.devices) (htemporary : t.temporary = s.temporary)
    (hcalls : ∀ pc ∈ s.calls, pc.brings s = true → pc ∈ t.calls) : Listed t := by
  rcases h with hannounced | hpending
  · left
    rw [State.announced, hdevices, halike.listing]
    exact hannounced
  · right
    rw [halike.pending htemporary]
    exact pending_mono hpending hcalls

/-- A call that brings no list moves on. -/
theorem Listed.moves {s t : State} {i : Nat} {pc after : Pc} (h : Listed s)
    (hi : s.calls[i]? = some pc) (hpc : pc.brings s = false) (halike : Alike s t)
    (hdevices : t.devices = s.devices) (htemporary : t.temporary = s.temporary)
    (hcalls : t.calls = s.calls.set i after) : Listed t := by
  refine h.keep halike hdevices htemporary ?_
  intro other hmem hbrings
  rw [hcalls]
  apply mem_set_of_ne hi hmem
  intro heq
  rw [heq, hpc] at hbrings
  cases hbrings

/-- A call comes to a point where it brings a list. -/
theorem listed_of_brings {t : State} {calls : List Pc} {i : Nat} {pc after : Pc}
    (hi : calls[i]? = some pc) (hcalls : t.calls = calls.set i after)
    (h : after.brings t = true) : Listed t := by
  right
  refine Bool.or_eq_true_iff.mpr (.inr (List.any_eq_true.mpr ⟨after, ?_, h⟩))
  rw [hcalls]
  exact mem_set_self hi

/-- The other calls bring one. -/
theorem listed_of_others {s t : State} {i : Nat}
    (h : s.pending (t.calls.eraseIdx i) = true) (halike : Alike s t)
    (htemporary : t.temporary = s.temporary) : Listed t := by
  right
  rw [halike.pending htemporary]
  exact pending_mono h fun pc hpc _ => List.mem_of_mem_eraseIdx hpc

theorem Listed.turn {s t : State} {i : Nat} {pc after : Pc} (h : Listed s)
    (hi : s.calls[i]? = some pc) (hok : pc.Fresh s (s.calls.eraseIdx i))
    (hturn : s.turn pc = some (t, after)) : Listed {t with calls := s.calls.set i after} := by
  cases pc with
  | push l =>
      cases hturn
      exact listed_of_brings hi rfl rfl
  | retain l =>
      cases hturn
      by_cases hl : l ∈ s.links
      · apply listed_of_brings hi rfl
        have hlt : (s.links.filter (· ≠ l)).length < s.links.length :=
          List.length_filter_lt_length_iff_exists.mpr ⟨l, hl, by simp⟩
        exact decide_eq_true (Nat.ne_of_gt hlt)
      · have hkept : s.links.filter (· ≠ l) = s.links :=
          List.filter_eq_self.mpr fun x hx => decide_eq_true fun heq => hl (heq ▸ hx)
        exact h.moves hi (decide_eq_false hl) (.of_eq rfl hkept) rfl rfl rfl
  | count before =>
      cases hturn
      by_cases hcount : before ≠ s.links.length
      · rw [if_pos hcount]
        exact listed_of_brings hi rfl rfl
      · rw [if_neg hcount]
        exact h.moves hi (decide_eq_false hcount) (.of_eq rfl rfl) rfl rfl rfl
  | publish =>
      cases hturn
      apply listed_of_brings hi rfl
      apply decide_eq_true
      rfl
  | write text =>
      cases hturn
      rcases hok with hcurrent | hannounced | hothers
      · apply listed_of_brings hi rfl
        apply decide_eq_true
        rw [hcurrent]
        rfl
      · exact .inl hannounced
      · rw [← List.eraseIdx_set_eq] at hothers
        exact listed_of_others hothers (.of_eq rfl rfl) rfl
  | rename =>
      cases hturn
      cases htemporary : s.temporary with
      | none =>
          have hrename : s.rename = s := by rw [State.rename, htemporary]
          rw [hrename]
          have hbrings : Pc.rename.brings s = false := by
            rw [Pc.brings, htemporary]
            rfl
          exact h.moves hi hbrings (.of_eq rfl rfl) rfl rfl rfl
      | some text =>
          have hrename : s.rename = {s with temporary := none, devices := some text} := by
            rw [State.rename, htemporary]
          rw [hrename]
          rcases hok text htemporary with hcurrent | hothers
          · exact .inl (decide_eq_true hcurrent)
          · rw [← List.eraseIdx_set_eq] at hothers
            exact listed_of_others hothers (.of_eq rfl rfl) rfl
  | sync | cancel =>
      cases hturn
      exact h.moves hi rfl (.of_eq rfl rfl) rfl rfl rfl
  | destroy =>
      cases hturn
      unfold State.destroyUhid
      split <;> exact h.moves hi rfl (.of_eq rfl rfl) rfl rfl rfl
  | create =>
      cases hturn
      unfold State.createUhid
      split <;> exact h.moves hi rfl (.of_eq rfl rfl) rfl rfl rfl
  | reset generation =>
      simp only [State.turn] at hturn
      split at hturn
      · cases hturn
        exact h.moves hi rfl (.of_eq rfl rfl) rfl rfl rfl
      · cases hturn
        exact h.moves hi rfl (.of_eq rfl rfl) rfl rfl rfl
  | done => cases hturn

theorem Listed.appends {s t : State} {pc : Pc} (h : Listed s) (halike : Alike s t)
    (hdevices : t.devices = s.devices) (htemporary : t.temporary = s.temporary)
    (hcalls : t.calls = s.calls ++ [pc]) : Listed t := by
  refine h.keep halike hdevices htemporary ?_
  intro other hmem _
  rw [hcalls]
  exact List.mem_append_left _ hmem

theorem Listed.fault {s t : State} {i : Nat} {temporary : Option Text} (h : Fresh s (.fault i temporary))
    (ht : t = {s with temporary, calls := s.calls.set i .sync}) : Listed t := by
  subst ht
  rcases h with hannounced | hothers
  · exact .inl hannounced
  · rw [← List.eraseIdx_set_eq] at hothers
    exact listed_of_others hothers (.of_eq rfl rfl) rfl

theorem Listed.step {s t : State} {e : Event} (h : Listed s) (hcreated : Created s) (hok : Fresh s e)
    (hnext : next s e = some t) : Listed t := by
  cases e with
  | add device label priority =>
      cases hnext
      have hnew : s.created ∉ s.links := fun hl => Nat.lt_irrefl _ (hcreated.1 _ hl)
      exact h.appends (.of_update hnew rfl rfl) rfl rfl rfl
  | remove l =>
      obtain ⟨-, ht⟩ := Option.ite_none_right_eq_some.mp hnext
      cases ht
      exact h.appends (.of_eq rfl rfl) rfl rfl rfl
  | close l =>
      obtain ⟨-, ht⟩ := Option.ite_none_right_eq_some.mp hnext
      cases ht
      by_cases hl : l ∈ s.links
      · right
        refine Bool.or_eq_true_iff.mpr (.inl (List.any_eq_true.mpr ⟨l, hl, ?_⟩))
        simp
      · exact h.keep (.of_update hl rfl rfl) rfl rfl fun pc hpc _ => hpc
  | endRead generation =>
      obtain ⟨-, ht⟩ := Option.ite_none_right_eq_some.mp hnext
      cases ht
      exact h.appends (.of_eq rfl rfl) rfl rfl rfl
  | call i =>
      obtain ⟨⟨u, after⟩, hbind, ht⟩ := Option.map_eq_some_iff.mp hnext
      obtain ⟨pc, hi, hturn⟩ := Option.bind_eq_some_iff.mp hbind
      subst ht
      exact h.turn hi (hok pc hi) hturn
  | fault i temporary =>
      simp only [next] at hnext
      split at hnext
      · cases hnext
        exact Listed.fault hok rfl
      · cases hnext
        exact Listed.fault hok rfl
      · cases hnext

theorem created_reachable {s : State} (h : Reach next always start s) : Created s :=
  h.invariant (by simp [Created, start]) fun _ _ _ ht _ hnext => ht.step hnext

theorem Pc.announcing_of_brings {s : State} {pc : Pc} (h : pc.brings s = true) :
    pc.announcing = true := by
  cases pc with
  | sync | cancel | destroy | create | reset | done => cases h
  | _ => rfl

/-- In every run in which no list that is not current comes to be the last, the
devices file lists what is connected once the calls are done. -/
theorem listing_law {s : State} (h : Reach next Fresh start s) : ListingLaw s := by
  have hlisted : Listed s :=
    h.invariant_with created_reachable (.inl rfl) fun _ _ _ hcreated ht hok hnext =>
      ht.step hcreated hok hnext
  intro hidle hopen
  rcases hlisted with hannounced | hpending
  · exact of_decide_eq_true hannounced
  · rcases Bool.or_eq_true_iff.mp hpending with hclosed | hcalls
    · obtain ⟨l, hl, hclosed⟩ := List.any_eq_true.mp hclosed
      rw [hopen l hl] at hclosed
      cases hclosed
    · obtain ⟨pc, hpc, hbrings⟩ := List.any_eq_true.mp hcalls
      have hannouncing := Pc.announcing_of_brings hbrings
      rw [hidle pc hpc] at hannouncing
      cases hannouncing

/-- Two phones are connected one after the other, and the first leaves. -/
def listedEvents : List Event :=
  List.flatten [[.add "a".toList "A".toList 1], List.replicate 6 (.call 0),
    [.add "b".toList "B".toList 0], List.replicate 6 (.call 1), [.close 0, .remove 0],
    List.replicate 7 (.call 2)]

theorem listed_one : ∃ s, Reach next Fresh start s ∧ ListingLaw s ∧
    s.devices = some "b\tB\n".toList ∧ s.calls = [.done, .done, .done] := by
  obtain ⟨s, hrun, hdevices, hcalls⟩ : ∃ s, replay next Fresh start listedEvents = some s ∧
      s.devices = some "b\tB\n".toList ∧ s.calls = [.done, .done, .done] := ⟨_, rfl, rfl, rfl⟩
  have hreach := reach_of_replay hrun
  exact ⟨s, hreach, listing_law hreach, hdevices, hcalls⟩

/-- The list of the first `add`, read before the second, is the last one that
is written. -/
def overtakenEvents : List Event :=
  List.flatten [[.add "a".toList "A".toList 1, .add "b".toList "B".toList 0],
    List.replicate 2 (.call 0), List.replicate 4 (.call 1), List.replicate 4 (.call 0),
    List.replicate 2 (.call 1)]

theorem list_overtaken : ∃ s, Reach next always start s ∧ ¬ ListingLaw s := by
  obtain ⟨s, hrun, hdevices, hcalls, hlinks, hdevice⟩ : ∃ s,
      replay next always start overtakenEvents = some s ∧ s.devices = some "a\tA\n".toList ∧
        s.calls = [.done, .done] ∧ s.links.map (fun l => (s.link l).alive) = [true, true] ∧
        (s.byDevice.map fun l => (s.link l).line).flatten = "b\tB\na\tA\n".toList :=
    ⟨_, rfl, rfl, rfl, rfl, rfl⟩
  refine ⟨s, reach_of_replay hrun, ?_⟩
  intro hlaw
  have hall := hlaw (by simp [hcalls, Pc.announcing]) ?_
  · rw [hdevices, hdevice] at hall
    exact absurd hall (by decide)
  · intro l hl
    have hmem := List.mem_map_of_mem (f := fun l => (s.link l).alive) hl
    rw [hlinks] at hmem
    simpa using hmem

end Passkey.Daemon.Connections

import Passkey.Cli.Processes

/-!
Commands on the registration files that do not come to their end. A process can
be killed, or fail to write, between any two of its steps; so the one file can
be replaced and the other not. What was replaced stays, and the next command
takes it up. No two commands run at the same time here.
-/

namespace Passkey.Cli

open Library Pam Text

namespace Interruptions

open Edits (Progress)

/-! ### Commands one after the other -/

def task : Call → Command
  | .store u _ input => .store u.text input
  | .remove u handle => .remove u.text handle

structure State where
  files : Option Text × Option Text := (none, none)
  running : Option (Call × Progress (Option Text) (Option Text)) := none

inductive Event where
  | starts (call : Call)
  | steps
  /-- The process is killed, or a read or write fails. -/
  | breaks

def next : Next State Event := fun s e =>
  match e with
  | .starts call => if s.running.isNone then some {s with running := some (call, .ready)} else none
  | .steps => s.running.bind fun (call, at_) =>
      (Edits.turn (task call).edit s.files at_).map fun (after, files) =>
        match after with
        | .ended => {files, running := none}
        | _ => {files, running := some (call, after)}
  | .breaks => if s.running.isSome then some {s with running := none} else none

/-- The registrations of each user that are in the key file, those in the names
file, and those that were ever written to the key file. -/
structure Record where
  listed : User → List Registration := fun _ => []
  named : User → List Registration := fun _ => []
  stored : User → List Registration := fun _ => []

/-- What was ever stored, after this call wrote the key file. -/
def Call.kept (stored : User → List Registration) : Call → User → List Registration
  | .store u e _ => Function.update stored u (stored u ++ [e])
  | .remove _ _ => stored

def observe (s : State) (e : Event) (t : State) (r : Record) : Record :=
  match e, s.running with
  | .steps, some (call, .readBoth _ _) =>
      if t.running.isSome then
        {r with listed := call.apply r.listed, stored := Call.kept r.stored call}
      else r
  | .steps, some (call, .wroteOne _) => {r with named := call.apply r.named}
  | _, _ => r

/-- What `passkey add` hands over is a registration and its name. -/
def written : Call → Bool
  | .store _ e input => [e.stored, e.name].isPrefixOf (lines input)
  | .remove _ _ => true

def fresh (stored : User → List Registration) : Call → Bool
  | .store u e _ => decide (e.handle ∉ (stored u).map Registration.handle)
  | .remove _ _ => true

/-- A phone gives each key a handle of its own. -/
def Proper (x : State × Record) (e : Event) : Prop :=
  match e with
  | .starts call => (written call && fresh x.2.stored call) = true
  | _ => True

instance (x : State × Record) : (e : Event) → Decidable (Proper x e)
  | .starts _ => inferInstanceAs (Decidable (_ = true))
  | .steps | .breaks => .isTrue trivial

/-! ### What the readers find -/

/-- What is listed is what is in the key file. A registration whose name did
not get to the other file is called by its number. -/
structure Shows (f : Files) (r : Record) (u : User) : Prop where
  line : ((lines (readOptional f.keys)).filter
    fun line => (u.text ++ [':']).isPrefixOf line).length ≤ 1
  handles : handlesFor f u.text = (r.listed u).map Registration.handle
  credentials : credentials (readOptional f.keys) u.text = (r.listed u).map Registration.credential
  registered : userRegistered f.keys u.text ↔ r.listed u ≠ []
  names : namesFor f u.text = (r.listed u).mapIdx fun index e =>
    if e.handle ∈ (r.named u).map Registration.handle then e.name
    else "Android device ".toList ++ (toString (index + 1)).toList

/-! ### The two files apart -/

/-- The key file that a command writes depends on the key file. -/
theorem run_keys {c : Command} {keys names names' : Option Text} {g : Files}
    (h : c.run ⟨keys, names⟩ = .ok g) : ∃ g', c.run ⟨keys, names'⟩ = .ok g' ∧ g'.keys = g.keys := by
  cases c with
  | store user input =>
      simp only [Command.run, rootStore] at h ⊢
      split at h
      · cases h
      · cases h
      · split_ifs at h ⊢
        split at h
        · cases h
        · cases h
          exact ⟨_, rfl, rfl⟩
  | remove user handle =>
      cases keys with
      | none => cases h
      | some keys =>
          cases h
          exact ⟨_, rfl, rfl⟩

/-- So does the names file on the names file, where there is a key file. -/
theorem run_names {c : Command} {keys names : Option Text} {g : Files}
    (h : c.run ⟨keys, names⟩ = .ok g) (keys' : Text) :
    ∃ g', c.run ⟨some keys', names⟩ = .ok g' ∧ g'.names = g.names := by
  cases c with
  | store user input =>
      simp only [Command.run, rootStore] at h ⊢
      split at h
      · cases h
      · cases h
      · split_ifs at h ⊢
        split at h
        · cases h
        · cases h
          exact ⟨_, rfl, rfl⟩
  | remove user handle =>
      cases keys with
      | none => cases h
      | some keys =>
          cases h
          exact ⟨_, rfl, rfl⟩

theorem run_some {c : Command} {f g : Files} (h : c.run f = .ok g) : g.keys.isSome = true := by
  cases c with
  | store user input =>
      simp only [Command.run, rootStore] at h
      split at h
      · cases h
      · cases h
      · split_ifs at h
        split at h
        · cases h
        · cases h
          rfl
  | remove user handle =>
      rw [Command.run, rootRemove] at h
      split at h
      · cases h
      · cases h
        rfl

theorem run_eq {call : Call} {f g : Files} (h : (task call).run f = .ok g) : call.run f = g := by
  cases call with
  | store u e input =>
      change rootStore u.text input f = _ at h
      rw [Call.run, h]
      rfl
  | remove u handle =>
      change rootRemove u.text handle f = _ at h
      rw [Call.run, h]
      rfl

/-! ### What holds -/

/-- Each file holds registrations that were written to it, whatever the other
holds. -/
structure Holds (files : Option Text × Option Text) (r : Record) : Prop where
  keys : ∃ names m, Represents ⟨files.1, names⟩ m ∧ ∀ u, m.values u = r.listed u
  names : ∃ keys m, Represents ⟨some keys, files.2⟩ m ∧ ∀ u, m.values u = r.named u
  listed : ∀ u, r.listed u ⊆ r.stored u
  named : ∀ u, r.named u ⊆ r.stored u
  handles : ∀ u, ((r.stored u).map Registration.handle).Nodup
  unnamed : files.1 = none → ∀ u, r.named u = []

/-- What a process knows where it is. -/
def Fits (files : Option Text × Option Text) (r : Record) (call : Call) :
    Progress (Option Text) (Option Text) → Prop
  | .ready => fresh r.stored call = true
  | .readOne keys => fresh r.stored call = true ∧ keys = files.1
  | .readBoth keys names => fresh r.stored call = true ∧ keys = files.1 ∧ names = files.2
  | .wroteOne names => fresh r.named call = true ∧
      (∀ u e input, call = .store u e input → e ∈ r.stored u) ∧
      ∃ keys g, (task call).run ⟨keys, files.2⟩ = .ok g ∧ g.names = names ∧ files.1.isSome = true
  | .ended => True

structure Sound (s : State) (r : Record) : Prop where
  holds : Holds s.files r
  running : ∀ call at_, s.running = some (call, at_) →
    written call = true ∧ Fits s.files r call at_

theorem valid_of_written {call : Call} (hwritten : written call = true) {f : Files}
    (hnew : ∀ u e input, call = .store u e input → e.handle ∉ handlesFor f u.text) :
    call.Valid f := by
  cases call with
  | store u e input =>
      obtain ⟨rest, hrest⟩ := List.isPrefixOf_iff_prefix.mp hwritten
      exact ⟨⟨rest, hrest.symm⟩, hnew u e input rfl⟩
  | remove u handle => trivial

theorem fresh_mono {stored named : User → List Registration} (h : ∀ u, named u ⊆ stored u)
    {call : Call} (hfresh : fresh stored call = true) : fresh named call = true := by
  cases call with
  | remove u handle => rfl
  | store u e input =>
      have hnew := of_decide_eq_true hfresh
      refine decide_eq_true fun hmem => hnew ?_
      obtain ⟨x, hx, hhandle⟩ := List.mem_map.mp hmem
      exact List.mem_map.mpr ⟨x, h u hx, hhandle⟩

/-- A call that is new to the registrations of a file does to them what it says. -/
theorem applied {f : Files} {m : Multimap User Registration} {listed : User → List Registration}
    (hm : Represents f m) (hvalues : ∀ u, m.values u = listed u) {call : Call}
    (hwritten : written call = true) (hfresh : fresh listed call = true) :
    ∃ m, Represents (call.run f) m ∧ ∀ u, m.values u = call.apply listed u := by
  refine Call.represents (valid_of_written hwritten ?_) ⟨m, hm, hvalues⟩
  rintro u e input rfl
  rw [handlesFor_eq hm, hvalues]
  exact of_decide_eq_true hfresh

/-- The call keeps registrations, or adds its own. -/
theorem mem_apply {call : Call} {listed : User → List Registration} {u : User} {e : Registration}
    (h : e ∈ call.apply listed u) :
    e ∈ listed u ∨ ∃ input, call = .store u e input := by
  cases call with
  | store v x input =>
      rw [Call.apply, Function.update_apply] at h
      split at h
      · rename_i hu
        subst hu
        refine (List.mem_append.mp h).imp_right fun hlast => ?_
        obtain rfl := List.mem_singleton.mp hlast
        exact ⟨input, rfl⟩
      · exact .inl h
  | remove v handle =>
      rw [Call.apply, Function.update_apply] at h
      split at h
      · rename_i hu
        subst hu
        exact .inl (List.mem_of_mem_filter h)
      · exact .inl h

theorem subset_kept (call : Call) (stored : User → List Registration) (u : User) :
    stored u ⊆ Call.kept stored call u := by
  intro e he
  cases call with
  | remove v handle => exact he
  | store v x input =>
      rw [Call.kept, Function.update_apply]
      split
      · rename_i hu
        exact List.mem_append_left _ (hu ▸ he)
      · exact he

theorem mem_kept (u : User) (e : Registration) (input : Text)
    (stored : User → List Registration) : e ∈ Call.kept stored (.store u e input) u := by
  rw [Call.kept, Function.update_self]
  exact List.mem_append_right _ (List.mem_singleton_self e)

theorem nodup_kept {stored : User → List Registration} {call : Call} {u : User}
    (h : ((stored u).map Registration.handle).Nodup) (hfresh : fresh stored call = true) :
    ((Call.kept stored call u).map Registration.handle).Nodup := by
  cases call with
  | remove v handle => exact h
  | store v x input =>
      rw [Call.kept, Function.update_apply]
      split
      · rename_i hu
        subst hu
        rw [List.map_append, List.map_singleton]
        exact List.nodup_append'.mpr ⟨h, List.nodup_singleton _,
          List.disjoint_singleton.mpr (of_decide_eq_true hfresh)⟩
      · exact h

/-- The key file is replaced. -/
theorem Holds.writesKeys {files : Option Text × Option Text} {r : Record} (h : Holds files r)
    {call : Call} (hwritten : written call = true) (hfresh : fresh r.stored call = true)
    {g : Files} (hrun : (task call).run ⟨files.1, files.2⟩ = .ok g) :
    Holds (g.keys, files.2)
      {r with listed := call.apply r.listed, stored := Call.kept r.stored call} := by
  obtain ⟨names, m, hm, hvalues⟩ := h.keys
  obtain ⟨keys, n, hn, hnamed⟩ := h.names
  obtain ⟨g', hrun', hkeys⟩ := @run_keys _ _ _ names _ hrun
  obtain ⟨m', hm', hvalues'⟩ := applied hm hvalues hwritten (fresh_mono h.listed hfresh)
  rw [run_eq hrun'] at hm'
  refine ⟨⟨g'.names, m', hkeys ▸ hm', hvalues'⟩, ⟨keys, n, hn, hnamed⟩, fun u e he => ?_,
    fun u _ he => subset_kept call r.stored u (h.named u he),
    fun u => nodup_kept (h.handles u) hfresh, fun hnone => ?_⟩
  · rcases mem_apply he with hold | ⟨input, rfl⟩
    · exact subset_kept call r.stored u (h.listed u hold)
    · exact mem_kept u e input r.stored
  · change g.keys = none at hnone
    have hsome := run_some hrun
    rw [hnone] at hsome
    cases hsome

/-- Then the names file is. -/
theorem Holds.writesNames {files : Option Text × Option Text} {r : Record} (h : Holds files r)
    {call : Call} (hwritten : written call = true) {names : Option Text}
    (hfits : Fits files r call (.wroteOne names)) :
    Holds (files.1, names) {r with named := call.apply r.named} := by
  obtain ⟨hfresh, hstored, keys', g, hrun, rfl, hsome⟩ := hfits
  obtain ⟨keys, n, hn, hnamed⟩ := h.names
  obtain ⟨g', hrun', hnames⟩ := run_names hrun keys
  obtain ⟨n', hn', hnamed'⟩ := applied hn hnamed hwritten hfresh
  rw [run_eq hrun'] at hn'
  have hkeys := run_some hrun'
  refine ⟨h.keys, ⟨g'.keys.get hkeys, n', ?_, hnamed'⟩, h.listed, fun u e he => ?_, h.handles,
    fun hnone => ?_⟩
  · rw [Option.some_get, ← hnames]
    exact hn'
  · rcases mem_apply he with hold | ⟨input, rfl⟩
    · exact h.named u hold
    · exact hstored u e input rfl
  · change files.1 = none at hnone
    rw [hnone] at hsome
    cases hsome

/-! ### A step -/

variable {s t : State} {r : Record}

theorem Sound.steps (h : Sound s r) (hnext : next s .steps = some t) :
    Sound t (observe s .steps t r) := by
  obtain ⟨⟨call, at_⟩, hrunning, hturn⟩ := Option.bind_eq_some_iff.mp hnext
  obtain ⟨⟨after, files⟩, hedit, heq⟩ := Option.map_eq_some_iff.mp hturn
  obtain ⟨hwritten, hfits⟩ := h.running call at_ hrunning
  cases at_ with
  | ready =>
      cases hedit
      cases heq
      have hsame : observe s .steps ⟨s.files, some (call, .readOne s.files.1)⟩ r = r := by
        simp [observe, hrunning]
      rw [hsame]
      refine ⟨h.holds, fun call' at' hgoes => ?_⟩
      cases hgoes
      exact ⟨hwritten, hfits, rfl⟩
  | readOne keys =>
      cases hedit
      cases heq
      have hsame : observe s .steps ⟨s.files, some (call, .readBoth keys s.files.2)⟩ r = r := by
        simp [observe, hrunning]
      rw [hsame]
      refine ⟨h.holds, fun call' at' hgoes => ?_⟩
      cases hgoes
      exact ⟨hwritten, hfits.1, hfits.2, rfl⟩
  | readBoth keys names =>
      obtain ⟨hfresh, rfl, rfl⟩ := hfits
      cases hrun : (task call).run ⟨s.files.1, s.files.2⟩ with
      | error e =>
          simp only [Edits.turn, Command.edit, hrun, Except.map] at hedit
          cases hedit
          cases heq
          have hsame : observe s .steps ⟨s.files, none⟩ r = r := by
            simp [observe, hrunning]
          rw [hsame]
          exact ⟨h.holds, fun _ _ hgoes => by cases hgoes⟩
      | ok g =>
          simp only [Edits.turn, Command.edit, hrun, Except.map] at hedit
          cases hedit
          cases heq
          have hrecord : observe s .steps ⟨(g.keys, s.files.2), some (call, .wroteOne g.names)⟩ r =
              {r with listed := call.apply r.listed, stored := Call.kept r.stored call} := by
            simp [observe, hrunning]
          rw [hrecord]
          refine ⟨h.holds.writesKeys hwritten hfresh hrun, fun call' at' hgoes => ?_⟩
          cases hgoes
          refine ⟨hwritten, fresh_mono h.holds.named hfresh, ?_, s.files.1, g, hrun, rfl,
            run_some hrun⟩
          rintro u e input rfl
          exact mem_kept u e input r.stored
  | wroteOne names =>
      cases hedit
      cases heq
      have hrecord : observe s .steps ⟨(s.files.1, names), none⟩ r =
          {r with named := call.apply r.named} := by
        simp [observe, hrunning]
      rw [hrecord]
      exact ⟨h.holds.writesNames hwritten hfits, fun _ _ hgoes => by cases hgoes⟩
  | ended => cases hedit

theorem Sound.next (h : Sound s r) {e : Event} (hproper : Proper (s, r) e)
    (hnext : next s e = some t) : Sound t (observe s e t r) := by
  cases e with
  | steps => exact h.steps hnext
  | starts call =>
      obtain ⟨-, heq⟩ := Option.ite_none_right_eq_some.mp hnext
      cases heq
      obtain ⟨hwritten, hfresh⟩ := Bool.and_eq_true_iff.mp hproper
      refine ⟨h.holds, fun call' at' hgoes => ?_⟩
      cases hgoes
      exact ⟨hwritten, hfresh⟩
  | breaks =>
      obtain ⟨-, heq⟩ := Option.ite_none_right_eq_some.mp hnext
      cases heq
      exact ⟨h.holds, fun _ _ hgoes => by cases hgoes⟩

/-! ### The law -/

/-- Handles tell the registrations apart that were ever stored. -/
theorem handle_inj {es : List Registration} (hnodup : (es.map Registration.handle).Nodup)
    {x y : Registration} (hx : x ∈ es) (hy : y ∈ es) (h : x.handle = y.handle) : x = y :=
  List.inj_on_of_nodup_map hnodup hx hy h

theorem name_found {order : List (User × Registration)} {u : User} {es : List Registration}
    (horder : (order.filter fun x => x.1 = u).map Prod.snd = es)
    (hnodup : (es.map Registration.handle).Nodup) {e : Registration} (he : e ∈ es) :
    (order.map nameLine).findSome? (nameIn u.text e.handle) = some e.name := by
  rw [findSome_names, horder]
  exact findSome_handle hnodup he

theorem name_missing {order : List (User × Registration)} {u : User} {es : List Registration}
    (horder : (order.filter fun x => x.1 = u).map Prod.snd = es) {handle : Text}
    (hnone : handle ∉ es.map Registration.handle) :
    (order.map nameLine).findSome? (nameIn u.text handle) = none := by
  rw [findSome_names, horder, List.findSome?_eq_none_iff]
  intro x hx
  rw [if_neg]
  exact fun heq => hnone (heq ▸ List.mem_map_of_mem hx)

theorem Holds.shows {files : Option Text × Option Text} (h : Holds files r) (u : User) :
    Shows ⟨files.1, files.2⟩ r u := by
  obtain ⟨names, m, hm, hvalues⟩ := h.keys
  obtain ⟨keys, n, hn, hnamed⟩ := h.names
  obtain ⟨order, hfile, horder⟩ := hn.names
  have hhandles : handlesFor ⟨files.1, files.2⟩ u.text = (r.listed u).map Registration.handle :=
    hvalues u ▸ handlesFor_eq hm u
  refine ⟨one_line hm u, hhandles, hvalues u ▸ credentials_eq hm u,
    hvalues u ▸ userRegistered_eq hm u, ?_⟩
  have hname (index : Nat) {e : Registration} (he : e ∈ r.listed u) :
      (((lines (readOptional files.2)).findSome? (nameIn u.text e.handle)).filter (· ≠ [])).getD
        ("Android device ".toList ++ (toString (index + 1)).toList) =
      if e.handle ∈ (r.named u).map Registration.handle then e.name
        else "Android device ".toList ++ (toString (index + 1)).toList := by
    change readOptional files.2 = _ at hfile
    rw [hfile, lines_names]
    split
    · rename_i hmem
      obtain ⟨x, hx, hhandle⟩ := List.mem_map.mp hmem
      obtain rfl := handle_inj (h.handles u) (h.named u hx) (h.listed u he) hhandle
      rw [name_found (horder u) (hn.handles u) (hnamed u ▸ hx)]
      simp [Option.filter, x.nameNonempty]
    · rename_i hnone
      rw [name_missing (horder u) (hnamed u ▸ hnone)]
      rfl
  rw [namesFor, hhandles]
  refine List.ext_getElem ?_ fun index hindex _ => ?_
  · rw [List.length_mapIdx, List.length_map, List.length_mapIdx]
  · rw [List.getElem_mapIdx, List.getElem_mapIdx, List.getElem_map]
    exact hname index (List.getElem_mem _)

/-- However many commands were broken off, and wherever: at any time a login is
offered exactly the keys whose storing got to the key file and whose removal did
not, and they are listed in their order, under the names that got to the names
file and never under that of another key. -/
theorem interrupted_law {keys names : Option Text} (hkeys : readOptional keys = [])
    (hnames : readOptional names = []) {x : State × Record}
    (h : Reach (watch next observe) Proper ({files := (keys, names)}, {}) x) (u : User) :
    Shows ⟨x.1.files.1, x.1.files.2⟩ x.2 u := by
  have hempty {keys' names' : Option Text} (hkeys : readOptional keys' = [])
      (hnames : readOptional names' = []) : Represents ⟨keys', names'⟩ [] := {
    keys := hkeys
    proper := .nil
    handles := fun _ => List.nodup_nil
    names := ⟨[], hnames, fun _ => rfl⟩ }
  suffices Sound x.1 x.2 from this.holds.shows u
  refine h.invariant (I := fun x => Sound x.1 x.2) ⟨?_, fun call at_ hgoes => ?_⟩
    fun y e z hsound hproper hnext => ?_
  · exact ⟨⟨names, [], hempty hkeys hnames, fun _ => rfl⟩,
      ⟨[], [], hempty rfl hnames, fun _ => rfl⟩, fun _ => List.nil_subset _,
      fun _ => List.nil_subset _, fun _ => List.nodup_nil, fun _ _ => rfl⟩
  · cases hgoes
  · obtain ⟨hstep, hrecord⟩ := watch_eq hnext
    rw [hrecord]
    exact hsound.next hproper hstep

/-- The process that stores the phone is killed between its two files. -/
def brokenEvents : List Event :=
  [.starts (.store me phone (stdin phone)), .steps, .steps, .steps, .breaks,
    .starts (.store me tablet (stdin tablet)), .steps, .steps, .steps, .steps]

theorem phone_nameless : ∃ x : State × Record,
    namesFor ⟨x.1.files.1, x.1.files.2⟩ me.text = ["Android device 1".toList, "Tablet".toList] ∧
      Shows ⟨x.1.files.1, x.1.files.2⟩ x.2 me := by
  have hrun : ((replay (watch next observe) Proper ({files := (none, none)}, {}) brokenEvents).any
      fun x => decide (namesFor ⟨x.1.files.1, x.1.files.2⟩ me.text =
        ["Android device 1".toList, "Tablet".toList])) = true := by
    decide +kernel
  obtain ⟨x, hreplay, hnames⟩ := (Option.any_eq_true ..).mp hrun
  exact ⟨x, of_decide_eq_true hnames, interrupted_law rfl rfl (reach_of_replay hreplay) me⟩

end Interruptions

end Passkey.Cli

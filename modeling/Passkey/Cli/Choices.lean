import Passkey.Cli.Registrations
import Passkey.Words

/-!
Numbered lists and the choices from them. `passkey remove` takes the first
entry that its text is the number or the name of, and removes every credential
with the handle of this entry; `passkey add` takes the number 0 for the first
entry. So a number is understood as the list shows it unless an earlier entry
bears it as its name, another credential has the handle, or it is 0.
-/

namespace Passkey.Cli

open Text

/-! ### The lists -/

def entryLine (index : Nat) (name : Text) : Text :=
  "  ".toList ++ decimal (index + 1) ++ "  ".toList ++ name

def printDevices (f : Files) (user : Text) : List Text :=
  if namesFor f user = [] then ["  No devices registered.".toList]
  else (namesFor f user).mapIdx entryLine

/-! ### `passkey remove` -/

/-- The first entry whose number or name the text is. -/
def position (names : List Text) (which : Text) : Option Nat :=
  (names.zipIdx.find? fun entry => which = decimal (entry.2 + 1) || which = entry.1).map (·.2)

inductive RemoveError where
  /-- "no registered device", and the text in quotes. -/
  | unknown (which : Text)
  /-- The error of `root_remove`. -/
  | failed (message : String)

/-- `remove`, with the name that it prints. There are as many names as handles. -/
def remove (f : Files) (user which : Text) : Except RemoveError (Files × Text) :=
  match position (namesFor f user) which with
  | none => .error (.unknown which)
  | some index =>
      match rootRemove user ((handlesFor f user)[index]?.getD []) f with
      | .error message => .error (.failed message)
      | .ok f' => .ok (f', (namesFor f user)[index]?.getD [])

/-! ### The choice of a connected device -/

/-- `str::trim`. -/
def trim (text : Text) : Text :=
  (trimStart text).rdropWhile isWhitespace

/-- `index.saturating_sub(1)` is the place in the list. -/
def chosenConnection (devices : List (Text × Text)) (answer : Text) : Option (Text × Text) :=
  (parseUnsigned (2 ^ 64) (trim answer)).bind fun index => devices[index - 1]?

/-- The loop, over the lines that are typed up to the end of input. -/
def askConnection (devices : List (Text × Text)) :
    List Text → Except String (Option (Text × Text))
  | [] => .error "no device chosen"
  | answer :: rest =>
      match chosenConnection devices answer with
      | some device => .ok (some device)
      | none => askConnection devices rest

/-- The list that is shown before the loop. -/
def connectionLines (devices : List (Text × Text)) : List Text :=
  devices.mapIdx fun index device => entryLine index device.2

def selectConnection (devices : List (Text × Text)) (terminal : Bool) (answers : List Text) :
    Except String (Option (Text × Text)) :=
  if devices.length ≤ 1 then .ok devices[0]?
  else if !terminal then
    .error "several devices are connected; run in a terminal to choose one"
  else askConnection devices answers

/-! ### What a choice is to do -/

/-- The entry that a text stands for. -/
inductive Chosen (names : List Text) (which : Text) : Nat → Prop where
  /-- The number that the entry is shown under. -/
  | number {i : Nat} (hi : i < names.length) (h : which = decimal (i + 1)) : Chosen names which i
  /-- The name of the entry, where the text is no number of the list. -/
  | name {i : Nat} (hnot : ∀ k < names.length, which ≠ decimal (k + 1))
      (h : names.idxOf? which = some i) : Chosen names which i

/-- The credentials in a line of a key file, if it is one of the user. -/
def lineCredentials (user line : Text) : List Text :=
  match line.dropPrefix? (user ++ [':']) with
  | some rest => rest.splitOn ':'
  | none => []

def credentialsIn (user : Text) (ls : List Text) : List Text :=
  ls.flatMap (lineCredentials user)

/-- The handle of a credential, unless it is empty. -/
def handleOf (credential : Text) : Option Text :=
  (credential.splitOn ',')[0]?.filter (· ≠ [])

/-- `passkey remove` removes the entry of the list, and of the user's
credentials just the one behind this entry. The lines of the file after it are
taken as they were written, with what may stand before a line feed. -/
def Removes (f : Files) (user which : Text) (i : Nat) : Prop :=
  ∃ name f' before credential after,
    (printDevices f user)[i]? = some (entryLine i name) ∧
    remove f user which = .ok (f', name) ∧
    credentialsIn user (lines (readOptional f.keys)) = before ++ credential :: after ∧
    (before.filterMap handleOf).length = i ∧
    handleOf credential = (handlesFor f user)[i]? ∧
    credentialsIn user ((readOptional f'.keys).splitOn '\n') = before ++ after

structure RemoveLaw (f : Files) (user which : Text) : Prop where
  removed : ∀ i, Chosen (namesFor f user) which i → Removes f user which i
  refused : (∀ i, ¬ Chosen (namesFor f user) which i) →
    remove f user which = .error (.unknown which)

/-- A number of the list chooses the device that is shown under it, and any
other number none. -/
structure SelectLaw (devices : List (Text × Text)) (answer : Text) : Prop where
  picked : ∀ k, trim answer = decimal (k + 1) → k < devices.length → ∃ device,
    (connectionLines devices)[k]? = some (entryLine k device.2) ∧ devices[k]? = some device ∧
      ∀ rest, selectConnection devices true (answer :: rest) = .ok (some device)
  refused : ∀ k, trim answer = decimal k → k = 0 ∨ devices.length < k →
    (∀ device ∈ devices, device.2 ≠ trim answer) →
      ∀ rest, selectConnection devices true (answer :: rest) = selectConnection devices true rest

/-! ### The conditions -/

/-- No entry before the one that is chosen bears the text as its name, and no
other credential of the user has its handle. -/
def Clear (f : Files) (user which : Text) : Prop :=
  ∀ i, Chosen (namesFor f user) which i →
    (∀ j < i, (namesFor f user)[j]? ≠ some which) ∧
    ∀ handle, (handlesFor f user)[i]? = some handle →
      ((credentialsIn user (lines (readOptional f.keys))).filterMap handleOf).count handle = 1

/-- The number 0 is not typed, or there is a device of this name. -/
def Nonzero (devices : List (Text × Text)) (answer : Text) : Prop :=
  trim answer = decimal 0 → ∃ device ∈ devices, device.2 = trim answer

/-! ### The entry that is taken -/

theorem decimal_inj {m n : Nat} (h : decimal m = decimal n) : m = n := by
  have hread := congrArg (Nat.ofDigitChars 10 · 0) h
  simpa [decimal] using hread

/-- The text is the number or the name of the entry. -/
def Fits (names : List Text) (which : Text) (i : Nat) : Prop :=
  i < names.length ∧ (which = decimal (i + 1) ∨ names[i]? = some which)

theorem position_eq_some {names : List Text} {which : Text} {i : Nat} :
    position names which = some i ↔ Fits names which i ∧ ∀ j < i, ¬ Fits names which j := by
  have hfits (j : Nat) (hj : j < names.length) :
      Fits names which j ↔ which = decimal (j + 1) ∨ which = names[j] := by
    rw [Fits, List.getElem?_eq_getElem hj, Option.some.injEq]
    exact ⟨fun h => h.2.imp_right Eq.symm, fun h => ⟨hj, h.imp_right Eq.symm⟩⟩
  rw [position, Option.map_eq_some_iff]
  simp only [List.find?_eq_some_iff_getElem, List.length_zipIdx, List.getElem_zipIdx, Nat.zero_add]
  constructor
  · rintro ⟨entry, ⟨hentry, k, hk, rfl, hbefore⟩, rfl⟩
    refine ⟨(hfits k hk).mpr (by simpa using hentry), fun j hj hfit => ?_⟩
    have hmiss := hbefore j hj
    rcases (hfits j (hj.trans hk)).mp hfit with hnumber | hname
    · simp [hnumber] at hmiss
    · simp [hname] at hmiss
  · rintro ⟨hfit, hbefore⟩
    have hi : i < names.length := hfit.1
    refine ⟨(names[i], i), ⟨?_, i, hi, rfl, fun j hj => ?_⟩, rfl⟩
    · simpa using (hfits i hi).mp hfit
    · have hmiss := mt (hfits j (hj.trans hi)).mpr (hbefore j hj)
      simpa using hmiss

theorem position_eq_none {names : List Text} {which : Text} :
    position names which = none ↔ ∀ i, ¬ Fits names which i := by
  constructor
  · classical
    intro hnone i hfit
    have hfound : ∃ i, Fits names which i := ⟨i, hfit⟩
    have hsome := position_eq_some.mpr ⟨Nat.find_spec hfound, fun k hk => Nat.find_min hfound hk⟩
    rw [hnone] at hsome
    cases hsome
  · intro hall
    by_contra hsome
    obtain ⟨i, hi⟩ := Option.ne_none_iff_exists'.mp hsome
    exact hall i (position_eq_some.mp hi).1

theorem Chosen.fits {names : List Text} {which : Text} {i : Nat} (h : Chosen names which i) :
    Fits names which i := by
  cases h with
  | number hi h => exact ⟨hi, .inl h⟩
  | name hnot h =>
      obtain ⟨hi, hname, -⟩ := List.findIdx?_eq_some_iff_getElem.mp h
      refine ⟨hi, .inr ?_⟩
      rw [List.getElem?_eq_getElem hi, eq_of_beq hname]

/-- What fits stands for something, if not for itself. -/
theorem chosen_of_fits {names : List Text} {which : Text} {i : Nat} (h : Fits names which i) :
    ∃ k, Chosen names which k := by
  by_cases hnumber : ∃ k < names.length, which = decimal (k + 1)
  · obtain ⟨k, hk, heq⟩ := hnumber
    exact ⟨k, .number hk heq⟩
  · have hnot : ∀ k < names.length, which ≠ decimal (k + 1) :=
      fun k hk heq => hnumber ⟨k, hk, heq⟩
    have hname : names[i]? = some which := h.2.resolve_left (hnot i h.1)
    obtain ⟨k, hk⟩ := Option.isSome_iff_exists.mp
      (List.isSome_idxOf?.mpr (List.mem_of_getElem? hname))
    exact ⟨k, .name hnot hk⟩

/-- The entry that is chosen is taken unless an earlier one bears the text as
its name. -/
theorem Chosen.position_eq {names : List Text} {which : Text} {i : Nat}
    (h : Chosen names which i) :
    position names which = some i ↔ ∀ j < i, names[j]? ≠ some which := by
  rw [position_eq_some]
  constructor
  · rintro ⟨-, hbefore⟩ j hj hname
    obtain ⟨hlt, -⟩ := List.getElem?_eq_some_iff.mp hname
    exact hbefore j hj ⟨hlt, .inr hname⟩
  · intro hbefore
    refine ⟨h.fits, fun j hj hfit => ?_⟩
    rcases hfit.2 with hnumber | hname
    · cases h with
      | number hi heq =>
          have hsame := decimal_inj (hnumber.symm.trans heq)
          omega
      | name hnot _ => exact hnot j hfit.1 hnumber
    · exact hbefore j hj hname

/-! ### The credentials that are removed -/

section Places

variable {α β : Type*} {g : α → Option β}

/-- The place in a list of an element that a partial function is defined on. -/
theorem split_of_filterMap {xs : List α} {i : Nat} {b : β} (h : (xs.filterMap g)[i]? = some b) :
    ∃ before a after, xs = before ++ a :: after ∧ (before.filterMap g).length = i ∧
      g a = some b := by
  induction xs generalizing i with
  | nil => simp at h
  | cons x rest ih =>
      cases hx : g x with
      | none =>
          rw [List.filterMap_cons_none hx] at h
          obtain ⟨before, a, after, rfl, hlength, ha⟩ := ih h
          refine ⟨x :: before, a, after, rfl, ?_, ha⟩
          rw [List.filterMap_cons_none hx]
          exact hlength
      | some y =>
          rw [List.filterMap_cons_some hx] at h
          cases i with
          | zero => exact ⟨[], x, rest, rfl, rfl, hx.trans h⟩
          | succ i =>
              obtain ⟨before, a, after, rfl, hlength, ha⟩ := ih h
              refine ⟨x :: before, a, after, rfl, ?_, ha⟩
              rw [List.filterMap_cons_some hx, List.length_cons, hlength]

variable [DecidableEq β] [BEq β] [LawfulBEq β]

/-- Dropping what has a value drops one element if the value is there once. -/
theorem filter_eq_iff {before after : List α} {a : α} {b : β} (ha : g a = some b) :
    (before ++ a :: after).filter (fun x => decide (g x ≠ some b)) = before ++ after ↔
      ((before ++ a :: after).filterMap g).count b = 1 := by
  have hdrop : (before ++ a :: after).filter (fun x => decide (g x ≠ some b)) =
      (before ++ after).filter fun x => decide (g x ≠ some b) := by
    simp [ha]
  have hcount : ((before ++ a :: after).filterMap g).count b =
      ((before ++ after).filterMap g).count b + 1 := by
    rw [List.filterMap_append, List.filterMap_cons_some ha, List.count_append,
      List.count_cons_self, List.filterMap_append, List.count_append, Nat.add_assoc]
  rw [hdrop, hcount, Nat.add_eq_right, List.count_eq_zero, List.filter_eq_self]
  constructor
  · intro hall hmem
    obtain ⟨x, hx, hg⟩ := List.mem_filterMap.mp hmem
    exact of_decide_eq_true (hall x hx) hg
  · intro hnot x hx
    exact decide_eq_true fun hg => hnot (List.mem_filterMap.mpr ⟨x, hx, hg⟩)

end Places

theorem lineCredentials_user (user rest : Text) :
    lineCredentials user (user ++ ':' :: rest) = rest.splitOn ':' := by
  have hdrop : (user ++ ':' :: rest).dropPrefix? (user ++ [':']) = some rest := by
    simp [dropPrefix_iff]
  rw [lineCredentials, hdrop]

theorem lineCredentials_other {user line : Text} (h : (user ++ [':']).isPrefixOf line = false) :
    lineCredentials user line = [] := by
  have hdrop : line.dropPrefix? (user ++ [':']) = none := by
    refine Option.eq_none_iff_forall_ne_some.mpr fun rest hrest => ?_
    have hprefix := List.isPrefixOf_iff_prefix.mpr ⟨rest, (dropPrefix_iff.mp hrest).symm⟩
    rw [h] at hprefix
    cases hprefix
  rw [lineCredentials, hdrop]

/-- A line as `root_remove` leaves it has the credentials with other handles. -/
theorem lineCredentials_withoutHandle {user : Text} (huser : ':' ∉ user) (handle line : Text) :
    ((withoutHandle user handle line).elim [] (lineCredentials user)) =
      (lineCredentials user line).filter fun credential =>
        (credential.splitOn ',')[0]? ≠ some handle := by
  cases hprefix : (user ++ [':']).isPrefixOf line with
  | false => simp [withoutHandle, hprefix, lineCredentials_other hprefix]
  | true =>
      obtain ⟨rest, rfl⟩ := List.isPrefixOf_iff_prefix.mp hprefix
      rw [List.append_assoc, List.singleton_append] at hprefix ⊢
      rw [lineCredentials_user]
      have hfields : (user ++ ':' :: rest).splitOn ':' = user :: rest.splitOn ':' :=
        splitOn_cons rest huser
      simp only [withoutHandle, hprefix, hfields, List.tail_cons, Bool.not_true,
        Bool.false_eq_true, if_false]
      split
      · rename_i hnone
        exact hnone.symm
      · rename_i hsome
        rw [List.getElem?_cons_zero, Option.getD_some, List.append_assoc, List.singleton_append]
        refine (lineCredentials_user user _).trans (List.splitOn_intercalate ':' ?_ hsome)
        intro credential hcredential hcolon
        have hfield := List.mem_of_mem_filter hcredential
        have hplain := not_of_mem_splitOnP hfield ':' hcolon
        simp at hplain

@[simp] theorem credentialsIn_cons (user line : Text) (rest : List Text) :
    credentialsIn user (line :: rest) = lineCredentials user line ++ credentialsIn user rest :=
  List.flatMap_cons

theorem credentialsIn_withoutHandle {user : Text} (huser : ':' ∉ user) (handle : Text)
    (ls : List Text) : credentialsIn user (ls.filterMap (withoutHandle user handle)) =
      (credentialsIn user ls).filter fun credential =>
        (credential.splitOn ',')[0]? ≠ some handle := by
  induction ls with
  | nil => rfl
  | cons line rest ih =>
      have hline := lineCredentials_withoutHandle huser handle line
      rw [credentialsIn_cons, List.filter_append, ← hline, List.filterMap_cons]
      cases withoutHandle user handle line with
      | none => exact ih
      | some left => exact (credentialsIn_cons ..).trans (congrArg _ ih)

theorem splitOn_unlines {ls : List Text} (h : ∀ line ∈ ls, '\n' ∉ line) :
    (unlines ls).splitOn '\n' = ls ++ [[]] := by
  induction ls with
  | nil => rfl
  | cons line rest ih =>
      rw [unlines, List.flatMap_cons, List.append_assoc, List.singleton_append,
        splitOn_cons _ (h line List.mem_cons_self)]
      exact congrArg _ (ih fun l hl => h l (List.mem_cons_of_mem _ hl))

/-- A blank line is nobody's. -/
theorem lineCredentials_nil (user : Text) : lineCredentials user [] = [] :=
  lineCredentials_other (by cases user <;> rfl)

theorem credentialsIn_linesFile {ls : List Text} (user : Text) (h : ∀ line ∈ ls, '\n' ∉ line) :
    credentialsIn user ((linesFile ls).splitOn '\n') = credentialsIn user ls := by
  have hkept : ∀ line ∈ ls.filter (· ≠ []), '\n' ∉ line :=
    fun line hline => h line (List.mem_of_mem_filter hline)
  rw [linesFile, splitOn_unlines hkept, credentialsIn, List.flatMap_append,
    List.flatMap_singleton, lineCredentials_nil, List.append_nil]
  induction ls with
  | nil => rfl
  | cons line rest ih =>
      have hrest := ih (fun l hl => h l (List.mem_cons_of_mem _ hl))
        fun l hl => h l (List.mem_cons_of_mem _ (List.mem_of_mem_filter hl))
      change credentialsIn user ((line :: rest).filter (· ≠ [])) = _
      rw [credentialsIn_cons, List.filter_cons]
      split
      · rw [credentialsIn_cons]
        exact congrArg _ hrest
      · rename_i hblank
        have hnil : line = [] := by simpa using hblank
        rw [hnil, lineCredentials_nil]
        exact hrest

theorem newline_withoutHandle {user handle line left : Text} (hline : '\n' ∉ line)
    (h : withoutHandle user handle line = some left) : '\n' ∉ left := by
  unfold withoutHandle at h
  split at h
  · exact Option.some.inj h ▸ hline
  · have hplain {field : Text} (hfield : field ∈ line.splitOn ':') : '\n' ∉ field :=
      fun hmem => hline (mem_of_mem_splitOn hfield hmem)
    dsimp only at h
    split at h
    · cases h
    · obtain rfl := Option.some.inj h
      intro hmem
      rcases List.mem_append.mp hmem with howner | hcredentials
      · rcases List.mem_append.mp howner with hfirst | hcolon
        · cases hfields : line.splitOn ':' with
          | nil => simp [hfields] at hfirst
          | cons first rest =>
              rw [hfields] at hfirst hplain
              exact hplain List.mem_cons_self hfirst
        · cases List.mem_singleton.mp hcolon
      · rcases mem_intercalate hcredentials with hcolon | ⟨field, hfield, hc⟩
        · cases hcolon
        · exact hplain (List.mem_of_mem_tail (List.mem_of_mem_filter hfield)) hc

/-- What `root_remove` leaves of the user's credentials. -/
theorem credentialsIn_rootRemove {f f' : Files} {user handle : Text} (huser : ':' ∉ user)
    (h : rootRemove user handle f = .ok f') :
    credentialsIn user ((readOptional f'.keys).splitOn '\n') =
      (credentialsIn user (lines (readOptional f.keys))).filter fun credential =>
        (credential.splitOn ',')[0]? ≠ some handle := by
  unfold rootRemove at h
  split at h
  · cases h
  · rename_i keys hkeys
    cases h
    have hlines : ∀ line ∈ (lines keys).filterMap (withoutHandle user handle), '\n' ∉ line := by
      intro left hleft
      obtain ⟨line, hline, hwithout⟩ := List.mem_filterMap.mp hleft
      exact newline_withoutHandle (notMem_lines hline) hwithout
    rw [hkeys]
    exact (credentialsIn_linesFile user hlines).trans
      (credentialsIn_withoutHandle huser handle (lines keys))

/-! ### The handles that are shown -/

theorem length_namesFor (f : Files) (user : Text) :
    (namesFor f user).length = (handlesFor f user).length :=
  List.length_mapIdx

theorem handleOf_eq_some {credential handle : Text} (h : handle ≠ []) :
    handleOf credential = some handle ↔ (credential.splitOn ',')[0]? = some handle := by
  rw [handleOf, Option.filter_eq_some_iff]
  exact and_iff_left (decide_eq_true h)

theorem filterMap_handleOf (credentials : List Text) :
    (credentials.filterMap fun credential => (credential.splitOn ',')[0]?).filter (· ≠ []) =
      credentials.filterMap handleOf :=
  List.filter_filterMap

/-- The list shows the first line of the user. -/
theorem handlesFor_begins (f : Files) (user : Text) :
    handlesFor f user <+: (credentialsIn user (lines (readOptional f.keys))).filterMap handleOf := by
  rw [handlesFor, filterMap_handleOf]
  induction lines (readOptional f.keys) with
  | nil => exact List.prefix_rfl
  | cons line rest ih =>
      rw [List.findSome?_cons, credentialsIn_cons, lineCredentials]
      cases line.dropPrefix? (user ++ [':']) with
      | none => exact ih
      | some credentials =>
          rw [List.filterMap_append]
          exact List.prefix_append ..

theorem shown_handle {f : Files} {user handle : Text} {i : Nat}
    (h : (handlesFor f user)[i]? = some handle) :
    ((credentialsIn user (lines (readOptional f.keys))).filterMap handleOf)[i]? = some handle := by
  obtain ⟨hi, rfl⟩ := List.getElem?_eq_some_iff.mp h
  exact List.prefix_iff_getElem?.mp (handlesFor_begins f user) i hi

theorem handle_ne_nil {f : Files} {user handle : Text} {i : Nat}
    (h : (handlesFor f user)[i]? = some handle) : handle ≠ [] :=
  of_decide_eq_true (List.mem_filter.mp (List.mem_of_getElem? h)).2

/-- What `passkey remove` does with the entry it takes. -/
theorem remove_of_position {f : Files} {user which : Text} {i : Nat} (huser : ':' ∉ user)
    (h : position (namesFor f user) which = some i) :
    ∃ name handle f', (namesFor f user)[i]? = some name ∧
      (handlesFor f user)[i]? = some handle ∧ remove f user which = .ok (f', name) ∧
      credentialsIn user ((readOptional f'.keys).splitOn '\n') =
        (credentialsIn user (lines (readOptional f.keys))).filter
          fun credential => handleOf credential ≠ some handle := by
  have hi : i < (namesFor f user).length := (position_eq_some.mp h).1.1
  have hi' : i < (handlesFor f user).length := length_namesFor f user ▸ hi
  obtain ⟨name, hname⟩ : ∃ name, (namesFor f user)[i]? = some name :=
    ⟨_, List.getElem?_eq_getElem hi⟩
  obtain ⟨handle, hhandle⟩ : ∃ handle, (handlesFor f user)[i]? = some handle :=
    ⟨_, List.getElem?_eq_getElem hi'⟩
  have hkeys : ∃ f', rootRemove user handle f = .ok f' := by
    unfold rootRemove
    split
    · rename_i hnone
      rw [handlesFor, hnone] at hi'
      exact absurd hi' (Nat.not_lt_zero i)
    · exact ⟨_, rfl⟩
  obtain ⟨f', hf'⟩ := hkeys
  refine ⟨name, handle, f', hname, hhandle, ?_, ?_⟩
  · rw [remove, h]
    simp only [hname, hhandle, Option.getD_some, hf']
  · rw [credentialsIn_rootRemove huser hf']
    refine List.filter_congr fun credential _ => decide_eq_decide.mpr ?_
    exact not_congr (handleOf_eq_some (handle_ne_nil hhandle)).symm

theorem printDevices_entry {f : Files} {user name : Text} {i : Nat}
    (h : (namesFor f user)[i]? = some name) :
    (printDevices f user)[i]? = some (entryLine i name) := by
  have hne : namesFor f user ≠ [] := by
    intro hnil
    simp [hnil] at h
  rw [printDevices, if_neg hne, List.getElem?_mapIdx, h]
  rfl

/-! ### The choice of a registered device -/

theorem removes_of_clear {f : Files} {user which : Text} {i : Nat} (huser : ':' ∉ user)
    (hchosen : Chosen (namesFor f user) which i) (hclear : Clear f user which) :
    Removes f user which i := by
  obtain ⟨hbefore, hunshared⟩ := hclear i hchosen
  obtain ⟨name, handle, f', hname, hhandle, hremove, hleft⟩ :=
    remove_of_position huser (hchosen.position_eq.mpr hbefore)
  obtain ⟨before, credential, after, hsplit, hlength, hcredential⟩ :=
    split_of_filterMap (shown_handle hhandle)
  refine ⟨name, f', before, credential, after, printDevices_entry hname, hremove, hsplit, hlength,
    hcredential.trans hhandle.symm, ?_⟩
  rw [hleft, hsplit, filter_eq_iff hcredential, ← hsplit]
  exact hunshared handle hhandle

/-- If only the entry that was chosen is gone, it is the entry that was taken. -/
theorem clear_of_removes {f : Files} {user which : Text} {i : Nat} (huser : ':' ∉ user)
    (hchosen : Chosen (namesFor f user) which i) (hremoves : Removes f user which i) :
    (∀ j < i, (namesFor f user)[j]? ≠ some which) ∧
      ∀ handle, (handlesFor f user)[i]? = some handle →
        ((credentialsIn user (lines (readOptional f.keys))).filterMap handleOf).count handle = 1 := by
  obtain ⟨name, f', before, credential, after, -, hremove, hsplit, hlength, hcredential, hafter⟩ :=
    hremoves
  obtain ⟨k, hk⟩ : ∃ k, position (namesFor f user) which = some k := by
    refine Option.ne_none_iff_exists'.mp fun hnone => ?_
    exact position_eq_none.mp hnone i hchosen.fits
  obtain ⟨name', handle, f'', hname, hhandle, hremove', hleft⟩ := remove_of_position huser hk
  obtain ⟨rfl, rfl⟩ : f'' = f' ∧ name' = name := by
    rw [hremove'] at hremove
    simpa using hremove
  have hki : k = i := by
    rcases Nat.lt_or_ge k i with hlt | hge
    · -- the handle at `k` is still there in front of the place `i`
      have hshown : (before.filterMap handleOf)[k]? = some handle := by
        have hall := shown_handle hhandle
        rw [hsplit, List.filterMap_append, List.getElem?_append_left (hlength ▸ hlt)] at hall
        exact hall
      obtain ⟨kept, hkept, hhandleOf⟩ := List.mem_filterMap.mp (List.mem_of_getElem? hshown)
      have hstill : kept ∈ before ++ after := List.mem_append_left _ hkept
      rw [← hafter, hleft] at hstill
      exact absurd hhandleOf (of_decide_eq_true (List.mem_filter.mp hstill).2)
    · rcases Nat.lt_or_eq_of_le hge with hlt | heq
      · exact absurd hchosen.fits ((position_eq_some.mp hk).2 i hlt)
      · exact heq.symm
  subst hki
  refine ⟨hchosen.position_eq.mp hk, fun handle' hhandle' => ?_⟩
  obtain rfl := Option.some.inj (hhandle.symm.trans hhandle')
  rw [hsplit, ← filter_eq_iff (hcredential.trans hhandle), ← hsplit, ← hleft]
  exact hafter

theorem remove_iff {f : Files} {user which : Text} (huser : ':' ∉ user) :
    RemoveLaw f user which ↔ Clear f user which := by
  constructor
  · intro hlaw i hchosen
    exact clear_of_removes huser hchosen (hlaw.removed i hchosen)
  · intro hclear
    refine ⟨fun i hchosen => removes_of_clear huser hchosen hclear, fun hnone => ?_⟩
    have hposition : position (namesFor f user) which = none := by
      refine position_eq_none.mpr fun i hfit => ?_
      obtain ⟨k, hk⟩ := chosen_of_fits hfit
      exact hnone k hk
    rw [remove, hposition]

/-! ### The choice of a connected device -/

theorem selectConnection_eq {devices : List (Text × Text)} (hmany : 2 ≤ devices.length)
    (answers : List Text) :
    selectConnection devices true answers = askConnection devices answers := by
  have hnot : ¬ devices.length ≤ 1 := by omega
  rw [selectConnection, if_neg hnot, if_neg (by decide)]

theorem chosenConnection_decimal {devices : List (Text × Text)} {answer : Text} {k : Nat}
    (hfew : devices.length < 2 ^ 64) (h : trim answer = decimal k) :
    chosenConnection devices answer = devices[k - 1]? := by
  rw [chosenConnection, h]
  rcases Nat.lt_or_ge k (2 ^ 64) with hlt | hge
  · rw [parseUnsigned_decimal hlt]
    rfl
  · rw [parseUnsigned_decimal_large hge]
    refine (List.getElem?_eq_none ?_).symm
    omega

theorem askConnection_some {devices : List (Text × Text)} {answer : Text} {device : Text × Text}
    (h : chosenConnection devices answer = some device) (rest : List Text) :
    askConnection devices (answer :: rest) = .ok (some device) := by
  rw [askConnection, h]

theorem askConnection_none {devices : List (Text × Text)} {answer : Text}
    (h : chosenConnection devices answer = none) (rest : List Text) :
    askConnection devices (answer :: rest) = askConnection devices rest := by
  rw [askConnection, h]

theorem select_iff {devices : List (Text × Text)} {answer : Text} (hmany : 2 ≤ devices.length)
    (hfew : devices.length < 2 ^ 64) : SelectLaw devices answer ↔ Nonzero devices answer := by
  constructor
  · intro hlaw hzero
    by_contra hnone
    have hasks := hlaw.refused 0 hzero (.inl rfl) (fun device hdevice hname =>
      hnone ⟨device, hdevice, hname⟩) []
    have hfirst : chosenConnection devices answer = some (devices[0]) := by
      rw [chosenConnection_decimal hfew hzero]
      exact List.getElem?_eq_getElem (by omega)
    rw [selectConnection_eq hmany, selectConnection_eq hmany, askConnection_some hfirst] at hasks
    cases hasks
  · intro hnonzero
    constructor
    · intro k hanswer hk
      have hdevice : devices[k]? = some devices[k] := List.getElem?_eq_getElem hk
      refine ⟨devices[k], ?_, hdevice, fun rest => ?_⟩
      · rw [connectionLines, List.getElem?_mapIdx, hdevice]
        rfl
      · rw [selectConnection_eq hmany]
        apply askConnection_some
        rw [chosenConnection_decimal hfew hanswer]
        exact hdevice
    · intro k hanswer hk hnames rest
      have hlarge : devices.length < k := by
        refine hk.resolve_left fun hzero => ?_
        obtain ⟨device, hdevice, hname⟩ := hnonzero (hzero ▸ hanswer)
        exact hnames device hdevice hname
      rw [selectConnection_eq hmany, selectConnection_eq hmany]
      apply askConnection_none
      rw [chosenConnection_decimal hfew hanswer]
      exact List.getElem?_eq_none (by omega)

/-- A number of a list chooses the entry shown under it and nothing else, for
`passkey remove` exactly if no entry before bears it as its name and no other
credential has the handle, for `passkey add` exactly if it is not 0. -/
theorem choices_iff {f : Files} {user which answer : Text} {devices : List (Text × Text)}
    (huser : ':' ∉ user) (hmany : 2 ≤ devices.length) (hfew : devices.length < 2 ^ 64) :
    (RemoveLaw f user which ↔ Clear f user which) ∧
      (SelectLaw devices answer ↔ Nonzero devices answer) :=
  ⟨remove_iff huser, select_iff hmany hfew⟩

/-- The key file and the names file of a user with two devices. -/
def twoDevices (first second handle handle' : String) : Files where
  keys := some ("me:" ++ handle ++ ",AQ,es256,+presence:" ++ handle' ++
    ",Ag,es256,+presence\n").toList
  names := some ("me\t" ++ handle ++ "\t" ++ first ++ "\nme\t" ++ handle' ++ "\t" ++ second ++
    "\n").toList

def twoConnections : List (Text × Text) :=
  [("usb:1".toList, "Phone".toList), ("usb:2".toList, "Tablet".toList)]

theorem clear_two : Clear (twoDevices "Phone" "Tablet" "AQ" "Ag") me.text "2".toList := by
  have hnames : namesFor (twoDevices "Phone" "Tablet" "AQ" "Ag") me.text =
      ["Phone".toList, "Tablet".toList] := by decide +kernel
  have hhandles : handlesFor (twoDevices "Phone" "Tablet" "AQ" "Ag") me.text =
      ["AQ".toList, "Ag".toList] := by decide +kernel
  have hall : (credentialsIn me.text (lines (readOptional
      (twoDevices "Phone" "Tablet" "AQ" "Ag").keys))).filterMap handleOf =
      ["AQ".toList, "Ag".toList] := by decide +kernel
  intro i hchosen
  rw [hnames] at hchosen ⊢
  cases hchosen with
  | number hi h =>
      have hnumber : "2".toList = decimal 2 := by decide
      obtain rfl : i = 1 := Nat.succ.inj (decimal_inj (h.symm.trans hnumber))
      refine ⟨fun j hj => ?_, fun handle hhandle => ?_⟩
      · obtain rfl : j = 0 := by omega
        decide
      · rw [hhandles] at hhandle
        rw [hall, ← Option.some.inj hhandle]
        decide
  | name hnot h => exact absurd (by decide) (hnot 1 (by decide))

theorem second_chosen :
    RemoveLaw (twoDevices "Phone" "Tablet" "AQ" "Ag") me.text "2".toList ∧
      SelectLaw twoConnections "2\n".toList := by
  have hnonzero : Nonzero twoConnections "2\n".toList := fun hzero => absurd hzero (by decide)
  have hmany : 2 ≤ twoConnections.length := by decide
  have hfew : twoConnections.length < 2 ^ 64 := by decide
  obtain ⟨hremove, hselect⟩ := choices_iff me.colon hmany hfew
  exact ⟨hremove.mpr clear_two, hselect.mpr hnonzero⟩

/-! ### Entries that are not shown under the number -/

/-- The first device is named "2", both have one handle, or 0 is typed. -/
theorem other_chosen :
    ¬ RemoveLaw (twoDevices "2" "Tablet" "AQ" "Ag") me.text "2".toList ∧
      ¬ RemoveLaw (twoDevices "Phone" "Tablet" "AQ" "AQ") me.text "1".toList ∧
        ¬ SelectLaw twoConnections "0\n".toList := by
  refine ⟨fun hlaw => ?_, fun hlaw => ?_, fun hlaw => ?_⟩
  · have hclear := (remove_iff me.colon).mp hlaw 1 (.number (by decide +kernel) (by decide))
    exact hclear.1 0 Nat.zero_lt_one (by decide +kernel)
  · have hclear := (remove_iff me.colon).mp hlaw 0 (.number (by decide +kernel) (by decide))
    exact absurd (hclear.2 "AQ".toList (by decide +kernel)) (by decide +kernel)
  · obtain ⟨device, hdevice, hname⟩ :=
      (select_iff (by decide) (by decide)).mp hlaw (by decide +kernel)
    have hnone : ∀ device ∈ twoConnections, device.2 ≠ trim "0\n".toList := by decide +kernel
    exact hnone device hdevice hname

end Passkey.Cli

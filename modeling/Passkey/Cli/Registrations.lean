import Passkey.Library.Multimap
import Passkey.Library.Runs
import Passkey.Pam.Authenticate
import Passkey.Pam.Credentials

/-!
The files that `root_store` and `root_remove` write and that `handles_for`,
`names_for` and the PAM helper read. Reading and writing them succeeds where
they are there, and a command runs to its end before the next.
-/

namespace Passkey.Cli

open Library Pam Text

structure Files where
  keys : Option Text := none
  names : Option Text := none

/-! ### Writing -/

/-- A file that is not there has no text. -/
def readOptional (file : Option Text) : Text :=
  file.getD []

def linesFile (ls : List Text) : Text :=
  unlines (ls.filter (· ≠ []))

/-- The line of the user gets the credential at its end, if there is a line. -/
def pushCredential (user credential : Text) : List Text → Option (List Text)
  | [] => none
  | line :: rest =>
      if (user ++ [':']).isPrefixOf line then some ((line ++ credential) :: rest)
      else (pushCredential user credential rest).map (line :: ·)

def rootStore (user input : Text) (f : Files) : Except String Files :=
  match lines input with
  | [] => .error "missing credential"
  | [_] => .error "missing name"
  | credential :: name :: _ =>
      if !([':'].isPrefixOf credential) || name.any (['\t', '\n', '\r'].contains ·) then
        .error "invalid registration data"
      else
        match ((credential.dropWhile (· == ':')).splitOn ',')[0]? with
        | none => .error "invalid credential"
        | some handle =>
            let keyLines := (lines (readOptional f.keys)).filter (· ≠ [])
            .ok {
              keys := some (linesFile ((pushCredential user credential keyLines).getD
                (keyLines ++ [user ++ credential])))
              names := some (linesFile (lines (readOptional f.names))
                ++ (user ++ ['\t'] ++ handle ++ ['\t'] ++ name ++ ['\n'])) }

/-- A line of the key file without the credentials that have the handle. -/
def withoutHandle (user handle line : Text) : Option Text :=
  if !(user ++ [':']).isPrefixOf line then some line
  else
    let fields := line.splitOn ':'
    let credentials := fields.tail.filter fun credential =>
      (credential.splitOn ',')[0]? ≠ some handle
    if credentials = [] then none
    else some (fields[0]?.getD [] ++ [':'] ++ [':'].intercalate credentials)

def namesOther (user handle line : Text) : Bool :=
  (line.splitOn '\t')[0]? ≠ some user || (line.splitOn '\t')[1]? ≠ some handle

def rootRemove (user handle : Text) (f : Files) : Except String Files :=
  match f.keys with
  | none => .error "No such file or directory (os error 2)"
  | some keys => .ok {
      keys := some (linesFile ((lines keys).filterMap (withoutHandle user handle)))
      names := some (linesFile ((lines (readOptional f.names)).filter (namesOther user handle))) }

/-! ### Reading -/

def handlesFor (f : Files) (user : Text) : List Text :=
  ((((lines (readOptional f.keys)).findSome? fun line => line.dropPrefix? (user ++ [':'])).getD
    []).splitOn ':').filterMap (fun credential => (credential.splitOn ',')[0]?)
    |>.filter (· ≠ [])

/-- `str::splitn`: the last piece is all the rest. -/
def splitn (separator : Char) : Nat → Text → List Text
  | 0, _ => []
  | 1, text => [text]
  | n + 2, text =>
      match text.dropWhile (· != separator) with
      | [] => [text]
      | _ :: rest => text.takeWhile (· != separator) :: splitn separator (n + 1) rest

/-- The name in a line of the names file that is about the user's handle. -/
def nameIn (user handle line : Text) : Option Text :=
  let fields := splitn '\t' 3 line
  if fields[0]? = some user ∧ fields[1]? = some handle then some (fields[2]?.getD []) else none

def namesFor (f : Files) (user : Text) : List Text :=
  (handlesFor f user).mapIdx fun index handle =>
    (((lines (readOptional f.names)).findSome? (nameIn user handle)).filter (· ≠ [])).getD
      ("Android device ".toList ++ (toString (index + 1)).toList)

/-! ### What is registered -/

/-- The Cc category, as `char::is_control` reads it. -/
def isControl (c : Char) : Bool :=
  c.toNat < 0x20 || (0x7F ≤ c.toNat && c.toNat ≤ 0x9F)

/-- A condition on each character of a given text is checked one by one. -/
theorem forall_of_all {P : Char → Prop} [DecidablePred P] {text : Text}
    (h : (text.all fun c => P c) = true) : ∀ c ∈ text, P c :=
  fun c hc => of_decide_eq_true (List.all_eq_true.mp h c hc)

structure User where
  text : Text
  nonempty : text ≠ []
  colon : ':' ∉ text
  plain : ∀ c ∈ text, isControl c = false
  deriving DecidableEq

/-- A key with its name: what `pamu2fcfg` gave for it, without its leading
colon, is the handle, the public key, the kind and the attributes. -/
structure Registration where
  handle : Text
  key : Text
  attributes : Text
  name : Text
  id : Bytes
  point : Bytes
  decodedId : base64 handle = some id
  idNonempty : id ≠ []
  decodedKey : base64 key = some point
  attributesPlain : ∀ c ∈ attributes, c ≠ ':' ∧ isControl c = false
  nameNonempty : name ≠ []
  namePlain : ∀ c ∈ name, isControl c = false

namespace Registration

def entry (e : Registration) : Text :=
  e.handle ++ ',' :: (e.key ++ ',' :: ("es256".toList ++ ',' :: e.attributes))

/-- The credential as it is stored. -/
def stored (e : Registration) : Text :=
  ':' :: e.entry

/-- What the PAM helper is to make of it. -/
def credential (e : Registration) : Credential where
  id := e.id
  key := e.point
  verification := contains (e.attributes.takeWhile (· != ',')) "+verification".toList

/-- A digit of base64 is no separator and no control character. -/
theorem base64_plain {text : Text} {bytes : Bytes} (h : base64 text = some bytes) {c : Char}
    (hc : c ∈ text) : c ≠ ',' ∧ c ≠ ':' ∧ isControl c = false := by
  obtain ⟨hlow, hhigh, hcomma, hcolon⟩ := base64_bounds h hc
  refine ⟨hcomma, hcolon, ?_⟩
  have hnot : ¬ (c.toNat < 0x20 ∨ 0x7F ≤ c.toNat ∧ c.toNat ≤ 0x9F) := by omega
  simpa [isControl] using hnot

theorem entry_plain (e : Registration) {c : Char} (hc : c ∈ e.entry) :
    c ≠ ':' ∧ isControl c = false := by
  simp only [entry, List.mem_append, List.mem_cons] at hc
  rcases hc with hhandle | rfl | hkey | rfl | hkind | rfl | hattributes
  · exact (base64_plain e.decodedId hhandle).2
  · decide
  · exact (base64_plain e.decodedKey hkey).2
  · decide
  · have hall : ∀ c ∈ "es256".toList, c ≠ ':' ∧ isControl c = false := forall_of_all (by decide)
    exact hall c hkind
  · decide
  · exact e.attributesPlain c hattributes

theorem handle_nonempty (e : Registration) : e.handle ≠ [] := by
  intro hempty
  have hid := e.decodedId
  rw [hempty] at hid
  exact e.idNonempty (Option.some.inj hid).symm

end Registration

theorem splitOn_cons {c : Char} {first : Text} (rest : Text) (h : c ∉ first) :
    (first ++ c :: rest).splitOn c = first :: rest.splitOn c := by
  rw [List.splitOn_append_cons_self, List.splitOn_eq_singleton h, List.singleton_append]

/-- The first piece of a split text. -/
theorem splitOn_first (c : Char) (text : Text) :
    (text.splitOn c)[0]? = some (text.takeWhile (· != c)) := by
  induction text with
  | nil => rfl
  | cons x rest ih =>
      rw [List.splitOn_cons_eq_if_modifyHead]
      by_cases hx : x = c
      · simp [hx]
      · have hmodify (pieces : List Text) :
            (pieces.modifyHead (x :: ·))[0]? = pieces[0]?.map (x :: ·) := by
          cases pieces <;> rfl
        simp [hx, hmodify, ih]

namespace Registration

/-- The fields of an entry. -/
theorem splitOn_entry (e : Registration) :
    e.entry.splitOn ',' = e.handle :: e.key :: "es256".toList :: e.attributes.splitOn ',' := by
  have hhandle : ',' ∉ e.handle := fun h => (base64_plain e.decodedId h).1 rfl
  have hkey : ',' ∉ e.key := fun h => (base64_plain e.decodedKey h).1 rfl
  rw [entry, splitOn_cons _ hhandle, splitOn_cons _ hkey, splitOn_cons _ (by decide)]

theorem credential_entry (e : Registration) : Pam.credential e.entry = some e.credential := by
  have hverification := splitOn_first ',' e.attributes
  simp [Pam.credential, splitOn_entry, e.decodedId, e.decodedKey, e.idNonempty, hverification,
    credential]

end Registration

/-! ### The lines of the two files -/

/-- The credentials of a line, after the user and a colon. -/
def body (es : List Registration) : Text :=
  [':'].intercalate (es.map Registration.entry)

def keyLine (x : User × List Registration) : Text :=
  x.1.text ++ x.2.flatMap Registration.stored

def nameLine (x : User × Registration) : Text :=
  x.1.text ++ '\t' :: (x.2.handle ++ '\t' :: x.2.name)

theorem flatMap_stored {es : List Registration} (hne : es ≠ []) :
    es.flatMap Registration.stored = ':' :: body es := by
  induction es with
  | nil => exact absurd rfl hne
  | cons e rest ih =>
      cases rest with
      | nil => simp [body, Registration.stored]
      | cons next rest =>
          rw [List.flatMap_cons, ih (List.cons_ne_nil next rest)]
          simp [body, Registration.stored, List.intercalate_cons_cons]

theorem keyLine_eq {u : User} {es : List Registration} (hne : es ≠ []) :
    keyLine (u, es) = u.text ++ ':' :: body es := by
  rw [keyLine, flatMap_stored hne]

theorem splitOn_body {es : List Registration} (hne : es ≠ []) :
    (body es).splitOn ':' = es.map Registration.entry := by
  refine List.splitOn_intercalate ':' (fun entry hentry hcolon => ?_) (by simpa using hne)
  obtain ⟨e, -, rfl⟩ := List.mem_map.mp hentry
  exact (e.entry_plain hcolon).1 rfl

/-- What a file of lines without carriage returns is read as. -/
theorem lines_plain {ls : List Text} (h : ∀ line ∈ ls, '\n' ∉ line ∧ '\r' ∉ line) :
    lines (unlines ls) = ls := by
  rw [lines_unlines fun line hline => (h line hline).1]
  exact map_chomp fun line hline hend => (h line hline).2 (List.mem_of_getLast? hend)

theorem keyLine_plain (x : User × List Registration) {c : Char} (hc : c ∈ keyLine x) :
    isControl c = false := by
  rcases List.mem_append.mp hc with huser | hcredentials
  · exact x.1.plain c huser
  · obtain ⟨e, -, he⟩ := List.mem_flatMap.mp hcredentials
    rcases List.mem_cons.mp he with rfl | hentry
    · decide
    · exact (e.entry_plain hentry).2

theorem nameLine_plain (x : User × Registration) {c : Char} (hc : c ∈ nameLine x) :
    c = '\t' ∨ isControl c = false := by
  simp only [nameLine, List.mem_append, List.mem_cons] at hc
  rcases hc with huser | htab | hhandle | htab | hname
  · exact .inr (x.1.plain c huser)
  · exact .inl htab
  · exact .inr (Registration.base64_plain x.2.decodedId hhandle).2.2
  · exact .inl htab
  · exact .inr (x.2.namePlain c hname)

theorem lines_keys (m : Multimap User Registration) :
    lines (unlines (m.map keyLine)) = m.map keyLine := by
  refine lines_plain fun line hline => ?_
  obtain ⟨x, -, rfl⟩ := List.mem_map.mp hline
  exact ⟨fun h => absurd (keyLine_plain x h) (by decide),
    fun h => absurd (keyLine_plain x h) (by decide)⟩

theorem lines_names (order : List (User × Registration)) :
    lines (unlines (order.map nameLine)) = order.map nameLine := by
  refine lines_plain fun line hline => ?_
  obtain ⟨x, -, rfl⟩ := List.mem_map.mp hline
  exact ⟨fun h => absurd (nameLine_plain x h) (by decide),
    fun h => absurd (nameLine_plain x h) (by decide)⟩

/-! ### Whose line it is -/

theorem dropPrefix_iff {line first rest : Text} :
    line.dropPrefix? first = some rest ↔ line = first ++ rest := by
  simp [List.dropPrefix?_eq_some_iff]

/-- A text before a colon is cut off together with the colon. -/
theorem dropPrefix_colon (line first : Text) :
    ((line.dropPrefix? first).bind fun rest => rest.dropPrefix? [':'])
      = line.dropPrefix? (first ++ [':']) := by
  ext rest
  simp [Option.bind_eq_some_iff, dropPrefix_iff]

/-- Users of the one name and of a longer one do not share a line. -/
theorem dropPrefix_user (u v : User) (rest : Text) :
    (v.text ++ ':' :: rest).dropPrefix? (u.text ++ [':']) = if v = u then some rest else none := by
  split
  · rename_i hsame
    simp [dropPrefix_iff, hsame]
  · rename_i hother
    refine Option.eq_none_iff_forall_ne_some.mpr fun rest' hrest => hother ?_
    have hsplit : v.text ++ ':' :: rest = u.text ++ ':' :: rest' := by
      simpa using dropPrefix_iff.mp hrest
    have hfields := congrArg (List.splitOn ':') hsplit
    rw [splitOn_cons _ v.colon, splitOn_cons _ u.colon] at hfields
    cases u
    cases v
    simpa using (List.cons.inj hfields).1

/-! ### What the readers find -/

/-- The files hold the map: a line of the key file for each user, and a line of
the names file for each registration, in an order that is each user's own. -/
structure Represents (f : Files) (m : Multimap User Registration) : Prop where
  keys : readOptional f.keys = unlines (m.map keyLine)
  proper : m.Proper
  handles : ∀ u, ((m.values u).map Registration.handle).Nodup
  names : ∃ order : List (User × Registration),
    readOptional f.names = unlines (order.map nameLine) ∧
    ∀ u, (order.filter fun x => x.1 = u).map Prod.snd = m.values u

/-- Only a user with registrations has a line, and only one. -/
theorem filterMap_keys {m : Multimap User Registration} (hproper : m.Proper) (u : User) :
    (m.map keyLine).filterMap (fun line => line.dropPrefix? (u.text ++ [':']))
      = if m.values u = [] then [] else [body (m.values u)] := by
  induction m with
  | nil => rfl
  | cons x rest ih =>
      have hrest := ih hproper.tail
      have hne := hproper.values x List.mem_cons_self
      rw [List.map_cons, List.filterMap_cons, keyLine_eq hne, dropPrefix_user, Multimap.values]
      by_cases hx : x.1 = u
      · have hnone : Multimap.values u rest = [] := Multimap.values_of_notMem (hx ▸ hproper.notMem)
        simp [hx, hrest, hnone, hne]
      · simp [hx, hrest]

section Readers

variable {f : Files} {m : Multimap User Registration}

theorem handlesFor_eq (h : Represents f m) (u : User) :
    handlesFor f u.text = (m.values u).map Registration.handle := by
  have hfind : (lines (readOptional f.keys)).findSome?
      (fun line => line.dropPrefix? (u.text ++ [':']))
      = if m.values u = [] then none else some (body (m.values u)) := by
    rw [h.keys, lines_keys, ← List.head?_filterMap, filterMap_keys h.proper u]
    split <;> rfl
  rw [handlesFor, hfind]
  split
  · rename_i hnone
    rw [hnone]
    rfl
  · rename_i hne
    have hfields : ((m.values u).map Registration.entry).filterMap
        (fun credential => (credential.splitOn ',')[0]?)
        = (m.values u).map Registration.handle := by
      rw [List.filterMap_map]
      exact List.filterMap_eq_map_iff_forall_eq_some.mpr fun e _ => by simp [e.splitOn_entry]
    rw [Option.getD_some, splitOn_body hne, hfields, List.filter_eq_self]
    intro handle hhandle
    obtain ⟨e, -, rfl⟩ := List.mem_map.mp hhandle
    exact decide_eq_true e.handle_nonempty

theorem credentials_eq (h : Represents f m) (u : User) :
    credentials (readOptional f.keys) u.text = (m.values u).map Registration.credential := by
  rw [credentials, h.keys, lines_keys]
  simp only [dropPrefix_colon]
  rw [filterMap_keys h.proper u]
  split
  · rename_i hnone
    rw [hnone]
    rfl
  · rename_i hne
    rw [List.flatMap_singleton, splitOn_body hne, List.filterMap_map]
    exact List.filterMap_eq_map_iff_forall_eq_some.mpr fun e _ => e.credential_entry

theorem body_nonempty {es : List Registration} (hne : es ≠ []) : body es ≠ [] := by
  intro hempty
  have hfields := splitOn_body hne
  rw [hempty, List.splitOn_nil] at hfields
  obtain ⟨e, -, he⟩ := List.mem_map.mp (hfields ▸ List.mem_singleton_self [])
  simp [Registration.entry] at he

/-- A line registers the user if something follows the user and a colon. -/
theorem registers_eq (line user : Text) :
    (match line.dropPrefix? user with
      | some (':' :: credentials) => !credentials.isEmpty
      | _ => false) = (line.dropPrefix? (user ++ [':'])).any (!·.isEmpty) := by
  rw [← dropPrefix_colon]
  cases line.dropPrefix? user with
  | none => rfl
  | some rest =>
      cases rest with
      | nil => rfl
      | cons c credentials =>
          by_cases hcolon : c = ':'
          · subst hcolon
            have hdrop : (':' :: credentials).dropPrefix? [':'] = some credentials :=
              dropPrefix_iff.mpr rfl
            simp [hdrop]
          · have hdrop : (c :: credentials).dropPrefix? [':'] = none := by
              refine Option.eq_none_iff_forall_ne_some.mpr fun rest hrest => hcolon ?_
              exact (List.cons.inj (dropPrefix_iff.mp hrest)).1
            simp [hdrop, hcolon]

theorem userRegistered_eq (h : Represents f m) (u : User) :
    userRegistered f.keys u.text ↔ m.values u ≠ [] := by
  have hkeys : userRegistered f.keys u.text
      = (if m.values u = [] then [] else [body (m.values u)]).any (!·.isEmpty) := by
    have hfile : userRegistered f.keys u.text
        = (lines (readOptional f.keys)).any fun line =>
            (line.dropPrefix? (u.text ++ [':'])).any (!·.isEmpty) := by
      unfold userRegistered
      cases hkeys : f.keys with
      | none => rfl
      | some text => exact List.any_congr rfl fun line => registers_eq line u.text
    rw [hfile, h.keys, lines_keys, ← filterMap_keys h.proper u, List.any_filterMap]
    rfl
  rw [hkeys]
  by_cases hnone : m.values u = []
  · simp [hnone]
  · simpa [hnone] using body_nonempty hnone

/-- A user has at most one line in the key file. -/
theorem one_line (h : Represents f m) (u : User) :
    ((lines (readOptional f.keys)).filter
      fun line => (u.text ++ [':']).isPrefixOf line).length ≤ 1 := by
  have hstarts (line : Text) : (u.text ++ [':']).isPrefixOf line
      = (line.dropPrefix? (u.text ++ [':'])).isSome := by
    rw [Bool.eq_iff_iff, List.isPrefixOf_iff_prefix, Option.isSome_iff_exists]
    simp only [dropPrefix_iff, List.prefix_iff_exists_eq_append]
  rw [← List.countP_eq_length_filter, List.countP_congr fun line _ => by rw [hstarts line],
    ← List.length_filterMap_eq_countP, h.keys, lines_keys, filterMap_keys h.proper u]
  split <;> simp

/-! ### Names -/

theorem splitn_cons {c : Char} {first : Text} (n : Nat) (rest : Text) (h : c ∉ first) :
    splitn c (n + 2) (first ++ c :: rest) = first :: splitn c (n + 1) rest := by
  have hstop : ∀ x ∈ first, (x != c) = true := fun x hx => bne_iff_ne.mpr (ne_of_mem_of_not_mem hx h)
  rw [splitn, List.dropWhile_append_of_pos hstop, List.takeWhile_append_of_pos hstop]
  simp

theorem User.text_inj (u v : User) : u.text = v.text ↔ u = v := by
  cases u
  cases v
  simp

/-- Neither a user nor a handle has a tab in it. -/
theorem tab_nameLine (x : User × Registration) : '\t' ∉ x.1.text ∧ '\t' ∉ x.2.handle :=
  ⟨fun h => absurd (x.1.plain _ h) (by decide),
    fun h => absurd (Registration.base64_plain x.2.decodedId h).2.2 (by decide)⟩

theorem nameIn_nameLine (u : User) (handle : Text) (x : User × Registration) :
    nameIn u.text handle (nameLine x)
      = if x.1 = u ∧ x.2.handle = handle then some x.2.name else none := by
  obtain ⟨huser, hhandle⟩ := tab_nameLine x
  rw [nameIn, nameLine, splitn_cons 1 _ huser, splitn_cons 0 _ hhandle, splitn]
  simp [User.text_inj]

/-- Only the user's own registrations are looked at, in their order. -/
theorem findSome_names {u : User} {handle : Text} (order : List (User × Registration)) :
    (order.map nameLine).findSome? (nameIn u.text handle)
      = ((order.filter fun x => x.1 = u).map Prod.snd).findSome? fun e =>
          if e.handle = handle then some e.name else none := by
  induction order with
  | nil => rfl
  | cons x rest ih =>
      rw [List.map_cons, List.findSome?_cons, nameIn_nameLine, ih]
      by_cases huser : x.1 = u
      · by_cases hhandle : x.2.handle = handle <;> simp [huser, hhandle]
      · simp [huser]

theorem findSome_handle {es : List Registration} (hnodup : (es.map Registration.handle).Nodup)
    {e : Registration} (he : e ∈ es) :
    (es.findSome? fun x => if x.handle = e.handle then some x.name else none) = some e.name := by
  induction es with
  | nil => cases he
  | cons first rest ih =>
      obtain ⟨hfirst, hrest⟩ := List.nodup_cons.mp hnodup
      rcases List.mem_cons.mp he with rfl | he
      · simp
      · have hne : first.handle ≠ e.handle := fun heq =>
          hfirst (heq ▸ List.mem_map_of_mem he)
        simpa [hne] using ih hrest he

theorem namesFor_eq (h : Represents f m) (u : User) :
    namesFor f u.text = (m.values u).map Registration.name := by
  obtain ⟨order, hnames, horder⟩ := h.names
  have hname (index : Nat) {e : Registration} (he : e ∈ m.values u) :
      (((lines (readOptional f.names)).findSome? (nameIn u.text e.handle)).filter (· ≠ [])).getD
        ("Android device ".toList ++ (toString (index + 1)).toList) = e.name := by
    rw [hnames, lines_names, findSome_names, horder, findSome_handle (h.handles u) he]
    simp [Option.filter, e.nameNonempty]
  rw [namesFor, handlesFor_eq h]
  refine List.ext_getElem (by simp) fun index hindex _ => ?_
  rw [List.getElem_mapIdx, List.getElem_map, List.getElem_map]
  exact hname index (List.getElem_mem _)

end Readers

/-! ### What the writers make of the files -/

section Writers

variable {f : Files} {m : Multimap User Registration}

theorem keyLine_nonempty (x : User × List Registration) : keyLine x ≠ [] := by
  simp [keyLine, x.1.nonempty]

theorem nameLine_nonempty (x : User × Registration) : nameLine x ≠ [] := by
  simp [nameLine]

theorem linesFile_keys (m : Multimap User Registration) :
    linesFile (m.map keyLine) = unlines (m.map keyLine) := by
  rw [linesFile, List.filter_eq_self.mpr]
  intro line hline
  obtain ⟨x, -, rfl⟩ := List.mem_map.mp hline
  exact decide_eq_true (keyLine_nonempty x)

theorem linesFile_names (order : List (User × Registration)) :
    linesFile (order.map nameLine) = unlines (order.map nameLine) := by
  rw [linesFile, List.filter_eq_self.mpr]
  intro line hline
  obtain ⟨x, -, rfl⟩ := List.mem_map.mp hline
  exact decide_eq_true (nameLine_nonempty x)

theorem isPrefixOf_keyLine (u : User) {x : User × List Registration} (hne : x.2 ≠ []) :
    (u.text ++ [':']).isPrefixOf (keyLine x) = decide (x.1 = u) := by
  rw [Bool.eq_iff_iff, List.isPrefixOf_iff_prefix, List.prefix_iff_exists_eq_append,
    decide_eq_true_iff]
  simp only [← dropPrefix_iff]
  rw [keyLine_eq hne, dropPrefix_user]
  by_cases hsame : x.1 = u <;> simp [hsame]

theorem pushCredential_keys (hproper : m.Proper) (u : User) (e : Registration) :
    (pushCredential u.text e.stored (m.map keyLine)).getD (m.map keyLine ++ [u.text ++ e.stored])
      = (m.add u e).map keyLine := by
  induction m with
  | nil => simp [pushCredential, Multimap.add, keyLine]
  | cons x rest ih =>
      rw [List.map_cons, pushCredential, isPrefixOf_keyLine u (hproper.values x List.mem_cons_self),
        Multimap.add]
      by_cases hx : x.1 = u
      · simp [hx, keyLine]
      · have hrest := ih hproper.tail
        simp only [hx, decide_false, Bool.false_eq_true, if_false, List.map_cons]
        rw [← hrest]
        cases pushCredential u.text e.stored (rest.map keyLine) <;> rfl

theorem unlines_append (ls more : List Text) : unlines (ls ++ more) = unlines ls ++ unlines more :=
  List.flatMap_append

/-- The handle of a credential that is to be stored. -/
theorem handle_stored (e : Registration) :
    ((e.stored.dropWhile (· == ':')).splitOn ',')[0]? = some e.handle := by
  have hkept : e.entry.dropWhile (· == ':') = e.entry := by
    cases hentry : e.entry with
    | nil => rfl
    | cons c rest =>
        have hc : c ≠ ':' := (e.entry_plain (hentry ▸ List.mem_cons_self)).1
        simp [hc]
  have hdrop : e.stored.dropWhile (· == ':') = e.entry := hkept
  rw [hdrop, e.splitOn_entry]
  rfl

theorem name_plain (e : Registration) : e.name.any (['\t', '\n', '\r'].contains ·) = false := by
  rw [List.any_eq_false]
  intro c hc hcontrol
  have hplain := e.namePlain c hc
  have hcases : c = '\t' ∨ c = '\n' ∨ c = '\r' := by simpa using hcontrol
  rcases hcases with rfl | rfl | rfl <;> exact absurd hplain (by decide)

/-- Storing appends the registration to those of the user. -/
theorem rootStore_ok (h : Represents f m) {u : User} {e : Registration} {input : Text}
    {rest : List Text} (hinput : lines input = e.stored :: e.name :: rest)
    (hnew : e.handle ∉ handlesFor f u.text) :
    ∃ f', rootStore u.text input f = .ok f' ∧ Represents f' (m.add u e) := by
  obtain ⟨order, hnames, horder⟩ := h.names
  have hkeys : (lines (readOptional f.keys)).filter (· ≠ []) = m.map keyLine := by
    rw [h.keys, lines_keys, List.filter_eq_self]
    intro line hline
    obtain ⟨x, -, rfl⟩ := List.mem_map.mp hline
    exact decide_eq_true (keyLine_nonempty x)
  have hstored : rootStore u.text input f = .ok {
      keys := some (unlines ((m.add u e).map keyLine))
      names := some (unlines ((order ++ [(u, e)]).map nameLine)) } := by
    have hcolon : [':'].isPrefixOf e.stored = true := by simp [Registration.stored]
    rw [rootStore, hinput]
    simp only [hcolon, name_plain, handle_stored, hkeys, pushCredential_keys h.proper,
      linesFile_keys, hnames, lines_names, linesFile_names, List.map_append, unlines_append]
    simp [unlines, nameLine]
  refine ⟨_, hstored, rfl, h.proper.add, fun v => ?_, order ++ [(u, e)], rfl, fun v => ?_⟩
  · rw [Multimap.values_add]
    split
    · rename_i hv
      rw [handlesFor_eq h, ← hv] at hnew
      rw [List.map_append, List.map_singleton]
      exact List.nodup_append'.mpr ⟨h.handles v, List.nodup_singleton _,
        List.disjoint_singleton.mpr hnew⟩
    · exact h.handles v
  · rw [Multimap.values_add, List.filter_append, List.map_append, horder]
    by_cases hv : v = u
    · simp [hv]
    · simp [hv, Ne.symm hv]

/-- A line of the user loses the credentials with the handle. -/
theorem withoutHandle_keyLine (u : User) (handle : Text) {x : User × List Registration}
    (hne : x.2 ≠ []) :
    withoutHandle u.text handle (keyLine x)
      = if x.1 = u then
          if x.2.filter (fun e => decide (e.handle ≠ handle)) = [] then none
          else some (keyLine (x.1, x.2.filter fun e => decide (e.handle ≠ handle)))
        else some (keyLine x) := by
  rw [withoutHandle, isPrefixOf_keyLine u hne]
  by_cases hx : x.1 = u
  · have hfields : (keyLine x).splitOn ':' = x.1.text :: x.2.map Registration.entry := by
      rw [keyLine_eq hne, splitOn_cons _ x.1.colon, splitOn_body hne]
    have hkept : (x.2.map Registration.entry).filter
        (fun credential => decide ((credential.splitOn ',')[0]? ≠ some handle))
        = (x.2.filter fun e => decide (e.handle ≠ handle)).map Registration.entry := by
      rw [List.filter_map]
      refine congrArg _ (List.filter_congr fun e _ => ?_)
      simp [e.splitOn_entry]
    simp only [hx, decide_true, Bool.not_true, Bool.false_eq_true, if_false, if_true, hfields,
      List.tail_cons, hkept, List.map_eq_nil_iff]
    split
    · rfl
    · rename_i hsome
      rw [keyLine_eq hsome]
      simp [body]
  · simp [hx]

theorem filterMap_withoutHandle (hproper : m.Proper) (u : User) (handle : Text) :
    (m.map keyLine).filterMap (withoutHandle u.text handle)
      = (m.keep u fun e => decide (e.handle ≠ handle)).map keyLine := by
  induction m with
  | nil => rfl
  | cons x rest ih =>
      rw [List.map_cons, List.filterMap_cons,
        withoutHandle_keyLine u handle (hproper.values x List.mem_cons_self),
        ih hproper.tail, Multimap.keep]
      by_cases hx : x.1 = u
      · by_cases hnone : x.2.filter (fun e => decide (e.handle ≠ handle)) = []
        · simp only [hx, hnone, if_true]
        · simp only [hx, hnone, if_true, if_false, List.map_cons]
      · simp only [hx, if_false, List.map_cons]

theorem namesOther_nameLine (u : User) (handle : Text) (x : User × Registration) :
    namesOther u.text handle (nameLine x) = decide (¬ (x.1 = u ∧ x.2.handle = handle)) := by
  obtain ⟨huser, hhandle⟩ := tab_nameLine x
  have hsame := User.text_inj x.1 u
  rw [namesOther, nameLine, splitOn_cons _ huser, splitOn_cons _ hhandle]
  by_cases hu : x.1 = u <;> by_cases hh : x.2.handle = handle <;> simp [hsame, hu, hh]

/-- Removing deletes the registration with the handle, if the user has one. -/
theorem rootRemove_ok (h : Represents f m) (u : User) (handle : Text) :
    Represents ((rootRemove u.text handle f).toOption.getD f)
      (m.keep u fun e => decide (e.handle ≠ handle)) := by
  obtain ⟨order, hnames, horder⟩ := h.names
  have hhandles (v : User) :
      (((m.keep u fun e => decide (e.handle ≠ handle)).values v).map Registration.handle).Nodup := by
    rw [Multimap.values_keep h.proper]
    split
    · exact (h.handles v).sublist (List.filter_sublist.map _)
    · exact h.handles v
  have hfile := h.keys
  cases hkeys : f.keys with
  | none =>
      have hempty : m = [] := by
        rw [hkeys] at hfile
        cases m with
        | nil => rfl
        | cons x rest => simp [readOptional, unlines] at hfile
      rw [rootRemove, hkeys]
      subst hempty
      exact h
  | some keys =>
      rw [hkeys] at hfile
      have hremoved : rootRemove u.text handle f = .ok {
          keys := some (unlines ((m.keep u fun e => decide (e.handle ≠ handle)).map keyLine))
          names := some (unlines
            ((order.filter fun x => decide (¬ (x.1 = u ∧ x.2.handle = handle))).map nameLine)) } := by
        have hkeysLines : lines keys = m.map keyLine := by
          rw [← lines_keys, ← hfile]
          rfl
        have hnamesLines : (order.map nameLine).filter (namesOther u.text handle)
            = (order.filter fun x =>
                decide (¬ (x.1 = u ∧ x.2.handle = handle))).map nameLine := by
          rw [List.filter_map]
          exact congrArg _ (List.filter_congr fun x _ => namesOther_nameLine u handle x)
        rw [rootRemove, hkeys]
        simp only [hkeysLines, filterMap_withoutHandle h.proper, linesFile_keys, hnames,
          lines_names, hnamesLines, linesFile_names]
      rw [hremoved]
      refine ⟨rfl, h.proper.keep, hhandles, _, rfl, fun v => ?_⟩
      rw [Multimap.values_keep h.proper, ← horder v, List.filter_filter]
      by_cases hv : v = u
      · rw [if_pos hv, List.filter_map, List.filter_filter]
        refine congrArg _ (List.filter_congr fun x _ => ?_)
        by_cases hx : x.1 = u <;> simp [hv, hx]
      · rw [if_neg hv]
        refine congrArg _ (List.filter_congr fun x _ => ?_)
        by_cases hx : x.1 = v
        · simp [hx, hv]
        · simp [hx]

end Writers

/-! ### Any run of the two commands -/

inductive Call where
  | store (u : User) (e : Registration) (input : Text)
  | remove (u : User) (handle : Text)

/-- A command that fails leaves the files as they are. -/
def Call.run (f : Files) : Call → Files
  | .store u _ input => (rootStore u.text input f).toOption.getD f
  | .remove u handle => (rootRemove u.text handle f).toOption.getD f

/-- What is stored is the registration, with a handle that is new to the user. -/
def Call.Valid (f : Files) : Call → Prop
  | .store u e input =>
      (∃ rest, lines input = e.stored :: e.name :: rest) ∧ e.handle ∉ handlesFor f u.text
  | .remove _ _ => True

/-- What a command does to the registrations of each user. -/
def Call.apply (listed : User → List Registration) : Call → User → List Registration
  | .store u e _ => Function.update listed u (listed u ++ [e])
  | .remove u handle =>
      Function.update listed u ((listed u).filter fun e => decide (e.handle ≠ handle))

def command : Next Files Call := fun f call => some (call.run f)

def observeCommand (_ : Files) (call : Call) (_ : Files)
    (listed : User → List Registration) : User → List Registration :=
  call.apply listed

/-- What the readers make of the files for a user with these registrations. -/
structure Lists (f : Files) (u : User) (es : List Registration) : Prop where
  line : ((lines (readOptional f.keys)).filter
    fun line => (u.text ++ [':']).isPrefixOf line).length ≤ 1
  handles : handlesFor f u.text = es.map Registration.handle
  names : namesFor f u.text = es.map Registration.name
  credentials : credentials (readOptional f.keys) u.text = es.map Registration.credential
  registered : userRegistered f.keys u.text ↔ es ≠ []

/-- Each command does to the map in the files what it does to the registrations. -/
theorem Call.represents {f : Files} {listed : User → List Registration} {call : Call}
    (hvalid : call.Valid f)
    (h : ∃ m, Represents f m ∧ ∀ u, m.values u = listed u) :
    ∃ m, Represents (call.run f) m ∧ ∀ u, m.values u = call.apply listed u := by
  obtain ⟨m, hm, hvalues⟩ := h
  cases call with
  | store u e input =>
      obtain ⟨⟨rest, hinput⟩, hnew⟩ := hvalid
      obtain ⟨f', hok, hf'⟩ := rootStore_ok hm hinput hnew
      refine ⟨m.add u e, by rwa [Call.run, hok], fun v => ?_⟩
      rw [Multimap.values_add, Call.apply, Function.update_apply, hvalues]
      by_cases hv : v = u <;> simp [hv]
  | remove u handle =>
      refine ⟨_, rootRemove_ok hm u handle, fun v => ?_⟩
      rw [Multimap.values_keep hm.proper, Call.apply, Function.update_apply, hvalues]
      by_cases hv : v = u <;> simp [hv]

/-- From empty files on, whatever was stored and removed: every reader finds
exactly the user's registrations that are left, in their order. -/
theorem registrations_refine {f₀ f : Files} {listed : User → List Registration}
    (hkeys : readOptional f₀.keys = []) (hnames : readOptional f₀.names = [])
    (hrun : Reach (watch command observeCommand) (fun x call => call.Valid x.1)
      (f₀, fun _ => []) (f, listed)) (u : User) :
    Lists f u (listed u) := by
  have hstart : Represents f₀ [] := {
    keys := hkeys
    proper := .nil
    handles := fun _ => List.nodup_nil
    names := ⟨[], hnames, fun _ => rfl⟩ }
  obtain ⟨m, hm, hvalues⟩ : ∃ m, Represents f m ∧ ∀ u, m.values u = listed u := by
    refine hrun.invariant (I := fun x => ∃ m, Represents x.1 m ∧ ∀ u, m.values u = x.2 u)
      ⟨[], hstart, fun _ => rfl⟩ fun x call y hx hvalid hcall => ?_
    obtain ⟨hnext, hlisted⟩ := watch_eq hcall
    rw [← Option.some.inj hnext, hlisted]
    exact Call.represents hvalid hx
  rw [← hvalues u]
  exact ⟨one_line hm u, handlesFor_eq hm u, namesFor_eq hm u, credentials_eq hm u,
    userRegistered_eq hm u⟩

/-- A registration with standard base64 texts. -/
def Registration.ofBytes (id point : Bytes) (attributes name : Text) (hid : id ≠ [])
    (hattributes : ∀ c ∈ attributes, c ≠ ':' ∧ isControl c = false) (hname : name ≠ [])
    (hplain : ∀ c ∈ name, isControl c = false) : Registration where
  handle := encode id
  key := encode point
  attributes := attributes
  name := name
  id := id
  point := point
  decodedId := base64_encode id
  idNonempty := hid
  decodedKey := base64_encode point
  attributesPlain := hattributes
  nameNonempty := hname
  namePlain := hplain

def me : User where
  text := "me".toList
  nonempty := by decide
  colon := by decide
  plain := forall_of_all (by decide)

def meeting : User where
  text := "meeting".toList
  nonempty := by decide
  colon := by decide
  plain := forall_of_all (by decide)

def phone : Registration :=
  .ofBytes [1, 2] [3] "+presence+verification".toList "Phone".toList (by decide)
    (forall_of_all (by decide)) (by decide) (forall_of_all (by decide))

def tablet : Registration :=
  .ofBytes [4] [5, 6] "+presence".toList "Tablet".toList (by decide)
    (forall_of_all (by decide)) (by decide) (forall_of_all (by decide))

def stdin (e : Registration) : Text :=
  unlines [e.stored, e.name]

/-- One user's name begins with the other's, and one key of two is removed. -/
theorem tablet_left : ∃ f, Lists f me [tablet] ∧ Lists f meeting [tablet] ∧
    credentials (readOptional f.keys) me.text = [⟨[4], [5, 6], false⟩] := by
  have hstored (u : User) (e : Registration) {x : Files × (User → List Registration)}
      (hrun : Reach (watch command observeCommand) (fun x call => call.Valid x.1)
        ({}, fun _ => []) x)
      (hinput : lines (stdin e) = [e.stored, e.name]) (hnew : e.handle ∉ handlesFor x.1 u.text) :
      Reach (watch command observeCommand) (fun x call => call.Valid x.1) ({}, fun _ => [])
        (Call.run x.1 (.store u e (stdin e)), Call.apply x.2 (.store u e (stdin e))) := by
    have hvalid : Call.Valid x.1 (.store u e (stdin e)) := ⟨⟨[], hinput⟩, hnew⟩
    exact hrun.tail hvalid rfl
  have hmeeting := hstored meeting tablet .refl (by decide) (by decide)
  have hphone := hstored me phone hmeeting (by decide) (by decide)
  have htablet := hstored me tablet hphone (by decide) (by decide)
  have hvalid (f : Files) : Call.Valid f (.remove me phone.handle) := trivial
  have hremoved := htablet.tail (hvalid _) rfl
  have hme := registrations_refine rfl rfl hremoved me
  exact ⟨_, hme, registrations_refine rfl rfl hremoved meeting, hme.credentials⟩

end Passkey.Cli

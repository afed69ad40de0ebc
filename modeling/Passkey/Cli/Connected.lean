import Passkey.Daemon.Listings
import Passkey.Phone.Encoding
import Passkey.Words

/-!
The id of a device on its way through two files: `publish` lists it in one, from
which `passkey add` reads it, and `root_use` puts it in the other, from which
the daemon reads which device a request is for. An id survives the way if there
is no white space in it.
-/

namespace Passkey.Cli

open Text Daemon.Connections

/-! ### Ids of devices -/

def isHexDigit (c : Char) : Bool :=
  c.isDigit || ('a' ≤ c && c ≤ 'f') || ('A' ≤ c && c ≤ 'F')

def isBtAddress (value : Text) : Bool :=
  let fields := value.splitOn ':'
  fields.length = 6 && fields.all fun field => field.length = 2 && field.all isHexDigit

def hex (bytes : Bytes) : Text :=
  bytes.flatMap fun v => [(v.toNat / 16).digitChar, (v.toNat % 16).digitChar]

/-- `String::from_utf8_lossy` reads a malformed sequence as Java does. -/
def fromUtf8Lossy : Bytes → Text :=
  Phone.Cbor.string

/-- The serials in the reply of the adb server. -/
def adbDevices (data : Bytes) : List Text :=
  (lines (fromUtf8Lossy data)).filterMap fun line => line.dropSuffix? "\tdevice".toList

/-- The address is what the phone has in its settings, in upper case. -/
def adbDeviceId (address serial : Text) : Text :=
  if isBtAddress address then address else "usb:".toList ++ serial

/-- What the daemon calls a device by. -/
inductive DeviceId : Text → Prop where
  | bluetooth {address : Text} (h : isBtAddress address = true) : DeviceId address
  | wifi (pin : Bytes) : DeviceId ("wifi:".toList ++ hex pin)
  | usb {data : Bytes} {serial : Text} (h : serial ∈ adbDevices data) (address : Text) :
      DeviceId (adbDeviceId address serial)

/-- The label that `Link::new` makes of the one it is given. -/
def label (given : Text) : Text :=
  [' '].intercalate (splitWhitespace given)

/-- A link that the daemon made. -/
structure Made (k : Link) : Prop where
  device : DeviceId k.device
  label : ∃ given, k.label = label given

/-! ### The two files -/

/-- The id and the label in a line. -/
def fields (line : Text) : Text × Text :=
  (splitOnce '\t' line).getD (line, line)

def connectedDevices (devices : Option Text) : List (Text × Text) :=
  (lines (devices.getD [])).filterMap fun line =>
    if (fields line).1 ≠ [] then some (fields line) else none

/-- What `root_use` leaves of the file. -/
def rootUse (device pid : Option Text) : Except String (Option Text) :=
  match device with
  | some device =>
      match pid with
      | none => .error "missing owner pid"
      | some pid => .ok (some (device ++ ' ' :: pid ++ ['\n']))
  | none => .ok none

/-- `running` says whether there is a directory of the process in /proc. -/
def chosenDevice (running : Nat → Bool) (use : Option Text) : Option Text := do
  let fields := splitWhitespace (← use)
  let device ← fields[0]?
  let pid ← parseUnsigned (2 ^ 32) (← fields[1]?)
  if running pid then some device else none

/-- A device of the list is read from the one file, survives the other, and is
the only one that is asked. -/
structure Survives (s : State) (l : Daemon.LinkId) : Prop where
  listed : connectedDevices (some s.listing) =
    s.byDevice.map fun l => ((s.link l).device, (s.link l).label)
  chosen : ∀ running pid, pid < 2 ^ 32 → running pid = true → ∃ use,
    rootUse (some (s.link l).device) (some (decimal pid)) = .ok use ∧
      chosenDevice running use = some (s.link l).device ∧
      ∀ (w : Daemon.Worker) (holders : List Text) (last : Option Text), w.devices = s.byDevice →
        w.chosen = chosenDevice running use →
          w.planRounds (fun l => (s.link l).device) holders last = [[l]]

/-! ### What an id is made of -/

theorem mem_isBtAddress {address : Text} (h : isBtAddress address = true) {c : Char}
    (hc : c ∈ address) : c = ':' ∨ isHexDigit c = true := by
  unfold isBtAddress at h
  rw [Bool.and_eq_true, List.all_eq_true] at h
  have hjoin : [':'].intercalate (address.splitOn ':') = address := List.intercalate_splitOn ':'
  rw [← hjoin] at hc
  refine (mem_intercalate hc).imp_right ?_
  rintro ⟨field, hfield, hmem⟩
  have hdigits := h.2 field hfield
  rw [Bool.and_eq_true, List.all_eq_true] at hdigits
  exact hdigits.2 c hmem

theorem isBtAddress_plain {address : Text} (h : isBtAddress address = true) {c : Char}
    (hcolon : c ≠ ':') (hdigit : isHexDigit c = false) : c ∉ address := by
  intro hc
  rcases mem_isBtAddress h hc with heq | hhex
  · exact hcolon heq
  · rw [hdigit] at hhex
    cases hhex

theorem mem_hex {pin : Bytes} {c : Char} (h : c ∈ hex pin) : ∃ n < 16, c = Nat.digitChar n := by
  obtain ⟨v, -, hc⟩ := List.mem_flatMap.mp h
  have hlt := v.toNat_lt
  rcases List.mem_cons.mp hc with rfl | hc
  · exact ⟨v.toNat / 16, by omega, rfl⟩
  · exact ⟨v.toNat % 16, by omega, List.mem_singleton.mp hc⟩

theorem adbDevices_newline {data : Bytes} {serial : Text} (h : serial ∈ adbDevices data) :
    '\n' ∉ serial := by
  obtain ⟨line, hline, hserial⟩ := List.mem_filterMap.mp h
  obtain ⟨suffix, rfl, -⟩ := List.dropSuffix?_eq_some_iff.mp hserial
  intro hmem
  exact notMem_lines hline (List.mem_append_left _ hmem)

/-- The adb server may list any serial on a line. -/
theorem mem_adbDevices {serial : Text} (h : '\n' ∉ serial) :
    serial ∈ adbDevices (Phone.Cbor.utf8 (serial ++ "\tdevice".toList ++ ['\n'])) := by
  have hline : '\n' ∉ serial ++ "\tdevice".toList := by
    intro hmem
    rcases List.mem_append.mp hmem with hserial | hsuffix
    · exact h hserial
    · exact absurd hsuffix (by decide)
  have hend : (serial ++ "\tdevice".toList).getLast? ≠ some '\r' := by
    rw [List.getLast?_append_of_ne_nil _ (by decide)]
    decide
  refine List.mem_filterMap.mpr ⟨serial ++ "\tdevice".toList, ?_, ?_⟩
  · rw [fromUtf8Lossy, Phone.Cbor.string_utf8, lines_append [] hline, chomp_eq hend]
    exact List.mem_cons_self
  · exact List.dropSuffix?_eq_some_iff.mpr ⟨_, rfl, BEq.rfl⟩

/-- A line of the file is one line. -/
theorem DeviceId.newline {id : Text} (h : DeviceId id) : '\n' ∉ id := by
  cases h with
  | bluetooth haddress => exact isBtAddress_plain haddress (by decide) (by decide)
  | wifi pin =>
      intro hmem
      rcases List.mem_append.mp hmem with hprefix | hpin
      · exact absurd hprefix (by decide)
      · obtain ⟨n, hn, hdigit⟩ := mem_hex hpin
        interval_cases n <;> exact absurd hdigit (by decide)
  | @usb data serial hserial address =>
      unfold adbDeviceId
      split
      · rename_i haddress
        exact isBtAddress_plain haddress (by decide) (by decide)
      · intro hmem
        rcases List.mem_append.mp hmem with hprefix | hrest
        · exact absurd hprefix (by decide)
        · exact adbDevices_newline hserial hrest

theorem isBtAddress_first {address : Text} (h : isBtAddress address = true) :
    ∃ c rest, address = c :: rest ∧ c ≠ '\t' := by
  cases address with
  | nil => cases h
  | cons c rest =>
      refine ⟨c, rest, rfl, ?_⟩
      intro htab
      exact isBtAddress_plain h (c := '\t') (by decide) (by decide) (htab ▸ List.mem_cons_self)

/-- An id does not begin with the separator of its line. -/
theorem DeviceId.first {id : Text} (h : DeviceId id) : ∃ c rest, id = c :: rest ∧ c ≠ '\t' := by
  cases h with
  | bluetooth haddress => exact isBtAddress_first haddress
  | wifi pin => exact ⟨'w', _, rfl, by decide⟩
  | usb _ address =>
      unfold adbDeviceId
      split
      · rename_i haddress
        exact isBtAddress_first haddress
      · exact ⟨'u', _, rfl, by decide⟩

theorem label_plain (given : Text) {c : Char} (hc : c ∈ label given) :
    c = ' ' ∨ isWhitespace c = false := by
  refine (mem_intercalate hc).imp_right ?_
  rintro ⟨field, hfield, hmem⟩
  exact (mem_splitWhitespace hfield).2 c hmem

/-! ### What is read back -/

/-- The line of a link, less its end. -/
def entry (k : Link) : Text :=
  k.device ++ '\t' :: k.label

theorem listing_unlines (s : State) :
    s.listing = unlines (s.byDevice.map fun l => entry (s.link l)) := by
  rw [listing_eq, unlines, List.flatMap_map, List.flatMap_def]
  rfl

theorem Made.label_plain {k : Link} (h : Made k) {c : Char} (hspace : c ≠ ' ')
    (hwhite : isWhitespace c = true) : c ∉ k.label := by
  obtain ⟨given, hlabel⟩ := h.label
  intro hc
  rw [hlabel] at hc
  rcases Cli.label_plain given hc with heq | hplain
  · exact hspace heq
  · rw [hwhite] at hplain
    cases hplain

theorem Made.entry_newline {k : Link} (h : Made k) : '\n' ∉ entry k := by
  intro hmem
  rcases List.mem_append.mp hmem with hdevice | hlabel
  · exact h.device.newline hdevice
  · rcases List.mem_cons.mp hlabel with htab | hlabel
    · cases htab
    · exact h.label_plain (by decide) (by decide) hlabel

theorem Made.entry_end {k : Link} (h : Made k) : (entry k).getLast? ≠ some '\r' := by
  intro hlast
  rw [entry, List.getLast?_append_of_ne_nil _ (List.cons_ne_nil _ _)] at hlast
  rcases List.mem_cons.mp (List.mem_of_getLast? hlast) with htab | hlabel
  · cases htab
  · exact h.label_plain (by decide) (by decide) hlabel

theorem Made.fields_first {k : Link} (h : Made k) :
    (fields (entry k)).1 ≠ [] ∧ '\t' ∉ (fields (entry k)).1 := by
  have htab : '\t' ∈ entry k := List.mem_append_right _ List.mem_cons_self
  obtain ⟨rest, hsplit⟩ := splitOnce_eq htab
  rw [fields, hsplit]
  refine ⟨?_, notMem_takeWhile _ _⟩
  obtain ⟨c, more, hdevice, hc⟩ := h.device.first
  simp [entry, hdevice, hc]

/-- The file is read link by link. -/
theorem connectedDevices_listing {s : State} (h : ∀ l ∈ s.byDevice, Made (s.link l)) :
    connectedDevices (some s.listing) = s.byDevice.map fun l => fields (entry (s.link l)) := by
  rw [connectedDevices, listing_unlines, Option.getD_some, lines_unlines, map_chomp,
    List.filterMap_map]
  · apply List.filterMap_eq_map_iff_forall_eq_some.mpr
    intro l hl
    exact if_pos (h l hl).fields_first.1
  · intro line hline
    obtain ⟨l, hl, rfl⟩ := List.mem_map.mp hline
    exact (h l hl).entry_end
  · intro line hline
    obtain ⟨l, hl, rfl⟩ := List.mem_map.mp hline
    exact (h l hl).entry_newline

theorem Made.fields_iff {k : Link} (h : Made k) :
    fields (entry k) = (k.device, k.label) ↔ '\t' ∉ k.device := by
  constructor
  · intro hfields
    have htab := h.fields_first.2
    rwa [hfields] at htab
  · intro htab
    rw [fields, entry, splitOnce_append htab]
    rfl

/-- The list of the file is that of the daemon if no id has a tab in it. -/
theorem listed_iff {s : State} (h : ∀ l ∈ s.byDevice, Made (s.link l)) :
    connectedDevices (some s.listing) =
      s.byDevice.map (fun l => ((s.link l).device, (s.link l).label)) ↔
        ∀ l ∈ s.byDevice, '\t' ∉ (s.link l).device := by
  rw [connectedDevices_listing h, List.map_inj_left]
  exact forall₂_congr fun l hl => (h l hl).fields_iff

/-- What `root_use` wrote is read as it was if the id is a word. -/
theorem chosen_word {id : Text} (hne : id ≠ []) (hword : ∀ c ∈ id, isWhitespace c = false)
    {running : Nat → Bool} {pid : Nat} (hpid : pid < 2 ^ 32) (hrunning : running pid = true) :
    chosenDevice running (some (id ++ ' ' :: decimal pid ++ ['\n'])) = some id := by
  have hfields : splitWhitespace (id ++ ' ' :: decimal pid ++ ['\n']) = [id, decimal pid] := by
    have hdigits : ∀ c ∈ decimal pid, isWhitespace c = false := fun c hc =>
      not_isWhitespace_of_isDigit (isDigit_of_mem_decimal hc)
    rw [List.append_assoc, List.cons_append, splitWhitespace_append hne hword (by decide),
      splitWhitespace_append (decimal_ne_nil pid) hdigits (by decide)]
    rfl
  simp only [chosenDevice, Option.bind_eq_bind, Option.bind_some, hfields,
    List.getElem?_cons_zero, List.getElem?_cons_succ, parseUnsigned_decimal hpid, hrunning, if_true]

/-- The daemon finds nothing but a word in the file. -/
theorem chosen_plain {running : Nat → Bool} {use : Option Text} {id : Text}
    (h : chosenDevice running use = some id) : ∀ c ∈ id, isWhitespace c = false := by
  unfold chosenDevice at h
  simp only [Option.bind_eq_bind, Option.bind_eq_some_iff] at h
  obtain ⟨text, -, device, hdevice, pidText, -, pid, -, hrunning⟩ := h
  obtain ⟨-, hsame⟩ := Option.ite_none_right_eq_some.mp hrunning
  obtain rfl := Option.some.inj hsame
  exact (mem_splitWhitespace (List.mem_of_getElem? hdevice)).2

/-- Only the link of the chosen device is asked. -/
theorem planRounds_chosen {s : State} {l : Daemon.LinkId} (hl : l ∈ s.byDevice) {w : Daemon.Worker}
    (holders : List Text) (last : Option Text) (hdevices : w.devices = s.byDevice)
    (hchosen : w.chosen = some (s.link l).device) :
    w.planRounds (fun l => (s.link l).device) holders last = [[l]] := by
  unfold Daemon.Worker.planRounds
  rw [hchosen, hdevices]
  dsimp only
  have hfind : s.byDevice.find? (fun k => (s.link k).device = (s.link l).device) = some l := by
    have hsome : (s.byDevice.find? fun k => (s.link k).device = (s.link l).device).isSome :=
      List.find?_isSome.mpr ⟨l, hl, decide_eq_true rfl⟩
    obtain ⟨k, hk⟩ := Option.isSome_iff_exists.mp hsome
    have hfound := List.find?_some hk
    have hdevice := of_decide_eq_true hfound
    have hnodup := (Daemon.firstOfDevice_nodup (fun l => (s.link l).device) []
      (s.liveLinks.insertionSort fun a b => (s.link a).priority ≤ (s.link b).priority)).2
    rw [hk, List.inj_on_of_nodup_map hnodup (List.mem_of_find?_eq_some hk) hl hdevice]
  rw [hfind]
  rfl

/-- For all links that the daemon made, a device of the list survives the way
through both files exactly if no id in the list has a tab in it and its own has
no white space. -/
theorem survives_iff {s : State} (h : ∀ l ∈ s.links, (s.link l).alive = true → Made (s.link l))
    {l : Daemon.LinkId} (hl : l ∈ s.byDevice) : Survives s l ↔
      (∀ k ∈ s.byDevice, '\t' ∉ (s.link k).device) ∧
        ∀ c ∈ (s.link l).device, isWhitespace c = false := by
  have hmade : ∀ l ∈ s.byDevice, Made (s.link l) := fun l hl =>
    h l (mem_byDevice hl).1 (mem_byDevice hl).2
  constructor
  · intro hsurvives
    refine ⟨(listed_iff hmade).mp hsurvives.listed, ?_⟩
    obtain ⟨use, -, hchosen, -⟩ := hsurvives.chosen (fun _ => true) 1 (by decide) rfl
    exact chosen_plain hchosen
  · rintro ⟨htabs, hword⟩
    refine ⟨(listed_iff hmade).mpr htabs, ?_⟩
    intro running pid hpid hrunning
    have hne : (s.link l).device ≠ [] := by
      obtain ⟨c, rest, hfirst, -⟩ := (hmade l hl).device.first
      rw [hfirst]
      exact List.cons_ne_nil _ _
    have hchosen := chosen_word hne hword hpid hrunning
    refine ⟨_, rfl, hchosen, ?_⟩
    intro w holders last hdevices hw
    rw [hchosen] at hw
    exact planRounds_chosen hl holders last hdevices hw

/-- One connected phone. -/
def oneLink (device given : Text) : State where
  link _ := {device, label := label given}
  links := [0]

theorem oneLink_byDevice (device given : Text) : (oneLink device given).byDevice = [0] := rfl

theorem bluetooth_survives : Survives (oneLink "00:11:22:AA:BB:CC".toList "My phone".toList) 0 := by
  have haddress : isBtAddress "00:11:22:AA:BB:CC".toList = true := by decide +kernel
  have hplain : ("00:11:22:AA:BB:CC".toList.all fun c => isWhitespace c = false) = true := by
    decide +kernel
  apply (survives_iff ?_ (by rw [oneLink_byDevice]; exact List.mem_singleton_self _)).mpr
  · rw [oneLink_byDevice]
    constructor
    · intro k _
      exact isBtAddress_plain haddress (by decide) (by decide)
    · intro c hc
      exact of_decide_eq_true (List.all_eq_true.mp hplain c hc)
  · intro l _ _
    exact ⟨.bluetooth haddress, _, rfl⟩

/-- A blank in the serial ends the id. -/
theorem serial_lost : ∃ s : State, (∀ l ∈ s.links, (s.link l).alive = true → Made (s.link l)) ∧
    ∃ l ∈ s.byDevice, ¬ Survives s l := by
  refine ⟨oneLink ("usb:".toList ++ "R5 (2)".toList) "Phone".toList, ?_, 0,
    List.mem_singleton_self _, ?_⟩
  · intro l _ _
    exact ⟨.usb (mem_adbDevices (by decide)) [], _, rfl⟩
  · intro hsurvives
    obtain ⟨use, -, hchosen, -⟩ := hsurvives.chosen (fun _ => true) 1 (by decide) rfl
    have hblank := chosen_plain hchosen ' ' (by decide +kernel)
    cases hblank

end Passkey.Cli

import Passkey.Addresses
import Passkey.Cli.Choices
import Passkey.Cli.Connected
import Passkey.Library.Triples
import Passkey.Utf8

/-!
The pairing of a computer with a phone over Wi-Fi. The phone shows a code with
the digest of its certificate and a secret; the computer reads it, keeps both
with the phone's address in a profile of two lines, and reads this back.
-/

namespace Passkey.Network.Wifi

open Net Text Library

open Cli (hex isHexDigit trim)

/-! ### The phone -/

/-- `%02x` and `{:02x}`. -/
def format02x (v : Nat) : Text :=
  List.replicate (2 - (Nat.toDigits 16 v).length) '0' ++ Nat.toDigits 16 v

/-- `WifiTransport.hex`. -/
def phoneHex (value : Bytes) : Text :=
  value.flatMap fun b => format02x b.toNat

def pairingCode (digest secret : Bytes) : Text :=
  "pk1:".toList ++ phoneHex digest ++ ":".toList ++ phoneHex secret

/-! ### The computer -/

def PORT : UInt16 := 40719

/-- A `[u8; 32]`. -/
abbrev Key := {bytes : Bytes // bytes.length = 32}

structure Peer where
  address : SocketAddr
  pin : Key
  secret : Key
  deriving DecidableEq

def isLocal : IpAddr → Bool
  | .v4 ip => ip.isPrivate || ip.isLinkLocal || ip.isLoopback
  | .v6 ip => ip.isUniqueLocal || ip.isUnicastLinkLocal || ip.isLoopback

def endpoint (value : Text) : Except String SocketAddr :=
  match (parseSocketAddr value).or ((parseIpAddr value).map fun ip => .new ip PORT) with
  | none => .error "use the phone's local IP address, optionally followed by :40719"
  | some address =>
      if !isLocal address.ip || address.port = 0 then
        .error "Wi-Fi requires a private/local IP address and a nonzero port"
      else .ok address

/-- `u8::from_str_radix` of base 16. -/
def fromStrRadix (text : Text) : Option UInt8 :=
  let digits := unsigned text
  if digits ≠ [] ∧ (digits.all (isDigit 16)) = true ∧ digitsValue 16 digits < 2 ^ 8 then
    some (UInt8.ofNat (digitsValue 16 digits))
  else none

/-- A byte from every two characters. -/
def pairs : Text → Option Bytes
  | high :: low :: rest => do
      let byte ← fromStrRadix [high, low]
      let bytes ← pairs rest
      return byte :: bytes
  | _ => some []

theorem length_pairs {text : Text} {bytes : Bytes} (h : pairs text = some bytes) :
    bytes.length = text.length / 2 := by
  induction text using pairs.induct generalizing bytes with
  | case1 high low rest ih =>
      simp only [pairs, Option.bind_eq_bind, Option.bind_eq_some_iff] at h
      obtain ⟨byte, -, more, hmore, heq⟩ := h
      cases heq
      rw [List.length_cons, ih hmore, List.length_cons, List.length_cons]
      omega
  | case2 text hshort =>
      rw [pairs] at h
      · cases h
        rcases text with _ | ⟨a, _ | ⟨b, rest⟩⟩
        · rfl
        · simp
        · exact (hshort a b rest rfl).elim
      · exact hshort

/-- A digit is no white space, no colon and no line feed. -/
theorem isHexDigit_range {c : Char} (h : isHexDigit c = true) :
    (48 ≤ c.toNat ∧ c.toNat ≤ 57) ∨ (65 ≤ c.toNat ∧ c.toNat ≤ 70) ∨
      (97 ≤ c.toNat ∧ c.toNat ≤ 102) := by
  have hle {a b : Char} : a ≤ b ↔ a.toNat ≤ b.toNat := UInt32.le_iff_toNat_le
  have hbounds : 'a'.toNat = 97 ∧ 'f'.toNat = 102 ∧ 'A'.toNat = 65 ∧ 'F'.toNat = 70 :=
    ⟨rfl, rfl, rfl, rfl⟩
  simp only [isHexDigit, Char.isDigit, Bool.or_eq_true, Bool.and_eq_true, decide_eq_true_eq,
    UInt32.le_iff_toNat_le, ge_iff_le, hle] at h
  rcases h with (hdigit | hlower) | hupper
  · exact .inl hdigit
  · omega
  · omega

theorem length_hexText {value : Text} (h : value.all isHexDigit = true) :
    (Utf8.bytes value).length = value.length :=
  Utf8.length_bytes fun c hc => by
    have hrange := isHexDigit_range (List.all_eq_true.mp h c hc)
    omega

def unhex (value : Text) : Except String Key :=
  if hvalue : (Utf8.bytes value).length = 64 ∧ value.all isHexDigit = true then
    match hpairs : pairs value with
    | some bytes => .ok ⟨bytes, by
        rw [length_pairs hpairs, ← length_hexText hvalue.2, hvalue.1]⟩
    | none => .error "invalid pairing code"
  else .error "pairing code must contain two 32-byte hexadecimal values"

def Peer.parse (address code : Text) : Except String Peer := do
  let address ← endpoint address
  let fields := (trim code).splitOn ':'
  if fields.length ≠ 3 ∨ fields.headD [] ≠ "pk1".toList then
    throw "expected the pk1:... pairing code copied from the phone"
  else
    let pin ← unhex (fields.getD 1 [])
    let secret ← unhex (fields.getD 2 [])
    return {address, pin, secret}

def Peer.id (peer : Peer) : Text :=
  hex peer.pin

def Peer.encode (peer : Peer) : Text :=
  peer.address.display ++ "\npk1:".toList ++ peer.id ++ ":".toList ++ hex peer.secret ++ "\n".toList

def Peer.decode (text : Text) : Except String Peer :=
  match lines text with
  | [address, code] => Peer.parse address code
  | _ => .error "invalid Wi-Fi profile"

/-- `root-wifi-add` up to the connection. Of a longer input no more is read than
shows that it is longer. -/
def rootWifiAdd (data : Text) : Except String Peer :=
  if (Utf8.bytes data).length > 512 then .error "Wi-Fi profile too long"
  else Peer.decode data

structure Metadata where
  isFile : Bool
  uid : Nat
  mode : Nat
  len : Nat

/-- What `load_from` does with one profile. -/
def loadProfile (m : Metadata) (text : Text) : Except String Peer :=
  if !m.isFile || m.uid ≠ 0 || m.mode &&& 0o077 ≠ 0 || m.len > 512 then
    .error "Wi-Fi profiles must be root-owned regular files with mode 0600"
  else Peer.decode text

/-! ### Hexadecimal -/

theorem all_hex (bytes : Bytes) : (hex bytes).all isHexDigit = true := by
  have hall : ∀ n < 16, isHexDigit n.digitChar = true := by
    decide
  apply List.all_eq_true.mpr
  intro c hc
  obtain ⟨n, hn, rfl⟩ := Cli.mem_hex hc
  exact hall n hn

theorem length_hex (bytes : Bytes) : (hex bytes).length = 2 * bytes.length := by
  induction bytes with
  | nil => rfl
  | cons v rest ih =>
      change (hex rest).length + 2 = _
      rw [ih, List.length_cons]
      omega

theorem pairs_hex (bytes : Bytes) : pairs (hex bytes) = some bytes := by
  have hall : ∀ n < 256, fromStrRadix [(n / 16).digitChar, (n % 16).digitChar]
      = some (UInt8.ofNat n) := by
    decide +kernel
  induction bytes with
  | nil => rfl
  | cons v rest ih =>
      have hbyte := hall v.toNat v.toNat_lt
      rw [UInt8.ofNat_toNat] at hbyte
      change pairs ((v.toNat / 16).digitChar :: (v.toNat % 16).digitChar :: hex rest) = _
      rw [pairs, hbyte, ih]
      rfl

/-- A key is read back as it was written. -/
theorem unhex_hex (key : Key) : unhex (hex key) = .ok key := by
  have hall := all_hex key
  have hlength : (Utf8.bytes (hex key)).length = 64 := by
    rw [length_hexText hall, length_hex, key.2]
  unfold unhex
  rw [dif_pos ⟨hlength, hall⟩]
  split
  · rename_i bytes hpairs
    obtain rfl := Option.some.inj ((pairs_hex key).symm.trans hpairs)
    rfl
  · rename_i hpairs
    cases (pairs_hex key).symm.trans hpairs

/-- The phone writes what the computer would. -/
theorem phoneHex_eq (value : Bytes) : phoneHex value = hex value := by
  have hall : ∀ n < 256, format02x n = [(n / 16).digitChar, (n % 16).digitChar] := by
    decide +kernel
  exact List.flatMap_congr fun b _ => hall b.toNat b.toNat_lt

/-! ### The code -/

def code (pin secret : Key) : Text :=
  "pk1:".toList ++ hex pin ++ ":".toList ++ hex secret

theorem code_eq (pin secret : Key) :
    code pin secret = "pk1:".toList ++ hex pin ++ ":".toList ++ hex secret := by
  delta code
  rfl

theorem pairingCode_eq (digest secret : Key) : pairingCode digest secret = code digest secret := by
  rw [code_eq, ← phoneHex_eq, ← phoneHex_eq]
  delta pairingCode
  rfl

theorem code_eq_intercalate (pin secret : Key) :
    code pin secret = [':'].intercalate ["pk1".toList, hex pin, hex secret] := by
  simp [code_eq, List.intercalate_cons_cons]

/-- The characters of a code. -/
theorem mem_code {pin secret : Key} {c : Char} (h : c ∈ code pin secret) :
    c ∈ ['p', 'k', ':'] ∨ isHexDigit c = true := by
  have hhex {key : Key} (hc : c ∈ hex key) : isHexDigit c = true :=
    List.all_eq_true.mp (all_hex key) c hc
  have hmark (hc : c ∈ ['p', 'k', '1', ':']) : c ∈ ['p', 'k', ':'] ∨ isHexDigit c = true := by
    simp only [List.mem_cons, List.not_mem_nil, or_false] at hc ⊢
    rcases hc with rfl | rfl | rfl | rfl
    · exact .inl (.inl rfl)
    · exact .inl (.inr (.inl rfl))
    · exact .inr rfl
    · exact .inl (.inr (.inr rfl))
  simp only [code_eq, List.mem_append] at h
  rcases h with ((hfront | hpin) | hcolon) | hsecret
  · exact hmark hfront
  · exact .inr (hhex hpin)
  · exact .inl (List.mem_cons_of_mem _ (List.mem_cons_of_mem _ hcolon))
  · exact .inr (hhex hsecret)

theorem code_ascii {pin secret : Key} {c : Char} (h : c ∈ code pin secret) :
    0x20 < c.toNat ∧ c.toNat < 0x7F := by
  rcases mem_code h with hmark | hdigit
  · simp only [List.mem_cons, List.not_mem_nil, or_false] at hmark
    rcases hmark with rfl | rfl | rfl <;> decide
  · have hrange := isHexDigit_range hdigit
    omega

theorem not_isWhitespace {c : Char} (h : 0x20 < c.toNat ∧ c.toNat < 0x7F) :
    isWhitespace c = false := by
  simp only [isWhitespace, Bool.or_eq_false_iff, Bool.and_eq_false_iff, decide_eq_false_iff_not,
    beq_eq_false_iff_ne]
  omega

theorem trim_eq {text : Text} (h : ∀ c ∈ text, isWhitespace c = false) : trim text = text := by
  have hstart : trimStart text = text := by
    apply List.dropWhile_eq_self_iff.mpr
    intro hlength
    simp [h _ (List.getElem_mem hlength)]
  rw [trim, hstart]
  apply List.rdropWhile_eq_self_iff.mpr
  intro hne
  simp [h _ (List.getLast_mem hne)]

theorem splitOn_code (pin secret : Key) :
    (code pin secret).splitOn ':' = ["pk1".toList, hex pin, hex secret] := by
  have hplain (key : Key) : ':' ∉ hex key := by
    intro hc
    cases List.all_eq_true.mp (all_hex key) ':' hc
  rw [code_eq_intercalate]
  apply List.splitOn_intercalate
  · intro field hfield
    simp only [List.mem_cons, List.not_mem_nil, or_false] at hfield
    rcases hfield with rfl | rfl | rfl
    · decide
    · exact hplain pin
    · exact hplain secret
  · simp

/-- The code of a phone is read as its digest and its secret. -/
theorem parse_code {value : Text} {address : SocketAddr} (h : endpoint value = .ok address)
    (pin secret : Key) : Peer.parse value (code pin secret) = .ok ⟨address, pin, secret⟩ := by
  have htrim : trim (code pin secret) = code pin secret :=
    trim_eq fun c hc => not_isWhitespace (code_ascii hc)
  unfold Peer.parse
  rw [h, htrim, splitOn_code]
  simp [bind, Except.bind, unhex_hex, pure, Except.pure]

/-! ### The profile -/

theorem endpoint_eq_ok {value : Text} {address : SocketAddr} (h : endpoint value = .ok address) :
    isLocal address.ip = true ∧ address.port ≠ 0 := by
  unfold endpoint at h
  split at h
  · cases h
  · split at h
    · cases h
    · rename_i hlocal
      cases h
      simpa using hlocal

/-- An address that was accepted is accepted as it is written. -/
theorem endpoint_display {value : Text} {address : SocketAddr} (h : endpoint value = .ok address) :
    endpoint address.display = .ok address := by
  obtain ⟨hlocal, hport⟩ := endpoint_eq_ok h
  unfold endpoint
  rw [parseSocketAddr_display, Option.some_or]
  simp [hlocal, hport]

theorem encode_eq (peer : Peer) :
    peer.encode = unlines [peer.address.display, code peer.pin peer.secret] := by
  simp [Peer.encode, unlines, code_eq, Peer.id]

theorem lines_encode (peer : Peer) :
    lines peer.encode = [peer.address.display, code peer.pin peer.secret] := by
  have hascii {line : Text} (hline : line ∈ [peer.address.display, code peer.pin peer.secret])
      {c : Char} (hc : c ∈ line) : 0x20 < c.toNat ∧ c.toNat < 0x7F := by
    simp only [List.mem_cons, List.not_mem_nil, or_false] at hline
    rcases hline with rfl | rfl
    · exact ascii_of_inAddress (peer.address.written.chars c hc)
    · exact code_ascii hc
  rw [encode_eq, lines_unlines]
  · apply map_chomp
    intro line hline hlast
    have hreturn := hascii hline (List.mem_of_getLast? hlast)
    exact absurd hreturn.1 (by decide)
  · intro line hline hmem
    exact absurd (hascii hline hmem).1 (by decide)

/-- A profile is read back. -/
theorem decode_profile {value : Text} {peer : Peer} (h : endpoint value = .ok peer.address) :
    Peer.decode peer.encode = .ok peer := by
  rw [Peer.decode, lines_encode]
  exact parse_code (endpoint_display h) peer.pin peer.secret

theorem length_encode (peer : Peer) : (Utf8.bytes peer.encode).length ≤ 512 := by
  have hascii : ∀ c ∈ peer.encode, c.toNat < 0x80 := by
    intro c hc
    rw [encode_eq, unlines, List.mem_flatMap] at hc
    obtain ⟨line, hline, hmem⟩ := hc
    rcases List.mem_append.mp hmem with hmem | hmem
    · simp only [List.mem_cons, List.not_mem_nil, or_false] at hline
      rcases hline with rfl | rfl
      · have hbounds := ascii_of_inAddress (peer.address.written.chars c hmem)
        omega
      · have hbounds := code_ascii hmem
        omega
    · obtain rfl := List.mem_singleton.mp hmem
      decide
  have haddress := peer.address.written.length
  rw [Utf8.length_bytes hascii]
  simp only [Peer.encode, Peer.id, List.length_append, length_hex, peer.pin.2, peer.secret.2]
  change _ + 5 + _ + 1 + _ + 1 ≤ 512
  omega

theorem endpoint_of_parse {value text : Text} {peer : Peer} (h : Peer.parse value text = .ok peer) :
    endpoint value = .ok peer.address := by
  unfold Peer.parse at h
  obtain ⟨address, haddress, hfields⟩ := bind_ok h
  dsimp only at hfields
  split at hfields
  · cases hfields
  · obtain ⟨pin, -, hsecret⟩ := bind_ok hfields
    obtain ⟨secret, -, hpeer⟩ := bind_ok hsecret
    cases hpeer
    exact haddress

/-- What was decoded has an address that was accepted. -/
theorem endpoint_of_decode {text : Text} {peer : Peer} (h : Peer.decode text = .ok peer) :
    ∃ value, endpoint value = .ok peer.address := by
  unfold Peer.decode at h
  split at h
  · exact ⟨_, endpoint_of_parse h⟩
  · cases h

/-- With an address that `endpoint` accepts, the phone's code gives its digest
and its secret; the profile of these is read back, and is as short as both of
its readers want it; and what was read from any profile is written to one from
which it is read again. -/
theorem pairing_law {value : Text} {address : SocketAddr} (h : endpoint value = .ok address)
    (digest secret : Key) :
    Peer.parse value (pairingCode digest secret) = .ok ⟨address, digest, secret⟩ ∧
      Peer.decode (Peer.encode ⟨address, digest, secret⟩) = .ok ⟨address, digest, secret⟩ ∧
      (Utf8.bytes (Peer.encode ⟨address, digest, secret⟩)).length ≤ 512 ∧
      rootWifiAdd (Peer.encode ⟨address, digest, secret⟩) = .ok ⟨address, digest, secret⟩ ∧
      loadProfile ⟨true, 0, 0o100600, (Utf8.bytes (Peer.encode ⟨address, digest, secret⟩)).length⟩
        (Peer.encode ⟨address, digest, secret⟩) = .ok ⟨address, digest, secret⟩ ∧
      ∀ text peer, Peer.decode text = .ok peer → Peer.decode peer.encode = .ok peer := by
  have hdecode : Peer.decode (Peer.encode ⟨address, digest, secret⟩)
      = .ok ⟨address, digest, secret⟩ := @decode_profile _ ⟨address, digest, secret⟩ h
  have hlength := length_encode ⟨address, digest, secret⟩
  constructor
  · rw [pairingCode_eq]
    exact parse_code h digest secret
  · refine ⟨hdecode, hlength, ?_, ?_, ?_⟩
    · rw [rootWifiAdd, if_neg (Nat.not_lt.mpr hlength)]
      exact hdecode
    · rw [loadProfile, if_neg]
      · exact hdecode
      · simpa using hlength
    · intro text peer htext
      obtain ⟨value, hvalue⟩ := endpoint_of_decode htext
      exact decode_profile hvalue

/-- A phone in a private network, at the port that the address leaves out. -/
theorem paired_privately :
    Peer.parse "192.168.1.10".toList
        (pairingCode (List.replicate 32 0x1f) (List.replicate 32 0xa2)) =
      .ok ⟨.v4 ⟨192, 168, 1, 10⟩ 40719, ⟨List.replicate 32 0x1f, rfl⟩,
        ⟨List.replicate 32 0xa2, rfl⟩⟩ := by
  have haddress : endpoint "192.168.1.10".toList = .ok (.v4 ⟨192, 168, 1, 10⟩ 40719) := rfl
  exact (pairing_law haddress ⟨List.replicate 32 0x1f, rfl⟩ ⟨List.replicate 32 0xa2, rfl⟩).1

end Passkey.Network.Wifi

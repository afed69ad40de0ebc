import Passkey.Library.Triples
import Passkey.Pam.Credentials
import Passkey.Utf8

/-!
`passkey pam-auth`, the helper that the PAM module starts. It reads the user's
keys, asks all devices with one request, and writes `y` once a signature checks
out. What libfido2, the kernel and the file system answer it is a parameter.
-/

namespace Passkey.Pam

open Library

abbrev FIDO_OK : Int := 0
abbrev VENDOR : Int := 0x1209
abbrev PRODUCT : Int := 0x7ab1

/-- Room for the devices that are listed. -/
abbrev maxDevices : Nat := 64

structure DevInfo where
  path : Bytes
  vendor : Int
  product : Int

/-- What an assertion is set to before the device gets it. An option that was
not set is left to the device. -/
structure Request where
  rp : Text
  hash : Bytes
  allowed : List Bytes := []
  up : Option Bool := none
  uv : Option Bool := none

/-- One statement in the device's answer, with its handle unless the pointer
is null. -/
structure Statement where
  id : Option Bytes
  authData : Bytes
  signature : Bytes

/-- What the helper is answered from outside. Statuses are libfido2's. -/
structure World where
  readToString : Text → Except String Text
  /-- `fido_dev_info_new` gave a list. -/
  list : Bool
  /-- `fido_dev_info_manifest`. -/
  manifest : Int × List DevInfo
  device : Bool
  devOpen : Bytes → Int
  /-- `getrandom`, if it gave all the bytes: for the probe and the assertion. -/
  random : Nat → Option Bytes
  assertion : Nat → Bool
  setRp : Text → Int
  setClientdataHash : Bytes → Int
  allowCred : Bytes → Int
  /-- `fido_dev_get_assert`, by all requests so far, the last of them this one. -/
  getAssert : List Request → Int × List Statement
  pk : Bool
  pkFromPtr : Bytes → Int
  /-- `fido_assert_verify` with ES256: the signature, and the relying party and
  the flags that the request asked for. -/
  verify : Request → Statement → Bytes → Int
  /-- The byte fits in the result pipe. -/
  write : Bool

/-! ### The options -/

structure HelperOptions where
  authfile : Option Text := none
  origin : Option Text := none
  verification : Bool := false

def readOption (o : HelperOptions) (option : Text) : HelperOptions :=
  match option.dropPrefix? "authfile=".toList with
  | some value => {o with authfile := some value}
  | none => match option.dropPrefix? "origin=".toList with
    | some value => {o with origin := some value}
    | none => if option = "userverification=1".toList then {o with verification := true} else o

def readOptions (options : List Text) : HelperOptions :=
  options.foldl readOption {}

/-- `ok_or`. -/
def okOr {α : Type} (message : String) : Option α → Except String α
  | some value => .ok value
  | none => .error message

/-- `CString::new`: a text without NUL. -/
def cString (text : Text) : Except String Text :=
  if '\x00' ∈ text then
    let position := (Utf8.bytes (text.takeWhile (· ≠ '\x00'))).length
    .error s!"nul byte found in provided data at position: {position}"
  else .ok text

/-- An early return with an error unless the condition holds. -/
def ensure (condition : Bool) (message : String) : Except String Unit :=
  if condition then .ok () else .error message

/-! ### The device and the request -/

/-- `Device::open`. -/
def openDevice (w : World) : Except String Unit :=
  if !w.list then .error "out of memory"
  else
    let found := if w.manifest.1 = FIDO_OK then w.manifest.2.take maxDevices else []
    match found.find? fun info => info.vendor = VENDOR && info.product = PRODUCT with
    | none => .error "no device connected"
    | some info =>
        if !w.device then .error "out of memory"
        else if w.devOpen info.path ≠ FIDO_OK then
          .error "the passkey device could not be opened"
        else .ok ()

/-- `Assertion::new`, for the probe or the assertion. -/
def newAssertion (w : World) (which : Nat) (origin : Text) (credentials : List Credential) :
    Except String Request :=
  match w.random which with
  | none => .error "no randomness"
  | some hash =>
      if !w.assertion which then .error "out of memory"
      else if w.setRp origin ≠ FIDO_OK || w.setClientdataHash hash ≠ FIDO_OK then
        .error "could not build the request"
      else if credentials.any fun credential => w.allowCred credential.id ≠ FIDO_OK then
        .error "could not build the request"
      else .ok {rp := origin, hash := hash, allowed := credentials.map (·.id)}

/-- `Assertion::verify`: one signature, by the key that it names. -/
def verify (w : World) (request : Request) (statements : List Statement)
    (credentials : List Credential) : Bool :=
  match statements with
  | [statement] =>
      match statement.id with
      | none => false
      | some id =>
          match credentials.find? fun credential => credential.id = id with
          | none => false
          | some credential =>
              w.pk && w.pkFromPtr credential.key = FIDO_OK &&
                w.verify request statement credential.key = FIDO_OK
  | _ => false

/-- The request that asks for no approval, if it could be built; nobody looks
at its answer. -/
def probes (w : World) (origin : Text) (credentials : List Credential) : List Request :=
  match newAssertion w 0 origin credentials with
  | .ok probe => [{probe with up := some false}]
  | .error _ => []

/-- The assertion with its options set. -/
def asking (assertion : Request) (verification : Bool) : Request :=
  {assertion with up := some true, uv := if verification then some true else none}

/-- `run`. Where it succeeds it wrote `y`, and nothing before that. -/
def run (w : World) : List Text → Except String Unit
  | [] => .error "usage: passkey pam-auth USER [pam_u2f options...]"
  | user :: options => do
      let o := readOptions options
      let authfile ← okOr "no authfile= option" o.authfile
      let origin ← okOr "no origin= option" o.origin
      let origin ← cString origin
      let text ← w.readToString authfile
      let keys := credentials text user
      ensure (!keys.isEmpty) s!"no keys registered for {String.ofList user}"
      let verification := o.verification || keys.any (·.verification)
      openDevice w
      let assertion ← newAssertion w 1 origin keys
      let request := asking assertion verification
      let answer := w.getAssert (probes w origin keys ++ [request])
      ensure (answer.1 = FIDO_OK) "fingerprint was not approved"
      ensure (verify w request answer.2 keys) "the device's signature did not verify"
      ensure w.write "PAM result pipe is closed"

/-! ### What an approval takes -/

/-- A device signed, for a credential of the user, the request for the origin
that names all of the user's credentials and asks for presence, and for
verification where the options or a credential do. -/
structure Signed (w : World) (origin : Text) (verification : Bool) (credentials : List Credential)
    (credential : Credential) (request : Request) (statement : Statement) : Prop where
  registered : credential ∈ credentials
  rp : request.rp = origin
  fresh : w.random 1 = some request.hash
  allowed : request.allowed = credentials.map (·.id)
  up : request.up = some true
  uv : verification = true ∨ (∃ c ∈ credentials, c.verification = true) →
    request.uv = some true
  answered : w.getAssert (probes w origin credentials ++ [request]) = (FIDO_OK, [statement])
  named : statement.id = some credential.id
  parsed : w.pkFromPtr credential.key = FIDO_OK
  verified : w.verify request statement credential.key = FIDO_OK

theorem newAssertion_ok {w : World} {which : Nat} {origin : Text} {credentials : List Credential}
    {request : Request} (h : newAssertion w which origin credentials = .ok request) :
    w.random which = some request.hash ∧
      request = {rp := origin, hash := request.hash, allowed := credentials.map (·.id)} := by
  unfold newAssertion at h
  split at h
  · cases h
  · rename_i hash hrandom
    split at h
    · cases h
    · split at h
      · cases h
      · split at h
        · cases h
        · cases h
          exact ⟨hrandom, rfl⟩

theorem verify_iff {w : World} {request : Request} {statements : List Statement}
    {credentials : List Credential} (h : verify w request statements credentials = true) :
    ∃ statement credential, statements = [statement] ∧ credential ∈ credentials ∧
      statement.id = some credential.id ∧ w.pkFromPtr credential.key = FIDO_OK ∧
      w.verify request statement credential.key = FIDO_OK := by
  unfold verify at h
  split at h
  · rename_i statement
    split at h
    · cases h
    · rename_i id hid
      split at h
      · cases h
      · rename_i credential hfind
        simp only [Bool.and_eq_true, decide_eq_true_eq] at h
        obtain ⟨⟨-, hparsed⟩, hverified⟩ := h
        have hsame : credential.id = id := by simpa using List.find?_some hfind
        exact ⟨statement, credential, rfl, List.mem_of_find?_eq_some hfind, hsame ▸ hid, hparsed,
          hverified⟩
  · cases h

theorem okOr_ok {α : Type} {message : String} {x : Option α} {value : α}
    (h : okOr message x = .ok value) : x = some value := by
  cases x with
  | none => cases h
  | some v => exact congrArg some (Except.ok.inj h)

theorem cString_ok {text origin : Text} (h : cString text = .ok origin) : origin = text := by
  unfold cString at h
  split at h
  · cases h
  · exact (Except.ok.inj h).symm

theorem ensure_ok {condition : Bool} {message : String} {u : Unit}
    (h : ensure condition message = .ok u) : condition = true := by
  unfold ensure at h
  split at h
  · assumption
  · cases h

/-- A helper that wrote `y` had a signature of one of the user's keys. -/
theorem run_ok {w : World} {user : Text} {options : List Text}
    (h : run w (user :: options) = .ok ()) :
    ∃ authfile origin text, (readOptions options).authfile = some authfile ∧
      (readOptions options).origin = some origin ∧ w.readToString authfile = .ok text ∧
      ∃ credential request statement, Signed w origin (readOptions options).verification
        (credentials text user) credential request statement := by
  obtain ⟨authfile, hauthfile, h₁⟩ := bind_ok h
  obtain ⟨given, hgiven, h₂⟩ := bind_ok h₁
  obtain ⟨origin, hcString, h₃⟩ := bind_ok h₂
  obtain ⟨text, htext, h₄⟩ := bind_ok h₃
  obtain ⟨-, -, h₅⟩ := bind_ok h₄
  obtain ⟨-, -, h₆⟩ := bind_ok h₅
  obtain ⟨assertion, hassertion, h₇⟩ := bind_ok h₆
  obtain ⟨_, hstatus, h₈⟩ := bind_ok h₇
  obtain ⟨_, hverify, _⟩ := bind_ok h₈
  have horigin := okOr_ok hgiven
  rw [← cString_ok hcString] at horigin
  obtain ⟨hrandom, hnew⟩ := newAssertion_ok hassertion
  obtain ⟨statement, credential, hstatements, hmem, hnamed, hparsed, hverified⟩ :=
    verify_iff (ensure_ok hverify)
  refine ⟨authfile, origin, text, okOr_ok hauthfile, horigin, htext, credential,
    asking assertion ((readOptions options).verification ||
      (credentials text user).any (·.verification)), statement, ?_⟩
  exact {
    registered := hmem
    rp := by rw [hnew]; rfl
    fresh := hrandom
    allowed := by rw [hnew]; rfl
    up := rfl
    uv := fun hwanted => by
      have hany : ((readOptions options).verification ||
          (credentials text user).any (·.verification)) = true := by
        rw [Bool.or_eq_true, List.any_eq_true]
        exact hwanted
      exact if_pos hany
    answered := Prod.ext (of_decide_eq_true (ensure_ok hstatus)) hstatements
    named := hnamed
    parsed := hparsed
    verified := hverified }

end Passkey.Pam

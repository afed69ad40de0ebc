import Passkey.Library.Triples
import Passkey.Phone.Cbor

/-!
The phone's CTAP 2.0 authenticator. `handle` runs one command at a time; what
it reads from outside (the clock, the user, the key store, the random source)
comes in an `Env`, and what it does towards the user and the key store is
noted in order.
-/

namespace Passkey.Phone

open Library

namespace Status

abbrev ok : Int := 0x00
abbrev invalidCommand : Int := 0x01
abbrev invalidCbor : Int := 0x12
abbrev missingParameter : Int := 0x14
abbrev credentialExcluded : Int := 0x19
abbrev unsupportedAlgorithm : Int := 0x26
abbrev operationDenied : Int := 0x27
abbrev keepaliveCancel : Int := 0x2D
abbrev noCredentials : Int := 0x2E
abbrev userActionTimeout : Int := 0x2F
abbrev notAllowed : Int := 0x30
abbrev pinNotSet : Int := 0x35
abbrev other : Int := 0x7F

end Status

/-- `passkey-android1`. -/
def aaguid : Bytes :=
  [0x70, 0x61, 0x73, 0x73, 0x6b, 0x65, 0x79, 0x2d, 0x61, 0x6e, 0x64, 0x72, 0x6f, 0x69, 0x64, 0x31]

/-- SHA-256 of a text; only the length of the digest is known of it. -/
structure Sha256 where
  digest : Text → Bytes
  length_digest : ∀ s, (digest s).length = 32

abbrev Object := List (Value × Value)

/-- A stored credential. The user id is kept as Base64 text by the code, which
only compares it and decodes it back. -/
structure Json where
  rp : Option Text := none
  uid : Option Bytes := none
  name : Option Text := none
  dn : Option Text := none
  rk : Option Bool := none
  n : Option Nat := none
  t : Option Int64 := none

/-- The preferences file, by credential id (the code uses its hex text). -/
abbrev Store := List (Bytes × Json)

/-- A connection, as `handle` tells one from another. -/
abbrev Owner := Nat

structure Authenticator where
  store : Store
  /-- The ids whose key is in the Android key store. -/
  keys : List Bytes
  pending : List Bytes := []
  pendingHash : Option Bytes := none
  pendingRp : Option Text := none
  pendingFlags : UInt8 := 0
  pendingOwner : Option Owner := none
  pendingUntil : Int64 := 0

/-- What one call does towards the user and the key store. A prompt carries
the RP id that it was opened for. -/
inductive Effect where
  | confirm (rpId title detail : Text) (status : Int)
  | created (id : Bytes) (credential : Json)
  | signed (id authData cdh : Bytes)

structure World extends Authenticator where
  effects : List Effect := []

abbrev Java := EStateM Thrown World

/-- What one call of `handle` gets from outside. -/
structure Env where
  /-- The clock where `handle` looks at the pending chain, and later on. -/
  now : Int64
  later : Int64
  /-- What `ui.confirm` returns. -/
  decision : Int
  /-- The bytes of `rng.nextBytes`. -/
  id : Vector UInt8 16
  /-- The affine coordinates of a generated key, if generation succeeds. -/
  newKey : Option (Nat × Nat)
  sign : Bytes → Bytes → Option Bytes
  /-- Whether `deleteEntry` succeeds. -/
  deleteKey : Bool
  /-- `getAll().entrySet()` comes in no particular order. -/
  entries : Store → Store

/-! ### Values of parameters -/

def nonNull {α : Type} : Option α → Except Thrown α
  | some a => .ok a
  | none => .error .nullPointer

def asMap : Value → Except Thrown (Option Object)
  | .map m => .ok (some m)
  | .null => .ok none
  | _ => .error .classCast

def asList : Value → Except Thrown (Option (List Value))
  | .array l => .ok (some l)
  | .null => .ok none
  | _ => .error .classCast

def asBytes : Value → Except Thrown (Option Bytes)
  | .bytes b => .ok (some b)
  | .null => .ok none
  | _ => .error .classCast

def asText : Value → Except Thrown (Option Text)
  | .text s => .ok (some s)
  | .null => .ok none
  | _ => .error .classCast

def str : Value → Text → Text
  | .text s, _ => s
  | _, d => d

def key (name : String) : Value :=
  .text name.toList

def at_ (m : Object) (name : String) : Value :=
  Cbor.get m (key name)

/-- `Boolean.TRUE.equals(o)` and `Boolean.FALSE.equals(o)`. -/
def isBool (b : Bool) : Value → Bool
  | .bool c => b == c
  | _ => false

/-- An empty `pinAuth`: the client wants a touch to pick a device. -/
def isEmptyBytes : Value → Bool
  | .bytes b => b.isEmpty
  | _ => false

/-- Origins like `pam://myhost` read as `myhost (computer sign-in)`. -/
def label (rpId : Text) : Text :=
  match rpId.dropPrefix? "pam://".toList with
  | some host => host ++ " (computer sign-in)".toList
  | none => rpId

/-! ### Storage -/

def Store.find (store : Store) (id : Bytes) : Option Json :=
  (List.find? (fun e => e.1 == id) store).map (·.2)

/-- `putString`: an entry that exists keeps its place. -/
def Store.putString (store : Store) (id : Bytes) (c : Json) : Store :=
  if store.any (fun e => e.1 == id) then
    store.map fun e => if e.1 = id then (id, c) else e
  else store ++ [(id, c)]

def Store.remove (store : Store) (id : Bytes) : Store :=
  store.filter fun e => e.1 ≠ id

/-- `JSONObject.getString`, which throws where there is none. -/
def getString {α : Type} : Option α → Except Thrown α
  | some a => .ok a
  | none => .error .json

def note (e : Effect) : Java Unit :=
  modify fun w => {w with effects := w.effects ++ [e]}

/-- `store.edit().putString(...).commit()`; memory is updated in any case. -/
def save (id : Bytes) (c : Json) : Java Unit :=
  modify fun w => {w with store := w.store.putString id c}

/-- `delete`: a failure of the key store is ignored. -/
def delete (env : Env) (id : Bytes) : Java Unit :=
  modify fun w => {w with
    keys := if env.deleteKey then w.keys.filter (· ≠ id) else w.keys
    store := w.store.remove id}

def newKey (env : Env) (id : Bytes) : Java (Nat × Nat) :=
  match env.newKey with
  | some point => do
      modify fun w => {w with keys := w.keys ++ [id]}
      return point
  | none => throw .security

/-- `Signature.sign` over the authenticator data and the client data hash. -/
def sign (env : Env) (id authData cdh : Bytes) : Java Bytes :=
  match env.sign id (authData ++ cdh) with
  | some sig => do
      note (.signed id authData cdh)
      return sig
  | none => throw .security

/-- `ui.confirm(title, label(rpId) + suffix)`. -/
def confirm (env : Env) (rpId title suffix : Text) : Java Int := do
  note (.confirm rpId title (label rpId ++ suffix) env.decision)
  return env.decision

/-! ### Replies -/

/-- The bytes sent back, and the map they encode when the status is OK. -/
structure Reply where
  bytes : Bytes
  returned : Option Object := none

def err (status : Int) : Reply where
  bytes := [UInt8.ofInt status]

def ok (m : Object) : Except Thrown Reply := do
  let b ← Cbor.encode (.map m)
  return {bytes := 0 :: b, returned := some m}

def getInfo : Object :=
  [(.int 1, .array [key "FIDO_2_0"]),
    (.int 3, .bytes aaguid),
    (.int 4, .map [(key "rk", .bool true), (key "up", .bool true), (key "uv", .bool true),
      (key "plat", .bool false)]),
    (.int 5, .int 7609),
    (.int 6, .array [.int 1])]

/-! ### makeCredential -/

structure Registration where
  cdh : Bytes
  rpId : Option Text
  user : Object
  rk : Bool
  who : Text
  exclude : List Value

/-- The loop over the algorithms; it reads all of them. -/
def hasEs256 : List Value → Except Thrown Bool
  | [] => .ok false
  | a :: rest => do
      let m ← nonNull (← asMap a)
      let others ← hasEs256 rest
      return (Cbor.equals (key "public-key") (at_ m "type")
        && Cbor.equals (.int (-7)) (at_ m "alg")) || others

/-- The parameters, or the error status that ends the command. -/
def readRegistration (p : Object) : Except Thrown (Except Int Registration) := do
  let cdh ← asBytes (Cbor.get p (.int 1))
  let rp ← asMap (Cbor.get p (.int 2))
  let user ← asMap (Cbor.get p (.int 3))
  let algs ← asList (Cbor.get p (.int 4))
  match cdh, rp, user, algs with
  | some cdh, some rp, some user, some algs =>
      let es256 ← hasEs256 algs
      if !es256 then return .error Status.unsupportedAlgorithm
      else if isEmptyBytes (Cbor.get p (.int 8)) then return .error Status.pinNotSet
      else
        let rpId ← asText (at_ rp "id")
        let opts ← asMap (Cbor.get p (.int 7))
        let exclude ← asList (Cbor.get p (.int 5))
        return .ok {
          cdh := cdh
          rpId := rpId
          user := user
          rk := opts.any fun o => isBool true (at_ o "rk")
          who := str (at_ user "displayName") (str (at_ user "name") [])
          exclude := exclude.getD []}
  | _, _, _, _ => return .error Status.missingParameter

/-- Whether a credential of this RP is on the list; the rest is not read. -/
def excluded (store : Store) (rpId : Option Text) : List Value → Except Thrown Bool
  | [] => .ok false
  | o :: rest => do
      let m ← nonNull (← asMap o)
      let id ← asBytes (at_ m "id")
      match id.bind store.find with
      | none => excluded store rpId rest
      | some c =>
          let rpId ← nonNull rpId
          let rp ← getString c.rp
          if rpId = rp then return true else excluded store (some rpId) rest

/-- A discoverable key of the same site and account. -/
def Json.replaced (o : Json) (rpId : Text) (uid : Bytes) : Except Thrown Bool :=
  if o.rk = some true then do
    let rp ← getString o.rp
    if rpId ≠ rp then return false
    else do
      let other ← getString o.uid
      return uid = other
  else .ok false

def replaceOld (env : Env) (rpId : Text) (uid : Bytes) : Store → Java Unit
  | [] => return
  | (id, o) :: rest => do
      let old ← ofExcept (o.replaced rpId uid)
      if old then do
        delete env id
        replaceOld env rpId uid rest
      else replaceOld env rpId uid rest

/-- `b64((byte[]) user.get("id"))`: no id reads as an empty one. -/
def userId (user : Object) : Except Thrown Bytes := do
  let id ← asBytes (at_ user "id")
  return id.getD []

def coseKey (point : Nat × Nat) : Object :=
  [(.int 1, .int 2), (.int 3, .int (-7)), (.int (-1), .int 1),
    (.int (-2), .bytes (bigEndian 32 point.1)), (.int (-3), .bytes (bigEndian 32 point.2))]

/-- UP, UV and AT set, counter 0. -/
def attestedData (sha : Sha256) (rpId : Text) (id cose : Bytes) : Bytes :=
  sha.digest rpId ++ [0x45] ++ [0, 0, 0, 0] ++ aaguid ++ [0, UInt8.ofNat id.length] ++ id ++ cose

/-- After the user approved. -/
def create (sha : Sha256) (env : Env) (r : Registration) (rpId : Text) : Java Reply := do
  let w ← get
  if r.rk then do
    let uid ← ofExcept (userId r.user)
    replaceOld env rpId uid (env.entries w.store)
    store
  else store
where
  store : Java Reply := do
    let id := env.id.toList
    let point ← newKey env id
    let uid ← ofExcept (userId r.user)
    let c : Json := {
      rp := some rpId
      uid := some uid
      name := some (str (at_ r.user "name") [])
      dn := some (str (at_ r.user "displayName") [])
      rk := some r.rk
      n := some 0
      t := some env.later}
    save id c
    note (.created id c)
    let cose ← ofExcept (Cbor.encode (.map (coseKey point)))
    let authData := attestedData sha rpId id cose
    let sig ← sign env id authData r.cdh
    ofExcept (ok [(.int 1, key "packed"), (.int 2, .bytes authData),
      (.int 3, .map [(key "alg", .int (-7)), (key "sig", .bytes sig)])])

def makeCredential (sha : Sha256) (env : Env) (p : Option Object) : Java Reply := do
  let p ← ofExcept (nonNull p)
  let parameters ← ofExcept (readRegistration p)
  match parameters with
  | .error status => return err status
  | .ok r => do
      let w ← get
      let already ← ofExcept (excluded w.store r.rpId r.exclude)
      let rpId ← ofExcept (nonNull r.rpId)
      if already then do
        let s ← confirm env rpId "Already registered".toList []
        return err (if s = Status.ok then Status.credentialExcluded else s)
      else do
        let s ← confirm env rpId "Create a key".toList
          (if r.who.isEmpty then [] else " · ".toList ++ r.who)
        if s ≠ Status.ok then return err s else create sha env r rpId

/-! ### getAssertion -/

structure SignIn where
  rpId : Text
  cdh : Bytes
  up : Bool
  uv : Bool
  allow : List Value

/-- Without an allow list every credential of the site is offered. -/
def SignIn.discoverable (q : SignIn) : Bool :=
  q.allow.isEmpty

def SignIn.flags (q : SignIn) : UInt8 :=
  (if q.up then 0x01 else 0) ||| (if q.up || q.uv then 0x04 else 0)

def readSignIn (p : Object) : Except Thrown (Except Int SignIn) := do
  let rpId ← asText (Cbor.get p (.int 1))
  let cdh ← asBytes (Cbor.get p (.int 2))
  match rpId, cdh with
  | some rpId, some cdh =>
      if isEmptyBytes (Cbor.get p (.int 6)) then return .error Status.pinNotSet
      else
        let opts ← asMap (Cbor.get p (.int 5))
        let allow ← asList (Cbor.get p (.int 3))
        return .ok {
          rpId := rpId
          cdh := cdh
          up := opts.all fun o => !isBool false (at_ o "up")
          uv := opts.any fun o => isBool true (at_ o "uv")
          allow := allow.getD []}
  | _, _ => return .error Status.missingParameter

/-- The allowed credentials that exist here for this site, each once. -/
def allowed (store : Store) (rpId : Text) : List Value → List Bytes → Except Thrown (List Bytes)
  | [], hits => .ok hits
  | o :: rest, hits => do
      let m ← nonNull (← asMap o)
      let id ← asBytes (at_ m "id")
      match id, id.bind store.find with
      | some id, some c =>
          let rp ← getString c.rp
          allowed store rpId rest (if rpId = rp && !hits.contains id then hits ++ [id] else hits)
      | _, _ => allowed store rpId rest hits

/-- `String.format("%020d", t)`. -/
def stamp (t : Int64) : Text :=
  let digits (width : Nat) (v : Nat) : Text :=
    (List.range width).reverse.map fun i => Nat.digitChar (v / 10 ^ i % 10)
  if 0 ≤ t then digits 20 t.toInt.toNat else '-' :: digits 19 (-t.toInt).toNat

def ofSite (rpId : Text) : Store → Except Thrown (List (Text × Bytes))
  | [] => .ok []
  | (id, c) :: rest => do
      let rp ← getString c.rp
      let others ← ofSite rpId rest
      return if rpId = rp then (stamp (c.t.getD 0), id) :: others else others

/-- Newest first. -/
def newestFirst (a b : Text × Bytes) : Prop :=
  ¬ a.1 < b.1

instance : DecidableRel newestFirst := fun a b => by
  unfold newestFirst
  infer_instance

def hits (env : Env) (store : Store) (q : SignIn) : Except Thrown (List Bytes) :=
  if q.discoverable then do
    let rks ← ofSite q.rpId (env.entries store)
    return (rks.insertionSort newestFirst).map (·.2)
  else allowed store q.rpId q.allow []

def authData (sha : Sha256) (rpId : Text) (flags : UInt8) (n : Nat) : Bytes :=
  sha.digest rpId ++ [flags] ++ bigEndian 4 n

/-- Names are returned only after user verification. -/
def userEntity (c : Json) (uid : Bytes) (flags : UInt8) : Object :=
  let name := if c.name.getD [] = [] then [] else [(key "name", .text (c.name.getD []))]
  let dn := if c.dn.getD [] = [] then [] else [(key "displayName", .text (c.dn.getD []))]
  (key "id", .bytes uid) :: if flags &&& 0x04 ≠ 0 then name ++ dn else []

def assertion (sha : Sha256) (env : Env) (id : Bytes) (rpId : Text) (cdh : Bytes)
    (flags : UInt8) (count : Nat) (withUser : Bool) : Java Object := do
  let w ← get
  let c := (w.store.find id).getD {}
  let n := c.n.getD 0 + 1
  let c := {c with n := some n}
  save id c
  let ad := authData sha rpId flags n
  if id ∉ w.keys then throw .security
  else do
    let sig ← sign env id ad cdh
    let cred := .map [(key "type", key "public-key"), (key "id", .bytes id)]
    let r : Object := [(.int 1, cred), (.int 2, .bytes ad), (.int 3, .bytes sig)]
    let counted : Object := if count > 1 then [(.int 5, .int count)] else []
    if withUser then do
      let uid ← ofExcept (getString c.uid)
      return r ++ [(.int 4, .map (userEntity c uid flags))] ++ counted
    else return r ++ counted

/-- The chain for getNextAssertion is opened with exactly the flags that the
first assertion earned. -/
def openChain (env : Env) (q : SignIn) (rest : List Bytes) : Java Unit :=
  modify fun w => {w with
    pending := if q.discoverable then rest else []
    pendingRp := some q.rpId
    pendingHash := some q.cdh
    pendingFlags := q.flags
    pendingUntil := env.later + 30000}

def answer (sha : Sha256) (env : Env) (q : SignIn) (first : Bytes) (rest : List Bytes) :
    Java Reply := do
  openChain env q rest
  let m ← assertion sha env first q.rpId q.cdh q.flags
    (if q.discoverable then rest.length + 1 else 0) q.discoverable
  ofExcept (ok m)

def getAssertion (sha : Sha256) (env : Env) (p : Option Object) : Java Reply := do
  let p ← ofExcept (nonNull p)
  let parameters ← ofExcept (readSignIn p)
  match parameters with
  | .error status => return err status
  | .ok q => do
      let w ← get
      let found ← ofExcept (hits env w.store q)
      match found with
      | [] =>
          -- Still ask, or a client could find out silently whether a key exists.
          if q.up then do
            let _ ← confirm env q.rpId "No key for this site".toList []
            return err Status.noCredentials
          else return err Status.noCredentials
      | first :: rest =>
          if q.up || q.uv then do
            let s ← confirm env q.rpId "Sign in".toList []
            if s ≠ Status.ok then return err s else answer sha env q first rest
          else answer sha env q first rest

def getNextAssertion (sha : Sha256) (env : Env) : Java Reply := do
  let w ← get
  match w.pending with
  | [] => return err Status.notAllowed
  | id :: rest => do
      modify fun w => {w with pending := rest}
      let rpId ← ofExcept (nonNull w.pendingRp)
      let cdh ← ofExcept (nonNull w.pendingHash)
      let m ← assertion sha env id rpId cdh w.pendingFlags 0 true
      ofExcept (ok m)

/-! ### handle -/

/-- `req.length > 1 ? asMap(Cbor.decode(req, 1)) : new LinkedHashMap<>()`. -/
def parameters (req : Bytes) : Except Thrown (Option Object) :=
  if req.length > 1 then do
    let v ← Cbor.decode req 1
    asMap v
  else .ok (some [])

def dispatch (sha : Sha256) (env : Env) (cmd : UInt8) (req : Bytes) : Java Reply := do
  let p ← ofExcept (parameters req)
  if cmd = 0x04 then ofExcept (ok getInfo)
  else if cmd = 0x01 then makeCredential sha env p
  else if cmd = 0x02 then getAssertion sha env p
  else if cmd = 0x08 then getNextAssertion sha env
  else return err Status.invalidCommand

def Thrown.status : Thrown → Int
  | .classCast | .illegalArgument | .indexOutOfBounds => Status.invalidCbor
  | .nullPointer | .json | .security => Status.other

structure Outcome where
  reply : Reply
  effects : List Effect := []

/-- Only the connection that opened the chain, asking for its next assertion
in time, keeps it. -/
def Authenticator.enter (a : Authenticator) (env : Env) (cmd : UInt8) (owner : Owner) :
    Authenticator :=
  {a with
    pending := if cmd ≠ 0x08 || a.pendingOwner ≠ some owner || env.now > a.pendingUntil
      then [] else a.pending
    pendingOwner := some owner}

def handle (sha : Sha256) (env : Env) (req : Bytes) (owner : Owner) (a : Authenticator) :
    Outcome × Authenticator :=
  match req with
  | [] => ({reply := err Status.invalidCommand}, a)
  | cmd :: _ =>
      match dispatch sha env cmd req {a.enter env cmd owner with} with
      | .ok reply w => ({reply, effects := w.effects}, w.toAuthenticator)
      | .error e w => ({reply := err e.status, effects := w.effects}, w.toAuthenticator)

end Passkey.Phone

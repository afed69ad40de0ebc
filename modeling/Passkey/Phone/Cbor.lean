import Mathlib
import Passkey.Library.Framing
import Passkey.Text

/-!
The phone's CBOR codec, as much of it as CTAP2 uses. Decoding works on Java
`int` and `long` values, so heads of eight bytes may come out negative and
lengths are narrowed; both are kept here with explicit wrapping.
-/

namespace Passkey.Phone

open Library Utf8

/-- The exceptions that code called from `handle` can throw. -/
inductive Thrown where
  | classCast
  | illegalArgument
  | indexOutOfBounds
  | nullPointer
  | json
  | security
  deriving DecidableEq

/-- The Java objects that CBOR stands for. Every number is a `Long`, and the
entries of a map keep the order of a `LinkedHashMap`. -/
inductive Value where
  | int (v : Int)
  | bytes (b : Bytes)
  | text (s : Text)
  | array (l : List Value)
  | map (m : List (Value × Value))
  | bool (b : Bool)
  | null

/-- Two's complement narrowing to `w` bits. -/
def wrap (w : Nat) (v : Int) : Int :=
  v.bmod (2 ^ w)

namespace Cbor

/-! ### Encoding -/

/-- The shortest of the five forms of a head. -/
def head (major : Nat) (v : Nat) : Bytes :=
  let m := major * 32
  if v < 24 then [UInt8.ofNat (m + v)]
  else if v < 0x100 then UInt8.ofNat (m + 24) :: bigEndian 1 v
  else if v < 0x10000 then UInt8.ofNat (m + 25) :: bigEndian 2 v
  else if v < 0x100000000 then UInt8.ofNat (m + 26) :: bigEndian 4 v
  else UInt8.ofNat (m + 27) :: bigEndian 8 v

/-- Shorter keys first, equal lengths byte by byte. -/
def keyLe (a b : Bytes × Bytes) : Prop :=
  if a.1.length ≠ b.1.length then a.1.length < b.1.length else a.1 ≤ b.1

instance : DecidableRel keyLe := fun a b => by
  unfold keyLe
  infer_instance

def utf8 (s : Text) : Bytes :=
  s.flatMap String.utf8EncodeChar

mutual

def write : Value → Except Thrown Bytes
  | .int v => .ok (if 0 ≤ v then head 0 v.toNat else head 1 (-1 - v).toNat)
  | .bytes b => .ok (head 2 b.length ++ b)
  | .text s => .ok (head 3 (utf8 s).length ++ utf8 s)
  | .array l => do
      let items ← writeItems l
      return head 4 l.length ++ items
  | .map m => do
      let kv ← writeEntries m
      return head 5 kv.length ++ (kv.insertionSort keyLe).flatMap fun p => p.1 ++ p.2
  | .bool b => .ok [if b then 0xF5 else 0xF4]
  | .null => .error .illegalArgument

def writeItems : List Value → Except Thrown Bytes
  | [] => .ok []
  | x :: rest => do
      let first ← write x
      let others ← writeItems rest
      return first ++ others

def writeEntries : List (Value × Value) → Except Thrown (List (Bytes × Bytes))
  | [] => .ok []
  | (k, v) :: rest => do
      let key ← write k
      let value ← write v
      let others ← writeEntries rest
      return (key, value) :: others

end

def encode (v : Value) : Except Thrown Bytes :=
  write v

/-! ### Decoding -/

mutual

/-- `Object.equals`: byte arrays are equal only to themselves, and no two
decoded arrays are one object. -/
def equals : Value → Value → Bool
  | .int a, .int b => a == b
  | .text a, .text b => a == b
  | .bool a, .bool b => a == b
  | .null, .null => true
  | .array a, .array b => equalItems a b
  | .map a, .map b => a.length == b.length && containsAll a b
  | _, _ => false

def equalItems : List Value → List Value → Bool
  | [], [] => true
  | a :: as, b :: bs => equals a b && equalItems as bs
  | _, _ => false

/-- Each entry of the first map is an entry of the second. -/
def containsAll : List (Value × Value) → List (Value × Value) → Bool
  | [], _ => true
  | (k, v) :: rest, m => m.any (fun e => equals k e.1 && equals v e.2) && containsAll rest m

end

/-- `LinkedHashMap.put`: an equal key keeps its place. -/
def put (m : List (Value × Value)) (k v : Value) : List (Value × Value) :=
  if m.any (fun e => equals k e.1) then
    m.map fun e => if equals k e.1 then (e.1, v) else e
  else m ++ [(k, v)]

/-- `Map.get`, with `null` for an absent key. -/
def get (m : List (Value × Value)) (k : Value) : Value :=
  match m.find? (fun e => equals k e.1) with
  | some e => e.2
  | none => .null

/-- `b[p[0]++] & 0xFF`, for a position that never is negative. -/
def byteAt (b : Bytes) (p : Nat) : Except Thrown (Nat × Nat) :=
  match b[p]? with
  | some x => .ok (x.toNat, p + 1)
  | none => .error .indexOutOfBounds

/-- `for (int i = 0; i < n; i++) v = (v << 8) | byte`, on a `long`. -/
def longAt (b : Bytes) : Nat → Int → Nat → Except Thrown (Int × Nat)
  | 0, v, p => .ok (v, p)
  | n + 1, v, p => do
      let (x, p) ← byteAt b p
      longAt b n (wrap 64 (v * 256 + x)) p

def arg (b : Bytes) (p : Nat) (info : Nat) : Except Thrown (Int × Nat) :=
  if info < 24 then .ok (info, p)
  else if info = 24 then longAt b 1 0 p
  else if info = 25 then longAt b 2 0 p
  else if info = 26 then longAt b 4 0 p
  else if info = 27 then longAt b 8 0 p
  else .error .illegalArgument

/-- `Arrays.copyOfRange`: past the end of the array it pads with zeros. -/
def copyOfRange (b : Bytes) (start stop : Int) : Except Thrown Bytes :=
  if start > stop then .error .illegalArgument
  else if start < 0 || start > b.length then .error .indexOutOfBounds
  else
    let n := (stop - start).toNat
    let s := (b.drop start.toNat).take n
    .ok (s ++ List.replicate (n - s.length) 0)

/-- `new String(s, UTF_8)`: a malformed sequence reads as one U+FFFD. -/
def string : Bytes → Text
  | [] => []
  | a :: rest =>
    if a < 0x80 then Char.ofNat a.toNat :: string rest
    else if 0xC2 ≤ a && a ≤ 0xDF then
      match rest with
      | b :: more =>
        if isContinuation b then Char.ofNat (a.toNat % 32 * 64 + low6 b) :: string more
        else '\uFFFD' :: string (b :: more)
      | [] => ['\uFFFD']
    else if 0xE0 ≤ a && a ≤ 0xEF then
      match rest with
      | b :: c :: more =>
        if !secondByte a b then '\uFFFD' :: string (b :: c :: more)
        else if isContinuation c then
          Char.ofNat (a.toNat % 16 * 4096 + low6 b * 64 + low6 c) :: string more
        else '\uFFFD' :: string (c :: more)
      | b :: [] => if secondByte a b then ['\uFFFD'] else '\uFFFD' :: string [b]
      | [] => ['\uFFFD']
    else if 0xF0 ≤ a && a ≤ 0xF4 then
      match rest with
      | b :: c :: d :: more =>
        if !secondByte a b then '\uFFFD' :: string (b :: c :: d :: more)
        else if !isContinuation c then '\uFFFD' :: string (c :: d :: more)
        else if isContinuation d then
          Char.ofNat (a.toNat % 8 * 262144 + low6 b * 4096 + low6 c * 64 + low6 d) :: string more
        else '\uFFFD' :: string (d :: more)
      | b :: c :: [] =>
        if !secondByte a b then '\uFFFD' :: string [b, c]
        else if isContinuation c then ['\uFFFD'] else '\uFFFD' :: string [c]
      | b :: [] => if secondByte a b then ['\uFFFD'] else '\uFFFD' :: string [b]
      | [] => ['\uFFFD']
    else '\uFFFD' :: string rest

/-- The items of an array or of a map, `v` of them; a negative count is none. -/
def readItems {α : Type} (item : Nat → Except Thrown (α × Nat)) :
    Nat → Nat → Except Thrown (List α × Nat)
  | 0, p => .ok ([], p)
  | n + 1, p => do
      let (x, p) ← item p
      let (rest, p) ← readItems item n p
      return (x :: rest, p)

/-- `read` with `levels` left: nine at the top, none below depth eight. -/
def read (b : Bytes) : Nat → Nat → Except Thrown (Value × Nat)
  | 0, _ => .error .illegalArgument
  | levels + 1, p => do
      let (ib, p) ← byteAt b p
      let major := ib / 32
      let info := ib % 32
      if major = 7 then
        if info = 20 then return (.bool false, p)
        else if info = 21 then return (.bool true, p)
        else if info = 22 then return (.null, p)
        else throw .illegalArgument
      else do
        let (v, p) ← arg b p info
        if major = 0 then return (.int v, p)
        else if major = 1 then return (.int (-1 - v), p)
        else if major = 2 || major = 3 then
          if v > (b.length : Int) - p then throw .illegalArgument
          else do
            let s ← copyOfRange b p (wrap 32 (p + wrap 32 v))
            let p := (wrap 32 (p + wrap 32 v)).toNat
            return (if major = 2 then .bytes s else .text (string s), p)
        else if major = 4 then do
          let (items, p) ← readItems (read b levels) v.toNat p
          return (.array items, p)
        else if major = 5 then do
          let entry (p : Nat) : Except Thrown ((Value × Value) × Nat) := do
            let (k, p) ← read b levels p
            let (v, p) ← read b levels p
            return ((k, v), p)
          let (entries, p) ← readItems entry v.toNat p
          return (.map (entries.foldl (fun m e => put m e.1 e.2) []), p)
        else throw .illegalArgument

def decode (b : Bytes) (off : Nat) : Except Thrown Value := do
  let (v, _) ← read b 9 off
  return v

end Cbor

end Passkey.Phone

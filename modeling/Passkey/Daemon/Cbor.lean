import Passkey.Text

/-!
The daemon's own CBOR decoder. It only serves to recognise presence-free
getAssertion requests, which only probe for credentials.
-/

namespace Passkey.Daemon

inductive Cbor where
  | integer (value : Int)
  | bytes (value : Bytes)
  | text (value : Text)
  | array (values : List Cbor)
  | map (values : List (Cbor × Cbor))
  | bool (value : Bool)
  | null

namespace Cbor

open Utf8

/-- `String::from_utf8`: nothing but well-formed sequences. -/
def fromUtf8 : Bytes → Option Text
  | [] => some []
  | a :: rest =>
    if a < 0x80 then (fromUtf8 rest).map (Char.ofNat a.toNat :: ·)
    else if 0xC2 ≤ a && a ≤ 0xDF then
      match rest with
      | b :: more =>
        if isContinuation b then
          (fromUtf8 more).map (Char.ofNat (a.toNat % 32 * 64 + low6 b) :: ·)
        else none
      | [] => none
    else if 0xE0 ≤ a && a ≤ 0xEF then
      match rest with
      | b :: c :: more =>
        if secondByte a b && isContinuation c then
          (fromUtf8 more).map
            (Char.ofNat (a.toNat % 16 * 4096 + low6 b * 64 + low6 c) :: ·)
        else none
      | _ => none
    else if 0xF0 ≤ a && a ≤ 0xF4 then
      match rest with
      | b :: c :: d :: more =>
        if secondByte a b && isContinuation c && isContinuation d then
          (fromUtf8 more).map
            (Char.ofNat (a.toNat % 8 * 262144 + low6 b * 4096 + low6 c * 64 + low6 d) :: ·)
        else none
      | _ => none
    else none

/-- The bytes from `offset` to `offset + length`, if they are there. -/
def slice (input : Bytes) (offset length : Nat) : Option Bytes :=
  if offset + length ≤ input.length then some ((input.drop offset).take length) else none

def readUint (input : Bytes) (offset count : Nat) : Option (Nat × Nat) := do
  let bytes ← slice input offset count
  return (bytes.foldl (fun value byte => value * 256 + byte.toNat) 0, offset + count)

def argument (input : Bytes) (offset info : Nat) : Option (Nat × Nat) :=
  if info ≤ 23 then some (info, offset)
  else if info = 24 then readUint input offset 1
  else if info = 25 then readUint input offset 2
  else if info = 26 then readUint input offset 4
  else if info = 27 then readUint input offset 8
  else none

/-- `i64::try_from`. -/
def toI64 (value : Nat) : Option Int :=
  if value < 2 ^ 63 then some value else none

/-- `for _ in 0..value`, each round reading one item. -/
def decodeItems {α : Type} (item : Nat → Option (α × Nat)) : Nat → Nat → Option (List α × Nat)
  | 0, offset => some ([], offset)
  | count + 1, offset => do
      let (value, offset) ← item offset
      let (rest, offset) ← decodeItems item count offset
      return (value :: rest, offset)

/-- `decode_cbor` with `levels` left: nine at depth zero, none beyond depth eight. -/
def decodeCbor (input : Bytes) : Nat → Nat → Option (Cbor × Nat)
  | 0, _ => none
  | levels + 1, offset => do
      let first ← input[offset]?
      let offset := offset + 1
      let major := first.toNat / 32
      let info := first.toNat % 32
      if major = 7 then
        if info = 20 then return (.bool false, offset)
        else if info = 21 then return (.bool true, offset)
        else if info = 22 then return (.null, offset)
        else none
      else do
        let (value, offset) ← argument input offset info
        if major = 0 then do
          let value ← toI64 value
          return (.integer value, offset)
        else if major = 1 then do
          let value ← toI64 value
          return (.integer (-1 - value), offset)
        else if major = 2 || major = 3 then do
          let bytes ← slice input offset value
          if major = 2 then return (.bytes bytes, offset + value)
          else do
            let text ← fromUtf8 bytes
            return (.text text, offset + value)
        else if major = 4 then do
          let (values, offset) ← decodeItems (decodeCbor input levels) value offset
          return (.array values, offset)
        else if major = 5 then do
          let entry (offset : Nat) : Option ((Cbor × Cbor) × Nat) := do
            let (k, offset) ← decodeCbor input levels offset
            let (v, offset) ← decodeCbor input levels offset
            return ((k, v), offset)
          let (values, offset) ← decodeItems entry value offset
          return (.map values, offset)
        else decodeCbor input levels offset

def isInteger (n : Int) : Cbor → Bool
  | .integer value => value == n
  | _ => false

def isText (s : Text) : Cbor → Bool
  | .text value => value == s
  | _ => false

def isFalse : Cbor → Bool
  | .bool value => !value
  | _ => false

end Cbor

/-- A getAssertion with `"up": false` in its options: nobody is asked. -/
def silent (data : Bytes) : Bool :=
  if data.head? ≠ some 0x02 then false
  else
    match Cbor.decodeCbor data 9 1 with
    | some (.map root, _) => root.any fun (key, value) =>
        key.isInteger 5 && match value with
          | .map options => options.any fun (key, value) =>
              key.isText "up".toList && value.isFalse
          | _ => false
    | _ => false

example : silent [0x02, 0xa1, 0x05, 0xa1, 0x62, 0x75, 0x70, 0xf4] = true := by rfl

example : silent [0x02, 0xa1, 0x05, 0xa1, 0x62, 0x75, 0x70, 0xf5] = false := by rfl

end Passkey.Daemon

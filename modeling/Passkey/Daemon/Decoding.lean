import Passkey.Daemon.Probes
import Passkey.Phone.Decoding

/-!
The daemon's decoder against the grammar of CBOR. It reads through an offset
that stays where it is when something is refused, so it is told here with that
offset as a state, and with the faults that its arithmetic and indexing could
end in. What it accepts are the definite-length items of the grammar, with tags
that say nothing.
-/

namespace Passkey.Daemon.Cbor

open Library Utf8
open Phone.Cbor (Form Head HeadAt form_iff headAt_iff headAt_unique Both)

/-! ### The grammar -/

/-- What an item with no tag in front of it stands for, given what the items
inside it stand for. -/
def Untagged (inner : Cbor → Bytes → Prop) : Cbor → Bytes → Prop
  | .integer v, enc => ∃ n : Nat, n < 2 ^ 63 ∧ (v = n ∧ Head 0 n enc ∨ v = -1 - n ∧ Head 1 n enc)
  | .bytes b, enc => ∃ h, Head 2 b.length h ∧ enc = h ++ b
  | .text t, enc => ∃ h, Head 3 (Phone.Cbor.utf8 t).length h ∧ enc = h ++ Phone.Cbor.utf8 t
  | .array l, enc => ∃ h parts, Head 4 l.length h ∧ List.Forall₂ inner l parts ∧
      enc = h ++ parts.flatten
  | .map m, enc => ∃ h parts, Head 5 m.length h ∧ List.Forall₂ (Both inner) m parts ∧
      enc = h ++ parts.flatMap fun p => p.1 ++ p.2
  | .bool b, enc => enc = [if b then 0xF5 else 0xF4]
  | .null, enc => enc = [0xF6]

/-- The bytes are an item for this value, in which every item lies inside fewer
than `levels` arrays, maps and tags. A tag may have any number. -/
def Item : Nat → Cbor → Bytes → Prop
  | 0, _, _ => False
  | levels + 1, v, enc => Untagged (Item levels) v enc ∨
      ∃ n h rest, Head 6 n h ∧ Item levels v rest ∧ enc = h ++ rest

/-! ### The decoder and its offset -/

/-- How `decode_cbor` may end without a value. -/
inductive Fault where
  | error
  | panic
  deriving DecidableEq

/-- A function that moves `*offset`. -/
abbrev Reader := EStateM Fault Nat

/-- `Err(())` where there is none. -/
def orError {α : Type} : Option α → Reader α
  | some a => pure a
  | none => throw .error

/-- `input[*offset]`. -/
def index (input : Bytes) : Reader UInt8 := do
  match input[← get]? with
  | some byte => pure byte
  | none => throw .panic

/-- `*offset += 1`, in a `usize` of `size` values. -/
def advance (size : Nat) : Reader Unit := do
  let offset ← get
  if offset + 1 < size then set (offset + 1) else throw .panic

/-- `checked_add` and `input.get(*offset..end)`, then `*offset = end`. -/
def takeSlice (input : Bytes) (size length : Nat) : Reader Bytes := do
  let offset ← get
  let stop ← orError (if offset + length < size then some (offset + length) else none)
  let bytes ← orError (slice input offset (stop - offset))
  set stop
  return bytes

/-- A number of `count` bytes; a `u64` holds eight. -/
def takeUint (input : Bytes) (size count : Nat) : Reader Nat := do
  let bytes ← takeSlice input size count
  return bytes.foldl (fun value byte => (value * 256 + byte.toNat) % 2 ^ 64) 0

def takeArgument (input : Bytes) (size info : Nat) : Reader Nat :=
  if info ≤ 23 then pure info
  else if info = 24 then takeUint input size 1
  else if info = 25 then takeUint input size 2
  else if info = 26 then takeUint input size 4
  else if info = 27 then takeUint input size 8
  else throw .error

/-- `for _ in 0..value`, with what each round pushes. -/
def times {α : Type} (item : Reader α) : Nat → Reader (List α)
  | 0 => pure []
  | count + 1 => do
      let value ← item
      let rest ← times item count
      return value :: rest

/-- `-1 - value`, on an `i64`. -/
def negate (value : Int) : Reader Int :=
  if -2 ^ 63 ≤ -1 - value then pure (-1 - value) else throw .panic

def takeBody (input : Bytes) (size : Nat) (inner : Reader Cbor) (major value : Nat) : Reader Cbor :=
  if major = 0 then do
    let value ← orError (toI64 value)
    return .integer value
  else if major = 1 then do
    let value ← orError (toI64 value)
    let value ← negate value
    return .integer value
  else if major = 2 || major = 3 then do
    let length ← orError (if value < size then some value else none)
    let bytes ← takeSlice input size length
    if major = 2 then return .bytes bytes
    else do
      let text ← orError (fromUtf8 bytes)
      return .text text
  else if major = 4 then do
    let values ← times inner value
    return .array values
  else if major = 5 then do
    let entry : Reader (Cbor × Cbor) := do
      let k ← inner
      let v ← inner
      return (k, v)
    let values ← times entry value
    return .map values
  else inner

/-- With `levels` left: none beyond depth eight. -/
def takeItem (input : Bytes) (size : Nat) : Nat → Reader Cbor
  | 0 => throw .error
  | levels + 1 => do
      let offset ← get
      if offset ≥ input.length then throw .error
      else do
        let first ← index input
        advance size
        let major := first.toNat / 32
        let info := first.toNat % 32
        if major = 7 then
          if info = 20 then return .bool false
          else if info = 21 then return .bool true
          else if info = 22 then return .null
          else throw .error
        else do
          let value ← takeArgument input size info
          takeBody input size (takeItem input size levels) major value

/-- `decode_cbor(input, offset, depth)`: the value or the fault, with the offset
it leaves. -/
def decodeCborAt (input : Bytes) (size depth offset : Nat) : EStateM.Result Fault Nat Cbor :=
  takeItem input size (9 - depth) offset

/-! ### UTF-8 -/

/-- What is accepted is the UTF-8 of the text. -/
theorem fromUtf8_sound {bytes : Bytes} {t : Text} (h : fromUtf8 bytes = some t) :
    bytes = Phone.Cbor.utf8 t := by
  have hone {n : Nat} {enc rest : Bytes} {t : Text} (hn : n < 0xD800 ∨ (0xDFFF < n ∧ n < 0x110000))
      (hc : (Char.ofNat n).toNat = n → Sequence (Char.ofNat n) enc)
      (ih : ∀ {s : Text}, fromUtf8 rest = some s → rest = Phone.Cbor.utf8 s)
      (h : (fromUtf8 rest).map (Char.ofNat n :: ·) = some t) :
      enc ++ rest = Phone.Cbor.utf8 t := by
    obtain ⟨s, hs, rfl⟩ := Option.map_eq_some_iff.mp h
    rw [(hc (Utf8.toNat_ofNat hn)).unique (sequence_encode _), ih hs]
    rfl
  fun_induction fromUtf8 bytes generalizing t with
  | case1 =>
      cases h
      rfl
  | case2 a rest ha ih =>
      have ha' := UInt8.lt_iff_toNat_lt.mp ha
      simp only [UInt8.reduceToNat] at ha'
      exact @hone a.toNat [a] rest t (by omega) (fun hn => .one a ha' hn.symm) ih h
  | case3 a hone' ha b more hb ih =>
      simp only [Bool.and_eq_true, decide_eq_true_eq, UInt8.le_iff_toNat_le,
        UInt8.reduceToNat] at ha
      have hb' := isContinuation_iff.mp hb
      refine @hone _ [a, b] more t ?_ (fun hn => .two a b ha hb hn.symm) ih h
      unfold low6
      omega
  | case6 a _ _ ha b c more hb ih =>
      simp only [Bool.and_eq_true, decide_eq_true_eq, UInt8.le_iff_toNat_le,
        UInt8.reduceToNat] at ha hb
      have hb' := secondByte_iff.mp hb.1
      have hc' := isContinuation_iff.mp hb.2
      refine @hone _ [a, b, c] more t ?_ (fun hn => .three a b c ha hb.1 hb.2 hn.symm) ih h
      unfold low6
      omega
  | case9 a _ _ _ ha b c d more hb ih =>
      simp only [Bool.and_eq_true, decide_eq_true_eq, UInt8.le_iff_toNat_le,
        UInt8.reduceToNat] at ha hb
      have hb' := secondByte_iff.mp hb.1.1
      have hc' := isContinuation_iff.mp hb.1.2
      have hd' := isContinuation_iff.mp hb.2
      refine @hone _ [a, b, c, d] more t ?_
        (fun hn => .four a b c d ha hb.1.1 hb.1.2 hb.2 hn.symm) ih h
      unfold low6
      omega
  | _ => cases h

/-! ### What the decoder takes -/

section Taking

variable {input : Bytes} {size p q : Nat}

theorem orError_bind {α β : Type} (x : Option α) (f : α → Reader β) :
    (orError x >>= f) p = x.elim (.error .error p) fun a => f a p := by
  cases x <;> rfl

theorem takeSlice_eq (hsize : input.length < size) (length : Nat) :
    takeSlice input size length p = if p + length ≤ input.length
      then .ok ((input.drop p).take length) (p + length) else .error .error p := by
  show (orError (if p + length < size then some (p + length) else none) >>= fun stop =>
    orError (slice input p (stop - p)) >>= fun bytes => set stop >>= fun _ => pure bytes) p = _
  rw [orError_bind]
  by_cases hfits : p + length < size
  · rw [if_pos hfits, Option.elim_some, orError_bind, Nat.add_sub_cancel_left, slice]
    split <;> rfl
  · rw [if_neg hfits, if_neg (by omega)]
    rfl

theorem takeSlice_ok (hsize : input.length < size) {length : Nat} {bytes : Bytes} :
    takeSlice input size length p = .ok bytes q ↔ Lies input p bytes q ∧ bytes.length = length := by
  rw [takeSlice_eq hsize, lies_iff]
  constructor
  · intro h
    split_ifs at h with hinside
    cases h
    refine ⟨⟨by omega, hinside, by rw [Nat.add_sub_cancel_left]⟩, ?_⟩
    rw [List.length_take, List.length_drop]
    omega
  · rintro ⟨⟨hle, hinside, rfl⟩, hlength⟩
    rw [List.length_take, List.length_drop] at hlength
    have hq : q = p + length := by omega
    subst hq
    rw [if_pos hinside, Nat.add_sub_cancel_left]

theorem fold_eq {bytes : Bytes} (hlength : bytes.length ≤ 8) :
    bytes.foldl (fun value byte => (value * 256 + byte.toNat) % 2 ^ 64) 0 = ofBigEndian bytes := by
  induction bytes using List.reverseRecOn with
  | nil => rfl
  | append_singleton bytes byte ih =>
      rw [List.length_append, List.length_singleton] at hlength
      have hlt := ofBigEndian_lt (bytes ++ [byte])
      have hfits : 256 ^ (bytes ++ [byte]).length ≤ 2 ^ 64 := by
        rw [List.length_append, List.length_singleton]
        exact Nat.pow_le_pow_right (n := 256) (by omega) hlength
      rw [ofBigEndian_snoc] at hlt ⊢
      rw [List.foldl_append, ih (by omega), List.foldl_cons, List.foldl_nil]
      exact Nat.mod_eq_of_lt (by omega)

theorem takeUint_ok (hsize : input.length < size) {count n : Nat} (hcount : count ≤ 8) :
    takeUint input size count p = .ok n q ↔ n < 256 ^ count ∧ Lies input p (bigEndian count n) q := by
  unfold takeUint
  rw [run_bind]
  constructor
  · rintro ⟨bytes, r, hslice, hreturn⟩
    obtain ⟨hlies, rfl⟩ := (takeSlice_ok hsize).mp hslice
    cases hreturn
    rw [fold_eq hcount, bigEndian_ofBigEndian]
    exact ⟨ofBigEndian_lt bytes, hlies⟩
  · rintro ⟨hn, hlies⟩
    refine ⟨_, q, (takeSlice_ok hsize).mpr ⟨hlies, length_bigEndian count n⟩, ?_⟩
    rw [fold_eq (by rw [length_bigEndian]; exact hcount), ofBigEndian_bigEndian hn]
    rfl

/-- The number of a head, behind its first byte. -/
theorem takeArgument_ok (hsize : input.length < size) (hp : p ≤ input.length) {info n : Nat} :
    takeArgument input size info p = .ok n q ↔
      ∃ count, Form n info count ∧ Lies input p (bigEndian count n) q := by
  have huint {count : Nat} (hcount : count ≤ 8)
      (hform : ∀ count', Form n info count' ↔ count' = count ∧ n < 256 ^ count) :
      takeUint input size count p = .ok n q ↔
        ∃ count, Form n info count ∧ Lies input p (bigEndian count n) q := by
    rw [takeUint_ok hsize hcount]
    constructor
    · rintro ⟨hn, hlies⟩
      exact ⟨count, (hform count).mpr ⟨rfl, hn⟩, hlies⟩
    · rintro ⟨count', hn, hlies⟩
      obtain ⟨rfl, hn⟩ := (hform count').mp hn
      exact ⟨hn, hlies⟩
  unfold takeArgument
  split
  · rename_i hshort
    constructor
    · intro h
      cases h
      exact ⟨0, .short (by omega), .nil hp⟩
    · rintro ⟨count, hform, hlies⟩
      obtain ⟨rfl, rfl⟩ : n = info ∧ count = 0 := by
        rw [form_iff] at hform
        omega
      obtain rfl : q = p := hlies.stop_eq
      rfl
  · split
    · apply huint (by omega)
      intro count'
      rw [form_iff]
      omega
    · split
      · apply huint (by omega)
        intro count'
        rw [form_iff]
        omega
      · split
        · apply huint (by omega)
          intro count'
          rw [form_iff]
          omega
        · split
          · apply huint (by omega)
            intro count'
            rw [form_iff]
            omega
          · constructor
            · intro h
              cases h
            · rintro ⟨count, hform, -⟩
              rw [form_iff] at hform
              omega

theorem times_ok {α : Type} {item : Reader α} {n : Nat} {l : List α} :
    times item n p = .ok l q ↔
      l.length = n ∧ Chain (fun p x q => item p = .ok x q) p l q := by
  induction n generalizing p l with
  | zero =>
      constructor
      · intro h
        cases h
        exact ⟨rfl, rfl⟩
      · rintro ⟨hlength, hchain⟩
        obtain rfl := List.eq_nil_of_length_eq_zero hlength
        obtain rfl : p = q := hchain
        rfl
  | succ n ih =>
      rw [times, run_bind]
      constructor
      · rintro ⟨x, r, hitem, hrest⟩
        obtain ⟨rest, r', htimes, hreturn⟩ := run_bind.mp hrest
        cases hreturn
        obtain ⟨hlength, hchain⟩ := ih.mp htimes
        exact ⟨by rw [List.length_cons, hlength], r, hitem, hchain⟩
      · rintro ⟨hlength, hchain⟩
        cases l with
        | nil => cases hlength
        | cons x rest =>
            obtain ⟨r, hitem, hrest⟩ := hchain
            have hmore := ih.mpr ⟨Nat.succ.inj hlength, hrest⟩
            exact ⟨x, r, hitem, run_bind.mpr ⟨rest, q, hmore, rfl⟩⟩

/-- What may stand behind a head of this type and number. -/
def Behind (inner : Cbor → Bytes → Prop) (major n : Nat) (v : Cbor) (rest : Bytes) : Prop :=
  match major with
  | 0 => n < 2 ^ 63 ∧ v = .integer n ∧ rest = []
  | 1 => n < 2 ^ 63 ∧ v = .integer (-1 - n) ∧ rest = []
  | 2 => v = .bytes rest ∧ rest.length = n
  | 3 => ∃ t, v = .text t ∧ rest = Phone.Cbor.utf8 t ∧ rest.length = n
  | 4 => ∃ l parts, v = .array l ∧ l.length = n ∧ List.Forall₂ inner l parts ∧
      rest = parts.flatten
  | 5 => ∃ m parts, v = .map m ∧ m.length = n ∧ List.Forall₂ (Both inner) m parts ∧
      rest = parts.flatMap fun p => p.1 ++ p.2
  | 6 => inner v rest
  | _ => False

/-- A simple value is its one byte. -/
def Simple (v : Cbor) (enc : Bytes) : Prop :=
  (∃ b, v = .bool b ∧ enc = [if b then 0xF5 else 0xF4]) ∨ v = .null ∧ enc = [0xF6]

theorem Simple.byte {v : Cbor} {enc : Bytes} (h : Simple v enc) :
    ∃ first : UInt8, enc = [first] ∧ first.toNat / 32 = 7 := by
  rcases h with ⟨b, -, rfl⟩ | ⟨-, rfl⟩
  · cases b <;> exact ⟨_, rfl, rfl⟩
  · exact ⟨_, rfl, rfl⟩

/-- An item is a simple value, or a head and what stands behind it. -/
theorem item_iff {levels : Nat} {v : Cbor} {enc : Bytes} :
    Item (levels + 1) v enc ↔ Simple v enc ∨ ∃ major n h rest, major < 7 ∧ Head major n h ∧
      Behind (Item levels) major n v rest ∧ enc = h ++ rest := by
  constructor
  · rintro (hitem | ⟨n, h, rest, hhead, hitem, rfl⟩)
    · cases v with
      | integer v =>
          obtain ⟨n, hn, ⟨rfl, hhead⟩ | ⟨rfl, hhead⟩⟩ := hitem
          · exact .inr ⟨0, n, enc, [], by omega, hhead, ⟨hn, rfl, rfl⟩, (List.append_nil _).symm⟩
          · exact .inr ⟨1, n, enc, [], by omega, hhead, ⟨hn, rfl, rfl⟩, (List.append_nil _).symm⟩
      | bytes b =>
          obtain ⟨h, hhead, rfl⟩ := hitem
          exact .inr ⟨2, _, h, b, by omega, hhead, ⟨rfl, rfl⟩, rfl⟩
      | text t =>
          obtain ⟨h, hhead, rfl⟩ := hitem
          exact .inr ⟨3, _, h, _, by omega, hhead, ⟨t, rfl, rfl, rfl⟩, rfl⟩
      | array l =>
          obtain ⟨h, parts, hhead, hparts, rfl⟩ := hitem
          exact .inr ⟨4, _, h, _, by omega, hhead, ⟨l, parts, rfl, rfl, hparts, rfl⟩, rfl⟩
      | map m =>
          obtain ⟨h, parts, hhead, hparts, rfl⟩ := hitem
          exact .inr ⟨5, _, h, _, by omega, hhead, ⟨m, parts, rfl, rfl, hparts, rfl⟩, rfl⟩
      | bool b => exact .inl (.inl ⟨b, rfl, hitem⟩)
      | null => exact .inl (.inr ⟨rfl, hitem⟩)
    · exact .inr ⟨6, n, h, rest, by omega, hhead, hitem, rfl⟩
  · rintro ((⟨b, rfl, rfl⟩ | ⟨rfl, rfl⟩) | ⟨major, n, h, rest, hmajor, hhead, hbehind, rfl⟩)
    · exact .inl rfl
    · exact .inl rfl
    · have hcases : major = 0 ∨ major = 1 ∨ major = 2 ∨ major = 3 ∨ major = 4 ∨ major = 5 ∨
          major = 6 := by omega
      rcases hcases with rfl | rfl | rfl | rfl | rfl | rfl | rfl
      · obtain ⟨hn, rfl, rfl⟩ := hbehind
        rw [List.append_nil]
        exact .inl ⟨n, hn, .inl ⟨rfl, hhead⟩⟩
      · obtain ⟨hn, rfl, rfl⟩ := hbehind
        rw [List.append_nil]
        exact .inl ⟨n, hn, .inr ⟨rfl, hhead⟩⟩
      · obtain ⟨rfl, rfl⟩ := hbehind
        exact .inl ⟨h, hhead, rfl⟩
      · obtain ⟨t, rfl, rfl, rfl⟩ := hbehind
        exact .inl ⟨h, hhead, rfl⟩
      · obtain ⟨l, parts, rfl, rfl, hparts, rfl⟩ := hbehind
        exact .inl ⟨h, parts, hhead, hparts, rfl⟩
      · obtain ⟨m, parts, rfl, rfl, hparts, rfl⟩ := hbehind
        exact .inl ⟨h, parts, hhead, hparts, rfl⟩
      · exact .inr ⟨n, h, rest, hhead, hbehind, rfl⟩

theorem Item.pos {levels : Nat} {v : Cbor} {enc : Bytes} (h : Item levels v enc) :
    0 < enc.length := by
  cases levels with
  | zero => exact h.elim
  | succ levels =>
      rcases item_iff.mp h with hsimple | ⟨_, _, _, rest, _, ⟨info, count, _, rfl⟩, _, rfl⟩
      · obtain ⟨first, rfl, -⟩ := hsimple.byte
        exact Nat.one_pos
      · rw [List.cons_append, List.length_cons]
        exact Nat.succ_pos _

/-- A reader takes what lies at the offset and is such an item. -/
def Accepts (input : Bytes) (inner : Reader Cbor) (item : Cbor → Bytes → Prop) : Prop :=
  ∀ p v q, inner p = .ok v q ↔ ∃ enc, item v enc ∧ Lies input p enc q

theorem entry_ok {inner : Reader Cbor} {e : Cbor × Cbor} :
    (do
      let k ← inner
      let v ← inner
      return (k, v)) p = .ok e q ↔ Two (fun p x q => inner p = .ok x q) p e q := by
  rw [run_bind]
  constructor
  · rintro ⟨k, r, hk, hrest⟩
    obtain ⟨v, r', hv, hreturn⟩ := run_bind.mp hrest
    cases hreturn
    exact ⟨r, hk, hv⟩
  · rintro ⟨r, hk, hv⟩
    exact ⟨e.1, r, hk, run_bind.mpr ⟨e.2, q, hv, rfl⟩⟩

/-- An entry of a map is a key and a value. -/
theorem two_iff {inner : Reader Cbor} {item : Cbor → Bytes → Prop}
    (hinner : Accepts input inner item) {e : Cbor × Cbor} :
    Two (fun p x q => inner p = .ok x q) p e q ↔
      ∃ part, (∃ pr : Bytes × Bytes, Both item e pr ∧ pr.1 ++ pr.2 = part) ∧ Lies input p part q := by
  constructor
  · rintro ⟨r, hk, hv⟩
    obtain ⟨k, hkitem, hklies⟩ := (hinner _ _ _).mp hk
    obtain ⟨v, hvitem, hvlies⟩ := (hinner _ _ _).mp hv
    exact ⟨k ++ v, ⟨(k, v), ⟨hkitem, hvitem⟩, rfl⟩, hklies.append hvlies⟩
  · rintro ⟨part, ⟨pr, ⟨hkitem, hvitem⟩, rfl⟩, hlies⟩
    obtain ⟨hklies, hvlies⟩ := hlies.split
    exact ⟨_, (hinner _ _ _).mpr ⟨_, hkitem, hklies⟩, (hinner _ _ _).mpr ⟨_, hvitem, hvlies⟩⟩

theorem orError_ok {α : Type} {x : Option α} {a : α} :
    orError x p = .ok a q ↔ x = some a ∧ q = p := by
  cases x with
  | none =>
      constructor
      · intro h
        cases h
      · rintro ⟨h, -⟩
        cases h
  | some b =>
      constructor
      · intro h
        cases h
        exact ⟨rfl, rfl⟩
      · rintro ⟨h, rfl⟩
        cases h
        rfl

theorem toI64_some {n : Nat} {v : Int} : toI64 n = some v ↔ n < 2 ^ 63 ∧ v = n := by
  unfold toI64
  split
  · rename_i hn
    constructor
    · intro h
      cases h
      exact ⟨hn, rfl⟩
    · rintro ⟨-, rfl⟩
      rfl
  · rename_i hn
    constructor
    · intro h
      cases h
    · rintro ⟨h, -⟩
      exact absurd h hn

section Body

variable {inner : Reader Cbor} {item : Cbor → Bytes → Prop} {n : Nat} {v : Cbor}

theorem integer_ok (hp : p ≤ input.length) :
    takeBody input size inner 0 n p = .ok v q ↔
      ∃ rest, Behind item 0 n v rest ∧ Lies input p rest q := by
  show (orError (toI64 n) >>= fun value => pure (Cbor.integer value)) p = _ ↔ _
  rw [run_bind]
  constructor
  · rintro ⟨value, r, hread, hreturn⟩
    obtain ⟨hvalue, rfl⟩ := orError_ok.mp hread
    obtain ⟨hn, rfl⟩ := toI64_some.mp hvalue
    cases hreturn
    exact ⟨[], ⟨hn, rfl, rfl⟩, .nil hp⟩
  · rintro ⟨rest, ⟨hn, rfl, rfl⟩, hlies⟩
    obtain rfl : q = p := hlies.stop_eq
    exact ⟨n, _, orError_ok.mpr ⟨toI64_some.mpr ⟨hn, rfl⟩, rfl⟩, rfl⟩

theorem negative_ok (hp : p ≤ input.length) :
    takeBody input size inner 1 n p = .ok v q ↔
      ∃ rest, Behind item 1 n v rest ∧ Lies input p rest q := by
  show (orError (toI64 n) >>= fun value => negate value >>= fun value =>
    pure (Cbor.integer value)) p = _ ↔ _
  rw [run_bind]
  have hnegate {value : Int} (hvalue : value < 2 ^ 63) :
      negate value = pure (-1 - value) := if_pos (by omega)
  constructor
  · rintro ⟨value, r, hread, hrest⟩
    obtain ⟨hvalue, rfl⟩ := orError_ok.mp hread
    obtain ⟨hn, rfl⟩ := toI64_some.mp hvalue
    rw [hnegate (by omega), pure_bind] at hrest
    cases hrest
    exact ⟨[], ⟨hn, rfl, rfl⟩, .nil hp⟩
  · rintro ⟨rest, ⟨hn, rfl, rfl⟩, hlies⟩
    obtain rfl : q = p := hlies.stop_eq
    refine ⟨n, _, orError_ok.mpr ⟨toI64_some.mpr ⟨hn, rfl⟩, rfl⟩, ?_⟩
    rw [hnegate (by omega), pure_bind]
    rfl

theorem lt_of_lies (hsize : input.length < size) {bytes : Bytes} (hlies : Lies input p bytes q) :
    bytes.length < size := by
  have hinside := hlies.inside
  have hstop := hlies.stop_eq
  omega

theorem bytes_ok (hsize : input.length < size) :
    takeBody input size inner 2 n p = .ok v q ↔
      ∃ rest, Behind item 2 n v rest ∧ Lies input p rest q := by
  show (orError (if n < size then some n else none) >>= fun length =>
    takeSlice input size length >>= fun bytes => pure (Cbor.bytes bytes)) p = _ ↔ _
  rw [run_bind]
  constructor
  · rintro ⟨length, r, hread, hrest⟩
    obtain ⟨hlength, rfl⟩ := orError_ok.mp hread
    obtain ⟨-, heq⟩ := Option.ite_none_right_eq_some.mp hlength
    obtain rfl := Option.some.inj heq
    obtain ⟨bytes, r', hslice, hreturn⟩ := run_bind.mp hrest
    cases hreturn
    obtain ⟨hlies, rfl⟩ := (takeSlice_ok hsize).mp hslice
    exact ⟨bytes, ⟨rfl, rfl⟩, hlies⟩
  · rintro ⟨rest, ⟨rfl, rfl⟩, hlies⟩
    have hlt := lt_of_lies hsize hlies
    have hslice := (takeSlice_ok hsize).mpr ⟨hlies, rfl⟩
    exact ⟨_, p, orError_ok.mpr ⟨if_pos hlt, rfl⟩, run_bind.mpr ⟨rest, q, hslice, rfl⟩⟩

theorem text_ok (hsize : input.length < size) :
    takeBody input size inner 3 n p = .ok v q ↔
      ∃ rest, Behind item 3 n v rest ∧ Lies input p rest q := by
  show (orError (if n < size then some n else none) >>= fun length =>
    takeSlice input size length >>= fun bytes =>
    orError (fromUtf8 bytes) >>= fun text => pure (Cbor.text text)) p = _ ↔ _
  rw [run_bind]
  constructor
  · rintro ⟨length, r, hread, hrest⟩
    obtain ⟨hlength, rfl⟩ := orError_ok.mp hread
    obtain ⟨-, heq⟩ := Option.ite_none_right_eq_some.mp hlength
    obtain rfl := Option.some.inj heq
    obtain ⟨bytes, r', hslice, hmore⟩ := run_bind.mp hrest
    obtain ⟨t, r'', hread, hreturn⟩ := run_bind.mp hmore
    obtain ⟨htext, rfl⟩ := orError_ok.mp hread
    cases hreturn
    obtain ⟨hlies, rfl⟩ := (takeSlice_ok hsize).mp hslice
    exact ⟨bytes, ⟨t, rfl, fromUtf8_sound htext, rfl⟩, hlies⟩
  · rintro ⟨rest, ⟨t, rfl, rfl, rfl⟩, hlies⟩
    have hlt := lt_of_lies hsize hlies
    have hslice := (takeSlice_ok hsize).mpr ⟨hlies, rfl⟩
    have htext := orError_ok.mpr ⟨fromUtf8_utf8 t, @rfl _ q⟩
    exact ⟨_, p, orError_ok.mpr ⟨if_pos hlt, rfl⟩,
      run_bind.mpr ⟨_, q, hslice, run_bind.mpr ⟨t, q, htext, rfl⟩⟩⟩

theorem array_ok (hp : p ≤ input.length) (hinner : Accepts input inner item) :
    takeBody input size inner 4 n p = .ok v q ↔
      ∃ rest, Behind item 4 n v rest ∧ Lies input p rest q := by
  show (times inner n >>= fun values => pure (Cbor.array values)) p = _ ↔ _
  have hchain (l : List Cbor) : Chain (fun p x q => inner p = .ok x q) p l q ↔
      ∃ parts, List.Forall₂ item l parts ∧ Lies input p parts.flatten q := by
    have hrel : (fun p x q => inner p = .ok x q) = fun p x q =>
        ∃ part, item x part ∧ Lies input p part q := by
      funext p x q
      exact propext (hinner p x q)
    rw [hrel, chain_lies_iff hp]
  rw [run_bind]
  constructor
  · rintro ⟨l, r, htimes, hreturn⟩
    cases hreturn
    obtain ⟨hlength, hrest⟩ := times_ok.mp htimes
    obtain ⟨parts, hparts, hlies⟩ := (hchain l).mp hrest
    exact ⟨_, ⟨l, parts, rfl, hlength, hparts, rfl⟩, hlies⟩
  · rintro ⟨rest, ⟨l, parts, rfl, hlength, hparts, rfl⟩, hlies⟩
    exact ⟨l, q, times_ok.mpr ⟨hlength, (hchain l).mpr ⟨parts, hparts, hlies⟩⟩, rfl⟩

theorem map_ok (hp : p ≤ input.length) (hinner : Accepts input inner item) :
    takeBody input size inner 5 n p = .ok v q ↔
      ∃ rest, Behind item 5 n v rest ∧ Lies input p rest q := by
  show (times (do
      let k ← inner
      let v ← inner
      return (k, v)) n >>= fun values => pure (Cbor.map values)) p = _ ↔ _
  have hrel : (fun p (e : Cbor × Cbor) q => (do
      let k ← inner
      let v ← inner
      return (k, v)) p = .ok e q) = fun p e q => ∃ part,
        (∃ pr : Bytes × Bytes, Both item e pr ∧ pr.1 ++ pr.2 = part) ∧ Lies input p part q := by
    funext p e q
    exact propext (entry_ok.trans (two_iff hinner))
  rw [run_bind]
  constructor
  · rintro ⟨m, r, htimes, hreturn⟩
    cases hreturn
    obtain ⟨hlength, hchain⟩ := times_ok.mp htimes
    rw [hrel, chain_lies_iff hp] at hchain
    obtain ⟨parts, hparts, hlies⟩ := hchain
    obtain ⟨pairs, hpairs, himage⟩ := between_of_forall₂ hparts
    rw [← List.forall₂_map_left_iff, List.forall₂_eq_eq_eq] at himage
    refine ⟨_, ⟨m, pairs, rfl, hlength, hpairs, rfl⟩, ?_⟩
    rw [List.flatMap_def, himage]
    exact hlies
  · rintro ⟨rest, ⟨m, pairs, rfl, hlength, hpairs, rfl⟩, hlies⟩
    refine ⟨m, q, times_ok.mpr ⟨hlength, ?_⟩, rfl⟩
    rw [hrel, chain_lies_iff hp]
    rw [List.flatMap_def] at hlies
    refine ⟨_, List.forall₂_map_right_iff.mpr ?_, hlies⟩
    exact hpairs.imp fun e pr he => ⟨pr, he, rfl⟩

theorem takeBody_ok (hsize : input.length < size) (hp : p ≤ input.length)
    (hinner : Accepts input inner item) {major : Nat} (hmajor : major < 7) :
    takeBody input size inner major n p = .ok v q ↔
      ∃ rest, Behind item major n v rest ∧ Lies input p rest q := by
  have hcases : major = 0 ∨ major = 1 ∨ major = 2 ∨ major = 3 ∨ major = 4 ∨ major = 5 ∨
      major = 6 := by omega
  rcases hcases with rfl | rfl | rfl | rfl | rfl | rfl | rfl
  · exact integer_ok hp
  · exact negative_ok hp
  · exact bytes_ok hsize
  · exact text_ok hsize
  · exact array_ok hp hinner
  · exact map_ok hp hinner
  · exact hinner p v q

/-- What is done with the first byte of an item, behind it. -/
def takeRest (input : Bytes) (size : Nat) (inner : Reader Cbor) (first : UInt8) : Reader Cbor :=
  if first.toNat / 32 = 7 then
    if first.toNat % 32 = 20 then return .bool false
    else if first.toNat % 32 = 21 then return .bool true
    else if first.toNat % 32 = 22 then return .null
    else throw .error
  else do
    let value ← takeArgument input size (first.toNat % 32)
    takeBody input size inner (first.toNat / 32) value

theorem bind_of_ok {α β : Type} {x : Reader α} {f : α → Reader β} {a : α}
    (h : x p = .ok a q) : (x >>= f) p = f a q := by
  simp only [bind, EStateM.bind, h]

theorem takeItem_eq (hsize : input.length < size) (levels : Nat) :
    takeItem input size (levels + 1) p = match input[p]? with
      | some first => takeRest input size (takeItem input size levels) first (p + 1)
      | none => .error .error p := by
  show (if p ≥ input.length then throw Fault.error else
    index input >>= fun first => advance size >>= fun _ =>
    takeRest input size (takeItem input size levels) first : Reader Cbor) p = _
  by_cases hp : p < input.length
  · have hindex : index input p = .ok input[p] p := by
      show (match input[p]? with
        | some byte => pure byte
        | none => throw Fault.panic : Reader UInt8) p = _
      rw [List.getElem?_eq_getElem hp]
      rfl
    have hadvance : advance size p = .ok () (p + 1) := by
      show (if p + 1 < size then set (p + 1) else throw Fault.panic : Reader Unit) p = _
      rw [if_pos (by omega)]
      rfl
    rw [if_neg (by omega), bind_of_ok hindex, bind_of_ok hadvance, List.getElem?_eq_getElem hp]
  · rw [if_pos (by omega), List.getElem?_eq_none (by omega)]
    rfl

theorem lies_getElem (hp : p < input.length) : Lies input p [input[p]] (p + 1) := by
  rw [lies_iff]
  refine ⟨by omega, hp, ?_⟩
  rw [Nat.add_sub_cancel_left, List.drop_eq_getElem_cons hp]
  rfl

/-- A simple value is known by the low bits of its byte. -/
theorem simple_ok {first : UInt8} (hseven : first.toNat / 32 = 7) :
    (if first.toNat % 32 = 20 then return .bool false
      else if first.toNat % 32 = 21 then return .bool true
      else if first.toNat % 32 = 22 then return .null
      else throw .error : Reader Cbor) p = .ok v q ↔ Simple v [first] ∧ q = p := by
  have hbyte {n : Nat} (byte : UInt8) (hn : byte.toNat = 224 + n) (hlow : n < 32) :
      first.toNat % 32 = n ↔ [first] = [byte] := by
    rw [List.singleton_inj, ← UInt8.toNat_inj]
    omega
  have hfalse := @hbyte 20 0xF4 rfl (by omega)
  have htrue := @hbyte 21 0xF5 rfl (by omega)
  have hnull := @hbyte 22 0xF6 rfl (by omega)
  have hpure {w : Cbor} : (pure w : Reader Cbor) p = .ok v q ↔ v = w ∧ q = p := by
    constructor
    · intro h
      cases h
      exact ⟨rfl, rfl⟩
    · rintro ⟨rfl, rfl⟩
      rfl
  unfold Simple
  split
  · rename_i hinfo
    rw [hpure, hfalse.mp hinfo]
    simp
  · rename_i hfalse'
    split
    · rename_i hinfo
      rw [hpure, htrue.mp hinfo]
      simp
    · rename_i htrue'
      split
      · rename_i hinfo
        rw [hpure, hnull.mp hinfo]
        simp
      · rename_i hnull'
        rw [hfalse] at hfalse'
        rw [htrue] at htrue'
        rw [hnull] at hnull'
        constructor
        · intro h
          cases h
        · rintro ⟨⟨b, -, hb⟩ | ⟨-, h⟩, -⟩
          · cases b with
            | false => exact absurd hb hfalse'
            | true => exact absurd hb htrue'
          · exact absurd h hnull'

/-- What an item has behind its first byte. -/
theorem takeRest_ok (hsize : input.length < size) (hp : p < input.length) {levels : Nat}
    (hinner : Accepts input inner (Item levels)) :
    takeRest input size inner input[p] (p + 1) = .ok v q ↔
      ∃ enc, Item (levels + 1) v enc ∧ Lies input p enc q := by
  have hbyte := lies_getElem hp
  have hlarge := input[p].toNat_lt
  simp only [item_iff]
  unfold takeRest
  split
  · rename_i hseven
    rw [simple_ok hseven]
    constructor
    · rintro ⟨hsimple, rfl⟩
      exact ⟨_, .inl hsimple, hbyte⟩
    · rintro ⟨enc, hsimple | ⟨major, n, h, rest, hmajor, hhead, hbehind, rfl⟩, hlies⟩
      · obtain ⟨first, rfl, -⟩ := hsimple.byte
        obtain rfl : q = p + 1 := hlies.stop_eq
        rw [hbyte.unique hlies]
        exact ⟨hsimple, rfl⟩
      · obtain ⟨hheadlies, -⟩ := hlies.split
        exact (Phone.Cbor.headAt_simple hmajor ⟨h, hhead, hheadlies⟩ hseven hbyte).elim
  · rename_i hnot
    rw [run_bind]
    constructor
    · rintro ⟨n, r, hargument, hbody⟩
      obtain ⟨count, hform, hnumber⟩ := (takeArgument_ok hsize hp).mp hargument
      obtain ⟨rest, hbehind, hrest⟩ :=
        (takeBody_ok hsize hnumber.inside hinner (by omega)).mp hbody
      obtain ⟨h, hhead, hheadlies⟩ :=
        (headAt_iff (by omega)).mpr ⟨input[p], rfl, hbyte, count, hform, hnumber⟩
      exact ⟨h ++ rest, .inr ⟨_, n, h, rest, by omega, hhead, hbehind, rfl⟩, hheadlies.append hrest⟩
    · rintro ⟨enc, hsimple | ⟨major, n, h, rest, hmajor, hhead, hbehind, rfl⟩, hlies⟩
      · obtain ⟨first, rfl, hseven⟩ := hsimple.byte
        obtain rfl : q = p + 1 := hlies.stop_eq
        rw [List.singleton_inj.mp (hbyte.unique hlies)] at hnot
        exact absurd hseven hnot
      · obtain ⟨hheadlies, hrest⟩ := hlies.split
        obtain ⟨byte, rfl, hbyte', count, hform, hnumber⟩ :=
          (headAt_iff (by omega)).mp ⟨h, hhead, hheadlies⟩
        obtain rfl : input[p] = byte := List.singleton_inj.mp (hbyte.unique hbyte')
        refine ⟨n, _, (takeArgument_ok hsize hp).mpr ⟨count, hform, hnumber⟩, ?_⟩
        exact (takeBody_ok hsize hnumber.inside hinner hmajor).mpr ⟨rest, hbehind, hrest⟩

/-- The decoder takes the items of the grammar. -/
theorem takeItem_ok (hsize : input.length < size) (levels : Nat) :
    Accepts input (takeItem input size levels) (Item levels) := by
  induction levels with
  | zero =>
      intro p v q
      constructor
      · intro h
        cases h
      · rintro ⟨enc, hitem, -⟩
        exact hitem.elim
  | succ levels ih =>
      intro p v q
      rw [takeItem_eq hsize]
      by_cases hp : p < input.length
      · rw [List.getElem?_eq_getElem hp]
        exact takeRest_ok hsize hp ih
      · rw [List.getElem?_eq_none (by omega)]
        constructor
        · intro h
          cases h
        · rintro ⟨enc, hitem, hlies⟩
          have hpos := hitem.pos
          have hinside := hlies.inside
          have hstop := hlies.stop_eq
          omega

end Body

end Taking

end Passkey.Daemon.Cbor

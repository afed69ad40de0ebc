import Passkey.Phone.Authenticator
import Passkey.Phone.Canonical

/-!
What the phone's decoder takes for a value. Numbers of 2^63 and more come out
negative, so they change their sign, let a string be cut to its low 32 bits and
be filled up with zeros, and make arrays and maps empty. Where no item that the
decoder comes to has such a head, the bytes it read are an encoding of what it
returns, provided that text is UTF-8 and no two keys of a map are equal.
-/

namespace Passkey.Phone.Cbor

open Library Utf8

/-! ### What the decoder reads -/

/-- An item as the decoder takes it, with the number of its head. -/
inductive Item where
  | int (negative : Bool) (n : Nat)
  | string (text : Bool) (n : Nat) (s : Bytes)
  | array (n : Nat) (l : List Item)
  | map (n : Nat) (m : List (Item × Item))
  | bool (b : Bool)
  | null

namespace Item

mutual

/-- The Java object that comes of an item. -/
def value : Item → Value
  | .int negative n => .int (if negative then -1 - wrap 64 n else wrap 64 n)
  | .string text _ s => if text then .text (Cbor.string s) else .bytes s
  | .array _ l => .array (values l)
  | .map _ m => .map ((valueEntries m).foldl (fun m e => put m e.1 e.2) [])
  | .bool b => .bool b
  | .null => .null

def values : List Item → List Value
  | [] => []
  | x :: rest => value x :: values rest

def valueEntries : List (Item × Item) → List (Value × Value)
  | [] => []
  | (k, v) :: rest => (value k, value v) :: valueEntries rest

end

/-- The objects of a key and its value. -/
def entry (e : Item × Item) : Value × Value :=
  (e.1.value, e.2.value)

theorem values_eq (l : List Item) : values l = l.map value := by
  induction l with
  | nil => rfl
  | cons x rest ih => rw [values, ih, List.map_cons]

theorem valueEntries_eq (m : List (Item × Item)) : valueEntries m = m.map entry := by
  induction m with
  | nil => rfl
  | cons e rest ih => rw [valueEntries, ih, List.map_cons, entry]

end Item

/-- A head of this type and number stands at `p` and ends before `q`. -/
def HeadAt (b : Bytes) (p major n q : Nat) : Prop :=
  ∃ h, Head major n h ∧ Lies b p h q

/-- How many bytes are taken for a string of `n`: a number that came out
negative counts by its low 32 bits. -/
def taken (n : Nat) : Nat :=
  if n < 2 ^ 63 then n else n % 2 ^ 32

/-- How many items are taken for an array or a map of `n`. -/
def rounds (n : Nat) : Nat :=
  if n < 2 ^ 63 then n else 0

/-- The bytes taken from `p` on, with zeros for what is missing. -/
def filled (b : Bytes) (p n : Nat) : Bytes :=
  let s := (b.drop p).take n
  s ++ List.replicate (n - s.length) 0

/-- The decoder takes the bytes from `p` up to `q` for the item. -/
def Stands (b : Bytes) : Nat → Nat → Item → Nat → Prop
  | 0, _, _, _ => False
  | _ + 1, p, .int negative n, q => HeadAt b p (if negative then 1 else 0) n q
  | _ + 1, p, .string text n s, q => ∃ r, HeadAt b p (if text then 3 else 2) n r ∧
      (n < 2 ^ 63 → r + n ≤ b.length) ∧ r + taken n < 2 ^ 31 ∧
      s = filled b r (taken n) ∧ q = r + taken n
  | levels + 1, p, .array n l, q => ∃ r, HeadAt b p 4 n r ∧ l.length = rounds n ∧
      Library.Chain (Stands b levels) r l q
  | levels + 1, p, .map n m, q => ∃ r, HeadAt b p 5 n r ∧ m.length = rounds n ∧
      Library.Chain (Two (Stands b levels)) r m q
  | _ + 1, p, .bool x, q => Lies b p [if x then 0xF5 else 0xF4] q
  | _ + 1, p, .null, q => Lies b p [0xF6] q

/-- The item and all in it have numbers below 2^63, its text is UTF-8, and of
two keys of a map the later one is not equal to the earlier. -/
def Plain : Nat → Item → Prop
  | 0, _ => False
  | _ + 1, .int _ n => n < 2 ^ 63
  | _ + 1, .string text n s => n < 2 ^ 63 ∧ (text = true → ∃ t, s = utf8 t)
  | levels + 1, .array n l => n < 2 ^ 63 ∧ ∀ x ∈ l, Plain levels x
  | levels + 1, .map n m => n < 2 ^ 63 ∧ (∀ e ∈ m, Plain levels e.1 ∧ Plain levels e.2) ∧
      m.Pairwise fun x y => ¬ equals y.1.value x.1.value = true
  | _ + 1, .bool _ => True
  | _ + 1, .null => True

/-! ### Reading heads -/

section Heads

variable {b : Bytes} {p q : Nat}

theorem byteAt_iff {x : Nat} :
    byteAt b p = .ok (x, q) ↔ ∃ byte : UInt8, x = byte.toNat ∧ Lies b p [byte] q := by
  unfold byteAt
  constructor
  · intro h
    split at h
    · rename_i byte hbyte
      cases h
      obtain ⟨hp, rfl⟩ := List.getElem?_eq_some_iff.mp hbyte
      refine ⟨_, rfl, b.take p, b.drop (p + 1), ?_, ?_, rfl⟩
      · rw [List.singleton_append, List.getElem_cons_drop, List.take_append_drop]
      · rw [List.length_take]
        omega
    · cases h
  · rintro ⟨byte, rfl, before, after, rfl, rfl, rfl⟩
    simp

/-- The bytes of a number, wrapped at each of them. -/
def wrapped (start : Int) (bytes : Bytes) : Int :=
  bytes.foldl (fun v x => wrap 64 (v * 256 + x.toNat)) start

theorem longAt_iff {count : Nat} {start v : Int} (hp : p ≤ b.length) :
    longAt b count start p = .ok (v, q) ↔
      ∃ bytes, bytes.length = count ∧ Lies b p bytes q ∧ v = wrapped start bytes := by
  induction count generalizing p start with
  | zero =>
      constructor
      · intro h
        cases h
        exact ⟨[], rfl, .nil hp, rfl⟩
      · rintro ⟨bytes, hlength, hlies, rfl⟩
        obtain rfl := List.eq_nil_of_length_eq_zero hlength
        obtain rfl : q = p := hlies.stop_eq
        rfl
  | succ count ih =>
      constructor
      · intro h
        obtain ⟨⟨x, r⟩, hbyte, h⟩ := bind_ok h
        obtain ⟨byte, rfl, hlies⟩ := byteAt_iff.mp hbyte
        obtain ⟨bytes, hlength, hmore, rfl⟩ := (ih hlies.inside).mp h
        exact ⟨byte :: bytes, by rw [List.length_cons, hlength], hlies.append hmore, rfl⟩
      · rintro ⟨bytes, hlength, hlies, rfl⟩
        cases bytes with
        | nil => cases hlength
        | cons byte bytes =>
            obtain ⟨hfirst, hmore⟩ := (List.singleton_append ▸ hlies).split
            have hbyte := byteAt_iff.mpr ⟨byte, rfl, hfirst⟩
            rw [longAt, hbyte]
            exact (ih hfirst.inside).mpr ⟨bytes, Nat.succ.inj hlength, hmore, rfl⟩

theorem wrap_wrap (v w : Int) : wrap 64 (wrap 64 v * 256 + w) = wrap 64 (v * 256 + w) := by
  unfold wrap
  rw [← Int.bmod_add_bmod, Int.bmod_mul_bmod, Int.bmod_add_bmod]

/-- Wrapping at each byte is wrapping once. -/
theorem wrapped_eq (bytes : Bytes) : wrapped 0 bytes = wrap 64 (ofBigEndian bytes) := by
  induction bytes using List.reverseRecOn with
  | nil => rfl
  | append_singleton bytes x ih =>
      have hlast : wrapped 0 (bytes ++ [x]) = wrap 64 (wrapped 0 bytes * 256 + x.toNat) := by
        simp [wrapped]
      rw [hlast, ih, wrap_wrap, ofBigEndian_snoc, Nat.cast_add, Nat.cast_mul]
      rfl

theorem long_iff {count : Nat} {v : Int} (hp : p ≤ b.length) :
    longAt b count 0 p = .ok (v, q) ↔
      ∃ n, n < 256 ^ count ∧ Lies b p (bigEndian count n) q ∧ v = wrap 64 n := by
  rw [longAt_iff hp]
  constructor
  · rintro ⟨bytes, rfl, hlies, rfl⟩
    refine ⟨ofBigEndian bytes, ofBigEndian_lt bytes, ?_, wrapped_eq bytes⟩
    rw [bigEndian_ofBigEndian]
    exact hlies
  · rintro ⟨n, hn, hlies, hv⟩
    refine ⟨bigEndian count n, length_bigEndian count n, hlies, ?_⟩
    rw [hv, wrapped_eq, ofBigEndian_bigEndian hn]

/-- The additional information says which form a head has. -/
theorem form_iff {n info count : Nat} :
    Form n info count ↔ info < 24 ∧ n = info ∧ count = 0 ∨
      info = 24 ∧ count = 1 ∧ n < 256 ^ 1 ∨ info = 25 ∧ count = 2 ∧ n < 256 ^ 2 ∨
      info = 26 ∧ count = 4 ∧ n < 256 ^ 4 ∨ info = 27 ∧ count = 8 ∧ n < 256 ^ 8 := by
  constructor
  · intro h
    cases h <;> omega
  · rintro (⟨h, rfl, rfl⟩ | ⟨rfl, rfl, h⟩ | ⟨rfl, rfl, h⟩ | ⟨rfl, rfl, h⟩ | ⟨rfl, rfl, h⟩)
    · exact .short h
    · exact .one h
    · exact .two h
    · exact .four h
    · exact .eight h

/-- What is read behind the first byte of a head. -/
theorem arg_iff {info : Nat} {v : Int} (hp : p ≤ b.length) :
    arg b p info = .ok (v, q) ↔
      ∃ n count, Form n info count ∧ Lies b p (bigEndian count n) q ∧ v = wrap 64 n := by
  have hlong {count : Nat}
      (hform : ∀ n count', Form n info count' ↔ count' = count ∧ n < 256 ^ count) :
      longAt b count 0 p = .ok (v, q) ↔
        ∃ n count, Form n info count ∧ Lies b p (bigEndian count n) q ∧ v = wrap 64 n := by
    rw [long_iff hp]
    constructor
    · rintro ⟨n, hn, hlies, hv⟩
      exact ⟨n, count, (hform n count).mpr ⟨rfl, hn⟩, hlies, hv⟩
    · rintro ⟨n, count', hn, hlies, hv⟩
      obtain ⟨rfl, hn⟩ := (hform n count').mp hn
      exact ⟨n, hn, hlies, hv⟩
  unfold arg
  split
  · rename_i hshort
    have hsmall : wrap 64 (info : Int) = info := @wrap_of_lt info (by omega) (by omega)
    constructor
    · intro h
      cases h
      exact ⟨info, 0, .short hshort, .nil hp, hsmall.symm⟩
    · rintro ⟨n, count, hform, hlies, hv⟩
      obtain ⟨rfl, rfl⟩ : n = info ∧ count = 0 := by
        rw [form_iff] at hform
        omega
      obtain rfl : q = p := hlies.stop_eq
      rw [hv, hsmall]
  · split
    · apply hlong
      intro n count'
      rw [form_iff]
      omega
    · split
      · apply hlong
        intro n count'
        rw [form_iff]
        omega
      · split
        · apply hlong
          intro n count'
          rw [form_iff]
          omega
        · split
          · apply hlong
            intro n count'
            rw [form_iff]
            omega
          · constructor
            · intro h
              cases h
            · rintro ⟨n, count, hform, -⟩
              rw [form_iff] at hform
              omega

/-- A head in two parts: its first byte and the bytes of its number. -/
theorem headAt_iff {major n : Nat} (hmajor : major < 8) :
    HeadAt b p major n q ↔ ∃ byte : UInt8, byte.toNat / 32 = major ∧ Lies b p [byte] (p + 1) ∧
      ∃ count, Form n (byte.toNat % 32) count ∧ Lies b (p + 1) (bigEndian count n) q := by
  constructor
  · rintro ⟨h, ⟨info, count, hform, rfl⟩, hlies⟩
    obtain ⟨hfirst, hinfo⟩ := first_parts hmajor hform.bound
    obtain ⟨hbyte, hnumber⟩ := (List.singleton_append ▸ hlies).split
    exact ⟨_, hfirst, hbyte, count, hinfo.symm ▸ hform, hnumber⟩
  · rintro ⟨byte, rfl, hbyte, count, hform, hnumber⟩
    refine ⟨byte :: bigEndian count n, ⟨_, count, hform, ?_⟩, hbyte.append hnumber⟩
    have hparts : byte.toNat / 32 * 32 + byte.toNat % 32 = byte.toNat := by omega
    rw [hparts, UInt8.ofNat_toNat]

/-- Two heads at one position are the same. -/
theorem headAt_unique {major major' n n' q' : Nat} (hmajor : major < 8) (hmajor' : major' < 8)
    (h : HeadAt b p major n q) (h' : HeadAt b p major' n' q') :
    major = major' ∧ n = n' ∧ q = q' := by
  obtain ⟨byte, rfl, hbyte, count, hform, hnumber⟩ := (headAt_iff hmajor).mp h
  obtain ⟨byte', rfl, hbyte', count', hform', hnumber'⟩ := (headAt_iff hmajor').mp h'
  obtain rfl : byte = byte' := List.singleton_inj.mp (hbyte.unique hbyte')
  obtain rfl : count = count' := by
    rw [form_iff] at hform hform'
    omega
  have hq : q = q' := by
    rw [hnumber.stop_eq, hnumber'.stop_eq, length_bigEndian, length_bigEndian]
  subst hq
  refine ⟨rfl, ?_, rfl⟩
  have hbytes : bigEndian count n = bigEndian count n' := hnumber.unique hnumber'
  by_cases hshort : byte.toNat % 32 < 24
  · rw [form_iff] at hform hform'
    omega
  · have hfits {m : Nat} (hm : Form m (byte.toNat % 32) count) : m < 256 ^ count := by
      rcases form_iff.mp hm with h | ⟨-, rfl, h⟩ | ⟨-, rfl, h⟩ | ⟨-, rfl, h⟩ | ⟨-, rfl, h⟩
      · exact absurd h.1 hshort
      · exact h
      · exact h
      · exact h
      · exact h
    rw [← ofBigEndian_bigEndian (hfits hform), hbytes, ofBigEndian_bigEndian (hfits hform')]

theorem HeadAt.lt {major n : Nat} (h : HeadAt b p major n q) : n < 2 ^ 64 := by
  obtain ⟨_, ⟨info, count, hform, -⟩, -⟩ := h
  rw [form_iff] at hform
  omega

end Heads

/-! ### Reading strings -/

section Strings

variable {b : Bytes} {q r n : Nat}

theorem wrap_large (hlow : 2 ^ 63 ≤ n) (hhigh : n < 2 ^ 64) :
    wrap 64 (n : Int) = n - 2 ^ 64 := by
  have hmod : (n : Int) % ((2 ^ 64 : Nat) : Int) = n := Int.emod_eq_of_lt (by omega) (by omega)
  rw [wrap, Int.bmod_def, hmod, if_neg (by omega)]
  rfl

theorem narrow (v : Int) :
    wrap 32 v = if v % 2 ^ 32 < 2 ^ 31 then v % 2 ^ 32 else v % 2 ^ 32 - 2 ^ 32 := by
  rw [wrap, Int.bmod_def]
  rfl

theorem taken_lt (hfits : n < 2 ^ 63 → n < 2 ^ 31) : taken n < 2 ^ 32 := by
  unfold taken
  split
  · have hsmall := hfits ‹_›
    omega
  · omega

/-- Where the copy of a string would stop. -/
theorem stop_eq (hr : r < 2 ^ 31) (hn : n < 2 ^ 64) (hfits : n < 2 ^ 63 → n < 2 ^ 31) :
    wrap 32 (r + wrap 32 (wrap 64 n))
      = if r + taken n < 2 ^ 31 then ((r + taken n : Nat) : Int) else r + taken n - 2 ^ 32 := by
  have hlow : wrap 32 (wrap 64 n)
      = if taken n < 2 ^ 31 then (taken n : Int) else taken n - 2 ^ 32 := by
    unfold taken
    by_cases hsmall : n < 2 ^ 63
    · rw [if_pos hsmall, @wrap_of_lt n (by omega) (by omega), narrow]
      have hn31 := hfits hsmall
      rw [if_pos hn31]
      split <;> omega
    · rw [if_neg hsmall, wrap_large (by omega) hn, narrow]
      split <;> split <;> omega
  have htaken := taken_lt hfits
  rw [hlow, narrow]
  split <;> split <;> split <;> omega

theorem copyOfRange_eq (hr : r ≤ b.length) (stop : Int) :
    copyOfRange b r stop = if (r : Int) > stop then .error .illegalArgument
      else .ok (filled b r (stop - r).toNat) := by
  unfold copyOfRange
  have hinside : ¬ ((decide ((r : Int) < 0) || decide ((r : Int) > b.length)) = true) := by
    simp only [Bool.or_eq_true, decide_eq_true_eq]
    omega
  rw [if_neg hinside, Int.toNat_natCast]
  rfl

theorem readBody_eq (levels : Nat) (text : Bool) (v : Int) :
    readBody b levels (if text then 3 else 2) v r =
      if v > (b.length : Int) - r then .error .illegalArgument
      else do
        let s ← copyOfRange b r (wrap 32 (r + wrap 32 v))
        return (if text then .text (string s) else .bytes s, (wrap 32 (r + wrap 32 v)).toNat) := by
  cases text <;> rfl

/-- Which strings the decoder takes, and for what. -/
theorem readString_iff {levels : Nat} {text : Bool} {v : Value} (hlen : b.length < 2 ^ 31)
    (hr : r ≤ b.length) (hn : n < 2 ^ 64) :
    readBody b levels (if text then 3 else 2) (wrap 64 n) r = .ok (v, q) ↔
      ((n < 2 ^ 63 → r + n ≤ b.length) ∧ r + taken n < 2 ^ 31 ∧ q = r + taken n) ∧
        v = (Item.string text n (filled b r (taken n))).value := by
  rw [readBody_eq]
  by_cases hlong : wrap 64 (n : Int) > (b.length : Int) - r
  · rw [if_pos hlong]
    constructor
    · intro h
      cases h
    · rintro ⟨⟨hfits, -, -⟩, -⟩
      exfalso
      by_cases hsmall : n < 2 ^ 63
      · have hinside := hfits hsmall
        rw [@wrap_of_lt n (by omega) (by omega)] at hlong
        omega
      · rw [wrap_large (by omega) hn] at hlong
        omega
  · have hfits : n < 2 ^ 63 → r + n ≤ b.length := by
      intro hsmall
      rw [@wrap_of_lt n (by omega) (by omega)] at hlong
      omega
    have hbound : n < 2 ^ 63 → n < 2 ^ 31 := by
      intro hsmall
      have hinside := hfits hsmall
      omega
    have hstop := @stop_eq r n (by omega) hn hbound
    rw [if_neg hlong, copyOfRange_eq hr, hstop]
    by_cases hint : r + taken n < 2 ^ 31
    · have hcount : (((r + taken n : Nat) : Int) - r).toNat = taken n := by omega
      rw [if_pos hint, if_neg (by omega), hcount, Int.toNat_natCast]
      constructor
      · intro h
        obtain ⟨rfl, rfl⟩ := Prod.mk.inj (Except.ok.inj h)
        exact ⟨⟨hfits, hint, rfl⟩, rfl⟩
      · rintro ⟨⟨-, -, rfl⟩, rfl⟩
        rfl
    · have htaken := taken_lt hbound
      rw [if_neg hint, if_pos (by omega)]
      constructor
      · intro h
        cases h
      · rintro ⟨⟨-, h, -⟩, -⟩
        exact absurd h hint

end Strings

/-! ### Reading items -/

section Reading

variable {b : Bytes} {levels p q r : Nat} {v : Value}

/-- Where a head is, no simple value is. -/
theorem headAt_simple {major n : Nat} (hmajor : major < 7) (h : HeadAt b p major n r)
    {byte : UInt8} (hseven : byte.toNat / 32 = 7) (hlies : Lies b p [byte] q) : False := by
  obtain ⟨byte', hdiv, hbyte', -⟩ := (headAt_iff (by omega)).mp h
  obtain rfl : q = p + 1 := hlies.stop_eq
  obtain rfl : byte = byte' := List.singleton_inj.mp (hlies.unique hbyte')
  omega

theorem rounds_eq {n : Nat} (hn : n < 2 ^ 64) : (wrap 64 (n : Int)).toNat = rounds n := by
  unfold rounds
  split
  · rw [@wrap_of_lt n (by omega) (by omega)]
    omega
  · rw [wrap_large (by omega) hn]
    omega

/-- What a level reads is what stands there. -/
def Takes (b : Bytes) (levels : Nat) : Prop :=
  ∀ p v q, read b levels p = .ok (v, q) ↔ ∃ item, Stands b levels p item q ∧ item.value = v

theorem array_iff (hlevel : Takes b levels) {n : Nat} (hn : n < 2 ^ 64) :
    readBody b levels 4 (wrap 64 n) r = .ok (v, q) ↔
      ∃ l, (l.length = rounds n ∧ Library.Chain (Stands b levels) r l q) ∧ v = (Item.array n l).value := by
  have hbody : readBody b levels 4 (wrap 64 n) r
      = (items (read b levels) (wrap 64 (n : Int)).toNat r >>= fun y => .ok (.array y.1, y.2)) := by
    rw [← readItems_eq]
    rfl
  rw [hbody, rounds_eq hn]
  constructor
  · intro h
    obtain ⟨⟨vs, q'⟩, hitems, h⟩ := bind_ok h
    cases h
    obtain ⟨hlength, hchain⟩ := items_iff.mp hitems
    obtain ⟨l, hl, rfl⟩ := (Library.Chain.congr hlevel).mp hchain
    refine ⟨l, ⟨by rw [← hlength, List.length_map], hl⟩, ?_⟩
    rw [Item.value, Item.values_eq]
  · rintro ⟨l, ⟨hlength, hl⟩, rfl⟩
    have hitems : items (read b levels) (rounds n) r = .ok (l.map Item.value, q) :=
      items_iff.mpr ⟨by rw [List.length_map, hlength], (Library.Chain.congr hlevel).mpr ⟨l, hl, rfl⟩⟩
    rw [hitems, Item.value, Item.values_eq]
    rfl

theorem takes_two (hlevel : Takes b levels) (p : Nat) (e : Value × Value) (q : Nat) :
    pair (read b levels) (read b levels) p = .ok (e, q) ↔
      ∃ x, Two (Stands b levels) p x q ∧ Item.entry x = e := by
  rw [pair_iff]
  constructor
  · rintro ⟨r, hkey, hvalue⟩
    obtain ⟨k, hk, hkv⟩ := (hlevel _ _ _).mp hkey
    obtain ⟨v, hv, hvv⟩ := (hlevel _ _ _).mp hvalue
    exact ⟨(k, v), ⟨r, hk, hv⟩, Prod.ext hkv hvv⟩
  · rintro ⟨x, ⟨r, hk, hv⟩, rfl⟩
    exact ⟨r, (hlevel _ _ _).mpr ⟨x.1, hk, rfl⟩, (hlevel _ _ _).mpr ⟨x.2, hv, rfl⟩⟩

theorem map_iff (hlevel : Takes b levels) {n : Nat} (hn : n < 2 ^ 64) :
    readBody b levels 5 (wrap 64 n) r = .ok (v, q) ↔
      ∃ m, (m.length = rounds n ∧ Library.Chain (Two (Stands b levels)) r m q) ∧
        v = (Item.map n m).value := by
  have hbody : readBody b levels 5 (wrap 64 n) r
      = (items (pair (read b levels) (read b levels)) (wrap 64 (n : Int)).toNat r >>= fun y =>
          .ok (.map (y.1.foldl (fun m e => put m e.1 e.2) []), y.2)) := by
    rw [← readItems_eq]
    rfl
  rw [hbody, rounds_eq hn]
  constructor
  · intro h
    obtain ⟨⟨es, q'⟩, hitems, h⟩ := bind_ok h
    cases h
    obtain ⟨hlength, hchain⟩ := items_iff.mp hitems
    obtain ⟨m, hm, rfl⟩ := (Library.Chain.congr (takes_two hlevel)).mp hchain
    refine ⟨m, ⟨by rw [← hlength, List.length_map], hm⟩, ?_⟩
    rw [Item.value, Item.valueEntries_eq]
  · rintro ⟨m, ⟨hlength, hm⟩, rfl⟩
    have hitems : items (pair (read b levels) (read b levels)) (rounds n) r
        = .ok (m.map Item.entry, q) :=
      items_iff.mpr ⟨by rw [List.length_map, hlength],
        (Library.Chain.congr (takes_two hlevel)).mpr ⟨m, hm, rfl⟩⟩
    rw [hitems, Item.value, Item.valueEntries_eq]
    rfl

theorem readBody_int (negative : Bool) (w : Int) :
    readBody b levels (if negative then 1 else 0) w r
      = .ok (.int (if negative then -1 - w else w), r) := by
  cases negative <;> rfl

theorem int_iff {negative : Bool} {n : Nat} :
    readBody b levels (if negative then 1 else 0) (wrap 64 n) r = .ok (v, q) ↔
      q = r ∧ v = (Item.int negative n).value := by
  rw [readBody_int, Item.value]
  constructor
  · intro h
    obtain ⟨hv, hq⟩ := Prod.mk.inj (Except.ok.inj h)
    exact ⟨hq.symm, hv.symm⟩
  · intro h
    rw [h.1, h.2]

theorem readBody_tag (w : Int) : readBody b levels 6 w r = .error .illegalArgument := rfl

/-- What is read behind a head. -/
theorem readBody_iff (hlen : b.length < 2 ^ 31) (hlevel : Takes b levels) {major n : Nat}
    (hmajor : major < 7) (hhead : HeadAt b p major n r) :
    readBody b levels major (wrap 64 n) r = .ok (v, q) ↔
      ∃ item, Stands b (levels + 1) p item q ∧ item.value = v := by
  have hn := hhead.lt
  have hr : r ≤ b.length := by
    obtain ⟨_, -, hlies⟩ := hhead
    exact hlies.inside
  constructor
  · intro h
    have hcases : major = 0 ∨ major = 1 ∨ major = 2 ∨ major = 3 ∨ major = 4 ∨ major = 5 ∨
        major = 6 := by omega
    rcases hcases with rfl | rfl | rfl | rfl | rfl | rfl | rfl
    · obtain ⟨rfl, hv⟩ := (@int_iff b levels q r v false n).mp h
      exact ⟨.int false n, hhead, hv.symm⟩
    · obtain ⟨rfl, hv⟩ := (@int_iff b levels q r v true n).mp h
      exact ⟨.int true n, hhead, hv.symm⟩
    · obtain ⟨⟨hfits, hint, hq⟩, hv⟩ := (@readString_iff b q r n levels false v hlen hr hn).mp h
      exact ⟨.string false n _, ⟨r, hhead, hfits, hint, rfl, hq⟩, hv.symm⟩
    · obtain ⟨⟨hfits, hint, hq⟩, hv⟩ := (@readString_iff b q r n levels true v hlen hr hn).mp h
      exact ⟨.string true n _, ⟨r, hhead, hfits, hint, rfl, hq⟩, hv.symm⟩
    · obtain ⟨l, hl, hv⟩ := (array_iff hlevel hn).mp h
      exact ⟨.array n l, ⟨r, hhead, hl⟩, hv.symm⟩
    · obtain ⟨m, hm, hv⟩ := (map_iff hlevel hn).mp h
      exact ⟨.map n m, ⟨r, hhead, hm⟩, hv.symm⟩
    · rw [readBody_tag] at h
      cases h
  · rintro ⟨item, hstands, rfl⟩
    cases item with
    | int negative m =>
        obtain ⟨rfl, rfl, rfl⟩ := headAt_unique (by omega) (by split <;> omega) hhead hstands
        exact int_iff.mpr ⟨rfl, rfl⟩
    | string text m s =>
        obtain ⟨r', hhead', hfits, hint, rfl, hq⟩ := hstands
        obtain ⟨rfl, rfl, rfl⟩ := headAt_unique (by omega) (by split <;> omega) hhead hhead'
        exact (readString_iff hlen hr hn).mpr ⟨⟨hfits, hint, hq⟩, rfl⟩
    | array m l =>
        obtain ⟨r', hhead', hl⟩ := hstands
        obtain ⟨rfl, rfl, rfl⟩ := headAt_unique (by omega) (by omega) hhead hhead'
        exact (array_iff hlevel hn).mpr ⟨l, hl, rfl⟩
    | map m es =>
        obtain ⟨r', hhead', hes⟩ := hstands
        obtain ⟨rfl, rfl, rfl⟩ := headAt_unique (by omega) (by omega) hhead hhead'
        exact (map_iff hlevel hn).mpr ⟨es, hes, rfl⟩
    | bool x =>
        have hlies : Lies b p [if x then 0xF5 else 0xF4] q := hstands
        exact (headAt_simple hmajor hhead (by cases x <;> rfl) hlies).elim
    | null =>
        have hlies : Lies b p [0xF6] q := hstands
        exact (headAt_simple hmajor hhead rfl hlies).elim

/-- A simple value, by the low bits of its byte. -/
def simple (info q : Nat) : Except Thrown (Value × Nat) :=
  if info = 20 then .ok (.bool false, q)
  else if info = 21 then .ok (.bool true, q)
  else if info = 22 then .ok (.null, q)
  else .error .illegalArgument

theorem read_eq (b : Bytes) (levels p : Nat) :
    read b (levels + 1) p = (byteAt b p >>= fun x =>
      if x.1 / 32 = 7 then simple (x.1 % 32) x.2
      else arg b x.2 (x.1 % 32) >>= fun y => readBody b levels (x.1 / 32) y.1 y.2) := by
  rw [read]
  rfl

/-- The decoder reads what stands at a position, and nothing else. -/
theorem read_iff (hlen : b.length < 2 ^ 31) (levels : Nat) : Takes b levels := by
  induction levels with
  | zero =>
      intro p v q
      constructor
      · intro h
        cases h
      · rintro ⟨item, hstands, -⟩
        exact absurd hstands id
  | succ levels ih =>
      intro p v q
      rw [read_eq]
      constructor
      · intro h
        obtain ⟨⟨x, q'⟩, hbyte, h⟩ := bind_ok h
        obtain ⟨byte, rfl, hlies⟩ := byteAt_iff.mp hbyte
        obtain rfl : q' = p + 1 := hlies.stop_eq
        dsimp only at h
        split at h
        · rename_i hseven
          have hlow {x : UInt8} (hx : x.toNat = 224 + byte.toNat % 32) : Lies b p [x] (p + 1) := by
            have hsame : x = byte := by
              apply UInt8.toNat_inj.mp
              omega
            rw [hsame]
            exact hlies
          unfold simple at h
          split at h
          · rename_i hinfo
            cases h
            exact ⟨.bool false, hlow (by rw [hinfo]; rfl), rfl⟩
          · split at h
            · rename_i hinfo
              cases h
              exact ⟨.bool true, hlow (by rw [hinfo]; rfl), rfl⟩
            · split at h
              · rename_i hinfo
                cases h
                exact ⟨.null, hlow (by rw [hinfo]; rfl), rfl⟩
              · cases h
        · rename_i hnot
          have hmajor : byte.toNat / 32 < 7 := by
            have hsize := byte.toNat_lt
            omega
          obtain ⟨⟨w, r⟩, harg, h⟩ := bind_ok h
          obtain ⟨n, count, hform, hnumber, hw⟩ := (arg_iff hlies.inside).mp harg
          have hbody : readBody b levels (byte.toNat / 32) w r = .ok (v, q) := h
          rw [hw] at hbody
          have hhead : HeadAt b p (byte.toNat / 32) n r :=
            (headAt_iff (by omega)).mpr ⟨byte, rfl, hlies, count, hform, hnumber⟩
          exact (readBody_iff hlen ih hmajor hhead).mp hbody
      · intro h
        obtain ⟨item, hstands, hvalue⟩ := h
        have hbehind {major n r : Nat} (hmajor : major < 7) (hhead : HeadAt b p major n r) :
            (byteAt b p >>= fun x => if x.1 / 32 = 7 then simple (x.1 % 32) x.2
              else arg b x.2 (x.1 % 32) >>= fun y => readBody b levels (x.1 / 32) y.1 y.2)
              = .ok (v, q) := by
          obtain ⟨byte, hdiv, hlies, count, hform, hnumber⟩ := (headAt_iff (by omega)).mp hhead
          have hbyte := byteAt_iff.mpr ⟨byte, rfl, hlies⟩
          have harg : arg b (p + 1) (byte.toNat % 32) = .ok (wrap 64 n, r) :=
            (arg_iff hlies.inside).mpr ⟨n, count, hform, hnumber, rfl⟩
          have hbody := (readBody_iff hlen ih hmajor hhead).mpr ⟨item, hstands, hvalue⟩
          generalize wrap 64 (n : Int) = w at harg hbody
          rw [hbyte]
          show (if byte.toNat / 32 = 7 then _ else _) = _
          rw [hdiv, if_neg (by omega), harg]
          exact hbody
        have hsimple {byte : UInt8} (hlies : Lies b p [byte] q) (hseven : byte.toNat / 32 = 7)
            (hresult : simple (byte.toNat % 32) q = .ok (v, q)) :
            (byteAt b p >>= fun x => if x.1 / 32 = 7 then simple (x.1 % 32) x.2
              else arg b x.2 (x.1 % 32) >>= fun y => readBody b levels (x.1 / 32) y.1 y.2)
              = .ok (v, q) := by
          rw [byteAt_iff.mpr ⟨byte, rfl, hlies⟩]
          show (if byte.toNat / 32 = 7 then _ else _) = _
          rw [if_pos hseven]
          exact hresult
        cases item with
        | int negative n => exact hbehind (by split <;> omega) hstands
        | string text n s =>
            obtain ⟨r, hhead, -⟩ := hstands
            exact hbehind (by split <;> omega) hhead
        | array n l =>
            obtain ⟨r, hhead, -⟩ := hstands
            exact hbehind (by omega) hhead
        | map n m =>
            obtain ⟨r, hhead, -⟩ := hstands
            exact hbehind (by omega) hhead
        | bool x =>
            subst hvalue
            refine hsimple hstands ?_ ?_ <;> cases x <;> rfl
        | null =>
            subst hvalue
            exact hsimple hstands rfl rfl

end Reading

/-! ### Encodings -/

/-- Well-formed CBOR, with heads of any form and entries in any order. -/
def wellFormed : Rules where
  head := Head
  entries _ := True

section Encodings

variable {b : Bytes} {levels p q r n : Nat}

theorem taken_small (h : n < 2 ^ 63) : taken n = n := if_pos h

theorem rounds_small (h : n < 2 ^ 63) : rounds n = n := if_pos h

/-- Nothing is filled up where all bytes are there. -/
theorem lies_filled (h : r + n ≤ b.length) :
    (filled b r n).length = n ∧ Lies b r (filled b r n) (r + n) := by
  have hlength : ((b.drop r).take n).length = n := by
    rw [List.length_take, List.length_drop]
    omega
  have hfilled : filled b r n = (b.drop r).take n := by
    simp [filled, hlength]
  rw [hfilled]
  refine ⟨hlength, b.take r, b.drop (r + n), ?_, ?_, by rw [hlength]⟩
  · rw [← List.drop_drop, List.take_append_drop, List.take_append_drop]
  · rw [List.length_take]
    omega

/-- A plain item is encoded by the bytes that were read for it. -/
theorem spells_plain {item : Item} (hstands : Stands b levels p item q)
    (hplain : Plain levels item) :
    ∃ enc, Spells wellFormed levels item.value enc ∧ Lies b p enc q := by
  induction levels generalizing p q item with
  | zero => exact absurd hstands id
  | succ levels ih =>
      cases item with
      | int negative n =>
          have hn : n < 2 ^ 63 := hplain
          obtain ⟨h, hhead, hlies⟩ := hstands
          refine ⟨h, ?_, hlies⟩
          rw [Item.value, @wrap_of_lt n (by omega) (by omega)]
          cases negative with
          | false =>
              show if (0 : Int) ≤ n then Head 0 (n : Int).toNat h else _
              rw [if_pos (by omega), Int.toNat_natCast]
              exact hhead
          | true =>
              show if (0 : Int) ≤ -1 - n then _ else Head 1 (-1 - (-1 - (n : Int))).toNat h
              have hback : (-1 - (-1 - (n : Int))).toNat = n := by omega
              rw [if_neg (by omega), hback]
              exact hhead
      | string text n s =>
          obtain ⟨hn, hutf8⟩ := hplain
          obtain ⟨r, ⟨h, hhead, hlies⟩, hfits, -, hs, hq⟩ := hstands
          rw [taken_small hn] at hs hq
          obtain ⟨hlength, hmore⟩ := @lies_filled b r n (hfits hn)
          rw [← hs] at hlength hmore
          refine ⟨h ++ s, ?_, hlies.append (hq ▸ hmore)⟩
          cases text with
          | false =>
              refine ⟨h, ?_, rfl⟩
              rw [hlength]
              exact hhead
          | true =>
              obtain ⟨t, ht⟩ := hutf8 rfl
              have hvalue : (Item.string true n s).value = .text t := by
                rw [Item.value, if_pos rfl, ht, string_utf8]
              rw [hvalue]
              refine ⟨h, ?_, by rw [ht]⟩
              rw [← ht, hlength]
              exact hhead
      | array n l =>
          obtain ⟨hn, hall⟩ := hplain
          obtain ⟨r, ⟨h, hhead, hlies⟩, hcount, hchain⟩ := hstands
          rw [rounds_small hn] at hcount
          obtain ⟨parts, hparts, hmore⟩ := hchain.lies
            (S := fun x part => Spells wellFormed levels x.value part) hlies.inside
            fun x hx p q hxs => ih hxs (hall x hx)
          refine ⟨h ++ parts.flatten, ?_, hlies.append hmore⟩
          rw [Item.value, Item.values_eq]
          refine ⟨h, parts, ?_, List.forall₂_map_left_iff.mpr hparts, rfl⟩
          rw [List.length_map, hcount]
          exact hhead
      | map n m =>
          obtain ⟨hn, hall, hkeys⟩ := hplain
          obtain ⟨r, ⟨h, hhead, hlies⟩, hcount, hchain⟩ := hstands
          rw [rounds_small hn] at hcount
          obtain ⟨parts, hparts, hmore⟩ := hchain.lies
            (S := fun e part => ∃ pr : Bytes × Bytes,
              Both (Spells wellFormed levels) (Item.entry e) pr ∧ pr.1 ++ pr.2 = part)
            hlies.inside (by
              intro e he p q hes
              obtain ⟨r, hkey, hvalue⟩ := hes
              obtain ⟨k, hk, hklies⟩ := ih hkey (hall e he).1
              obtain ⟨v, hv, hvlies⟩ := ih hvalue (hall e he).2
              exact ⟨k ++ v, ⟨(k, v), ⟨hk, hv⟩, rfl⟩, hklies.append hvlies⟩)
          obtain ⟨kv, hspells, hjoined⟩ := between_of_forall₂ hparts
          have hsame : kv.map (fun pr => pr.1 ++ pr.2) = parts := by
            rw [← List.forall₂_eq_eq_eq]
            exact List.forall₂_map_left_iff.mpr hjoined
          have hvalue : (Item.map n m).value = .map (m.map Item.entry) := by
            rw [Item.value, Item.valueEntries_eq, foldl_put, List.nil_append]
            exact List.pairwise_map.mpr hkeys
          refine ⟨h ++ parts.flatten, ?_, hlies.append hmore⟩
          rw [hvalue]
          refine ⟨h, kv, ?_, List.forall₂_map_left_iff.mpr hspells, trivial,
            by rw [List.flatMap_def, hsame]⟩
          rw [List.length_map, hcount]
          exact hhead
      | bool x => exact ⟨_, rfl, hstands⟩
      | null => exact ⟨_, rfl, hstands⟩

/-- Where nothing was put in the place of something else, all keys are
different. -/
theorem pairwise_of_foldl_put {m acc : List (Value × Value)}
    (hacc : acc.Pairwise fun x y => ¬ equals y.1 x.1 = true)
    (hlength : acc.length + m.length ≤ (m.foldl (fun m e => put m e.1 e.2) acc).length) :
    (acc ++ m).Pairwise fun x y => ¬ equals y.1 x.1 = true := by
  have hgrows (m acc : List (Value × Value)) :
      (m.foldl (fun m e => put m e.1 e.2) acc).length ≤ acc.length + m.length := by
    induction m generalizing acc with
    | nil => simp
    | cons e rest ih =>
        have hput : (put acc e.1 e.2).length ≤ acc.length + 1 := by
          unfold put
          split <;> simp
        have hrest := ih (put acc e.1 e.2)
        rw [List.foldl_cons, List.length_cons]
        omega
  induction m generalizing acc with
  | nil => simpa using hacc
  | cons e rest ih =>
      rw [List.foldl_cons, List.length_cons] at hlength
      have hrest := hgrows rest (put acc e.1 e.2)
      by_cases hany : acc.any (fun e' => equals e.1 e'.1) = true
      · have hput : (put acc e.1 e.2).length = acc.length := by
          rw [put, if_pos hany, List.length_map]
        omega
      · have hput : put acc e.1 e.2 = acc ++ [e] := by
          rw [put, if_neg hany]
        rw [hput] at hlength
        have hlast : (acc ++ [e]).Pairwise fun x y => ¬ equals y.1 x.1 = true := by
          refine List.pairwise_append.mpr ⟨hacc, List.pairwise_singleton _ _, ?_⟩
          intro x hx y hy hequal
          obtain rfl := List.mem_singleton.mp hy
          exact hany (List.any_eq_true.mpr ⟨x, hx, hequal⟩)
        have hall := ih hlast (by rw [List.length_append, List.length_singleton]; omega)
        simpa using hall

/-- A number below 2^63 is one that the decoder takes all of. -/
theorem small_of_rounds {l : Nat} (hl : l = rounds n) (hn : n = l) : n < 2 ^ 63 := by
  unfold rounds at hl
  split at hl <;> omega

/-- The encoding of a number says its sign, so it is of another type where the
sign has changed. -/
theorem plain_of_int {negative : Bool} {depth q' : Nat} {enc : Bytes}
    (hhead : HeadAt b p (if negative then 1 else 0) n q)
    (hspells : Spells wellFormed (depth + 1) (Item.int negative n).value enc)
    (hlies : Lies b p enc q') : n < 2 ^ 63 ∧ q = q' := by
  have hn := hhead.lt
  have hsame {major m : Nat} (hmajor : major < 8) (hspelled : Head major m enc) :
      (if negative then 1 else 0) = major ∧ n = m ∧ q = q' :=
    headAt_unique (by split <;> omega) hmajor hhead ⟨enc, hspelled, hlies⟩
  have hspelled {v : Int} (h : Spells wellFormed (depth + 1) (.int v) enc) :
      if 0 ≤ v then Head 0 v.toNat enc else Head 1 (-1 - v).toNat enc := h
  rw [Item.value] at hspells
  generalize hv : (if negative = true then -1 - wrap 64 (n : Int) else wrap 64 n) = v at hspells
  have hcases := hspelled hspells
  by_cases hsmall : n < 2 ^ 63
  · refine ⟨hsmall, ?_⟩
    split at hcases
    · exact (hsame (by omega) hcases).2.2
    · exact (hsame (by omega) hcases).2.2
  · exfalso
    rw [wrap_large (by omega) hn] at hv
    cases negative with
    | false =>
        have hneg : v = n - 2 ^ 64 := hv.symm
        rw [if_neg (by omega)] at hcases
        exact absurd (hsame (by omega) hcases).1 (by simp)
    | true =>
        have hpos : v = -1 - (n - 2 ^ 64) := hv.symm
        rw [if_pos (by omega)] at hcases
        exact absurd (hsame (by omega) hcases).1 (by simp)

theorem plain_of_string (hlen : b.length < 2 ^ 31) {text : Bool} {s : Bytes} {depth q' : Nat}
    {enc : Bytes} (hstands : Stands b (levels + 1) p (.string text n s) q)
    (hspells : Spells wellFormed (depth + 1) (Item.string text n s).value enc)
    (hlies : Lies b p enc q') : Plain (levels + 1) (.string text n s) ∧ q = q' := by
  obtain ⟨r, hhead, hfits, -, hs, hq⟩ := hstands
  have hinside := hlies.inside
  cases text with
  | false =>
      obtain ⟨h, hh, rfl⟩ := hspells
      obtain ⟨hheadlies, hmore⟩ := hlies.split
      obtain ⟨-, rfl, rfl⟩ := headAt_unique (by simp) (by omega) hhead ⟨h, hh, hheadlies⟩
      have hstop := hmore.stop_eq
      have hsmall : s.length < 2 ^ 63 := by omega
      refine ⟨⟨hsmall, fun htext => absurd htext (by simp)⟩, ?_⟩
      rw [hq, taken_small hsmall, hstop]
  | true =>
      obtain ⟨h, hh, rfl⟩ := hspells
      obtain ⟨hheadlies, hmore⟩ := hlies.split
      obtain ⟨-, rfl, rfl⟩ := headAt_unique (by simp) (by omega) hhead ⟨h, hh, hheadlies⟩
      have hstop := hmore.stop_eq
      have hsmall : (utf8 (string s)).length < 2 ^ 63 := by omega
      rw [taken_small hsmall] at hs hq
      -- The text takes as many bytes as were read, so these are its UTF-8.
      obtain ⟨-, hfilled⟩ := @lies_filled b _ _ (hfits hsmall)
      rw [← hs, ← hstop] at hfilled
      refine ⟨⟨hsmall, fun _ => ⟨string s, hfilled.unique hmore⟩⟩, ?_⟩
      rw [hq, hstop]

/-- Only a plain item is encoded by bytes at its place, and it takes all of
them. -/
theorem plain_of_spells (hlen : b.length < 2 ^ 31) {item : Item} {depth q' : Nat} {enc : Bytes}
    (hstands : Stands b levels p item q) (hspells : Spells wellFormed depth item.value enc)
    (hlies : Lies b p enc q') : Plain levels item ∧ q = q' := by
  induction levels generalizing p q item depth q' enc with
  | zero => exact absurd hstands id
  | succ levels ih =>
      cases depth with
      | zero => exact absurd hspells id
      | succ depth =>
          cases item with
          | int negative n => exact plain_of_int hstands hspells hlies
          | string text n s => exact plain_of_string hlen hstands hspells hlies
          | array n l =>
              obtain ⟨r, hhead, hcount, hchain⟩ := hstands
              rw [Item.value, Item.values_eq] at hspells
              obtain ⟨h, parts, hh, hparts, rfl⟩ := hspells
              obtain ⟨hheadlies, hmore⟩ := hlies.split
              obtain ⟨-, hn, rfl⟩ := headAt_unique (by omega) (by omega) hhead
                ⟨h, hh, hheadlies⟩
              rw [List.length_map] at hn
              obtain ⟨hall, hq⟩ := hchain.exact (C := Plain levels)
                (List.forall₂_map_left_iff.mp hparts) hmore
                fun x p q part q' hx hpart hxlies => ih hx hpart hxlies
              exact ⟨⟨small_of_rounds hcount hn, hall⟩, hq⟩
          | map n m =>
              obtain ⟨r, hhead, hcount, hchain⟩ := hstands
              rw [Item.value, Item.valueEntries_eq] at hspells
              obtain ⟨h, kv, hh, hkv, -, rfl⟩ := hspells
              obtain ⟨hheadlies, hmore⟩ := hlies.split
              obtain ⟨-, hn, rfl⟩ := headAt_unique (by omega) (by omega) hhead
                ⟨h, hh, hheadlies⟩
              have hkeys : (m.map Item.entry).Pairwise fun x y => ¬ equals y.1 x.1 = true := by
                have hall := @pairwise_of_foldl_put (m.map Item.entry) [] .nil (by
                  rw [← hn, List.length_nil, List.length_map, hcount]
                  unfold rounds
                  split <;> omega)
                rwa [List.nil_append] at hall
              have hput : (m.map Item.entry).foldl (fun m e => put m e.1 e.2) []
                  = m.map Item.entry := by
                rw [foldl_put hkeys, List.nil_append]
              rw [hput] at hn hkv
              rw [List.length_map] at hn
              have hentries : List.Forall₂ (fun e part => ∃ pr : Bytes × Bytes,
                  Both (Spells wellFormed depth) (Item.entry e) pr ∧ part = pr.1 ++ pr.2) m
                  (kv.map fun pr => pr.1 ++ pr.2) :=
                List.forall₂_map_right_iff.mpr ((List.forall₂_map_left_iff.mp hkv).imp
                  fun e pr he => ⟨pr, he, rfl⟩)
              obtain ⟨hall, hq⟩ := hchain.exact
                (C := fun e => Plain levels e.1 ∧ Plain levels e.2) hentries
                (List.flatMap_def ▸ hmore) (by
                  intro e p q part q' he hpart helies
                  obtain ⟨r, hk, hv⟩ := he
                  obtain ⟨pr, ⟨hkspells, hvspells⟩, rfl⟩ := hpart
                  obtain ⟨hklies, hvlies⟩ := helies.split
                  obtain ⟨hkplain, rfl⟩ := ih hk hkspells hklies
                  obtain ⟨hvplain, hq⟩ := ih hv hvspells hvlies
                  exact ⟨⟨hkplain, hvplain⟩, hq⟩)
              exact ⟨⟨small_of_rounds hcount hn, hall, List.pairwise_map.mp hkeys⟩, hq⟩
          | bool x =>
              have hone : enc = [if x then 0xF5 else 0xF4] := hspells
              have hlies' : Lies b p [if x then 0xF5 else 0xF4] q := hstands
              refine ⟨trivial, ?_⟩
              rw [hlies'.stop_eq, hlies.stop_eq, hone]
          | null =>
              have hone : enc = [0xF6] := hspells
              have hlies' : Lies b p [0xF6] q := hstands
              refine ⟨trivial, ?_⟩
              rw [hlies'.stop_eq, hlies.stop_eq, hone]

end Encodings

/-! ### Refusals -/

/-- It throws nothing that `handle` does not answer with `ERR_INVALID_CBOR`. -/
def Refuses {α : Type} (x : Except Thrown α) : Prop :=
  ∀ e, x = .error e → e.status = Status.invalidCbor

section Refusals

variable {α β : Type}

theorem Refuses.ok (a : α) : Refuses (.ok a) := by
  intro e h
  cases h

theorem Refuses.error {e : Thrown} (he : e.status = Status.invalidCbor) :
    Refuses (.error e : Except Thrown α) := by
  intro e' h
  cases h
  exact he

theorem Refuses.bind {x : Except Thrown α} {f : α → Except Thrown β} (hx : Refuses x)
    (hf : ∀ a, Refuses (f a)) : Refuses (x >>= f) := by
  intro e h
  cases x with
  | ok a => exact hf a e h
  | error e' =>
      cases h
      exact hx e rfl

theorem byteAt_refuses (b : Bytes) (p : Nat) : Refuses (byteAt b p) := by
  unfold byteAt
  split
  · exact .ok _
  · exact .error rfl

theorem longAt_refuses (b : Bytes) (count : Nat) (v : Int) (p : Nat) :
    Refuses (longAt b count v p) := by
  induction count generalizing v p with
  | zero => exact .ok _
  | succ count ih => exact (byteAt_refuses b p).bind fun x => ih _ x.2

theorem arg_refuses (b : Bytes) (p info : Nat) : Refuses (arg b p info) := by
  unfold arg
  split_ifs
  · exact .ok _
  · exact longAt_refuses b 1 0 p
  · exact longAt_refuses b 2 0 p
  · exact longAt_refuses b 4 0 p
  · exact longAt_refuses b 8 0 p
  · exact .error rfl

theorem copyOfRange_refuses (b : Bytes) (start stop : Int) : Refuses (copyOfRange b start stop) := by
  unfold copyOfRange
  split_ifs
  · exact .error rfl
  · exact .error rfl
  · exact .ok _

theorem readItems_refuses {item : Nat → Except Thrown (α × Nat)} (hitem : ∀ p, Refuses (item p))
    (n p : Nat) : Refuses (readItems item n p) := by
  induction n generalizing p with
  | zero => exact .ok _
  | succ n ih => exact (hitem p).bind fun x => (ih x.2).bind fun _ => .ok _

theorem readBody_refuses {b : Bytes} {levels : Nat} (hlevel : ∀ p, Refuses (read b levels p))
    (major : Nat) (v : Int) (p : Nat) : Refuses (readBody b levels major v p) := by
  have hpair (p : Nat) : Refuses (pair (read b levels) (read b levels) p) :=
    (hlevel p).bind fun x => (hlevel x.2).bind fun _ => .ok _
  unfold readBody
  split_ifs
  · exact .ok _
  · exact .ok _
  · exact .error rfl
  · exact (copyOfRange_refuses b _ _).bind fun _ => .ok _
  · exact (copyOfRange_refuses b _ _).bind fun _ => .ok _
  · exact (readItems_refuses hlevel _ p).bind fun _ => .ok _
  · exact (readItems_refuses hpair _ p).bind fun _ => .ok _
  · exact .error rfl

theorem read_refuses (b : Bytes) (levels p : Nat) : Refuses (read b levels p) := by
  induction levels generalizing p with
  | zero => exact .error rfl
  | succ levels ih =>
      rw [read_eq]
      refine (byteAt_refuses b p).bind fun x => ?_
      split
      · unfold simple
        split_ifs
        · exact .ok _
        · exact .ok _
        · exact .ok _
        · exact .error rfl
      · exact (arg_refuses b _ _).bind fun y => readBody_refuses ih _ _ _

end Refusals

/-! ### Every array and offset -/

/-- What `decode` returns, with the position where it stops. Its first access
throws where the offset is negative. -/
def decodeAt (b : Bytes) (off : Int) : Except Thrown (Value × Nat) :=
  if off < 0 then .error .indexOutOfBounds else read b 9 off.toNat

theorem decodeAt_natCast (b : Bytes) (off : Nat) : (decodeAt b off).map Prod.fst = decode b off := by
  rw [decodeAt, if_neg (by omega), Int.toNat_natCast, decode]
  cases read b 9 off <;> rfl

/-- The decoder refuses, or the bytes it read are inside the array and a
well-formed encoding of exactly what it returns. -/
def Exact (b : Bytes) (off : Int) : Prop :=
  match decodeAt b off with
  | .error e => e.status = Status.invalidCbor
  | .ok (v, q) => ∃ enc levels, Lies b off.toNat enc q ∧ Spells wellFormed levels v enc

/-- The bytes at the place of an item that is not plain are no encoding of its
object. -/
theorem plain_of_exact {b : Bytes} (hlen : b.length < 2 ^ 31) {off : Int} (hexact : Exact b off)
    {item : Item} {q : Nat} (hoff : 0 ≤ off) (hstands : Stands b 9 off.toNat item q) :
    Plain 9 item := by
  have hread := (read_iff hlen 9 off.toNat item.value q).mpr ⟨item, hstands, rfl⟩
  unfold Exact decodeAt at hexact
  rw [if_neg (by omega), hread] at hexact
  obtain ⟨enc, levels, hlies, hspells⟩ := hexact
  exact (plain_of_spells hlen hstands hspells hlies).1

/-- Decoding is exact where every item that the decoder comes to is plain. -/
theorem exact_iff_plain {b : Bytes} (hlen : b.length < 2 ^ 31) (off : Int) :
    Exact b off ↔ ∀ item q, 0 ≤ off → Stands b 9 off.toNat item q → Plain 9 item := by
  constructor
  · intro hexact item q hoff hstands
    exact plain_of_exact hlen hexact hoff hstands
  · intro hplain
    unfold Exact decodeAt
    by_cases hneg : off < 0
    · rw [if_pos hneg]
      rfl
    · rw [if_neg hneg]
      cases hread : read b 9 off.toNat with
      | error e => exact read_refuses b 9 off.toNat e hread
      | ok result =>
          obtain ⟨v, q⟩ := result
          obtain ⟨item, hstands, rfl⟩ := (read_iff hlen 9 off.toNat v q).mp hread
          obtain ⟨enc, hspells, hlies⟩ := spells_plain hstands (hplain item q (by omega) hstands)
          exact ⟨enc, 9, hlies, hspells⟩

/-- An item that is not plain is read all the same. -/
theorem inexact {b : Bytes} (hlen : b.length < 2 ^ 31) {item : Item} {q : Nat}
    (hstands : Stands b 9 0 item q) (hitem : ¬ Plain 9 item) :
    decode b 0 = .ok item.value ∧ ¬ Exact b 0 := by
  constructor
  · have hread := (read_iff hlen 9 0 item.value q).mpr ⟨item, hstands, rfl⟩
    rw [decode, hread]
    rfl
  · intro hexact
    exact hitem (plain_of_exact hlen hexact (Int.le_refl 0) hstands)

/-- An array with a number and a map of one byte string, as the value of a
map's one text key. -/
def nestedBytes : Bytes :=
  [0xA1, 0x61, 0x61, 0x82, 0x18, 0x2A, 0xA1, 0x01, 0x41, 0x07]

def nestedItem : Item :=
  .map 1 [(.string true 1 [0x61],
    .array 2 [.int false 42, .map 1 [(.int false 1, .string false 1 [7])]])]

theorem nested_stands : Stands nestedBytes 9 0 nestedItem 10 := by
  have hhead {p major n : Nat} (hn : n < 24)
      (hlies : Lies nestedBytes p [UInt8.ofNat (major * 32 + n)] (p + 1)) :
      HeadAt nestedBytes p major n (p + 1) :=
    ⟨_, ⟨n, 0, .short hn, rfl⟩, hlies⟩
  have hkey : Stands nestedBytes 8 1 (.string true 1 [0x61]) 3 :=
    ⟨2, hhead (by decide) (lies_iff.mpr (by decide)), by decide, by decide, by decide, rfl⟩
  have hnumber : Stands nestedBytes 7 4 (.int false 42) 6 :=
    ⟨_, ⟨24, 1, .one (by decide), rfl⟩, lies_iff.mpr (by decide)⟩
  have hinner : Stands nestedBytes 7 6 (.map 1 [(.int false 1, .string false 1 [7])]) 10 := by
    have hone : Stands nestedBytes 6 7 (.int false 1) 8 :=
      hhead (by decide) (lies_iff.mpr (by decide))
    have hseven : Stands nestedBytes 6 8 (.string false 1 [7]) 10 :=
      ⟨9, hhead (by decide) (lies_iff.mpr (by decide)), by decide, by decide, by decide, rfl⟩
    exact ⟨7, hhead (by decide) (lies_iff.mpr (by decide)), rfl, 10, ⟨8, hone, hseven⟩, rfl⟩
  have hvalue : Stands nestedBytes 8 3
      (.array 2 [.int false 42, .map 1 [(.int false 1, .string false 1 [7])]]) 10 :=
    ⟨4, hhead (by decide) (lies_iff.mpr (by decide)), rfl, 6, hnumber, 10, hinner, rfl⟩
  exact ⟨1, hhead (by decide) (lies_iff.mpr (by decide)), rfl, 10, ⟨3, hkey, hvalue⟩, rfl⟩

/-- These bytes are read as they were encoded, and every item that the decoder
comes to is plain. -/
theorem nested_exact : decode nestedBytes 0 = .ok nestedItem.value ∧ Exact nestedBytes 0 ∧
    ∀ item q, (0 : Int) ≤ 0 → Stands nestedBytes 9 0 item q → Plain 9 item := by
  have hplain : Plain 9 nestedItem := by
    have hone {x : Item × Item} : [x].Pairwise fun x y => ¬ equals y.1.value x.1.value = true :=
      List.pairwise_singleton ..
    refine ⟨by decide, List.forall_mem_singleton.mpr ⟨⟨by decide, fun _ => ⟨['a'], rfl⟩⟩, ?_⟩, hone⟩
    refine ⟨by decide, List.forall_mem_cons.mpr ⟨?_, List.forall_mem_singleton.mpr ?_⟩⟩
    · exact (by decide : 42 < 2 ^ 63)
    · refine ⟨by decide, List.forall_mem_singleton.mpr ⟨?_, by decide, fun h => ?_⟩, hone⟩
      · exact (by decide : 1 < 2 ^ 63)
      · cases h
  have hread : read nestedBytes 9 0 = .ok (nestedItem.value, 10) :=
    (read_iff (by decide) 9 0 _ _).mpr ⟨nestedItem, nested_stands, rfl⟩
  have hdecode : decode nestedBytes 0 = .ok nestedItem.value := by
    rw [decode, hread]
    rfl
  have hexact : Exact nestedBytes 0 := by
    unfold Exact decodeAt
    rw [if_neg (by decide), Int.toNat_zero, hread]
    obtain ⟨enc, hspells, hlies⟩ := spells_plain nested_stands hplain
    exact ⟨enc, 9, hlies, hspells⟩
  exact ⟨hdecode, hexact, (exact_iff_plain (by decide) 0).mp hexact⟩

/-- A head of eight bytes for 2^63 and a little more. -/
def hugeHead (major more : UInt8) : Bytes :=
  [major * 32 + 27, 0x80, 0, 0, 0, 0, 0, 0, more]

/-- Such a number is read as a negative one, such a string as zeros from past
the end of the array, and such an array as an empty one. -/
theorem reads_huge : (decode (hugeHead 0 0) 0 = .ok (.int (-(2 ^ 63))) ∧ ¬ Exact (hugeHead 0 0) 0) ∧
    (decode (hugeHead 2 3) 0 = .ok (.bytes [0, 0, 0]) ∧ ¬ Exact (hugeHead 2 3) 0) ∧
    decode (hugeHead 4 1) 0 = .ok (.array []) ∧ ¬ Exact (hugeHead 4 1) 0 := by
  have hhead {major more : UInt8} {n : Nat} (hn : n < 256 ^ 8)
      (hbytes : hugeHead major more = UInt8.ofNat (major.toNat * 32 + 27) :: bigEndian 8 n) :
      HeadAt (hugeHead major more) 0 major.toNat n 9 :=
    ⟨_, ⟨27, 8, .eight hn, hbytes⟩, [], [], (List.append_nil _).symm, rfl, rfl⟩
  have hint {n : Nat} (hn : n = 2 ^ 63) (hstands : HeadAt (hugeHead 0 0) 0 0 n 9) :
      decode (hugeHead 0 0) 0 = .ok (.int (-(2 ^ 63))) ∧ ¬ Exact (hugeHead 0 0) 0 := by
    obtain ⟨hdecode, hexact⟩ := @inexact _ (by decide) (.int false n) _ hstands
      (Nat.not_lt.mpr hn.ge)
    refine ⟨?_, hexact⟩
    rw [hdecode, Item.value, wrap_large (by omega) (by omega), hn]
    rfl
  have hstring {n : Nat} (hn : n = 2 ^ 63 + 3) (hstands : HeadAt (hugeHead 2 3) 0 2 n 9) :
      decode (hugeHead 2 3) 0 = .ok (.bytes [0, 0, 0]) ∧ ¬ Exact (hugeHead 2 3) 0 := by
    have htaken : taken n = 3 := by
      rw [taken, if_neg (by omega)]
      omega
    apply @inexact _ (by decide) (.string false n [0, 0, 0]) 12
    · refine ⟨9, hstands, ?_, ?_, ?_, ?_⟩
      · omega
      · omega
      · rw [htaken]
        rfl
      · omega
    · intro hplain
      have := hplain.1
      omega
  have harray {n : Nat} (hn : n = 2 ^ 63 + 1) (hstands : HeadAt (hugeHead 4 1) 0 4 n 9) :
      decode (hugeHead 4 1) 0 = .ok (.array []) ∧ ¬ Exact (hugeHead 4 1) 0 := by
    apply @inexact _ (by decide) (.array n []) 9
    · refine ⟨9, hstands, ?_, rfl⟩
      rw [rounds, if_neg (by omega)]
      rfl
    · intro hplain
      have := hplain.1
      omega
  exact ⟨hint rfl (hhead (by decide) (by decide)), hstring rfl (hhead (by decide) (by decide)),
    harray rfl (hhead (by decide) (by decide))⟩

end Passkey.Phone.Cbor

import Passkey.Library.Framing
import Passkey.Pam.Credentials
import Passkey.Utf8

/-!
The loop of the helper's base64 decoder on the machine's own integers. The
accumulator is shifted on and never masked; what is written out of it are the
digits' bits all the same, in their order and each once.
-/

namespace Passkey.Pam

open Library

/-! ### The loop -/

/-- The digit that a byte stands for, in either alphabet. -/
def byteValue (byte : UInt8) : Option UInt8 :=
  if 'A'.toUInt8 ≤ byte ∧ byte ≤ 'Z'.toUInt8 then some (byte - 'A'.toUInt8)
  else if 'a'.toUInt8 ≤ byte ∧ byte ≤ 'z'.toUInt8 then some (byte - 'a'.toUInt8 + 26)
  else if '0'.toUInt8 ≤ byte ∧ byte ≤ '9'.toUInt8 then some (byte - '0'.toUInt8 + 52)
  else if byte = '+'.toUInt8 ∨ byte = '-'.toUInt8 then some 62
  else if byte = '/'.toUInt8 ∨ byte = '_'.toUInt8 then some 63
  else none

structure Accumulator where
  bits : UInt32 := 0
  count : Nat := 0
  out : Bytes := []

def Accumulator.add (a : Accumulator) (value : UInt8) : Accumulator :=
  let bits := a.bits <<< 6 ||| value.toUInt32
  let count := a.count + 6
  if count ≥ 8 then
    { bits, count := count - 8, out := a.out ++ [(bits >>> UInt32.ofNat (count - 8)).toUInt8] }
  else { a with bits, count }

def loop (a : Accumulator) (bytes : Bytes) : Option Accumulator :=
  bytes.foldlM (fun a byte => (byteValue byte).map a.add) a

/-- What is read of a text: it ends before the padding. -/
def unpadded (text : Text) : Bytes :=
  Utf8.bytes (text.rdropWhile (· == '='))

/-! ### The two alphabets and the texts of bytes -/

def standard : Text :=
  "ABCDEFGHIJKLMNOPQRSTUVWXYZabcdefghijklmnopqrstuvwxyz0123456789+/".toList

def urlSafe : Text :=
  "ABCDEFGHIJKLMNOPQRSTUVWXYZabcdefghijklmnopqrstuvwxyz0123456789-_".toList

/-- The groups of six bits, the last one filled up with zeros. -/
def groups : Bytes → List Nat
  | a :: b :: c :: rest =>
      a.toNat / 4 :: (a.toNat % 4 * 16 + b.toNat / 16) :: (b.toNat % 16 * 4 + c.toNat / 64) ::
        c.toNat % 64 :: groups rest
  | [a, b] => [a.toNat / 4, a.toNat % 4 * 16 + b.toNat / 16, b.toNat % 16 * 4]
  | [a] => [a.toNat / 4, a.toNat % 4 * 16]
  | [] => []

/-- The text of bytes over an alphabet, without padding. -/
def textIn (alphabet : Text) (x : Bytes) : Text :=
  (groups x).map fun value => alphabet.getD value '='

def outside (byte : UInt8) : Prop :=
  byte ∉ Utf8.bytes standard ∧ byte ∉ Utf8.bytes urlSafe

/-! ### What the accumulator holds -/

/-- Digits of six bits as one number, the first highest. -/
def number (values : List UInt8) : Nat :=
  values.foldl (fun n value => n * 64 + value.toNat) 0

/-- After some digits: the bytes written are the bits of all digits but the
last `count`, and these are the low bits of the accumulator. -/
structure Accumulator.Holds (a : Accumulator) (values : List UInt8) : Prop where
  bits : a.bits.toNat = number values % 2 ^ 32
  count : a.count = 6 * values.length % 8
  length : a.out.length = 6 * values.length / 8
  out : ofBigEndian a.out = number values / 2 ^ a.count

theorem number_snoc (values : List UInt8) (value : UInt8) :
    number (values ++ [value]) = number values * 64 + value.toNat := by
  simp [number]

/-- The shift leaves six bits free, and a digit fills no more than these. -/
theorem shifted_or (bits : UInt32) {value : UInt8} (hvalue : value.toNat < 64) :
    (bits <<< 6 ||| value.toUInt32).toNat = (bits.toNat * 64 + value.toNat) % 2 ^ 32 := by
  have hshift : bits.toNat <<< 6 % 2 ^ 32 = 2 ^ 6 * (bits.toNat % 2 ^ 26) := by
    rw [Nat.shiftLeft_eq]
    omega
  have hor : 2 ^ 6 * (bits.toNat % 2 ^ 26) ||| value.toNat
      = 2 ^ 6 * (bits.toNat % 2 ^ 26) + value.toNat :=
    (Nat.two_pow_add_eq_or_of_lt hvalue _).symm
  rw [UInt32.toNat_or, UInt32.toNat_shiftLeft, UInt8.toNat_toUInt32]
  rw [show (6 : UInt32).toNat % 32 = 6 from rfl, hshift, hor]
  omega

/-- The byte that is written: eight bits from the place `count` on. -/
theorem shifted_byte (bits : UInt32) {count : Nat} (hcount : count < 32) :
    (bits >>> UInt32.ofNat count).toUInt8.toNat = bits.toNat / 2 ^ count % 2 ^ 8 := by
  have hplace : (UInt32.ofNat count).toNat % 32 = count := by
    rw [UInt32.toNat_ofNat']
    omega
  rw [UInt32.toNat_toUInt8, UInt32.toNat_shiftRight, hplace, Nat.shiftRight_eq_div_pow]

theorem Accumulator.Holds.start : Accumulator.Holds {} [] where
  bits := rfl
  count := rfl
  length := rfl
  out := rfl

/-- One digit more: its bits come below the others, and eight that are complete
go out with nothing left over from the bytes before. -/
theorem Accumulator.Holds.add {a : Accumulator} {values : List UInt8} (h : a.Holds values)
    {value : UInt8} (hvalue : value.toNat < 64) : (a.add value).Holds (values ++ [value]) := by
  have hcount := h.count
  have hlength := h.length
  have hbits : (a.bits <<< 6 ||| value.toUInt32).toNat
      = (number values * 64 + value.toNat) % 2 ^ 32 := by
    rw [shifted_or a.bits hvalue, h.bits]
    omega
  by_cases hfull : a.count + 6 ≥ 8
  · have hadd : a.add value =
        { bits := a.bits <<< 6 ||| value.toUInt32
          count := a.count + 6 - 8
          out := a.out ++ [((a.bits <<< 6 ||| value.toUInt32)
            >>> UInt32.ofNat (a.count + 6 - 8)).toUInt8] } := if_pos hfull
    rw [hadd]
    constructor
    · rw [hbits, number_snoc]
    · rw [List.length_append, List.length_singleton]
      dsimp only
      omega
    · rw [List.length_append, List.length_append, List.length_singleton, List.length_singleton]
      omega
    · rw [ofBigEndian_snoc, shifted_byte _ (by omega), hbits, h.out, number_snoc]
      dsimp only
      have hplaces : a.count = 2 ∨ a.count = 4 ∨ a.count = 6 := by omega
      rcases hplaces with hc | hc | hc <;> rw [hc] <;> omega
  · have hadd : a.add value =
        { a with bits := a.bits <<< 6 ||| value.toUInt32, count := a.count + 6 } := if_neg hfull
    have hzero : a.count = 0 := by omega
    rw [hadd]
    constructor
    · rw [hbits, number_snoc]
    · rw [List.length_append, List.length_singleton]
      dsimp only
      omega
    · rw [List.length_append, List.length_singleton]
      dsimp only
      omega
    · rw [h.out, number_snoc, hzero]
      dsimp only
      omega

/-! ### Bytes and digits -/

/-- The numbers of the characters that are digits. -/
def isLetter (n : Nat) : Prop :=
  (65 ≤ n ∧ n ≤ 90) ∨ (97 ≤ n ∧ n ≤ 122) ∨ (48 ≤ n ∧ n ≤ 57) ∨ n = 43 ∨ n = 45 ∨ n = 47 ∨ n = 95

theorem char_eq_iff {c d : Char} : c = d ↔ c.toNat = d.toNat :=
  ⟨congrArg Char.toNat, fun h => Char.toNat_inj.mp h⟩

/-- A letter has a digit of six bits, and no other character has one. -/
theorem sextet_cases (c : Char) : (isLetter c.toNat ∧ ∃ value < 64, sextet c = some value) ∨
    ¬ isLetter c.toNat ∧ sextet c = none := by
  have hbounds : 'A'.toNat = 65 ∧ 'Z'.toNat = 90 ∧ 'a'.toNat = 97 ∧ 'z'.toNat = 122 ∧
    '0'.toNat = 48 ∧ '9'.toNat = 57 := ⟨rfl, rfl, rfl, rfl, rfl, rfl⟩
  have hmarks : '+'.toNat = 43 ∧ '-'.toNat = 45 ∧ '/'.toNat = 47 ∧ '_'.toNat = 95 :=
    ⟨rfl, rfl, rfl, rfl⟩
  unfold sextet isLetter
  simp only [within_iff, char_eq_iff]
  split
  · exact .inl ⟨by omega, _, by omega, rfl⟩
  · split
    · exact .inl ⟨by omega, _, by omega, rfl⟩
    · split
      · exact .inl ⟨by omega, _, by omega, rfl⟩
      · split
        · exact .inl ⟨by omega, _, by omega, rfl⟩
        · split
          · exact .inl ⟨by omega, _, by omega, rfl⟩
          · exact .inr ⟨by omega, rfl⟩

theorem sextet_eq_none_iff {c : Char} : sextet c = none ↔ ¬ isLetter c.toNat := by
  rcases sextet_cases c with ⟨hletter, value, -, hvalue⟩ | ⟨hletter, hnone⟩
  · simp [hvalue, hletter]
  · simp [hnone, hletter]

theorem sextet_lt {c : Char} {value : Nat} (h : sextet c = some value) : value < 64 := by
  rcases sextet_cases c with ⟨-, n, hlt, hn⟩ | ⟨-, hnone⟩
  · rw [Option.some.inj (h.symm.trans hn)]
    exact hlt
  · cases h.symm.trans hnone

/-- A byte stands for what the character with its number does. -/
theorem byteValue_eq (byte : UInt8) :
    byteValue byte = (sextet (Char.ofNat byte.toNat)).map UInt8.ofNat := by
  have hall : ∀ n < 256, byteValue (UInt8.ofNat n) = (sextet (Char.ofNat n)).map UInt8.ofNat := by
    decide +kernel
  have hbyte := hall byte.toNat byte.toNat_lt
  rw [UInt8.ofNat_toNat] at hbyte
  exact hbyte

theorem byteValue_eq_none_iff_letter {byte : UInt8} :
    byteValue byte = none ↔ ¬ isLetter byte.toNat := by
  have hlt := byte.toNat_lt
  have hnumber := Utf8.toNat_ofNat (n := byte.toNat) (.inl (by omega))
  rw [byteValue_eq, Option.map_eq_none_iff, sextet_eq_none_iff, hnumber]

theorem byteValue_lt {byte value : UInt8} (h : byteValue byte = some value) :
    value.toNat < 64 := by
  rw [byteValue_eq] at h
  obtain ⟨n, hn, rfl⟩ := Option.map_eq_some_iff.mp h
  have hlt := sextet_lt hn
  rw [UInt8.toNat_ofNat']
  omega

/-- The letters of an alphabet by their numbers. -/
def codes (last : List Nat) : List Nat :=
  List.range' 65 26 ++ List.range' 97 26 ++ List.range' 48 10 ++ last

theorem standard_eq : standard = (codes [43, 47]).map Char.ofNat := rfl

theorem urlSafe_eq : urlSafe = (codes [45, 95]).map Char.ofNat := rfl

theorem mem_codes {last : List Nat} {n : Nat} : n ∈ codes last ↔
    (65 ≤ n ∧ n ≤ 90) ∨ (97 ≤ n ∧ n ≤ 122) ∨ (48 ≤ n ∧ n ≤ 57) ∨ n ∈ last := by
  have hranges : (65 ≤ n ∧ n ≤ 90 ↔ 65 ≤ n ∧ n < 65 + 26) ∧
      (97 ≤ n ∧ n ≤ 122 ↔ 97 ≤ n ∧ n < 97 + 26) ∧ (48 ≤ n ∧ n ≤ 57 ↔ 48 ≤ n ∧ n < 48 + 10) := by
    omega
  obtain ⟨hupper, hlower, hdigit⟩ := hranges
  rw [codes, List.mem_append, List.mem_append, List.mem_append, List.mem_range'_1,
    List.mem_range'_1, List.mem_range'_1, hupper, hlower, hdigit, or_assoc, or_assoc]

/-- The bytes of letters are their numbers. -/
theorem mem_bytes_codes {last : List Nat} (h : ∀ n ∈ last, n < 0x80) {byte : UInt8} :
    byte ∈ Utf8.bytes ((codes last).map Char.ofNat) ↔ byte.toNat ∈ codes last := by
  have hencode : ∀ n ∈ codes last, String.utf8EncodeChar (Char.ofNat n) = [UInt8.ofNat n] ∧
      n < 0x80 := by
    intro n hn
    have hlt : n < 0x80 := by
      rcases mem_codes.mp hn with hupper | hlower | hdigit | hlast
      · omega
      · omega
      · omega
      · exact h n hlast
    have hn := Utf8.toNat_ofNat (n := n) (.inl (by omega))
    rcases (Utf8.sequence_encode (Char.ofNat n)).begins with ⟨-, henc⟩ | ⟨hhigh, -⟩
    · rw [hn] at henc
      exact ⟨henc, hlt⟩
    · omega
  rw [Utf8.bytes, List.flatMap_map, List.mem_flatMap]
  constructor
  · rintro ⟨n, hn, hbyte⟩
    rw [(hencode n hn).1, List.mem_singleton] at hbyte
    have hlt := (hencode n hn).2
    rw [hbyte, UInt8.toNat_ofNat', Nat.mod_eq_of_lt (by omega)]
    exact hn
  · intro hbyte
    refine ⟨byte.toNat, hbyte, ?_⟩
    rw [(hencode _ hbyte).1, UInt8.ofNat_toNat]
    exact List.mem_singleton_self byte

/-- A byte is a digit exactly if it is a letter of an alphabet. -/
theorem byteValue_eq_none_iff {byte : UInt8} : byteValue byte = none ↔ outside byte := by
  rw [byteValue_eq_none_iff_letter, outside, standard_eq, urlSafe_eq, mem_bytes_codes (by decide),
    mem_bytes_codes (by decide), mem_codes, mem_codes]
  simp only [isLetter, List.mem_cons, List.not_mem_nil, or_false]
  omega

theorem loop_cons {a : Accumulator} {byte : UInt8} {rest : Bytes} :
    loop a (byte :: rest) = (byteValue byte).bind fun value => loop (a.add value) rest := by
  rw [loop, List.foldlM_cons]
  cases byteValue byte <;> rfl

/-- The loop stops early at the first byte outside the alphabets, and only there. -/
theorem loop_eq_none_iff {a : Accumulator} {bytes : Bytes} :
    loop a bytes = none ↔ ∃ byte ∈ bytes, outside byte := by
  induction bytes generalizing a with
  | nil => simp [loop]
  | cons byte rest ih =>
      rw [loop_cons, List.exists_mem_cons_iff, ← byteValue_eq_none_iff]
      cases hvalue : byteValue byte with
      | none => simp
      | some value => simpa using ih

/-- A run of the loop reads a digit from each byte and holds these digits. -/
theorem loop_holds {a out : Accumulator} {before : List UInt8} {bytes : Bytes}
    (h : a.Holds before) (hloop : loop a bytes = some out) :
    ∃ values, bytes.map byteValue = values.map some ∧ out.Holds (before ++ values) := by
  induction bytes generalizing a before with
  | nil =>
      cases hloop
      exact ⟨[], rfl, by simpa using h⟩
  | cons byte rest ih =>
      rw [loop_cons] at hloop
      obtain ⟨value, hvalue, hrest⟩ := Option.bind_eq_some_iff.mp hloop
      obtain ⟨values, hvalues, hout⟩ := ih (h.add (byteValue_lt hvalue)) hrest
      refine ⟨value :: values, ?_, ?_⟩
      · rw [List.map_cons, List.map_cons, hvalue, hvalues]
      · rw [List.append_assoc] at hout
        exact hout

/-! ### The loop and the decoder on characters -/

def Accumulator.decoding (a : Accumulator) : Decoding where
  bits := a.bits.toNat
  count := a.count
  out := a.out

theorem decoding_add {a : Accumulator} {value : UInt8} (hvalue : value.toNat < 64)
    (hcount : a.count < 8) : (a.add value).decoding = a.decoding.add value.toNat := by
  have hbits := shifted_or a.bits hvalue
  unfold Accumulator.add Decoding.add Accumulator.decoding
  dsimp only
  split
  · rename_i hfull
    have hbyte : ((a.bits <<< 6 ||| value.toUInt32) >>> UInt32.ofNat (a.count + 6 - 8)).toUInt8
        = UInt8.ofNat ((a.bits.toNat * 64 + value.toNat) % 2 ^ 32 / 2 ^ (a.count + 6 - 8)) := by
      apply UInt8.toNat_inj.mp
      rw [shifted_byte _ (by omega), hbits, UInt8.toNat_ofNat']
    rw [hbits, hbyte]
  · rw [hbits]

theorem count_add {a : Accumulator} (hcount : a.count < 8) (value : UInt8) :
    (a.add value).count < 8 := by
  unfold Accumulator.add
  dsimp only
  split
  · dsimp only
    omega
  · dsimp only
    omega

/-- The ASCII characters stand for what their bytes do. -/
theorem byteValue_ofNat {c : Char} (hascii : c.toNat < 0x80) :
    byteValue (UInt8.ofNat c.toNat) = (sextet c).map UInt8.ofNat := by
  have hbyte : (UInt8.ofNat c.toNat).toNat = c.toNat := by
    rw [UInt8.toNat_ofNat']
    omega
  rw [byteValue_eq, hbyte, Char.ofNat_toNat]

theorem byteValue_high {byte : UInt8} (hhigh : 0x80 ≤ byte.toNat) : byteValue byte = none := by
  rw [byteValue_eq_none_iff_letter, isLetter]
  omega

/-- On the bytes of characters the loop does what the decoder does on these. -/
theorem loop_bytes {a : Accumulator} (hcount : a.count < 8) (text : Text) :
    (loop a (Utf8.bytes text)).map Accumulator.decoding = digits a.decoding text := by
  induction text generalizing a with
  | nil => rfl
  | cons c rest ih =>
      rw [digits_cons, Utf8.bytes, List.flatMap_cons]
      rcases (Utf8.sequence_encode c).begins with ⟨hascii, henc⟩ | ⟨hhigh, lead, tail, henc, hlead⟩
      · rw [henc, List.singleton_append, loop_cons, byteValue_ofNat hascii]
        cases hvalue : sextet c with
        | none => rfl
        | some value =>
            have hbyte : (UInt8.ofNat value).toNat = value := by
              have hlt := sextet_lt hvalue
              rw [UInt8.toNat_ofNat']
              omega
            have hadd : (a.add (UInt8.ofNat value)).decoding = a.decoding.add value := by
              rw [decoding_add (hbyte.trans_lt (sextet_lt hvalue)) hcount, hbyte]
            rw [Option.map_some, Option.bind_some, Option.bind_some, ← hadd]
            exact ih (count_add hcount _)
      · have hnone : sextet c = none := by
          cases hvalue : sextet c with
          | none => rfl
          | some value =>
              have hbounds := sextet_bounds hvalue
              omega
        rw [henc, List.cons_append, loop_cons, byteValue_high hlead, hnone]
        rfl

/-- The helper's decoder is the loop over the bytes before the padding. -/
theorem base64_loop (text : Text) :
    base64 text = (loop {} (unpadded text)).map Accumulator.out := by
  have hstart : Accumulator.count {} < 8 := Nat.zero_lt_succ 7
  have hloop := loop_bytes hstart (text.rdropWhile (· == '='))
  rw [base64, unpadded]
  rw [show ({} : Decoding) = Accumulator.decoding {} from rfl, ← hloop, Option.map_map]
  rfl

/-! ### Texts of bytes read back -/

theorem encodeDigits_eq (x : Bytes) : encodeDigits x = (groups x).map digit := by
  induction x using encodeDigits.induct with
  | case1 a b c rest ih => simp [encodeDigits, groups, ih]
  | case2 a b => rfl
  | case3 a => rfl
  | case4 => rfl

theorem groups_lt {x : Bytes} {value : Nat} (h : value ∈ groups x) : value < 64 := by
  induction x using groups.induct with
  | case1 a b c rest ih =>
      have ha := a.toNat_lt
      have hb := b.toNat_lt
      have hc := c.toNat_lt
      simp only [groups, List.mem_cons] at h
      rcases h with h | h | h | h | h
      · omega
      · omega
      · omega
      · omega
      · exact ih h
  | case2 a b =>
      have ha := a.toNat_lt
      have hb := b.toNat_lt
      simp only [groups, List.mem_cons, List.not_mem_nil, or_false] at h
      omega
  | case3 a =>
      have ha := a.toNat_lt
      simp only [groups, List.mem_cons, List.not_mem_nil, or_false] at h
      omega
  | case4 => cases h

theorem digits_of_sextets {d : Decoding} {text : Text} {values : List Nat}
    (h : text.map sextet = values.map some) :
    digits d text = some (values.foldl Decoding.add d) := by
  induction text generalizing d values with
  | nil =>
      rw [List.map_nil] at h
      rw [List.map_eq_nil_iff.mp h.symm]
      rfl
  | cons c rest ih =>
      cases values with
      | nil => cases h
      | cons value values =>
          obtain ⟨hvalue, hrest⟩ := List.cons.inj h
          rw [digits_cons, hvalue, Option.bind_some, ih hrest, List.foldl_cons]

/-- Any letters for the groups of some bytes are read as these bytes, from either
alphabet and also mixed. -/
theorem base64_of_groups {x : Bytes} {text : Text} (h : text.map sextet = (groups x).map some)
    (padding : Nat) : base64 (text ++ List.replicate padding '=') = some x := by
  obtain ⟨d, hdigits, hout⟩ := digits_encodeDigits x 0 []
  have hdigit : (encodeDigits x).map sextet = (groups x).map some := by
    rw [encodeDigits_eq, List.map_map]
    apply List.map_congr_left
    intro value hvalue
    exact sextet_digit (groups_lt hvalue)
  have hsame : digits {} text = some d := by
    rw [digits_of_sextets h, ← hdigits]
    exact (digits_of_sextets hdigit).symm
  rw [base64, trim_padding (plain_of_digits hsame), hsame]
  exact congrArg some hout

theorem sextets_textIn {alphabet : Text}
    (halphabet : ∀ value < 64, sextet (alphabet.getD value '=') = some value) (x : Bytes) :
    (textIn alphabet x).map sextet = (groups x).map some := by
  rw [textIn, List.map_map]
  apply List.map_congr_left
  intro value hvalue
  exact halphabet value (groups_lt hvalue)

/-- Both alphabets have the letters in the order of their digits. -/
theorem sextet_letters : (∀ value < 64, sextet (standard.getD value '=') = some value) ∧
    ∀ value < 64, sextet (urlSafe.getD value '=') = some value := by
  rw [standard_eq, urlSafe_eq]
  decide +kernel

/-- The text of any bytes over either alphabet is read back with any padding. A
text is refused exactly for a byte outside both. And whatever was read, the bytes
written are the bits of the digits in their order, but for the last `count`. -/
theorem base64_law (x : Bytes) (padding : Nat) (text : Text) :
    base64 (textIn standard x ++ List.replicate padding '=') = some x ∧
      base64 (textIn urlSafe x ++ List.replicate padding '=') = some x ∧
      (base64 text = none ↔ ∃ byte ∈ unpadded text, outside byte) ∧
      base64 text = (loop {} (unpadded text)).map Accumulator.out ∧
      ∀ bytes, ∀ a ∈ loop {} bytes,
        ∃ values, bytes.map byteValue = values.map some ∧ a.Holds values := by
  obtain ⟨hstandard, hurlSafe⟩ := sextet_letters
  constructor
  · exact base64_of_groups (sextets_textIn hstandard x) padding
  · constructor
    · exact base64_of_groups (sextets_textIn hurlSafe x) padding
    · constructor
      · rw [base64_loop, Option.map_eq_none_iff]
        exact loop_eq_none_iff
      · constructor
        · exact base64_loop text
        · intro bytes a ha
          exact loop_holds Accumulator.Holds.start ha

end Passkey.Pam

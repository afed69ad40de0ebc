import Mathlib
import Passkey.Text

/-!
The keys of a user that the helper reads from the authfile, and the base64
texts in it.
-/

namespace Passkey.Pam

/-! ### Reading -/

/-- Whether a character is in a range of byte literals. -/
def within (first last c : Char) : Bool :=
  first.toNat ≤ c.toNat && c.toNat ≤ last.toNat

def sextet (c : Char) : Option Nat :=
  if within 'A' 'Z' c then some (c.toNat - 'A'.toNat)
  else if within 'a' 'z' c then some (c.toNat - 'a'.toNat + 26)
  else if within '0' '9' c then some (c.toNat - '0'.toNat + 52)
  else if c = '+' ∨ c = '-' then some 62
  else if c = '/' ∨ c = '_' then some 63
  else none

structure Decoding where
  bits : Nat := 0
  count : Nat := 0
  out : Bytes := []

/-- One digit: `bits` is a u32, and the digit fills what its shift leaves free. -/
def Decoding.add (d : Decoding) (value : Nat) : Decoding :=
  if d.count + 6 ≥ 8 then
    { bits := (d.bits * 64 + value) % 2 ^ 32
      count := d.count + 6 - 8
      out := d.out ++ [UInt8.ofNat ((d.bits * 64 + value) % 2 ^ 32 / 2 ^ (d.count + 6 - 8))] }
  else { d with bits := (d.bits * 64 + value) % 2 ^ 32, count := d.count + 6 }

def digits (d : Decoding) (text : Text) : Option Decoding :=
  text.foldlM (fun d c => (sextet c).map d.add) d

def base64 (text : Text) : Option Bytes :=
  (digits {} (text.rdropWhile (· == '='))).map Decoding.out

structure Credential where
  id : Bytes
  key : Bytes
  verification : Bool
  deriving DecidableEq

/-- One entry of a user's line: an ES256 key with a handle, or nothing. -/
def credential (entry : Text) : Option Credential := do
  let fields := entry.splitOn ','
  let id ← base64 (← fields[0]?)
  let key ← base64 (← fields[1]?)
  if (← fields[2]?) ≠ "es256".toList ∨ id = [] then none
  else
    let verification := Text.contains (fields[3]?.getD []) "+verification".toList
    return { id, key, verification }

def credentials (authfile user : Text) : List Credential :=
  (((Text.lines authfile).filterMap fun line =>
    (line.dropPrefix? user).bind fun rest => rest.dropPrefix? [':']).flatMap
      fun rest => rest.splitOn ':').filterMap credential

/-! ### The characters of a base64 text -/

theorem within_iff {first last c : Char} :
    within first last c ↔ first.toNat ≤ c.toNat ∧ c.toNat ≤ last.toNat := by
  simp [within]

/-- A digit is a printable ASCII character, and no separator of the file. -/
theorem sextet_bounds {c : Char} {value : Nat} (h : sextet c = some value) :
    0x2B ≤ c.toNat ∧ c.toNat < 0x7F ∧ c ≠ ',' ∧ c ≠ ':' := by
  have hupper : ('A'.toNat = 65 ∧ 'Z'.toNat = 90) := ⟨rfl, rfl⟩
  have hlower : ('a'.toNat = 97 ∧ 'z'.toNat = 122) := ⟨rfl, rfl⟩
  have hdigit : ('0'.toNat = 48 ∧ '9'.toNat = 57) := ⟨rfl, rfl⟩
  have hrange : 0x2B ≤ c.toNat ∧ c.toNat < 0x7F := by
    unfold sextet at h
    split at h
    · rename_i hc
      obtain ⟨hfirst, hlast⟩ := within_iff.mp hc
      omega
    · split at h
      · rename_i hc
        obtain ⟨hfirst, hlast⟩ := within_iff.mp hc
        omega
      · split at h
        · rename_i hc
          obtain ⟨hfirst, hlast⟩ := within_iff.mp hc
          omega
        · split at h
          · rename_i hc
            rcases hc with rfl | rfl <;> decide
          · split at h
            · rename_i hc
              rcases hc with rfl | rfl <;> decide
            · cases h
  refine ⟨hrange.1, hrange.2, ?_, ?_⟩
  · rintro rfl
    cases h
  · rintro rfl
    cases h

theorem digits_cons {d : Decoding} {c : Char} {rest : Text} :
    digits d (c :: rest) = (sextet c).bind fun value => digits (d.add value) rest := by
  rw [digits, List.foldlM_cons]
  cases sextet c <;> rfl

theorem sextet_of_digits {text : Text} {d out : Decoding} (h : digits d text = some out) {c : Char}
    (hc : c ∈ text) : ∃ value, sextet c = some value := by
  induction text generalizing d with
  | nil => cases hc
  | cons first rest ih =>
      rw [digits_cons] at h
      obtain ⟨value, hvalue, hrest⟩ := Option.bind_eq_some_iff.mp h
      rcases List.mem_cons.mp hc with rfl | hc
      · exact ⟨value, hvalue⟩
      · exact ih hrest hc

/-- What is read as base64 is digits and final padding. -/
theorem base64_bounds {text : Text} {bytes : Bytes} (h : base64 text = some bytes) {c : Char}
    (hc : c ∈ text) : 0x2B ≤ c.toNat ∧ c.toNat < 0x7F ∧ c ≠ ',' ∧ c ≠ ':' := by
  obtain ⟨out, hout, -⟩ := Option.map_eq_some_iff.mp h
  by_cases hpadding : c = '='
  · subst hpadding
    decide
  · have hmem : c ∈ text.rdropWhile (· == '=') := by
      rw [← @List.rdropWhile_append_rtakeWhile _ (· == '=') text] at hc
      refine (List.mem_append.mp hc).resolve_right fun hend => hpadding ?_
      simpa using List.mem_rtakeWhile_imp hend
    obtain ⟨value, hvalue⟩ := sextet_of_digits hout hmem
    exact sextet_bounds hvalue

/-! ### The base64 text of bytes -/

/-- The digit of the standard alphabet. -/
def digit (value : Nat) : Char :=
  if value < 26 then Char.ofNat ('A'.toNat + value)
  else if value < 52 then Char.ofNat ('a'.toNat + (value - 26))
  else if value < 62 then Char.ofNat ('0'.toNat + (value - 52))
  else if value = 62 then '+'
  else '/'

/-- Four digits for three bytes, and what one or two bytes at the end need. -/
def encodeDigits : Bytes → Text
  | a :: b :: c :: rest =>
      digit (a.toNat / 4) :: digit (a.toNat % 4 * 16 + b.toNat / 16) ::
        digit (b.toNat % 16 * 4 + c.toNat / 64) :: digit (c.toNat % 64) :: encodeDigits rest
  | [a, b] =>
      [digit (a.toNat / 4), digit (a.toNat % 4 * 16 + b.toNat / 16), digit (b.toNat % 16 * 4)]
  | [a] => [digit (a.toNat / 4), digit (a.toNat % 4 * 16)]
  | [] => []

/-- The standard text, padded to a multiple of four characters. -/
def encode (bytes : Bytes) : Text :=
  encodeDigits bytes ++ List.replicate ((3 - bytes.length % 3) % 3) '='

theorem sextet_digit {value : Nat} (h : value < 64) : sextet (digit value) = some value := by
  have hall : ∀ value < 64, sextet (digit value) = some value := by decide
  exact hall value h

theorem digits_digit {d : Decoding} {value : Nat} {rest : Text} (h : value < 64) :
    digits d (digit value :: rest) = digits (d.add value) rest := by
  rw [digits_cons, sextet_digit h]
  rfl

theorem ofNat_eq {value : Nat} (byte : UInt8) (h : value % 256 = byte.toNat) :
    UInt8.ofNat value = byte :=
  UInt8.toNat_inj.mp (by simpa using h)

/-- Two digits give the byte that they begin with and leave four bits of a digit. -/
theorem add_first (bits : Nat) (out : Bytes) (a : UInt8) {next : Nat} (hnext : next < 16) :
    ∃ bits', (Decoding.add ⟨bits, 0, out⟩ (a.toNat / 4)).add (a.toNat % 4 * 16 + next)
      = ⟨bits', 4, out ++ [a]⟩ ∧ bits' % 16 = next := by
  have ha := a.toNat_lt
  refine ⟨((bits * 64 + a.toNat / 4) % 2 ^ 32 * 64 + (a.toNat % 4 * 16 + next)) % 2 ^ 32, ?_, by omega⟩
  simp only [Decoding.add]
  simp only [Nat.zero_add, Nat.reduceLeDiff, ge_iff_le, if_false, if_true, Nat.reduceAdd,
    Nat.reduceSub]
  rw [ofNat_eq a]
  omega

/-- The third digit ends the byte that four bits were left of. -/
theorem add_second {bits : Nat} (out : Bytes) (b : UInt8) {next : Nat} (hnext : next < 4)
    (hbits : bits % 16 = b.toNat / 16) :
    ∃ bits', Decoding.add ⟨bits, 4, out⟩ (b.toNat % 16 * 4 + next) = ⟨bits', 2, out ++ [b]⟩ ∧
      bits' % 4 = next := by
  have hb := b.toNat_lt
  refine ⟨(bits * 64 + (b.toNat % 16 * 4 + next)) % 2 ^ 32, ?_, by omega⟩
  simp only [Decoding.add, ge_iff_le, Nat.reduceLeDiff, if_true, Nat.reduceAdd, Nat.reduceSub]
  rw [ofNat_eq b]
  omega

/-- The fourth digit ends the byte that two bits were left of. -/
theorem add_third {bits : Nat} (out : Bytes) (c : UInt8) (hbits : bits % 4 = c.toNat / 64) :
    ∃ bits', Decoding.add ⟨bits, 2, out⟩ (c.toNat % 64) = ⟨bits', 0, out ++ [c]⟩ := by
  have hc := c.toNat_lt
  refine ⟨(bits * 64 + c.toNat % 64) % 2 ^ 32, ?_⟩
  simp only [Decoding.add, ge_iff_le, Nat.reduceLeDiff, if_true, Nat.reduceAdd, Nat.reduceSub]
  rw [ofNat_eq c]
  omega

/-- From a whole byte on, the digits give the bytes back, whatever bits were
shifted in before. -/
theorem digits_encodeDigits (bytes : Bytes) (bits : Nat) (out : Bytes) :
    ∃ d, digits ⟨bits, 0, out⟩ (encodeDigits bytes) = some d ∧ d.out = out ++ bytes := by
  induction bytes using encodeDigits.induct generalizing bits out with
  | case1 a b c rest ih =>
      have ha := a.toNat_lt
      have hb := b.toNat_lt
      have hc := c.toNat_lt
      have hnext : b.toNat / 16 < 16 := by omega
      have hlast : c.toNat / 64 < 4 := by omega
      obtain ⟨bits₁, hfirst, hbits₁⟩ := add_first bits out a hnext
      obtain ⟨bits₂, hsecond, hbits₂⟩ := add_second (out ++ [a]) b hlast hbits₁
      obtain ⟨bits₃, hthird⟩ := add_third (out ++ [a] ++ [b]) c hbits₂
      rw [encodeDigits, digits_digit (by omega), digits_digit (by omega), digits_digit (by omega),
        digits_digit (by omega), hfirst, hsecond, hthird]
      obtain ⟨d, hd, hout⟩ := ih bits₃ (out ++ [a] ++ [b] ++ [c])
      exact ⟨d, hd, by simpa using hout⟩
  | case2 a b =>
      have ha := a.toNat_lt
      have hb := b.toNat_lt
      have hnext : b.toNat / 16 < 16 := by omega
      obtain ⟨bits₁, hfirst, hbits₁⟩ := add_first bits out a hnext
      obtain ⟨bits₂, hsecond, -⟩ := add_second (out ++ [a]) b (Nat.zero_lt_succ 3) hbits₁
      rw [encodeDigits, digits_digit (by omega), digits_digit (by omega), digits_digit (by omega),
        hfirst]
      exact ⟨_, congrArg some hsecond, by simp⟩
  | case3 a =>
      have ha := a.toNat_lt
      obtain ⟨bits₁, hfirst, -⟩ := add_first bits out a (Nat.zero_lt_succ 15)
      rw [encodeDigits, digits_digit (by omega), digits_digit (by omega)]
      exact ⟨_, congrArg some hfirst, by simp⟩
  | case4 => exact ⟨_, rfl, by simp⟩

/-- The padding of a text is cut off, however long it is. -/
theorem trim_padding {text : Text} (hplain : '=' ∉ text) (padding : Nat) :
    (text ++ List.replicate padding '=').rdropWhile (· == '=') = text := by
  induction padding with
  | zero =>
      rw [List.replicate_zero, List.append_nil, List.rdropWhile_eq_self_iff]
      intro hne hlast
      exact hplain (beq_iff_eq.mp hlast ▸ List.getLast_mem hne)
  | succ padding ih =>
      rw [List.replicate_succ', ← List.append_assoc, List.rdropWhile_concat_pos _ _ _ rfl, ih]

/-- The padding is no digit. -/
theorem plain_of_digits {text : Text} {d out : Decoding} (h : digits d text = some out) :
    '=' ∉ text := by
  intro hmem
  obtain ⟨value, hvalue⟩ := sextet_of_digits h hmem
  cases hvalue

/-- The helper reads the base64 text of bytes as these bytes. -/
theorem base64_encode (bytes : Bytes) : base64 (encode bytes) = some bytes := by
  obtain ⟨d, hdigits, hout⟩ := digits_encodeDigits bytes 0 []
  rw [base64, encode, trim_padding (plain_of_digits hdigits), hdigits]
  exact congrArg some hout

end Passkey.Pam

import Mathlib

/-!
Numbers of a fixed width, highest byte first, and messages sent on a byte
stream behind their length. The reader of such a stream takes one message at a
time; what it takes is what was written, however the bytes arrive.
-/

namespace Passkey.Library

/-- The low `n` bytes of a number, highest first. -/
def bigEndian : Nat → Nat → List UInt8
  | 0, _ => []
  | n + 1, v => UInt8.ofNat (v / 256 ^ n) :: bigEndian n v

def ofBigEndian (bytes : List UInt8) : Nat :=
  bytes.foldl (fun v b => v * 256 + b.toNat) 0

@[simp] theorem length_bigEndian (n v : Nat) : (bigEndian n v).length = n := by
  induction n with
  | zero => rfl
  | succ n ih => simp [bigEndian, ih]

theorem foldl_bigEndian (n v start : Nat) :
    (bigEndian n v).foldl (fun v b => v * 256 + b.toNat) start =
      start * 256 ^ n + v % 256 ^ n := by
  induction n generalizing start with
  | zero => simp [bigEndian, Nat.mod_one]
  | succ n ih =>
      have hbyte : (UInt8.ofNat (v / 256 ^ n)).toNat = v / 256 ^ n % 256 := by simp
      have hsplit : v % 256 ^ (n + 1) = v / 256 ^ n % 256 * 256 ^ n + v % 256 ^ n := by
        rw [Nat.pow_succ, Nat.mod_mul, Nat.mul_comm (256 ^ n), Nat.add_comm]
      simp only [bigEndian, List.foldl_cons, ih, hbyte, hsplit]
      rw [Nat.pow_succ, Nat.add_mul, Nat.mul_assoc, Nat.mul_comm 256, Nat.add_assoc]

/-- A number that fits is read back. -/
theorem ofBigEndian_bigEndian {n v : Nat} (h : v < 256 ^ n) :
    ofBigEndian (bigEndian n v) = v := by
  rw [ofBigEndian, foldl_bigEndian]
  simp [Nat.mod_eq_of_lt h]

theorem ofBigEndian_snoc (bytes : List UInt8) (b : UInt8) :
    ofBigEndian (bytes ++ [b]) = ofBigEndian bytes * 256 + b.toNat := by
  simp [ofBigEndian]

theorem ofBigEndian_lt (bytes : List UInt8) : ofBigEndian bytes < 256 ^ bytes.length := by
  induction bytes using List.reverseRecOn with
  | nil => simp [ofBigEndian]
  | append_singleton bytes b ih =>
      have hb := b.toNat_lt
      rw [ofBigEndian_snoc, List.length_append, List.length_singleton, Nat.pow_succ]
      omega

theorem bigEndian_snoc (n v : Nat) :
    bigEndian (n + 1) v = bigEndian n (v / 256) ++ [UInt8.ofNat v] := by
  induction n with
  | zero => simp [bigEndian]
  | succ n ih =>
      rw [bigEndian, ih, bigEndian, Nat.div_div_eq_div_mul, ← Nat.pow_succ']
      rfl

/-- All bytes are a number of their width. -/
theorem bigEndian_ofBigEndian (bytes : List UInt8) :
    bigEndian bytes.length (ofBigEndian bytes) = bytes := by
  induction bytes using List.reverseRecOn with
  | nil => rfl
  | append_singleton bytes b ih =>
      have hb := b.toNat_lt
      have hhigh : (ofBigEndian bytes * 256 + b.toNat) / 256 = ofBigEndian bytes := by omega
      have hlow : UInt8.ofNat (ofBigEndian bytes * 256 + b.toNat) = b := by
        apply UInt8.toNat_inj.mp
        rw [UInt8.toNat_ofNat']
        omega
      rw [List.length_append, List.length_singleton, ofBigEndian_snoc, bigEndian_snoc, hhigh, ih,
        hlow]

section Numerals

variable {α : Type*} {b : Nat} {digit : Nat → α}

/-- The last digits of a number, highest first. -/
def numeral (b : Nat) (digit : Nat → α) (width v : Nat) : List α :=
  (List.range width).reverse.map fun i => digit (v / b ^ i % b)

theorem numeral_succ (width v : Nat) :
    numeral b digit (width + 1) v = digit (v / b ^ width % b) :: numeral b digit width v := by
  simp [numeral, List.range_succ]

/-- The higher part decides, and the lower one where the higher are equal. -/
theorem weighted_lt {d d' r r' w : Nat} (hr : r < w) (hr' : r' < w) :
    r + w * d < r' + w * d' ↔ d < d' ∨ d = d' ∧ r < r' := by
  rcases Nat.lt_trichotomy d d' with hlt | rfl | hgt
  · have hstep : w * d + w ≤ w * d' := Nat.mul_le_mul_left w hlt
    omega
  · omega
  · have hstep : w * d' + w ≤ w * d := Nat.mul_le_mul_left w hgt
    omega

/-- Numerals of one width compare as their numbers do. -/
theorem numeral_lt_iff [LinearOrder α] (hb : 0 < b) (hdigit : StrictMonoOn digit (Set.Iio b))
    (width v v' : Nat) :
    numeral b digit width v < numeral b digit width v' ↔ v % b ^ width < v' % b ^ width := by
  induction width with
  | zero => simp [numeral, Nat.mod_one]
  | succ width ih =>
      have hin (m : Nat) : m % b ∈ Set.Iio b := Nat.mod_lt m hb
      have hpos : 0 < b ^ width := Nat.pow_pos hb
      rw [numeral_succ, numeral_succ, List.cons_lt_cons_iff, hdigit.lt_iff_lt (hin _) (hin _),
        hdigit.injOn.eq_iff (hin _) (hin _), ih, Nat.mod_pow_succ, Nat.mod_pow_succ,
        weighted_lt (Nat.mod_lt v hpos) (Nat.mod_lt v' hpos)]

end Numerals
/-- A message behind its length in four bytes. -/
def frame (body : List UInt8) : List UInt8 :=
  bigEndian 4 body.length ++ body

/-- What the next bytes of a stream are. -/
inductive Incoming where
  | incomplete
  | refused (length : Nat)
  | message (body rest : List UInt8)

/-- Take one message of `1` to `limit` bytes from the bytes received so far. -/
def readFrame (limit : Nat) (received : List UInt8) : Incoming :=
  let length := ofBigEndian (received.take 4)
  if received.length < 4 then .incomplete
  else if length < 1 ∨ limit < length then .refused length
  else if received.length < 4 + length then .incomplete
  else .message ((received.drop 4).take length) (received.drop (4 + length))

theorem length_of_readFrame {limit : Nat} {received body rest : List UInt8}
    (h : readFrame limit received = .message body rest) : body.length ≤ limit := by
  simp only [readFrame] at h
  split at h
  · cases h
  · split at h
    · cases h
    · rename_i hlength
      split at h
      · cases h
      · cases h
        rw [List.length_take]
        omega

/-- The reader takes the message that was written first. -/
theorem readFrame_frame {limit : Nat} {body : List UInt8} (rest : List UInt8)
    (hpos : body ≠ []) (hlimit : body.length ≤ limit) (hfits : limit < 256 ^ 4) :
    readFrame limit (frame body ++ rest) = .message body rest := by
  have hlength : ofBigEndian ((frame body ++ rest).take 4) = body.length := by
    have htake : (frame body ++ rest).take 4 = bigEndian 4 body.length := by
      simp [frame]
    rw [htake]
    exact ofBigEndian_bigEndian (by omega)
  have hpos' : 0 < body.length := List.length_pos_iff.mpr hpos
  have hdrop : (frame body ++ rest).drop 4 = body ++ rest := by
    simp [frame]
  unfold readFrame
  rw [hlength]
  rw [if_neg (by simp [frame]), if_neg (by omega), if_neg (by simp [frame])]
  congr 1
  · rw [hdrop, List.take_left]
  · rw [← List.drop_drop, hdrop, List.drop_left]

end Passkey.Library

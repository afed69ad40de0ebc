import Passkey.Text

/-!
The byte sequences of UTF-8. Both programs' decoders go by the lead byte; this
is what they find in the encoding of a character.
-/

namespace Passkey.Utf8

/-- The bytes of a text, as `str::bytes` gives them. -/
def bytes (text : Text) : Bytes :=
  text.flatMap String.utf8EncodeChar

/-- A well-formed sequence for a character. -/
inductive Sequence (c : Char) : Bytes → Prop
  | one (a : UInt8) (ha : a.toNat < 0x80) (hc : a.toNat = c.toNat) : Sequence c [a]
  | two (a b : UInt8) (ha : 0xC2 ≤ a.toNat ∧ a.toNat ≤ 0xDF) (hb : isContinuation b)
      (hc : a.toNat % 32 * 64 + low6 b = c.toNat) : Sequence c [a, b]
  | three (a b d : UInt8) (ha : 0xE0 ≤ a.toNat ∧ a.toNat ≤ 0xEF) (hb : secondByte a b)
      (hd : isContinuation d)
      (hc : a.toNat % 16 * 4096 + low6 b * 64 + low6 d = c.toNat) : Sequence c [a, b, d]
  | four (a b d e : UInt8) (ha : 0xF0 ≤ a.toNat ∧ a.toNat ≤ 0xF4) (hb : secondByte a b)
      (hd : isContinuation d) (he : isContinuation e)
      (hc : a.toNat % 8 * 262144 + low6 b * 4096 + low6 d * 64 + low6 e = c.toNat) :
      Sequence c [a, b, d, e]

theorem toNat_ofNat {n : Nat} (h : n < 0xD800 ∨ (0xDFFF < n ∧ n < 0x110000)) :
    (Char.ofNat n).toNat = n := by
  have hvalid : n.isValidChar := h
  rw [Char.ofNat, dif_pos hvalid]
  rfl

theorem isContinuation_iff {x : UInt8} :
    isContinuation x ↔ 0x80 ≤ x.toNat ∧ x.toNat ≤ 0xBF := by
  simp [isContinuation, UInt8.le_iff_toNat_le]

theorem secondByte_iff {a x : UInt8} :
    secondByte a x ↔ (0x80 ≤ x.toNat ∧ x.toNat ≤ 0xBF) ∧
      (a.toNat = 0xE0 → 0xA0 ≤ x.toNat) ∧ (a.toNat = 0xED → x.toNat ≤ 0x9F) ∧
      (a.toNat = 0xF0 → 0x90 ≤ x.toNat) ∧ (a.toNat = 0xF4 → x.toNat ≤ 0x8F) := by
  have hlead {y : UInt8} : a = y ↔ a.toNat = y.toNat := UInt8.toNat_inj.symm
  unfold secondByte
  simp only [hlead]
  split
  · rename_i h
    simp [UInt8.le_iff_toNat_le, show a.toNat = 0xE0 from h]
    omega
  · split
    · rename_i h
      simp [UInt8.le_iff_toNat_le, show a.toNat = 0xED from h]
      omega
    · split
      · rename_i h
        simp [UInt8.le_iff_toNat_le, show a.toNat = 0xF0 from h]
        omega
      · split
        · rename_i h
          simp [UInt8.le_iff_toNat_le, show a.toNat = 0xF4 from h]
          omega
        · rename_i hE0 hED hF0 hF4
          rw [isContinuation_iff]
          refine ⟨fun h => ⟨h, ?_, ?_, ?_, ?_⟩, fun h => h.1⟩
          · exact fun h => absurd h hE0
          · exact fun h => absurd h hED
          · exact fun h => absurd h hF0
          · exact fun h => absurd h hF4

/-- What a lead byte says, in the words of the decoders. -/
theorem lead_one {a : UInt8} (ha : a.toNat < 0x80) : a < 0x80 :=
  UInt8.lt_iff_toNat_lt.mpr ha

theorem lead_two {a : UInt8} (ha : 0xC2 ≤ a.toNat ∧ a.toNat ≤ 0xDF) :
    ¬ a < 0x80 ∧ 0xC2 ≤ a ∧ a ≤ 0xDF := by
  simp only [UInt8.lt_iff_toNat_lt, UInt8.le_iff_toNat_le, UInt8.reduceToNat]
  omega

theorem lead_three {a : UInt8} (ha : 0xE0 ≤ a.toNat ∧ a.toNat ≤ 0xEF) :
    ¬ a < 0x80 ∧ ¬ (0xC2 ≤ a ∧ a ≤ 0xDF) ∧ 0xE0 ≤ a ∧ a ≤ 0xEF := by
  simp only [UInt8.lt_iff_toNat_lt, UInt8.le_iff_toNat_le, UInt8.reduceToNat]
  omega

theorem lead_four {a : UInt8} (ha : 0xF0 ≤ a.toNat ∧ a.toNat ≤ 0xF4) :
    ¬ a < 0x80 ∧ ¬ (0xC2 ≤ a ∧ a ≤ 0xDF) ∧ ¬ (0xE0 ≤ a ∧ a ≤ 0xEF) ∧ 0xF0 ≤ a ∧ a ≤ 0xF4 := by
  simp only [UInt8.lt_iff_toNat_lt, UInt8.le_iff_toNat_le, UInt8.reduceToNat]
  omega

/-- The scalar values: no surrogates. -/
theorem scalar (c : Char) : c.toNat < 0xD800 ∨ (0xDFFF < c.toNat ∧ c.toNat < 0x110000) :=
  c.valid

theorem sequence_encode (c : Char) : Sequence c (String.utf8EncodeChar c) := by
  have hscalar := scalar c
  have hval : c.val.toNat = c.toNat := rfl
  have hbyte {n : Nat} (hn : n < 256) : (UInt8.ofNat n).toNat = n := by
    simp [Nat.mod_eq_of_lt hn]
  unfold String.utf8EncodeChar
  simp only [hval]
  split
  · exact .one _ (by rw [hbyte (by omega)]; omega) (by rw [hbyte (by omega)])
  · split
    · refine .two _ _ ?_ (isContinuation_iff.mpr ?_) ?_
      · rw [hbyte (by omega)]
        omega
      · rw [hbyte (by omega)]
        omega
      · rw [low6, hbyte (by omega), hbyte (by omega)]
        omega
    · split
      · refine .three _ _ _ ?_ (secondByte_iff.mpr ?_) (isContinuation_iff.mpr ?_) ?_
        · rw [hbyte (by omega)]
          omega
        · rw [hbyte (by omega), hbyte (by omega)]
          omega
        · rw [hbyte (by omega)]
          omega
        · rw [low6, low6, hbyte (by omega), hbyte (by omega), hbyte (by omega)]
          omega
      · refine .four _ _ _ _ ?_ (secondByte_iff.mpr ?_) (isContinuation_iff.mpr ?_)
          (isContinuation_iff.mpr ?_) ?_
        · rw [hbyte (by omega)]
          omega
        · rw [hbyte (by omega), hbyte (by omega)]
          omega
        · rw [hbyte (by omega)]
          omega
        · rw [hbyte (by omega)]
          omega
        · rw [low6, low6, low6, hbyte (by omega), hbyte (by omega), hbyte (by omega),
            hbyte (by omega)]
          omega

/-- How many bytes a sequence has says how large its character is. -/
theorem Sequence.range {c : Char} {enc : Bytes} (h : Sequence c enc) :
    enc.length = 1 ∧ c.toNat < 0x80 ∨ enc.length = 2 ∧ 0x80 ≤ c.toNat ∧ c.toNat < 0x800 ∨
      enc.length = 3 ∧ 0x800 ≤ c.toNat ∧ c.toNat < 0x10000 ∨
      enc.length = 4 ∧ 0x10000 ≤ c.toNat := by
  cases h with
  | one a ha hc => exact .inl ⟨rfl, by omega⟩
  | two a b ha hb hc =>
      have hb' := isContinuation_iff.mp hb
      refine .inr (.inl ⟨rfl, ?_⟩)
      unfold low6 at hc
      omega
  | three a b d ha hb hd hc =>
      have hb' := secondByte_iff.mp hb
      have hd' := isContinuation_iff.mp hd
      refine .inr (.inr (.inl ⟨rfl, ?_⟩))
      unfold low6 at hc
      omega
  | four a b d e ha hb hd he hc =>
      have hb' := secondByte_iff.mp hb
      have hd' := isContinuation_iff.mp hd
      have he' := isContinuation_iff.mp he
      refine .inr (.inr (.inr ⟨rfl, ?_⟩))
      unfold low6 at hc
      omega

/-- The first byte of a sequence is the character itself, or above ASCII. -/
theorem Sequence.begins {c : Char} {enc : Bytes} (h : Sequence c enc) :
    c.toNat < 0x80 ∧ enc = [UInt8.ofNat c.toNat] ∨
      0x80 ≤ c.toNat ∧ ∃ lead rest, enc = lead :: rest ∧ 0x80 ≤ lead.toNat := by
  have hrange := h.range
  cases h with
  | one a ha hc =>
      refine .inl ⟨by omega, ?_⟩
      rw [← hc, UInt8.ofNat_toNat]
  | two a b ha hb hc =>
      simp only [List.length_cons, List.length_nil] at hrange
      exact .inr ⟨by omega, a, [b], rfl, by omega⟩
  | three a b d ha hb hd hc =>
      simp only [List.length_cons, List.length_nil] at hrange
      exact .inr ⟨by omega, a, [b, d], rfl, by omega⟩
  | four a b d e ha hb hd he hc =>
      simp only [List.length_cons, List.length_nil] at hrange
      exact .inr ⟨by omega, a, [b, d, e], rfl, by omega⟩

/-- ASCII has one byte for each character. -/
theorem length_bytes {text : Text} (h : ∀ c ∈ text, c.toNat < 0x80) :
    (bytes text).length = text.length := by
  induction text with
  | nil => rfl
  | cons c rest ih =>
      have hc := h c List.mem_cons_self
      have hrest := ih fun d hd => h d (List.mem_cons_of_mem c hd)
      rw [bytes, List.flatMap_cons, List.length_append, List.length_cons, Nat.add_comm rest.length]
      rcases (sequence_encode c).begins with ⟨-, henc⟩ | ⟨hhigh, -⟩
      · rw [henc]
        exact congrArg (1 + ·) hrest
      · omega

/-- A character has one sequence. -/
theorem Sequence.unique {c : Char} {enc enc' : Bytes} (h : Sequence c enc) (h' : Sequence c enc') :
    enc = enc' := by
  have hlength : enc.length = enc'.length := by
    have hrange := h.range
    have hrange' := h'.range
    omega
  have hbyte {x y : UInt8} (hxy : x.toNat = y.toNat) : x = y := UInt8.toNat_inj.mp hxy
  cases h with
  | one a ha hc =>
      cases h' with
      | one a' ha' hc' => rw [hbyte (hc.trans hc'.symm)]
      | _ => cases hlength
  | two a b ha hb hc =>
      cases h' with
      | two a' b' ha' hb' hc' =>
          rw [isContinuation_iff] at hb hb'
          unfold low6 at hc hc'
          rw [@hbyte a a' (by omega), @hbyte b b' (by omega)]
      | _ => cases hlength
  | three a b d ha hb hd hc =>
      cases h' with
      | three a' b' d' ha' hb' hd' hc' =>
          rw [isContinuation_iff] at hd hd'
          rw [secondByte_iff] at hb hb'
          unfold low6 at hc hc'
          rw [@hbyte a a' (by omega), @hbyte b b' (by omega), @hbyte d d' (by omega)]
      | _ => cases hlength
  | four a b d e ha hb hd he hc =>
      cases h' with
      | four a' b' d' e' ha' hb' hd' he' hc' =>
          rw [isContinuation_iff] at hd hd' he he'
          rw [secondByte_iff] at hb hb'
          unfold low6 at hc hc'
          rw [@hbyte a a' (by omega), @hbyte b b' (by omega), @hbyte d d' (by omega),
            @hbyte e e' (by omega)]
      | _ => cases hlength

end Passkey.Utf8

import Passkey.Library.Framing

/-!
CTAPHID framing. A message is cut into packets of 64 bytes, filled up with
zeros: the first carries the command and the length, the others are numbered
from 0 on. The top bit of the fifth byte tells the two kinds apart, so a
message has at most 128 packets after the first.
-/

namespace Passkey.Library.Hid

structure Message where
  channel : UInt32
  command : UInt8
  payload : List UInt8
  deriving DecidableEq

def fill (n : Nat) (bytes : List UInt8) : List UInt8 :=
  bytes ++ List.replicate (n - bytes.length) 0

namespace Message

def first (m : Message) : List UInt8 :=
  bigEndian 4 m.channel.toNat ++ m.command :: bigEndian 2 m.payload.length ++
    fill 57 (m.payload.take 57)

/-- The packet with number `k`. -/
def continuation (m : Message) (k : Nat) : List UInt8 :=
  bigEndian 4 m.channel.toNat ++ UInt8.ofNat k ::
    fill 59 ((m.payload.drop (57 + 59 * k)).take 59)

/-- How many packets follow the first. -/
def continuations (m : Message) : Nat :=
  (m.payload.length - 57 + 58) / 59

def packets (m : Message) : List (List UInt8) :=
  m.first :: (List.range m.continuations).map m.continuation

theorem lt_continuations {m : Message} {k : Nat} :
    k < m.continuations ↔ 57 + 59 * k < m.payload.length := by
  unfold continuations
  omega

end Message

/-- A message of which some packets were received. -/
structure Assembly where
  channel : UInt32
  command : UInt8
  total : Nat
  data : List UInt8
  /-- The number of the next packet. -/
  sequence : UInt8

def begin : List UInt8 → Option Assembly
  | c0 :: c1 :: c2 :: c3 :: command :: hi :: lo :: body =>
      if command &&& 0x80 ≠ 0 then
        some {
          channel := UInt32.ofNat (ofBigEndian [c0, c1, c2, c3])
          command
          total := ofBigEndian [hi, lo]
          data := body.take (ofBigEndian [hi, lo])
          sequence := 0}
      else none
  | _ => none

/-- A packet is added if it is the next one of this message. -/
def Assembly.add (a : Assembly) : List UInt8 → Option Assembly
  | c0 :: c1 :: c2 :: c3 :: sequence :: body =>
      if UInt32.ofNat (ofBigEndian [c0, c1, c2, c3]) = a.channel ∧ sequence &&& 0x80 = 0 ∧
          sequence = a.sequence ∧ a.data.length < a.total then
        some {a with
          data := a.data ++ body.take (a.total - a.data.length)
          sequence := a.sequence + 1}
      else none
  | _ => none

/-- The message that these packets are, all of them and no more. -/
def assemble : List (List UInt8) → Option Message
  | [] => none
  | first :: rest =>
      ((begin first).bind fun a => rest.foldlM Assembly.add a).bind fun a =>
        if a.data.length = a.total then some ⟨a.channel, a.command, a.data⟩ else none

/-! ### What was cut is assembled -/

theorem ofNat_ofBigEndian (channel : UInt32) :
    UInt32.ofNat (ofBigEndian (bigEndian 4 channel.toNat)) = channel := by
  rw [ofBigEndian_bigEndian channel.toNat_lt, UInt32.ofNat_toNat]

namespace Message

/-- The message after its first packet and `k` more. -/
def after (m : Message) (k : Nat) : Assembly where
  channel := m.channel
  command := m.command
  total := m.payload.length
  data := m.payload.take (57 + 59 * k)
  sequence := UInt8.ofNat k

/-- The bytes of the first packet that belong to the message. -/
theorem take_first (m : Message) :
    (fill 57 (m.payload.take 57)).take m.payload.length = m.payload.take 57 := by
  rw [fill, List.take_append, List.take_take, List.length_take, List.take_replicate]
  rcases Nat.le_total 57 m.payload.length with hlong | hshort
  · rw [Nat.min_eq_right hlong, Nat.min_eq_left hlong]
    simp
  · rw [Nat.min_eq_left hshort, Nat.min_eq_right hshort, Nat.sub_self, Nat.zero_min,
      List.replicate_zero, List.append_nil, List.take_length, List.take_of_length_le hshort]

theorem begin_first {m : Message} (hcommand : m.command &&& 0x80 ≠ 0)
    (hlength : m.payload.length < 2 ^ 16) : begin m.first = some (m.after 0) := by
  have htotal : ofBigEndian (bigEndian 2 m.payload.length) = m.payload.length :=
    ofBigEndian_bigEndian hlength
  have hbegin : begin m.first = some ⟨UInt32.ofNat (ofBigEndian (bigEndian 4 m.channel.toNat)),
      m.command, ofBigEndian (bigEndian 2 m.payload.length),
      (fill 57 (m.payload.take 57)).take (ofBigEndian (bigEndian 2 m.payload.length)), 0⟩ :=
    if_pos hcommand
  rw [hbegin, ofNat_ofBigEndian, htotal, take_first]
  rfl

theorem length_data {m : Message} {k : Nat} (h : 57 + 59 * k ≤ m.payload.length) :
    (m.after k).data.length = 57 + 59 * k :=
  List.length_take_of_le h

/-- The bytes that a packet adds are those that come next. -/
theorem take_continuation (m : Message) (k : Nat) :
    m.payload.take (57 + 59 * k) ++ (fill 59 ((m.payload.drop (57 + 59 * k)).take 59)).take
      (m.payload.length - (57 + 59 * k)) = m.payload.take (57 + 59 * (k + 1)) := by
  have hchunk : (fill 59 ((m.payload.drop (57 + 59 * k)).take 59)).take
      (m.payload.length - (57 + 59 * k)) = (m.payload.drop (57 + 59 * k)).take 59 := by
    rw [fill, List.take_append, List.take_take, List.length_take, List.length_drop,
      List.take_replicate]
    rcases Nat.le_total 59 (m.payload.length - (57 + 59 * k)) with hlong | hshort
    · rw [Nat.min_eq_right hlong, Nat.min_eq_left hlong]
      simp
    · rw [Nat.min_eq_left hshort, Nat.min_eq_right hshort, Nat.sub_self, Nat.zero_min,
        List.replicate_zero, List.append_nil, ← List.length_drop, List.take_length,
        List.take_of_length_le (by simpa using hshort)]
  rw [hchunk, Nat.mul_succ, ← Nat.add_assoc]
  exact List.take_add.symm

theorem number_lt {k : Nat} (hk : k < 128) : UInt8.ofNat k &&& 0x80 = 0 := by
  have hall : ∀ i : Fin 128, UInt8.ofNat i &&& 0x80 = 0 := by decide
  exact hall ⟨k, hk⟩

theorem lt_of_number {byte : UInt8} (h : byte &&& 0x80 = 0) : byte.toNat < 128 := by
  have hlt := byte.toNat_lt
  have hbit : byte.toNat &&& 2 ^ 7 = 0 := by
    have hnat := congrArg UInt8.toNat h
    rw [UInt8.toNat_and] at hnat
    exact hnat
  rw [Nat.and_two_pow, Nat.toNat_testBit] at hbit
  omega

theorem add_continuation {m : Message} {k : Nat} (hk : k < 128) (h : k < m.continuations) :
    (m.after k).add (m.continuation k) = some (m.after (k + 1)) := by
  have hlt := lt_continuations.mp h
  have hlength := length_data (Nat.le_of_lt hlt)
  have hadd : (m.after k).add (m.continuation k) = some {m.after k with
      data := m.payload.take (57 + 59 * k) ++ (fill 59 ((m.payload.drop (57 + 59 * k)).take 59)).take
        (m.payload.length - (m.after k).data.length)
      sequence := UInt8.ofNat k + 1} :=
    if_pos ⟨ofNat_ofBigEndian m.channel, number_lt hk, rfl, by rwa [hlength]⟩
  rw [hadd, hlength, take_continuation m k, after, after, UInt8.ofNat_add]
  rfl

/-- The packet with the number 128 is not taken for one that follows. -/
theorem add_over (m : Message) (a : Assembly) : a.add (m.continuation 128) = none := by
  refine if_neg fun hall => ?_
  exact absurd hall.2.1 (by decide)

theorem foldlM_continuations (m : Message) {n : Nat} (h : n ≤ m.continuations) (hn : n ≤ 128) :
    ((List.range n).map m.continuation).foldlM Assembly.add (m.after 0) = some (m.after n) := by
  induction n with
  | zero => rfl
  | succ n ih =>
      rw [List.range_succ, List.map_append, List.foldlM_append, ih (by omega) (by omega)]
      have hadd := add_continuation (m := m) (Nat.lt_of_succ_le hn) (Nat.lt_of_succ_le h)
      simp [hadd]

/-- A message that fits is assembled from its packets. -/
theorem assemble_packets {m : Message} (hcommand : m.command &&& 0x80 ≠ 0)
    (hlength : m.payload.length ≤ 57 + 128 * 59) : assemble m.packets = some m := by
  have hcount : m.continuations ≤ 128 := by
    unfold continuations
    omega
  have hdata : (m.after m.continuations).data = m.payload := by
    refine List.take_of_length_le ?_
    unfold continuations
    omega
  rw [packets, assemble, begin_first hcommand (by omega), Option.bind_some,
    foldlM_continuations m (Nat.le_refl _) hcount, Option.bind_some, hdata]
  exact if_pos rfl

/-- A message that is too long is not: its packets run out of numbers. -/
theorem assemble_long {m : Message} (hcommand : m.command &&& 0x80 ≠ 0)
    (hlong : 57 + 128 * 59 < m.payload.length) (hlength : m.payload.length < 2 ^ 16) :
    assemble m.packets = none := by
  have hcount : m.continuations = 129 + (m.continuations - 129) := by
    unfold continuations
    omega
  have hsplit : List.range m.continuations =
      List.range 128 ++ 128 :: (List.range (m.continuations - 129)).map (129 + ·) := by
    conv_lhs => rw [hcount, List.range_add, List.range_succ]
    simp
  rw [packets, assemble, begin_first hcommand hlength, Option.bind_some, hsplit, List.map_append,
    List.foldlM_append, foldlM_continuations m (by omega) (Nat.le_refl _)]
  simp [add_over]

end Message

end Passkey.Library.Hid

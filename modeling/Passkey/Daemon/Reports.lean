import Passkey.Daemon.Frames
import Passkey.Library.Hid

/-!
What the host makes of the reports of a reply. `read_link` lets larger payloads
through than the reports of one message can carry.
-/

namespace Passkey.Daemon

open Library

theorem sendReport_first (channel : UInt32) (command hi lo : UInt8) {body : Bytes}
    (hbody : body.length ≤ 57) :
    sendReport (channelBytes channel ++ command :: [hi, lo] ++ body) =
      channelBytes channel ++ command :: [hi, lo] ++ Hid.fill 57 body := by
  have hlength : (channelBytes channel ++ command :: [hi, lo] ++ body).length =
      7 + body.length := by
    simp [channelBytes]
    omega
  rw [sendReport, List.take_of_length_le (by omega), hlength, Hid.fill, List.append_assoc,
    List.append_assoc, List.append_assoc, show 64 - (7 + body.length) = 57 - body.length by omega]

theorem sendReport_continuation (channel : UInt32) (sequence : UInt8) {body : Bytes}
    (hbody : body.length ≤ 59) :
    sendReport (channelBytes channel ++ sequence :: body) =
      channelBytes channel ++ sequence :: Hid.fill 59 body := by
  have hlength : (channelBytes channel ++ sequence :: body).length = 5 + body.length := by
    simp [channelBytes]
    omega
  rw [sendReport, List.take_of_length_le (by omega), hlength, Hid.fill, List.append_assoc,
    List.cons_append, show 64 - (5 + body.length) = 59 - body.length by omega]

/-- From any continuation on, the reports are the packets of the message. -/
theorem continuations_eq (m : Hid.Message) (fuel k : Nat)
    (hfuel : m.payload.length - (57 + 59 * k) ≤ fuel) :
    continuations m.channel fuel (UInt8.ofNat k) (m.payload.drop (57 + 59 * k)) =
      (List.range' k (m.continuations - k)).map m.continuation := by
  induction fuel generalizing k with
  | zero =>
      have hdone : m.continuations - k = 0 := by
        unfold Hid.Message.continuations
        omega
      rw [hdone]
      rfl
  | succ fuel ih =>
      rw [continuations]
      split
      · rename_i hnil
        have hdone : m.continuations - k = 0 := by
          have hlength := List.drop_eq_nil_iff.mp hnil
          unfold Hid.Message.continuations
          omega
        rw [hdone]
        rfl
      · rename_i hmore
        have hlt : 57 + 59 * k < m.payload.length := by
          rw [List.drop_eq_nil_iff] at hmore
          omega
        have hcount : m.continuations - k = (m.continuations - (k + 1)) + 1 := by
          have := Hid.Message.lt_continuations.mpr hlt
          omega
        rw [hcount, List.range'_succ, List.map_cons, List.drop_drop,
          sendReport_continuation _ _ (List.length_take_le ..)]
        refine congrArg₂ _ rfl ?_
        have hnext := ih (k + 1) (by omega)
        rwa [UInt8.ofNat_add] at hnext

/-- A reply is written as the packets of one message. -/
theorem reply_eq (m : Hid.Message) (hlength : m.payload.length < 2 ^ 16) :
    reply m.channel m.command m.payload = m.packets := by
  have hrest := continuations_eq m m.payload.length 0 (by omega)
  rw [Hid.Message.packets, List.range_eq_range']
  refine congrArg₂ _ ?_ hrest
  rw [Nat.mod_eq_of_lt hlength]
  exact sendReport_first _ _ _ _ (List.length_take_le ..)

theorem length_response {received body rest payload : Bytes} {number : UInt32}
    (hread : readFrame maxBody received = .message body rest)
    (hresponse : decodeResponse body = some (number, payload)) :
    payload.length + 5 ≤ maxBody := by
  obtain ⟨⟨-, hbody⟩, heq⟩ := Option.ite_none_right_eq_some.mp hresponse
  obtain ⟨-, rfl⟩ := Prod.mk.inj (Option.some.inj heq)
  have hlimit := length_of_readFrame hread
  rw [List.length_drop]
  omega

/-- The reports of a reply with a payload that `read_link` delivered are
assembled to that reply if and only if 129 reports can carry it. -/
theorem reply_assembled {received body rest payload : Bytes} {number : UInt32}
    (hread : readFrame maxBody received = .message body rest)
    (hresponse : decodeResponse body = some (number, payload)) (channel : UInt32) :
    Hid.assemble (reply channel CBOR payload) = some ⟨channel, CBOR, payload⟩ ↔
      payload.length ≤ 7609 := by
  have hlength := length_response hread hresponse
  have hfits : payload.length < 2 ^ 16 := by
    unfold maxBody at hlength
    omega
  have hcommand : CBOR &&& 0x80 ≠ 0 := by decide
  rw [reply_eq ⟨channel, CBOR, payload⟩ hfits]
  constructor
  · intro hassembled
    by_contra hlong
    rw [Hid.Message.assemble_long hcommand (by simpa using hlong) hfits] at hassembled
    cases hassembled
  · exact fun hshort => Hid.Message.assemble_packets hcommand hshort

/-- What `read_link` delivers for request 1 when this payload is sent. -/
theorem delivered (payload : Bytes) (hlength : payload.length + 5 ≤ maxBody) :
    readFrame maxBody (frame ([RESP, 0, 0, 0, 1] ++ payload) ++ []) =
        .message ([RESP, 0, 0, 0, 1] ++ payload) [] ∧
      decodeResponse ([RESP, 0, 0, 0, 1] ++ payload) = some (1, payload) := by
  have hsize : ([RESP, 0, 0, 0, 1] ++ payload).length ≤ maxBody := by
    rw [List.length_append, Nat.add_comm]
    exact hlength
  refine ⟨readFrame_frame [] (by simp) hsize (by decide), ?_⟩
  have hnumber : UInt32.ofNat (ofBigEndian [0, 0, 0, 1]) = 1 := rfl
  simp [decodeResponse, hnumber]

theorem longest_assembled : ∃ payload : Bytes, payload.length = 7609 ∧
    Hid.assemble (reply 1 CBOR payload) = some ⟨1, CBOR, payload⟩ := by
  obtain ⟨payload, hlength⟩ : ∃ payload : Bytes, payload.length = 7609 :=
    ⟨List.replicate 7609 0, List.length_replicate⟩
  obtain ⟨hread, hresponse⟩ := delivered payload (by
    rw [hlength]
    decide)
  exact ⟨payload, hlength, (reply_assembled hread hresponse 1).mpr (Nat.le_of_eq hlength)⟩

/-- One byte more does not get through. -/
theorem longer_lost : ∃ received body rest number payload,
    readFrame maxBody received = .message body rest ∧
      decodeResponse body = some (number, payload) ∧ payload.length = 7610 ∧
      Hid.assemble (reply 1 CBOR payload) ≠ some ⟨1, CBOR, payload⟩ := by
  obtain ⟨payload, hlength⟩ : ∃ payload : Bytes, payload.length = 7610 :=
    ⟨List.replicate 7610 0, List.length_replicate⟩
  obtain ⟨hread, hresponse⟩ := delivered payload (by
    rw [hlength]
    decide)
  refine ⟨_, _, _, _, _, hread, hresponse, hlength, fun hassembled => ?_⟩
  have hcommand : CBOR &&& 0x80 ≠ 0 := by decide
  have hlong : 57 + 128 * 59 < payload.length := by omega
  have hfits : payload.length < 2 ^ 16 := by omega
  have hlost : Hid.assemble (Hid.Message.mk 1 CBOR payload).packets = none :=
    Hid.Message.assemble_long hcommand hlong hfits
  rw [← reply_eq ⟨1, CBOR, payload⟩ hfits, hassembled] at hlost
  cases hlost

end Passkey.Daemon

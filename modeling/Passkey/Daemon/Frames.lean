import Passkey.Library.Framing
import Passkey.Text

/-!
The bytes that the daemon exchanges: frames with a phone, and the 64-byte
reports of CTAPHID with the kernel.
-/

namespace Passkey.Daemon

open Library

/-! ### Frames -/

abbrev REQ : UInt8 := 0x10
abbrev CANCEL : UInt8 := 0x11
abbrev PING : UInt8 := 0x12
abbrev RESP : UInt8 := 0x20
abbrev PONG : UInt8 := 0x22

/-- The largest body that `read_link` accepts. -/
def maxBody : Nat := 8192

def numberBytes (number : UInt32) : Bytes :=
  bigEndian 4 number.toNat

def request (number : UInt32) (data : Bytes) : Bytes :=
  REQ :: numberBytes number ++ data

def withdrawal (number : UInt32) : Bytes :=
  CANCEL :: numberBytes number

def decodeResponse (body : Bytes) : Option (UInt32 × Bytes) :=
  if body.head? = some RESP ∧ body.length ≥ 5 then
    some (UInt32.ofNat (ofBigEndian ((body.drop 1).take 4)), body.drop 5)
  else none

/-! ### Reports -/

abbrev PING_CMD : UInt8 := 0x81
abbrev INIT : UInt8 := 0x86
abbrev WINK : UInt8 := 0x88
abbrev CBOR : UInt8 := 0x90
abbrev CANCEL_CMD : UInt8 := 0x91
abbrev KEEPALIVE : UInt8 := 0xbb
abbrev ERROR : UInt8 := 0xbf
abbrev ERR_INVALID_CMD : UInt8 := 0x01
abbrev ERR_INVALID_LEN : UInt8 := 0x03
abbrev ERR_INVALID_SEQ : UInt8 := 0x04
abbrev ERR_CHANNEL_BUSY : UInt8 := 0x06
abbrev ERR_INVALID_CHANNEL : UInt8 := 0x0b
abbrev CTAP2_ERR_OTHER : UInt8 := 0x7f
abbrev GET_ASSERTION : UInt8 := 0x02
abbrev GET_INFO : UInt8 := 0x04
abbrev GET_NEXT_ASSERTION : UInt8 := 0x08
abbrev OPERATION_DENIED : UInt8 := 0x27
abbrev NO_CREDENTIALS : UInt8 := 0x2e
abbrev BROADCAST : UInt32 := 0xffffffff

def channelBytes (channel : UInt32) : Bytes :=
  bigEndian 4 channel.toNat

/-- `send_report`: the report is cut or padded with zeros to 64 bytes. -/
def sendReport (report : Bytes) : Bytes :=
  report.take 64 ++ List.replicate (64 - report.length) 0

/-- The continuation reports: 59 bytes each, the sequence byte wraps around. -/
def continuations (channel : UInt32) : Nat → UInt8 → Bytes → List Bytes
  | 0, _, _ => []
  | fuel + 1, sequence, rest =>
      if rest = [] then []
      else sendReport (channelBytes channel ++ sequence :: rest.take 59) ::
        continuations channel fuel (sequence + 1) (rest.drop 59)

/-- The reports that `reply` writes, in order. Each continuation takes at
least one byte, so the length of the data is enough fuel. -/
def reply (channel : UInt32) (command : UInt8) (data : Bytes) : List Bytes :=
  sendReport (channelBytes channel ++ command :: bigEndian 2 (data.length % 2 ^ 16) ++
    data.take 57) :: continuations channel data.length 0 (data.drop 57)

def error (channel : UInt32) (code : UInt8) : List Bytes :=
  reply channel ERROR [code]

theorem reply_ne_nil (channel : UInt32) (command : UInt8) (data : Bytes) :
    reply channel command data ≠ [] := by
  simp [reply]

example : frame (request 7 [GET_INFO]) = [0, 0, 0, 6, REQ, 0, 0, 0, 7, GET_INFO] := by rfl

example : decodeResponse [RESP, 0, 0, 0, 7, 0] = some (7, [0]) := by rfl

example : decodeResponse [RESP, 0] = none := by rfl

end Passkey.Daemon

import Mathlib
import Passkey.Daemon.Cbor
import Passkey.Daemon.Frames

/-!
What the threads of the daemon share, and where each of them is in its code.
A thread runs from one lock, send or receive to the next; its place between
two of them is a program counter with the local variables that are still read.
Reference-counted links and requests are numbered in the order of their
creation, so two of them are the same object when their numbers are equal.
-/

namespace Passkey.Daemon

open Library

abbrev LinkId := Nat
abbrev RequestId := Nat
abbrev ThreadId := Nat

/-! ### Links -/

/-- How far `close` has come: `alive` was swapped, the stream was shut down,
the close marker was queued. -/
inductive Life where
  | alive
  | swapped
  | shut
  | marked
  deriving DecidableEq

structure Link where
  device : Text := []
  priority : UInt8 := 0
  life : Life := .alive
  /-- The channel that `read_link` fills and `fan_out` polls. -/
  responses : List (UInt32 × Bytes) := []
  /-- Bytes that arrived and `read_link` has not taken yet. -/
  received : Bytes := []
  /-- Whether `read_link` still runs. -/
  reading : Bool := true
  /-- The bytes of frames that get through to the other end. -/
  sent : Bytes := []
  /-- How many bytes get through of a frame whose write fails. -/
  passing : Nat := 0
  /-- How many bytes of such a frame the TLS session keeps for later. -/
  owed : Nat := 0
  /-- The bytes of the next frame that the TLS session takes for those it kept. -/
  lost : Nat := 0
  /-- Whether a frame got through only in part. -/
  torn : Bool := false

def Link.alive (k : Link) : Bool :=
  k.life = .alive

/-- A stream that was shut down takes no more bytes. -/
def Link.isShut (k : Link) : Bool :=
  k.life = .shut || k.life = .marked

/-- What `close` puts in the channel of responses. -/
def closeMarker : UInt32 × Bytes :=
  (0, [])

/-- A response with this number, or the close marker. -/
def Concerns (number : UInt32) (response : UInt32 × Bytes) : Prop :=
  response.1 = number ∨ response = closeMarker

/-- What gets through of a frame. A write that fails leaves the stream open:
`TlsStream::write` gives up after five seconds. What the session has encrypted
by then goes out with the next write, and its bytes count as written of that
frame instead. -/
def Link.through (k : Link) (body : Bytes) (ok : Bool) : Bytes :=
  if k.isShut then []
  else if ok then (frame body).drop k.lost
  else ((frame body).drop k.lost).take k.passing

def Link.write (k : Link) (body : Bytes) (ok : Bool) : Link :=
  {k with
    sent := k.sent ++ k.through body ok
    lost := if ok then 0 else k.owed
    torn := k.torn || k.through body ok ≠ [] && k.through body ok ≠ frame body}

/-- The next step of a `close` in progress, or the first of a new one. -/
def Link.close (k : Link) : Link :=
  match k.life with
  | .alive => {k with life := .swapped}
  | .swapped => {k with life := .shut}
  | .shut => {k with life := .marked, responses := k.responses ++ [closeMarker]}
  | .marked => k

/-- What `read_link` does with a body. -/
def Link.hear (k : Link) (body : Bytes) : Link :=
  match decodeResponse body with
  | some response => {k with responses := k.responses ++ [response]}
  | none => k

/-- One round of `read_link`, once the bytes of a frame are there. -/
def Link.readLink (k : Link) : Option Link :=
  if k.reading then
    match readFrame maxBody k.received with
    | .incomplete => none
    | .refused _ => some {k with reading := false}
    | .message body rest => some ({k with received := rest}.hear body)
  else none

/-! ### Request workers -/

/-- Where `handle_cbor`, or `fan_out` called from it, is. -/
inductive Pc where
  | plan
  | consult
  | round
  | send (todo : List LinkId)
  | publish
  | check
  | sweep (rest : List LinkId) (heard : Bool)
  | beat
  | clear
  | withdraw (todo : List LinkId)
  | judge
  | verdict (payload : Bytes)
  | report (rest : List Bytes)
  | finish
  | done

structure Worker where
  channel : UInt32
  number : UInt32
  data : Bytes
  /-- `request.pending`, the links that a cancel withdraws the request from. -/
  published : List LinkId := []
  /-- Whether a thread in `cancel` holds the lock of `request.pending`. -/
  locked : Bool := false
  devices : List LinkId := []
  chosen : Option Text := none
  probe : Bool := false
  rounds : List (List LinkId) := []
  deadline : Nat := 0
  errors : List Bytes := []
  /-- The variables of `fan_out`. -/
  pending : List LinkId := []
  wins : List (LinkId × Bytes) := []
  failures : List Bytes := []
  done : Bool := false
  lastBeat : Int := 0
  pc : Pc := .plan

/-! ### Threads that read the uhid device -/

structure Partial where
  command : UInt8
  total : Nat
  data : Bytes
  nextSequence : UInt8

/-- Why `cancel` runs: a CTAPHID_CANCEL, a closed device, or an INIT whose
first packet is stored afterwards. -/
inductive Cause where
  | cancel
  | close
  | init (channel : UInt32) (p : Partial)

/-- Where a thread is in `packet`, `dispatch` or `cancel`. -/
inductive HidPc where
  | idle
  | reset (channel : UInt32) (p : Partial)
  | cancel (channel : Option UInt32) (cause : Cause)
  | lock (r : RequestId) (cause : Cause)
  | withdraw (r : RequestId) (todo : List LinkId) (cause : Cause)
  | busyCheck (channel : UInt32) (p : Partial)
  | insert (channel : UInt32) (p : Partial)
  | continuation (channel : UInt32) (sequence : UInt8) (payload : Bytes)
  | complete (channel : UInt32)
  | dispatch (channel : UInt32) (command : UInt8) (data : Bytes)
  | assign (data : Bytes)
  | number (channel : UInt32) (data : Bytes)
  | accept (channel : UInt32) (number : UInt32) (data : Bytes)
  | report (rest : List Bytes)

/-! ### What a step does to shared state -/

/-- A frame on a link, with the request it is about. -/
inductive Message where
  | req (r : RequestId) (number : UInt32) (data : Bytes)
  | cancel (r : RequestId) (number : UInt32)
  | ping

def Message.body : Message → Bytes
  | .req _ number data => request number data
  | .cancel _ number => withdrawal number
  | .ping => [PING]

inductive Act where
  | pass
  | setPartial (channel : UInt32) (p : Option Partial)
  /-- An INIT takes the busy slot from the request. -/
  | abandon (r : RequestId)
  /-- `cancel` locks the pending links of the request. -/
  | lock (r : RequestId) (cause : Cause)
  /-- `cancel` is done with the request and unlocks its pending links. -/
  | cancelled (r : RequestId) (cause : Cause)
  | takeChannel
  | takeNumber
  | accept (w : Worker)
  | report (bytes : Bytes)
  | write (m : Message) (l : LinkId) (ok : Bool)
  | take (r : RequestId) (l : LinkId) (response : UInt32 × Bytes)
  | record (device : Text) (holders : Option (List Text))
  /-- `request_is_current`, before the reply. -/
  | currency (r : RequestId) (current : Bool)
  | release (r : RequestId)

inductive Actor where
  | hid (t : ThreadId)
  | worker (r : RequestId)
  deriving DecidableEq

/-- A step that was taken, with the time it was taken at. -/
structure Entry where
  time : Nat
  actor : Actor
  act : Act

structure State where
  link : LinkId → Link := fun _ => {}
  /-- How many links have been created. -/
  created : Nat := 0
  /-- `Daemon::links`. -/
  links : List LinkId := []
  partials : UInt32 → Option Partial := fun _ => none
  busy : Option RequestId := none
  holders : List Text := []
  last : Option Text := none
  /-- The requests that `dispatch` accepted, in order. -/
  workers : List Worker := []
  nextRequest : UInt32 := 1
  nextChannel : UInt32 := 1
  /-- What `chosen_device` finds. -/
  chosen : Option Text := none
  /-- Milliseconds since the daemon started. -/
  now : Nat := 0
  hid : ThreadId → HidPc := fun _ => .idle
  log : List Entry := []

namespace State

def setLink (s : State) (l : LinkId) (k : Link) : State :=
  {s with link := Function.update s.link l k}

def setWorker (s : State) (r : RequestId) (w : Worker) : State :=
  {s with workers := s.workers.set r w}

def setHid (s : State) (t : ThreadId) (pc : HidPc) : State :=
  {s with hid := Function.update s.hid t pc}

/-- The pending links of a request are behind a lock of their own. -/
def setLocked (s : State) (r : RequestId) (locked : Bool) : State :=
  {s with workers := s.workers.modify r fun w => {w with locked := locked}}

def effect (s : State) : Act → State
  | .pass => s
  | .setPartial channel p => {s with partials := Function.update s.partials channel p}
  | .abandon _ => {s with busy := none}
  | .lock r _ => s.setLocked r true
  | .cancelled r _ => s.setLocked r false
  | .takeChannel => {s with nextChannel := s.nextChannel + 1}
  | .takeNumber => {s with nextRequest := s.nextRequest + 1}
  | .accept w => {s with busy := some s.workers.length, workers := s.workers ++ [w]}
  | .report _ => s
  | .write m l ok => s.setLink l ((s.link l).write m.body ok)
  | .take _ l _ => s.setLink l {s.link l with responses := (s.link l).responses.tail}
  | .currency .. => s
  | .record device holders => {s with last := some device, holders := holders.getD s.holders}
  | .release r => {s with busy := if s.busy = some r then none else s.busy}

def perform (s : State) (actor : Actor) (act : Act) : State :=
  {s.effect act with log := s.log ++ [⟨s.now, actor, act⟩]}

def liveLinks (s : State) : List LinkId :=
  s.links.filter fun l => (s.link l).alive

end State

/-- `retain(|link| seen.insert(link.device.clone()))`. -/
def firstOfDevice (device : LinkId → Text) : List Text → List LinkId → List LinkId
  | _, [] => []
  | seen, l :: rest =>
      if device l ∈ seen then firstOfDevice device seen rest
      else l :: firstOfDevice device (device l :: seen) rest

/-- One connection per device, USB before Wi-Fi before Bluetooth, then the
oldest. -/
def State.byDevice (s : State) : List LinkId :=
  firstOfDevice (fun l => (s.link l).device) []
    (s.liveLinks.insertionSort fun a b => (s.link a).priority ≤ (s.link b).priority)

/-- The rounds of `handle_cbor`. -/
def Worker.planRounds (w : Worker) (device : LinkId → Text) (holders : List Text)
    (last : Option Text) : List (List LinkId) :=
  let find (name : Text) := w.devices.find? fun l => device l = name
  match w.chosen with
  | some chosen => [(find chosen).toList]
  | none =>
      if w.data.head? = some GET_INFO then [w.devices.take 1]
      else if w.data.head? = some GET_NEXT_ASSERTION then [(last.bind find).toList]
      else if w.data.head? = some GET_ASSERTION && !w.probe &&
          w.devices.any (fun l => device l ∈ holders) then
        [w.devices.filter fun l => device l ∈ holders,
          w.devices.filter fun l => device l ∉ holders]
      else [w.devices]

/-- An error that ends the rounds and is preferred as the answer. -/
def isDecisive (error : Bytes) : Bool :=
  error.head? ≠ some NO_CREDENTIALS

def finalError (errors : List Bytes) : Bytes :=
  ((errors.find? isDecisive).or errors.head?).getD [CTAP2_ERR_OTHER]

end Passkey.Daemon

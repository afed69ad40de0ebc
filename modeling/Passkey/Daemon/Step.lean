import Passkey.Daemon.State
import Passkey.Library.Runs

/-!
The steps of the daemon: `packet`, `dispatch` and `cancel` on the threads that
read the uhid device, `handle_cbor` and `fan_out` on the request workers, and
what the links, the clock and the user do on their own. `cancel` also runs on
threads that found no live link; they count as readers here.
-/

namespace Passkey.Daemon

open Library

/-! ### Request workers -/

/-- One `try_recv` of `fan_out` on a link: whether it heard something, and the
variables after it. -/
def Worker.poll (w : Worker) (l : LinkId) (rest : List LinkId) (heard : Bool) :
    Option (UInt32 × Bytes) → Worker
  | none => {w with pc := .sweep rest heard}
  | some (number, payload) =>
      if number = 0 ∧ payload = [] then
        {w with
          pending := w.pending.filter (· ≠ l)
          failures := w.failures ++ [[CTAP2_ERR_OTHER]]
          pc := .sweep rest true}
      else if number ≠ w.number then {w with pc := .sweep rest true}
      else
        match payload with
        | [] =>
            {w with
              pending := w.pending.filter (· ≠ l)
              failures := w.failures ++ [[CTAP2_ERR_OTHER]]
              pc := .sweep rest true}
        | status :: _ =>
            if status = 0 then
              {w with
                pending := w.pending.filter (· ≠ l)
                wins := w.wins ++ [(l, payload)]
                done := !w.probe
                pc := .sweep (if w.probe then rest else []) true}
            else
              {w with
                pending := w.pending.filter (· ≠ l)
                failures := w.failures ++ [payload]
                done := status = OPERATION_DENIED && !w.probe
                pc := .sweep (if status = OPERATION_DENIED && !w.probe then [] else rest) true}

/-- After `fan_out`: a success is recorded and ends the rounds, and so does an
error other than a missing credential. -/
def Worker.judge (w : Worker) (device : LinkId → Text) : Worker × Act :=
  match w.wins with
  | (winner, payload) :: _ =>
      ({w with pc := .verdict payload},
        if w.data.head? = some GET_ASSERTION then
          .record (device winner)
            (if w.probe then some (w.wins.map fun win => device win.1) else none)
        else .pass)
  | [] =>
      let errors := w.errors ++ w.failures
      if w.failures.any isDecisive then
        ({w with errors := errors, pc := .verdict (finalError errors)}, .pass)
      else ({w with errors := errors, pc := .round}, .pass)

/-- One step of the worker of request `r`. `ok` is the outcome of a write. -/
def Worker.turn (s : State) (r : RequestId) (ok : Bool) (w : Worker) : Option (Worker × Act) :=
  match w.pc with
  | .plan =>
      some ({w with
        devices := s.byDevice
        chosen := s.chosen
        probe := silent w.data
        pc := .consult}, .pass)
  | .consult =>
      some ({w with
        rounds := w.planRounds (fun l => (s.link l).device) s.holders s.last
        deadline := s.now + 600000
        pc := .round}, .pass)
  | .round =>
      match w.rounds with
      | [] => some ({w with pc := .verdict (finalError w.errors)}, .pass)
      | [] :: rest => some ({w with rounds := rest}, .pass)
      | targets :: rest =>
          some ({w with
            rounds := rest
            pending := []
            wins := []
            failures := []
            pc := .send targets}, .pass)
  | .send [] => some ({w with pc := .publish}, .pass)
  | .send (l :: rest) =>
      if ok && (s.link l).isShut then none
      else
        some ({w with
          pending := if ok then w.pending ++ [l] else w.pending
          pc := .send rest}, .write (.req r w.number w.data) l ok)
  | .publish =>
      if w.locked then none
      else
        some ({w with
          published := w.pending
          done := false
          lastBeat := s.now - 1000
          pc := .check}, .pass)
  | .check =>
      if w.pending ≠ [] && !w.done && s.now < w.deadline && s.busy = some r then
        some ({w with pc := .sweep w.pending false}, .pass)
      else some ({w with pc := .clear}, .pass)
  | .sweep [] heard => some ({w with pc := if heard then .check else .beat}, .pass)
  | .sweep (l :: rest) heard =>
      match (s.link l).responses with
      | [] => some (w.poll l rest heard none, .pass)
      | response :: _ => some (w.poll l rest heard (some response), .take r l response)
  | .beat =>
      if (s.now : Int) - w.lastBeat ≥ 100 then
        some ({w with lastBeat := s.now, pc := .check},
          .report (sendReport (channelBytes w.channel ++ [KEEPALIVE, 0, 1, 2])))
      else some ({w with pc := .check}, .pass)
  | .clear =>
      if w.locked then none
      else some ({w with published := [], pc := .withdraw w.pending}, .pass)
  | .withdraw [] => some ({w with pc := .judge}, .pass)
  | .withdraw (l :: rest) =>
      if ok && (s.link l).isShut then none
      else some ({w with pc := .withdraw rest}, .write (.cancel r w.number) l ok)
  | .judge => some (w.judge fun l => (s.link l).device)
  | .verdict payload =>
      if s.busy = some r then
        some ({w with pc := .report (reply w.channel CBOR payload)}, .currency r true)
      else some ({w with pc := .finish}, .currency r false)
  | .report [] => some ({w with pc := .finish}, .pass)
  | .report (report :: rest) => some ({w with pc := .report rest}, .report report)
  | .finish => some ({w with pc := .done}, .release r)
  | .done => none

/-- `reply(channel, KEEPALIVE, &[2])` is one report. -/
theorem reply_keepalive (channel : UInt32) : reply channel KEEPALIVE [2] =
    [sendReport (channelBytes channel ++ [KEEPALIVE, 0, 1, 2])] := by
  simp [reply, continuations, bigEndian]

/-! ### Threads that read the uhid device -/

/-- A thread that has nothing left to write is done with its packet. -/
def HidPc.reporting : List Bytes → HidPc
  | [] => .idle
  | reports => .report reports

/-- An initialization packet: bit 7 of the command is set. -/
def initPacket (channel : UInt32) (command : UInt8) (total : Nat) (body : Bytes) : HidPc :=
  if total > 7609 then .report (error channel ERR_INVALID_LEN)
  else if command = CANCEL_CMD then .cancel (some channel) .cancel
  else if command = INIT then .reset channel ⟨command, total, body.take total, 0⟩
  else .busyCheck channel ⟨command, total, body.take total, 0⟩

/-- `packet`, up to the first lock. -/
def packet : Bytes → HidPc
  | c0 :: c1 :: c2 :: c3 :: byte :: rest =>
      if byte &&& 0x80 ≠ 0 then
        match rest with
        | hi :: lo :: body =>
            initPacket (UInt32.ofNat (ofBigEndian [c0, c1, c2, c3])) byte (ofBigEndian [hi, lo])
              body
        | _ => .idle
      else .continuation (UInt32.ofNat (ofBigEndian [c0, c1, c2, c3])) byte rest
  | _ => .idle

/-- The reply to an INIT. -/
def initReply (channel : UInt32) (nonce : Bytes) (assigned : UInt32) : List Bytes :=
  reply channel INIT (nonce ++ channelBytes assigned ++ [2, 1, 0, 0, 0x0d])

/-- `dispatch`, up to the first lock of the request path. -/
def State.dispatch (s : State) (channel : UInt32) (command : UInt8) (data : Bytes) : HidPc :=
  if command = INIT then
    if data.length ≠ 8 then .report (error channel ERR_INVALID_LEN)
    else if channel = BROADCAST then .assign data
    else .report (initReply channel data channel)
  else if channel = 0 || channel = BROADCAST then .report (error channel ERR_INVALID_CHANNEL)
  else if command = PING_CMD then .report (reply channel PING_CMD data)
  else if command = WINK then .report (reply channel WINK [])
  else if command ≠ CBOR then .report (error channel ERR_INVALID_CMD)
  else if data = [] || s.liveLinks = [] then .report (reply channel CBOR [CTAP2_ERR_OTHER])
  else .number channel data

def Cause.next : Cause → HidPc
  | .init channel p => .insert channel p
  | _ => .idle

/-- `cancel` with `abandon` set. -/
def Cause.abandons : Cause → Bool
  | .init .. => true
  | _ => false

/-- The part of `cancel` under the lock of the busy slot. -/
def State.beginCancel (s : State) (channel : Option UInt32) (cause : Cause) : HidPc × Act :=
  match s.busy with
  | none => (cause.next, .pass)
  | some r =>
      match s.workers[r]? with
      | none => (cause.next, .pass)
      | some w =>
          (if channel = none || channel = some w.channel then .lock r cause else cause.next,
            if cause.abandons && channel = some w.channel then .abandon r else .pass)

/-- Whether the busy request is on another channel. -/
def State.busyElsewhere (s : State) (channel : UInt32) : Bool :=
  (s.busy.bind fun r => s.workers[r]?).any fun w => w.channel ≠ channel

/-- One step of a thread that reads the device. `ok` is the outcome of a write. -/
def HidPc.turn (s : State) (ok : Bool) : HidPc → Option (HidPc × Act)
  | .idle => none
  | .reset channel p => some (.cancel (some channel) (.init channel p), .setPartial channel none)
  | .cancel channel cause => some (s.beginCancel channel cause)
  | .lock r cause =>
      match s.workers[r]? with
      | none => none
      | some w => if w.locked then none else some (.withdraw r w.published cause, .lock r cause)
  | .withdraw r [] cause => some (cause.next, .cancelled r cause)
  | .withdraw r (l :: rest) cause =>
      match s.workers[r]? with
      | none => none
      | some w =>
          if ok && (s.link l).isShut then none
          else some (.withdraw r rest cause, .write (.cancel r w.number) l ok)
  | .busyCheck channel p =>
      if s.busyElsewhere channel then some (.report (error channel ERR_CHANNEL_BUSY), .pass)
      else some (.insert channel p, .pass)
  | .insert channel p => some (.complete channel, .setPartial channel (some p))
  | .continuation channel sequence payload =>
      match s.partials channel with
      | none => some (.idle, .pass)
      | some p =>
          if sequence ≠ p.nextSequence then
            some (.report (error channel ERR_INVALID_SEQ), .setPartial channel none)
          else
            some (.complete channel, .setPartial channel (some {p with
              data := p.data ++ payload.take (p.total - p.data.length)
              nextSequence := p.nextSequence + 1}))
  | .complete channel =>
      match s.partials channel with
      | none => some (.idle, .pass)
      | some p =>
          if p.data.length ≥ p.total then
            some (.dispatch channel p.command p.data, .setPartial channel none)
          else some (.idle, .pass)
  | .dispatch channel command data => some (s.dispatch channel command data, .pass)
  | .assign data =>
      if s.nextChannel ≠ 0 && s.nextChannel ≠ BROADCAST then
        some (.report (initReply BROADCAST data s.nextChannel), .takeChannel)
      else some (.assign data, .takeChannel)
  | .number channel data => some (.accept channel s.nextRequest data, .takeNumber)
  | .accept channel n data =>
      match s.busy with
      | some _ => some (.report (error channel ERR_CHANNEL_BUSY), .pass)
      | none => some (.idle, .accept {channel := channel, number := n, data := data})
  | .report [] => some (.idle, .pass)
  | .report (first :: rest) => some (.reporting rest, .report first)

/-! ### The system -/

inductive Event where
  /-- A reader gets a report from the device. -/
  | packet (t : ThreadId) (bytes : Bytes)
  /-- A reader gets UHID_CLOSE, or `sync_uhid` finds no live link. -/
  | uhidClose (t : ThreadId)
  | hid (t : ThreadId) (ok : Bool)
  | worker (r : RequestId) (ok : Bool)
  | ping (l : LinkId) (ok : Bool)
  /-- What becomes of the next frame whose write fails. -/
  | stall (l : LinkId) (passing owed : Nat)
  | connect (device : Text) (priority : UInt8)
  | close (l : LinkId)
  | remove (l : LinkId)
  | receive (l : LinkId) (bytes : Bytes)
  | readLink (l : LinkId)
  | endRead (l : LinkId)
  | choose (device : Option Text)
  | tick (ms : Nat)

def State.isIdle (s : State) (t : ThreadId) : Bool :=
  match s.hid t with
  | .idle => true
  | _ => false

def next : Next State Event := fun s e =>
  match e with
  | .packet t bytes => if s.isIdle t then some (s.setHid t (packet bytes)) else none
  | .uhidClose t => if s.isIdle t then some (s.setHid t (.cancel none .close)) else none
  | .hid t ok =>
      ((s.hid t).turn s ok).map fun (pc, act) => (s.perform (.hid t) act).setHid t pc
  | .worker r ok =>
      (s.workers[r]?.bind (Worker.turn s r ok)).map fun (w, act) =>
        (s.perform (.worker r) act).setWorker r w
  | .ping l ok =>
      if s.created ≤ l || ok && (s.link l).isShut then none
      else some (s.setLink l ((s.link l).write [PING] ok))
  | .stall l passing owed =>
      if l < s.created then some (s.setLink l {s.link l with passing, owed}) else none
  | .connect device priority =>
      some {s.setLink s.created {s.link s.created with device, priority} with
        created := s.created + 1
        links := s.links ++ [s.created]}
  | .close l => if l < s.created then some (s.setLink l (s.link l).close) else none
  | .remove l =>
      if (s.link l).alive || (s.link l).reading then none
      else some {s with links := s.links.filter (· ≠ l)}
  | .receive l bytes =>
      if l < s.created then
        some (s.setLink l {s.link l with received := (s.link l).received ++ bytes})
      else none
  | .readLink l => if l < s.created then (s.link l).readLink.map (s.setLink l) else none
  | .endRead l =>
      if l < s.created then some (s.setLink l {s.link l with reading := false}) else none
  | .choose device => some {s with chosen := device}
  | .tick ms => some {s with now := s.now + ms}

/-- The daemon as `Daemon::new` makes it, with the process id it starts
counting channels from. -/
def start (pid : UInt32) : State :=
  {nextChannel := max pid 1}

end Passkey.Daemon

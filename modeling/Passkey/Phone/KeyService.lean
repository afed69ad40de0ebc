import Passkey.Library.Framing
import Passkey.Phone.Calls

/-!
The service that talks to the computers: for each connection a reader and a
worker thread, one authenticator behind its monitor, and one prompt at a time
whose fields they share with the activities that show it. A step is a section
under the lock of the prompt, a frame read or written, or a thread's way from
one of these to the next. `Flags.AUTO_APPROVE` is false.
-/

namespace Passkey.Phone.KeyService

open Library

/-! ### Frames -/

abbrev REQ : UInt8 := 0x10
abbrev CANCEL : UInt8 := 0x11
abbrev PING : UInt8 := 0x12
abbrev RESP : UInt8 := 0x20
abbrev PONG : UInt8 := 0x22

/-- The largest body that `serve` accepts. -/
def maxBody : Nat := 8192

/-- `ByteBuffer.getInt`, of four bytes. -/
def getInt (bytes : Bytes) : Int32 :=
  (UInt32.ofNat (ofBigEndian bytes)).toInt32

inductive Message where
  | ping
  | cancel (seq : Int32)
  | req (seqNo req : Bytes)
  | unknown

def parse : Bytes → Message
  | [] => .unknown
  | type :: rest =>
      if type = PING then .ping
      else if type = CANCEL && 4 ≤ rest.length then .cancel (getInt (rest.take 4))
      else if type = REQ && 4 ≤ rest.length then .req (rest.take 4) (rest.drop 4)
      else .unknown

def response (seqNo r : Bytes) : Bytes :=
  RESP :: seqNo ++ r

/-! ### Connections -/

abbrev ActivityId := Nat

/-- A request for the worker, with its place among those of its connection. -/
structure Task where
  place : Nat
  seqNo : Bytes
  req : Bytes
  deriving DecidableEq

def Task.reqSeq (t : Task) : Int32 :=
  getInt t.seqNo

/-- Where a worker is: waiting for the monitor, in `handle` before it calls
`confirm` (a call does so once at most), between the two locked sections of
`confirm`, at its wait, in `handle` after it, or about to send the reply. -/
inductive Worker where
  | idle
  | entering (t : Task)
  | command (t : Task)
  | opened (t : Task) (id : Int)
  | waiting (t : Task) (id : Int) (deadline : Int)
  | answered (t : Task) (status : Int)
  | replying (t : Task) (r : Bytes)

/-- Where `serve` is: in its loop, or before a step of its `finally` block. -/
inductive Reader where
  | reading
  | closing
  | stopping
  | ended
  deriving DecidableEq

structure Conn where
  /-- The request number that the computer withdrew last. -/
  cancelled : Int32 := Int32.minValue
  closed : Bool := false
  reader : Reader := .reading
  /-- Bytes that arrived and `serve` has not taken yet. -/
  received : Bytes := []
  /-- How many requests were read. -/
  requests : Nat := 0
  queue : List Task := []
  worker : Worker := .idle
  /-- The frames written, up to the first whose write failed; of that one a
  part may get through. Writes of the phone wait without a limit and fail only
  once the connection is gone, so nothing gets through after a failed one. -/
  sent : Bytes := []
  /-- Whether a write ended with an error. -/
  broken : Bool := false

def Conn.write (k : Conn) (body : Bytes) (ok : Bool) : Conn :=
  if k.broken then k else {k with sent := k.sent ++ frame body, broken := !ok}

/-! ### The prompt -/

/-- Prompt ids count up from 1 and never come near 64 bits; -1 is none. -/
structure Prompt where
  seq : Int := 0
  current : Int := -1
  owner : Option Owner := none
  ownerSeq : Int32 := 0
  result : Int := 0
  shown : Option ActivityId := none

def Prompt.attach (p : Prompt) (id : Int) (a : ActivityId) : Prompt :=
  if id ≠ p.current then p else {p with shown := some a}

def Prompt.detach (p : Prompt) (id : Int) (a : ActivityId) : Prompt :=
  if id = p.current && p.shown = some a then {p with shown := none} else p

/-- Whether `cancel` ends the prompt. -/
def Prompt.concerns (p : Prompt) (c : Owner) (seq : Int32) (closed : Bool) : Bool :=
  0 ≤ p.current && p.owner = some c && (closed || p.ownerSeq = seq)

def Prompt.cancel (p : Prompt) (c : Owner) (seq : Int32) (closed : Bool) : Prompt :=
  if p.concerns c seq closed then {p with result := Status.keepaliveCancel, current := -1} else p

/-- `confirm` opens a prompt. -/
def Prompt.opening (p : Prompt) (c : Owner) (reqSeq : Int32) : Prompt where
  seq := p.seq + 1
  current := p.seq + 1
  owner := some c
  ownerSeq := reqSeq
  result := Status.userActionTimeout

/-- `confirm` is done with a prompt. -/
def Prompt.close (p : Prompt) (id : Int) : Prompt :=
  {p with current := if p.current = id then -1 else p.current, owner := none, shown := none}

/-- A `PromptActivity`; one that reported does so no more. -/
structure Activity where
  id : Int
  reported : Bool := false

/-! ### The service -/

/-- What happened, for the properties to speak of. An answer is noted where it
took effect. -/
inductive Entry where
  | request (c : Owner) (t : Task)
  | cancel (c : Owner) (seq : Int32) (closed : Bool)
  /-- `confirm` returned without opening a prompt. -/
  | refused (c : Owner) (t : Task)
  | opened (c : Owner) (t : Task) (id : Int)
  | answered (id : Int) (status : Int)
  | returned (c : Owner) (t : Task) (id : Int) (status : Int) (timedOut : Bool)
  | handled (c : Owner) (t : Task) (r : Bytes)
  deriving DecidableEq

structure State where
  conn : Owner → Conn := fun _ => {}
  prompt : Prompt := {}
  /-- The connection whose worker is in `handle`. -/
  monitor : Option Owner := none
  session : Session
  activities : List Activity := []
  /-- `abort` calls on their way to the thread of the activities. -/
  posted : List ActivityId := []
  /-- `System.currentTimeMillis()`. -/
  now : Int := 0
  log : List Entry := []

def PROMPT_TIMEOUT_MS : Int := 10 * 60000

namespace State

def setConn (s : State) (c : Owner) (k : Conn) : State :=
  {s with conn := Function.update s.conn c k}

def setWorker (s : State) (c : Owner) (w : Worker) : State :=
  s.setConn c {s.conn c with worker := w}

def note (s : State) (e : Entry) : State :=
  {s with log := s.log ++ [e]}

def answer (s : State) (id : Int) (status : Int) : State :=
  if id ≠ s.prompt.current then s
  else {s with prompt := {s.prompt with result := status, current := -1}}.note
    (.answered id status)

def cancel (s : State) (c : Owner) (seq : Int32) (closed : Bool) : State :=
  {s.setConn c {s.conn c with cancelled := seq, closed := (s.conn c).closed || closed} with
    prompt := s.prompt.cancel c seq closed
    posted := s.posted ++
      if s.prompt.concerns c seq closed then s.prompt.shown.toList else []}.note
    (.cancel c seq closed)

/-! `serve` -/

/-- `worker.execute`. -/
def enqueue (s : State) (c : Owner) (t : Task) : State :=
  (s.setConn c {s.conn c with
    requests := (s.conn c).requests + 1
    queue := (s.conn c).queue ++ [t]}).note (.request c t)

def read (s : State) (c : Owner) (ok : Bool) : Message → State
  | .ping => s.setConn c {(s.conn c).write [PONG] ok with
      reader := if ok then .reading else .closing}
  | .cancel seq => s.cancel c seq false
  | .req seqNo req => s.enqueue c ⟨(s.conn c).requests, seqNo, req⟩
  | .unknown => s

/-- One round of the loop, once the bytes of a frame are there. -/
def serve (s : State) (c : Owner) (ok : Bool) : Option State :=
  if (s.conn c).reader = .reading then
    match readFrame maxBody (s.conn c).received with
    | .incomplete => none
    | .refused _ => some (s.setConn c {s.conn c with reader := .closing})
    | .message body rest =>
        some ((s.setConn c {s.conn c with received := rest}).read c ok (parse body))
  else none

/-- One step of the `finally` block. `shutdownNow` drops the queue. -/
def finallyStep (s : State) (c : Owner) : Option State :=
  match (s.conn c).reader with
  | .closing =>
      some ((s.setConn c {s.conn c with reader := .stopping}).cancel c 0 true)
  | .stopping => some (s.setConn c {s.conn c with reader := .ended, queue := []})
  | _ => none

/-! The worker -/

def execute (s : State) (c : Owner) : Option State :=
  match (s.conn c).worker, (s.conn c).queue with
  | .idle, t :: rest => some (s.setConn c {s.conn c with queue := rest, worker := .entering t})
  | _, _ => none

def enter (s : State) (c : Owner) : Option State :=
  match (s.conn c).worker, s.monitor with
  | .entering t, none => some {s.setWorker c (.command t) with monitor := some c}
  | _, _ => none

def openPrompt (s : State) (c : Owner) (t : Task) : State :=
  {s.setWorker c (.opened t (s.prompt.seq + 1)) with
    prompt := s.prompt.opening c t.reqSeq}.note (.opened c t (s.prompt.seq + 1))

/-- `confirm` returns the result of its prompt, which timed out if it is still
the current one. -/
def closePrompt (s : State) (c : Owner) (t : Task) (id : Int) : State :=
  {s.setWorker c (.answered t s.prompt.result) with
    prompt := s.prompt.close id
    posted := s.posted ++ if s.prompt.current = id then s.prompt.shown.toList else []}.note
    (.returned c t id s.prompt.result (s.prompt.current = id))

/-- The first locked section of `confirm`. -/
def confirm (s : State) (c : Owner) : Option State :=
  match (s.conn c).worker with
  | .command t =>
      if (s.conn c).closed || (s.conn c).cancelled = t.reqSeq then
        some ((s.setWorker c (.answered t Status.keepaliveCancel)).note (.refused c t))
      else some (s.openPrompt c t)
  | _ => none

/-- One turn of the loop around `wait`, and what follows it in the section. An
interrupt ends the loop. -/
def wake (s : State) (c : Owner) (t : Task) (id : Int) (deadline : Int)
    (interrupted : Bool) : State :=
  if s.prompt.current = id && s.now < deadline && !interrupted then
    s.setWorker c (.waiting t id deadline)
  else s.closePrompt c t id

/-- The second locked section of `confirm`, from one wait to the next. -/
def awaitAnswer (s : State) (c : Owner) (interrupted : Bool) : Option State :=
  match (s.conn c).worker with
  | .opened t id => some (s.wake c t id (s.now + PROMPT_TIMEOUT_MS) interrupted)
  | .waiting t id deadline => some (s.wake c t id deadline interrupted)
  | _ => none

def call (c : Owner) (t : Task) (env : Env) : Call :=
  ⟨env, t.req, c⟩

/-- `handle` returns and leaves the monitor. -/
def leave (s : State) (c : Owner) (t : Task) (env : Env) (result : Outcome × Authenticator) :
    State :=
  {s.setWorker c (.replying t result.1.reply.bytes) with
    monitor := none
    session := ⟨result.2, s.session.history ++ [(call c t env, result.1)]⟩}.note
    (.handled c t result.1.reply.bytes)

end State

/-- Whether the call of `handle` called `confirm`. -/
def asked (o : Outcome) : Bool :=
  o.effects.any fun
    | .confirm .. => true
    | _ => false

namespace State

/-- What remains of `handle` once `confirm` has returned, if it is called. -/
def finish (sha : Sha256) (s : State) (c : Owner) (env : Env) : Option State :=
  match (s.conn c).worker with
  | .command t =>
      if asked (handle sha env t.req c s.session.authenticator).1 then none
      else some (s.leave c t env (handle sha env t.req c s.session.authenticator))
  | .answered t status =>
      if env.decision = status && asked (handle sha env t.req c s.session.authenticator).1 then
        some (s.leave c t env (handle sha env t.req c s.session.authenticator))
      else none
  | _ => none

/-- The reply is an array of bytes, of less than 2 GiB. -/
def reply (s : State) (c : Owner) (ok : Bool) : Option State :=
  match (s.conn c).worker with
  | .replying t r =>
      if 2 ^ 31 ≤ r.length + 5 || ok && (s.conn c).reader = .ended then none
      else some (s.setConn c {(s.conn c).write (response t.seqNo r) ok with worker := .idle})
  | _ => none

/-! Activities. `confirm` is where their prompt ids come from. -/

def handedOut (s : State) (id : Int) : Bool :=
  1 ≤ id && id ≤ s.prompt.seq

def setReported (s : State) (a : ActivityId) : State :=
  {s with activities := s.activities.modify a fun activity => {activity with reported := true}}

def create (s : State) (id : Int) : Option State :=
  if s.handedOut id then
    some {s with
      activities := s.activities ++ [{id}]
      prompt := s.prompt.attach id s.activities.length}
  else none

def report (s : State) (a : ActivityId) (status : Int) : Option State :=
  match s.activities[a]? with
  | some activity =>
      if activity.reported then none else some ((s.setReported a).answer activity.id status)
  | none => none

def abort (s : State) (a : ActivityId) : Option State :=
  if a ∈ s.posted then some {s.setReported a with posted := s.posted.erase a} else none

def destroy (s : State) (a : ActivityId) : Option State :=
  match s.activities[a]? with
  | some activity =>
      if activity.reported then some s
      else some {s with prompt := s.prompt.detach activity.id a}
  | none => none

end State

inductive Event where
  | receive (c : Owner) (bytes : Bytes)
  | serve (c : Owner) (ok : Bool)
  /-- A read fails, or the service stops. -/
  | endServe (c : Owner)
  | finallyStep (c : Owner)
  | execute (c : Owner)
  | enter (c : Owner)
  | confirm (c : Owner)
  | awaitAnswer (c : Owner) (interrupted : Bool)
  | finish (c : Owner) (env : Env)
  | reply (c : Owner) (ok : Bool)
  | create (id : Int)
  | approve (a : ActivityId)
  | deny (a : ActivityId)
  | abort (a : ActivityId)
  | destroy (a : ActivityId)
  | reject (id : Int)
  | clock (now : Int)

def next (sha : Sha256) : Next State Event := fun s e =>
  match e with
  | .receive c bytes =>
      some (s.setConn c {s.conn c with received := (s.conn c).received ++ bytes})
  | .serve c ok => s.serve c ok
  | .endServe c =>
      if (s.conn c).reader = .reading then some (s.setConn c {s.conn c with reader := .closing})
      else none
  | .finallyStep c => s.finallyStep c
  | .execute c => s.execute c
  | .enter c => s.enter c
  | .confirm c => s.confirm c
  | .awaitAnswer c interrupted => s.awaitAnswer c interrupted
  | .finish c env => s.finish sha c env
  | .reply c ok => s.reply c ok
  | .create id => s.create id
  | .approve a => s.report a Status.ok
  | .deny a => s.report a Status.operationDenied
  | .abort a => s.abort a
  | .destroy a => s.destroy a
  | .reject id => if s.handedOut id then some (s.answer id Status.operationDenied) else none
  | .clock now => some {s with now := now}

/-- The service as it is created, over the credentials that exist. -/
def start (store : Store) (keys : List Bytes) : State where
  session := ⟨.fresh store keys, []⟩

end Passkey.Phone.KeyService

import Passkey.Library.Runs
import Passkey.Text

/-!
The PAM module's `authenticate`. It prompts for a password on one thread while
its own loop polls a helper process that asks the phone. The kernel, the
helpers, the prompt thread and the clock are the other parties: each of their
steps, and each pass of the loop through a part of its body, is one event.
-/

namespace Passkey.Pam

open Library

abbrev pamSuccess : Int := 0
abbrev pamIgnore : Int := 25
abbrev pamConvErr : Int := 19
abbrev maxArgs : Nat := 32

/-- The build sets another path with `PASSKEY_BIN`. -/
def helperPath : Text := "/usr/bin/passkey".toList

/-- Milliseconds. -/
abbrev askParallel : Nat := 600000
abbrev askOnEmpty : Nat := 45000

/-- The byte `b'y'`. -/
abbrev yes : UInt8 := 121

structure Options where
  onEmpty : Bool := false
  helper : Text := helperPath
  authfile : Option Text := none
  options : List Text := []

/-- One pass of the loop over `argv`. -/
def readArg (o : Options) (value : Text) : Options :=
  if value = "mode=on-empty".toList then {o with onEmpty := true}
  else if value = "mode=parallel".toList then o
  else match value.dropPrefix? "helper=".toList with
    | some path => {o with helper := path}
    | none => match value.dropPrefix? "authfile=".toList with
      | some path => {o with authfile := some path, options := o.options ++ [value]}
      | none => {o with options := o.options ++ [value]}

def readArgs (argv : List Text) : Options :=
  (argv.take maxArgs).foldl readArg {}

/-- `device/uevent` of each entry of `/sys/class/hidraw`, where readable. -/
def devicePresent (uevents : Option (List (Option Text))) : Bool :=
  match uevents with
  | none => false
  | some entries => entries.any fun
      | some text => (Text.lines text).any (· == "HID_ID=0003:00001209:00007AB1".toList)
      | none => false

def userRegistered (authfile : Option Text) (user : Text) : Bool :=
  match authfile with
  | none => false
  | some text => (Text.lines text).any fun line =>
      match line.dropPrefix? user with
      | some (':' :: credentials) => !credentials.isEmpty
      | _ => false

/-- What `pam_prompt` left: its status, and the answer unless it is null. -/
structure PromptResult where
  status : Int
  answer : Option Bytes
  deriving DecidableEq

/-- The result pipe of a helper: what it wrote that nobody read yet, and
whether every write end is closed. -/
structure Pipe where
  unread : Bytes := []
  closed : Bool := false
  deriving DecidableEq

/-- The running helper, by its number in this call, and its deadline. -/
structure Ask where
  helper : Nat
  deadline : Nat
  deriving DecidableEq

/-- What the call does and sees, in order. -/
inductive Seen where
  | started (helper : Nat)
  | wrote (helper : Nat) (byte : UInt8)
  | read (helper : Nat) (byte : UInt8)
  | prompted (result : PromptResult)
  /-- The loop took the prompt's message. -/
  | received (result : PromptResult)
  | setItem (answer : Bytes) (status result : Int)
  | wiped (answer : Bytes)
  deriving DecidableEq

inductive Pc where
  /-- Start of the loop body: `receiver.try_recv()`. -/
  | receive
  /-- The second half of the body: `active.answer()`. -/
  | poll
  /-- Approved while prompting: `receiver.recv_timeout`. -/
  | settle
  /-- After the loop, before the locals are dropped. -/
  | leave
  | returned (code : Int)
  deriving DecidableEq

structure State where
  onEmpty : Bool
  ask : Option Ask
  tries : Nat
  prompting : Bool
  /-- The message in the `mpsc` channel. -/
  channel : Option PromptResult
  /-- The prompt thread has not sent its message yet. -/
  prompter : Bool
  result : Int
  pc : Pc
  pipes : List Pipe
  seen : List Seen
  deriving DecidableEq

def State.note (s : State) (what : List Seen) : State :=
  {s with seen := s.seen ++ what}

def State.timeout (s : State) : Nat :=
  if s.onEmpty then askOnEmpty else askParallel

/-- `Ask::start`, which the system may refuse; `ask` is left empty then. -/
def State.startAsk (s : State) (ok : Bool) (now : Nat) : State :=
  if ok then
    {s.note [.started s.pipes.length] with
      ask := some ⟨s.pipes.length, now + s.timeout⟩
      tries := s.tries + 1
      pipes := s.pipes ++ [{}]}
  else {s with ask := none}

/-- `wipe`: a null pointer is left alone. -/
def State.wipe (s : State) : Option Bytes → State
  | none => s
  | some answer => s.note [.wiped answer]

/-- Everything the call reads before its loop starts. -/
structure Call where
  handleNull : Bool
  argc : Int
  argvNull : Bool
  argv : List Text
  /-- `pam_get_user`: its status, and the user unless the pointer is null. -/
  getUser : Int × Option Text
  uevents : Option (List (Option Text))
  readToString : Text → Option Text
  isExecutable : Text → Bool

/-- What the system answers to the steps that the call takes before its loop:
whether the helper starts, the clock, and in on-empty mode the prompt. -/
structure Entry where
  started : Bool
  now : Nat
  prompted : PromptResult

/-- The checks that make the module step aside with `PAM_IGNORE`. -/
def Call.proceed (call : Call) : Option Options :=
  if call.handleNull || call.argc < 0 || (call.argc > 0 && call.argvNull) then none
  else
    let o := readArgs (call.argv.take call.argc.toNat)
    match o.authfile, call.getUser with
    | none, _ => none
    | some _, (_, none) => none
    | some authfile, (status, some user) =>
        if status ≠ pamSuccess then none
        else if !devicePresent call.uevents
            || !userRegistered (call.readToString authfile) user
            || !call.isExecutable o.helper then none
        else some o

def State.idle (onEmpty : Bool) : State where
  onEmpty := onEmpty
  ask := none
  tries := 0
  prompting := true
  channel := none
  prompter := true
  result := pamIgnore
  pc := .receive
  pipes := []
  seen := []

/-- The state at the head of the loop, or the early return. Only the parallel
mode starts a helper here; the on-empty mode prompts on this thread first. -/
def authenticate (call : Call) (entry : Entry) : State :=
  match call.proceed with
  | none => {State.idle false with pc := .returned pamIgnore, prompter := false}
  | some o =>
      if o.onEmpty then
        {(State.idle true).note [.prompted entry.prompted] with
          channel := some entry.prompted
          prompter := false}
      else (State.idle false).startAsk entry.started entry.now

/-- How the kernel answers `poll` and `read` on the result pipe. -/
inductive Poll where
  | notReady
  | ready
  | failed
  deriving DecidableEq

/-- `Ask::answer`. A ready pipe holds a byte or has lost its writers; reading
the end of the file is an answer that is not `y`. The byte read comes along. -/
def Pipe.answer (p : Pipe) : Poll → Option (Except Unit (Option Bool) × Option UInt8 × Pipe)
  | .notReady => some (.ok none, none, p)
  | .failed => some (.error (), none, p)
  | .ready => match p.unread with
    | byte :: rest => some (.ok (some (byte == yes)), some byte, {p with unread := rest})
    | [] => if p.closed then some (.ok (some false), none, p) else none

inductive Event where
  | promptReturns (result : PromptResult)
  | helperWrites (helper : Nat) (byte : UInt8)
  | helperCloses (helper : Nat)
  /-- The status of `pam_set_item`, whether a new helper starts, the clock. -/
  | receive (setItem : Int) (started : Bool) (now : Nat)
  | poll (answer : Poll) (now : Nat)
  | settle
  | leave
  deriving DecidableEq

def State.send (s : State) (r : PromptResult) : State :=
  {s.note [.prompted r] with prompter := false}

/-- The message of the prompt thread. Once the receiver is dropped the send
fails and the thread wipes the answer itself. -/
def State.promptReturns (s : State) (r : PromptResult) : Option State :=
  if !s.prompter then none
  else match s.pc with
    | .returned _ => some ((s.send r).wipe r.answer)
    | _ => some {s.send r with channel := some r}

def State.helperWrites (s : State) (helper : Nat) (byte : UInt8) : Option State :=
  (s.pipes[helper]?).bind fun pipe =>
    if pipe.closed then none
    else some {s.note [.wrote helper byte] with
      pipes := s.pipes.set helper {pipe with unread := pipe.unread ++ [byte]}}

def State.helperCloses (s : State) (helper : Nat) : Option State :=
  (s.pipes[helper]?).map fun pipe =>
    {s with pipes := s.pipes.set helper {pipe with closed := true}}

def State.take (s : State) (r : PromptResult) : State :=
  {s.note [.received r] with prompting := false, channel := none}

/-- The prompt failed, or succeeded without an answer. -/
def State.promptFailed (s : State) (r : PromptResult) : State :=
  {s.wipe r.answer with
    result := if r.status = pamSuccess then pamConvErr else r.status
    pc := .leave}

/-- A typed password is handed to the modules after this one. -/
def State.storePassword (s : State) (answer : Bytes) (status : Int) : State :=
  {(s.note [.setItem answer status s.result]).wipe (some answer) with
    result := if status = pamSuccess then pamIgnore else status
    pc := .leave}

/-- Enter alone: ask the device, again at most until the third time. -/
def State.emptyAnswer (s : State) (started : Bool) (now : Nat) : State :=
  if s.ask.isNone && s.tries < 3 then s.startAsk started now else s

/-- The first half of the loop body. -/
def State.receive (s : State) (setItem : Int) (started : Bool) (now : Nat) : State :=
  match s.prompting, s.channel with
  | true, some r => match r.answer with
    | none => (s.take r).promptFailed r
    | some answer =>
        if r.status ≠ pamSuccess then (s.take r).promptFailed r
        else if answer ≠ [] then (s.take r).storePassword answer setItem
        else
          let asked := ((s.take r).wipe (some answer)).emptyAnswer started now
          {asked with pc := if asked.ask.isNone then .leave else .poll}
  | _, _ => {s with pc := .poll}

/-- The bytes of a result pipe after the loop read from it. -/
def State.hear (s : State) (helper : Nat) (byte : Option UInt8) (after : Pipe) : State :=
  {s.note (byte.toList.map (.read helper)) with pipes := s.pipes.set helper after}

def State.approve (s : State) : State :=
  {s with ask := none, result := pamSuccess, pc := if s.prompting then .settle else .leave}

/-- The helper is done without an approval; only an open prompt goes on. -/
def State.giveUp (s : State) : State :=
  {s with ask := none, pc := if s.prompting then .receive else .leave}

/-- The second half of the loop body, up to the sleep. -/
def State.poll (s : State) (io : Poll) (now : Nat) : Option State :=
  match s.ask with
  | none => some {s with pc := if s.prompting then .receive else .leave}
  | some active =>
      (s.pipes[active.helper]?).bind fun pipe =>
        (pipe.answer io).map fun (answer, byte, after) =>
          let heard := s.hear active.helper byte after
          match answer with
          | .ok (some true) => heard.approve
          | .ok (some false) => heard.giveUp
          | .ok none => if now ≥ active.deadline then heard.giveUp else {heard with pc := .receive}
          | .error () => {heard with ask := none, pc := .receive}

/-- `recv_timeout`: the second runs out only while the channel is empty. -/
def State.settle (s : State) : State :=
  match s.channel with
  | some r => {s.wipe r.answer with channel := none, pc := .leave}
  | none => {s with pc := .leave}

def next (s : State) : Event → Option State
  | .promptReturns r => s.promptReturns r
  | .helperWrites helper byte => s.helperWrites helper byte
  | .helperCloses helper => s.helperCloses helper
  | .receive setItem started now =>
      if s.pc = .receive then some (s.receive setItem started now) else none
  | .poll io now => if s.pc = .poll then s.poll io now else none
  | .settle => if s.pc = .settle then some s.settle else none
  -- The receiver is dropped here, with whatever message it still holds.
  | .leave => if s.pc = .leave then
      some {s with ask := none, channel := none, pc := .returned s.result} else none

end Passkey.Pam

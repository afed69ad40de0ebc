import Passkey.Daemon.Assembly
import Passkey.Daemon.Numbers

/-!
The partial messages that `packet` keeps, whatever the host sends. Each slice
and each subtraction of the source is written out with its bounds, and none of
them fails; and what is kept is a message that its next continuation can
complete, so that it is dispatched with the length it was announced with.
-/

namespace Passkey.Daemon

open Library

/-! ### Slices and subtractions -/

/-- `bytes[first..last]`, which panics out of range. -/
def slice? (bytes : Bytes) (first last : Nat) : Option Bytes :=
  if first ≤ last ∧ last ≤ bytes.length then some ((bytes.take last).drop first) else none

/-- `a - b` of the source, which must not go below zero. -/
def sub? (a b : Nat) : Option Nat :=
  if b ≤ a then some (a - b) else none

theorem slice?_of_le {bytes : Bytes} {first last : Nat} (hfirst : first ≤ last)
    (hlast : last ≤ bytes.length) :
    slice? bytes first last = some ((bytes.take last).drop first) :=
  if_pos ⟨hfirst, hlast⟩

theorem sub?_of_le {a b : Nat} (h : b ≤ a) : sub? a b = some (a - b) :=
  if_pos h

/-- A report of 65 bytes begins with a report number. -/
def withoutNumber (report : Bytes) : Option Bytes :=
  if report.length = 65 then slice? report 1 report.length else some report

/-- The report of an UHID_OUTPUT event, of the buffer it was read into. -/
def outputReport (event : Bytes) : Option Bytes := do
  let size ← slice? event 4100 4102
  let report ← slice? event 4 (4 + min (ofBigEndian size.reverse) 4096)
  let report ← withoutNumber report
  slice? report 0 (min report.length 64)

/-- The payload of a first packet is taken before the locks that may refuse the
message. -/
def checkedInit (channel : UInt32) (byte : UInt8) (bytes : Bytes) : Option HidPc := do
  let size ← slice? bytes 5 7
  if ofBigEndian size > 7609 then some (.report (error channel ERR_INVALID_LEN))
  else if byte = CANCEL_CMD then some (.cancel (some channel) .cancel)
  else do
    let data ← slice? bytes 7 (min bytes.length (7 + ofBigEndian size))
    some (if byte = INIT then .reset channel ⟨byte, ofBigEndian size, data, 0⟩
      else .busyCheck channel ⟨byte, ofBigEndian size, data, 0⟩)

/-- `packet` up to the first lock. -/
def checkedPacket (bytes : Bytes) : Option HidPc :=
  if bytes.length < 5 then some .idle
  else do
    let channel ← slice? bytes 0 4
    let byte ← bytes[4]?
    if byte &&& 0x80 ≠ 0 then
      if bytes.length < 7 then some .idle
      else checkedInit (UInt32.ofNat (ofBigEndian channel)) byte bytes
    else some (.continuation (UInt32.ofNat (ofBigEndian channel)) byte (bytes.drop 5))

/-- `packet` on a continuation, under the lock. -/
def checkedContinuation (s : State) (channel : UInt32) (byte : UInt8) (bytes : Bytes) :
    Option (HidPc × Act) :=
  match s.partials channel with
  | none => some (.idle, .pass)
  | some p =>
      if byte ≠ p.nextSequence then
        some (.report (error channel ERR_INVALID_SEQ), .setPartial channel none)
      else do
        let room ← sub? p.total p.data.length
        let rest ← sub? bytes.length 5
        let more ← slice? bytes 5 (5 + min room rest)
        some (.complete channel, .setPartial channel (some {p with
          data := p.data ++ more
          nextSequence := p.nextSequence + 1}))

theorem withoutNumber_some (report : Bytes) : ∃ rest, withoutNumber report = some rest := by
  unfold withoutNumber
  split
  · rename_i hlength
    exact ⟨_, slice?_of_le (by omega) (Nat.le_refl _)⟩
  · exact ⟨report, rfl⟩

/-- The report is found in every event of that size, and fits a packet. -/
theorem outputReport_fits {event : Bytes} (hsize : 4102 ≤ event.length) :
    ∃ bytes, outputReport event = some bytes ∧ bytes.length ≤ 64 := by
  unfold outputReport
  rw [slice?_of_le (by omega) hsize, Option.bind_eq_bind, Option.bind_some,
    slice?_of_le (by omega) (by omega), Option.bind_some]
  obtain ⟨rest, hrest⟩ := withoutNumber_some
    ((event.take (4 + min (ofBigEndian ((event.take 4102).drop 4100).reverse) 4096)).drop 4)
  rw [hrest, Option.bind_some]
  refine ⟨_, slice?_of_le (Nat.zero_le _) (Nat.min_le_left ..), ?_⟩
  rw [List.drop_zero, List.length_take]
  omega

theorem checkedInit_eq (channel : UInt32) (c0 c1 c2 c3 byte hi lo : UInt8) (body : Bytes) :
    checkedInit channel byte (c0 :: c1 :: c2 :: c3 :: byte :: hi :: lo :: body)
      = some (initPacket channel byte (ofBigEndian [hi, lo]) body) := by
  have hsize : slice? (c0 :: c1 :: c2 :: c3 :: byte :: hi :: lo :: body) 5 7 = some [hi, lo] :=
    slice?_of_le (by omega) (by simp)
  unfold checkedInit initPacket
  rw [hsize, Option.bind_eq_bind, Option.bind_some]
  generalize ofBigEndian [hi, lo] = total
  have hdata : slice? (c0 :: c1 :: c2 :: c3 :: byte :: hi :: lo :: body) 7
      (min (c0 :: c1 :: c2 :: c3 :: byte :: hi :: lo :: body).length (7 + total))
        = some (body.take total) := by
    rw [slice?_of_le (by simp) (Nat.min_le_left ..), List.drop_take]
    refine congrArg some (List.take_eq_take_iff.mpr ?_)
    simp only [List.length_drop, List.length_cons]
    omega
  rw [hdata, Option.bind_some]
  split
  · rfl
  · split
    · rfl
    · split
      · rfl
      · rfl

/-- No packet makes `packet` read out of range. -/
theorem checkedPacket_eq (bytes : Bytes) : checkedPacket bytes = some (packet bytes) := by
  rcases bytes with _ | ⟨c0, _ | ⟨c1, _ | ⟨c2, _ | ⟨c3, _ | ⟨byte, rest⟩⟩⟩⟩⟩
  · rfl
  · rfl
  · rfl
  · rfl
  · rfl
  · have hchannel : slice? (c0 :: c1 :: c2 :: c3 :: byte :: rest) 0 4 = some [c0, c1, c2, c3] :=
      slice?_of_le (by omega) (by simp)
    unfold checkedPacket packet
    rw [if_neg (by simp), hchannel, Option.bind_eq_bind, Option.bind_some]
    simp only [List.getElem?_cons_succ, List.getElem?_cons_zero, Option.bind_eq_bind,
      Option.bind_some]
    split
    · rcases rest with _ | ⟨hi, _ | ⟨lo, body⟩⟩
      · rfl
      · rfl
      · rw [if_neg (by simp)]
        exact checkedInit_eq ..
    · rfl

/-- The payload of a continuation is what is behind the five bytes. -/
theorem payload_of_packet {bytes payload : Bytes} {channel : UInt32} {byte : UInt8}
    (h : packet bytes = .continuation channel byte payload) :
    5 ≤ bytes.length ∧ payload = bytes.drop 5 ∧ byte &&& 0x80 = 0 := by
  unfold packet at h
  split at h
  · split at h
    · split at h
      · unfold initPacket at h
        repeat' split at h
        all_goals cases h
      · cases h
    · rename_i hbyte
      cases h
      exact ⟨by simp, rfl, not_not.mp hbyte⟩
  · cases h

/-- What a continuation adds is in the packet and finds room in the message. -/
theorem checkedContinuation_eq {s : State} (hs : Sized s) {bytes payload : Bytes}
    {channel : UInt32} {byte : UInt8} (h : packet bytes = .continuation channel byte payload)
    (ok : Bool) :
    ∃ step, checkedContinuation s channel byte bytes = some step ∧
      (packet bytes).turn s ok = some step := by
  obtain ⟨hlength, rfl, -⟩ := payload_of_packet h
  rw [h]
  unfold checkedContinuation
  simp only [HidPc.turn]
  cases hp : s.partials channel with
  | none => exact ⟨_, rfl, rfl⟩
  | some p =>
      dsimp only
      split
      · exact ⟨_, rfl, rfl⟩
      · have hroom := (hs.partials channel p hp).1
        have hmore : slice? bytes 5 (5 + min (p.total - p.data.length) (bytes.length - 5))
            = some ((bytes.drop 5).take (p.total - p.data.length)) := by
          rw [slice?_of_le (by omega) (by omega), List.drop_take]
          refine congrArg some (List.take_eq_take_iff.mpr ?_)
          rw [List.length_drop]
          omega
        rw [sub?_of_le hroom, sub?_of_le hlength, Option.bind_eq_bind, Option.bind_some,
          Option.bind_eq_bind, Option.bind_some, hmore]
        exact ⟨_, rfl, rfl⟩

/-! ### What is kept of a message -/

/-- A message as its first packet makes it. -/
structure Partial.Opened (p : Partial) : Prop where
  command : p.command &&& 0x80 ≠ 0
  uncancelled : p.command ≠ CANCEL_CMD
  sequence : p.nextSequence = 0

/-- A message with some continuations. -/
structure Partial.Held (p : Partial) (accepted : Nat) : Prop where
  command : p.command &&& 0x80 ≠ 0
  uncancelled : p.command ≠ CANCEL_CMD
  sequence : p.nextSequence.toNat = accepted
  last : accepted ≤ 128

theorem Partial.Opened.held {p : Partial} (h : p.Opened) : p.Held 0 where
  command := h.command
  uncancelled := h.uncancelled
  sequence := by rw [h.sequence]; rfl
  last := Nat.zero_le _

/-- The number of a continuation is below 128, so that the next one does not
wrap around. -/
theorem Partial.Held.extend {p : Partial} {accepted : Nat} (h : p.Held accepted)
    (hsequence : p.nextSequence.toNat < 128) (data : Bytes) :
    Partial.Held {p with data := data, nextSequence := p.nextSequence + 1} (accepted + 1) where
  command := h.command
  uncancelled := h.uncancelled
  sequence := by
    rw [UInt8.toNat_add, ← h.sequence]
    exact Nat.mod_eq_of_lt (by change _ + 1 < _; omega)
  last := by
    rw [← h.sequence]
    exact hsequence

/-- The message that a thread is about to keep. -/
def Cause.opened : Cause → Option (UInt32 × Partial)
  | .init channel p => some (channel, p)
  | _ => none

def HidPc.opened : HidPc → Option (UInt32 × Partial)
  | .reset channel p | .busyCheck channel p | .insert channel p => some (channel, p)
  | .cancel _ cause | .lock _ cause | .withdraw _ _ cause => cause.opened
  | _ => none

/-- The number of the continuation that a thread has. -/
def HidPc.sequence : HidPc → Option UInt8
  | .continuation _ byte _ => some byte
  | _ => none

theorem opened_next (cause : Cause) :
    cause.next.opened = cause.opened ∧ cause.next.sequence = none := by
  cases cause <;> exact ⟨rfl, rfl⟩

theorem opened_dispatch (s : State) (channel : UInt32) (command : UInt8) (data : Bytes) :
    (s.dispatch channel command data).opened = none ∧
      (s.dispatch channel command data).sequence = none := by
  unfold State.dispatch
  repeat' split
  all_goals exact ⟨rfl, rfl⟩

theorem opened_packet {bytes : Bytes} {channel : UInt32} {p : Partial}
    (h : (packet bytes).opened = some (channel, p)) : p.Opened := by
  unfold packet initPacket at h
  split at h
  · split at h
    · rename_i hbyte
      split at h
      · split at h
        · cases h
        · split at h
          · cases h
          · rename_i hcancel
            split at h
            · cases h
              exact ⟨hbyte, hcancel, rfl⟩
            · cases h
              exact ⟨hbyte, hcancel, rfl⟩
      · cases h
    · cases h
  · cases h

theorem sequence_packet {bytes : Bytes} {byte : UInt8} (h : (packet bytes).sequence = some byte) :
    byte.toNat < 128 := by
  generalize hpc : packet bytes = pc at h
  cases pc with
  | continuation channel b payload =>
      cases h
      exact Library.Hid.Message.lt_of_number (payload_of_packet hpc).2.2
  | _ => cases h

/-- A thread keeps no other message than the one of its packet, and has done
with a continuation in one step. -/
theorem hidTurn_opened {s : State} {ok : Bool} {pc pc' : HidPc} {act : Act}
    (h : pc.turn s ok = some (pc', act)) :
    (pc'.opened = none ∨ pc'.opened = pc.opened) ∧ pc'.sequence = none := by
  cases hidStep_cases h with
  | reset | cancel | abandon | lock | withdraw | here => exact ⟨.inr rfl, rfl⟩
  | unmatched | withdrawn => exact ⟨.inr (opened_next _).1, (opened_next _).2⟩
  | dispatch =>
      obtain ⟨hopened, hsequence⟩ := opened_dispatch s _ _ _
      exact ⟨.inl hopened, hsequence⟩
  | @report first rest => cases rest <;> exact ⟨.inl rfl, rfl⟩
  | _ => exact ⟨.inl rfl, rfl⟩

/-! ### Continuations that were accepted -/

/-- For each channel, how many continuations of its message were accepted. -/
def recount (accepted : UInt32 → Nat) : HidPc → HidPc → UInt32 → Nat
  | .insert channel _, _ => Function.update accepted channel 0
  | .continuation channel _ _, .complete _ =>
      Function.update accepted channel (accepted channel + 1)
  | _, _ => accepted

def observeAccepted (s : State) (e : Event) (t : State) (accepted : UInt32 → Nat) :
    UInt32 → Nat :=
  match e with
  | .hid u _ => recount accepted (s.hid u) (t.hid u)
  | _ => accepted

/-- What a step of a reader does to the messages that are kept. -/
inductive Keeps (s : State) : HidPc → HidPc → Act → Prop where
  | other {pc pc' : HidPc} {act : Act} (hact : ∀ channel p, act ≠ .setPartial channel p)
      (hcount : ∀ accepted, recount accepted pc pc' = accepted)
      (hshort : ∀ channel p, pc = .complete channel → s.partials channel = some p →
        p.data.length < p.total) : Keeps s pc pc' act
  | removed {pc pc' : HidPc} {channel : UInt32}
      (hcount : ∀ accepted, recount accepted pc pc' = accepted)
      (hmine : ∀ c, pc = .complete c → c = channel) :
      Keeps s pc pc' (.setPartial channel none)
  | insert {channel : UInt32} {p : Partial} :
      Keeps s (.insert channel p) (.complete channel) (.setPartial channel (some p))
  | accepted {channel : UInt32} {payload data : Bytes} {p : Partial}
      (hp : s.partials channel = some p) :
      Keeps s (.continuation channel p.nextSequence payload) (.complete channel)
        (.setPartial channel (some {p with data := data, nextSequence := p.nextSequence + 1}))

theorem hidTurn_keeps {s : State} {ok : Bool} {pc pc' : HidPc} {act : Act}
    (h : pc.turn s ok = some (pc', act)) : Keeps s pc pc' act := by
  have hother {before after : HidPc} {act : Act} (hact : ∀ channel p, act ≠ .setPartial channel p)
      (hcount : ∀ accepted, recount accepted before after = accepted)
      (hpc : ∀ channel, before ≠ .complete channel) : Keeps s before after act :=
    .other hact hcount fun channel p heq => absurd heq (hpc channel)
  cases hidStep_cases h with
  | reset | misnumbered | whole => exact .removed (fun _ => rfl) (by simp)
  | insert => exact .insert
  | extend hp => exact .accepted hp
  | vanished hnone =>
      refine .other (by simp) (fun _ => rfl) fun c p heq hp => ?_
      cases heq
      cases hnone.symm.trans hp
  | short hp hshort =>
      refine .other (by simp) (fun _ => rfl) fun c q heq hq => ?_
      cases heq
      cases hp.symm.trans hq
      exact hshort
  | _ => exact hother (by simp) (fun _ => rfl) (by simp)

/-- What every run has: each message that is kept counts its continuations, and
is short of its length unless a thread is just about to look at that. -/
structure Assembled (s : State) (accepted : UInt32 → Nat) : Prop where
  held : ∀ channel p, s.partials channel = some p → p.Held (accepted channel)
  short : ∀ channel p, s.partials channel = some p →
    p.data.length < p.total ∨ ∃ u, s.hid u = .complete channel
  opened : ∀ u channel p, (s.hid u).opened = some (channel, p) → p.Opened
  sequence : ∀ u byte, (s.hid u).sequence = some byte → byte.toNat < 128

theorem assembled_start (pid : UInt32) : Assembled (start pid) fun _ => 0 := by
  constructor <;> simp [start, HidPc.opened, HidPc.sequence]

/-- The messages of the other channels stay, and the thread keeps one for its own. -/
theorem partials_perform {s : State} {actor : Actor} {channel c : UInt32} {q : Option Partial}
    {p : Partial} (h : (s.perform actor (.setPartial channel q)).partials c = some p) :
    c = channel ∧ q = some p ∨ c ≠ channel ∧ s.partials c = some p := by
  change Function.update s.partials channel q c = some p at h
  rw [Function.update_apply] at h
  split at h
  · rename_i heq
    exact .inl ⟨heq, h⟩
  · rename_i hne
    exact .inr ⟨hne, h⟩

theorem Assembled.held_step {s : State} {accepted : UInt32 → Nat} (h : Assembled s accepted)
    {u : ThreadId} {ok : Bool} {pc : HidPc} {act : Act}
    (hrun : (s.hid u).turn s ok = some (pc, act)) {c : UInt32} {p : Partial}
    (hp : (s.perform (.hid u) act).partials c = some p) :
    p.Held (recount accepted (s.hid u) pc c) := by
  have hopened := h.opened u
  have hsequence := h.sequence u
  have hkeeps := hidTurn_keeps hrun
  generalize s.hid u = before at hopened hsequence hkeeps ⊢
  cases hkeeps with
  | other hact hcount =>
      rw [hcount]
      exact h.held c p (perform_partials (hact c) ▸ hp)
  | removed hcount =>
      rw [hcount]
      rcases partials_perform hp with ⟨-, hnone⟩ | ⟨-, hold⟩
      · cases hnone
      · exact h.held c p hold
  | insert =>
      rcases partials_perform hp with ⟨rfl, hq⟩ | ⟨hne, hold⟩
      · cases hq
        rw [recount, Function.update_self]
        exact (hopened c p rfl).held
      · rw [recount, Function.update_of_ne hne]
        exact h.held c p hold
  | @accepted channel _ _ q hq =>
      rcases partials_perform hp with ⟨rfl, heq⟩ | ⟨hne, hold⟩
      · cases heq
        rw [recount, Function.update_self]
        exact (h.held c q hq).extend (hsequence _ rfl) _
      · rw [recount, Function.update_of_ne hne]
        exact h.held c p hold

theorem Assembled.short_step {s : State} {accepted : UInt32 → Nat} (h : Assembled s accepted)
    {u : ThreadId} {ok : Bool} {pc : HidPc} {act : Act}
    (hrun : (s.hid u).turn s ok = some (pc, act)) {c : UInt32} {p : Partial}
    (hp : (s.perform (.hid u) act).partials c = some p) :
    p.data.length < p.total ∨
      ∃ v, ((s.perform (.hid u) act).setHid u pc).hid v = .complete c := by
  have hself {pc' : HidPc} (hpc : pc' = .complete c) :
      ∃ v, ((s.perform (.hid u) act).setHid u pc').hid v = .complete c := by
    refine ⟨u, ?_⟩
    rw [setHid_hid, if_pos rfl]
    exact hpc
  -- A thread about to look is this one, or still there after the step.
  have hold (hp : s.partials c = some p) (hmine : s.hid u = .complete c → p.data.length < p.total) :
      p.data.length < p.total ∨
        ∃ v, ((s.perform (.hid u) act).setHid u pc).hid v = .complete c := by
    rcases h.short c p hp with hshort | ⟨v, hv⟩
    · exact .inl hshort
    · by_cases hvu : v = u
      · exact .inl (hmine (hvu ▸ hv))
      · refine .inr ⟨v, ?_⟩
        rw [setHid_hid, if_neg hvu, perform_hid]
        exact hv
  have hkeeps := hidTurn_keeps hrun
  generalize hu : s.hid u = before at hkeeps hold
  cases hkeeps with
  | other hact hcount hshort =>
      have hp := perform_partials (hact c) ▸ hp
      exact hold hp fun heq => hshort c p heq hp
  | removed hcount hmine =>
      rcases partials_perform hp with ⟨-, hnone⟩ | ⟨hne, hkept⟩
      · cases hnone
      · exact hold hkept fun heq => absurd (hmine c heq) hne
  | insert =>
      rcases partials_perform hp with ⟨rfl, -⟩ | ⟨-, hkept⟩
      · exact .inr (hself rfl)
      · exact hold hkept fun heq => by cases heq
  | accepted =>
      rcases partials_perform hp with ⟨rfl, -⟩ | ⟨-, hkept⟩
      · exact .inr (hself rfl)
      · exact hold hkept fun heq => by cases heq

theorem Assembled.turn {s : State} {accepted : UInt32 → Nat} (h : Assembled s accepted)
    {u : ThreadId} {ok : Bool} {pc : HidPc} {act : Act}
    (hrun : (s.hid u).turn s ok = some (pc, act)) :
    Assembled ((s.perform (.hid u) act).setHid u pc) (recount accepted (s.hid u) pc) := by
  obtain ⟨hopened, hsequence⟩ := hidTurn_opened hrun
  constructor
  · intro c p hp
    exact h.held_step hrun hp
  · intro c p hp
    exact h.short_step hrun hp
  · intro v c p hv
    rw [setHid_hid, perform_hid] at hv
    split at hv
    · rcases hopened with hnone | hsame
      · cases hnone.symm.trans hv
      · exact h.opened u c p (hsame ▸ hv)
    · exact h.opened v c p hv
  · intro v byte hv
    rw [setHid_hid, perform_hid] at hv
    split at hv
    · cases hsequence.symm.trans hv
    · exact h.sequence v byte hv

/-- A packet comes to a thread that has nothing to do, or the device is closed. -/
theorem Assembled.begin {s : State} {accepted : UInt32 → Nat} (h : Assembled s accepted)
    {e : Event} {u : ThreadId} {pc : HidPc} (hidle : s.hid u = .idle) (hpc : pc.Opening e u) :
    Assembled (s.setHid u pc) accepted := by
  constructor
  · exact h.held
  · intro c p hp
    rcases h.short c p hp with hshort | ⟨v, hv⟩
    · exact .inl hshort
    · refine .inr ⟨v, ?_⟩
      rw [setHid_hid, if_neg]
      · exact hv
      · rintro rfl
        cases hidle.symm.trans hv
  · intro v c p hv
    rw [setHid_hid] at hv
    split at hv
    · rcases hpc with ⟨bytes, -, rfl⟩ | ⟨-, rfl⟩
      · exact opened_packet hv
      · cases hv
    · exact h.opened v c p hv
  · intro v byte hv
    rw [setHid_hid] at hv
    split at hv
    · rcases hpc with ⟨bytes, -, rfl⟩ | ⟨-, rfl⟩
      · exact sequence_packet hv
      · cases hv
    · exact h.sequence v byte hv

/-- A step that changes neither the messages nor the readers. -/
theorem Assembled.same {s t : State} {accepted : UInt32 → Nat} (h : Assembled s accepted)
    (hpartials : t.partials = s.partials) (hhid : t.hid = s.hid) : Assembled t accepted where
  held := hpartials ▸ h.held
  short := hpartials ▸ hhid ▸ h.short
  opened := hhid ▸ h.opened
  sequence := hhid ▸ h.sequence

theorem Assembled.apart {s t : State} {accepted : UInt32 → Nat} {e : Event}
    (h : Assembled s accepted) (hnext : next s e = some t) (he : ∀ u ok, e ≠ .hid u ok) :
    Assembled t accepted := by
  cases step_cases hnext with
  | @worker r _ _ _ _ hw hturn =>
      exact h.same (turn_partials hturn (.worker r)) (by rw [setWorker_hid, perform_hid])
  | hid => exact absurd rfl (he _ _)
  | begin hidle hpc => exact h.begin hidle hpc
  | outside hout => exact h.same hout.partials hout.hid

theorem Assembled.step {s t : State} {accepted : UInt32 → Nat} {e : Event}
    (h : Assembled s accepted) (hnext : next s e = some t) :
    Assembled t (observeAccepted s e t accepted) := by
  cases e with
  | hid u ok =>
      obtain ⟨⟨pc, act⟩, hrun, rfl⟩ := Option.map_eq_some_iff.mp hnext
      have hplace : ((s.perform (.hid u) act).setHid u pc).hid u = pc := by
        rw [setHid_hid, if_pos rfl]
      rw [observeAccepted, hplace]
      exact h.turn hrun
  | _ => exact h.apart hnext (by simp)

theorem assembled_reachable {pid : UInt32} {x : State × (UInt32 → Nat)}
    (h : Reach (watch next observeAccepted) always (start pid, fun _ => 0) x) :
    Assembled x.1 x.2 := by
  refine h.invariant (I := fun x => Assembled x.1 x.2) (assembled_start pid) ?_
  intro x e y hx _ hstep
  obtain ⟨hnext, haccepted⟩ := watch_eq hstep
  rw [haccepted]
  exact hx.step hnext

/-- A record beside a run is no condition on it. -/
theorem reach_of_watch {γ : Type} {observe : State → Event → State → γ → γ} {x y : State × γ}
    (h : Reach (watch next observe) always x y) : Reach next always x.1 y.1 := by
  induction h with
  | refl => exact .refl
  | tail _ hok hstep ih => exact .tail ih trivial (watch_eq hstep).1

/-- In every run, whatever packets come and however the threads take turns: no
read of the device's reports and no packet goes out of range or below zero; a
message that is kept is a proper command with as many continuations as its
counter says, at most 128, and once its packet is handled it is short of a
length of at most 7609; what is dispatched has the length it was announced with;
and no continuation has a number above 127. -/
theorem partials_law {pid : UInt32} {s : State} {accepted : UInt32 → Nat}
    (h : Reach (watch next observeAccepted) always (start pid, fun _ => 0) (s, accepted)) :
    (∀ event, 4102 ≤ event.length →
        ∃ bytes, outputReport event = some bytes ∧ bytes.length ≤ 64) ∧
      (∀ bytes, checkedPacket bytes = some (packet bytes)) ∧
      (∀ bytes channel byte payload ok, packet bytes = .continuation channel byte payload →
        ∃ step, checkedContinuation s channel byte bytes = some step ∧
          (packet bytes).turn s ok = some step) ∧
      (∀ channel p, s.partials channel = some p → p.Held (accepted channel) ∧ p.total ≤ 7609 ∧
        ((∀ u, s.hid u ≠ .complete channel) → p.data.length < p.total)) ∧
      (∀ channel command data ok act,
        (HidPc.complete channel).turn s ok = some (.dispatch channel command data, act) →
        ∃ p, s.partials channel = some p ∧ command = p.command ∧ data = p.data ∧
          data.length = p.total) ∧
      ∀ u channel byte payload, s.hid u = .continuation channel byte payload →
        byte.toNat ≤ 127 := by
  have hassembled := assembled_reachable h
  have hsized := sized_reachable (reach_of_watch h)
  refine ⟨fun event => outputReport_fits, checkedPacket_eq, ?_, ?_, ?_, ?_⟩
  · intro bytes channel byte payload ok hpacket
    exact checkedContinuation_eq hsized hpacket ok
  · intro channel p hp
    refine ⟨hassembled.held channel p hp, (hsized.partials channel p hp).2, fun hquiet => ?_⟩
    rcases hassembled.short channel p hp with hshort | ⟨u, hu⟩
    · exact hshort
    · exact absurd hu (hquiet u)
  · intro channel command data ok act hturn
    cases hidStep_cases hturn with
    | @whole _ p hp hwhole =>
        exact ⟨p, hp, rfl, rfl, Nat.le_antisymm (hsized.partials channel p hp).1 hwhole⟩
  · intro u channel byte payload hu
    apply Nat.le_of_lt_succ
    apply hassembled.sequence u byte
    rw [hu]
    rfl

/-- A message of 60 bytes, with a continuation that carries none of them. -/
def emptyContinuationEvents : List Event :=
  List.flatten [[.packet 0 ([0, 0, 0, 1, PING_CMD, 0, 60] ++ List.replicate 57 7)],
    List.replicate 3 (.hid 0 true), [.packet 0 [0, 0, 0, 1, 0]], List.replicate 2 (.hid 0 true)]

theorem emptyContinuation_kept : ∃ s accepted p,
    Reach (watch next observeAccepted) always (start 1, fun _ => 0) (s, accepted) ∧
      s.partials 1 = some p ∧ p.data.length = 57 ∧ p.Held 1 := by
  obtain ⟨⟨s, accepted⟩, hrun, hp, haccepted⟩ : ∃ x : State × (UInt32 → Nat),
      replay (watch next observeAccepted) always (start 1, fun _ => 0) emptyContinuationEvents
        = some x ∧
      x.1.partials 1 = some ⟨PING_CMD, 60, List.replicate 57 7, 1⟩ ∧ x.2 1 = 1 :=
    ⟨_, rfl, rfl, rfl⟩
  have hreach := reach_of_replay hrun
  obtain ⟨-, -, -, hkept, -⟩ := partials_law hreach
  have hheld := (hkept 1 _ hp).1
  change accepted 1 = 1 at haccepted
  rw [haccepted] at hheld
  exact ⟨s, accepted, _, hreach, hp, rfl, hheld⟩

end Passkey.Daemon

import Passkey.Daemon.Deliveries
import Passkey.Daemon.Strides

/-!
What `fan_out` returns, and what `handle_cbor` makes of it, whatever the links,
the clock and the other threads do in between: each answer is counted once, the
first success is the reply, and nobody is asked after a refusal.
-/

namespace Passkey.Daemon

open Library

/-! ### What the answers come to -/

/-- `fan_out` is running, or has just returned. -/
def Pc.fanning : Pc → Bool
  | .send _ | .publish | .check | .sweep .. | .beat | .clear | .withdraw _ | .judge => true
  | _ => false

/-- The errors of all rounds so far. -/
def Worker.complaints (w : Worker) : List Bytes :=
  if w.pc.fanning then w.errors ++ w.failures else w.errors

/-- What the worker would reply. -/
def Worker.outcome (w : Worker) : Bytes :=
  match w.wins with
  | win :: _ => win.2
  | [] => finalError w.errors

/-- The worker has counted every answer once. `base` are errors from before. -/
structure Tallied (base : List Bytes) (w : Worker) (strides : List Stride) : Prop where
  wins : w.wins = (answers w.number strides).filter fun a => Success a.2
  failures : w.pc.fanning = true ∨ w.wins = [] → w.complaints =
    base ++ ((answers w.number strides).filter fun a => ¬ Success a.2).map fun a => complaint a.2
  verdict : ∀ payload, w.pc = .verdict payload → payload = w.outcome

/-- A step that counts nothing. -/
theorem Tallied.keep {base : List Bytes} {w w' : Worker} {strides : List Stride} {x : Stride}
    (h : Tallied base w strides) (hanswer : x.act.answer w.number = none)
    (hnumber : w'.number = w.number) (hwins : w'.wins = w.wins)
    (hfailures : w'.pc.fanning = true ∨ w.wins = [] → (w.pc.fanning = true ∨ w.wins = []) ∧
      w'.complaints = w.complaints)
    (hverdict : ∀ payload, w'.pc = .verdict payload → payload = w'.outcome) :
    Tallied base w' (strides ++ [x]) := by
  have hsame : answers w'.number (strides ++ [x]) = answers w.number strides := by
    rw [answers_snoc, hnumber, hanswer]
    exact List.append_nil _
  refine ⟨?_, ?_, hverdict⟩
  · rw [hsame, hwins]
    exact h.wins
  · intro hafter
    rw [hwins] at hafter
    obtain ⟨hbefore, hcomplaints⟩ := hfailures hafter
    rw [hsame, hcomplaints]
    exact h.failures hbefore

theorem Tallied.polled {base : List Bytes} {w w' : Worker} {strides : List Stride} {x : Stride}
    {r : RequestId} {l : LinkId} {rest : List LinkId} {heard : Bool} {response : UInt32 × Bytes}
    (h : Tallied base w strides) (hpc : w.pc = .sweep (l :: rest) heard)
    (hpolled : Polled w l rest response w') (hact : x.act = .take r l response) :
    Tallied base w' (strides ++ [x]) := by
  have hcounted : x.act.answer w.number = counted w.number (l, response) := by rw [hact]; rfl
  have hfanning : w.pc.fanning = true := by rw [hpc]; rfl
  have hbefore : w.complaints = w.errors ++ w.failures := if_pos hfanning
  have hfailures := h.failures (.inl hfanning)
  rw [hbefore] at hfailures
  -- An answer that is no success is counted as an error, once.
  have hcomplaint {w'' : Worker} {payload : Bytes} (hanswer : x.act.answer w.number = some (l, payload))
      (hfailure : ¬ Success payload) (hnumber : w''.number = w.number) (hwins : w''.wins = w.wins)
      (hpc'' : ∃ rest heard, w''.pc = .sweep rest heard) (herrors : w''.errors = w.errors)
      (hmore : w''.failures = w.failures ++ [complaint payload]) :
      Tallied base w'' (strides ++ [x]) := by
    obtain ⟨rest'', heard'', hpc''⟩ := hpc''
    have hsnoc : answers w''.number (strides ++ [x]) = answers w.number strides ++ [(l, payload)] := by
      rw [answers_snoc, hnumber, hanswer]
      rfl
    refine ⟨?_, ?_, ?_⟩
    · rw [hsnoc, List.filter_append, hwins, h.wins]
      simp [hfailure]
    · intro _
      have hafter : w''.complaints = w''.errors ++ w''.failures := if_pos (by rw [hpc'']; rfl)
      rw [hafter, herrors, hmore, ← List.append_assoc, hfailures, hsnoc, List.filter_append]
      simp [hfailure]
    · rw [hpc'']
      simp
  cases hpolled with
  | other hother =>
      refine h.keep ?_ rfl rfl ?_ (by simp)
      · rw [hcounted]
        exact if_neg hother
      · intro _
        exact ⟨.inl hfanning, hbefore ▸ rfl⟩
  | lost hmine =>
      exact hcomplaint (hcounted.trans (if_pos hmine)) (by simp [Success]) rfl rfl
        ⟨rest, true, rfl⟩ rfl rfl
  | failure hpayload hfailure =>
      refine hcomplaint (hcounted.trans (if_pos (.inl rfl))) hfailure rfl rfl
        ⟨_, true, rfl⟩ rfl ?_
      rw [complaint, if_neg hpayload]
  | @win payload hsuccess =>
      have hsnoc : answers w.number (strides ++ [x]) = answers w.number strides ++ [(l, payload)] := by
        rw [answers_snoc, hcounted]
        exact congrArg _ (congrArg Option.toList (if_pos (.inl rfl)))
      refine ⟨?_, ?_, by simp⟩
      · rw [hsnoc, List.filter_append, ← h.wins]
        simp [hsuccess]
      · intro _
        rw [hsnoc, List.filter_append]
        have hafter := hfailures
        simpa [Worker.complaints, Pc.fanning, hsuccess] using hafter

theorem Tallied.judge {base : List Bytes} {w : Worker} {strides : List Stride} {x : Stride}
    (h : Tallied base w strides) (hpc : w.pc = .judge) (device : LinkId → Text)
    (hact : x.act = (w.judge device).2) : Tallied base (w.judge device).1 (strides ++ [x]) := by
  have hfanning : w.pc.fanning = true := by rw [hpc]; rfl
  have hcomplaints : w.complaints = w.errors ++ w.failures := if_pos hfanning
  have hanswer : x.act.answer w.number = none := by
    rw [hact]
    unfold Worker.judge
    repeat' split
    all_goals rfl
  clear hact
  unfold Worker.judge
  split
  · rename_i winner payload rest hwins
    refine h.keep hanswer rfl rfl ?_ ?_
    · intro hafter
      rcases hafter with hnot | hnone
      · cases hnot
      · rw [hwins] at hnone
        cases hnone
    · intro p hp
      cases hp
      simp [Worker.outcome, hwins]
  · rename_i hwins
    split
    · refine h.keep hanswer rfl rfl ?_ ?_
      · intro _
        exact ⟨.inl hfanning, hcomplaints ▸ rfl⟩
      · intro p hp
        cases hp
        simp [Worker.outcome, hwins]
    · refine ⟨?_, ?_, by simp⟩
      · rw [answers_snoc, hanswer]
        simpa using h.wins
      · intro _
        rw [answers_snoc, hanswer]
        have hbefore := h.failures (.inl hfanning)
        rw [hcomplaints] at hbefore
        simpa [Worker.complaints, Pc.fanning] using hbefore

/-- Every answer of the run is in the tally. -/
theorem Tallied.turn {base : List Bytes} {s : State} {r : RequestId} {w w' : Worker} {act : Act}
    {strides : List Stride} (h : Tallied base w strides) (hdecided : Decided w)
    (hturn : Turn s r w w' act) : Tallied base w' (strides ++ [⟨w, s, act⟩]) := by
  cases hturn with
  | take hpc => exact h.polled hpc (poll_polled ..) rfl
  | judge hpc => exact h.judge hpc _ rfl
  | enter hpc =>
      have hwins : w.wins = [] := hdecided.between (by rw [hpc]; trivial)
      refine h.keep rfl rfl hwins.symm ?_ (by simp)
      intro _
      refine ⟨.inr hwins, ?_⟩
      simp [Worker.complaints, Pc.fanning, hpc]
  | roundsOver hpc =>
      have hwins : w.wins = [] := hdecided.between (by rw [hpc]; trivial)
      refine h.keep rfl rfl rfl ?_ ?_
      · intro _
        refine ⟨.inr hwins, ?_⟩
        simp [Worker.complaints, Pc.fanning, hpc]
      · intro payload hp
        cases hp
        simp [Worker.outcome, hwins]
  | @swept heard hpc =>
      refine h.keep rfl rfl rfl ?_ ?_
      · cases heard <;> simp [Worker.complaints, Pc.fanning, hpc]
      · cases heard <;> simp
  | emptyRound hpc =>
      refine h.keep rfl rfl rfl ?_ ?_
      · intro hafter
        exact ⟨hafter, rfl⟩
      · simp [hpc]
  | _ =>
      refine h.keep rfl rfl rfl ?_ ?_
      · simp [Worker.complaints, Pc.fanning, *]
      · simp

/-! ### What ends a request -/

/-- What this worker took makes the round the last. -/
def Worker.Final (w : Worker) : Prop :=
  match w.pc with
  | .check | .sweep .. | .beat | .clear | .withdraw _ | .judge =>
      w.wins ≠ [] ∨ w.failures.any isDecisive = true
  | .verdict _ | .report _ | .finish | .done => True
  | _ => False

/-- The worker takes nothing any more. -/
def Worker.Over (w : Worker) : Prop :=
  match w.pc with
  | .sweep rest heard => rest = [] ∧ heard = true ∧ w.done = true
  | .check => w.done = true
  | .beat => False
  | _ => w.Final

/-- An answer that ends the request is the last that is taken, unless all are
waited for, and in any case nobody is asked after it. -/
structure Ended (w : Worker) (strides : List Stride) : Prop where
  fresh : w.pc = .plan → takes strides = []
  decided : (∃ a ∈ takes strides, Ends w.number a.2) → w.Final
  last : w.probe = false → (∃ a ∈ takes strides, Ends w.number a.2) → w.Over ∧
    ∃ before a, takes strides = before ++ [a] ∧ ∀ b ∈ before, ¬ Ends w.number b.2
  asked : ∀ before x after, strides = before ++ x :: after →
    (∃ a, x.act.taken = some a ∧ Ends w.number a.2) → written after = []

/-- What is not written after any of some steps is not written after them when
one more step is taken. -/
theorem unwritten_snoc {E : Stride → Prop} {strides : List Stride} {x : Stride}
    (h : ∀ before y after, strides = before ++ y :: after → E y → written after = [])
    (hx : (∃ y ∈ strides, E y) → x.act.written = none) (before : List Stride) (y : Stride)
    (after : List Stride) (heq : strides ++ [x] = before ++ y :: after) (hy : E y) :
    written after = [] := by
  rcases List.eq_nil_or_concat after with rfl | ⟨after', z, rfl⟩
  · rfl
  · have hsplit : strides ++ [x] = (before ++ y :: after') ++ [z] := by
      simpa using heq
    obtain ⟨hstrides, hz⟩ := List.append_inj' hsplit rfl
    obtain rfl := List.singleton_inj.mp hz
    have hmem : y ∈ strides := by
      rw [hstrides]
      simp
    rw [List.concat_eq_append, written_snoc, h before y after' hstrides hy, hx ⟨y, hmem, hy⟩]
    rfl

theorem mem_takes {strides : List Stride} {a : LinkId × UInt32 × Bytes} :
    a ∈ takes strides ↔ ∃ y ∈ strides, y.act.taken = some a :=
  List.mem_filterMap

/-- A step that takes nothing. -/
theorem Ended.keep {w w' : Worker} {strides : List Stride} {x : Stride} (h : Ended w strides)
    (htaken : x.act.taken = none) (hnumber : w'.number = w.number) (hfresh : w'.pc ≠ .plan)
    (hprobe : w.pc = .plan ∨ w'.probe = w.probe) (hdecided : w.Final → w'.Final)
    (hover : w.Final → w.Over → w'.Over) (hwritten : w.Final → x.act.written = none) :
    Ended w' (strides ++ [x]) := by
  have hsame : takes (strides ++ [x]) = takes strides := by
    rw [takes_snoc, htaken]
    exact List.append_nil _
  refine ⟨?_, ?_, ?_, ?_⟩
  · intro hpc
    exact absurd hpc hfresh
  · rw [hsame, hnumber]
    intro hends
    exact hdecided (h.decided hends)
  · rw [hsame, hnumber]
    intro hnot hends
    rcases hprobe with hplan | hprobe
    · rw [h.fresh hplan] at hends
      obtain ⟨_, hmem, _⟩ := hends
      cases hmem
    · obtain ⟨hbefore, hlast⟩ := h.last (hprobe ▸ hnot) hends
      exact ⟨hover (h.decided hends) hbefore, hlast⟩
  · rw [hnumber]
    apply unwritten_snoc h.asked
    rintro ⟨y, hy, a, hact, hends⟩
    exact hwritten (h.decided ⟨a, mem_takes.mpr ⟨y, hy, hact⟩, hends⟩)

/-- A message that ends nothing is taken. -/
theorem Ended.quiet {w w' : Worker} {strides : List Stride} {x : Stride}
    {a : LinkId × UInt32 × Bytes} {rest rest' : List LinkId} {heard heard' : Bool} {l : LinkId}
    (h : Ended w strides) (hact : x.act.taken = some a) (hpc : w.pc = .sweep (l :: rest) heard)
    (hpc' : w'.pc = .sweep rest' heard') (hnumber : w'.number = w.number)
    (hprobe : w'.probe = w.probe) (hwins : w.wins ≠ [] → w'.wins ≠ [])
    (hfailures : ∃ more, w'.failures = w.failures ++ more) (hends : ¬ Ends w.number a.2) :
    Ended w' (strides ++ [x]) := by
  have hsnoc : takes (strides ++ [x]) = takes strides ++ [a] := by
    rw [takes_snoc, hact]
    rfl
  have hbefore (hsome : ∃ b ∈ takes (strides ++ [x]), Ends w'.number b.2) :
      ∃ b ∈ takes strides, Ends w.number b.2 := by
    obtain ⟨b, hb, hbends⟩ := hsome
    rw [hnumber] at hbends
    rw [hsnoc] at hb
    rcases List.mem_append.mp hb with hold | hnew
    · exact ⟨b, hold, hbends⟩
    · obtain rfl := List.mem_singleton.mp hnew
      exact absurd hbends hends
  refine ⟨?_, ?_, ?_, ?_⟩
  · rw [hpc']
    intro hplan
    cases hplan
  · intro hsome
    have hdecided := h.decided (hbefore hsome)
    rw [Worker.Final, hpc] at hdecided
    rw [Worker.Final, hpc']
    obtain ⟨more, hfailures⟩ := hfailures
    rcases hdecided with hwon | hfailed
    · exact .inl (hwins hwon)
    · refine .inr ?_
      rw [hfailures, List.any_append, hfailed]
      rfl
  · intro hnot hsome
    have hover := (h.last (hprobe ▸ hnot) (hbefore hsome)).1
    rw [Worker.Over, hpc] at hover
    cases hover.1
  · rw [hnumber]
    apply unwritten_snoc h.asked
    intro _
    cases hx : x.act with
    | take => rfl
    | _ => simp [hx, Act.taken] at hact

/-- A message that ends a request is taken. -/
theorem Ended.ending {w w' : Worker} {strides : List Stride} {x : Stride}
    {a : LinkId × UInt32 × Bytes} {rest rest' : List LinkId} {heard : Bool} {l : LinkId}
    (h : Ended w strides) (hact : x.act.taken = some a) (hpc : w.pc = .sweep (l :: rest) heard)
    (hpc' : w'.pc = .sweep rest' true) (hnumber : w'.number = w.number)
    (hprobe : w'.probe = w.probe) (hdone : w.probe = false → rest' = [] ∧ w'.done = true)
    (hdecided : w'.wins ≠ [] ∨ w'.failures.any isDecisive = true) : Ended w' (strides ++ [x]) := by
  have hsnoc : takes (strides ++ [x]) = takes strides ++ [a] := by
    rw [takes_snoc, hact]
    rfl
  refine ⟨?_, ?_, ?_, ?_⟩
  · rw [hpc']
    intro hplan
    cases hplan
  · intro _
    rw [Worker.Final, hpc']
    exact hdecided
  · intro hnot _
    rw [hprobe] at hnot
    constructor
    · rw [Worker.Over, hpc']
      obtain ⟨hrest, hdone⟩ := hdone hnot
      exact ⟨hrest, rfl, hdone⟩
    · refine ⟨takes strides, a, hsnoc, ?_⟩
      -- The sweep was going on, so nothing had ended the request.
      intro b hb hends
      rw [hnumber] at hends
      have hover := (h.last hnot ⟨b, hb, hends⟩).1
      rw [Worker.Over, hpc] at hover
      cases hover.1
  · rw [hnumber]
    apply unwritten_snoc h.asked
    intro _
    cases hx : x.act with
    | take => rfl
    | _ => simp [hx, Act.taken] at hact

theorem Ended.polled {w w' : Worker} {strides : List Stride} {x : Stride} {r : RequestId}
    {l : LinkId} {rest : List LinkId} {heard : Bool} {response : UInt32 × Bytes}
    (h : Ended w strides) (hpc : w.pc = .sweep (l :: rest) heard)
    (hpolled : Polled w l rest response w') (hact : x.act = .take r l response) :
    Ended w' (strides ++ [x]) := by
  have htaken : x.act.taken = some (l, response) := by rw [hact]; rfl
  cases hpolled with
  | other hother =>
      refine h.quiet htaken hpc rfl rfl rfl id ⟨[], (List.append_nil _).symm⟩ ?_
      intro hends
      exact hother (.inl hends.1)
  | lost =>
      refine h.quiet htaken hpc rfl rfl rfl id ⟨_, rfl⟩ ?_
      rintro ⟨-, hsuccess | hdenied⟩
      · cases hsuccess
      · cases hdenied
  | win hsuccess =>
      refine h.ending htaken hpc rfl rfl rfl ?_ (.inl (by simp))
      intro hnot
      simp [hnot]
  | @failure payload hpayload hfailure =>
      by_cases hdenied : Denied payload
      · refine h.ending htaken hpc rfl rfl rfl ?_ (.inr ?_)
        · intro hnot
          simp [hnot, hdenied]
        · have hdecisive : isDecisive payload = true := by
            rw [isDecisive, hdenied]
            decide
          simp [hdecisive]
      · refine h.quiet htaken hpc rfl rfl rfl id ⟨_, rfl⟩ ?_
        rintro ⟨-, hsuccess | hdenied'⟩
        · exact hfailure hsuccess
        · exact hdenied hdenied'

theorem Ended.judge {w : Worker} {strides : List Stride} {x : Stride} (h : Ended w strides)
    (hpc : w.pc = .judge) (device : LinkId → Text) (hact : x.act = (w.judge device).2) :
    Ended (w.judge device).1 (strides ++ [x]) := by
  have hsilent : x.act.taken = none ∧ x.act.written = none := by
    rw [hact]
    unfold Worker.judge
    repeat' split
    all_goals exact ⟨rfl, rfl⟩
  obtain ⟨htaken, hwritten⟩ := hsilent
  have hdecided (hnow : w.Final) : w.wins ≠ [] ∨ w.failures.any isDecisive = true := by
    rw [Worker.Final, hpc] at hnow
    exact hnow
  clear hact
  unfold Worker.judge
  split
  · exact h.keep htaken rfl (by simp) (.inr rfl) (fun _ => trivial) (fun _ _ => trivial)
      fun _ => hwritten
  · rename_i hwins
    split
    · exact h.keep htaken rfl (by simp) (.inr rfl) (fun _ => trivial) (fun _ _ => trivial)
        fun _ => hwritten
    · rename_i hfailed
      have hnot (hnow : w.Final) : False := by
        rcases hdecided hnow with hwon | hfailure
        · exact hwon hwins
        · exact hfailed hfailure
      exact h.keep htaken rfl (by simp) (.inr rfl) (fun hnow => (hnot hnow).elim)
        (fun hnow _ => (hnot hnow).elim) fun _ => hwritten

theorem Ended.turn {s : State} {r : RequestId} {w w' : Worker} {act : Act}
    {strides : List Stride} (h : Ended w strides) (hturn : Turn s r w w' act) :
    Ended w' (strides ++ [⟨w, s, act⟩]) := by
  cases hturn with
  | take hpc => exact h.polled hpc (poll_polled ..) rfl
  | judge hpc => exact h.judge hpc _ rfl
  | plan hpc =>
      refine h.keep rfl rfl (by simp) (.inl hpc) ?_ ?_ fun _ => rfl
      · simp [Worker.Final, hpc]
      · simp [Worker.Final, hpc]
  | goOn hpc hpending hdone =>
      refine h.keep rfl rfl (by simp) (.inr rfl) ?_ ?_ fun _ => rfl
      · simp [Worker.Final, hpc]
      · simp [Worker.Over, hpc, hdone]
  | stop hpc =>
      have hsame (hnow : w.Final) : Worker.Final {w with pc := .clear} := by
        simpa [Worker.Final, hpc] using hnow
      exact h.keep rfl rfl (by simp) (.inr rfl) hsame (fun hnow _ => hsame hnow) fun _ => rfl
  | @swept heard hpc =>
      refine h.keep rfl rfl ?_ (.inr rfl) ?_ ?_ fun _ => rfl
      · cases heard <;> simp
      · cases heard <;> simp [Worker.Final, hpc]
      · cases heard <;> simp [Worker.Over, hpc]
  | send hpc =>
      refine h.keep rfl rfl (by simp) (.inr rfl) ?_ ?_ ?_
      · simp [Worker.Final, hpc]
      · simp [Worker.Final, hpc]
      · simp [Worker.Final, hpc]
  | emptyRound hpc =>
      refine h.keep rfl rfl (by simp [hpc]) (.inr rfl) id (fun _ => id) fun _ => rfl
  | _ =>
      refine h.keep rfl rfl (by simp) (.inr rfl) ?_ ?_ fun _ => rfl
      · simp [Worker.Final, *]
      · simp [Worker.Final, Worker.Over, *]

/-! ### Why `fan_out` returns -/

/-- The loop of `fan_out` is running, or has ended. -/
def Pc.looping : Pc → Bool
  | .check | .sweep .. | .beat | .clear | .withdraw _ | .judge => true
  | _ => false

/-- The loop has ended. -/
def Pc.ended : Pc → Bool
  | .clear | .withdraw _ | .judge => true
  | _ => false

/-- A round of the loop found the deadline passed or the request not current. -/
def Expired (r : RequestId) (strides : List Stride) : Prop :=
  ∃ x ∈ strides, x.before.pc = .check ∧ (x.before.deadline ≤ x.seen.now ∨ x.seen.busy ≠ some r)

/-- Only an answer to a request that does not wait for all sets `done`, and the
loop ends for one of four reasons. -/
structure Exited (r : RequestId) (w : Worker) (strides : List Stride) : Prop where
  done : w.pc.looping = true → w.done = true → w.probe = false
  reason : w.pc.ended = true → w.done = true ∨ w.pending = [] ∨ Expired r strides

theorem Expired.append {r : RequestId} {strides : List Stride} (h : Expired r strides)
    (more : List Stride) : Expired r (strides ++ more) := by
  obtain ⟨x, hx, hexpired⟩ := h
  exact ⟨x, List.mem_append_left _ hx, hexpired⟩

theorem turn_stop {s : State} {r : RequestId} {ok : Bool} {w w' : Worker} {act : Act}
    (h : w.turn s r ok = some (w', act)) (hpc : w.pc = .check) (hpc' : w'.pc = .clear) :
    w.done = true ∨ w.pending = [] ∨ w.deadline ≤ s.now ∨ s.busy ≠ some r := by
  rw [Worker.turn, hpc] at h
  dsimp only at h
  split at h
  · cases h
    cases hpc'
  · rename_i hstop
    by_contra hnot
    simp only [not_or, not_le, not_not, Bool.not_eq_true] at hnot
    obtain ⟨hdone, hpending, htime, hbusy⟩ := hnot
    simp [hdone, hpending, htime, hbusy] at hstop

/-- A step that leaves the reasons as they are. -/
theorem Exited.keep {r : RequestId} {w w' : Worker} {strides : List Stride} (h : Exited r w strides)
    (more : List Stride) (hlooping : w'.pc.looping = true → w.pc.looping = true)
    (hended : w'.pc.ended = true → w.pc.ended = true) (hdone : w'.done = w.done)
    (hprobe : w'.probe = w.probe) (hpending : w'.pending = w.pending) :
    Exited r w' (strides ++ more) := by
  constructor
  · rw [hdone, hprobe]
    intro hafter
    exact h.done (hlooping hafter)
  · rw [hdone, hpending]
    intro hafter
    exact (h.reason (hended hafter)).imp_right (Or.imp_right fun he => he.append more)

/-- An answer is taken inside the loop. -/
theorem Exited.polled {r : RequestId} {w w' : Worker} {strides : List Stride} {l : LinkId}
    {rest : List LinkId} {heard : Bool} {response : UInt32 × Bytes} (h : Exited r w strides)
    (hpc : w.pc = .sweep (l :: rest) heard) (hpolled : Polled w l rest response w')
    (more : List Stride) : Exited r w' (strides ++ more) := by
  have hdone := h.done (by rw [hpc]; rfl)
  cases hpolled with
  | win => exact ⟨by simp, by simp [Pc.ended]⟩
  | failure => exact ⟨by simp, by simp [Pc.ended]⟩
  | _ =>
      refine ⟨?_, by simp [Pc.ended]⟩
      intro _
      exact hdone

theorem Exited.turn {s : State} {r : RequestId} {ok : Bool} {w w' : Worker} {act : Act}
    {strides : List Stride} (h : Exited r w strides) (hnext : w.turn s r ok = some (w', act)) :
    Exited r w' (strides ++ [⟨w, s, act⟩]) := by
  have hstop := turn_stop hnext
  cases turn_cases hnext with
  | take hpc => exact h.polled hpc (poll_polled ..) _
  | judge hpc =>
      have hleft : (w.judge fun l => (s.link l).device).1.pc.looping = false ∧
          (w.judge fun l => (s.link l).device).1.pc.ended = false := by
        unfold Worker.judge
        repeat' split
        all_goals exact ⟨rfl, rfl⟩
      refine ⟨?_, ?_⟩
      · rw [hleft.1]
        exact fun hnot => absurd hnot (by simp)
      · rw [hleft.2]
        exact fun hnot => absurd hnot (by simp)
  | stop hpc =>
      refine ⟨?_, ?_⟩
      · intro _
        exact h.done (by rw [hpc]; rfl)
      · intro _
        rcases hstop hpc rfl with hdone | hpending | hexpired
        · exact .inl hdone
        · exact .inr (.inl hpending)
        · exact .inr (.inr ⟨_, List.mem_append_right _ (List.mem_singleton_self _), hpc, hexpired⟩)
  | publish => exact ⟨by simp, by simp [Pc.ended]⟩
  | plan => exact ⟨by simp [Pc.looping], by simp [Pc.ended]⟩
  | enter => exact ⟨by simp [Pc.looping], by simp [Pc.ended]⟩
  | send => exact ⟨by simp [Pc.looping], by simp [Pc.ended]⟩
  | @swept heard hpc =>
      refine h.keep _ ?_ ?_ rfl rfl rfl
      · cases heard <;> simp [Pc.looping, hpc]
      · cases heard <;> simp [Pc.ended]
  | _ =>
      refine h.keep _ ?_ ?_ rfl rfl rfl
      · simp [Pc.looping, *]
      · simp [Pc.ended, *]

/-! ### One call of `fan_out` -/

/-- The answers that are no success. -/
def failed (number : UInt32) (strides : List Stride) : List (LinkId × Bytes) :=
  (answers number strides).filter fun a => ¬ Success a.2

/-- How `fan_out` returns. Each link that was sent the REQ frame is in one place:
it won, it failed, or it was still pending and was sent the CANCEL frame. -/
structure FannedOut (r : RequestId) (w : Worker) (strides : List Stride) : Prop where
  distinct : (sentTo strides).Nodup
  accounted : (sentTo strides).Perm
    (w.wins.map Prod.fst ++ (failed w.number strides).map Prod.fst ++ withdrawnFrom strides)
  wins : w.wins = (answers w.number strides).filter fun a => Success a.2
  failures : w.failures = (failed w.number strides).map fun a => complaint a.2
  /-- Where the first answer counts, a success is the last message taken. -/
  won : w.probe = false → w.wins.length ≤ 1 ∧
    ∀ win ∈ w.wins, (takes strides).getLast? = some (win.1, w.number, win.2)
  /-- There nothing is taken after a refusal. -/
  refused : w.probe = false → ∀ before a after, takes strides = before ++ a :: after →
    a.2.1 = w.number → Denied a.2.2 → after = []
  /-- A probe goes on until all have answered, time is up or it was abandoned. -/
  waited : w.probe = true → w.pending = [] ∨ Expired r strides

/-- What holds while `fan_out` is running. -/
structure Fanning (r : RequestId) (targets : List LinkId) (errors : List Bytes) (w : Worker)
    (strides : List Stride) : Prop where
  fanning : w.pc.fanning = true
  conserved : Conserved w strides
  decided : Decided w
  tallied : Tallied errors w strides
  ended : Ended w strides
  exited : Exited r w strides
  targets : written strides ++ w.todo = targets
  errors : w.errors = errors

theorem counted_quiet {number : UInt32} {a : LinkId × UInt32 × Bytes} {b : LinkId × Bytes}
    (hquiet : ¬ Ends number a.2) (h : counted number a = some b) : ¬ Success b.2 ∧ ¬ Denied b.2 := by
  unfold counted at h
  split at h
  · rename_i hmine
    cases h
    have hnumber (hpayload : a.2.2 ≠ []) : a.2.1 = number := by
      rcases hmine with hsame | hclose
      · exact hsame
      · rw [hclose] at hpayload
        exact absurd rfl hpayload
    constructor
    · intro hsuccess
      refine hquiet ⟨hnumber ?_, .inl hsuccess⟩
      intro hnil
      rw [hnil] at hsuccess
      cases hsuccess
    · intro hdenied
      refine hquiet ⟨hnumber ?_, .inr hdenied⟩
      intro hnil
      rw [hnil] at hdenied
      cases hdenied
  · cases h

/-- What a message counts as says whether it ends the request. -/
theorem counted_ends {number : UInt32} {a : LinkId × UInt32 × Bytes} {b : LinkId × Bytes}
    (h : counted number a = some b) (hb : Success b.2 ∨ Denied b.2) :
    Ends number a.2 ∧ a = (b.1, number, b.2) := by
  by_cases hends : Ends number a.2
  · refine ⟨hends, ?_⟩
    unfold counted at h
    rw [if_pos (.inl hends.1)] at h
    cases h
    rw [← hends.1]
  · obtain ⟨hsuccess, hdenied⟩ := counted_quiet hends h
    rcases hb with hwon | hrefused
    · exact absurd hwon hsuccess
    · exact absurd hrefused hdenied

theorem works_cases {r : RequestId} {x y : Worker × List Stride} {e : Surrounding}
    (h : works r x e = some y) : (∃ locked, y = ({x.1 with locked := locked}, x.2)) ∨
      ∃ s ok w act, x.1.turn s r ok = some (w, act) ∧ y = (w, x.2 ++ [⟨x.1, s, act⟩]) := by
  cases e with
  | lock locked =>
      cases h
      exact .inl ⟨locked, rfl⟩
  | turn s ok =>
      obtain ⟨⟨w, act⟩, hturn, rfl⟩ := Option.map_eq_some_iff.mp h
      exact .inr ⟨s, ok, w, act, hturn, rfl⟩

theorem fanning_start (r : RequestId) (w : Worker) {targets : List LinkId} (h : targets.Nodup) :
    Fanning r targets w.errors (w.fanOut targets) [] where
  fanning := rfl
  conserved := ⟨.refl _, h, by simp [Worker.fanOut]⟩
  decided := ⟨False.elim, by simp [Worker.fanOut]⟩
  tallied := by
    refine ⟨rfl, ?_, by simp [Worker.fanOut]⟩
    simp [Worker.complaints, Worker.fanOut, Pc.fanning, answers]
  ended := by
    refine ⟨by simp [Worker.fanOut], ?_, ?_, ?_⟩
    · simp [takes]
    · simp [takes]
    · simp
  exited := ⟨by simp [Worker.fanOut, Pc.looping], by simp [Worker.fanOut, Pc.ended]⟩
  targets := rfl
  errors := rfl

/-- Whoever has the lock, the invariants do not speak of it. -/
theorem Conserved.lock {w : Worker} {strides : List Stride} (h : Conserved w strides)
    (locked : Bool) : Conserved {w with locked := locked} strides where
  accounted := h.accounted
  distinct := h.distinct
  sweeping := h.sweeping

theorem Decided.lock {w : Worker} (h : Decided w) (locked : Bool) :
    Decided {w with locked := locked} where
  between := h.between
  verdict := h.verdict

theorem Tallied.lock {base : List Bytes} {w : Worker} {strides : List Stride}
    (h : Tallied base w strides) (locked : Bool) :
    Tallied base {w with locked := locked} strides where
  wins := h.wins
  failures := h.failures
  verdict := h.verdict

theorem Ended.lock {w : Worker} {strides : List Stride} (h : Ended w strides) (locked : Bool) :
    Ended {w with locked := locked} strides where
  fresh := h.fresh
  decided := h.decided
  last := h.last
  asked := h.asked

theorem Fanning.lock {r : RequestId} {targets : List LinkId} {errors : List Bytes} {w : Worker}
    {strides : List Stride} (h : Fanning r targets errors w strides) (locked : Bool) :
    Fanning r targets errors {w with locked := locked} strides where
  fanning := h.fanning
  conserved := h.conserved.lock locked
  decided := h.decided.lock locked
  tallied := h.tallied.lock locked
  ended := h.ended.lock locked
  exited := ⟨h.exited.done, h.exited.reason⟩
  targets := h.targets
  errors := h.errors

theorem poll_errors (w : Worker) (l : LinkId) (rest : List LinkId) (heard : Bool)
    (response : Option (UInt32 × Bytes)) : (w.poll l rest heard response).errors = w.errors ∧
      (w.poll l rest heard response).pc.fanning = true ∧
      (w.poll l rest heard response).todo = [] := by
  unfold Worker.poll
  repeat' split
  all_goals exact ⟨rfl, rfl, rfl⟩

/-- A step inside `fan_out`. -/
theorem turn_fanning {s : State} {r : RequestId} {w w' : Worker} {act : Act}
    (h : Turn s r w w' act) (hpc : w.pc.fanning = true) (hrun : w.pc ≠ .judge) :
    w'.pc.fanning = true ∧ w'.errors = w.errors ∧ act.written.toList ++ w'.todo = w.todo := by
  cases h with
  | take hsweep =>
      obtain ⟨herrors, hfanning, htodo⟩ := poll_errors w _ _ _ _
      refine ⟨hfanning, herrors, ?_⟩
      rw [htodo, Worker.todo, hsweep]
      rfl
  | judge hjudge => exact absurd hjudge hrun
  | @swept heard hsweep => cases heard <;> simp [Pc.fanning, Worker.todo, Act.written, hsweep]
  | emptyRound hround => simp [hround, Pc.fanning] at hpc
  | _ => simp_all [Pc.fanning, Worker.todo, Act.written]

theorem Fanning.turn {s : State} {r : RequestId} {ok : Bool} {targets : List LinkId}
    {errors : List Bytes} {w w' : Worker} {act : Act} {strides : List Stride}
    (h : Fanning r targets errors w strides) (hrun : w.pc ≠ .judge)
    (hturn : w.turn s r ok = some (w', act)) :
    Fanning r targets errors w' (strides ++ [⟨w, s, act⟩]) := by
  have hcases := turn_cases hturn
  obtain ⟨hfanning, herrors, htodo⟩ := turn_fanning hcases h.fanning hrun
  refine ⟨hfanning, h.conserved.turn hcases ?_, h.decided.turn hcases,
    h.tallied.turn h.decided hcases, h.ended.turn hcases, h.exited.turn hturn, ?_, ?_⟩
  · intro hround
    have hnot := h.fanning
    rw [hround] at hnot
    cases hnot
  · rw [written_snoc, List.append_assoc, htodo]
    exact h.targets
  · rw [herrors]
    exact h.errors

theorem fanning_run {r : RequestId} {w : Worker} {targets : List LinkId} (h : targets.Nodup)
    {x : Worker × List Stride} (hrun : Reach (works r) InFanOut (w.fanOut targets, []) x) :
    Fanning r targets w.errors x.1 x.2 := by
  refine Reach.invariant (I := fun x => Fanning r targets w.errors x.1 x.2) (fanning_start r w h) ?_
    hrun
  intro x e y hx hok hnext
  rcases works_cases hnext with ⟨locked, rfl⟩ | ⟨s, ok, w', act, hturn, rfl⟩
  · exact hx.lock locked
  · refine hx.turn ?_ hturn
    intro hjudge
    rw [InFanOut, hjudge] at hok
    cases hok

theorem sentTo_sublist (strides : List Stride) : (sentTo strides).Sublist (written strides) := by
  induction strides with
  | nil => exact List.Sublist.refl []
  | cons x rest ih =>
      have hcons : sentTo (x :: rest) = x.act.sentTo.toList ++ sentTo rest := by
        cases h : x.act.sentTo <;> simp [sentTo, h]
      have hcons' : written (x :: rest) = x.act.written.toList ++ written rest := by
        cases h : x.act.written <;> simp [written, h]
      rw [hcons, hcons']
      apply List.Sublist.append _ ih
      cases x.act with
      | write m l ok =>
          cases m with
          | req => cases ok <;> simp [Act.sentTo, Act.written]
          | _ => exact List.Sublist.refl []
      | _ => exact List.Sublist.refl []

/-- Where the first answer counts, only the last one taken can be a success or
a refusal. -/
theorem Ended.split {w : Worker} {strides : List Stride} (h : Ended w strides)
    (hprobe : w.probe = false) : ∃ quiet last, answers w.number strides = quiet ++ last ∧
      (∀ b ∈ quiet, ¬ Success b.2 ∧ ¬ Denied b.2) ∧ last.length ≤ 1 ∧
      ∀ b ∈ last, Success b.2 → (takes strides).getLast? = some (b.1, w.number, b.2) := by
  have hquiet {before : List (LinkId × UInt32 × Bytes)}
      (hbefore : ∀ a ∈ before, ¬ Ends w.number a.2) :
      ∀ b ∈ before.filterMap (counted w.number), ¬ Success b.2 ∧ ¬ Denied b.2 := by
    intro b hb
    obtain ⟨a, ha, hcounted⟩ := List.mem_filterMap.mp hb
    exact counted_quiet (hbefore a ha) hcounted
  by_cases hends : ∃ a ∈ takes strides, Ends w.number a.2
  · obtain ⟨-, before, a, htakes, hbefore⟩ := h.last hprobe hends
    refine ⟨before.filterMap (counted w.number), (counted w.number a).toList, ?_,
      hquiet hbefore, ?_, ?_⟩
    · rw [answers_eq, htakes, List.filterMap_append]
      cases hcounted : counted w.number a <;> simp [hcounted]
    · cases counted w.number a <;> simp
    · intro b hb hsuccess
      have hcounted := Option.mem_toList.mp hb
      obtain ⟨-, rfl⟩ := counted_ends hcounted (.inl hsuccess)
      rw [htakes]
      simp
  · refine ⟨answers w.number strides, [], (List.append_nil _).symm, ?_, Nat.zero_le 1, by simp⟩
    rw [answers_eq]
    apply hquiet
    intro a ha hnow
    exact hends ⟨a, ha, hnow⟩

/-- A success is the last answer then. -/
theorem filter_split {quiet last : List (LinkId × Bytes)}
    (hquiet : ∀ b ∈ quiet, ¬ Success b.2 ∧ ¬ Denied b.2) :
    (quiet ++ last).filter (fun a => Success a.2) = last.filter fun a => Success a.2 := by
  rw [List.filter_append, List.filter_eq_nil_iff.mpr, List.nil_append]
  intro b hb
  simpa using (hquiet b hb).1

theorem Fanning.returned {r : RequestId} {targets : List LinkId} {errors : List Bytes} {w : Worker}
    {strides : List Stride} (h : Fanning r targets errors w strides) (hpc : w.pc = .judge)
    (htargets : targets.Nodup) : FannedOut r w strides := by
  have hcomplaints : w.complaints = w.errors ++ w.failures := if_pos h.fanning
  refine ⟨?_, ?_, h.tallied.wins, ?_, ?_, ?_, ?_⟩
  · have hwritten : (written strides).Nodup := by
      have hnodup := htargets
      rw [← h.targets] at hnodup
      exact (List.nodup_append.mp hnodup).1
    exact hwritten.sublist (sentTo_sublist strides)
  · have haccounted := h.conserved.accounted
    rw [Worker.outstanding, hpc] at haccounted
    refine haccounted.trans ?_
    rw [List.nil_append, h.tallied.wins, failed, ← List.map_append]
    apply List.Perm.append_right
    apply List.Perm.map
    have hsplit := List.filter_append_perm (fun a : LinkId × Bytes => decide (Success a.2))
      (answers w.number strides)
    simpa using hsplit.symm
  · have hfailures := h.tallied.failures (.inl h.fanning)
    rw [hcomplaints, h.errors] at hfailures
    exact List.append_cancel_left hfailures
  · intro hprobe
    obtain ⟨quiet, last, hanswers, hquiet, hlength, hlast⟩ := h.ended.split hprobe
    have hwins : w.wins = last.filter fun a => Success a.2 := by
      rw [h.tallied.wins, hanswers, filter_split hquiet]
    rw [hwins]
    constructor
    · exact (List.length_filter_le _ _).trans hlength
    · intro win hwin
      obtain ⟨hmem, hsuccess⟩ := List.mem_filter.mp hwin
      exact hlast win hmem (of_decide_eq_true hsuccess)
  · intro hprobe before a after htakes hnumber hdenied
    have hends : Ends w.number a.2 := ⟨hnumber, .inr hdenied⟩
    have hmem : a ∈ takes strides := by
      rw [htakes]
      simp
    obtain ⟨-, before', a', htakes', hbefore⟩ := h.ended.last hprobe ⟨a, hmem, hends⟩
    rcases List.eq_nil_or_concat after with hnil | ⟨after', z, rfl⟩
    · exact hnil
    · have hsplit : before' ++ [a'] = (before ++ a :: after') ++ [z] := by
        rw [← htakes', htakes]
        simp
      obtain ⟨hsame, -⟩ := List.append_inj' hsplit rfl
      have hearly : a ∈ before' := by
        rw [hsame]
        simp
      exact absurd hends (hbefore a hearly)
  · intro hprobe
    rcases h.exited.reason (by rw [hpc]; rfl) with hdone | hreason
    · have hnot := h.exited.done (by rw [hpc]; rfl) hdone
      rw [hprobe] at hnot
      cases hnot
    · exact hreason

/-! ### The whole request -/

/-- A success goes to the host only if it is the first that was taken, and only
if no refusal was taken before it, unless the request is a probe. -/
def Delivers (w : Worker) (strides : List Stride) (payload : Bytes) : Prop :=
  Success payload → ∃ before l after, answers w.number strides = before ++ (l, payload) :: after ∧
    (∀ a ∈ before, ¬ Success a.2) ∧ (w.probe = false → ∀ a ∈ before, ¬ Denied a.2)

/-- The reports that the worker wrote, in order. -/
def reported (strides : List Stride) : List Bytes :=
  strides.filterMap fun x => x.act.reported

/-- After KEEPALIVE messages the worker gives one reply, of which it has still to
write `rest`; its payload is one that may be given. -/
def Gives (w : Worker) (strides : List Stride) (rest : List Bytes) : Prop :=
  ∃ beats begun payload, reported strides = beats ++ begun ∧ Beats w.channel beats ∧
    begun ++ rest = reply w.channel CBOR payload ∧ Delivers w strides payload

/-- What `handle_cbor` reports and whom it asks. -/
structure Handled (w : Worker) (strides : List Stride) : Prop where
  reported : Beats w.channel (reported strides) ∨ ∃ rest, Gives w strides rest
  complete : w.pc = .finish ∨ w.pc = .done →
    Beats w.channel (Daemon.reported strides) ∨ Gives w strides []
  /-- After a refusal no REQ frame is written, with success or not. -/
  refused : ∀ before x after a, strides = before ++ x :: after → x.act.taken = some a →
    a.2.1 = w.number → Denied a.2.2 → written after = []

/-- What the worker has written, by where it is. -/
def Reporting (w : Worker) (strides : List Stride) : Prop :=
  match w.pc with
  | .report rest => Gives w strides rest
  | .finish | .done => Beats w.channel (reported strides) ∨ Gives w strides []
  | _ => Beats w.channel (reported strides)

structure Handling (w : Worker) (strides : List Stride) : Prop where
  decided : Decided w
  tallied : Tallied [] w strides
  ended : Ended w strides
  reporting : Reporting w strides

theorem Delivers.snoc {w w' : Worker} {strides : List Stride} {payload : Bytes}
    (h : Delivers w strides payload) (hfresh : w.pc = .plan → takes strides = [])
    (hnumber : w'.number = w.number) (hprobe : w.pc = .plan ∨ w'.probe = w.probe) (x : Stride) :
    Delivers w' (strides ++ [x]) payload := by
  intro hsuccess
  obtain ⟨before, l, after, hanswers, hfirst, hrefused⟩ := h hsuccess
  rcases hprobe with hplan | hprobe
  · rw [answers_eq, hfresh hplan] at hanswers
    simp at hanswers
  · refine ⟨before, l, after ++ (x.act.answer w.number).toList, ?_, hfirst, ?_⟩
    · rw [hnumber, answers_snoc, hanswers]
      simp
    · rw [hprobe]
      exact hrefused

theorem reported_snoc (strides : List Stride) (x : Stride) :
    reported (strides ++ [x]) = reported strides ++ x.act.reported.toList := by
  cases h : x.act.reported <;> simp [reported, h]

theorem reporting_early {w : Worker} {strides : List Stride} (h : w.pc.Early) :
    Reporting w strides = Beats w.channel (reported strides) := by
  unfold Reporting
  cases hpc : w.pc with
  | report | finish | done =>
      rw [hpc] at h
      exact h.elim
  | _ => rfl

theorem not_success_complaint {payload : Bytes} (h : ¬ Success payload) :
    ¬ Success (complaint payload) := by
  unfold complaint
  split
  · exact not_success_other
  · exact h

/-- What the worker decided on may be given. -/
theorem delivers_verdict {w : Worker} {strides : List Stride} {payload : Bytes}
    (htallied : Tallied [] w strides) (hended : Ended w strides) (hpc : w.pc = .verdict payload) :
    Delivers w strides payload := by
  intro hsuccess
  have houtcome := htallied.verdict payload hpc
  cases hwins : w.wins with
  | nil =>
      have hcomplaints : w.complaints = w.errors := if_neg (by rw [hpc]; simp [Pc.fanning])
      have herrors := htallied.failures (.inr hwins)
      rw [hcomplaints, List.nil_append] at herrors
      rw [Worker.outcome, hwins] at houtcome
      refine absurd (houtcome ▸ hsuccess) (not_success_finalError ?_)
      intro e he
      rw [herrors] at he
      obtain ⟨a, ha, rfl⟩ := List.mem_map.mp he
      exact not_success_complaint (by simpa using (List.mem_filter.mp ha).2)
  | cons win rest =>
      rw [Worker.outcome, hwins] at houtcome
      have hfilter := htallied.wins
      rw [hwins] at hfilter
      obtain ⟨before, after, hanswers, hfirst, -, -⟩ := List.filter_eq_cons_iff.mp hfilter.symm
      refine ⟨before, win.1, after, ?_, ?_, ?_⟩
      · rw [hanswers, houtcome]
      · intro a ha
        simpa using hfirst a ha
      · intro hprobe
        obtain ⟨quiet, last, hsplit, hquiet, hlength, -⟩ := hended.split hprobe
        -- Only the last answer may end the request, and a success comes after these.
        have hlengths := congrArg List.length (hanswers.symm.trans hsplit)
        rw [List.length_append, List.length_append, List.length_cons] at hlengths
        have hinside : before <+: quiet := by
          apply List.prefix_of_prefix_length_le ⟨win :: after, hanswers.symm⟩ ⟨last, hsplit.symm⟩
          omega
        intro a ha
        exact (hquiet a (hinside.subset ha)).2

theorem turn_probe {s : State} {r : RequestId} {w w' : Worker} {act : Act}
    (h : Turn s r w w' act) : w.pc = .plan ∨ w'.probe = w.probe := by
  cases h with
  | plan hpc => exact .inl hpc
  | take =>
      refine .inr ?_
      unfold Worker.poll
      repeat' split
      all_goals rfl
  | judge =>
      refine .inr ?_
      unfold Worker.judge
      repeat' split
      all_goals rfl
  | _ => exact .inr rfl

theorem handling_start (channel number : UInt32) (data : Bytes) :
    Handling {channel, number, data} [] where
  decided := ⟨fun _ => rfl, by simp⟩
  tallied := ⟨rfl, fun _ => rfl, by simp⟩
  ended := ⟨fun _ => rfl, by simp [takes], by simp [takes], by simp⟩
  reporting := by simp [Reporting, Beats, reported]

theorem Handling.lock {w : Worker} {strides : List Stride} (h : Handling w strides)
    (locked : Bool) : Handling {w with locked := locked} strides where
  decided := h.decided.lock locked
  tallied := h.tallied.lock locked
  ended := h.ended.lock locked
  reporting := h.reporting

/-- A step that writes no report, and after which the reply stands as before. -/
theorem Gives.snoc {w w' : Worker} {strides : List Stride} {rest : List Bytes} {x : Stride}
    (h : Gives w strides rest) (hx : x.act.reported = none) (hchannel : w'.channel = w.channel)
    (hmore : ∀ {payload}, Delivers w strides payload → Delivers w' (strides ++ [x]) payload) :
    Gives w' (strides ++ [x]) rest := by
  obtain ⟨beats, begun, payload, hreported, hbeats, hreply, hdelivers⟩ := h
  refine ⟨beats, begun, payload, ?_, ?_, ?_, hmore hdelivers⟩
  · rw [reported_snoc, hx, hreported]
    exact List.append_nil _
  · rw [hchannel]
    exact hbeats
  · rw [hchannel]
    exact hreply

theorem Reporting.turn {s : State} {r : RequestId} {w w' : Worker} {act : Act}
    {strides : List Stride} (h : Reporting w strides) (hturn : Turn s r w w' act)
    (hverdict : ∀ payload, w.pc = .verdict payload → Delivers w strides payload)
    (hmore : ∀ {payload}, Delivers w strides payload →
      Delivers w' (strides ++ [⟨w, s, act⟩]) payload) :
    Reporting w' (strides ++ [⟨w, s, act⟩]) := by
  have hchannel := (turn_request hturn).channel
  -- Before the verdict there are KEEPALIVE messages only.
  have hearly (hbefore : w.pc.Early) (hafter : w'.pc.Early) (hact : ∀ bytes ∈ act.reported,
      bytes ∈ reply w.channel KEEPALIVE [2]) : Reporting w' (strides ++ [⟨w, s, act⟩]) := by
    rw [reporting_early hbefore] at h
    rw [reporting_early hafter, hchannel, reported_snoc]
    intro b hb
    rcases List.mem_append.mp hb with hold | hnew
    · exact h b hold
    · exact hact b (Option.mem_toList.mp hnew)
  cases hturn with
  | beat hpc =>
      refine hearly (by rw [hpc]; trivial) trivial ?_
      intro bytes hbytes
      cases hbytes
      rw [reply_keepalive]
      exact List.mem_singleton_self _
  | take hpc => exact hearly (by rw [hpc]; trivial) (poll_early ..).1 (by simp [Act.reported])
  | judge hpc =>
      refine hearly (by rw [hpc]; trivial) (judge_early ..).1 ?_
      intro bytes hbytes
      cases hact : (w.judge fun l => (s.link l).device).2 with
      | report bytes => exact absurd hact (judge_ne_report bytes)
      | _ => simp [hact, Act.reported] at hbytes
  | @swept heard hpc =>
      refine hearly (by rw [hpc]; trivial) ?_ (by simp [Act.reported])
      cases heard <;> trivial
  | emptyRound hpc =>
      exact hearly (by rw [hpc]; trivial) (by simp [hpc, Pc.Early]) (by simp [Act.reported])
  | @current payload hpc =>
      rw [reporting_early (by rw [hpc]; trivial)] at h
      refine ⟨reported strides, [], payload, ?_, h, rfl, hmore (hverdict payload hpc)⟩
      rw [reported_snoc]
      rfl
  | stale hpc =>
      rw [reporting_early (by rw [hpc]; trivial)] at h
      refine .inl ?_
      rw [reported_snoc]
      simpa [Act.reported] using h
  | @report first rest hpc =>
      simp only [Reporting, hpc] at h
      obtain ⟨beats, begun, payload, hreported, hbeats, hreply, hdelivers⟩ := h
      refine ⟨beats, begun ++ [first], payload, ?_, hbeats, ?_, hmore hdelivers⟩
      · rw [reported_snoc, hreported, List.append_assoc]
        rfl
      · rw [List.append_assoc]
        exact hreply
  | reported hpc =>
      simp only [Reporting, hpc] at h
      exact .inr (h.snoc rfl rfl hmore)
  | finish hpc =>
      simp only [Reporting, hpc] at h
      refine h.imp (fun hbeats => ?_) fun hgives => hgives.snoc rfl rfl hmore
      rw [reported_snoc]
      simpa [Act.reported] using hbeats
  | _ hpc => exact hearly (by rw [hpc]; trivial) trivial (by simp [Act.reported])

theorem Handling.turn {s : State} {r : RequestId} {w w' : Worker} {act : Act}
    {strides : List Stride} (h : Handling w strides) (hturn : Turn s r w w' act) :
    Handling w' (strides ++ [⟨w, s, act⟩]) where
  decided := h.decided.turn hturn
  tallied := h.tallied.turn h.decided hturn
  ended := h.ended.turn hturn
  reporting := by
    refine h.reporting.turn hturn (fun payload => delivers_verdict h.tallied h.ended) ?_
    intro payload hdelivers
    exact hdelivers.snoc h.ended.fresh (turn_request hturn).number (turn_probe hturn) _

theorem Handling.handled {w : Worker} {strides : List Stride} (h : Handling w strides) :
    Handled w strides where
  reported := by
    have hreporting := h.reporting
    unfold Reporting at hreporting
    split at hreporting
    · exact .inr ⟨_, hreporting⟩
    · exact hreporting.imp_right fun hgives => ⟨_, hgives⟩
    · exact hreporting.imp_right fun hgives => ⟨_, hgives⟩
    · exact .inl hreporting
  complete := by
    have hreporting := h.reporting
    rintro (hpc | hpc) <;> simpa only [Reporting, hpc] using hreporting
  refused before x after a hstrides htaken hnumber hdenied :=
    h.ended.asked before x after hstrides ⟨a, htaken, hnumber, .inr hdenied⟩

theorem handling_run {r : RequestId} {channel number : UInt32} {data : Bytes}
    {x : Worker × List Stride} (hrun : Reach (works r) always ({channel, number, data}, []) x) :
    Handling x.1 x.2 := by
  refine Reach.invariant (I := fun x => Handling x.1 x.2) (handling_start channel number data) ?_ hrun
  intro x e y hx _ hnext
  rcases works_cases hnext with ⟨locked, rfl⟩ | ⟨s, ok, w, act, hturn, rfl⟩
  · exact hx.lock locked
  · exact hx.turn (turn_cases hturn)

/-- Whatever a worker meets: when `fan_out` returns, each link that was sent the
REQ frame won, failed or was withdrawn from, once; and `handle_cbor` gives one
reply at most, with a success only if this was the first and no refusal came
before it, and asks nobody after a refusal. -/
theorem fan_out_accounts (r : RequestId) :
    (∀ (w : Worker) (targets : List LinkId), targets.Nodup → ∀ (w' : Worker) (strides : List Stride),
      Reach (works r) InFanOut (w.fanOut targets, []) (w', strides) → w'.pc = .judge →
        FannedOut r w' strides) ∧
    ∀ (channel number : UInt32) (data : Bytes) (w : Worker) (strides : List Stride),
      Reach (works r) always ({channel, number, data}, []) (w, strides) → Handled w strides := by
  constructor
  · intro w targets htargets w' strides hrun hpc
    exact (fanning_run htargets hrun).returned hpc htargets
  · intro channel number data w strides hrun
    exact (handling_run hrun).handled

/-- A link where the answer to request 7 has come. -/
def approved : State :=
  {link := fun _ => {responses := [(7, [0, 5])]}, created := 1, links := [0], busy := some 0}

/-- Two links of which only the first can be reached; it approves. And a whole
request, which is answered with what the link said. -/
theorem accounted_one : (∃ w strides, Reach (works 0) InFanOut
      (({channel := 1, number := 7, data := [2], deadline := 1} : Worker).fanOut [0, 1], [])
      (w, strides) ∧ FannedOut 0 w strides ∧ w.wins = [(0, [0, 5])] ∧ sentTo strides = [0]) ∧
    ∃ w strides, Reach (works 0) always ({channel := 1, number := 7, data := [2]}, [])
      (w, strides) ∧ Handled w strides ∧ reported strides = reply 1 CBOR [0, 5] := by
  constructor
  · have hrun := @reach_of_replay _ _ (works 0) InFanOut _
      (({channel := 1, number := 7, data := [2], deadline := 1} : Worker).fanOut [0, 1], []) _
      [.turn approved true, .turn approved false, .turn approved true, .turn approved true,
        .turn approved true, .turn approved true, .turn approved true, .turn approved true,
        .turn approved true, .turn approved true] rfl
    exact ⟨_, _, hrun, (fan_out_accounts 0).1 _ [0, 1] (by decide) _ _ hrun rfl, rfl, rfl⟩
  · have hrun : ((replay (works 0) always ({channel := 1, number := 7, data := [2]}, [])
        (List.replicate 17 (.turn approved true))).any fun x =>
          reported x.2 = reply 1 CBOR [0, 5]) = true := by
      decide +kernel
    obtain ⟨⟨w, strides⟩, hreplay, hreported⟩ := (Option.any_eq_true ..).mp hrun
    have hreach := reach_of_replay hreplay
    exact ⟨w, strides, hreach, (fan_out_accounts 0).2 1 7 [2] w strides hreach,
      of_decide_eq_true hreported⟩

end Passkey.Daemon

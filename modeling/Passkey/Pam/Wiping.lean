import Passkey.Pam.Approval

/-!
Who owns the answer of the password prompt. The prompt's thread passes it to
the loop as a message, and whoever has it last wipes it: the loop where it
takes the message, or the thread if the receiver is gone. A message that comes
after the loop's last look is dropped with the receiver, and its answer is not
wiped.
-/

namespace Passkey.Pam

open Library

/-- The answers that `pam_prompt` returned. -/
def answers (seen : List Seen) : List Bytes :=
  seen.filterMap fun
    | .prompted r => r.answer
    | _ => none

/-- The answers that were passed to `wipe`. -/
def wipes (seen : List Seen) : List Bytes :=
  seen.filterMap fun
    | .wiped answer => some answer
    | _ => none

/-- The answer in the message that nobody took yet. -/
def State.held (s : State) : List Bytes :=
  (s.channel.bind (·.answer)).toList

/-- A step of the thread that called `authenticate`. -/
def Event.own : Event → Bool
  | .receive .. | .poll .. | .settle | .leave => true
  | _ => false

/-- How many steps of the loop there are up to its next look at the channel. -/
def State.turns (s : State) : Nat :=
  match s.pc with
  | .receive | .settle | .leave => 1
  | .poll => 2
  | .returned _ => 0

structure WipeLaw (s : State) : Prop where
  /-- Each answer was wiped once, or it is still in the channel. -/
  owned : wipes s.seen ++ s.held = answers s.seen
  /-- The channel is empty once the call returned. -/
  disposed : ∀ code, s.pc = .returned code → s.held = []
  /-- The loop can go on while it has a message, and each of its steps takes
  the message or brings it closer to that. -/
  able : s.held ≠ [] → ∃ e t, e.own ∧ next s e = some t
  attended : s.held ≠ [] → ∀ e t, e.own → next s e = some t →
    t.held = [] ∨ t.held = s.held ∧ t.turns < s.turns

/-- The loop is not left with an answer in the channel. -/
def Drained (s : State) (e : Event) : Prop :=
  e = .leave → s.held = []

instance (s : State) (e : Event) : Decidable (Drained s e) :=
  inferInstanceAs (Decidable (_ → _))

/-! ### What one step does with the answer -/

section Seen

variable (seen more : List Seen)

@[simp] theorem answers_append : answers (seen ++ more) = answers seen ++ answers more :=
  List.filterMap_append

@[simp] theorem wipes_append : wipes (seen ++ more) = wipes seen ++ wipes more :=
  List.filterMap_append

@[simp] theorem answers_prompted (r : PromptResult) : answers [.prompted r] = r.answer.toList := by
  rcases r with ⟨status, answer⟩
  cases answer <;> rfl

@[simp] theorem wipe_answers (s : State) (answer : Option Bytes) :
    answers (s.wipe answer).seen = answers s.seen := by
  cases answer with
  | none => rfl
  | some text => simp [State.wipe, answers]

@[simp] theorem wipe_wipes (s : State) (answer : Option Bytes) :
    wipes (s.wipe answer).seen = wipes s.seen ++ answer.toList := by
  cases answer with
  | none => simp [State.wipe]
  | some text => simp [State.wipe, wipes]

@[simp] theorem wipe_prompter (s : State) (answer : Option Bytes) :
    (s.wipe answer).prompter = s.prompter := by
  cases answer <;> rfl

@[simp] theorem wipe_channel (s : State) (answer : Option Bytes) :
    (s.wipe answer).channel = s.channel := by
  cases answer <;> rfl

@[simp] theorem wipes_prompted (r : PromptResult) : wipes [.prompted r] = [] := rfl

@[simp] theorem send_answers (s : State) (r : PromptResult) :
    answers (s.send r).seen = answers s.seen ++ r.answer.toList :=
  (answers_append s.seen [.prompted r]).trans (by rw [answers_prompted])

@[simp] theorem send_wipes (s : State) (r : PromptResult) :
    wipes (s.send r).seen = wipes s.seen :=
  (wipes_append s.seen [.prompted r]).trans (List.append_nil _)

@[simp] theorem take_answers (s : State) (r : PromptResult) :
    answers (s.take r).seen = answers s.seen :=
  (answers_append s.seen [.received r]).trans (List.append_nil _)

@[simp] theorem take_wipes (s : State) (r : PromptResult) :
    wipes (s.take r).seen = wipes s.seen :=
  (wipes_append s.seen [.received r]).trans (List.append_nil _)

@[simp] theorem setItem_answers (answer : Bytes) (status result : Int) :
    answers [.setItem answer status result] = [] := rfl

@[simp] theorem setItem_wipes (answer : Bytes) (status result : Int) :
    wipes [.setItem answer status result] = [] := rfl

end Seen

/-- The helper that the loop reads from has a pipe. -/
def State.Piped (s : State) : Prop :=
  ∀ active, s.ask = some active → active.helper < s.pipes.length

/-- A step that leaves the prompt and its answer as they are. -/
structure Aside (s t : State) : Prop where
  channel : t.channel = s.channel
  prompter : t.prompter = s.prompter
  prompting : t.prompting = s.prompting
  answers : answers t.seen = answers s.seen
  wipes : wipes t.seen = wipes s.seen
  piped : s.Piped → t.Piped

/-- A step that takes the message and wipes its answer. -/
structure Takes (s t : State) (r : PromptResult) : Prop where
  held : s.channel = some r
  channel : t.channel = none
  prompter : t.prompter = s.prompter
  answers : answers t.seen = answers s.seen
  wipes : wipes t.seen = wipes s.seen ++ r.answer.toList
  piped : s.Piped → t.Piped
  inside : ∀ code, t.pc ≠ .returned code

inductive Move (s : State) (e : Event) (t : State) : Prop where
  | aside (h : Aside s t) (hpc : ∀ code, t.pc = .returned code → s.pc = .returned code)
      (hturn : e.own → s.channel ≠ none → s.prompting = true → t.turns < s.turns)
  | sends {r : PromptResult} (hprompter : s.prompter = true)
      (hpc : ∀ code, s.pc ≠ .returned code) (he : e.own = false)
      (ht : t = {s.send r with channel := some r})
  | fails {r : PromptResult} {code : Int} (hprompter : s.prompter = true)
      (hpc : s.pc = .returned code) (he : e.own = false) (ht : t = (s.send r).wipe r.answer)
  | takes {r : PromptResult} (h : Takes s t r)
  | leaves (he : e = .leave) (hpc : s.pc = .leave)
      (ht : t = {s with ask := none, channel := none, pc := .returned s.result})

theorem startAsk_piped (s : State) (ok : Bool) (now : Nat) : (s.startAsk ok now).Piped := by
  intro active hactive
  cases ok with
  | false => simp [State.startAsk] at hactive
  | true =>
      simp only [State.startAsk, ↓reduceIte, Option.some.injEq] at hactive ⊢
      simp [← hactive]

theorem move_promptReturns {s t : State} {r : PromptResult} (h : s.promptReturns r = some t) :
    Move s (.promptReturns r) t := by
  unfold State.promptReturns at h
  split at h
  · cases h
  · rename_i hprompter
    have hprompter : s.prompter = true := by simpa using hprompter
    split at h
    · rename_i code hpc
      cases h
      exact .fails hprompter hpc rfl rfl
    · rename_i hpc
      cases h
      exact .sends hprompter hpc rfl rfl

/-- A step of a helper. -/
theorem move_helper {s : State} {e : Event} {pipes : List Pipe} {more : List Seen}
    (he : e.own = false) (hpipes : pipes.length = s.pipes.length)
    (hanswers : answers more = []) (hwipes : wipes more = []) :
    Move s e {s.note more with pipes := pipes} := by
  refine .aside ⟨rfl, rfl, rfl, ?_, ?_, ?_⟩ (fun _ hpc => hpc) (fun hown => ?_)
  · simp [hanswers]
  · simp [hwipes]
  · intro hpiped active hactive
    exact hpipes ▸ hpiped active hactive
  · rw [he] at hown
    cases hown

theorem emptyAnswer_keeps (s : State) (started : Bool) (now : Nat) :
    (s.emptyAnswer started now).channel = s.channel ∧
      (s.emptyAnswer started now).prompter = s.prompter ∧
      answers (s.emptyAnswer started now).seen = answers s.seen ∧
      wipes (s.emptyAnswer started now).seen = wipes s.seen ∧
      (s.Piped → (s.emptyAnswer started now).Piped) := by
  unfold State.emptyAnswer
  split
  · cases started with
    | false => exact ⟨rfl, rfl, rfl, rfl, fun _ => startAsk_piped s false now⟩
    | true =>
        refine ⟨rfl, rfl, ?_, ?_, fun _ => startAsk_piped s true now⟩
        · simp [State.startAsk, answers]
        · simp [State.startAsk, wipes]
  · exact ⟨rfl, rfl, rfl, rfl, fun h => h⟩

/-- The four ways to take the prompt's message all wipe its answer. -/
theorem move_receive (s : State) (setItem : Int) (started : Bool) (now : Nat) :
    Move s (.receive setItem started now) (s.receive setItem started now) := by
  have hfailed {r : PromptResult} (hheld : s.channel = some r) :
      Takes s ((s.take r).promptFailed r) r := by
    refine ⟨hheld, ?_, ?_, ?_, ?_, ?_, ?_⟩
    · exact wipe_channel ..
    · exact wipe_prompter ..
    · simp [State.promptFailed]
    · simp [State.promptFailed]
    · intro hpiped active hactive
      simp only [State.promptFailed, wipe_ask, wipe_pipes] at hactive ⊢
      exact hpiped active hactive
    · simp [State.promptFailed]
  unfold State.receive
  split
  · rename_i r _ hheld
    split
    · exact .takes (hfailed hheld)
    · rename_i answer hanswer
      split
      · exact .takes (hfailed hheld)
      · split
        · refine .takes ⟨hheld, rfl, rfl, ?_, ?_, fun hpiped => hpiped, fun code => ?_⟩
          · simp [State.storePassword]
          · simp [State.storePassword, hanswer]
          · simp [State.storePassword]
        · obtain ⟨hchannel, hprompter, hanswers, hwipes, hpiped⟩ :=
            emptyAnswer_keeps ((s.take r).wipe (some answer)) started now
          refine .takes ⟨hheld, hchannel, hprompter, ?_, ?_, hpiped, fun code => ?_⟩
          · dsimp only
            rw [hanswers, wipe_answers, take_answers]
          · dsimp only
            rw [hwipes, wipe_wipes, take_wipes, hanswer]
          · dsimp only
            split <;> simp
  · rename_i hnone
    refine .aside ⟨rfl, rfl, rfl, rfl, rfl, fun hpiped => hpiped⟩ (fun _ hcode => ?_)
      (fun _ hchannel hprompting => ?_)
    · cases hcode
    · obtain ⟨r, hr⟩ := Option.ne_none_iff_exists'.mp hchannel
      exact absurd hr (hnone r hprompting)

theorem hear_aside (s : State) (helper : Nat) (byte : Option UInt8) (after : Pipe) :
    Aside s (s.hear helper byte after) := by
  refine ⟨rfl, rfl, rfl, ?_, ?_, ?_⟩
  · cases byte <;> simp [State.hear, answers]
  · cases byte <;> simp [State.hear, wipes]
  · intro hpiped active hactive
    simp only [State.hear, List.length_set]
    exact hpiped active hactive

/-- While the prompt is open the loop goes on to look at the channel. -/
theorem move_poll {s t : State} (hpc : s.pc = .poll) {io : Poll} {now : Nat}
    (h : s.poll io now = some t) : Move s (.poll io now) t := by
  have hturns : s.turns = 2 := by
    unfold State.turns
    rw [hpc]
  have hgo {u : State} (hu : Aside s u) (hcode : ∀ code, u.pc ≠ .returned code)
      (hprompting : s.prompting = true → u.pc = .receive ∨ u.pc = .settle) :
      Move s (.poll io now) u := by
    refine .aside hu (fun code heq => absurd heq (hcode code)) fun _ _ hopen => ?_
    rw [hturns]
    unfold State.turns
    rcases hprompting hopen with heq | heq
    all_goals
      rw [heq]
      exact Nat.one_lt_two
  unfold State.poll at h
  split at h
  · cases h
    refine hgo ⟨rfl, rfl, rfl, rfl, rfl, fun hpiped => hpiped⟩ (fun code => ?_) fun hopen => ?_
    · dsimp only
      split <;> simp
    · simp [hopen]
  · rename_i active hask
    obtain ⟨pipe, hpipe, h⟩ := Option.bind_eq_some_iff.mp h
    obtain ⟨⟨answer, byte, after⟩, hanswer, rfl⟩ := Option.map_eq_some_iff.mp h
    have hheard := hear_aside s active.helper byte after
    have hdone {u : State} (hask : u.ask = none) (hchannel : u.channel = s.channel)
        (hprompter : u.prompter = s.prompter) (hprompting : u.prompting = s.prompting)
        (hseen : u.seen = (s.hear active.helper byte after).seen) : Aside s u := by
      refine ⟨hchannel, hprompter, hprompting, ?_, ?_, fun _ other hother => ?_⟩
      · rw [hseen, hheard.answers]
      · rw [hseen, hheard.wipes]
      · rw [hask] at hother
        cases hother
    have hgiveUp : Move s (.poll io now) (s.hear active.helper byte after).giveUp := by
      refine hgo (hdone rfl rfl rfl rfl rfl) (fun code => ?_) fun hopen => .inl ?_
      · simp only [State.giveUp]
        split <;> simp
      · exact if_pos hopen
    dsimp only
    split
    · refine hgo (hdone rfl rfl rfl rfl rfl) (fun code => ?_) fun hopen => .inr ?_
      · simp only [State.approve]
        split <;> simp
      · exact if_pos hopen
    · exact hgiveUp
    · split
      · exact hgiveUp
      · refine hgo ⟨rfl, rfl, rfl, hheard.answers, hheard.wipes, hheard.piped⟩ ?_ fun _ => .inl rfl
        simp
    · exact hgo (hdone rfl rfl rfl rfl rfl) (by simp) fun _ => .inl rfl

theorem move_settle (s : State) : Move s .settle s.settle := by
  unfold State.settle
  split
  · rename_i r hheld
    refine .takes ⟨hheld, rfl, ?_, ?_, ?_, fun hpiped active hactive => ?_, fun code => ?_⟩
    · simp
    · simp
    · simp
    · simp only [wipe_ask, wipe_pipes] at hactive ⊢
      exact hpiped active hactive
    · simp
  · rename_i hnone
    refine .aside ⟨rfl, rfl, rfl, rfl, rfl, fun hpiped => hpiped⟩ (fun _ hcode => ?_)
      fun _ hchannel => absurd hnone hchannel
    cases hcode

theorem move_of_next {s t : State} {e : Event} (h : next s e = some t) : Move s e t := by
  cases e with
  | promptReturns r => exact move_promptReturns h
  | helperWrites helper byte =>
      obtain ⟨pipe, hpipe, h⟩ := Option.bind_eq_some_iff.mp h
      obtain ⟨-, heq⟩ := Option.ite_none_left_eq_some.mp h
      cases heq
      exact move_helper rfl (List.length_set ..) rfl rfl
  | helperCloses helper =>
      obtain ⟨pipe, hpipe, rfl⟩ := Option.map_eq_some_iff.mp h
      have hmove : Move s (.helperCloses helper)
          {s.note [] with pipes := s.pipes.set helper {pipe with closed := true}} :=
        move_helper rfl (List.length_set ..) rfl rfl
      simpa [State.note] using hmove
  | receive setItem started now =>
      obtain ⟨-, heq⟩ := Option.ite_none_right_eq_some.mp h
      cases heq
      exact move_receive ..
  | poll io now =>
      obtain ⟨hpc, heq⟩ := Option.ite_none_right_eq_some.mp h
      exact move_poll hpc heq
  | settle =>
      obtain ⟨-, heq⟩ := Option.ite_none_right_eq_some.mp h
      cases heq
      exact move_settle s
  | leave =>
      obtain ⟨hpc, heq⟩ := Option.ite_none_right_eq_some.mp h
      cases heq
      exact .leaves rfl hpc rfl

/-! ### The invariant -/

/-- The prompt's thread sends once, and the loop takes a message once. -/
structure Handing (s : State) : Prop where
  owned : wipes s.seen ++ s.held = answers s.seen
  awaited : s.prompter = true → s.channel = none
  prompting : s.prompter = true ∨ s.channel ≠ none → s.prompting = true
  returned : ∀ code, s.pc = .returned code → s.channel = none
  piped : s.Piped

theorem held_none {s : State} (h : s.channel = none) : s.held = [] := by
  rw [State.held, h]
  rfl

theorem held_some {s : State} {r : PromptResult} (h : s.channel = some r) :
    s.held = r.answer.toList := by
  rw [State.held, h]
  rfl

theorem channel_of_held {s : State} (h : s.held ≠ []) : s.channel ≠ none := by
  intro hnone
  exact h (held_none hnone)

theorem handing_authenticate (call : Call) (entry : Entry) :
    Handing (authenticate call entry) := by
  unfold authenticate
  cases call.proceed with
  | none =>
      exact ⟨rfl, fun _ => rfl, fun _ => rfl, fun _ _ => rfl, by simp [State.Piped, State.idle]⟩
  | some o =>
      dsimp only
      split
      · refine ⟨?_, ?_, fun _ => rfl, by simp [State.idle], by simp [State.Piped, State.idle]⟩
        · rw [held_some rfl]
          simp [State.idle]
        · simp
      · have hpiped := startAsk_piped (State.idle false) entry.started entry.now
        cases hstarted : entry.started with
        | false =>
            rw [hstarted] at hpiped
            exact ⟨rfl, fun _ => rfl, fun _ => rfl, fun _ _ => rfl, hpiped⟩
        | true =>
            rw [hstarted] at hpiped
            exact ⟨rfl, fun _ => rfl, fun _ => rfl, fun _ _ => rfl, hpiped⟩

theorem Handing.step {s t : State} {e : Event} (h : Handing s) (hok : Drained s e)
    (hmove : Move s e t) : Handing t := by
  cases hmove with
  | aside haside hpc hturn =>
      have hheld : t.held = s.held := by
        rw [State.held, haside.channel]
        rfl
      refine ⟨?_, ?_, ?_, fun code hcode => ?_, haside.piped h.piped⟩
      · rw [haside.wipes, haside.answers, hheld]
        exact h.owned
      · rw [haside.prompter, haside.channel]
        exact h.awaited
      · rw [haside.prompter, haside.channel, haside.prompting]
        exact h.prompting
      · rw [haside.channel]
        exact h.returned code (hpc code hcode)
  | @sends r hprompter hpc he ht =>
      subst ht
      have howned := h.owned
      rw [held_none (h.awaited hprompter), List.append_nil] at howned
      refine ⟨?_, fun hnot => ?_, fun _ => h.prompting (.inl hprompter),
        fun code hcode => absurd hcode (hpc code), h.piped⟩
      · rw [held_some rfl, send_wipes, send_answers, howned]
      · cases hnot
  | @fails r code hprompter hpc he ht =>
      subst ht
      have hnone : s.channel = none := h.returned code hpc
      have hchannel : ((s.send r).wipe r.answer).channel = none := (wipe_channel ..).trans hnone
      have howned := h.owned
      rw [held_none hnone, List.append_nil] at howned
      refine ⟨?_, fun _ => hchannel, ?_, fun _ _ => hchannel, ?_⟩
      · rw [held_none hchannel, wipe_wipes, wipe_answers, send_wipes, send_answers, howned,
          List.append_nil]
      · rintro (hprompter | hsome)
        · rw [wipe_prompter] at hprompter
          cases hprompter
        · exact absurd hchannel hsome
      · intro active hactive
        rw [wipe_ask] at hactive
        rw [wipe_pipes]
        exact h.piped active hactive
  | @takes r htakes =>
      refine ⟨?_, fun _ => htakes.channel, ?_, fun _ _ => htakes.channel, htakes.piped h.piped⟩
      · rw [held_none htakes.channel, htakes.wipes, htakes.answers, List.append_nil,
          ← held_some htakes.held]
        exact h.owned
      · rintro (hprompter | hsome)
        · have hnone := h.awaited (htakes.prompter ▸ hprompter)
          rw [htakes.held] at hnone
          cases hnone
        · exact absurd htakes.channel hsome
  | leaves he hpc ht =>
      subst ht
      have howned := h.owned
      rw [hok he] at howned
      refine ⟨howned, fun _ => rfl, ?_, fun _ _ => rfl, fun active hactive => ?_⟩
      · rintro (hprompter | hsome)
        · exact h.prompting (.inl hprompter)
        · exact absurd rfl hsome
      · cases hactive

/-! ### The law -/

theorem Handing.able {s : State} (h : Handing s) (hheld : s.held ≠ []) :
    ∃ e t, e.own = true ∧ next s e = some t := by
  cases hpc : s.pc with
  | receive => exact ⟨.receive 0 false 0, _, rfl, if_pos hpc⟩
  | poll =>
      have hpoll : ∃ t, s.poll .notReady 0 = some t := by
        unfold State.poll
        split
        · exact ⟨_, rfl⟩
        · rename_i active hask
          rw [List.getElem?_eq_getElem (h.piped active hask)]
          exact ⟨_, rfl⟩
      obtain ⟨t, ht⟩ := hpoll
      exact ⟨.poll .notReady 0, t, rfl, (if_pos hpc).trans ht⟩
  | settle => exact ⟨.settle, _, rfl, if_pos hpc⟩
  | leave => exact ⟨.leave, _, rfl, if_pos hpc⟩
  | returned code => exact absurd (h.returned code hpc) (channel_of_held hheld)

theorem Handing.attended {s t : State} {e : Event} (h : Handing s) (hheld : s.held ≠ [])
    (hown : e.own = true) (hmove : Move s e t) :
    t.held = [] ∨ t.held = s.held ∧ t.turns < s.turns := by
  have hchannel := channel_of_held hheld
  cases hmove with
  | aside haside hpc hturn =>
      refine .inr ⟨?_, hturn hown hchannel (h.prompting (.inr hchannel))⟩
      rw [State.held, haside.channel]
      rfl
  | sends hprompter hpc he ht =>
      rw [he] at hown
      cases hown
  | fails hprompter hpc he ht =>
      rw [he] at hown
      cases hown
  | takes htakes => exact .inl (held_none htakes.channel)
  | leaves he hpc ht => exact .inl (ht ▸ rfl)

theorem Handing.law {s : State} (h : Handing s) : WipeLaw s where
  owned := h.owned
  disposed code hpc := held_none (h.returned code hpc)
  able := h.able
  attended hheld _ _ hown hnext := h.attended hheld hown (move_of_next hnext)

/-- A receiver that is dropped with an answer loses it. -/
theorem drained_of_law {s t : State} {e : Event} (h : Handing s) (hnext : next s e = some t)
    (hlaw : WipeLaw t) : Drained s e := by
  rintro rfl
  obtain ⟨-, heq⟩ := Option.ite_none_right_eq_some.mp hnext
  cases heq
  have hafter := hlaw.owned
  rw [held_none rfl, List.append_nil] at hafter
  exact List.append_right_eq_self.mp (h.owned.trans hafter.symm)

/-- In every run in which the loop is never left with an answer in the channel,
each answer of the prompt is wiped exactly once; the step that leaves the loop
so is the only one that breaks this. -/
theorem wipe_law (call : Call) (entry : Entry) {s : State}
    (h : Reach next Drained (authenticate call entry) s) :
    WipeLaw s ∧ ∀ e t, next s e = some t → (WipeLaw t ↔ Drained s e) := by
  have hhanding : Handing s :=
    h.invariant (handing_authenticate call entry)
      fun _ _ _ ht hok hnext => ht.step hok (move_of_next hnext)
  refine ⟨hhanding.law, fun e t hnext => ⟨drained_of_law hhanding hnext, fun hok => ?_⟩⟩
  exact (hhanding.step hok (move_of_next hnext)).law

/-- What the user types at the prompt. -/
def typed : PromptResult :=
  ⟨pamSuccess, some [115, 101, 99, 114, 101, 116]⟩

/-- The phone approves, and the prompt returns during the second that the loop
waits for it. -/
def settledEvents : List Event :=
  [.receive 0 false 0, .helperWrites 0 yes, .poll .ready 0, .promptReturns typed, .settle, .leave]

theorem settled_wiped : ∃ s,
    Reach next Drained (authenticate parallelCall ⟨true, 0, ⟨0, none⟩⟩) s ∧
      s.pc = .returned pamSuccess ∧ WipeLaw s := by
  obtain ⟨s, hrun, hpc⟩ : ∃ s,
      replay next Drained (authenticate parallelCall ⟨true, 0, ⟨0, none⟩⟩) settledEvents =
        some s ∧ s.pc = .returned pamSuccess := ⟨_, rfl, rfl⟩
  have hreach := reach_of_replay hrun
  exact ⟨s, hreach, hpc, (wipe_law _ _ hreach).1⟩

/-- The same, but the prompt returns when the second is over. -/
def overdueEvents : List Event :=
  [.receive 0 false 0, .helperWrites 0 yes, .poll .ready 0, .settle, .promptReturns typed, .leave]

theorem overdue_unwiped : ∃ s,
    Reach next always (authenticate parallelCall ⟨true, 0, ⟨0, none⟩⟩) s ∧ ¬ WipeLaw s := by
  obtain ⟨s, hrun, hwipes, hanswers, hchannel⟩ : ∃ s,
      replay next always (authenticate parallelCall ⟨true, 0, ⟨0, none⟩⟩) overdueEvents =
        some s ∧ wipes s.seen = [] ∧ answers s.seen = typed.answer.toList ∧ s.channel = none :=
    ⟨_, rfl, rfl, rfl, rfl⟩
  refine ⟨s, reach_of_replay hrun, fun hlaw => ?_⟩
  have howned := hlaw.owned
  rw [hwipes, held_none hchannel, hanswers] at howned
  cases howned

end Passkey.Pam

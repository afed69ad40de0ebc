import Passkey.Library.Fairness
import Passkey.Pam.Wiping

/-!
When `authenticate` returns. Its loop waits for the prompt and for a helper at
once; the prompt has no deadline, a helper has. So the call comes back exactly
where the prompt does or a helper approves, and on the way it asks the device
at most twice: once while the prompt is open, once more after Enter.
-/

namespace Passkey.Pam

open Library

/-! ### What a step does to the loop -/

/-- An entry that neither starts a helper nor reads an approval. -/
def Seen.Mute : Seen → Prop
  | .started _ => False
  | .read _ byte => byte ≠ yes
  | _ => True

/-- The same, of the loop or the prompt. -/
def Seen.Plain : Seen → Prop
  | .started _ | .wrote .. => False
  | .read _ byte => byte ≠ yes
  | _ => True

theorem mute_of_plain {more : List Seen} (h : ∀ x ∈ more, x.Plain) : ∀ x ∈ more, x.Mute := by
  intro x hx
  have hplain := h x hx
  cases x with
  | started => exact hplain
  | read => exact hplain
  | _ => trivial

/-- Still in the loop. -/
def Pc.looping : Pc → Bool
  | .receive | .poll => true
  | _ => false

/-- What is left to the loop once the prompt's message is taken. -/
abbrev State.heard (s : State) : State :=
  {s with prompting := false, channel := none}

/-- What one step does, with the entries it adds. -/
inductive Turned (s : State) (e : Event) (t : State) : Prop where
  /-- A step of the prompt's thread or of a helper. -/
  | aside (more : List Seen) (he : e.own = false)
      (ht : t = {s with
        prompter := t.prompter, channel := t.channel, pipes := t.pipes, seen := s.seen ++ more})
      (hmore : ∀ x ∈ more, x.Mute)
      (hwrote : ∀ helper byte, .wrote helper byte ∈ more → e = .helperWrites helper byte)
      (hpipes : t.pipes.length = s.pipes.length)
      (hprompt : t.prompter = s.prompter ∧ t.channel = s.channel ∨
        t.prompter = false ∧ (s.pc.looping = true → t.channel ≠ none))
  | look (hpc : s.pc = .receive) (hnone : s.prompting = true → s.channel = none)
      (ht : t = {s with pc := .poll})
  /-- The message ends the loop. -/
  | ends (more : List Seen) (hpc : s.pc = .receive) (hprompting : s.prompting = true)
      (hchannel : s.channel ≠ none)
      (ht : t = {s.heard with
        ask := t.ask, result := t.result, pc := .leave, seen := s.seen ++ more})
      (hask : t.ask = s.ask ∨ t.ask = none) (hmore : ∀ x ∈ more, x.Plain)
  /-- Enter, while a helper is being asked. -/
  | enter (more : List Seen) (hpc : s.pc = .receive) (hprompting : s.prompting = true)
      (hchannel : s.channel ≠ none) (hask : s.ask ≠ none)
      (ht : t = {s.heard with pc := .poll, seen := s.seen ++ more})
      (hmore : ∀ x ∈ more, x.Plain)
  /-- Enter, while none is. -/
  | again (now : Nat) (more : List Seen) (hpc : s.pc = .receive) (hprompting : s.prompting = true)
      (hchannel : s.channel ≠ none) (hask : s.ask = none)
      (ht : t = {s.heard with
        ask := some ⟨s.pipes.length, now + s.timeout⟩
        tries := s.tries + 1
        pipes := s.pipes ++ [{}]
        pc := .poll
        seen := s.seen ++ more ++ [.started s.pipes.length]})
      (hmore : ∀ x ∈ more, x.Plain)
  | dry (hpc : s.pc = .poll) (hask : s.ask = none)
      (ht : t = {s with pc := if s.prompting then .receive else .leave})
  | approves (helper : Nat) (hpc : s.pc = .poll)
      (ht : t = {s with
        ask := none
        result := pamSuccess
        pipes := t.pipes
        pc := if s.prompting then .settle else .leave
        seen := s.seen ++ [.read helper yes]})
  | givesUp (more : List Seen) (hpc : s.pc = .poll) (hask : s.ask ≠ none)
      (ht : t = {s with
        ask := none
        pipes := t.pipes
        pc := if s.prompting then .receive else .leave
        seen := s.seen ++ more})
      (hmore : ∀ x ∈ more, x.Plain)
  | waits {io : Poll} {now : Nat} {active : Ask} (more : List Seen) (hpc : s.pc = .poll)
      (he : e = .poll io now) (hask : s.ask = some active) (htime : now < active.deadline)
      (ht : t = {s with pipes := t.pipes, pc := .receive, seen := s.seen ++ more})
      (hpipes : t.pipes.length = s.pipes.length) (hmore : ∀ x ∈ more, x.Plain)
  | fails (more : List Seen) (hpc : s.pc = .poll) (hask : s.ask ≠ none)
      (ht : t = {s with ask := none, pipes := t.pipes, pc := .receive, seen := s.seen ++ more})
      (hmore : ∀ x ∈ more, x.Plain)
  | settles (more : List Seen) (hpc : s.pc = .settle)
      (ht : t = {s with channel := none, pc := .leave, seen := s.seen ++ more})
      (hmore : ∀ x ∈ more, x.Plain)
  | leaves (hpc : s.pc = .leave)
      (ht : t = {s with ask := none, channel := none, pc := .returned s.result})

theorem wipe_eq (s : State) (answer : Option Bytes) :
    ∃ more, s.wipe answer = s.note more ∧ ∀ x ∈ more, x.Plain := by
  cases answer with
  | none => exact ⟨[], by simp [State.wipe, State.note], by simp⟩
  | some text => exact ⟨[.wiped text], rfl, by simp [Seen.Plain]⟩

theorem turned_promptReturns {s t : State} {r : PromptResult} (h : s.promptReturns r = some t) :
    Turned s (.promptReturns r) t := by
  unfold State.promptReturns at h
  split at h
  · cases h
  · split at h
    · rename_i code hpc
      cases h
      obtain ⟨more, hwipe, hmore⟩ := wipe_eq (s.send r) r.answer
      rw [hwipe]
      refine .aside (.prompted r :: more) rfl ?_ ?_ (fun helper byte hmem => ?_) rfl
        (.inr ⟨rfl, ?_⟩)
      · simp [State.note, State.send]
      · simpa [Seen.Mute] using mute_of_plain hmore
      · rcases List.mem_cons.mp hmem with heq | hmem
        · cases heq
        · exact (hmore _ hmem).elim
      · simp [hpc, Pc.looping]
    · cases h
      exact .aside [.prompted r] rfl rfl (by simp [Seen.Mute]) (by simp) rfl
        (.inr ⟨rfl, fun _ => by simp⟩)

/-- Enter: the helper that is asked goes on, or one more is, or the loop ends. -/
theorem turned_emptyAnswer {s : State} {e : Event} (hpc : s.pc = .receive)
    (hprompting : s.prompting = true) (hchannel : s.channel ≠ none) (started : Bool) (now : Nat)
    {more : List Seen} (hmore : ∀ x ∈ more, x.Plain) :
    Turned s e {(s.heard.note more).emptyAnswer started now with
      pc := if ((s.heard.note more).emptyAnswer started now).ask.isNone then .leave
        else .poll} := by
  unfold State.emptyAnswer
  split
  · rename_i hempty
    simp only [note_ask, Bool.and_eq_true, Option.isNone_iff_eq_none] at hempty
    cases started with
    | false => exact .ends more hpc hprompting hchannel rfl (.inr rfl) hmore
    | true => exact .again now more hpc hprompting hchannel hempty.1 rfl hmore
  · by_cases hask : s.ask.isNone = true
    · rw [note_ask, if_pos hask]
      exact .ends more hpc hprompting hchannel rfl (.inl rfl) hmore
    · rw [note_ask, if_neg hask]
      exact .enter more hpc hprompting hchannel (by simpa using hask) rfl hmore

theorem turned_receive {s : State} (hpc : s.pc = .receive) (setItem : Int) (started : Bool)
    (now : Nat) :
    Turned s (.receive setItem started now) (s.receive setItem started now) := by
  have hfailed {r : PromptResult} (hprompting : s.prompting = true) (hchannel : s.channel = some r) :
      Turned s (.receive setItem started now) ((s.take r).promptFailed r) := by
    obtain ⟨more, hwipe, hmore⟩ := wipe_eq (s.take r) r.answer
    refine .ends (.received r :: more) hpc hprompting (by simp [hchannel]) ?_ (.inl ?_) ?_
    · simp only [State.promptFailed, hwipe]
      simp [State.note, State.take]
    · simp [State.promptFailed, State.take]
    · simpa [Seen.Plain] using hmore
  unfold State.receive
  split
  · rename_i r hprompting hchannel
    have hsome : s.channel ≠ none := by simp [hchannel]
    split
    · exact hfailed hprompting hchannel
    · rename_i answer hanswer
      split
      · exact hfailed hprompting hchannel
      · split
        · refine .ends [.received r, .setItem answer setItem s.result, .wiped answer] hpc hprompting
            hsome ?_ (.inl rfl) (by simp [Seen.Plain])
          simp [State.storePassword, State.wipe, State.note, State.take]
        · have htake :
              (s.take r).wipe (some answer) = s.heard.note [.received r, .wiped answer] := by
            simp [State.wipe, State.take, State.note]
          rw [htake]
          exact turned_emptyAnswer hpc hprompting hsome started now (by simp [Seen.Plain])
  · rename_i hnone
    refine .look hpc (fun hprompting => ?_) rfl
    exact Option.eq_none_iff_forall_ne_some.mpr fun r hr => hnone r hprompting hr

/-- What is read from a pipe is an approval or a plain entry. -/
theorem hear_plain {pipe after : Pipe} {io : Poll} {answer : Except Unit (Option Bool)}
    {byte : Option UInt8} (h : pipe.answer io = some (answer, byte, after)) :
    answer = .ok (some true) ∧ byte = some yes ∨
      answer ≠ .ok (some true) ∧ ∀ helper, ∀ x ∈ byte.toList.map (Seen.read helper), x.Plain := by
  unfold Pipe.answer at h
  split at h
  · cases h
    exact .inr (by simp)
  · cases h
    exact .inr (by simp)
  · split at h
    · rename_i b rest hunread
      cases h
      by_cases hyes : b = yes
      · exact .inl (by simp [hyes])
      · exact .inr (by simp [hyes, Seen.Plain])
    · split at h
      · cases h
        exact .inr (by simp)
      · cases h

theorem turned_poll {s t : State} (hpc : s.pc = .poll) {io : Poll} {now : Nat}
    (h : s.poll io now = some t) : Turned s (.poll io now) t := by
  unfold State.poll at h
  split at h
  · rename_i hask
    cases h
    exact .dry hpc hask rfl
  · rename_i active hask
    have hsome : s.ask ≠ none := by simp [hask]
    obtain ⟨pipe, hpipe, h⟩ := Option.bind_eq_some_iff.mp h
    obtain ⟨⟨answer, byte, after⟩, hanswer, rfl⟩ := Option.map_eq_some_iff.mp h
    dsimp only
    rcases hear_plain hanswer with ⟨rfl, rfl⟩ | ⟨hnot, hplain⟩
    · exact .approves active.helper hpc rfl
    · split
      · exact absurd rfl hnot
      · exact .givesUp _ hpc hsome rfl (hplain active.helper)
      · split
        · exact .givesUp _ hpc hsome rfl (hplain active.helper)
        · rename_i hearly
          exact .waits _ hpc rfl hask (Nat.lt_of_not_le hearly) rfl (List.length_set ..)
            (hplain active.helper)
      · exact .fails _ hpc hsome rfl (hplain active.helper)

theorem turned_settle {s : State} (hpc : s.pc = .settle) : Turned s .settle s.settle := by
  unfold State.settle
  split
  · rename_i r hchannel
    obtain ⟨more, hwipe, hmore⟩ := wipe_eq s r.answer
    rw [hwipe]
    exact .settles more hpc rfl hmore
  · rename_i hnone
    exact .settles [] hpc (by simp [hnone]) (by simp)

theorem turned_of_next {s t : State} {e : Event} (h : next s e = some t) : Turned s e t := by
  cases e with
  | promptReturns r => exact turned_promptReturns h
  | helperWrites helper byte =>
      obtain ⟨pipe, hpipe, h⟩ := Option.bind_eq_some_iff.mp h
      obtain ⟨-, heq⟩ := Option.ite_none_left_eq_some.mp h
      cases heq
      exact .aside [.wrote helper byte] rfl rfl (by simp [Seen.Mute]) (by simp) (List.length_set ..)
        (.inl ⟨rfl, rfl⟩)
  | helperCloses helper =>
      obtain ⟨pipe, hpipe, rfl⟩ := Option.map_eq_some_iff.mp h
      exact .aside [] rfl (by simp) (by simp) (by simp) (List.length_set ..) (.inl ⟨rfl, rfl⟩)
  | receive setItem started now =>
      obtain ⟨hpc, heq⟩ := Option.ite_none_right_eq_some.mp h
      cases heq
      exact turned_receive hpc setItem started now
  | poll io now =>
      obtain ⟨hpc, heq⟩ := Option.ite_none_right_eq_some.mp h
      exact turned_poll hpc heq
  | settle =>
      obtain ⟨hpc, heq⟩ := Option.ite_none_right_eq_some.mp h
      cases heq
      exact turned_settle hpc
  | leave =>
      obtain ⟨hpc, heq⟩ := Option.ite_none_right_eq_some.mp h
      cases heq
      exact .leaves hpc rfl

/-- Only a helper writes to its pipe. -/
theorem Turned.wrote {s t : State} {e : Event} (h : Turned s e t) {helper : Nat} {byte : UInt8}
    (hmem : .wrote helper byte ∈ t.seen) :
    .wrote helper byte ∈ s.seen ∨ e = .helperWrites helper byte := by
  have hplain {more : List Seen} (hmore : ∀ x ∈ more, x.Plain)
      (hmem : .wrote helper byte ∈ s.seen ++ more) : .wrote helper byte ∈ s.seen :=
    (List.mem_append.mp hmem).resolve_right fun hnew => hmore (.wrote helper byte) hnew
  cases h with
  | aside more he ht hmore hwrote =>
      rw [ht] at hmem
      exact (List.mem_append.mp hmem).imp_right (hwrote helper byte)
  | look _ _ ht | dry _ _ ht | leaves _ ht =>
      rw [ht] at hmem
      exact .inl hmem
  | again now more _ _ _ _ ht hmore =>
      rw [ht] at hmem
      exact .inl (hplain hmore (by simpa using hmem))
  | approves reader _ ht =>
      rw [ht] at hmem
      exact .inl (by simpa using hmem)
  | ends more _ _ _ ht _ hmore | enter more _ _ _ _ ht hmore | givesUp more _ _ ht hmore
  | waits more _ _ _ _ ht _ hmore | fails more _ _ ht hmore | settles more _ ht hmore =>
      rw [ht] at hmem
      exact .inl (hplain hmore hmem)

/-! ### The course of the loop -/

/-- The helpers that were started. -/
def starts (seen : List Seen) : List Nat :=
  seen.filterMap fun
    | .started helper => some helper
    | _ => none

theorem starts_mute {more : List Seen} (h : ∀ x ∈ more, x.Mute) (seen : List Seen) :
    starts (seen ++ more) = starts seen := by
  have hnone : starts more = [] := by
    refine List.filterMap_eq_nil_iff.mpr fun x hx => ?_
    cases x with
    | started => exact (h _ hx).elim
    | _ => rfl
  rw [starts, List.filterMap_append]
  exact (congrArg _ hnone).trans (List.append_nil _)

theorem read_mute {more seen : List Seen} (h : ∀ x ∈ more, x.Mute)
    (hread : ∃ helper, .read helper yes ∈ seen ++ more) : ∃ helper, .read helper yes ∈ seen := by
  obtain ⟨helper, hmem⟩ := hread
  rcases List.mem_append.mp hmem with hold | hnew
  · exact ⟨helper, hold⟩
  · exact absurd rfl (h _ hnew)

/-- The prompt, its message and the place in the loop go together. -/
structure Course (s : State) : Prop where
  opened : s.prompter = true → s.channel = none ∧ s.prompting = true
  /-- A prompt that returned has left its message to the loop. -/
  awaited : s.pc.looping = true → s.prompting = true → s.prompter = false → s.channel ≠ none
  /-- The loop ends with the prompt or with an approval. -/
  ended : s.pc.looping = false → s.prompter = false ∨ s.result = pamSuccess
  approved : (∃ helper, .read helper yes ∈ s.seen) → s.pc.looping = false
  piped : s.Piped

theorem piped_none {s : State} (h : s.ask = none) : s.Piped := by
  intro active hactive
  rw [h] at hactive
  cases hactive

theorem course_authenticate (call : Call) (entry : Entry) : Course (authenticate call entry) := by
  unfold authenticate
  cases call.proceed with
  | none =>
      dsimp only
      exact ⟨nofun, nofun, fun _ => .inl rfl, fun _ => rfl, piped_none rfl⟩
  | some o =>
      dsimp only
      split
      · refine ⟨nofun, fun _ _ _ => by simp, fun _ => .inl rfl, fun hread => ?_, piped_none rfl⟩
        simp [State.idle] at hread
      · have hpiped := startAsk_piped (State.idle false) entry.started entry.now
        generalize entry.started = started at hpiped ⊢
        refine ⟨?_, ?_, ?_, ?_, hpiped⟩
        all_goals cases started <;> simp [State.startAsk, State.idle, State.note, Pc.looping]

section Step

variable {s t : State}

/-- A step that ends nothing: the loop goes on with the same prompt. -/
theorem Course.goes_on (h : Course s) (hloop : s.pc.looping = true) (hloop' : t.pc.looping = true)
    (hprompter : t.prompter = s.prompter) (hchannel : t.channel = s.channel)
    (hprompting : t.prompting = s.prompting)
    (hread : (∃ helper, .read helper yes ∈ t.seen) → ∃ helper, .read helper yes ∈ s.seen)
    (hpiped : t.Piped) : Course t where
  opened hopen := by
    rw [hchannel, hprompting]
    exact h.opened (hprompter ▸ hopen)
  awaited _ hprompting' hprompter' := by
    rw [hchannel]
    exact h.awaited hloop (hprompting ▸ hprompting') (hprompter ▸ hprompter')
  ended hnot := by simp [hloop'] at hnot
  approved htread := by simp [h.approved (hread htread)] at hloop
  piped := hpiped

/-- A step past the loop, or beyond. -/
theorem Course.leaves (hloop' : t.pc.looping = false)
    (hopen : t.prompter = true → t.channel = none ∧ t.prompting = true)
    (hended : t.prompter = false ∨ t.result = pamSuccess) (hpiped : t.Piped) : Course t where
  opened := hopen
  awaited hloop := by simp [hloop'] at hloop
  ended _ := hended
  approved _ := hloop'
  piped := hpiped

/-- The loop goes on while the prompt is open, and ends with it. -/
theorem Course.closes (h : Course s) (hpc : s.pc = .poll)
    (hpc' : t.pc = if s.prompting then .receive else .leave) (hprompter : t.prompter = s.prompter)
    (hchannel : t.channel = s.channel) (hprompting : t.prompting = s.prompting)
    (hread : (∃ helper, .read helper yes ∈ t.seen) → ∃ helper, .read helper yes ∈ s.seen)
    (hask : t.ask = none) : Course t := by
  have hopen : t.prompter = true → t.channel = none ∧ t.prompting = true := by
    rw [hprompter, hchannel, hprompting]
    exact h.opened
  cases hstill : s.prompting with
  | true =>
      rw [hstill, if_pos rfl] at hpc'
      exact h.goes_on (by rw [hpc]; rfl) (by rw [hpc']; rfl) hprompter hchannel hprompting hread
        (piped_none hask)
  | false =>
      rw [hstill, if_neg Bool.false_ne_true] at hpc'
      refine .leaves (by rw [hpc']; rfl) hopen (.inl ?_) (piped_none hask)
      by_contra hnot
      have hprompting' := (hopen (by simpa using hnot)).2
      simp [hprompting, hstill] at hprompting'

/-- Who has a message to take has no prompt open. -/
theorem Course.returned (h : Course s) (hchannel : s.channel ≠ none) : s.prompter = false := by
  by_contra hprompter
  exact hchannel (h.opened (by simpa using hprompter)).1

theorem Course.step {e : Event} (h : Course s) (hturned : Turned s e t) : Course t := by
  cases hturned with
  | aside more he ht hmore hwrote hpipes hprompt =>
      rw [ht]
      refine ⟨fun hprompter => ?_, fun hloop hprompting hnot => ?_, fun hloop => ?_,
        fun hread => h.approved (read_mute hmore hread), fun active hactive => ?_⟩
      · rcases hprompt with ⟨hsame, hchannel⟩ | ⟨hdone, -⟩
        · exact ⟨hchannel.trans (h.opened (hsame ▸ hprompter)).1, (h.opened (hsame ▸ hprompter)).2⟩
        · exact absurd (hdone.symm.trans hprompter) (by simp)
      · rcases hprompt with ⟨hsame, hchannel⟩ | ⟨-, hsent⟩
        · exact hchannel ▸ h.awaited hloop hprompting (hsame ▸ hnot)
        · exact hsent hloop
      · rcases hprompt with ⟨hsame, -⟩ | ⟨hdone, -⟩
        · exact (h.ended hloop).imp_left hsame.trans
        · exact .inl hdone
      · exact hpipes ▸ h.piped active hactive
  | look hpc hnone ht =>
      rw [ht]
      exact h.goes_on (by rw [hpc]; rfl) rfl rfl rfl rfl (fun hread => hread) h.piped
  | ends more hpc hprompting hchannel ht hask hmore =>
      have hreturned := h.returned hchannel
      rw [ht]
      refine .leaves rfl (fun hprompter => ?_) (.inl hreturned) fun active hactive => ?_
      · exact absurd (hreturned.symm.trans hprompter) (by simp)
      · rcases hask with hsame | hnone
        · exact h.piped active (hsame ▸ hactive)
        · exact absurd (hnone.symm.trans hactive) (by simp)
  | enter more hpc hprompting hchannel hask ht hmore =>
      have hreturned := h.returned hchannel
      rw [ht]
      refine ⟨fun hprompter => ?_, nofun, nofun, fun hread => ?_, h.piped⟩
      · exact absurd (hreturned.symm.trans hprompter) (by simp)
      · simpa [hpc, Pc.looping] using h.approved (read_mute (mute_of_plain hmore) hread)
  | again now more hpc hprompting hchannel hask ht hmore =>
      have hreturned := h.returned hchannel
      rw [ht]
      refine ⟨fun hprompter => ?_, nofun, nofun, fun hread => ?_, fun active hactive => ?_⟩
      · exact absurd (hreturned.symm.trans hprompter) (by simp)
      · have hbefore : ∃ helper, .read helper yes ∈ s.seen ++ more := by simpa using hread
        simpa [hpc, Pc.looping] using h.approved (read_mute (mute_of_plain hmore) hbefore)
      · obtain rfl := Option.some.inj hactive
        simp
  | dry hpc hask ht =>
      rw [ht]
      exact h.closes hpc rfl rfl rfl rfl (fun hread => hread) hask
  | approves helper hpc ht =>
      rw [ht]
      refine .leaves ?_ h.opened (.inr rfl) (piped_none rfl)
      dsimp only
      split <;> rfl
  | givesUp more hpc hask ht hmore =>
      rw [ht]
      exact h.closes hpc rfl rfl rfl rfl (read_mute (mute_of_plain hmore)) rfl
  | waits more hpc he hask htime ht hpipes hmore =>
      rw [ht]
      refine h.goes_on (by rw [hpc]; rfl) rfl rfl rfl rfl (read_mute (mute_of_plain hmore)) ?_
      intro active hactive
      exact hpipes ▸ h.piped active hactive
  | fails more hpc hask ht hmore =>
      rw [ht]
      exact h.goes_on (by rw [hpc]; rfl) rfl rfl rfl rfl (read_mute (mute_of_plain hmore))
        (piped_none rfl)
  | settles more hpc ht hmore =>
      rw [ht]
      exact .leaves rfl (fun hprompter => ⟨rfl, (h.opened hprompter).2⟩)
        (h.ended (by rw [hpc]; rfl)) h.piped
  | leaves hpc ht =>
      rw [ht]
      exact .leaves rfl (fun hprompter => ⟨rfl, (h.opened hprompter).2⟩)
        (h.ended (by rw [hpc]; rfl)) (piped_none rfl)

end Step

theorem course_reachable {call : Call} {entry : Entry} {s : State}
    (h : Reach next always (authenticate call entry) s) : Course s :=
  h.invariant (course_authenticate call entry) fun _ _ _ ht _ hnext =>
    ht.step (turned_of_next hnext)

/-! ### How often the device is asked -/

/-- How many helpers a call starts while the prompt is open. -/
def early (onEmpty : Bool) : Nat :=
  if onEmpty then 0 else 1

structure Counted (s : State) : Prop where
  tries : s.tries = (starts s.seen).length
  first : s.prompting = true → s.tries ≤ early s.onEmpty
  second : s.tries ≤ early s.onEmpty + 1

theorem counted_authenticate (call : Call) (entry : Entry) :
    Counted (authenticate call entry) := by
  unfold authenticate
  cases call.proceed with
  | none => exact ⟨rfl, fun _ => Nat.zero_le _, Nat.zero_le _⟩
  | some o =>
      dsimp only
      split
      · exact ⟨rfl, fun _ => Nat.zero_le _, Nat.zero_le _⟩
      · cases entry.started with
        | false => exact ⟨rfl, fun _ => Nat.zero_le _, Nat.zero_le _⟩
        | true => exact ⟨rfl, fun _ => le_rfl, Nat.le_succ _⟩

theorem Counted.step {s t : State} {e : Event} (h : Counted s) (hturned : Turned s e t) :
    Counted t := by
  have hmute {more : List Seen} (hmore : ∀ x ∈ more, x.Mute) :
      s.tries = (starts (s.seen ++ more)).length := by
    rw [starts_mute hmore]
    exact h.tries
  have hplain {more : List Seen} (hmore : ∀ x ∈ more, x.Plain) :
      s.tries = (starts (s.seen ++ more)).length := hmute (mute_of_plain hmore)
  cases hturned with
  | aside more he ht hmore =>
      rw [ht]
      exact ⟨hmute hmore, h.first, h.second⟩
  | waits more _ _ _ _ ht _ hmore | fails more _ _ ht hmore | settles more _ ht hmore
  | givesUp more _ _ ht hmore =>
      rw [ht]
      exact ⟨hplain hmore, h.first, h.second⟩
  | ends more _ _ _ ht _ hmore | enter more _ _ _ _ ht hmore =>
      rw [ht]
      exact ⟨hplain hmore, nofun, h.second⟩
  | again now more hpc hprompting hchannel hask ht hmore =>
      rw [ht]
      refine ⟨?_, nofun, Nat.succ_le_succ (h.first hprompting)⟩
      have hstarts : starts (s.seen ++ more ++ [.started s.pipes.length])
          = starts (s.seen ++ more) ++ [s.pipes.length] := List.filterMap_append
      rw [hstarts, List.length_append, ← hplain hmore]
      rfl
  | approves helper hpc ht =>
      rw [ht]
      have hstarts : starts (s.seen ++ [.read helper yes]) = starts s.seen :=
        List.filterMap_append.trans (List.append_nil _)
      exact ⟨h.tries.trans (by rw [hstarts]), h.first, h.second⟩
  | look _ _ ht | dry _ _ ht | leaves _ ht =>
      rw [ht]
      exact ⟨h.tries, h.first, h.second⟩

theorem counted_reachable {call : Call} {entry : Entry} {s : State}
    (h : Reach next always (authenticate call entry) s) : Counted s :=
  h.invariant (counted_authenticate call entry)
    fun _ _ _ ht _ hnext => ht.step (turned_of_next hnext)

/-! ### The call returns -/

/-- The steps of the thread that called `authenticate`. -/
def ownEvents : Set Event :=
  {e | e.own = true}

def Returned (s : State) : Prop :=
  ∃ code, s.pc = .returned code

/-- The loop can go on until the call returns. -/
theorem own_enabled {s : State} (hpiped : s.Piped) (h : ¬ Returned s) :
    Enabled next ownEvents s := by
  cases hpc : s.pc with
  | receive => exact ⟨.receive 0 false 0, rfl, by simp [next, hpc]⟩
  | poll =>
      refine ⟨.poll .notReady 0, rfl, ?_⟩
      cases hask : s.ask with
      | none => simp [next, hpc, State.poll, hask]
      | some active =>
          have hlt := hpiped active hask
          simp [next, hpc, State.poll, hask, List.getElem?_eq_getElem hlt, Pipe.answer]
  | settle => exact ⟨.settle, rfl, by simp [next, hpc]⟩
  | leave => exact ⟨.leave, rfl, by simp [next, hpc]⟩
  | returned code => exact absurd ⟨code, hpc⟩ h

/-- The prompt returned, and its message waits for the loop. -/
def Waiting (s : State) : Prop :=
  Course s ∧ s.prompter = false

/-- The loop has nothing to wait for but a helper. -/
def Alone (s : State) : Prop :=
  s.pc.looping = true → s.prompting = false

/-- No helper is asked after this time. -/
def Bounded (ms : Nat) (s : State) : Prop :=
  Course s ∧ Alone s ∧ ∀ active, s.ask = some active → active.deadline ≤ ms

/-- The loop looks at the clock at this time or later. -/
def After (ms : Nat) (_ : State) (e : Event) : Prop :=
  ∀ io now, e = .poll io now → ms ≤ now

/-- Steps up to the message. -/
def State.unheard (s : State) : Nat :=
  match s.pc with
  | .poll => 2
  | .receive => 1
  | _ => 0

/-- Steps up to the end, once no prompt is open and the helper's time is over. -/
def State.remaining (s : State) : Nat :=
  match s.pc with
  | .receive => if s.ask.isSome then 5 else 3
  | .poll => if s.ask.isSome then 4 else 2
  | .settle => 2
  | .leave => 1
  | .returned _ => 0

theorem waiting_approaches :
    Endless.Approaches next always ownEvents Waiting Alone State.unheard := by
  rintro s e t ⟨hcourse, hprompter⟩ hnot - hnext
  have hturned := turned_of_next hnext
  have hcourse' := hcourse.step hturned
  simp only [Alone, Classical.not_imp, Bool.not_eq_false] at hnot
  obtain ⟨hloop, hprompting⟩ := hnot
  have hchannel := hcourse.awaited hloop hprompting hprompter
  -- A poll that ends nothing: the loop looks at the channel next.
  have hback (hpc : s.pc = .poll) (hpc' : t.pc = .receive) (hsame : t.prompter = s.prompter) :
      Alone t ∨ (Waiting t ∧ t.unheard ≤ s.unheard ∧ (e ∈ ownEvents → t.unheard < s.unheard)) := by
    refine .inr ⟨⟨hcourse', hsame.trans hprompter⟩, ?_, fun _ => ?_⟩
    · simp [State.unheard, hpc, hpc']
    · simp [State.unheard, hpc, hpc']
  cases hturned with
  | aside more he ht hmore hwrote hpipes hprompt =>
      have hpc : t.pc = s.pc := by rw [ht]
      have hdone : t.prompter = false := by
        rcases hprompt with ⟨hsame, -⟩ | ⟨hdone, -⟩
        · exact hsame.trans hprompter
        · exact hdone
      refine .inr ⟨⟨hcourse', hdone⟩, ?_, fun hown => ?_⟩
      · simp [State.unheard, hpc]
      · exact absurd (he.symm.trans hown) (by simp)
  | look hpc hnone ht => exact absurd (hnone hprompting) hchannel
  | ends more hpc _ _ ht | enter more hpc _ _ _ ht | again now more hpc _ _ _ ht =>
      exact .inl fun _ => by rw [ht]
  | approves helper hpc ht =>
      have hpc' : t.pc = .settle := by rw [ht]; exact if_pos hprompting
      exact .inl fun hloop' => by simp [hpc', Pc.looping] at hloop'
  | dry hpc hask ht => exact hback hpc (by rw [ht]; exact if_pos hprompting) (by rw [ht])
  | givesUp more hpc hask ht => exact hback hpc (by rw [ht]; exact if_pos hprompting) (by rw [ht])
  | waits more hpc _ _ _ ht => exact hback hpc (by rw [ht]) (by rw [ht])
  | fails more hpc _ ht => exact hback hpc (by rw [ht]) (by rw [ht])
  | settles more hpc ht hmore | leaves hpc ht => simp [hpc, Pc.looping] at hloop

/-- From here on the loop starts no helper, and no prompt is open to it. -/
theorem Bounded.step {s t : State} {e : Event} {ms : Nat} (h : Bounded ms s)
    (hnext : next s e = some t) : Bounded ms t := by
  obtain ⟨hcourse, halone, hdeadline⟩ := h
  have hturned := turned_of_next hnext
  refine ⟨hcourse.step hturned, ?_⟩
  have hdropped (hloop : t.pc.looping = true → s.pc.looping = true)
      (hsame : t.prompting = s.prompting) (hask : t.ask = s.ask ∨ t.ask = none) :
      Alone t ∧ ∀ active, t.ask = some active → active.deadline ≤ ms := by
    refine ⟨fun hloop' => hsame.trans (halone (hloop hloop')), fun active hactive => ?_⟩
    rcases hask with hask | hask
    · exact hdeadline active (hask ▸ hactive)
    · cases hask.symm.trans hactive
  have hclosed (hpc : s.pc = .receive) (hprompting : s.prompting = true) : False := by
    have hfalse := halone (by rw [hpc]; rfl)
    exact Bool.false_ne_true (hfalse.symm.trans hprompting)
  cases hturned with
  | aside more he ht =>
      exact hdropped (fun hloop => by rw [ht] at hloop; exact hloop) (by rw [ht])
        (.inl (by rw [ht]))
  | look hpc hnone ht =>
      exact hdropped (fun _ => by rw [hpc]; rfl) (by rw [ht]) (.inl (by rw [ht]))
  | ends more hpc hprompting | enter more hpc hprompting | again now more hpc hprompting =>
      exact (hclosed hpc hprompting).elim
  | dry hpc hask ht => exact hdropped (fun _ => by rw [hpc]; rfl) (by rw [ht]) (.inl (by rw [ht]))
  | waits more hpc _ _ _ ht =>
      exact hdropped (fun _ => by rw [hpc]; rfl) (by rw [ht]) (.inl (by rw [ht]))
  | approves helper hpc ht | givesUp more hpc hask ht | fails more hpc hask ht =>
      exact hdropped (fun _ => by rw [hpc]; rfl) (by rw [ht]) (.inr (by rw [ht]))
  | settles more hpc ht =>
      exact hdropped (fun hloop => by rw [ht] at hloop; cases hloop) (by rw [ht])
        (.inl (by rw [ht]))
  | leaves hpc ht =>
      exact hdropped (fun hloop => by rw [ht] at hloop; cases hloop) (by rw [ht])
        (.inr (by rw [ht]))

theorem bounded_approaches (ms : Nat) :
    Endless.Approaches next (After ms) ownEvents (Bounded ms) Returned State.remaining := by
  intro s e t hbounded _ hafter hnext
  have hbounded' := hbounded.step hnext
  have hnear (hless : t.remaining < s.remaining) : Returned t ∨ (Bounded ms t ∧
      t.remaining ≤ s.remaining ∧ (e ∈ ownEvents → t.remaining < s.remaining)) :=
    .inr ⟨hbounded', hless.le, fun _ => hless⟩
  obtain ⟨-, halone, hdeadline⟩ := hbounded
  have hprompting (hpc : s.pc = .poll) : s.prompting = false := halone (by rw [hpc]; rfl)
  cases turned_of_next hnext with
  | aside more he ht =>
      refine .inr ⟨hbounded', ?_, fun hown => ?_⟩
      · rw [ht]
        exact le_rfl
      · exact absurd (he.symm.trans hown) (by simp)
  | look hpc hnone ht =>
      apply hnear
      rw [ht]
      simp only [State.remaining, hpc]
      split <;> omega
  | ends more hpc hopen | enter more hpc hopen | again now more hpc hopen =>
      have hclosed := halone (by rw [hpc]; rfl)
      exact absurd (hclosed.symm.trans hopen) Bool.false_ne_true
  | dry hpc hask ht =>
      apply hnear
      rw [ht]
      simp [State.remaining, hpc, hask, hprompting hpc]
  | approves helper hpc ht =>
      apply hnear
      rw [ht]
      cases hask : s.ask <;> simp [State.remaining, hpc, hprompting hpc, hask]
  | givesUp more hpc hask ht =>
      apply hnear
      rw [ht]
      simp [State.remaining, hpc, hprompting hpc, Option.isSome_iff_ne_none.mpr hask]
  | waits more hpc he hask htime ht =>
      have hlate := hafter _ _ he
      have hover := hdeadline _ hask
      omega
  | fails more hpc hask ht =>
      apply hnear
      rw [ht]
      simp [State.remaining, hpc, Option.isSome_iff_ne_none.mpr hask]
  | settles more hpc ht =>
      apply hnear
      rw [ht]
      simp [State.remaining, hpc]
  | leaves hpc ht => exact .inl ⟨s.result, by rw [ht]⟩

/-- What the call needs of its thread and of the clock: the loop goes on, and
sees every time go by. -/
structure Live (run : Endless (idling next)) : Prop where
  own : run.WeaklyFair {e | ∃ a ∈ ownEvents, e = some a}
  clock : ∀ ms, ∃ i, ∀ j ≥ i, ∀ e ∈ run.event j, After ms (run.state j) e

section Run

variable {run : Endless (idling next)} {call : Call} {entry : Entry} {i : ℕ}

theorem run_reachable (hstart : run.state 0 = authenticate call entry) (i : ℕ) :
    Reach next always (authenticate call entry) (run.state i) :=
  hstart ▸ reach_of_idling (run.reach (Nat.zero_le i))

/-- Alone with a helper, the loop returns when the helper does or its time is over. -/
theorem alone_returns (hstart : run.state 0 = authenticate call entry) (hlive : Live run)
    (h : Alone (run.state i)) : ∃ j ≥ i, Returned (run.state j) := by
  obtain ⟨ms, hms⟩ : ∃ ms, ∀ active, (run.state i).ask = some active → active.deadline ≤ ms := by
    refine ⟨((run.state i).ask.map Ask.deadline).getD 0, fun active hactive => ?_⟩
    simp [hactive]
  have hbounded : Bounded ms (run.state i) := ⟨course_reachable (run_reachable hstart i), h, hms⟩
  obtain ⟨k, hk⟩ := hlive.clock ms
  have hstill : Bounded ms (run.state (max i k)) := by
    have hreach := reach_of_idling (run.reach (Nat.le_max_left i k))
    exact hreach.invariant hbounded fun _ _ _ hs _ => hs.step
  obtain ⟨j, hj, hreturned⟩ := hlive.own.eventually (bounded_approaches ms).idling
    (fun s hs hnot => enabled_idling.mpr (own_enabled hs.1.piped hnot))
    (fun j hj => hk j ((Nat.le_max_right i k).trans hj)) hstill
  exact ⟨j, (Nat.le_max_left i k).trans hj, hreturned⟩

theorem prompted_returns (hstart : run.state 0 = authenticate call entry) (hlive : Live run)
    (h : (run.state i).prompter = false) : ∃ j ≥ i, Returned (run.state j) := by
  have hwaiting : Waiting (run.state i) := ⟨course_reachable (run_reachable hstart i), h⟩
  obtain ⟨j, hij, halone⟩ := hlive.own.eventually waiting_approaches.idling
    (fun s hs hnot => enabled_idling.mpr
      (own_enabled hs.1.piped fun ⟨code, hcode⟩ => hnot fun hloop => by
        simp [hcode, Pc.looping] at hloop))
    (fun _ _ _ _ => trivial) hwaiting
  obtain ⟨k, hjk, hreturned⟩ := alone_returns hstart hlive halone
  exact ⟨k, hij.trans hjk, hreturned⟩

/-- What is true of a call at any time: it has returned only if its prompt did or
it read a helper's approval, and it has started at most two helpers: at most one
before Enter, in the parallel mode, and at most one after. -/
structure CallLaw (s : State) : Prop where
  returned : Returned s → s.prompter = false ∨ Approved s.seen
  early : s.prompting = true → (starts s.seen).length ≤ Pam.early s.onEmpty
  all : (starts s.seen).length ≤ Pam.early s.onEmpty + 1

theorem callLaw {s : State} (h : Reach next always (authenticate call entry) s) : CallLaw s where
  returned := by
    rintro ⟨code, hcode⟩
    have hended := (course_reachable h).ended (by rw [hcode]; rfl)
    exact hended.imp_right fun hsuccess => (inv_reachable call entry h).sound.approved hsuccess
  early hprompting := by
    have hcounted := counted_reachable h
    rw [← hcounted.tries]
    exact hcounted.first hprompting
  all := by
    have hcounted := counted_reachable h
    rw [← hcounted.tries]
    exact hcounted.second

/-- Whatever happens, a call keeps to this law; and where its loop is not put
off for ever it returns, now or later, exactly if its prompt does or it reads a
helper's approval. -/
theorem call_returns (call : Call) (entry : Entry) :
    (∀ s, Reach next always (authenticate call entry) s → CallLaw s) ∧
    ∀ run : Endless (idling next), run.state 0 = authenticate call entry → Live run →
      ((∃ i, Returned (run.state i)) ↔
        ∃ i, (run.state i).prompter = false ∨ Approved (run.state i).seen) := by
  refine ⟨fun s h => callLaw h, fun run hstart hlive => ⟨?_, ?_⟩⟩
  · rintro ⟨i, hreturned⟩
    exact ⟨i, (callLaw (run_reachable hstart i)).returned hreturned⟩
  · rintro ⟨i, hprompter | happroved⟩
    · obtain ⟨j, -, hreturned⟩ := prompted_returns hstart hlive hprompter
      exact ⟨j, hreturned⟩
    · obtain ⟨helper, before, after, hseen, -, -⟩ := happroved
      have hread : ∃ helper, .read helper yes ∈ (run.state i).seen := ⟨helper, by simp [hseen]⟩
      have hloop := (course_reachable (run_reachable hstart i)).approved hread
      obtain ⟨j, -, hreturned⟩ := alone_returns hstart hlive (i := i) fun hstill =>
        absurd (hloop.symm.trans hstill) Bool.false_ne_true
      exact ⟨j, hreturned⟩

end Run

theorem returned_disabled {s : State} (h : Returned s) : ¬ Enabled next ownEvents s := by
  obtain ⟨code, hpc⟩ := h
  rintro ⟨e, he, hsome⟩
  cases e with
  | promptReturns | helperWrites | helperCloses => cases he
  | _ => simp [next, hpc] at hsome

/-- A run that came to a stop once the call had returned. -/
theorem stopped_live {s t : State} {events : List Event} (h : replay next always s events = some t)
    (hreturned : Returned t) : ∃ run : Endless (idling next),
      run.state 0 = s ∧ run.state events.length = t ∧ Live run := by
  rw [← replay_idling] at h
  obtain ⟨run, hrun, htail⟩ := (stopped next t).exists_after h
  rw [List.length_map] at htail
  have hover {j : ℕ} (hj : events.length ≤ j) : Returned (run.state j) := by
    obtain ⟨i, rfl⟩ := Nat.exists_eq_add_of_le hj
    exact (htail i).symm ▸ hreturned
  refine ⟨run, hrun, htail 0, fun i henabled => ?_, fun ms => ⟨events.length, ?_⟩⟩
  · have hlater := henabled (max i events.length) (Nat.le_max_left ..)
    exact absurd (enabled_idling.mp hlater) (returned_disabled (hover (Nat.le_max_right ..)))
  · rintro j hj e he io now rfl
    refine absurd ⟨.poll io now, rfl, ?_⟩ (returned_disabled (hover hj))
    have hstep := run.step j
    rw [Option.mem_def.mp he] at hstep
    exact Option.isSome_iff_exists.mpr ⟨_, hstep⟩

/-- Enter, and a phone that never answers. -/
def unansweredEvents : List Event :=
  [.receive 0 false 0, .poll .notReady 20, .promptReturns ⟨pamSuccess, some []⟩, .receive 0 true 40,
    .poll .notReady 40, .receive 0 true 600000, .poll .notReady 600000, .leave]

/-- The same call, in the mode that asks the device only after Enter. -/
def onEmptyCall : Call :=
  {parallelCall with
    argc := 2
    argv := ["mode=on-empty".toList, "authfile=/etc/passkey/keys".toList]}

/-- A password is typed. -/
def typedEvents : List Event :=
  [.receive pamSuccess false 0, .leave]

/-- The call comes back when the helper's time is over; and with a typed password
it comes back without a helper. -/
theorem unanswered_returns : (∃ run : Endless (idling next),
      run.state 0 = authenticate parallelCall ⟨true, 0, ⟨0, none⟩⟩ ∧ Live run ∧
        (∃ i, Returned (run.state i)) ∧ ∀ i, (starts (run.state i).seen).length ≤ 2) ∧
    ∃ run : Endless (idling next),
      run.state 0 = authenticate onEmptyCall ⟨true, 0, ⟨pamSuccess, some [1]⟩⟩ ∧ Live run ∧
        (∃ i, Returned (run.state i) ∧ starts (run.state i).seen = []) := by
  constructor
  · obtain ⟨t, ht, hprompter, hpc, honEmpty⟩ : ∃ t,
        replay next always (authenticate parallelCall ⟨true, 0, ⟨0, none⟩⟩) unansweredEvents =
          some t ∧ t.prompter = false ∧ t.pc = .returned pamIgnore ∧ t.onEmpty = false :=
      ⟨_, rfl, rfl, rfl, rfl⟩
    obtain ⟨run, hstart, hstop, hlive⟩ := stopped_live ht ⟨_, hpc⟩
    obtain ⟨hlaw, hreturns⟩ := call_returns parallelCall ⟨true, 0, ⟨0, none⟩⟩
    refine ⟨run, hstart, hlive, (hreturns run hstart hlive).mpr ⟨_, .inl (hstop ▸ hprompter)⟩,
      fun i => ?_⟩
    refine (hlaw _ (run_reachable hstart i)).all.trans ?_
    unfold early
    split <;> omega
  · obtain ⟨t, ht, hpc, hstarts⟩ : ∃ t,
        replay next always (authenticate onEmptyCall ⟨true, 0, ⟨pamSuccess, some [1]⟩⟩)
          typedEvents = some t ∧ t.pc = .returned pamIgnore ∧ starts t.seen = [] :=
      ⟨_, rfl, rfl, rfl⟩
    obtain ⟨run, hstart, hstop, hlive⟩ := stopped_live ht ⟨_, hpc⟩
    exact ⟨run, hstart, hlive, typedEvents.length, hstop ▸ ⟨_, hpc⟩, hstop ▸ hstarts⟩

end Passkey.Pam

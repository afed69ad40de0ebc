import Passkey.Pam.Authenticate

/-!
A login needs an approval. Whatever the order in which the prompt, the helpers
and the clock are heard, `authenticate` returns `PAM_SUCCESS` only after it
read `y` from a helper of its own, and a call that stores a typed password
never returns `PAM_SUCCESS`.
-/

namespace Passkey.Pam

open Library

/-- A helper of this call wrote `y`, and the loop read that byte later. -/
def Approved (seen : List Seen) : Prop :=
  ∃ helper before after, seen = before ++ .read helper yes :: after ∧
    .started helper ∈ before ∧ .wrote helper yes ∈ before

/-- The prompt gave a password: its status is fine and its answer not empty. -/
def PromptResult.Typed (r : PromptResult) (answer : Bytes) : Prop :=
  r.status = pamSuccess ∧ r.answer = some answer ∧ answer ≠ []

/-- The loop has neither stored nor taken a typed password. -/
def Quiet (seen : List Seen) : Prop :=
  (∀ answer status result, .setItem answer status result ∉ seen) ∧
    ∀ r answer, r.Typed answer → .received r ∉ seen

/-- The code of a call that stored a password: `PAM_IGNORE`, so that the stack
goes on to check it, or the error of `pam_set_item`. -/
def storedResult (status : Int) : Int :=
  if status = pamSuccess then pamIgnore else status

theorem pamIgnore_ne_success : pamIgnore ≠ pamSuccess := by decide

theorem storedResult_ne_success (status : Int) : storedResult status ≠ pamSuccess := by
  unfold storedResult
  split
  · decide
  · assumption

/-- What `result` may be, given what the call has done. -/
structure Sound (result : Int) (seen : List Seen) : Prop where
  approved : result = pamSuccess → Approved seen
  stored : ∀ answer status before, .setItem answer status before ∈ seen →
    before ≠ pamSuccess ∧ result = storedResult status
  taken : ∀ r answer, r.Typed answer → .received r ∈ seen →
    ∃ status before, .setItem answer status before ∈ seen

theorem Approved.append {seen : List Seen} (h : Approved seen) (more : List Seen) :
    Approved (seen ++ more) := by
  obtain ⟨helper, before, after, rfl, hstart, hwrote⟩ := h
  exact ⟨helper, before, after ++ more, by simp, hstart, hwrote⟩

theorem Quiet.sound {seen : List Seen} (h : Quiet seen) {result : Int}
    (happroved : result = pamSuccess → Approved seen) : Sound result seen where
  approved := happroved
  stored answer status before hmem := absurd hmem (h.1 answer status before)
  taken r answer htyped hmem := absurd hmem (h.2 r answer htyped)

/-- An entry that neither stores nor takes a password. -/
def Seen.Harmless : Seen → Prop
  | .setItem .. => False
  | .received r => ∀ answer, ¬ r.Typed answer
  | _ => True

theorem Quiet.append {seen more : List Seen} (h : Quiet seen)
    (hmore : ∀ e ∈ more, e.Harmless) : Quiet (seen ++ more) := by
  constructor
  · intro answer status result hmem
    rcases List.mem_append.mp hmem with hold | hnew
    · exact h.1 _ _ _ hold
    · exact hmore _ hnew
  · intro r answer htyped hmem
    rcases List.mem_append.mp hmem with hold | hnew
    · exact h.2 _ _ htyped hold
    · exact hmore _ hnew answer htyped

theorem Sound.append {result : Int} {seen more : List Seen} (h : Sound result seen)
    (hmore : ∀ e ∈ more, e.Harmless) : Sound result (seen ++ more) where
  approved heq := (h.approved heq).append more
  stored answer status before hmem := by
    rcases List.mem_append.mp hmem with hold | hnew
    · exact h.stored _ _ _ hold
    · exact (hmore _ hnew).elim
  taken r answer htyped hmem := by
    rcases List.mem_append.mp hmem with hold | hnew
    · obtain ⟨status, before, hset⟩ := h.taken r answer htyped hold
      exact ⟨status, before, List.mem_append_left _ hset⟩
    · exact (hmore _ hnew answer htyped).elim

/-- What the loop preserves. A byte waits in a pipe only after its helper wrote
it, and `result` is still `PAM_IGNORE` wherever the loop goes on. -/
structure Inv (s : State) : Prop where
  piped : ∀ helper (pipe : Pipe) byte, s.pipes[helper]? = some pipe → byte ∈ pipe.unread →
    .wrote helper byte ∈ s.seen
  asked : ∀ active, s.ask = some active → .started active.helper ∈ s.seen
  sound : Sound s.result s.seen
  looping : s.pc = .receive ∨ s.pc = .poll → s.result = pamIgnore
  quiet : s.pc = .receive ∨ s.pc = .poll ∨ s.pc = .settle → Quiet s.seen
  code : ∀ code, s.pc = .returned code → code = s.result

section Fields

variable (s : State)

@[simp] theorem note_seen (what : List Seen) : (s.note what).seen = s.seen ++ what := rfl
@[simp] theorem note_ask (what : List Seen) : (s.note what).ask = s.ask := rfl
@[simp] theorem note_pipes (what : List Seen) : (s.note what).pipes = s.pipes := rfl
@[simp] theorem note_result (what : List Seen) : (s.note what).result = s.result := rfl
@[simp] theorem note_pc (what : List Seen) : (s.note what).pc = s.pc := rfl

@[simp] theorem wipe_ask (answer : Option Bytes) : (s.wipe answer).ask = s.ask := by
  cases answer <;> rfl
@[simp] theorem wipe_pipes (answer : Option Bytes) : (s.wipe answer).pipes = s.pipes := by
  cases answer <;> rfl
@[simp] theorem wipe_result (answer : Option Bytes) : (s.wipe answer).result = s.result := by
  cases answer <;> rfl
@[simp] theorem wipe_pc (answer : Option Bytes) : (s.wipe answer).pc = s.pc := by
  cases answer <;> rfl

theorem wipe_seen (answer : Option Bytes) :
    ∃ more, (s.wipe answer).seen = s.seen ++ more ∧ ∀ e ∈ more, e.Harmless := by
  cases answer with
  | none => exact ⟨[], by simp [State.wipe], by simp⟩
  | some text => exact ⟨[.wiped text], rfl, by simp [Seen.Harmless]⟩

end Fields

/-- A step that only adds harmless entries, takes no byte from a pipe without
a note and keeps `result`; it stays where it is, or it goes on from the loop. -/
theorem Inv.harmless {s t : State} (h : Inv s) (more : List Seen)
    (hseen : t.seen = s.seen ++ more) (hmore : ∀ e ∈ more, e.Harmless)
    (hpipes : ∀ helper (pipe : Pipe) byte, t.pipes[helper]? = some pipe → byte ∈ pipe.unread →
      .wrote helper byte ∈ t.seen)
    (hask : ∀ active, t.ask = some active → .started active.helper ∈ t.seen)
    (hresult : t.result = s.result)
    (hpc : t.pc = s.pc ∨ (s.pc = .receive ∨ s.pc = .poll) ∧
      t.pc ≠ .settle ∧ ∀ code, t.pc ≠ .returned code) : Inv t where
  piped := hpipes
  asked := hask
  sound := by
    rw [hresult, hseen]
    exact h.sound.append hmore
  looping hloop := by
    rw [hresult]
    rcases hpc with heq | ⟨hhere, -⟩
    · exact h.looping (heq ▸ hloop)
    · exact h.looping hhere
  quiet hloop := by
    rw [hseen]
    refine Quiet.append ?_ hmore
    rcases hpc with heq | ⟨hhere | hhere, -⟩
    · exact h.quiet (heq ▸ hloop)
    · exact h.quiet (.inl hhere)
    · exact h.quiet (.inr (.inl hhere))
  code code hcode := by
    rw [hresult]
    rcases hpc with heq | ⟨-, -, hnot⟩
    · exact h.code code (heq ▸ hcode)
    · exact absurd hcode (hnot code)

/-- The loop is left with an error or with `PAM_IGNORE`. -/
theorem Inv.conclude {s t : State} (h : Inv s) (hhere : s.pc = .receive) (more : List Seen)
    (hseen : t.seen = s.seen ++ more) (hmore : ∀ e ∈ more, e.Harmless)
    (hpipes : t.pipes = s.pipes) (hask : t.ask = s.ask)
    (hresult : t.result ≠ pamSuccess) (hpc : t.pc = .leave) : Inv t where
  piped helper pipe byte hpipe hbyte := by
    rw [hseen]
    exact List.mem_append_left _ (h.piped helper pipe byte (hpipes ▸ hpipe) hbyte)
  asked active hactive := by
    rw [hseen]
    exact List.mem_append_left _ (h.asked active (hask ▸ hactive))
  sound := by
    rw [hseen]
    exact ((h.quiet (.inl hhere)).append hmore).sound fun heq => absurd heq hresult
  looping hloop := by simp [hpc] at hloop
  quiet hloop := by simp [hpc] at hloop
  code code hcode := by simp [hpc] at hcode

/-- The second thread of the call and the helpers only add harmless entries. -/
theorem Inv.append {s t : State} (h : Inv s) (more : List Seen)
    (hseen : t.seen = s.seen ++ more) (hmore : ∀ e ∈ more, e.Harmless)
    (hpipes : t.pipes = s.pipes) (hask : t.ask = s.ask)
    (hresult : t.result = s.result)
    (hpc : t.pc = s.pc ∨ (s.pc = .receive ∨ s.pc = .poll) ∧
      t.pc ≠ .settle ∧ ∀ code, t.pc ≠ .returned code) : Inv t := by
  refine h.harmless more hseen hmore ?_ ?_ hresult hpc
  · intro helper pipe byte hpipe hbyte
    rw [hseen]
    exact List.mem_append_left _ (h.piped helper pipe byte (hpipes ▸ hpipe) hbyte)
  · intro active hactive
    rw [hseen]
    exact List.mem_append_left _ (h.asked active (hask ▸ hactive))

theorem inv_startAsk {s : State} (h : Inv s) (ok : Bool) (now : Nat) :
    Inv (s.startAsk ok now) := by
  cases ok with
  | false =>
      exact h.harmless [] (by simp [State.startAsk]) (by simp)
        h.piped (by simp [State.startAsk]) rfl (.inl rfl)
  | true =>
      refine h.harmless [.started s.pipes.length] rfl (by simp [Seen.Harmless])
        ?_ ?_ rfl (.inl rfl)
      · intro helper pipe byte hpipe hbyte
        simp only [State.startAsk, if_true, note_seen] at hpipe ⊢
        rw [List.getElem?_append] at hpipe
        split at hpipe
        · exact List.mem_append_left _ (h.piped helper pipe byte hpipe hbyte)
        · -- the new pipe is empty
          obtain rfl : pipe = {} := by
            have hmem := List.mem_of_getElem? hpipe
            simpa using hmem
          simp at hbyte
      · intro active hactive
        obtain rfl : _ = active := by simpa [State.startAsk] using hactive
        simp [State.startAsk]

theorem inv_authenticate (call : Call) (entry : Entry) : Inv (authenticate call entry) := by
  have hquiet : Quiet [] := by simp [Quiet]
  have hidle (mode : Bool) : Inv (State.idle mode) :=
    ⟨by simp [State.idle], by simp [State.idle],
      hquiet.sound fun heq => absurd heq pamIgnore_ne_success,
      fun _ => rfl, fun _ => hquiet, by simp [State.idle]⟩
  unfold authenticate
  cases call.proceed with
  | none =>
      exact ⟨by simp [State.idle], by simp [State.idle],
        hquiet.sound fun heq => absurd heq pamIgnore_ne_success,
        by simp, by simp, by simp [State.idle]⟩
  | some o =>
      simp only
      split
      · exact (hidle true).append [.prompted entry.prompted] rfl
          (by simp [Seen.Harmless]) rfl rfl rfl (.inl rfl)
      · exact inv_startAsk (hidle false) _ _

theorem inv_promptReturns {s t : State} (h : Inv s) (r : PromptResult)
    (hstep : s.promptReturns r = some t) : Inv t := by
  unfold State.promptReturns at hstep
  split at hstep
  · cases hstep
  · have hsend : Inv (s.send r) :=
      h.append [.prompted r] rfl (by simp [Seen.Harmless]) rfl rfl rfl (.inl rfl)
    split at hstep <;> cases hstep
    · obtain ⟨more, hseen, hmore⟩ := wipe_seen (s.send r) r.answer
      exact hsend.append more hseen hmore (by simp) (by simp) (by simp) (.inl (by simp))
    · exact hsend.append [] (by simp) (by simp) rfl rfl rfl (.inl rfl)

theorem inv_helperWrites {s t : State} (h : Inv s) (helper : Nat) (byte : UInt8)
    (hstep : s.helperWrites helper byte = some t) : Inv t := by
  obtain ⟨pipe, hpipe, hstep⟩ := Option.bind_eq_some_iff.mp hstep
  split at hstep
  · cases hstep
  · cases hstep
    refine h.harmless [.wrote helper byte] rfl (by simp [Seen.Harmless]) ?_ ?_ rfl
      (.inl rfl)
    · intro other after b hafter hb
      simp only [note_seen, List.mem_append, List.mem_singleton]
      rw [List.getElem?_set] at hafter
      split at hafter
      · rename_i heq
        subst heq
        split at hafter
        · cases hafter
          rcases List.mem_append.mp hb with hold | hnew
          · exact .inl (h.piped helper pipe b hpipe hold)
          · exact .inr (by rw [List.mem_singleton.mp hnew])
        · cases hafter
      · exact .inl (h.piped other after b hafter hb)
    · intro active hactive
      exact List.mem_append_left _ (h.asked active hactive)

theorem inv_helperCloses {s t : State} (h : Inv s) (helper : Nat)
    (hstep : s.helperCloses helper = some t) : Inv t := by
  obtain ⟨pipe, hpipe, rfl⟩ := Option.map_eq_some_iff.mp hstep
  refine h.harmless [] (by simp) (by simp) ?_ h.asked rfl (.inl rfl)
  intro other after b hafter hb
  rw [List.getElem?_set] at hafter
  split at hafter
  · rename_i heq
    subst heq
    split at hafter
    · cases hafter
      exact h.piped helper pipe b hpipe hb
    · cases hafter
  · exact h.piped other after b hafter hb

theorem inv_promptFailed {s : State} (h : Inv s) (hpc : s.pc = .receive) (r : PromptResult)
    (hfailed : r.status ≠ pamSuccess ∨ r.answer = none) : Inv ((s.take r).promptFailed r) := by
  obtain ⟨more, hseen, hmore⟩ := wipe_seen (s.take r) r.answer
  refine h.conclude hpc (.received r :: more) ?_ ?_ ?_ ?_ ?_ rfl
  · simpa [State.promptFailed, State.take] using hseen
  · intro e he
    rcases List.mem_cons.mp he with rfl | hrest
    · rintro answer ⟨hstatus, hanswer, -⟩
      rcases hfailed with hne | hnone
      · exact hne hstatus
      · rw [hnone] at hanswer
        cases hanswer
    · exact hmore e hrest
  · simp [State.promptFailed, State.take]
  · simp [State.promptFailed, State.take]
  · simp only [State.promptFailed]
    split
    · decide
    · assumption

theorem inv_storePassword {s : State} (h : Inv s) (hpc : s.pc = .receive) (r : PromptResult)
    (answer : Bytes) (htyped : r.Typed answer) (status : Int) :
    Inv ((s.take r).storePassword answer status) := by
  have hquiet := h.quiet (.inl hpc)
  have hseen : ((s.take r).storePassword answer status).seen =
      s.seen ++ [.received r, .setItem answer status s.result, .wiped answer] := by
    simp [State.storePassword, State.take, State.wipe]
  refine ⟨?_, ?_, ?_, by simp [State.storePassword], by simp [State.storePassword],
    by simp [State.storePassword]⟩
  · intro helper pipe byte hpipe hbyte
    rw [hseen]
    have hold : s.pipes[helper]? = some pipe := by
      simpa [State.storePassword, State.take] using hpipe
    exact List.mem_append_left _ (h.piped helper pipe byte hold hbyte)
  · intro active hactive
    rw [hseen]
    have hold : s.ask = some active := by
      simpa [State.storePassword, State.take] using hactive
    exact List.mem_append_left _ (h.asked active hold)
  · change Sound (storedResult status) _
    rw [hseen]
    refine ⟨fun heq => absurd heq (storedResult_ne_success status), ?_, ?_⟩
    · intro other otherStatus before hmem
      rcases List.mem_append.mp hmem with hold | hnew
      · exact absurd hold (hquiet.1 _ _ _)
      · simp only [List.mem_cons, reduceCtorEq, Seen.setItem.injEq, List.not_mem_nil,
          or_false, false_or] at hnew
        obtain ⟨rfl, rfl, rfl⟩ := hnew
        exact ⟨(h.looping (.inl hpc)) ▸ pamIgnore_ne_success, rfl⟩
    · intro other otherAnswer hother hmem
      rcases List.mem_append.mp hmem with hold | hnew
      · exact absurd hold (hquiet.2 _ _ hother)
      · simp only [List.mem_cons, reduceCtorEq, Seen.received.injEq, List.not_mem_nil,
          or_false] at hnew
        subst hnew
        obtain rfl : answer = otherAnswer :=
          Option.some.inj (htyped.2.1.symm.trans hother.2.1)
        exact ⟨status, s.result, by simp⟩

theorem inv_emptyAnswer {s : State} (h : Inv s) (started : Bool) (now : Nat) :
    Inv (s.emptyAnswer started now) := by
  unfold State.emptyAnswer
  split
  · exact inv_startAsk h started now
  · exact h

theorem emptyAnswer_pc (s : State) (started : Bool) (now : Nat) :
    (s.emptyAnswer started now).pc = s.pc := by
  unfold State.emptyAnswer State.startAsk
  split
  · cases started <;> rfl
  · rfl

/-- The four ways to take the prompt's message, and no message. -/
theorem inv_receive {s : State} (h : Inv s) (hpc : s.pc = .receive) (setItem : Int)
    (started : Bool) (now : Nat) : Inv (s.receive setItem started now) := by
  unfold State.receive
  split
  · rename_i r _ _
    split
    · rename_i hanswer
      exact inv_promptFailed h hpc r (.inr hanswer)
    · rename_i answer hanswer
      split
      · rename_i hstatus
        exact inv_promptFailed h hpc r (.inl hstatus)
      · rename_i hstatus
        split
        · rename_i hne
          exact inv_storePassword h hpc r answer ⟨not_not.mp hstatus, hanswer, hne⟩ setItem
        · rename_i hempty
          have htaken : Inv ((s.take r).wipe (some answer)) := by
            refine h.append [.received r, .wiped answer] ?_ ?_ ?_ ?_ ?_ (.inl ?_)
            · simp [State.take, State.wipe]
            · intro e he
              simp only [List.mem_cons, List.not_mem_nil, or_false] at he
              rcases he with rfl | rfl
              · rintro other ⟨-, hother, hne⟩
                rw [hanswer, Option.some.injEq] at hother
                exact hempty (hother ▸ hne)
              · trivial
            all_goals simp [State.take]
          have hasked := inv_emptyAnswer htaken started now
          refine hasked.append [] (by simp) (by simp) rfl rfl rfl
            (.inr ⟨.inl ?_, ?_, ?_⟩)
          · simpa [emptyAnswer_pc, State.take] using hpc
          all_goals
            dsimp only
            split <;> simp
  · exact h.append [] (by simp) (by simp) rfl rfl rfl (.inr ⟨.inl hpc, by simp, by simp⟩)

/-- Reading a byte moves it from the pipe to the notes. -/
theorem inv_hear {s : State} (h : Inv s) {active : Ask} {pipe after : Pipe}
    (hpipe : s.pipes[active.helper]? = some pipe) (byte : Option UInt8)
    (hafter : ∀ b ∈ after.unread, b ∈ pipe.unread) : Inv (s.hear active.helper byte after) := by
  have hgrow (e : Seen) (he : e ∈ s.seen) : e ∈ (s.hear active.helper byte after).seen := by
    simp only [State.hear, note_seen]
    exact List.mem_append_left _ he
  refine h.harmless (byte.toList.map (.read active.helper)) rfl ?_ ?_ ?_ rfl (.inl rfl)
  · cases byte <;> simp [Seen.Harmless]
  · intro helper other b hother hb
    simp only [State.hear, List.getElem?_set] at hother
    split at hother
    · rename_i heq
      subst heq
      split at hother
      · cases hother
        exact hgrow _ (h.piped active.helper pipe b hpipe (hafter b hb))
      · cases hother
    · exact hgrow _ (h.piped helper other b hother hb)
  · intro other hother
    exact hgrow _ (h.asked other hother)

/-- What `Ask::answer` can say: an approval is a byte `y` from the pipe. -/
theorem answer_cases {pipe after : Pipe} {io : Poll} {answer : Except Unit (Option Bool)}
    {byte : Option UInt8} (h : pipe.answer io = some (answer, byte, after)) :
    (∀ b ∈ after.unread, b ∈ pipe.unread) ∧
      (answer = .ok (some true) → byte = some yes ∧ yes ∈ pipe.unread) := by
  unfold Pipe.answer at h
  split at h
  · cases h
    simp
  · cases h
    simp
  · split at h
    · rename_i b rest hunread
      cases h
      refine ⟨fun x hx => by simp_all, fun heq => ?_⟩
      have hyes : b = yes := by simpa using heq
      simp [hunread, hyes]
    · split at h
      · cases h
        simp_all
      · cases h

/-- The approval itself: the byte just read is the `y` of a helper of ours. -/
theorem inv_approve {s : State} (h : Inv s) (hpc : s.pc = .poll) {active : Ask} {pipe after : Pipe}
    (hask : s.ask = some active) (hpipe : s.pipes[active.helper]? = some pipe)
    (hafter : ∀ b ∈ after.unread, b ∈ pipe.unread) (hyes : yes ∈ pipe.unread) :
    Inv (s.hear active.helper (some yes) after).approve := by
  have hheard := inv_hear h hpipe (some yes) hafter
  have happroved : Approved (s.hear active.helper (some yes) after).seen :=
    ⟨active.helper, s.seen, [], rfl, h.asked active hask, h.piped _ pipe yes hpipe hyes⟩
  have hquiet : Quiet (s.hear active.helper (some yes) after).seen :=
    hheard.quiet (.inr (.inl hpc))
  refine ⟨hheard.piped, by simp [State.approve], hquiet.sound fun _ => happroved, ?_,
    fun _ => hquiet, ?_⟩
  all_goals
    simp only [State.approve]
    split <;> simp

theorem inv_poll {s t : State} (h : Inv s) (hpc : s.pc = .poll) (io : Poll) (now : Nat)
    (hstep : s.poll io now = some t) : Inv t := by
  unfold State.poll at hstep
  split at hstep
  · cases hstep
    refine h.append [] (by simp) (by simp) rfl rfl rfl (.inr ⟨.inr hpc, ?_, ?_⟩)
    all_goals
      dsimp only
      split <;> simp
  · rename_i active hask
    obtain ⟨pipe, hpipe, hstep⟩ := Option.bind_eq_some_iff.mp hstep
    obtain ⟨⟨answer, byte, after⟩, hanswer, hstep⟩ := Option.map_eq_some_iff.mp hstep
    obtain ⟨hafter, happrove⟩ := answer_cases hanswer
    have hheard := inv_hear h hpipe byte hafter
    have hgo {u : State} (hseen : u.seen = (s.hear active.helper byte after).seen)
        (hpipes : u.pipes = (s.hear active.helper byte after).pipes)
        (hu : u.ask = s.ask ∨ u.ask = none) (hresult : u.result = s.result)
        (hsettle : u.pc ≠ .settle) (hcode : ∀ code, u.pc ≠ .returned code) : Inv u := by
      refine hheard.harmless [] (by simp [hseen]) (by simp) ?_ ?_ hresult
        (.inr ⟨.inr hpc, hsettle, hcode⟩)
      · rw [hseen, hpipes]
        exact hheard.piped
      · intro other hother
        rcases hu with heq | heq
        · rw [hseen]
          exact hheard.asked other (heq ▸ hother)
        · rw [heq] at hother
          cases hother
    have hgiveUp : Inv (s.hear active.helper byte after).giveUp := by
      refine hgo rfl rfl (.inr rfl) rfl ?_ ?_
      all_goals
        simp only [State.giveUp]
        split <;> simp
    subst hstep
    dsimp only
    split
    · obtain ⟨rfl, hyes⟩ := happrove rfl
      exact inv_approve h hpc hask hpipe hafter hyes
    · exact hgiveUp
    · split
      · exact hgiveUp
      · exact hgo rfl rfl (.inl rfl) rfl (by simp) (by simp)
    · exact hgo rfl rfl (.inr rfl) rfl (by simp) (by simp)

theorem inv_settle {s : State} (h : Inv s) (hpc : s.pc = .settle) : Inv s.settle := by
  have hquiet := h.quiet (.inr (.inr hpc))
  have hleave {u : State} (more : List Seen) (hseen : u.seen = s.seen ++ more)
      (hmore : ∀ e ∈ more, e.Harmless) (hpipes : u.pipes = s.pipes) (hask : u.ask = s.ask)
      (hresult : u.result = s.result) (hu : u.pc = .leave) : Inv u := by
    refine ⟨?_, ?_, ?_, by simp [hu], by simp [hu], by simp [hu]⟩
    · intro helper pipe byte hpipe hbyte
      rw [hseen]
      exact List.mem_append_left _ (h.piped helper pipe byte (hpipes ▸ hpipe) hbyte)
    · intro active hactive
      rw [hseen]
      exact List.mem_append_left _ (h.asked active (hask ▸ hactive))
    · rw [hresult, hseen]
      exact h.sound.append hmore
  unfold State.settle
  split
  · rename_i r _
    obtain ⟨more, hseen, hmore⟩ := wipe_seen s r.answer
    exact hleave more hseen hmore (by simp) (by simp) (by simp) rfl
  · exact hleave [] (by simp) (by simp) rfl rfl rfl rfl

theorem inv_step (s : State) (e : Event) (t : State) (h : Inv s)
    (hstep : next s e = some t) : Inv t := by
  cases e with
  | promptReturns r => exact inv_promptReturns h r hstep
  | helperWrites helper byte => exact inv_helperWrites h helper byte hstep
  | helperCloses helper => exact inv_helperCloses h helper hstep
  | receive setItem started now =>
      obtain ⟨hpc, heq⟩ := Option.ite_none_right_eq_some.mp hstep
      cases heq
      exact inv_receive h hpc setItem started now
  | poll io now =>
      obtain ⟨hpc, heq⟩ := Option.ite_none_right_eq_some.mp hstep
      exact inv_poll h hpc io now heq
  | settle =>
      obtain ⟨hpc, heq⟩ := Option.ite_none_right_eq_some.mp hstep
      cases heq
      exact inv_settle h hpc
  | leave =>
      obtain ⟨hpc, heq⟩ := Option.ite_none_right_eq_some.mp hstep
      cases heq
      exact ⟨h.piped, by simp, h.sound, by simp, by simp, fun code hcode => by
        simpa using hcode.symm⟩

theorem inv_reachable (call : Call) (entry : Entry) {s : State}
    (h : Reach next always (authenticate call entry) s) : Inv s :=
  h.invariant (inv_authenticate call entry) fun t e u hinv _ hstep => inv_step t e u hinv hstep

/-- Over every order of events: `PAM_SUCCESS` is returned only after a helper
of this call wrote `y` and the loop read it, a password is stored only while
`result` is not `PAM_SUCCESS`, and a password taken from the prompt ends the
call with `PAM_IGNORE` or with the error of `pam_set_item`. -/
theorem authenticate_success_only_approved (call : Call) (entry : Entry) {s : State}
    (h : Reach next always (authenticate call entry) s) :
    (s.pc = .returned pamSuccess → Approved s.seen) ∧
    (∀ answer status before, .setItem answer status before ∈ s.seen →
      before ≠ pamSuccess ∧ s.result ≠ pamSuccess ∧
        ∀ code, s.pc = .returned code → code ≠ pamSuccess) ∧
    (∀ r answer, r.Typed answer → .received r ∈ s.seen →
      ∃ status before, .setItem answer status before ∈ s.seen ∧
        (s.pc = .leave ∧ s.result = storedResult status ∨
          s.pc = .returned (storedResult status))) := by
  have hinv := inv_reachable call entry h
  refine ⟨fun hpc => hinv.sound.approved (hinv.code _ hpc).symm, ?_, ?_⟩
  · intro answer status before hset
    obtain ⟨hbefore, hresult⟩ := hinv.sound.stored answer status before hset
    have hne : s.result ≠ pamSuccess := hresult ▸ storedResult_ne_success status
    exact ⟨hbefore, hne, fun code hpc => hinv.code code hpc ▸ hne⟩
  · intro r answer htyped hreceived
    obtain ⟨status, before, hset⟩ := hinv.sound.taken r answer htyped hreceived
    have hresult := (hinv.sound.stored answer status before hset).2
    have hnot (hpc : s.pc = .receive ∨ s.pc = .poll ∨ s.pc = .settle) : False :=
      (hinv.quiet hpc).2 r answer htyped hreceived
    refine ⟨status, before, hset, ?_⟩
    cases hpc : s.pc with
    | receive => exact (hnot (.inl hpc)).elim
    | poll => exact (hnot (.inr (.inl hpc))).elim
    | settle => exact (hnot (.inr (.inr hpc))).elim
    | leave => exact .inl ⟨rfl, hresult⟩
    | returned code =>
        have hcode := hinv.code code hpc
        exact .inr (by rw [hcode, hresult])

/-- A call in parallel mode for a registered user. -/
def parallelCall : Call where
  handleNull := false
  argc := 1
  argvNull := false
  argv := ["authfile=/etc/passkey/keys".toList]
  getUser := (pamSuccess, some "alice".toList)
  uevents := some [some "HID_ID=0003:00001209:00007AB1".toList]
  readToString _ := some "alice:key,data".toList
  isExecutable _ := true

/-- The phone approves while the password prompt is open. -/
theorem parallelCall_approved :
    ∃ s, Reach next always (authenticate parallelCall ⟨true, 0, ⟨0, none⟩⟩) s ∧
      s.pc = .returned pamSuccess ∧ Approved s.seen := by
  obtain ⟨s, hrun, hpc⟩ : ∃ s, replay next always
      (authenticate parallelCall ⟨true, 0, ⟨0, none⟩⟩)
      [.receive 0 false 0, .poll .notReady 0, .helperWrites 0 yes, .receive 0 false 0,
        .poll .ready 0, .settle, .leave] = some s ∧ s.pc = .returned pamSuccess :=
    ⟨_, rfl, rfl⟩
  have hreach := reach_of_replay hrun
  exact ⟨s, hreach, hpc, (authenticate_success_only_approved _ _ hreach).1 hpc⟩

end Passkey.Pam

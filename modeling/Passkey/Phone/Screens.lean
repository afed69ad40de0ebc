import Passkey.Phone.PromptActivity

/-!
What an activity shows. Whatever the system calls, and in whatever order, an
activity has one sheet or one request to unlock at most, and one that was not
closed asks again when it gets the focus. A phone learns that its lock screen
keeps the sensor from two sheets in a row that were cut short over it, and
shows no sheet over it from then on.
-/

namespace Passkey.Phone.PromptActivity

open Library
open KeyService (ActivityId)

/-- The sheets of the activity that the system still shows. -/
def State.shown (s : State) (a : ActivityId) : Nat :=
  s.sheets.countP fun sheet => sheet.activity = a && !sheet.ended

/-- How often the user is asked for the activity: sheets, and requests to unlock. -/
def State.asks (s : State) (a : ActivityId) : Nat :=
  s.shown a + (s.screens a).dismissals

/-- For each sheet that was cut short, its activity and whether that was quick. -/
abbrev Cuts := List (ActivityId × Bool)

def cut (s : State) (e : Event) (_ : State) (cuts : Cuts) : Cuts :=
  match e with
  | .error k code =>
      match s.sheets[k]? with
      | some sheet =>
          if code = BIOMETRIC_ERROR_CANCELED && !s.reported sheet.activity then
            cuts ++ [(sheet.activity, s.quick sheet.activity)]
          else cuts
      | none => cuts
  | _ => cuts

/-- The sheets of one activity that were cut short, in order. -/
def Cuts.of (cuts : Cuts) (a : ActivityId) : List Bool :=
  (cuts.filter fun x => x.1 = a).map (·.2)

structure ScreenLaw (sha : Sha256) (unlockFirst : Bool) (x : State × Cuts) : Prop where
  single : ∀ a, x.1.asks a ≤ 1
  /-- `authenticate` never finds that it is unlocking already. -/
  unguarded : ∀ a, (x.1.screens a).started = false → (x.1.screens a).unlocking = false
  again : ∀ a, (x.1.screens a).finishing = false → (x.1.onWindowFocusChanged a true).asks a = 1
  answered : ∀ a, x.1.reported a = true → (x.1.screens a).finishing = true
  learned : x.1.unlockFirst = true →
    unlockFirst = true ∨ ∃ a, [true, true] <:+: Cuts.of x.2 a
  unlocked : x.1.unlockFirst = true → ∀ e t, next sha x.1 e = some t → t.unlockFirst = true ∧
    (x.1.isKeyguardLocked = true → t.sheets.length = x.1.sheets.length)

/-! ### The invariant of one activity -/

structure Screened (s : State) (a : ActivityId) : Prop where
  atMost : s.asks a ≤ (s.screens a).started.toNat
  asking : (s.screens a).started = true → (s.screens a).finishing = false → s.asks a = 1
  unlocking : (s.screens a).unlocking = decide (0 < (s.screens a).dismissals)

/-- Nothing asks the user. -/
structure Idle (s : State) (a : ActivityId) : Prop where
  asks : s.asks a = 0
  unlocking : (s.screens a).unlocking = false

theorem Screened.idle {s : State} {a : ActivityId} (h : Screened s a)
    (hasks : s.asks a = 0) : Idle s a := by
  refine ⟨hasks, h.unlocking.trans (decide_eq_false ?_)⟩
  unfold State.asks at hasks
  omega

theorem Screened.of_idle {s : State} {a : ActivityId} (h : Idle s a)
    (hstarted : (s.screens a).started = false) : Screened s a := by
  have hasks := h.asks
  refine ⟨by omega, by simp [hstarted], h.unlocking.trans (decide_eq_false ?_).symm⟩
  unfold State.asks at hasks
  omega

/-- A step of one activity, to the others. -/
def Apart (a : ActivityId) (s t : State) : Prop :=
  ∀ b, b ≠ a → t.screens b = s.screens b ∧ t.shown b = s.shown b

theorem Apart.refl (a : ActivityId) (s : State) : Apart a s s :=
  fun _ _ => ⟨rfl, rfl⟩

theorem Apart.trans {a : ActivityId} {s t u : State} (h : Apart a s t) (h' : Apart a t u) :
    Apart a s u :=
  fun b hb => ⟨(h' b hb).1.trans (h b hb).1, (h' b hb).2.trans (h b hb).2⟩

theorem apart_setScreen (s : State) (a : ActivityId) (k : Screen) : Apart a s (s.setScreen a k) :=
  fun _ hb => ⟨setScreen_other s hb k, rfl⟩

theorem Screened.apart {a b : ActivityId} {s t : State} (h : Screened s b) (hapart : Apart a s t)
    (hb : b ≠ a) : Screened t b := by
  obtain ⟨hscreen, hshown⟩ := hapart b hb
  have hasks : t.asks b = s.asks b := by
    rw [State.asks, State.asks, hscreen, hshown]
  constructor
  · rw [hasks, hscreen]
    exact h.atMost
  · rw [hasks, hscreen]
    exact h.asking
  · rw [hscreen]
    exact h.unlocking

/-! ### The functions of an activity -/

section Functions

variable {s : State} {a : ActivityId}

theorem shown_append (l : List Sheet) (a b : ActivityId) :
    (l ++ [({activity := a} : Sheet)]).countP (fun sheet => sheet.activity = b && !sheet.ended) =
      l.countP (fun sheet => sheet.activity = b && !sheet.ended) + if a = b then 1 else 0 := by
  rw [List.countP_append, List.countP_singleton]
  simp

/-- An idle activity asks the user once. -/
theorem authenticate_spec (h : Idle s a) :
    (s.authenticate a).asks a = 1 ∧ Screened (s.authenticate a) a := by
  obtain ⟨hasks, hunlocking⟩ := h
  have hdismissals : (s.screens a).dismissals = 0 := by
    unfold State.asks at hasks
    omega
  have hshown : s.shown a = 0 := by
    unfold State.asks at hasks
    omega
  unfold State.authenticate
  dsimp only
  split
  · rw [if_neg (by simp [hunlocking])]
    have hone : (s.setScreen a {s.screens a with
        started := true
        unlocking := true
        dismissals := (s.screens a).dismissals + 1}).asks a = 1 := by
      rw [State.asks, setScreen_same]
      change s.shown a + ((s.screens a).dismissals + 1) = 1
      rw [hshown, hdismissals]
    refine ⟨hone, ?_, fun _ _ => hone, ?_⟩
    · rw [hone, setScreen_same]
      exact le_rfl
    · simp
  · generalize ht : ({s.setScreen a _ with sheets := _} : State) = t
    have hscreen : t.screens a = {s.screens a with
        started := true
        startedAt := s.elapsedRealtime} := by
      rw [← ht]
      exact setScreen_same ..
    have hone : t.asks a = 1 := by
      rw [State.asks, hscreen, State.shown, ← ht]
      rw [shown_append, if_pos rfl]
      change s.shown a + 1 + (s.screens a).dismissals = 1
      rw [hshown, hdismissals]
    refine ⟨hone, ?_, fun _ _ => hone, ?_⟩
    · rw [hone, hscreen]
      exact le_rfl
    · rw [hscreen]
      simp [hdismissals, hunlocking]

theorem apart_authenticate (s : State) (a : ActivityId) : Apart a s (s.authenticate a) := by
  unfold State.authenticate
  dsimp only
  split
  · split
    · exact apart_setScreen s a _
    · exact apart_setScreen s a _
  · intro b hb
    refine ⟨setScreen_other s hb _, ?_⟩
    rw [State.shown, shown_append, if_neg (Ne.symm hb)]
    rfl

theorem apart_ifFocused (s : State) (a : ActivityId) : Apart a s (s.ifFocused a) := by
  unfold State.ifFocused
  split
  · exact apart_authenticate s a
  · exact .refl a s

theorem ifFocused_spec (h : Idle s a) (hstarted : (s.screens a).started = false) :
    Screened (s.ifFocused a) a := by
  unfold State.ifFocused
  split
  · exact (authenticate_spec h).2
  · exact .of_idle h hstarted

theorem asks_setScreen {k : Screen} (h : k.dismissals = (s.screens a).dismissals) :
    (s.setScreen a k).asks a = s.asks a := by
  rw [State.asks, setScreen_same, h]
  rfl

/-- A change of fields that nothing here looks at. -/
theorem Screened.setScreen (h : Screened s a) {k : Screen}
    (hstarted : k.started = (s.screens a).started)
    (hfinishing : k.finishing = false → (s.screens a).finishing = false)
    (hunlocking : k.unlocking = (s.screens a).unlocking)
    (hdismissals : k.dismissals = (s.screens a).dismissals) : Screened (s.setScreen a k) a := by
  have hasks := asks_setScreen hdismissals
  constructor
  · rw [hasks, setScreen_same, hstarted]
    exact h.atMost
  · rw [hasks, setScreen_same, hstarted]
    exact fun hs hf => h.asking hs (hfinishing hf)
  · rw [setScreen_same, hunlocking, hdismissals]
    exact h.unlocking

theorem Screened.finish (h : Screened s a) : Screened (s.finish a) a :=
  h.setScreen rfl (fun hf => by cases hf) rfl rfl

/-- What the service does is nothing that the user sees here. -/
theorem Screened.service (h : Screened s a) (u : KeyService.State) :
    Screened {s with service := u} a :=
  ⟨h.atMost, h.asking, h.unlocking⟩

theorem Screened.report (h : Screened s a) (status : Int) : Screened (s.report a status) a := by
  unfold State.report
  split
  · rename_i t ht
    exact (h.service t).finish
  · exact h.finish

/-- A change that leaves the activity idle. -/
theorem idle_setScreen {k : Screen} (hshown : s.shown a = 0) (hdismissals : k.dismissals = 0)
    (hunlocking : k.unlocking = false) : Idle (s.setScreen a k) a := by
  refine ⟨?_, by rwa [setScreen_same]⟩
  rw [State.asks, setScreen_same, hdismissals]
  exact hshown

theorem Idle.shown (h : Idle s a) : s.shown a = 0 := by
  have hasks := h.asks
  unfold State.asks at hasks
  omega

theorem Idle.dismissals (h : Idle s a) : (s.screens a).dismissals = 0 := by
  have hasks := h.asks
  unfold State.asks at hasks
  omega

theorem onCanceled_spec (h : Idle s a) : Screened (s.onCanceled a) a := by
  have hidle : Idle (s.setScreen a {s.screens a with
      started := false
      quickCancels := s.quickCancels a}) a :=
    idle_setScreen h.shown h.dismissals h.unlocking
  unfold State.onCanceled
  dsimp only
  split
  · refine @ifFocused_spec {s.setScreen a _ with unlockFirst := true} a
      ⟨hidle.asks, hidle.unlocking⟩ ?_
    exact congrArg Screen.started (setScreen_same s a _)
  · exact .of_idle hidle (congrArg Screen.started (setScreen_same s a _))

/-- An activity that is closed need not ask. -/
theorem Screened.of_finishing (h : Idle s a) (hfinishing : (s.screens a).finishing = true) :
    Screened s a := by
  have hasks := h.asks
  refine ⟨by omega, by simp [hfinishing], ?_⟩
  rw [h.unlocking, h.dismissals]
  rfl

theorem idle_finish (h : Idle s a) : Screened (s.finish a) a := by
  refine .of_finishing (idle_setScreen h.shown h.dismissals h.unlocking) ?_
  exact congrArg Screen.finishing (setScreen_same s a _)

theorem idle_report (h : Idle s a) (status : Int) : Screened (s.report a status) a := by
  unfold State.report
  split
  · rename_i t ht
    exact @idle_finish {s with service := t} a ⟨h.asks, h.unlocking⟩
  · exact idle_finish h

/-- A sheet that ends is the only thing that asked. -/
theorem Screened.endSheet (h : Screened s a) {k : SheetId} {sheet : Sheet}
    (hk : s.sheets[k]? = some sheet) (ha : sheet.activity = a) (hended : sheet.ended = false) :
    Idle (s.endSheet k) a := by
  obtain ⟨hlt, hget⟩ := List.getElem?_eq_some_iff.mp hk
  have hshown : (s.endSheet k).shown a + 1 = s.shown a := by
    obtain ⟨l₁, x, l₂, hl, hlength, hmodify⟩ :=
      List.exists_of_modify (fun sheet : Sheet => {sheet with ended := true}) hlt
    obtain rfl : x = sheet := by
      rw [← hget]
      simp [hl, ← hlength]
    rw [State.shown, State.endSheet, hmodify, State.shown, hl, List.countP_append,
      List.countP_append, List.countP_cons, List.countP_cons, if_neg (by simp),
      if_pos (by simp [ha, hended])]
    omega
  have hone := h.atMost
  have hbool := Bool.toNat_le (s.screens a).started
  unfold State.asks at hone
  have hdismissals : (s.screens a).dismissals = 0 := by omega
  refine ⟨?_, h.unlocking.trans (decide_eq_false (by omega))⟩
  change (s.endSheet k).shown a + (s.screens a).dismissals = 0
  omega

theorem apart_endSheet {k : SheetId} {sheet : Sheet} (hk : s.sheets[k]? = some sheet)
    (ha : sheet.activity = a) : Apart a s (s.endSheet k) := by
  obtain ⟨hlt, hget⟩ := List.getElem?_eq_some_iff.mp hk
  intro b hb
  refine ⟨rfl, ?_⟩
  obtain ⟨l₁, x, l₂, hl, hlength, hmodify⟩ :=
    List.exists_of_modify (fun sheet : Sheet => {sheet with ended := true}) hlt
  obtain rfl : x = sheet := by
    rw [← hget]
    simp [hl, ← hlength]
  have hother : x.activity ≠ b := fun h => hb (h.symm.trans ha)
  rw [State.shown, State.endSheet, hmodify, State.shown, hl, List.countP_append,
    List.countP_append, List.countP_cons, List.countP_cons, if_neg (by simp),
    if_neg (by simp [hother])]

theorem Screened.focus (h : Screened s a) (focus : Bool) :
    Screened (s.onWindowFocusChanged a focus) a := by
  have hset : Screened (s.setScreen a {s.screens a with hasWindowFocus := focus}) a :=
    h.setScreen rfl (fun hf => hf) rfl rfl
  unfold State.onWindowFocusChanged
  dsimp only
  split
  · rename_i hstart
    simp only [Bool.and_eq_true, Bool.not_eq_true'] at hstart
    refine (authenticate_spec (hset.idle ?_)).2
    have hnone := h.atMost
    rw [hstart.1.2] at hnone
    refine (asks_setScreen ?_).trans (Nat.le_zero.mp hnone)
    rfl
  · exact hset

theorem Screened.dismissed (h : Screened s a) (hasked : (s.screens a).dismissals ≠ 0) :
    Screened (s.onDismissSucceeded a) a := by
  have hone := h.atMost
  have hbool := Bool.toNat_le (s.screens a).started
  unfold State.asks at hone
  refine ifFocused_spec (idle_setScreen (by omega) ?_ rfl)
    (congrArg Screen.started (setScreen_same s a _))
  show (s.screens a).dismissals - 1 = 0
  omega

theorem Screened.undismissed (h : Screened s a) (hasked : (s.screens a).dismissals ≠ 0) :
    Screened (s.onDismissFailed a) a := by
  have hone := h.atMost
  have hbool := Bool.toNat_le (s.screens a).started
  unfold State.asks at hone
  refine idle_finish (idle_setScreen (by omega) ?_ rfl)
  show (s.screens a).dismissals - 1 = 0
  omega

end Functions

/-! ### What one step does -/

/-- A step that is none of an activity's, or one of the functions above. -/
inductive Does (s t : State) : Event → Prop where
  | aside {e : Event} (he : ∀ k code, e ≠ .error k code) (hscreens : t.screens = s.screens)
      (hsheets : t.sheets = s.sheets) (hunlockFirst : t.unlockFirst = s.unlockFirst)
      (hreported : ∀ b, t.reported b = s.reported b) : Does s t e
  | finishes {e : Event} (he : ∀ k code, e ≠ .error k code) (a : ActivityId)
      (u : KeyService.State)
      (hreported : ∀ b, b ≠ a → t.reported b = s.reported b)
      (ht : t = {s with service := u}.finish a) : Does s t e
  | focus (a : ActivityId) (focus : Bool) (ht : t = s.onWindowFocusChanged a focus) :
      Does s t (.focus a focus)
  | reports {e : Event} (k : SheetId) (sheet : Sheet) (status : Int)
      (hk : s.sheets[k]? = some sheet) (hended : sheet.ended = false)
      (ht : t = (s.endSheet k).report sheet.activity status)
      (he : ∀ j code, e = .error j code → j = k ∧
        (code = BIOMETRIC_ERROR_CANCELED → s.reported sheet.activity = true)) : Does s t e
  | canceled (k : SheetId) (sheet : Sheet) (hk : s.sheets[k]? = some sheet)
      (hended : sheet.ended = false) (hreported : s.reported sheet.activity = false)
      (ht : t = (s.endSheet k).onCanceled sheet.activity) :
      Does s t (.error k BIOMETRIC_ERROR_CANCELED)
  | retries (k : SheetId) (sheet : Sheet) (hk : s.sheets[k]? = some sheet)
      (hended : sheet.ended = false)
      (ht : t = ((s.endSheet k).setScreen sheet.activity
        {s.screens sheet.activity with started := false}).ifFocused sheet.activity) :
      Does s t (.error k BIOMETRIC_ERROR_TIMEOUT)
  | closes (k : SheetId) (sheet : Sheet) (hk : s.sheets[k]? = some sheet)
      (hended : sheet.ended = false) (ht : t = (s.endSheet k).finish sheet.activity) :
      Does s t (.error k BIOMETRIC_ERROR_USER_CANCELED)
  | dismissed (a : ActivityId) (hasked : (s.screens a).dismissals ≠ 0)
      (ht : t = s.onDismissSucceeded a) : Does s t (.dismissed a true)
  | undismissed (a : ActivityId) (hasked : (s.screens a).dismissals ≠ 0)
      (ht : t = s.onDismissFailed a) : Does s t (.dismissed a false)

theorem reported_of_activities {s t : State}
    (h : t.service.activities = s.service.activities) (b : ActivityId) :
    t.reported b = s.reported b := by
  rw [State.reported, State.reported, h]

/-- An activity that was just created reported nothing. -/
theorem reported_create {s t : State} {id : Int}
    (h : t.service.activities = s.service.activities ++ [{id := id}]) (b : ActivityId) :
    t.reported b = s.reported b := by
  rw [State.reported, State.reported, h]
  rcases Nat.lt_trichotomy b s.service.activities.length with hlt | rfl | hgt
  · rw [List.getElem?_append_left hlt]
  · simp
  · rw [List.getElem?_eq_none (by simp; omega), List.getElem?_eq_none (by omega)]

/-- An activity that reports, to the others. -/
theorem reported_other {s t : State} {a b : ActivityId}
    (h : t.service.activities = (s.service.setReported a).activities) (hb : b ≠ a) :
    t.reported b = s.reported b := by
  rw [State.reported, State.reported, h, KeyService.State.setReported, List.getElem?_modify]
  cases s.service.activities[b]? with
  | none => rfl
  | some activity => simp [Ne.symm hb]

theorem error_does {s : State} {k : SheetId} {sheet : Sheet} (code : Int)
    (hk : s.sheets[k]? = some sheet) (hended : sheet.ended = false) :
    Does s ((s.endSheet k).onAuthenticationError sheet.activity code) (.error k code) := by
  unfold State.onAuthenticationError
  have hreported : (s.endSheet k).reported sheet.activity = s.reported sheet.activity := rfl
  rw [hreported]
  split
  · rename_i hcanceled
    simp only [Bool.and_eq_true, decide_eq_true_eq, Bool.not_eq_true'] at hcanceled
    obtain ⟨rfl, hunreported⟩ := hcanceled
    exact .canceled k sheet hk hended hunreported rfl
  · rename_i hcanceled
    split
    · rename_i htimeout
      simp only [Bool.and_eq_true, decide_eq_true_eq] at htimeout
      obtain ⟨rfl, -⟩ := htimeout
      exact .retries k sheet hk hended rfl
    · split
      · rename_i hclosed
        subst hclosed
        exact .closes k sheet hk hended rfl
      · refine .reports k sheet _ hk hended rfl fun j code' he => ?_
        cases he
        exact ⟨rfl, fun hcode => by simpa [hcode] using hcanceled⟩

theorem next_does {sha : Sha256} {s t : State} {e : Event} (h : next sha s e = some t) :
    Does s t e := by
  cases e with
  | service x =>
      obtain ⟨hof, h⟩ := Option.ite_none_left_eq_some.mp h
      obtain ⟨u, hu, rfl⟩ := Option.map_eq_some_iff.mp h
      cases showing_of_next hu with
      | same hsame => exact .aside (by simp) rfl rfl rfl (reported_of_activities hsame)
      | create id he => exact absurd he hof
      | reported a he => exact absurd he hof
  | create id =>
      obtain ⟨u, hu, rfl⟩ := Option.map_eq_some_iff.mp h
      obtain ⟨-, hcreated⟩ := Option.ite_none_right_eq_some.mp hu
      cases hcreated
      unfold State.onCreate
      dsimp only
      split
      · exact .finishes (by simp) _ _ (fun b _ => reported_create rfl b) rfl
      · exact .aside (by simp) rfl rfl rfl (reported_create rfl)
  | focus a focus =>
      obtain ⟨-, h⟩ := Option.ite_none_right_eq_some.mp h
      exact .focus a focus (Option.some.inj h).symm
  | succeeded k =>
      simp only [next] at h
      split at h
      · rename_i sheet hsheet
        obtain ⟨hshown, h⟩ := Option.ite_none_left_eq_some.mp h
        refine .reports k sheet _ hsheet (Bool.eq_false_iff.mpr hshown) (Option.some.inj h).symm ?_
        intro j code he
        cases he
      · cases h
  | error k code =>
      simp only [next] at h
      split at h
      · rename_i sheet hsheet
        obtain ⟨hshown, h⟩ := Option.ite_none_left_eq_some.mp h
        rw [← Option.some.inj h]
        exact error_does code hsheet (Bool.eq_false_iff.mpr hshown)
      · cases h
  | dismissed a succeeded =>
      obtain ⟨hasked, h⟩ := Option.ite_none_left_eq_some.mp h
      cases succeeded with
      | true => exact .dismissed a hasked (Option.some.inj h).symm
      | false => exact .undismissed a hasked (Option.some.inj h).symm
  | abort a =>
      obtain ⟨u, hu, rfl⟩ := Option.map_eq_some_iff.mp h
      obtain ⟨-, heq⟩ := Option.ite_none_right_eq_some.mp hu
      cases heq
      exact .finishes (by simp) a _ (fun b hb => reported_other rfl hb) rfl
  | destroy a =>
      obtain ⟨u, hu, rfl⟩ := Option.map_eq_some_iff.mp h
      refine .aside (by simp) rfl rfl rfl (reported_of_activities ?_)
      unfold KeyService.State.destroy at hu
      split at hu
      · split at hu
        all_goals
          cases hu
          rfl
      · cases hu
  | keyguard locked | elapse now =>
      cases h
      exact .aside (by simp) rfl rfl rfl fun _ => rfl

theorem apart_report (s : State) (a : ActivityId) (status : Int) :
    Apart a s (s.report a status) := by
  unfold State.report
  split <;> exact apart_setScreen _ a _

theorem apart_onCanceled (s : State) (a : ActivityId) : Apart a s (s.onCanceled a) := by
  unfold State.onCanceled
  dsimp only
  split
  · exact (apart_setScreen s a _).trans
      (apart_ifFocused {s.setScreen a _ with unlockFirst := true} a)
  · exact apart_setScreen s a _

theorem apart_focus (s : State) (a : ActivityId) (focus : Bool) :
    Apart a s (s.onWindowFocusChanged a focus) := by
  unfold State.onWindowFocusChanged
  dsimp only
  split
  · exact (apart_setScreen s a _).trans (apart_authenticate (s.setScreen a _) a)
  · exact apart_setScreen s a _

/-- What a step that concerns one activity has to keep of it. -/
theorem screened_of {s t : State} {a : ActivityId} (h : ∀ b, Screened s b)
    (hapart : Apart a s t) (ha : Screened t a) (b : ActivityId) : Screened t b := by
  by_cases hb : b = a
  · exact hb ▸ ha
  · exact (h b).apart hapart hb

theorem Does.screened {s t : State} {e : Event} (hdoes : Does s t e) (h : ∀ b, Screened s b) :
    ∀ b, Screened t b := by
  cases hdoes with
  | aside he hscreens hsheets hunlockFirst hreported =>
      intro b
      have hasks : t.asks b = s.asks b := by
        rw [State.asks, State.asks, State.shown, State.shown, hscreens, hsheets]
      exact ⟨by rw [hasks, hscreens]; exact (h b).atMost,
        by rw [hasks, hscreens]; exact (h b).asking, by rw [hscreens]; exact (h b).unlocking⟩
  | finishes he a u hreported ht =>
      subst ht
      exact screened_of h (apart_setScreen {s with service := u} a _) ((h a).service u).finish
  | focus a focus ht =>
      subst ht
      exact screened_of h (apart_focus s a focus) ((h a).focus focus)
  | reports k sheet status hk hended ht he =>
      subst ht
      exact screened_of h ((apart_endSheet hk rfl).trans (apart_report _ _ status))
        (idle_report ((h _).endSheet hk rfl hended) status)
  | canceled k sheet hk hended hreported ht =>
      subst ht
      exact screened_of h ((apart_endSheet hk rfl).trans (apart_onCanceled _ _))
        (onCanceled_spec ((h _).endSheet hk rfl hended))
  | retries k sheet hk hended ht =>
      subst ht
      have hidle := (h _).endSheet hk rfl hended
      refine screened_of h ((apart_endSheet hk rfl).trans
        ((apart_setScreen _ _ _).trans (apart_ifFocused _ _))) (ifFocused_spec ?_ ?_)
      · exact idle_setScreen hidle.shown hidle.dismissals hidle.unlocking
      · exact congrArg Screen.started (setScreen_same ..)
  | closes k sheet hk hended ht =>
      subst ht
      exact screened_of h ((apart_endSheet hk rfl).trans (apart_setScreen _ _ _))
        (idle_finish ((h _).endSheet hk rfl hended))
  | dismissed a hasked ht =>
      subst ht
      exact screened_of h ((apart_setScreen s a _).trans (apart_ifFocused (s.setScreen a _) a))
        ((h a).dismissed hasked)
  | undismissed a hasked ht =>
      subst ht
      exact screened_of h ((apart_setScreen s a _).trans (apart_setScreen (s.setScreen a _) a _))
        ((h a).undismissed hasked)

/-! ### Reports -/

/-- A closed activity stays closed, and the count of quick cuts stays. -/
def Still (s t : State) : Prop :=
  ∀ b, ((s.screens b).finishing = true → (t.screens b).finishing = true) ∧
    (t.screens b).quickCancels = (s.screens b).quickCancels

theorem Still.refl (s : State) : Still s s :=
  fun _ => ⟨id, rfl⟩

theorem Still.trans {s t u : State} (h : Still s t) (h' : Still t u) : Still s u :=
  fun b => ⟨(h' b).1 ∘ (h b).1, (h' b).2.trans (h b).2⟩

theorem still_setScreen {s : State} {a : ActivityId} {k : Screen}
    (hfinishing : (s.screens a).finishing = true → k.finishing = true)
    (hquickCancels : k.quickCancels = (s.screens a).quickCancels) : Still s (s.setScreen a k) := by
  intro b
  by_cases hb : b = a
  · subst hb
    rw [setScreen_same]
    exact ⟨hfinishing, hquickCancels⟩
  · rw [setScreen_other s hb]
    exact ⟨id, rfl⟩

theorem still_finish (s : State) (a : ActivityId) : Still s (s.finish a) :=
  still_setScreen (fun _ => rfl) rfl

theorem still_authenticate (s : State) (a : ActivityId) : Still s (s.authenticate a) := by
  unfold State.authenticate
  dsimp only
  split
  · split
    · exact still_setScreen (fun h => h) rfl
    · exact still_setScreen (fun h => h) rfl
  · exact @still_setScreen s a _ (fun h => h) rfl

theorem still_ifFocused (s : State) (a : ActivityId) : Still s (s.ifFocused a) := by
  unfold State.ifFocused
  split
  · exact still_authenticate s a
  · exact .refl s

theorem still_focus (s : State) (a : ActivityId) (focus : Bool) :
    Still s (s.onWindowFocusChanged a focus) := by
  have hset : Still s (s.setScreen a {s.screens a with hasWindowFocus := focus}) :=
    still_setScreen (fun h => h) rfl
  unfold State.onWindowFocusChanged
  dsimp only
  split
  · exact hset.trans (still_authenticate _ a)
  · exact hset

theorem still_report (s : State) (a : ActivityId) (status : Int) :
    Still s (s.report a status) := by
  unfold State.report
  split
  · exact still_finish {s with service := _} a
  · exact still_finish s a

theorem still_retry (s : State) (k : SheetId) (a : ActivityId) :
    Still s (((s.endSheet k).setScreen a {s.screens a with started := false}).ifFocused a) := by
  have hset : Still (s.endSheet k)
      ((s.endSheet k).setScreen a {s.screens a with started := false}) :=
    still_setScreen (fun h => h) rfl
  exact hset.trans (still_ifFocused _ a)

theorem still_dismissed (s : State) (a : ActivityId) : Still s (s.onDismissSucceeded a) := by
  have hset : Still s (s.setScreen a {s.screens a with
      unlocking := false
      started := false
      dismissals := (s.screens a).dismissals - 1}) := still_setScreen (fun h => h) rfl
  exact hset.trans (still_ifFocused _ a)

theorem still_undismissed (s : State) (a : ActivityId) : Still s (s.onDismissFailed a) := by
  have hset : Still s (s.setScreen a {s.screens a with
      unlocking := false
      dismissals := (s.screens a).dismissals - 1}) := still_setScreen (fun h => h) rfl
  exact hset.trans (still_finish _ a)

/-- A sheet that was cut short is counted for its activity. -/
theorem onCanceled_screen (s : State) (a b : ActivityId) :
    ((s.screens b).finishing = true → ((s.onCanceled a).screens b).finishing = true) ∧
      ((s.onCanceled a).screens b).quickCancels =
        if b = a then s.quickCancels a else (s.screens b).quickCancels := by
  generalize ht : s.setScreen a {s.screens a with
    started := false
    quickCancels := s.quickCancels a} = t
  have hset : ((s.screens b).finishing = true → (t.screens b).finishing = true) ∧
      (t.screens b).quickCancels =
        if b = a then s.quickCancels a else (s.screens b).quickCancels := by
    rw [← ht]
    split
    · rename_i hb
      subst hb
      rw [setScreen_same]
      exact ⟨id, rfl⟩
    · rename_i hb
      rw [setScreen_other s hb]
      exact ⟨id, rfl⟩
  unfold State.onCanceled
  dsimp only
  rw [ht]
  split
  · have hstill := still_ifFocused {t with unlockFirst := true} a b
    exact ⟨fun h => hstill.1 (hset.1 h), hstill.2.trans hset.2⟩
  · exact hset

theorem Does.finishing {s t : State} {e : Event} (hdoes : Does s t e) {b : ActivityId}
    (h : (s.screens b).finishing = true) : (t.screens b).finishing = true := by
  cases hdoes with
  | aside he hscreens hsheets hunlockFirst hreported => exact hscreens ▸ h
  | finishes he a u hreported ht =>
      subst ht
      exact (still_finish {s with service := u} a b).1 h
  | focus a focus ht =>
      subst ht
      exact (still_focus s a focus b).1 h
  | reports k sheet status hk hended ht he =>
      subst ht
      exact (still_report (s.endSheet k) _ status b).1 h
  | canceled k sheet hk hended hreported ht =>
      subst ht
      exact (onCanceled_screen (s.endSheet k) _ b).1 h
  | retries k sheet hk hended ht =>
      subst ht
      exact (still_retry s k _ b).1 h
  | closes k sheet hk hended ht =>
      subst ht
      exact (still_finish (s.endSheet k) _ b).1 h
  | dismissed a hasked ht =>
      subst ht
      exact (still_dismissed s a b).1 h
  | undismissed a hasked ht =>
      subst ht
      exact (still_undismissed s a b).1 h

theorem report_answered (s : State) (a : ActivityId) (status : Int) (b : ActivityId) :
    ((s.report a status).screens a).finishing = true ∧
      (b ≠ a → (s.report a status).reported b = s.reported b) := by
  unfold State.report
  split
  · rename_i t ht
    refine ⟨congrArg Screen.finishing (setScreen_same ..), fun hb => ?_⟩
    unfold KeyService.State.report at ht
    split at ht
    · obtain ⟨-, heq⟩ := Option.ite_none_left_eq_some.mp ht
      cases heq
      exact reported_other (answer_activities ..) hb
    · cases ht
  · exact ⟨congrArg Screen.finishing (setScreen_same ..), fun _ => rfl⟩

theorem reported_of_service {s t : State} (h : t.service = s.service) (b : ActivityId) :
    t.reported b = s.reported b := by
  rw [State.reported, State.reported, h]

/-- An activity that reported is closed. -/
theorem Does.answered {s t : State} {e : Event} (hdoes : Does s t e)
    (h : ∀ b, s.reported b = true → (s.screens b).finishing = true) (b : ActivityId)
    (hb : t.reported b = true) : (t.screens b).finishing = true := by
  have hkept (hsame : t.reported b = s.reported b) : (t.screens b).finishing = true :=
    hdoes.finishing (h b (hsame ▸ hb))
  cases hdoes with
  | aside he hscreens hsheets hunlockFirst hreported => exact hkept (hreported b)
  | finishes he a u hreported ht =>
      by_cases hba : b = a
      · subst hba ht
        exact congrArg Screen.finishing (setScreen_same ..)
      · exact hkept (hreported b hba)
  | focus a focus ht =>
      exact hkept (ht ▸ reported_of_service (focus_service s a focus) b)
  | reports k sheet status hk hended ht he =>
      have hreport := report_answered (s.endSheet k) sheet.activity status b
      by_cases hba : b = sheet.activity
      · subst hba ht
        exact hreport.1
      · exact hkept (ht ▸ hreport.2 hba)
  | canceled k sheet hk hended hreported ht =>
      exact hkept (ht ▸ reported_of_service (onCanceled_service (s.endSheet k) _) b)
  | retries k sheet hk hended ht =>
      refine hkept (ht ▸ reported_of_service ?_ b)
      rw [ifFocused_service, setScreen_service, endSheet_service]
  | closes k sheet hk hended ht => exact hkept (ht ▸ rfl)
  | dismissed a hasked ht =>
      exact hkept (ht ▸ reported_of_service (onDismissSucceeded_service s a) b)
  | undismissed a hasked ht => exact hkept (ht ▸ rfl)

/-! ### The lock screen -/

/-- How many sheets at the end of the list were quickly cut short. -/
def quickRun (l : List Bool) : Nat :=
  (l.reverse.takeWhile id).length

theorem quickRun_snoc (l : List Bool) (quick : Bool) :
    quickRun (l ++ [quick]) = if quick then quickRun l + 1 else 0 := by
  cases quick <;> simp [quickRun]

theorem quickRun_two {l : List Bool} (h : quickRun l = 2) : [true, true] <:+: l := by
  rcases List.eq_nil_or_concat l with rfl | ⟨init, last, rfl⟩
  · cases h
  · rw [List.concat_eq_append, quickRun_snoc] at h
    split at h
    · rename_i hlast
      rcases List.eq_nil_or_concat init with rfl | ⟨more, before, rfl⟩
      · cases h
      · rw [List.concat_eq_append, quickRun_snoc] at h
        split at h
        · rename_i hbefore
          refine ⟨more, [], ?_⟩
          simp [hlast, hbefore]
        · cases h
    · cases h

theorem of_append (cuts : Cuts) (a : ActivityId) (quick : Bool) (b : ActivityId) :
    Cuts.of (cuts ++ [(a, quick)]) b =
      if b = a then Cuts.of cuts b ++ [quick] else Cuts.of cuts b := by
  rw [Cuts.of, List.filter_append, List.map_append]
  split
  · rename_i hb
    simp [hb, Cuts.of]
  · rename_i hb
    simp [Ne.symm hb, Cuts.of]

/-- The cuts of an activity are counted since the last that was not quick. -/
def Counted (s : State) (cuts : Cuts) : Prop :=
  ∀ b, (s.screens b).quickCancels = quickRun (Cuts.of cuts b)

theorem Counted.still {s t : State} {cuts cuts' : Cuts} (h : Counted s cuts)
    (hcuts : cuts' = cuts) (hstill : Still s t) : Counted t cuts' := by
  subst hcuts
  exact fun b => (hstill b).2.trans (h b)

theorem Does.counted {s t : State} {e : Event} (hdoes : Does s t e) {cuts : Cuts}
    (h : Counted s cuts) : Counted t (cut s e t cuts) := by
  have hquiet (hne : ∀ k code, e ≠ .error k code) : cut s e t cuts = cuts := by
    unfold cut
    split
    · exact absurd rfl (hne _ _)
    · rfl
  cases hdoes with
  | aside he hscreens hsheets hunlockFirst hreported =>
      refine h.still (hquiet he) fun b => ?_
      rw [hscreens]
      exact ⟨id, rfl⟩
  | finishes he a u hreported ht =>
      subst ht
      exact h.still (hquiet he) (still_finish {s with service := u} a)
  | focus a focus ht =>
      subst ht
      exact h.still rfl (still_focus s a focus)
  | reports k sheet status hk hended ht he =>
      subst ht
      refine h.still ?_ (still_report (s.endSheet k) _ status)
      unfold cut
      split
      · rename_i j code
        obtain ⟨rfl, hreported⟩ := he j code rfl
        rw [hk]
        refine if_neg fun hcut => ?_
        simp only [Bool.and_eq_true, decide_eq_true_eq, Bool.not_eq_true'] at hcut
        rw [hreported hcut.1] at hcut
        exact Bool.noConfusion hcut.2
      · rfl
  | canceled k sheet hk hended hreported ht =>
      subst ht
      have hcut (t : State) : cut s (.error k BIOMETRIC_ERROR_CANCELED) t cuts =
          cuts ++ [(sheet.activity, s.quick sheet.activity)] := by
        simp [cut, hk, hreported]
      intro b
      rw [(onCanceled_screen (s.endSheet k) sheet.activity b).2, hcut, of_append]
      split
      · rename_i hb
        rw [quickRun_snoc, hb, ← h sheet.activity]
        rfl
      · exact h b
  | retries k sheet hk hended ht =>
      subst ht
      exact h.still (by simp [cut, hk]) (still_retry s k _)
  | closes k sheet hk hended ht =>
      subst ht
      exact h.still (by simp [cut, hk]) (still_finish (s.endSheet k) _)
  | dismissed a hasked ht =>
      subst ht
      exact h.still rfl (still_dismissed s a)
  | undismissed a hasked ht =>
      subst ht
      exact h.still rfl (still_undismissed s a)

/-- Nothing is learned, and where it was, no sheet is added over the lock screen. -/
structure Learned (s t : State) : Prop where
  unlockFirst : t.unlockFirst = s.unlockFirst
  locked : t.isKeyguardLocked = s.isKeyguardLocked
  sheets : s.unlockFirst = true → s.isKeyguardLocked = true → t.sheets.length = s.sheets.length

theorem Learned.refl (s : State) : Learned s s :=
  ⟨rfl, rfl, fun _ _ => rfl⟩

theorem Learned.trans {s t u : State} (h : Learned s t) (h' : Learned t u) : Learned s u where
  unlockFirst := h'.unlockFirst.trans h.unlockFirst
  locked := h'.locked.trans h.locked
  sheets hlearned hlocked :=
    (h'.sheets (h.unlockFirst.trans hlearned) (h.locked.trans hlocked)).trans
      (h.sheets hlearned hlocked)

theorem learned_setScreen (s : State) (a : ActivityId) (k : Screen) :
    Learned s (s.setScreen a k) :=
  ⟨rfl, rfl, fun _ _ => rfl⟩

theorem learned_endSheet (s : State) (k : SheetId) : Learned s (s.endSheet k) :=
  ⟨rfl, rfl, fun _ _ => List.length_modify ..⟩

theorem learned_authenticate (s : State) (a : ActivityId) : Learned s (s.authenticate a) := by
  unfold State.authenticate
  dsimp only
  split
  · split
    · exact learned_setScreen s a _
    · exact learned_setScreen s a _
  · rename_i hshow
    refine ⟨rfl, rfl, fun hlearned hlocked => ?_⟩
    simp [hlearned, hlocked] at hshow

theorem learned_ifFocused (s : State) (a : ActivityId) : Learned s (s.ifFocused a) := by
  unfold State.ifFocused
  split
  · exact learned_authenticate s a
  · exact .refl s

theorem learned_focus (s : State) (a : ActivityId) (focus : Bool) :
    Learned s (s.onWindowFocusChanged a focus) := by
  unfold State.onWindowFocusChanged
  dsimp only
  split
  · exact (learned_setScreen s a _).trans (learned_authenticate _ a)
  · exact learned_setScreen s a _

theorem learned_report (s : State) (a : ActivityId) (status : Int) :
    Learned s (s.report a status) := by
  unfold State.report
  split <;> exact ⟨rfl, rfl, fun _ _ => rfl⟩

/-- The second quick cut in a row teaches the phone about its lock screen. -/
theorem onCanceled_learns (s : State) (a : ActivityId) :
    (s.onCanceled a).unlockFirst = (s.unlockFirst || s.quickCancels a = 2) ∧
      (s.unlockFirst = true → s.isKeyguardLocked = true →
        (s.onCanceled a).sheets.length = s.sheets.length) := by
  unfold State.onCanceled
  dsimp only
  split
  · rename_i htwo
    have hfocused := learned_ifFocused {s.setScreen a {s.screens a with
      started := false
      quickCancels := s.quickCancels a} with unlockFirst := true} a
    refine ⟨hfocused.unlockFirst.trans ?_, fun _ hlocked => hfocused.sheets rfl hlocked⟩
    simp [htwo]
  · rename_i htwo
    refine ⟨?_, fun _ _ => rfl⟩
    simp [htwo, State.setScreen]

/-- What a step does to what the phone has learned. -/
theorem Does.learns {s t : State} {e : Event} (hdoes : Does s t e) :
    (t.unlockFirst = true → s.unlockFirst = true ∨ ∃ a, (t.screens a).quickCancels = 2) ∧
      (s.unlockFirst = true → t.unlockFirst = true ∧
        (s.isKeyguardLocked = true → t.sheets.length = s.sheets.length)) := by
  have hof (h : Learned s t) :
      (t.unlockFirst = true → s.unlockFirst = true ∨ ∃ a, (t.screens a).quickCancels = 2) ∧
        (s.unlockFirst = true → t.unlockFirst = true ∧
          (s.isKeyguardLocked = true → t.sheets.length = s.sheets.length)) :=
    ⟨fun ht => .inl (h.unlockFirst ▸ ht), fun hs => ⟨h.unlockFirst.trans hs, h.sheets hs⟩⟩
  cases hdoes with
  | aside he hscreens hsheets hunlockFirst hreported =>
      refine ⟨fun ht => .inl (hunlockFirst ▸ ht), fun hs => ⟨hunlockFirst.trans hs, fun _ => ?_⟩⟩
      rw [hsheets]
  | finishes he a u hreported ht => exact hof (ht ▸ ⟨rfl, rfl, fun _ _ => rfl⟩)
  | focus a focus ht => exact hof (ht ▸ learned_focus s a focus)
  | reports k sheet status hk hended ht he =>
      exact hof (ht ▸ (learned_endSheet s k).trans (learned_report ..))
  | canceled k sheet hk hended hreported ht =>
      obtain ⟨hlearns, hsheets⟩ := onCanceled_learns (s.endSheet k) sheet.activity
      have hscreen := (onCanceled_screen (s.endSheet k) sheet.activity sheet.activity).2
      rw [← ht] at hlearns hsheets hscreen
      rw [if_pos rfl] at hscreen
      constructor
      · intro hlearned
        rw [hlearns, Bool.or_eq_true, decide_eq_true_eq] at hlearned
        exact hlearned.imp_right fun htwo => ⟨sheet.activity, hscreen.trans htwo⟩
      · intro hlearned
        have hbefore : (s.endSheet k).unlockFirst = true := hlearned
        refine ⟨by rw [hlearns, hbefore, Bool.true_or], fun hlocked => ?_⟩
        exact (hsheets hbefore hlocked).trans (List.length_modify ..)
  | retries k sheet hk hended ht =>
      exact hof (ht ▸ (learned_endSheet s k).trans
        ((learned_setScreen _ _ _).trans (learned_ifFocused _ _)))
  | closes k sheet hk hended ht =>
      exact hof (ht ▸ (learned_endSheet s k).trans (learned_setScreen _ _ _))
  | dismissed a hasked ht =>
      exact hof (ht ▸ (learned_setScreen s a _).trans (learned_ifFocused _ a))
  | undismissed a hasked ht =>
      exact hof (ht ▸ (learned_setScreen s a _).trans (learned_setScreen _ a _))

/-! ### The law -/

structure Watched (unlockFirst : Bool) (x : State × Cuts) : Prop where
  screened : ∀ b, Screened x.1 b
  answered : ∀ b, x.1.reported b = true → (x.1.screens b).finishing = true
  counted : Counted x.1 x.2
  learned : x.1.unlockFirst = true → unlockFirst = true ∨ ∃ a, [true, true] <:+: Cuts.of x.2 a

theorem infix_cut (s : State) (e : Event) (t : State) (cuts : Cuts) {l : List Bool}
    {a : ActivityId} (h : l <:+: Cuts.of cuts a) : l <:+: Cuts.of (cut s e t cuts) a := by
  have happend (b : ActivityId) (quick : Bool) : l <:+: Cuts.of (cuts ++ [(b, quick)]) a := by
    rw [of_append]
    split
    · exact h.trans (List.prefix_append ..).isInfix
    · exact h
  unfold cut
  split
  · split
    · split
      · exact happend ..
      · exact h
    · exact h
  · exact h

theorem watched_reachable {sha : Sha256} {store : Store} {keys : List Bytes} {unlockFirst : Bool}
    {x : State × Cuts}
    (h : Reach (watch (next sha) cut) always (start store keys unlockFirst, []) x) :
    Watched unlockFirst x := by
  have hstart : Watched unlockFirst (start store keys unlockFirst, []) := by
    refine ⟨fun b => ⟨le_rfl, ?_, rfl⟩, ?_, fun b => rfl, fun hlearned => .inl hlearned⟩
    · simp [start]
    · simp [start, State.reported, KeyService.start]
  refine h.invariant hstart ?_
  rintro ⟨s, cuts⟩ e ⟨t, cuts'⟩ hx _ hnext
  obtain ⟨hstep, hrecord⟩ := watch_eq hnext
  simp only at hstep hrecord
  subst hrecord
  have hdoes := next_does hstep
  have hcounted := hdoes.counted hx.counted
  refine ⟨hdoes.screened hx.screened, hdoes.answered hx.answered, hcounted, fun hlearned => ?_⟩
  rcases hdoes.learns.1 hlearned with hbefore | ⟨a, htwo⟩
  · rcases hx.learned hbefore with hold | ⟨a, hquick⟩
    · exact .inl hold
    · exact .inr ⟨a, infix_cut s e t cuts hquick⟩
  · exact .inr ⟨a, quickRun_two ((hcounted a).symm.trans htwo)⟩

/-- An activity that gets the focus asks, unless it is closed. -/
theorem Watched.again {unlockFirst : Bool} {x : State × Cuts} (h : Watched unlockFirst x)
    {a : ActivityId} (hopen : (x.1.screens a).finishing = false) :
    (x.1.onWindowFocusChanged a true).asks a = 1 := by
  obtain ⟨s, cuts⟩ := x
  have hreported : s.reported a = false := by
    by_contra hne
    have hclosed := h.answered a (Bool.not_eq_false _ ▸ hne)
    rw [hopen] at hclosed
    cases hclosed
  cases hstarted : (s.screens a).started with
  | true =>
      have hsame : s.onWindowFocusChanged a true =
          s.setScreen a {s.screens a with hasWindowFocus := true} := by
        simp [State.onWindowFocusChanged, hstarted]
      have hone := (h.screened a).asking hstarted hopen
      rw [hsame]
      refine (asks_setScreen ?_).trans hone
      rfl
  | false =>
      have hsame : s.onWindowFocusChanged a true =
          (s.setScreen a {s.screens a with hasWindowFocus := true}).authenticate a := by
        simp [State.onWindowFocusChanged, hstarted, hreported]
      have hset : Screened (s.setScreen a {s.screens a with hasWindowFocus := true}) a :=
        (h.screened a).setScreen rfl (fun hf => hf) rfl rfl
      rw [hsame]
      refine (authenticate_spec (hset.idle ?_)).1
      have hnone := (h.screened a).atMost
      rw [hstarted] at hnone
      refine (asks_setScreen ?_).trans (Nat.le_zero.mp hnone)
      rfl

/-- Over every run, whatever the system calls and in whatever order. -/
theorem screen_law {sha : Sha256} {store : Store} {keys : List Bytes} {unlockFirst : Bool}
    {x : State × Cuts}
    (h : Reach (watch (next sha) cut) always (start store keys unlockFirst, []) x) :
    ScreenLaw sha unlockFirst x := by
  have hwatched := watched_reachable h
  constructor
  · intro a
    exact (hwatched.screened a).atMost.trans (Bool.toNat_le _)
  · intro a hstarted
    have hnone := (hwatched.screened a).atMost
    rw [hstarted] at hnone
    exact ((hwatched.screened a).idle (Nat.le_zero.mp hnone)).unlocking
  · intro a hopen
    exact hwatched.again hopen
  · exact hwatched.answered
  · exact hwatched.learned
  · intro hlearned e t hnext
    exact (next_does hnext).learns.2 hlearned

/-- On a phone that learned about its lock screen, the activity asks to unlock
first, and shows its sheet after that. -/
def unlockedEvents : List Event :=
  [.service (.receive 0 (frame (KeyService.REQ :: [0, 0, 0, 1] ++ [0x08]))),
    .service (.serve 0 true), .service (.execute 0), .service (.enter 0), .service (.confirm 0),
    .create 1, .keyguard true, .focus 0 true, .focus 0 false, .keyguard false, .focus 0 true,
    .dismissed 0 true]

theorem screen_law_unlocked : ∃ x, Reach (watch (next zeroDigest) cut) always
      (start [] [] true, []) x ∧ x.1.shown 0 = 1 ∧ (x.1.screens 0).dismissals = 0 ∧
      ScreenLaw zeroDigest true x := by
  obtain ⟨x, hrun, hshown⟩ : ∃ x, replay (watch (next zeroDigest) cut) always
      (start [] [] true, []) unlockedEvents = some x ∧
      x.1.shown 0 = 1 ∧ (x.1.screens 0).dismissals = 0 := ⟨_, rfl, rfl, rfl⟩
  have hreach := reach_of_replay hrun
  exact ⟨x, hreach, hshown.1, hshown.2, screen_law hreach⟩

end Passkey.Phone.PromptActivity

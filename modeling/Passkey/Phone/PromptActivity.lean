import Passkey.Library.Refinements
import Passkey.Phone.Prompts

/-!
The screen of a prompt. It lets the system ask for a fingerprint, tells the
service what came of that, and copes with a locked screen that keeps the sensor
for itself. The system calls back as it likes; the service is the one that
`confirm` waits in.
-/

namespace Passkey.Phone.PromptActivity

open Library
open KeyService (ActivityId Activity Entry)

abbrev BIOMETRIC_ERROR_TIMEOUT : Int := 3
abbrev BIOMETRIC_ERROR_CANCELED : Int := 5
abbrev BIOMETRIC_ERROR_USER_CANCELED : Int := 10

abbrev SheetId := Nat

/-- The fields of an activity, but for those that the service's model has
already, and what the system holds for it. -/
structure Screen where
  started : Bool := false
  unlocking : Bool := false
  startedAt : Int := 0
  quickCancels : Nat := 0
  hasWindowFocus : Bool := false
  finishing : Bool := false
  /-- The calls of `requestDismissKeyguard` that were not answered yet. -/
  dismissals : Nat := 0

/-- What the system shows for one call of `BiometricPrompt.authenticate`. It
calls back once with a success or an error. -/
structure Sheet where
  activity : ActivityId
  ended : Bool := false

structure State where
  service : KeyService.State
  screens : ActivityId → Screen := fun _ => {}
  sheets : List Sheet := []
  /-- The preference that all activities share. -/
  unlockFirst : Bool := false
  isKeyguardLocked : Bool := false
  /-- `SystemClock.elapsedRealtime()`. -/
  elapsedRealtime : Int := 0

namespace State

def setScreen (s : State) (a : ActivityId) (k : Screen) : State :=
  {s with screens := Function.update s.screens a k}

def finish (s : State) (a : ActivityId) : State :=
  s.setScreen a {s.screens a with finishing := true}

def reported (s : State) (a : ActivityId) : Bool :=
  (s.service.activities[a]?).any (·.reported)

/-- `onCreate`, once the system created the activity. -/
def onCreate (s : State) (id : Int) (t : KeyService.State) : State :=
  let u := {s with service := t}
  if id ≠ s.service.prompt.current then u.finish s.service.activities.length else u

def authenticate (s : State) (a : ActivityId) : State :=
  let k := {s.screens a with started := true}
  if s.isKeyguardLocked && (s.unlockFirst || k.quickCancels ≥ 2) then
    if k.unlocking then s.setScreen a k
    else s.setScreen a {k with unlocking := true, dismissals := k.dismissals + 1}
  else
    {s.setScreen a {k with startedAt := s.elapsedRealtime} with
      sheets := s.sheets ++ [{activity := a}]}

/-- `if (hasWindowFocus()) authenticate()`. -/
def ifFocused (s : State) (a : ActivityId) : State :=
  if (s.screens a).hasWindowFocus then s.authenticate a else s

def onWindowFocusChanged (s : State) (a : ActivityId) (focus : Bool) : State :=
  let t := s.setScreen a {s.screens a with hasWindowFocus := focus}
  if focus && !(s.screens a).started && !s.reported a then t.authenticate a else t

def report (s : State) (a : ActivityId) (status : Int) : State :=
  match s.service.report a status with
  | some t => {s with service := t}.finish a
  | none => s.finish a

/-- Whether a sheet was cut short as by a lock screen that has the sensor. -/
def quick (s : State) (a : ActivityId) : Bool :=
  s.elapsedRealtime - (s.screens a).startedAt < 500 && s.isKeyguardLocked

/-- How many sheets in a row were, with the one that just was cut short. -/
def quickCancels (s : State) (a : ActivityId) : Nat :=
  if s.quick a then (s.screens a).quickCancels + 1 else 0

def onCanceled (s : State) (a : ActivityId) : State :=
  let t := s.setScreen a {s.screens a with started := false, quickCancels := s.quickCancels a}
  if s.quickCancels a = 2 then {t with unlockFirst := true}.ifFocused a else t

def onAuthenticationError (s : State) (a : ActivityId) (code : Int) : State :=
  if code = BIOMETRIC_ERROR_CANCELED && !s.reported a then s.onCanceled a
  else if code = BIOMETRIC_ERROR_TIMEOUT && !s.reported a then
    (s.setScreen a {s.screens a with started := false}).ifFocused a
  else if code = BIOMETRIC_ERROR_USER_CANCELED then s.finish a
  else s.report a Status.operationDenied

def onDismissSucceeded (s : State) (a : ActivityId) : State :=
  (s.setScreen a {s.screens a with
    unlocking := false
    started := false
    dismissals := (s.screens a).dismissals - 1}).ifFocused a

/-- `onDismissCancelled` and `onDismissError`. -/
def onDismissFailed (s : State) (a : ActivityId) : State :=
  (s.setScreen a {s.screens a with
    unlocking := false
    dismissals := (s.screens a).dismissals - 1}).finish a

/-- The system calls back for a sheet. -/
def endSheet (s : State) (k : SheetId) : State :=
  {s with sheets := s.sheets.modify k fun sheet => {sheet with ended := true}}

end State

inductive Event where
  | service (e : KeyService.Event)
  | create (id : Int)
  | focus (a : ActivityId) (focus : Bool)
  | succeeded (k : SheetId)
  | error (k : SheetId) (code : Int)
  | dismissed (a : ActivityId) (succeeded : Bool)
  | abort (a : ActivityId)
  | destroy (a : ActivityId)
  | keyguard (locked : Bool)
  | elapse (now : Int)

/-- The steps that the model of the service leaves to the activities. -/
def ofActivity : KeyService.Event → Bool
  | .create _ | .approve _ | .deny _ | .abort _ | .destroy _ => true
  | _ => false

def next (sha : Sha256) : Next State Event := fun s e =>
  match e with
  | .service e =>
      if ofActivity e then none
      else (KeyService.next sha s.service e).map fun t => {s with service := t}
  | .create id => (s.service.create id).map (s.onCreate id)
  | .focus a focus =>
      if a < s.service.activities.length then some (s.onWindowFocusChanged a focus) else none
  | .succeeded k =>
      match s.sheets[k]? with
      | some sheet =>
          if sheet.ended then none else some ((s.endSheet k).report sheet.activity Status.ok)
      | none => none
  | .error k code =>
      match s.sheets[k]? with
      | some sheet =>
          if sheet.ended then none
          else some ((s.endSheet k).onAuthenticationError sheet.activity code)
      | none => none
  | .dismissed a succeeded =>
      if (s.screens a).dismissals = 0 then none
      else some (if succeeded then s.onDismissSucceeded a else s.onDismissFailed a)
  | .abort a => (s.service.abort a).map fun t => {s with service := t}.finish a
  | .destroy a => (s.service.destroy a).map fun t => {s with service := t}
  | .keyguard locked => some {s with isKeyguardLocked := locked}
  | .elapse now => some {s with elapsedRealtime := now}

/-- The service as it is created, on a phone that learned about its lock screen or not. -/
def start (store : Store) (keys : List Bytes) (unlockFirst : Bool) : State where
  service := KeyService.start store keys
  unlockFirst := unlockFirst

/-! ### What the functions leave alone -/

@[simp] theorem setScreen_service (s : State) (a : ActivityId) (k : Screen) :
    (s.setScreen a k).service = s.service := rfl

@[simp] theorem setScreen_sheets (s : State) (a : ActivityId) (k : Screen) :
    (s.setScreen a k).sheets = s.sheets := rfl

@[simp] theorem setScreen_same (s : State) (a : ActivityId) (k : Screen) :
    (s.setScreen a k).screens a = k := by
  simp [State.setScreen]

@[simp] theorem finish_service (s : State) (a : ActivityId) :
    (s.finish a).service = s.service := rfl

@[simp] theorem finish_sheets (s : State) (a : ActivityId) : (s.finish a).sheets = s.sheets := rfl

@[simp] theorem onCreate_service (s : State) (id : Int) (t : KeyService.State) :
    (s.onCreate id t).service = t := by
  unfold State.onCreate
  dsimp only
  split <;> rfl

@[simp] theorem onCreate_sheets (s : State) (id : Int) (t : KeyService.State) :
    (s.onCreate id t).sheets = s.sheets := by
  unfold State.onCreate
  dsimp only
  split <;> rfl

theorem setScreen_other (s : State) {a b : ActivityId} (h : b ≠ a) (k : Screen) :
    (s.setScreen a k).screens b = s.screens b := by
  simp [State.setScreen, h]

@[simp] theorem endSheet_service (s : State) (k : SheetId) :
    (s.endSheet k).service = s.service := rfl

@[simp] theorem authenticate_service (s : State) (a : ActivityId) :
    (s.authenticate a).service = s.service := by
  unfold State.authenticate
  dsimp only
  split
  · split <;> rfl
  · rfl

@[simp] theorem ifFocused_service (s : State) (a : ActivityId) :
    (s.ifFocused a).service = s.service := by
  unfold State.ifFocused
  split
  · exact authenticate_service s a
  · rfl

@[simp] theorem focus_service (s : State) (a : ActivityId) (focus : Bool) :
    (s.onWindowFocusChanged a focus).service = s.service := by
  unfold State.onWindowFocusChanged
  dsimp only
  split
  · rw [authenticate_service, setScreen_service]
  · rfl

@[simp] theorem onCanceled_service (s : State) (a : ActivityId) :
    (s.onCanceled a).service = s.service := by
  unfold State.onCanceled
  dsimp only
  split
  · rw [ifFocused_service, setScreen_service]
  · rfl

@[simp] theorem onDismissSucceeded_service (s : State) (a : ActivityId) :
    (s.onDismissSucceeded a).service = s.service := by
  rw [State.onDismissSucceeded, ifFocused_service, setScreen_service]

/-- A report reaches the service where none did before. -/
theorem report_cases (s : State) (a : ActivityId) (status : Int) :
    s.reported a = false ∧ s.service.report a status = some (s.report a status).service ∨
      (s.report a status).service = s.service := by
  unfold State.report
  cases h : s.service.report a status with
  | none => exact .inr rfl
  | some t =>
      refine .inl ⟨?_, rfl⟩
      unfold KeyService.State.report at h
      unfold State.reported
      cases hactivity : s.service.activities[a]? with
      | none =>
          rw [hactivity] at h
          cases h
      | some activity =>
          rw [hactivity] at h
          simpa using (Option.ite_none_left_eq_some.mp h).1

/-- An error tells the service a refusal or nothing. -/
theorem error_cases (s : State) (a : ActivityId) (code : Int) :
    s.reported a = false ∧ s.service.report a Status.operationDenied
        = some (s.onAuthenticationError a code).service ∨
      (s.onAuthenticationError a code).service = s.service := by
  unfold State.onAuthenticationError
  split
  · exact .inr (onCanceled_service s a)
  · split
    · exact .inr (by rw [ifFocused_service, setScreen_service])
    · split
      · exact .inr rfl
      · exact report_cases s a Status.operationDenied

/-- What a step is to the service. -/
theorem next_service {sha : Sha256} {s t : State} {e : Event} (h : next sha s e = some t) :
    t.service = s.service ∨
      ∃ x, KeyService.next sha s.service x = some t.service ∧ (∀ a, x = .approve a →
        ∃ k sheet, e = .succeeded k ∧ s.sheets[k]? = some sheet ∧ sheet.activity = a) := by
  cases e with
  | service x =>
      obtain ⟨hof, h⟩ := Option.ite_none_left_eq_some.mp h
      obtain ⟨u, hu, rfl⟩ := Option.map_eq_some_iff.mp h
      refine .inr ⟨x, hu, fun a hx => ?_⟩
      subst hx
      exact absurd rfl hof
  | create id =>
      obtain ⟨u, hu, rfl⟩ := Option.map_eq_some_iff.mp h
      exact .inr ⟨.create id, by rwa [onCreate_service], fun a hx => by cases hx⟩
  | focus a focus =>
      obtain ⟨-, h⟩ := Option.ite_none_right_eq_some.mp h
      cases h
      exact .inl (focus_service s a focus)
  | succeeded k =>
      simp only [next] at h
      split at h
      · rename_i sheet hsheet
        obtain ⟨-, h⟩ := Option.ite_none_left_eq_some.mp h
        cases h
        rcases report_cases (s.endSheet k) sheet.activity Status.ok with ⟨-, hreport⟩ | hsame
        · refine .inr ⟨.approve sheet.activity, hreport, fun a hx => ?_⟩
          cases hx
          exact ⟨k, sheet, rfl, hsheet, rfl⟩
        · exact .inl hsame
      · cases h
  | error k code =>
      simp only [next] at h
      split at h
      · rename_i sheet hsheet
        obtain ⟨-, h⟩ := Option.ite_none_left_eq_some.mp h
        cases h
        rcases error_cases (s.endSheet k) sheet.activity code with ⟨-, hreport⟩ | hsame
        · exact .inr ⟨.deny sheet.activity, hreport, fun a hx => by cases hx⟩
        · exact .inl hsame
      · cases h
  | dismissed a succeeded =>
      obtain ⟨-, h⟩ := Option.ite_none_left_eq_some.mp h
      cases h
      cases succeeded with
      | true => exact .inl (onDismissSucceeded_service s a)
      | false => exact .inl rfl
  | abort a =>
      obtain ⟨u, hu, rfl⟩ := Option.map_eq_some_iff.mp h
      exact .inr ⟨.abort a, hu, fun a hx => by cases hx⟩
  | destroy a =>
      obtain ⟨u, hu, rfl⟩ := Option.map_eq_some_iff.mp h
      exact .inr ⟨.destroy a, hu, fun a hx => by cases hx⟩
  | keyguard locked =>
      cases h
      exact .inl rfl
  | elapse now =>
      cases h
      exact .inl rfl

/-! ### What stays of activities and sheets -/

/-- What a step of the service does to the activities. -/
inductive Showing (s t : KeyService.State) (e : KeyService.Event) : Prop where
  | same (h : t.activities = s.activities)
  | create (id : Int) (he : ofActivity e = true) (h : t.activities = s.activities ++ [{id := id}])
  | reported (a : ActivityId) (he : ofActivity e = true)
      (h : t.activities = (s.setReported a).activities)

theorem answer_activities (s : KeyService.State) (id status : Int) :
    (s.answer id status).activities = s.activities := by
  unfold KeyService.State.answer
  split <;> rfl

theorem showing_report {s t : KeyService.State} {e : KeyService.Event} {a : ActivityId}
    {status : Int} (he : ofActivity e = true) (h : s.report a status = some t) :
    Showing s t e := by
  unfold KeyService.State.report at h
  split at h
  · obtain ⟨-, heq⟩ := Option.ite_none_left_eq_some.mp h
    cases heq
    exact .reported a he (answer_activities ..)
  · cases h

theorem read_activities (s : KeyService.State) (c : Owner) (ok : Bool) (m : KeyService.Message) :
    (s.read c ok m).activities = s.activities := by
  cases m <;> rfl

theorem wake_activities (s : KeyService.State) (c : Owner) (task : KeyService.Task)
    (id deadline : Int) (interrupted : Bool) :
    (s.wake c task id deadline interrupted).activities = s.activities := by
  unfold KeyService.State.wake
  split <;> rfl

theorem showing_of_next {sha : Sha256} {s t : KeyService.State} {e : KeyService.Event}
    (h : KeyService.next sha s e = some t) : Showing s t e := by
  cases e with
  | serve c ok =>
      simp only [KeyService.next, KeyService.State.serve] at h
      split at h
      · split at h
        · cases h
        · cases h
          exact .same rfl
        · cases h
          exact .same (read_activities ..)
      · cases h
  | finallyStep c =>
      simp only [KeyService.next, KeyService.State.finallyStep] at h
      split at h
      · cases h
        exact .same rfl
      · cases h
        exact .same rfl
      · cases h
  | execute c | enter c =>
      simp only [KeyService.next, KeyService.State.execute, KeyService.State.enter] at h
      split at h
      · cases h
        exact .same rfl
      · cases h
  | confirm c =>
      simp only [KeyService.next, KeyService.State.confirm] at h
      split at h
      · split at h
        all_goals
          cases h
          exact .same rfl
      · cases h
  | awaitAnswer c interrupted =>
      simp only [KeyService.next, KeyService.State.awaitAnswer] at h
      split at h
      · cases h
        exact .same (wake_activities ..)
      · cases h
        exact .same (wake_activities ..)
      · cases h
  | finish c env =>
      simp only [KeyService.next, KeyService.State.finish] at h
      split at h
      · obtain ⟨-, heq⟩ := Option.ite_none_left_eq_some.mp h
        cases heq
        exact .same rfl
      · obtain ⟨-, heq⟩ := Option.ite_none_right_eq_some.mp h
        cases heq
        exact .same rfl
      · cases h
  | reply c ok =>
      simp only [KeyService.next, KeyService.State.reply] at h
      split at h
      · obtain ⟨-, heq⟩ := Option.ite_none_left_eq_some.mp h
        cases heq
        exact .same rfl
      · cases h
  | create id =>
      obtain ⟨-, heq⟩ := Option.ite_none_right_eq_some.mp h
      cases heq
      exact .create id rfl rfl
  | approve a => exact showing_report rfl h
  | deny a => exact showing_report rfl h
  | abort a =>
      obtain ⟨-, heq⟩ := Option.ite_none_right_eq_some.mp h
      cases heq
      exact .reported a rfl rfl
  | destroy a =>
      simp only [KeyService.next, KeyService.State.destroy] at h
      split at h
      · split at h
        all_goals
          cases h
          exact .same rfl
      · cases h
  | reject id =>
      obtain ⟨-, heq⟩ := Option.ite_none_right_eq_some.mp h
      cases heq
      exact .same (answer_activities ..)
  | endServe c =>
      obtain ⟨-, heq⟩ := Option.ite_none_right_eq_some.mp h
      cases heq
      exact .same rfl
  | receive c bytes | clock now =>
      cases h
      exact .same rfl

/-- An activity stays with its prompt, and one that reported has done so. -/
theorem Showing.activity {s t : KeyService.State} {e : KeyService.Event} (h : Showing s t e)
    {a : ActivityId} {activity : Activity} (ha : s.activities[a]? = some activity) :
    ∃ activity', t.activities[a]? = some activity' ∧ activity'.id = activity.id ∧
      (activity.reported = true → activity'.reported = true) := by
  cases h with
  | same hsame => exact ⟨activity, hsame ▸ ha, rfl, id⟩
  | create id he hnew =>
      refine ⟨activity, ?_, rfl, fun h => h⟩
      rw [hnew, List.getElem?_append_left (List.getElem?_eq_some_iff.mp ha).1, ha]
  | reported b he hb =>
      refine ⟨if b = a then {activity with reported := true} else activity, ?_, ?_, ?_⟩
      · rw [hb, KeyService.State.setReported, List.getElem?_modify, ha]
        rfl
      · split <;> rfl
      · intro hreported
        split
        · rfl
        · exact hreported

/-- What later steps keep of the sheets and the activities. -/
structure Keeps (s t : State) : Prop where
  sheets : ∀ (k : SheetId) (sheet : Sheet), s.sheets[k]? = some sheet →
    ∃ sheet' : Sheet, t.sheets[k]? = some sheet' ∧ sheet'.activity = sheet.activity ∧
      (sheet.ended = true → sheet'.ended = true)
  activities : ∀ (a : ActivityId) (activity : Activity), s.service.activities[a]? = some activity →
    ∃ activity' : Activity, t.service.activities[a]? = some activity' ∧ activity'.id = activity.id ∧
      (activity.reported = true → activity'.reported = true)

theorem Keeps.trans {s t u : State} (h : Keeps s t) (h' : Keeps t u) : Keeps s u where
  sheets k sheet hk := by
    obtain ⟨sheet', hsheet', hactivity, hended⟩ := h.sheets k sheet hk
    obtain ⟨sheet'', hsheet'', hactivity', hended'⟩ := h'.sheets k sheet' hsheet'
    exact ⟨sheet'', hsheet'', hactivity'.trans hactivity, hended' ∘ hended⟩
  activities a activity ha := by
    obtain ⟨activity', hactivity', hid, hreported⟩ := h.activities a activity ha
    obtain ⟨activity'', hactivity'', hid', hreported'⟩ := h'.activities a activity' hactivity'
    exact ⟨activity'', hactivity'', hid'.trans hid, hreported' ∘ hreported⟩

/-- A step that may show another sheet. -/
theorem keeps_of_prefix {s t : State} (hservice : t.service = s.service)
    (hsheets : s.sheets <+: t.sheets) : Keeps s t := by
  constructor
  · intro k sheet hk
    obtain ⟨more, hmore⟩ := hsheets
    refine ⟨sheet, ?_, rfl, id⟩
    rw [← hmore, List.getElem?_append_left (List.getElem?_eq_some_iff.mp hk).1, hk]
  · intro a activity ha
    exact ⟨activity, hservice ▸ ha, rfl, id⟩

/-- A step of the service. -/
theorem keeps_of_showing {s t : State} {e : KeyService.Event}
    (hservice : Showing s.service t.service e)
    (hsheets : t.sheets = s.sheets) : Keeps s t :=
  ⟨fun _ sheet hk => ⟨sheet, hsheets ▸ hk, rfl, id⟩, fun _ _ ha => hservice.activity ha⟩

theorem keeps_endSheet (s : State) (k : SheetId) : Keeps s (s.endSheet k) := by
  constructor
  · intro j sheet hj
    refine ⟨if k = j then {sheet with ended := true} else sheet, ?_, ?_, ?_⟩
    · rw [State.endSheet, List.getElem?_modify, hj]
      rfl
    · split <;> rfl
    · intro hended
      split
      · rfl
      · exact hended
  · intro a activity ha
    exact ⟨activity, ha, rfl, id⟩

theorem authenticate_sheets (s : State) (a : ActivityId) :
    s.sheets <+: (s.authenticate a).sheets := by
  unfold State.authenticate
  dsimp only
  split
  · split <;> exact List.prefix_rfl
  · exact List.prefix_append ..

theorem ifFocused_sheets (s : State) (a : ActivityId) :
    s.sheets <+: (s.ifFocused a).sheets := by
  unfold State.ifFocused
  split
  · exact authenticate_sheets s a
  · exact List.prefix_rfl

theorem focus_sheets (s : State) (a : ActivityId) (focus : Bool) :
    s.sheets <+: (s.onWindowFocusChanged a focus).sheets := by
  unfold State.onWindowFocusChanged
  dsimp only
  split
  · exact authenticate_sheets (s.setScreen a _) a
  · exact List.prefix_rfl

theorem onCanceled_sheets (s : State) (a : ActivityId) :
    s.sheets <+: (s.onCanceled a).sheets := by
  unfold State.onCanceled
  dsimp only
  split
  · exact ifFocused_sheets {s.setScreen a _ with unlockFirst := true} a
  · exact List.prefix_rfl

theorem keeps_report (s : State) (a : ActivityId) (status : Int) : Keeps s (s.report a status) := by
  unfold State.report
  split
  · rename_i t hreport
    exact keeps_of_showing (@showing_report _ _ (.deny a) a status rfl hreport) rfl
  · exact keeps_of_prefix rfl List.prefix_rfl

theorem keeps_error (s : State) (a : ActivityId) (code : Int) :
    Keeps s (s.onAuthenticationError a code) := by
  unfold State.onAuthenticationError
  split
  · exact keeps_of_prefix (onCanceled_service s a) (onCanceled_sheets s a)
  · split
    · refine keeps_of_prefix ?_ (ifFocused_sheets (s.setScreen a _) a)
      rw [ifFocused_service, setScreen_service]
    · split
      · exact keeps_of_prefix rfl List.prefix_rfl
      · exact keeps_report s a _

theorem next_keeps {sha : Sha256} {s t : State} {e : Event} (h : next sha s e = some t) :
    Keeps s t := by
  have hservice {x : KeyService.Event} {u : KeyService.State}
      (hu : KeyService.next sha s.service x = some u) : Keeps s {s with service := u} :=
    keeps_of_showing (showing_of_next hu) rfl
  cases e with
  | service x =>
      obtain ⟨-, h⟩ := Option.ite_none_left_eq_some.mp h
      obtain ⟨u, hu, rfl⟩ := Option.map_eq_some_iff.mp h
      exact hservice hu
  | create id =>
      obtain ⟨u, hu, rfl⟩ := Option.map_eq_some_iff.mp h
      refine keeps_of_showing (e := .create id) ?_ (onCreate_sheets s id u)
      rw [onCreate_service]
      exact @showing_of_next sha s.service u (.create id) hu
  | focus a focus =>
      obtain ⟨-, h⟩ := Option.ite_none_right_eq_some.mp h
      cases h
      exact keeps_of_prefix (focus_service s a focus) (focus_sheets s a focus)
  | succeeded k =>
      simp only [next] at h
      split at h
      · obtain ⟨-, h⟩ := Option.ite_none_left_eq_some.mp h
        cases h
        exact (keeps_endSheet s k).trans (keeps_report ..)
      · cases h
  | error k code =>
      simp only [next] at h
      split at h
      · obtain ⟨-, h⟩ := Option.ite_none_left_eq_some.mp h
        cases h
        exact (keeps_endSheet s k).trans (keeps_error ..)
      · cases h
  | dismissed a succeeded =>
      obtain ⟨-, h⟩ := Option.ite_none_left_eq_some.mp h
      cases h
      cases succeeded with
      | true =>
          exact keeps_of_prefix (onDismissSucceeded_service s a)
            (ifFocused_sheets (s.setScreen a _) a)
      | false => exact keeps_of_prefix rfl List.prefix_rfl
  | abort a =>
      obtain ⟨u, hu, rfl⟩ := Option.map_eq_some_iff.mp h
      exact keeps_of_showing (@showing_of_next sha s.service u (.abort a) hu) rfl
  | destroy a =>
      obtain ⟨u, hu, rfl⟩ := Option.map_eq_some_iff.mp h
      exact @hservice (.destroy a) u hu
  | keyguard locked =>
      cases h
      exact keeps_of_prefix rfl List.prefix_rfl
  | elapse now =>
      cases h
      exact keeps_of_prefix rfl List.prefix_rfl

/-- The service runs as its own model does. -/
theorem service_reachable {sha : Sha256} {store : Store} {keys : List Bytes} {unlockFirst : Bool}
    {ok : State → Event → Prop} {s : State}
    (h : Reach (next sha) ok (start store keys unlockFirst) s) :
    Reach (KeyService.next sha) always (KeyService.start store keys) s.service := by
  refine h.refines (f := State.service) fun t e u _ hnext => ?_
  rcases next_service hnext with hsame | ⟨x, hx, -⟩
  · rw [hsame]
    exact .refl
  · exact Reach.step trivial hx

end Passkey.Phone.PromptActivity

import Passkey.Daemon.Numbers

/-!
What the log says of the requests that went out on a link and of the answers
that `fan_out` recorded. An answer is recorded when it was taken from the link
under the number of the request; a success that a worker is about to deliver
is the first that it recorded in its last round.
-/

namespace Passkey.Daemon

open Library

/-! ### Requests on a link -/

/-- A REQ frame that `fan_out` wrote. -/
structure Ask where
  r : RequestId
  number : UInt32
  data : Bytes

def Act.asks (l : LinkId) : Act → Option Ask
  | .write (.req r number data) k _ => if k = l then some ⟨r, number, data⟩ else none
  | _ => none

/-- The REQ frames on a link in order, those whose write failed included. -/
def asks (l : LinkId) (log : List Entry) : List Ask :=
  log.filterMap fun e => e.act.asks l

theorem asks_append (l : LinkId) (log more : List Entry) :
    asks l (log ++ more) = asks l log ++ asks l more :=
  List.filterMap_append

theorem asks_single (l : LinkId) (e : Entry) : asks l [e] = (e.act.asks l).toList := by
  cases h : e.act.asks l <;> simp [asks, h]

theorem Act.AwayFrom.asks {l : LinkId} {act : Act} (h : act.AwayFrom l) : act.asks l = none := by
  cases act with
  | write m k ok =>
      cases m with
      | req r number data => exact if_neg h
      | _ => rfl
  | _ => rfl

theorem mem_asks {l : LinkId} {log : List Entry} {a : Ask} (h : a ∈ asks l log) :
    ∃ e ∈ log, ∃ ok, e.act = .write (.req a.r a.number a.data) l ok := by
  obtain ⟨e, hmem, hact⟩ := List.mem_filterMap.mp h
  refine ⟨e, hmem, ?_⟩
  unfold Act.asks at hact
  split at hact
  · rename_i r number data k ok heq
    obtain ⟨rfl, hask⟩ := Option.ite_none_right_eq_some.mp hact
    obtain rfl := Option.some.inj hask
    exact ⟨ok, heq⟩
  · cases hact

/-- Every REQ frame carries the number and the data of its request. -/
def Issued (s : State) : Prop :=
  ∀ l, ∀ a ∈ asks l s.log, ∃ w, s.workers[a.r]? = some w ∧ w.number = a.number ∧ w.data = a.data

theorem issued_start (pid : UInt32) : Issued (start pid) := by
  simp [Issued, start, asks]

theorem Issued.step {s t : State} {e : Event} (h : Issued s) (hstep : Step s e t) : Issued t := by
  intro l a ha
  have hkept {w : Worker} (hw : s.workers[a.r]? = some w) (hnumber : w.number = a.number)
      (hdata : w.data = a.data) :
      ∃ w', t.workers[a.r]? = some w' ∧ w'.number = a.number ∧ w'.data = a.data := by
    obtain ⟨w', hw', hsame⟩ := hstep.request hw
    exact ⟨w', hw', hsame.number.trans hnumber, hsame.data.trans hdata⟩
  have hold (ha : a ∈ asks l s.log) :
      ∃ w', t.workers[a.r]? = some w' ∧ w'.number = a.number ∧ w'.data = a.data := by
    obtain ⟨w, hw, hnumber, hdata⟩ := h l a ha
    exact hkept hw hnumber hdata
  rcases hstep.req with hsame | ⟨x, hlog, -, hreq⟩
  · exact hold (hsame ▸ ha)
  · rw [hlog, asks_append] at ha
    rcases List.mem_append.mp ha with hbefore | hnew
    · exact hold hbefore
    · obtain ⟨y, hy, ok, hact⟩ := mem_asks hnew
      obtain rfl := List.mem_singleton.mp hy
      obtain ⟨w, rest, hw, hnumber, hdata, -⟩ := hreq _ _ _ _ _ hact
      exact hkept hw hnumber hdata

theorem issued_reachable {pid : UInt32} {s : State} (h : Reach next always (start pid) s) :
    Issued s :=
  h.invariant (issued_start pid) fun _ _ _ hs _ hnext => hs.step (step_cases hnext)

/-- A number tells which request a REQ frame was for. -/
theorem Numbered.request {s : State} (h : Numbered s) (hfew : taken s.log < 2 ^ 32)
    {r q : RequestId} {w v : Worker} (hw : s.workers[r]? = some w) (hv : s.workers[q]? = some v)
    (hnumber : w.number = v.number) : r = q := by
  have hsame := h.once hfew (.worker r) (.worker q) w.number (by simp [State.held, hw])
    (by simp [State.held, hv, hnumber])
  exact Actor.worker.inj hsame

/-! ### Recorded answers -/

/-- `fan_out` took a payload from the link under the number of its request,
which it records as a success or an error. -/
def Recorded (r : RequestId) (number : UInt32) (l : LinkId) (payload : Bytes) :
    List Entry → Prop :=
  Logged fun act => act = .take r l (number, payload) ∧ payload ≠ []

/-- A payload that reports a success. -/
def Success (payload : Bytes) : Prop :=
  payload.head? = some 0

/-- Where the payloads in the variables of a worker are from. -/
structure Sourced (r : RequestId) (log : List Entry) (w : Worker) : Prop where
  wins : ∀ win ∈ w.wins, Recorded r w.number win.1 win.2 log ∧ Success win.2
  failures : ∀ e ∈ w.failures ++ w.errors,
    ¬ Success e ∧ (e = [CTAP2_ERR_OTHER] ∨ ∃ l, Recorded r w.number l e log)
  verdict : ∀ payload, w.pc = .verdict payload → Success payload →
    w.wins.head?.map Prod.snd = some payload

theorem Recorded.append {r : RequestId} {number : UInt32} {l : LinkId} {payload : Bytes}
    {log : List Entry} (h : Recorded r number l payload log) (more : List Entry) :
    Recorded r number l payload (log ++ more) :=
  Logged.append h more

/-- The variables that `Sourced` speaks of stay, or empty out. -/
theorem Sourced.mono {r : RequestId} {log : List Entry} {w w' : Worker} (h : Sourced r log w)
    (more : List Entry) (hnumber : w'.number = w.number) (hwins : ∀ x ∈ w'.wins, x ∈ w.wins)
    (hfailures : ∀ x ∈ w'.failures ++ w'.errors, x ∈ w.failures ++ w.errors)
    (hverdict : ∀ payload, w'.pc = .verdict payload → Success payload →
      w'.wins.head?.map Prod.snd = some payload) : Sourced r (log ++ more) w' where
  wins win hwin := by
    obtain ⟨hrecorded, hsuccess⟩ := h.wins win (hwins win hwin)
    exact ⟨hnumber ▸ hrecorded.append more, hsuccess⟩
  failures e he := by
    obtain ⟨hfailure, hsource⟩ := h.failures e (hfailures e he)
    refine ⟨hfailure, hsource.imp_right fun ⟨l, hrecorded⟩ => ⟨l, ?_⟩⟩
    exact hnumber ▸ hrecorded.append more
  verdict := hverdict

theorem not_success_other : ¬ Success [CTAP2_ERR_OTHER] := by
  simp [Success, CTAP2_ERR_OTHER]

theorem finalError_source {errors : List Bytes} :
    finalError errors = [CTAP2_ERR_OTHER] ∨ finalError errors ∈ errors := by
  unfold finalError
  cases hfind : errors.find? isDecisive with
  | some e => exact .inr (List.mem_of_find?_eq_some hfind)
  | none =>
      cases errors with
      | nil => exact .inl rfl
      | cons e rest => exact .inr List.mem_cons_self

theorem not_success_finalError {errors : List Bytes} (h : ∀ e ∈ errors, ¬ Success e) :
    ¬ Success (finalError errors) := by
  rcases @finalError_source errors with hother | hmem
  · exact hother ▸ not_success_other
  · exact h _ hmem

/-- What the worker took is recorded where it carries the number. -/
theorem Sourced.poll {r : RequestId} {log : List Entry} {w : Worker} (h : Sourced r log w)
    (l : LinkId) (rest : List LinkId) (heard : Bool) (response : UInt32 × Bytes) (e : Entry)
    (he : e.act = .take r l response) :
    Sourced r (log ++ [e]) (w.poll l rest heard (some response)) := by
  obtain ⟨number, payload⟩ := response
  have hold (e : Entry) : Sourced r (log ++ [e]) w :=
    h.mono [e] rfl (fun _ hx => hx) (fun _ hx => hx) h.verdict
  have hother : ∀ x ∈ (w.failures ++ [[CTAP2_ERR_OTHER]]) ++ w.errors,
      ¬ Success x ∧ (x = [CTAP2_ERR_OTHER] ∨ ∃ l, Recorded r w.number l x (log ++ [e])) := by
    intro x hx
    simp only [List.append_assoc, List.mem_append, List.mem_singleton] at hx
    rcases hx with hfailure | rfl | herror
    · exact (hold e).failures x (List.mem_append_left _ hfailure)
    · exact ⟨not_success_other, .inl rfl⟩
    · exact (hold e).failures x (List.mem_append_right _ herror)
  simp only [Worker.poll]
  split
  · exact ⟨(hold e).wins, hother, by simp⟩
  · split
    · exact ⟨(hold e).wins, (hold e).failures, by simp⟩
    · rename_i hnumber
      have hmine : number = w.number := Decidable.not_not.mp hnumber
      subst hmine
      cases payload with
      | nil => exact ⟨(hold e).wins, hother, by simp⟩
      | cons status more =>
          have hrecorded : Recorded r w.number l (status :: more) (log ++ [e]) :=
            logged_snoc.mpr (.inr ⟨he, by simp⟩)
          dsimp only
          split
          · rename_i hstatus
            refine ⟨fun win hwin => ?_, (hold e).failures, by simp⟩
            rcases List.mem_append.mp hwin with hbefore | hnew
            · exact (hold e).wins win hbefore
            · obtain rfl := List.mem_singleton.mp hnew
              exact ⟨hrecorded, congrArg some hstatus⟩
          · rename_i hstatus
            refine ⟨(hold e).wins, fun x hx => ?_, by simp⟩
            simp only [List.append_assoc, List.mem_append, List.mem_singleton] at hx
            rcases hx with hfailure | rfl | herror
            · exact (hold e).failures x (List.mem_append_left _ hfailure)
            · exact ⟨fun hsuccess => hstatus (Option.some.inj hsuccess), .inr ⟨l, hrecorded⟩⟩
            · exact (hold e).failures x (List.mem_append_right _ herror)

/-- A worker delivers the first success, or an error where there is none. -/
theorem Sourced.judge {r : RequestId} {log : List Entry} {w : Worker} (h : Sourced r log w)
    (device : LinkId → Text) (e : Entry) : Sourced r (log ++ [e]) (w.judge device).1 := by
  have herrors : ∀ x ∈ w.errors ++ w.failures, x ∈ w.failures ++ w.errors := fun x hx =>
    List.mem_append.mpr (List.mem_append.mp hx).symm
  have hfailures : ∀ x ∈ w.failures ++ (w.errors ++ w.failures), x ∈ w.failures ++ w.errors := by
    intro x hx
    rcases List.mem_append.mp hx with hfailure | herror
    · exact List.mem_append_left _ hfailure
    · exact herrors x herror
  unfold Worker.judge
  split
  · rename_i winner payload rest hwins
    refine h.mono [e] rfl (fun _ hx => hx) (fun _ hx => hx) fun p hp _ => ?_
    cases hp
    rw [hwins]
    rfl
  · split
    · refine h.mono [e] rfl (fun _ hx => hx) hfailures fun p hp hsuccess => ?_
      cases hp
      exact absurd hsuccess (not_success_finalError fun x hx => (h.failures x (herrors x hx)).1)
    · exact h.mono [e] rfl (fun _ hx => hx) hfailures (by simp)

theorem Sourced.turn {s : State} {r : RequestId} {log : List Entry} {w w' : Worker} {act : Act}
    (h : Sourced r log w) (hturn : Turn s r w w' act) (e : Entry) (he : e.act = act) :
    Sourced r (log ++ [e]) w' := by
  cases hturn with
  | take => exact h.poll _ _ _ _ e he
  | judge => exact h.judge _ e
  | roundsOver =>
      refine h.mono [e] rfl (fun _ hx => hx) (fun _ hx => hx) fun p hp hsuccess => ?_
      cases hp
      exact absurd hsuccess
        (not_success_finalError fun x hx => (h.failures x (List.mem_append_right _ hx)).1)
  | enter =>
      refine h.mono [e] rfl (by simp) (fun x hx => ?_) (by simp)
      exact List.mem_append_right _ hx
  | emptyRound => exact h.mono [e] rfl (fun _ hx => hx) (fun _ hx => hx) h.verdict
  | @swept heard =>
      refine h.mono [e] rfl (fun _ hx => hx) (fun _ hx => hx) ?_
      cases heard <;> simp
  | _ => exact h.mono [e] rfl (fun _ hx => hx) (fun _ hx => hx) (by simp)

theorem Step.sourced {s t : State} {e : Event} (hstep : Step s e t)
    (h : ∀ (r : RequestId) (w : Worker), s.workers[r]? = some w → Sourced r s.log w)
    {r : RequestId} {w : Worker} (hw : t.workers[r]? = some w) : Sourced r t.log w := by
  cases hstep.moved hw with
  | own _ hold hturn ht =>
      subst ht
      exact (h r _ hold).turn hturn _ rfl
  | other locked hold hsame =>
      subst hsame
      obtain ⟨more, hlog⟩ := hstep.log
      exact hlog ▸ (h r _ hold).mono more rfl (fun _ hx => hx) (fun _ hx => hx) (h r _ hold).verdict
  | spawned hr hnew =>
      subst hnew
      exact ⟨by simp, by simp, by simp⟩

theorem sourced_reachable {pid : UInt32} {s : State} (h : Reach next always (start pid) s)
    {r : RequestId} {w : Worker} (hw : s.workers[r]? = some w) : Sourced r s.log w := by
  refine Reach.invariant (I := fun s => ∀ (r : RequestId) (w : Worker),
    s.workers[r]? = some w → Sourced r s.log w) ?_ (fun _ _ _ hs _ hnext _ _ => ?_) h r w hw
  · simp [start]
  · exact (step_cases hnext).sourced hs

end Passkey.Daemon

import Passkey.Phone.Followups
import Passkey.Phone.Tasks

/-!
The sign-in that a getNextAssertion goes on with, told by the log of the
service: it is the last that was handled on the connection.
-/

namespace Passkey.Phone.KeyService

open Library

/-- The last sign-in that the connection handled, with what `handle` returned. -/
def lastSignIn (c : Owner) (log : List Entry) : Option (Task × Bytes) :=
  (handledOn c log).reverse.find? fun x => x.1.req.head? = some 0x02

/-- What `handle` returned for the task is an assertion of the first credential
that is left of the last sign-in on the connection, which was that of `opener`
and was answered with `success`. -/
def Continues (sha : Sha256) (store : Store) (keys : List Bytes) (s : State) (c : Owner)
    (opener : Task) (success : Bytes) (task : Task) (payload : Bytes) : Prop :=
  lastSignIn c s.log = some (opener, success) ∧ ∃ env earlier q id rest,
    LeftBy sha (.fresh store keys) s.session.history ⟨earlier, opener.req, c⟩ q (id :: rest) ∧
    (handle sha env task.req c s.session.authenticator).1.reply.bytes = payload ∧
    AssertionOf sha q.rpId q.cdh id
      (handle sha env task.req c s.session.authenticator).1.reply
      (handle sha env task.req c s.session.authenticator).1.effects

/-- The log only grows. -/
theorem Step.log {sha : Sha256} {s t : State} {e : Event} (h : Step sha s e t) :
    s.log <+: t.log := by
  cases h with
  | aside h => exact h.log ▸ List.prefix_rfl
  | request h => exact h.log ▸ List.prefix_append ..
  | cancel h => exact h.log ▸ List.prefix_append ..
  | answer h => exact h.log ▸ List.prefix_append ..
  | execute | enter | wait | reply => exact List.prefix_rfl
  | refuse | opens | close | leave => exact List.prefix_append ..

/-- The reply to the task was such an assertion when it was made. -/
def Continued (sha : Sha256) (store : Store) (keys : List Bytes) (s : State) (c : Owner)
    (opener : Task) (success : Bytes) (task : Task) (payload : Bytes) : Prop :=
  ∃ u, Reach (next sha) always (start store keys) u ∧
    u.log ++ [.handled c task payload] <+: s.log ∧
    Continues sha store keys u c opener success task payload

theorem Continued.step {sha : Sha256} {store : Store} {keys : List Bytes} {s t : State}
    {c : Owner} {opener task : Task} {success payload : Bytes}
    (h : Continued sha store keys s c opener success task payload) (hlog : s.log <+: t.log) :
    Continued sha store keys t c opener success task payload := by
  obtain ⟨u, hrun, hmade, hcontinues⟩ := h
  exact ⟨u, hrun, hmade.trans hlog, hcontinues⟩

theorem mem_lastSignIn {c : Owner} {log : List Entry} {x : Task × Bytes}
    (h : lastSignIn c log = some x) : x ∈ handledOn c log ∧ x.1.req.head? = some 0x02 :=
  ⟨List.mem_reverse.mp (List.mem_of_find?_eq_some h), by simpa using List.find?_some h⟩

/-- The calls that the log has of a connection. -/
theorem handledOn_calls (c : Owner) (log : List Entry) :
    (handledOn c log).map (fun x => (x.1.req, x.2)) =
      (log.filterMap Entry.call).filterMap fun y => if y.1 = c then some y.2 else none := by
  rw [handledOn, List.map_filterMap, List.filterMap_filterMap]
  congr 1
  funext e
  cases e with
  | handled d task r => by_cases hd : d = c <;> simp [Entry.handledOn, Entry.call, hd]
  | _ => rfl

/-- The last sign-in of the connection in the log is the last in the history. -/
theorem Recounted.lastSignIn {sha : Sha256} {store : Store} {keys : List Bytes} {s : State}
    (h : Recounted sha store keys s) {before mid : List (Call × Outcome)} {opener : Call}
    {outcome : Outcome} (hhistory : s.session.history = before ++ (opener, outcome) :: mid)
    (hcmd : opener.cmd = some 0x02) (hmid : ∀ x ∈ mid, x.1.cmd ≠ some 0x02) :
    ∃ task, lastSignIn opener.owner s.log = some (task, outcome.reply.bytes) ∧
      task.req = opener.req := by
  let told (x : Call × Outcome) : Option (Bytes × Bytes) :=
    if x.1.owner = opener.owner then some (x.1.req, x.2.reply.bytes) else none
  have hcalls : (handledOn opener.owner s.log).map (fun x => (x.1.req, x.2)) =
      before.filterMap told ++ (opener.req, outcome.reply.bytes) :: mid.filterMap told := by
    rw [handledOn_calls, h.calls, List.filterMap_map, hhistory]
    simp [told]
  have hlater : (mid.filterMap told).reverse.find? (fun y => y.1.head? = some 0x02) = none := by
    apply List.find?_eq_none.mpr
    intro y hy
    obtain ⟨x, hx, heq⟩ := List.mem_filterMap.mp (List.mem_reverse.mp hy)
    obtain ⟨-, rfl⟩ : x.1.owner = opener.owner ∧ (x.1.req, x.2.reply.bytes) = y := by
      simpa [told] using heq
    simpa [Call.cmd] using hmid x hx
  have hfound : (KeyService.lastSignIn opener.owner s.log).map (fun x => (x.1.req, x.2)) =
      some (opener.req, outcome.reply.bytes) := by
    have hfind := congrArg (fun l => l.reverse.find? fun y => y.1.head? = some 0x02) hcalls
    rw [List.reverse_append, List.reverse_cons, List.append_assoc, List.find?_append, hlater,
      ← List.map_reverse, List.find?_map] at hfind
    refine hfind.trans ?_
    have hopener : opener.req.head? = some 0x02 := hcmd
    simp [hopener]
  obtain ⟨⟨task, r⟩, hlast, heq⟩ := Option.map_eq_some_iff.mp hfound
  obtain ⟨hreq, rfl⟩ := Prod.mk.inj heq
  exact ⟨task, hlast, hreq⟩

/-- A getNextAssertion that is about to succeed goes on with the last sign-in
of its connection. -/
theorem continues_of_success {sha : Sha256} {store : Store} {keys : List Bytes} {s : State}
    (h : Reach (next sha) always (start store keys) s) {c : Owner} {task : Task} {env : Env}
    (hcmd : task.req.head? = some 0x08)
    (hok : (handle sha env task.req c s.session.authenticator).1.reply.bytes.head? = some 0) :
    (s.session.authenticator.enter env 0x08 c).pending ≠ [] ∧ ∃ opener success,
      Continues sha store keys s c opener success task
        (handle sha env task.req c s.session.authenticator).1.reply.bytes := by
  have hcounted := recounted_reachable h
  obtain ⟨hheld, opener, q, id, rest, hleft, howner, hassertion⟩ :=
    @next_left sha store keys s.session ⟨env, task.req, c⟩ hcounted.session hcmd hok
  have hopen : (s.session.authenticator.enter env 0x08 c).pending ≠ [] := by
    obtain ⟨hne, -, hpending, htime⟩ := hheld
    have hlate : ¬ env.now > s.session.authenticator.pendingUntil := by
      intro hlt
      exact Int.not_lt.mpr htime (Int64.lt_iff_toInt_lt.mp hlt)
    simpa [Authenticator.enter, hpending, hlate] using hne
  obtain ⟨before, outcome, mid, first, others, hrun, hhistory, hmid, hopening, hrest⟩ := hleft
  obtain ⟨earlier, req, owner⟩ := opener
  obtain rfl : owner = c := howner
  obtain ⟨signIn, hlast, hreq⟩ := hcounted.lastSignIn hhistory hopening.cmd fun x hx heq => by
    rcases hmid x hx with hnil | ⟨hnext, -⟩
    · simp [Call.cmd, hnil] at heq
    · rw [hnext] at heq
      cases heq
  dsimp only at hreq hlast
  subst hreq
  exact ⟨hopen, signIn, outcome.reply.bytes, hlast, env, earlier, q, id, rest,
    ⟨before, outcome, mid, first, others, hrun, hhistory, hmid, hopening, hrest⟩, rfl, hassertion⟩

end Passkey.Phone.KeyService

import Passkey.Library.Histories
import Passkey.Library.Runs
import Passkey.Phone.Approval

/-!
Runs of the authenticator. A session is the authenticator with the calls made
so far; the invariant says which sign-in opened the chain that is pending.
-/

namespace Passkey.Phone

open Library

/-- One call of `handle`. -/
structure Call where
  env : Env
  req : Bytes
  owner : Owner

def Call.cmd (c : Call) : Option UInt8 :=
  c.req.head?

theorem Call.cmd_of_nonempty {c : Call} (h : c.req ≠ []) : ∃ cmd, c.cmd = some cmd := by
  obtain ⟨cmd, rest, hreq⟩ := List.exists_cons_of_ne_nil h
  exact ⟨cmd, by rw [Call.cmd, hreq]; rfl⟩

/-- The rule for one call: what its command leads to holds after it. -/
theorem Call.handled {sha : Sha256} {c : Call} {cmd : UInt8} (hcmd : c.cmd = some cmd)
    {a : Authenticator} {Q : Outcome → Authenticator → Prop}
    (h : Triple (· = ({a.enter c.env cmd c.owner with} : World)) (dispatch sha c.env cmd c.req)
      (fun r w => Q {reply := r, effects := w.effects} w.toAuthenticator)
      (fun w => ∀ e : Thrown,
        Q {reply := err e.status, effects := w.effects} w.toAuthenticator)) :
    Q (handle sha c.env c.req c.owner a).1 (handle sha c.env c.req c.owner a).2 := by
  have hrun := h _ rfl
  unfold Call.cmd at hcmd
  cases hreq : c.req with
  | nil =>
      rw [hreq] at hcmd
      cases hcmd
  | cons first rest =>
      rw [hreq] at hcmd hrun
      obtain rfl : first = cmd := Option.some.inj hcmd
      simp only [handle]
      cases hresult : dispatch sha c.env first (first :: rest)
          {a.enter c.env first c.owner with} with
      | ok r w =>
          rw [hresult] at hrun
          exact hrun
      | error e w =>
          rw [hresult] at hrun
          exact hrun e

structure Session where
  authenticator : Authenticator
  history : List (Call × Outcome) := []

/-- Every call is possible in every state. -/
def Session.next (sha : Sha256) : Next Session Call := fun s c =>
  let result := handle sha c.env c.req c.owner s.authenticator
  some ⟨result.2, s.history ++ [(c, result.1)]⟩

/-- The authenticator as it is constructed, over the credentials that exist. -/
def Authenticator.fresh (store : Store) (keys : List Bytes) : Authenticator where
  store := store
  keys := keys

/-- A sign-in without an allow list for this RP. -/
def Call.Discoverable (c : Call) (rpId : Text) : Prop :=
  c.cmd = some 0x02 ∧ ∃ object q, parameters c.req = .ok (some object) ∧
    readSignIn object = .ok (.ok q) ∧ q.discoverable = true ∧ q.rpId = rpId

/-- The history ends with a chain: its opener, then nothing but empty commands
and getNextAssertion calls of the same owner. -/
def Chained (history : List (Call × Outcome)) (opener : Call) (outcome : Outcome) : Prop :=
  ∃ before mid, history = before ++ (opener, outcome) :: mid ∧
    ∀ x ∈ mid, x.1.req = [] ∨ x.1.cmd = some 0x08 ∧ x.1.owner = opener.owner

/-- What a getNextAssertion may rely on from the calls before it: an approved
sign-in for the RP, by the same owner at most 30 s earlier. -/
def Earned (history : List (Call × Outcome)) (c : Call) (rpId : Text) : Prop :=
  c.cmd = some 0x08 ∧ ∃ opener outcome, Chained history opener outcome ∧
    opener.Discoverable rpId ∧ c.owner = opener.owner ∧
    c.env.now.toInt ≤ opener.env.later.toInt + 30000 ∧ Approved "Sign in" rpId outcome.effects

/-- A call did nothing without approval, given the calls before it. -/
structure Covered (sha : Sha256) (history : List (Call × Outcome)) (c : Call)
    (o : Outcome) : Prop where
  justified : Justified sha (Earned history c) o.effects
  named : NamedReply sha (Earned history c) o.reply o.effects

/-! ### One call -/

theorem deadline_le {now later : Int64} (h : ¬ now > later + 30000) :
    now.toInt ≤ later.toInt + 30000 := by
  have hle : now.toInt ≤ (later + 30000).toInt := by
    have hnot := mt Int64.lt_iff_toInt_lt.mpr h
    omega
  have hwrap : (later + 30000).toInt ≤ later.toInt + 30000 := by
    have hlower := Int64.le_toInt later
    have hconst : (30000 : Int64).toInt = 30000 := by decide
    have hsize : ((2 ^ 64 : Nat) : Int) = 18446744073709551616 := by rfl
    rw [Int64.toInt_add, hconst, Int.bmod_def, hsize]
    split <;> omega
  omega

section Handle

variable {sha : Sha256} {earned : Text → Prop}

/-- What is known of the chain once `handle` entered the command. -/
def Authenticator.Held (a : Authenticator) (c : Call) : Prop :=
  a.pending ≠ [] ∧ c.cmd = some 0x08 ∧ a.pendingOwner = some c.owner ∧
    c.env.now.toInt ≤ a.pendingUntil.toInt

theorem enter_pending {a : Authenticator} {c : Call} {cmd : UInt8} (hcmd : c.cmd = some cmd)
    (h : (a.enter c.env cmd c.owner).pending ≠ []) : a.Held c := by
  simp only [Authenticator.enter] at h
  split at h
  · exact absurd rfl h
  · rename_i hentered
    simp only [ne_eq, Bool.or_eq_true, decide_eq_true_eq, not_or, Decidable.not_not]
      at hentered
    obtain ⟨⟨rfl, howner⟩, htime⟩ := hentered
    have hle := mt Int64.lt_iff_toInt_lt.mpr htime
    exact ⟨h, hcmd, howner, by omega⟩

/-- The chain after a call: the one before it, or one that the call opened. -/
def ChainAfter (c : Call) (a : Authenticator) (o : Outcome) (b : Authenticator) : Prop :=
  b.pending ≠ [] → b.pendingOwner = some c.owner ∧
    ((a.Held c ∧ b.pendingRp = a.pendingRp ∧ b.pendingFlags = a.pendingFlags ∧
        b.pendingUntil = a.pendingUntil) ∨
      ∃ rpId, c.Discoverable rpId ∧ b.pendingRp = some rpId ∧
        b.pendingUntil = c.env.later + 30000 ∧
        (b.pendingFlags = 0 ∨ Approved "Sign in" rpId o.effects))

variable {f : Chain}

/-- After a command: what it did is covered, and the chain is the old one or
the one that this sign-in opened. -/
def Dispatched (sha : Sha256) (earned : Text → Prop) (env : Env) (cmd : UInt8) (req : Bytes)
    (f : Chain) (w : World) : Prop :=
  Justified sha earned w.effects ∧
    (Shrunk f w ∨ cmd = 0x02 ∧ ∃ p, parameters req = .ok p ∧ Opens env p f.owner w)

theorem dispatched_of_sees {env : Env} {cmd : UInt8} {req : Bytes} {w : World}
    (hw : Sees (Justified sha earned) f w) : Dispatched sha earned env cmd req f w :=
  ⟨hw.1, .inl (shrunk_of_sees id hw)⟩

theorem silent_getInfo : Silent {bytes := [], returned := some getInfo} := by
  intro m hm
  rw [Option.some.injEq] at hm
  subst hm
  rintro ⟨user, value, hmem, hname⟩
  obtain rfl : user = [(key "rk", .bool true), (key "up", .bool true), (key "uv", .bool true),
      (key "plat", .bool false)] := by
    simpa [getInfo] using hmem
  simp [key] at hname

theorem dispatch_spec (env : Env) (cmd : UInt8) (req : Bytes)
    (hheld : f.pending ≠ [] → cmd = 0x08 ∧
      ∃ rpId, f.rpId = some rpId ∧ (f.flags = 0 ∨ earned rpId)) :
    Triple (Sees (· = []) f) (dispatch sha env cmd req)
      (fun r w => NamedReply sha earned r w.effects ∧ Dispatched sha earned env cmd req f w)
      (Dispatched sha earned env cmd req f) := by
  have hstart {known : Text → Prop} {w : World} (hw : Sees (· = []) f w) :
      Sees (Justified sha known) f w := ⟨hw.1 ▸ Justified.nil, hw.2⟩
  have hfails (w : World) (hw : Sees (· = []) f w) : Dispatched sha earned env cmd req f w :=
    dispatched_of_sees (hstart hw)
  unfold dispatch
  refine Triple.bind (R := fun p w => parameters req = .ok p ∧ Sees (· = []) f w)
    (Triple.ofExcept (fun _ heq _ hw => ⟨heq, hw⟩) hfails) fun p => ?_
  refine Triple.assume fun hp => ?_
  refine Triple.ite (fun _ => ?_) fun _ => ?_
  · refine Triple.ofExcept ?_ hfails
    intro r hr w hw
    refine ⟨fun m hm hdiscloses => ?_, hfails w hw⟩
    rw [ok_returned hr] at hm
    exact absurd hdiscloses (silent_getInfo m hm)
  · refine Triple.ite (fun _ => ?_) fun _ => ?_
    · exact (makeCredential_spec env p).consequence (fun _ hw => hstart hw)
        (fun _ _ hw => ⟨hw.1.named _, dispatched_of_sees hw.2⟩) fun _ hw => dispatched_of_sees hw
    · refine Triple.ite (fun hcmd => ?_) fun _ => ?_
      · have hclosed : f.pending = [] := by
          by_contra hne
          have hnext := (hheld hne).1
          rw [hcmd] at hnext
          exact absurd hnext (by decide)
        have hopens (w : World) (hw : SignedIn sha env p f.owner w) :
            Dispatched sha earned env cmd req f w :=
          ⟨hw.1.mono fun _ h => h.elim, .inr ⟨hcmd, p, hp, hw.2⟩⟩
        exact (getAssertion_spec env p hclosed).consequence (fun _ hw => hstart hw)
          (fun _ w hw => ⟨hw.1.mono fun _ h => h.elim, hopens w hw.2⟩) hopens
      · refine Triple.ite (fun _ => ?_) fun _ => ?_
        · exact (getNextAssertion_spec env fun hne => (hheld hne).2).consequence
            (fun _ hw => hstart hw) (fun _ _ hw => ⟨hw.1, hw.2.1, .inl hw.2.2⟩)
            fun _ hw => ⟨hw.1, .inl hw.2⟩
        · exact Triple.pure fun w hw => ⟨(silent_err _).named _, hfails w hw⟩

theorem chainAfter_of_dispatched {a : Authenticator} {c : Call} {cmd : UInt8} {w : World}
    {r : Reply} (hcmd : c.cmd = some cmd)
    (h : Dispatched sha earned c.env cmd c.req (a.enter c.env cmd c.owner).chain w) :
    ChainAfter c a ⟨r, w.effects⟩ w.toAuthenticator := by
  intro hne
  rcases h.2 with ⟨hchain, hshrunk⟩ | ⟨rfl, p, hp, howner, hopens⟩
  · refine ⟨congrArg Chain.owner hchain, .inl ⟨enter_pending hcmd (hshrunk hne), ?_⟩⟩
    exact ⟨congrArg Chain.rpId hchain, congrArg Chain.flags hchain,
      congrArg Chain.deadline hchain⟩
  · obtain ⟨object, q, rfl, hq, hdiscoverable, hrp, huntil, hflags⟩ := hopens hne
    exact ⟨howner, .inr ⟨q.rpId, ⟨hcmd, object, q, hp, hq, hdiscoverable, rfl⟩, hrp, huntil,
      hflags⟩⟩

/-- One call with a command, given what the pending chain has earned. -/
theorem handle_spec {a : Authenticator} {c : Call} (hreq : c.req ≠ [])
    (hheld : a.Held c → ∃ rpId, a.pendingRp = some rpId ∧ (a.pendingFlags = 0 ∨ earned rpId))
    {o : Outcome} {b : Authenticator} (hhandle : handle sha c.env c.req c.owner a = (o, b)) :
    Justified sha earned o.effects ∧ NamedReply sha earned o.reply o.effects ∧
      ChainAfter c a o b := by
  obtain ⟨cmd, hcmd⟩ := Call.cmd_of_nonempty hreq
  have hspec := @dispatch_spec sha earned (a.enter c.env cmd c.owner).chain c.env cmd c.req
    (fun hne => by
      have hheld' := enter_pending hcmd hne
      exact ⟨Option.some.inj (hcmd.symm.trans hheld'.2.1), hheld hheld'⟩)
  have hresult := Call.handled (Q := fun o b => Justified sha earned o.effects ∧
      NamedReply sha earned o.reply o.effects ∧ ChainAfter c a o b) hcmd (a := a)
    (hspec.consequence ?_ ?_ ?_)
  · rw [hhandle] at hresult
    exact hresult
  · rintro w rfl
    exact ⟨rfl, rfl⟩
  · intro r w hw
    exact ⟨hw.2.1, hw.1, chainAfter_of_dispatched hcmd hw.2⟩
  · intro w hw e
    exact ⟨hw.1, (silent_err _).named _, chainAfter_of_dispatched hcmd hw⟩

end Handle

/-! ### Every sequence of calls -/

/-- A pending chain was opened by a sign-in of the history, which earned the
flags that the chain carries. -/
def Opened (s : Session) : Prop :=
  s.authenticator.pending ≠ [] → ∃ opener outcome rpId, Chained s.history opener outcome ∧
    opener.Discoverable rpId ∧ s.authenticator.pendingRp = some rpId ∧
    s.authenticator.pendingOwner = some opener.owner ∧
    s.authenticator.pendingUntil = opener.env.later + 30000 ∧
    (s.authenticator.pendingFlags = 0 ∨ Approved "Sign in" rpId outcome.effects)

structure Session.Inv (sha : Sha256) (s : Session) : Prop where
  opened : Opened s
  covered : Each (fun before x => Covered sha before x.1 x.2) s.history

theorem Chained.snoc {history : List (Call × Outcome)} {opener c : Call} {outcome o : Outcome}
    (h : Chained history opener outcome)
    (hc : c.req = [] ∨ c.cmd = some 0x08 ∧ c.owner = opener.owner) :
    Chained (history ++ [(c, o)]) opener outcome := by
  obtain ⟨before, mid, rfl, hmid⟩ := h
  refine ⟨before, mid ++ [(c, o)], by simp, ?_⟩
  intro x hx
  rcases List.mem_append.mp hx with hold | hnew
  · exact hmid x hold
  · obtain rfl : x = (c, o) := List.mem_singleton.mp hnew
    exact hc

/-- What `Opened` lets the next call of the chain rely on. -/
theorem Opened.earned {s : Session} (h : Opened s) {c : Call} (hheld : s.authenticator.Held c) :
    ∃ rpId, s.authenticator.pendingRp = some rpId ∧
      (s.authenticator.pendingFlags = 0 ∨ Earned s.history c rpId) := by
  obtain ⟨hne, hcmd, howner, htime⟩ := hheld
  obtain ⟨opener, outcome, rpId, hchained, hopener, hrp, hpowner, huntil, hflags⟩ := h hne
  refine ⟨rpId, hrp, hflags.imp_right fun happroved => ⟨hcmd, opener, outcome, hchained,
    hopener, Option.some.inj (howner.symm.trans hpowner), ?_, happroved⟩⟩
  rw [huntil] at htime
  exact deadline_le fun hlt => by
    have hlt' := Int64.lt_iff_toInt_lt.mp hlt
    omega

theorem opened_snoc {sha : Sha256} {s : Session} (h : Opened s) (c : Call) {o : Outcome}
    {b : Authenticator} (hhandle : handle sha c.env c.req c.owner s.authenticator = (o, b))
    (hafter : c.req ≠ [] → ChainAfter c s.authenticator o b) :
    Opened ⟨b, s.history ++ [(c, o)]⟩ := by
  intro hne
  by_cases hreq : c.req = []
  · rw [hreq] at hhandle
    obtain ⟨rfl, rfl⟩ := Prod.mk.inj hhandle
    obtain ⟨opener, outcome, rpId, hchained, hrest⟩ := h hne
    exact ⟨opener, outcome, rpId, hchained.snoc (.inl hreq), hrest⟩
  · obtain ⟨howner, hkept | hopens⟩ := hafter hreq hne
    · obtain ⟨hheld, hrp, hflags, huntil⟩ := hkept
      obtain ⟨opener, outcome, rpId, hchained, hopener, hprp, hpowner, hpuntil, hpflags⟩ :=
        h hheld.1
      have hsame : c.owner = opener.owner :=
        Option.some.inj (hheld.2.2.1.symm.trans hpowner)
      exact ⟨opener, outcome, rpId, hchained.snoc (.inr ⟨hheld.2.1, hsame⟩), hopener,
        hrp.trans hprp, hsame ▸ howner, huntil.trans hpuntil, hflags ▸ hpflags⟩
    · obtain ⟨rpId, hopener, hrp, huntil, hflags⟩ := hopens
      exact ⟨c, o, rpId, ⟨s.history, [], rfl, by simp⟩, hopener, hrp, howner, huntil, hflags⟩

theorem covered_empty (sha : Sha256) (history : List (Call × Outcome)) (c : Call) :
    Covered sha history c {reply := err Status.invalidCommand} :=
  ⟨Justified.nil, (silent_err _).named _⟩

theorem Session.inv_next {sha : Sha256} (s : Session) (c : Call) (t : Session)
    (h : s.Inv sha) (hnext : Session.next sha s c = some t) : t.Inv sha := by
  rcases hresult : handle sha c.env c.req c.owner s.authenticator with ⟨o, b⟩
  simp only [Session.next, hresult, Option.some.injEq] at hnext
  subst hnext
  have hspec (hreq : c.req ≠ []) := handle_spec hreq h.opened.earned hresult
  refine ⟨opened_snoc h.opened c hresult fun hreq => (hspec hreq).2.2, h.covered.snoc ?_⟩
  by_cases hreq : c.req = []
  · rw [hreq] at hresult
    obtain ⟨rfl, -⟩ := Prod.mk.inj hresult
    exact covered_empty sha _ c
  · exact ⟨(hspec hreq).1, (hspec hreq).2.1⟩

/-- Each call of a history was made in the state that the calls before it led
to. -/
theorem session_call {sha : Sha256} {a : Authenticator} {t : Session}
    (h : Reach (Session.next sha) always ⟨a, []⟩ t)
    {before : List (Call × Outcome)} {x : Call × Outcome} {after : List (Call × Outcome)}
    (hsplit : t.history = before ++ x :: after) :
    ∃ u, Reach (Session.next sha) always ⟨a, []⟩ u ∧ u.history = before ∧
      (handle sha x.1.env x.1.req x.1.owner u.authenticator).1 = x.2 := by
  induction h generalizing after with
  | refl => simp at hsplit
  | @tail u v c hrun _ hnext ih =>
      obtain rfl := Option.some.inj hnext
      rcases List.eq_nil_or_concat after with rfl | ⟨more, last, rfl⟩
      · obtain ⟨rfl, hlast⟩ := List.append_inj' hsplit rfl
        cases hlast
        exact ⟨u, hrun, rfl, rfl⟩
      · have hshorter : u.history = before ++ x :: more := by
          rw [List.concat_eq_append, ← List.cons_append, ← List.append_assoc] at hsplit
          exact (List.append_inj' hsplit rfl).1
        exact ih hshorter

/-- Over every sequence of calls: no credential is created, no flag is signed
and no name returned unless the user approved this RP in the same call or, for
getNextAssertion, in the sign-in that opened the chain. -/
theorem handle_only_approved (sha : Sha256) (store : Store) (keys : List Bytes) {s : Session}
    (h : Reach (Session.next sha) always ⟨.fresh store keys, []⟩ s)
    (before : List (Call × Outcome)) (c : Call) (o : Outcome) (after : List (Call × Outcome))
    (hsplit : s.history = before ++ (c, o) :: after) : Covered sha before c o := by
  have hinv : s.Inv sha :=
    h.invariant ⟨fun hne => absurd rfl hne, .nil⟩ fun t e u ht _ hnext => t.inv_next e u ht hnext
  exact hinv.covered before (c, o) after hsplit

/-! ### Two accounts of one site -/

def twoAccounts : Store :=
  [([1], {rp := some "a".toList, uid := some [7], name := some "x".toList, t := some 1}),
    ([2], {rp := some "a".toList, uid := some [8], name := some "y".toList, t := some 2})]

def zeroDigest : Sha256 where
  digest _ := List.replicate 32 0
  length_digest _ := by simp

/-- A user who approves, at this time. -/
def approving (now : Int64) : Env where
  now := now
  later := now
  decision := Status.ok
  id := Vector.replicate 16 9
  newKey := none
  sign _ _ := some [3]
  deleteKey := true
  entries := id

/-- A sign-in for `a` without an allow list. -/
def signInCall : Call :=
  ⟨approving 0, [0x02, 0xA2, 0x01, 0x61, 0x61, 0x02, 0x41, 0x00], 0⟩

def nextCall : Call :=
  ⟨approving 29999, [0x08], 0⟩

/-- The second account is signed with both flags set, and the approval of the
first call covers it. -/
theorem nextCall_covered : ∃ s first second,
    Reach (Session.next zeroDigest) always ⟨.fresh twoAccounts [[1], [2]], []⟩ s ∧
      s.history = [(signInCall, first), (nextCall, second)] ∧
      second.effects = [.signed [1] (List.replicate 32 0 ++ [5, 0, 0, 0, 1]) [0]] ∧
      Covered zeroDigest [(signInCall, first)] nextCall second := by
  obtain ⟨s, first, second, hrun, hhistory, hsigned⟩ : ∃ s first second,
      replay (Session.next zeroDigest) always ⟨.fresh twoAccounts [[1], [2]], []⟩
        [signInCall, nextCall] = some s ∧
      s.history = [(signInCall, first), (nextCall, second)] ∧
      second.effects = [.signed [1] (List.replicate 32 0 ++ [5, 0, 0, 0, 1]) [0]] :=
    ⟨_, _, _, rfl, rfl, rfl⟩
  have hreach := reach_of_replay hrun
  exact ⟨s, first, second, hreach, hhistory, hsigned,
    handle_only_approved zeroDigest _ _ hreach [_] _ _ [] hhistory⟩

end Passkey.Phone

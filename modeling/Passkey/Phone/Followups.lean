import Passkey.Phone.Calls

/-!
What getNextAssertion returns. The chain that is pending holds credentials that
the last getAssertion of its owner found and did not return, for the RP and the
client data hash that it asked for.
-/

namespace Passkey.Phone

open Library

/-- A sign-in without an allow list: what it asks for and the credentials it
finds, of which the first is returned and the rest are left. -/
structure Opening (c : Call) (store : Store) (q : SignIn) (first : Bytes) (rest : List Bytes) :
    Prop where
  cmd : c.cmd = some 0x02
  read : ∃ object, parameters c.req = .ok (some object) ∧ readSignIn object = .ok (.ok q)
  discoverable : q.discoverable = true
  found : hits c.env store q = .ok (first :: rest)

/-- The map of an assertion that names its user. -/
def assertionMap (id ad sig : Bytes) (user : Object) : Object :=
  [(.int 1, .map [(key "type", key "public-key"), (key "id", .bytes id)]), (.int 2, .bytes ad),
    (.int 3, .bytes sig), (.int 4, .map user)]

/-- The reply is an assertion of the credential, signed in the same call over
data of this RP and this client data hash. -/
def AssertionOf (sha : Sha256) (rpId : Text) (cdh id : Bytes) (r : Reply)
    (effects : List Effect) : Prop :=
  ∃ flags n sig user b, r.bytes = 0 :: b ∧
    Cbor.encode (.map (assertionMap id (authData sha rpId flags n) sig user)) = .ok b ∧
    .signed id (authData sha rpId flags n) cdh ∈ effects

/-! ### The parts of a command -/

section Parts

variable {f : Chain} {sha : Sha256}

/-- The chain fields are these. -/
def Holds (f : Chain) (w : World) : Prop :=
  w.toAuthenticator.chain = f

theorem holds_of_eq {before w : World} (h : w = before) : Holds before.toAuthenticator.chain w :=
  h ▸ rfl

theorem assertion_reply (env : Env) (id : Bytes) (rpId : Text) (cdh : Bytes) (flags : UInt8)
    (count : Nat) (withUser : Bool) :
    Triple (Holds f) (assertion sha env id rpId cdh flags count withUser)
      (fun m w => Holds f w ∧ (count ≤ 1 → withUser = true → ∃ n sig user,
        m = assertionMap id (authData sha rpId flags n) sig user ∧
          .signed id (authData sha rpId flags n) cdh ∈ w.effects))
      (Holds f) := by
  unfold assertion
  refine Triple.bind (R := fun _ => Holds f) (Triple.get fun _ hw => hw) fun got => ?_
  refine Triple.bind (R := fun _ => Holds f) (Triple.update fun _ hw => hw) fun _ => ?_
  refine Triple.ite (fun _ => Triple.throw fun _ hw => hw) fun _ => ?_
  generalize ((got.store.find id).getD {}).n.getD 0 + 1 = n
  refine Triple.bind (R := fun _ w => Holds f w ∧
    .signed id (authData sha rpId flags n) cdh ∈ w.effects) ?_ fun sig => ?_
  · unfold sign
    split
    · refine Triple.bind (R := fun _ w => Holds f w ∧
        .signed id (authData sha rpId flags n) cdh ∈ w.effects) (Triple.update fun w hw => ?_)
        fun _ => Triple.pure fun _ hw => hw
      exact ⟨hw, List.mem_append_right _ (List.mem_singleton_self _)⟩
    · exact Triple.throw fun _ hw => hw
  · refine Triple.ite (fun _ => ?_) fun hanonymous => ?_
    · apply Triple.ofExcept_bind
      · intro uid _
        refine Triple.pure fun w hw => ⟨hw.1, fun hcount _ => ?_⟩
        rw [if_neg (Nat.not_lt.mpr hcount), List.append_nil]
        exact ⟨n, sig, _, rfl, hw.2⟩
      · intro _ _ w hw
        exact hw.1
    · exact Triple.pure fun w hw => ⟨hw.1, fun _ huser => absurd huser hanonymous⟩

theorem ok_bytes {m : Object} {r : Reply} (h : ok m = .ok r) :
    ∃ b, r.bytes = 0 :: b ∧ Cbor.encode (.map m) = .ok b := by
  obtain ⟨b, hencode, hreply⟩ := bind_ok h
  cases hreply
  exact ⟨b, rfl, hencode⟩

/-- A chain that lost its first `n` credentials. -/
def Dropped (n : Nat) (before w : World) : Prop :=
  Holds {before.toAuthenticator.chain with pending := before.pending.drop n} w

/-- A chain that is not open has nothing to lose. -/
theorem dropped_closed {before w : World} {n : Nat} (hclosed : before.pending = [])
    (h : Holds before.toAuthenticator.chain w) : Dropped n before w := by
  have hnone : before.pending.drop n = before.pending := by
    rw [hclosed, List.drop_nil]
  rw [Dropped, hnone]
  exact h

/-- A status other than OK is no success. -/
theorem err_head {status : Int} (h : UInt8.ofInt status ≠ 0) :
    (err status).bytes.head? ≠ some 0 := by
  simpa [err] using h

theorem getNextAssertion_next (env : Env) (before : World) :
    Triple (· = before) (getNextAssertion sha env)
      (fun r w => Dropped 1 before w ∧ (r.bytes.head? = some 0 → ∃ id rest rpId cdh,
        before.pending = id :: rest ∧ before.pendingRp = some rpId ∧
          before.pendingHash = some cdh ∧ AssertionOf sha rpId cdh id r w.effects))
      (Dropped 1 before) := by
  unfold getNextAssertion
  refine Triple.bind (R := fun got w => got = before ∧ w = before)
    (Triple.get fun w hw => ⟨hw, hw⟩) fun got => Triple.assume fun hgot => ?_
  subst hgot
  cases hpending : got.pending with
  | nil =>
      apply Triple.pure
      rintro w rfl
      refine ⟨dropped_closed hpending rfl, fun hok => absurd hok (err_head (by decide))⟩
  | cons id rest =>
      have hdropped (w : World) (hw : Holds {got.toAuthenticator.chain with pending := rest} w) :
          Dropped 1 got w := by
        rw [Dropped, hpending]
        exact hw
      refine Triple.bind (R := fun _ => Holds {got.toAuthenticator.chain with pending := rest})
        (Triple.update fun w hw => ?_) fun _ => ?_
      · subst hw
        rfl
      · apply Triple.ofExcept_bind
        · intro rpId hrp
          apply Triple.ofExcept_bind
          · intro cdh hhash
            refine Triple.bind ((assertion_reply env id rpId cdh got.pendingFlags 0
              true).consequence (fun _ hw => hw) (fun _ _ hw => hw) hdropped) fun m => ?_
            refine Triple.ofExcept (fun r hr w hw => ?_) fun w hw => hdropped w hw.1
            obtain ⟨hholds, hreply⟩ := hw
            obtain ⟨n, sig, user, rfl, hsigned⟩ := hreply (Nat.zero_le 1) rfl
            obtain ⟨b, hbytes, hencode⟩ := ok_bytes hr
            exact ⟨hdropped w hholds, fun _ => ⟨id, rest, rpId, cdh, rfl, nonNull_ok hrp,
              nonNull_ok hhash, _, n, sig, user, b, hbytes, hencode, hsigned⟩⟩
          · exact fun _ _ w hw => hdropped w hw
        · exact fun _ _ w hw => hdropped w hw

/-- The chain that a sign-in opened, if it opened one. -/
def Starts (env : Env) (p : Option Object) (before w : World) : Prop :=
  w.pending ≠ [] → ∃ object q first rest, p = some object ∧
    readSignIn object = .ok (.ok q) ∧ q.discoverable = true ∧
    hits env before.store q = .ok (first :: rest) ∧
    Holds (before.toAuthenticator.chain.opened env q rest) w

theorem starts_closed {env : Env} {p : Option Object} {before w : World}
    (hclosed : before.pending = []) (h : Holds before.toAuthenticator.chain w) :
    Starts env p before w := by
  have hpending : w.pending = before.pending := congrArg Chain.pending h
  exact fun hne => absurd (hpending.trans hclosed) hne

theorem answer_holds (env : Env) (q : SignIn) (first : Bytes) (rest : List Bytes) :
    Triple (Holds f) (answer sha env q first rest) (fun _ => Holds (f.opened env q rest))
      (Holds (f.opened env q rest)) := by
  unfold answer
  refine Triple.bind (R := fun _ => Holds (f.opened env q rest)) (Triple.update fun w hw => ?_)
    fun _ => ?_
  · have howner : w.pendingOwner = f.owner := hw ▸ rfl
    simp [Holds, Authenticator.chain, Chain.opened, howner]
  · refine Triple.bind (assertion_reply env first q.rpId q.cdh q.flags _ _) fun m => ?_
    exact Triple.ofExcept (fun _ _ _ hw => hw.1) fun _ hw => hw.1

theorem confirm_holds {E : World → Prop} (env : Env) (rpId title suffix : Text) :
    Triple (Holds f) (confirm env rpId title suffix) (fun _ => Holds f) E := by
  unfold confirm
  exact Triple.bind (Triple.update fun _ hw => hw) fun _ => Triple.pure fun _ hw => hw

theorem getAssertion_starts (env : Env) (p : Option Object) (before : World)
    (hclosed : before.pending = []) :
    Triple (· = before) (getAssertion sha env p) (fun _ => Starts env p before)
      (Starts env p before) := by
  have hstays (w : World) (hw : Holds before.toAuthenticator.chain w) : Starts env p before w :=
    starts_closed hclosed hw
  unfold getAssertion
  apply Triple.ofExcept_bind
  · intro object hobject
    have hp := nonNull_ok hobject
    apply Triple.ofExcept_bind
    · intro parameters hread
      cases parameters with
      | error status => exact Triple.pure fun w hw => hstays w (holds_of_eq hw)
      | ok q =>
          refine Triple.bind (R := fun got w => got = before ∧ w = before)
            (Triple.get fun w hw => ⟨hw, hw⟩) fun got => Triple.assume fun hgot => ?_
          subst hgot
          apply Triple.ofExcept_bind
          · intro found hfound
            cases found with
            | nil =>
                refine Triple.ite (fun _ => ?_) fun _ =>
                  Triple.pure fun w hw => hstays w (holds_of_eq hw)
                refine Triple.bind ((confirm_holds env q.rpId _ _).consequence
                  (fun _ => holds_of_eq) (fun _ _ hw => hw) hstays) fun _ => ?_
                exact Triple.pure fun w hw => hstays w hw
            | cons first rest =>
                have hopened (w : World)
                    (hw : Holds (got.toAuthenticator.chain.opened env q rest) w) :
                    Starts env p got w := by
                  intro hne
                  have hpending : w.pending = if q.discoverable then rest else [] :=
                    congrArg Chain.pending hw
                  have hdiscoverable : q.discoverable = true := by
                    by_contra hlisted
                    exact hne (by simpa [hlisted] using hpending)
                  exact ⟨object, q, first, rest, hp, hread, hdiscoverable, hfound, hw⟩
                have hanswer : Triple (Holds got.toAuthenticator.chain)
                    (answer sha env q first rest) (fun _ => Starts env p got)
                    (Starts env p got) :=
                  (answer_holds env q first rest).consequence (fun _ hw => hw)
                    (fun _ => hopened) hopened
                refine Triple.ite (fun _ => ?_) fun _ =>
                  hanswer.consequence (fun _ => holds_of_eq) (fun _ _ hw => hw) fun _ hw => hw
                refine Triple.bind ((confirm_holds env q.rpId _ _).consequence
                  (fun _ => holds_of_eq) (fun _ _ hw => hw) hstays) fun s => ?_
                exact Triple.ite (fun _ => Triple.pure fun w hw => hstays w hw) fun _ => hanswer
          · exact fun _ _ w hw => hstays w (holds_of_eq hw)
    · exact fun _ _ w hw => hstays w (holds_of_eq hw)
  · exact fun _ _ w hw => hstays w (holds_of_eq hw)

end Parts

/-! ### One call -/

section Handle

variable {sha : Sha256}

/-- How many credentials a getNextAssertion call takes from the chain: one,
unless its parameters cannot be read. -/
def Call.taken (c : Call) : Nat :=
  if c.cmd = some 0x08 && (parameters c.req).toBool then 1 else 0

/-- What a call leaves of the chain, or the chain it opened. -/
def FollowedBy (c : Call) (a b : Authenticator) : Prop :=
  b.pending ≠ [] → b.pendingOwner = some c.owner ∧
    ((a.Held c ∧ b.pendingRp = a.pendingRp ∧ b.pendingHash = a.pendingHash ∧
        b.pending = a.pending.drop c.taken) ∨
      ∃ q first rest, Opening c a.store q first rest ∧ b.pending = rest ∧
        b.pendingRp = some q.rpId ∧ b.pendingHash = some q.cdh)

/-- A getNextAssertion that succeeds returns the first credential that is
pending. -/
def Serves (sha : Sha256) (c : Call) (a : Authenticator) (o : Outcome) : Prop :=
  c.cmd = some 0x08 → o.reply.bytes.head? = some 0 → a.Held c ∧ ∃ id rest rpId cdh,
    a.pending = id :: rest ∧ a.pendingRp = some rpId ∧ a.pendingHash = some cdh ∧
      AssertionOf sha rpId cdh id o.reply o.effects

/-- What a command leaves: the chain less what it took, or one that it opened. -/
def Passed (env : Env) (cmd : UInt8) (req : Bytes) (before w : World) : Prop :=
  Dropped (if (parameters req).toBool then 1 else 0) before w ∨
    cmd = 0x02 ∧ ∃ p, parameters req = .ok p ∧ Starts env p before w

theorem dispatch_passes (env : Env) (cmd : UInt8) (req : Bytes) (before : World)
    (heffects : before.effects = []) (hclosed : cmd ≠ 0x08 → before.pending = []) :
    Triple (· = before) (dispatch sha env cmd req)
      (fun r w => Passed env cmd req before w ∧ (cmd = 0x08 → r.bytes.head? = some 0 →
        ∃ id rest rpId cdh, before.pending = id :: rest ∧ before.pendingRp = some rpId ∧
          before.pendingHash = some cdh ∧ AssertionOf sha rpId cdh id r w.effects))
      (Passed env cmd req before) := by
  have hsame (hother : cmd ≠ 0x08) (w : World)
      (hw : Holds before.toAuthenticator.chain w) : Passed env cmd req before w :=
    .inl (dropped_closed (hclosed hother) hw)
  unfold dispatch
  apply Triple.ofExcept_bind
  · intro p hp
    refine Triple.ite (fun hcmd => ?_) fun _ => ?_
    · have hother : cmd ≠ 0x08 := by
        rw [hcmd]
        decide
      refine Triple.ofExcept (fun _ _ w hw => ⟨hsame hother w (holds_of_eq hw), fun height => ?_⟩)
        fun w hw => hsame hother w (holds_of_eq hw)
      exact absurd height hother
    · refine Triple.ite (fun hcmd => ?_) fun _ => ?_
      · have hother : cmd ≠ 0x08 := by
          rw [hcmd]
          decide
        refine (@makeCredential_spec before.toAuthenticator.chain sha (fun _ => True) env
          p).consequence (fun w hw => ?_)
          (fun _ w hw => ⟨hsame hother w hw.2.2, fun height => absurd height hother⟩)
          fun w hw => hsame hother w hw.2
        subst hw
        exact ⟨heffects ▸ Justified.nil, rfl⟩
      · refine Triple.ite (fun hcmd => ?_) fun _ => ?_
        · have hother : cmd ≠ 0x08 := by
            rw [hcmd]
            decide
          have hstarts (w : World) (hw : Starts env p before w) : Passed env cmd req before w :=
            .inr ⟨hcmd, p, hp, hw⟩
          exact (getAssertion_starts env p before (hclosed hother)).consequence (fun _ hw => hw)
            (fun _ w hw => ⟨hstarts w hw, fun height => absurd height hother⟩) hstarts
        · refine Triple.ite (fun _ => ?_) fun hother => ?_
          · have htaken (w : World) (hw : Dropped 1 before w) : Passed env cmd req before w := by
              refine .inl ?_
              rw [hp]
              exact hw
            exact (getNextAssertion_next env before).consequence (fun _ hw => hw)
              (fun _ w hw => ⟨htaken w hw.1, fun _ => hw.2⟩) htaken
          · exact Triple.pure fun w hw =>
              ⟨hsame hother w (holds_of_eq hw), fun height => absurd height hother⟩
  · intro e hp w hw
    refine .inl ?_
    rw [hp]
    exact holds_of_eq hw

/-- A chain that a command finds pending is the one that was left. -/
theorem enter_kept {env : Env} {cmd : UInt8} {owner : Owner} {a : Authenticator}
    (h : (a.enter env cmd owner).pending ≠ []) : (a.enter env cmd owner).pending = a.pending := by
  unfold Authenticator.enter at h ⊢
  dsimp only at h ⊢
  split at h
  · exact absurd rfl h
  · rename_i hopen
    rw [if_neg hopen]

theorem followedBy_of_passed {c : Call} {cmd : UInt8} {a : Authenticator} {w : World}
    (hcmd : c.cmd = some cmd)
    (h : Passed c.env cmd c.req {a.enter c.env cmd c.owner with} w) :
    FollowedBy c a w.toAuthenticator := by
  intro hne
  rcases h with hdropped | ⟨rfl, p, hp, hstarts⟩
  · have hleft : w.pending = (a.enter c.env cmd c.owner).pending.drop
        (if (parameters c.req).toBool then 1 else 0) := congrArg Chain.pending hdropped
    have hpending : (a.enter c.env cmd c.owner).pending ≠ [] := by
      intro hnil
      rw [hnil, List.drop_nil] at hleft
      exact hne hleft
    have hheld := enter_pending hcmd hpending
    refine ⟨congrArg Chain.owner hdropped, .inl ⟨hheld, congrArg Chain.rpId hdropped,
      congrArg Chain.hash hdropped, ?_⟩⟩
    rw [hleft, enter_kept hpending]
    simp [Call.taken, hheld.2.1]
  · obtain ⟨object, q, first, rest, rfl, hread, hdiscoverable, hhits, hholds⟩ := hstarts hne
    have hpending : w.pending = if q.discoverable then rest else [] :=
      congrArg Chain.pending hholds
    exact ⟨congrArg Chain.owner hholds, .inr ⟨q, first, rest,
      ⟨hcmd, ⟨object, hp, hread⟩, hdiscoverable, hhits⟩,
      by rw [hpending, if_pos hdiscoverable], congrArg Chain.rpId hholds,
      congrArg Chain.hash hholds⟩⟩

/-- One call with a command: the chain it leaves, and what it serves of it. -/
theorem handle_follows {a b : Authenticator} {c : Call} {o : Outcome} (hreq : c.req ≠ [])
    (hhandle : handle sha c.env c.req c.owner a = (o, b)) :
    FollowedBy c a b ∧ Serves sha c a o := by
  obtain ⟨cmd, hcmd⟩ := Call.cmd_of_nonempty hreq
  have hclosed : cmd ≠ 0x08 → (a.enter c.env cmd c.owner).pending = [] := by
    intro hother
    simp [Authenticator.enter, hother]
  have hspec := @dispatch_passes sha c.env cmd c.req {a.enter c.env cmd c.owner with} rfl hclosed
  have hresult := Call.handled (Q := fun o b => FollowedBy c a b ∧ Serves sha c a o) hcmd (a := a)
    (hspec.consequence ?_ ?_ ?_)
  · rw [hhandle] at hresult
    exact hresult
  · rintro w rfl
    rfl
  · intro r w hw
    refine ⟨followedBy_of_passed hcmd hw.1, fun hnext hok => ?_⟩
    have height : cmd = 0x08 := Option.some.inj (hcmd.symm.trans hnext)
    obtain ⟨id, rest', rpId, cdh, hpending, hrp, hhash, hassertion⟩ := hw.2 height hok
    dsimp only at hpending hrp hhash
    have hne : (a.enter c.env cmd c.owner).pending ≠ [] := by
      rw [hpending]
      simp
    have hheld := enter_pending hcmd hne
    exact ⟨hheld, id, rest', rpId, cdh, (enter_kept hne).symm.trans hpending, hrp, hhash,
      hassertion⟩
  · intro w hw e
    refine ⟨followedBy_of_passed hcmd hw, fun _ hok => absurd hok (err_head ?_)⟩
    cases e <;> decide

end Handle

/-! ### Every sequence of calls -/

/-- How many credentials the calls of a history took from the chain. -/
def takenIn (history : List (Call × Outcome)) : Nat :=
  (history.map fun x => x.1.taken).sum

/-- The sign-in `q` of the call `opener` left the credentials `rest`: nothing
but empty commands and getNextAssertion calls of the same owner came since, and
these are the credentials that it found and that no call took yet. -/
def LeftBy (sha : Sha256) (a : Authenticator) (history : List (Call × Outcome)) (opener : Call)
    (q : SignIn) (rest : List Bytes) : Prop :=
  ∃ before outcome mid first others, Reach (Session.next sha) always ⟨a, []⟩ before ∧
    history = before.history ++ (opener, outcome) :: mid ∧
    (∀ x ∈ mid, x.1.req = [] ∨ x.1.cmd = some 0x08 ∧ x.1.owner = opener.owner) ∧
    Opening opener before.authenticator.store q first others ∧
    rest = others.drop (takenIn mid)

theorem LeftBy.snoc {sha : Sha256} {a : Authenticator} {history : List (Call × Outcome)}
    {opener c : Call} {o : Outcome} {q : SignIn} {rest : List Bytes}
    (h : LeftBy sha a history opener q rest)
    (hc : c.req = [] ∨ c.cmd = some 0x08 ∧ c.owner = opener.owner) :
    LeftBy sha a (history ++ [(c, o)]) opener q (rest.drop c.taken) := by
  obtain ⟨before, outcome, mid, first, others, hrun, rfl, hmid, hopening, rfl⟩ := h
  refine ⟨before, outcome, mid ++ [(c, o)], first, others, hrun, by simp, ?_, hopening, ?_⟩
  · intro x hx
    rcases List.mem_append.mp hx with hold | hnew
    · exact hmid x hold
    · obtain rfl := List.mem_singleton.mp hnew
      exact hc
  · rw [List.drop_drop]
    simp [takenIn]

/-- What is pending was left by a sign-in of the history. -/
def Attributed (sha : Sha256) (a : Authenticator) (s : Session) : Prop :=
  s.authenticator.pending ≠ [] → ∃ opener q,
    LeftBy sha a s.history opener q s.authenticator.pending ∧
    s.authenticator.pendingOwner = some opener.owner ∧
    s.authenticator.pendingRp = some q.rpId ∧ s.authenticator.pendingHash = some q.cdh

theorem attributed_next {sha : Sha256} {a : Authenticator} {s t : Session} {c : Call}
    (hrun : Reach (Session.next sha) always ⟨a, []⟩ s) (h : Attributed sha a s)
    (hnext : Session.next sha s c = some t) : Attributed sha a t := by
  rcases hresult : handle sha c.env c.req c.owner s.authenticator with ⟨o, b⟩
  simp only [Session.next, hresult, Option.some.injEq] at hnext
  subst hnext
  intro hne
  by_cases hreq : c.req = []
  · rw [hreq] at hresult
    obtain ⟨rfl, rfl⟩ := Prod.mk.inj hresult
    obtain ⟨opener, q, hleft, hfields⟩ := h hne
    have hnone : c.taken = 0 := by simp [Call.taken, Call.cmd, hreq]
    have hsame := @LeftBy.snoc _ _ _ _ c {reply := err Status.invalidCommand} _ _ hleft (.inl hreq)
    rw [hnone] at hsame
    exact ⟨opener, q, hsame, hfields⟩
  · obtain ⟨howner, hkept | hopened⟩ := (handle_follows hreq hresult).1 hne
    · obtain ⟨hheld, hrp, hhash, hpending⟩ := hkept
      obtain ⟨opener, q, hleft, hopener, hrpId, hcdh⟩ := h hheld.1
      have hsame : c.owner = opener.owner :=
        Option.some.inj (hheld.2.2.1.symm.trans hopener)
      refine ⟨opener, q, ?_, hsame ▸ howner, hrp.trans hrpId, hhash.trans hcdh⟩
      dsimp only at hpending ⊢
      rw [hpending]
      exact hleft.snoc (.inr ⟨hheld.2.1, hsame⟩)
    · obtain ⟨q, first, rest, hopening, hpending, hrp, hhash⟩ := hopened
      exact ⟨c, q, ⟨s, o, [], first, rest, hrun, rfl, by simp, hopening, hpending⟩, howner, hrp,
        hhash⟩

theorem attributed_reachable {sha : Sha256} {store : Store} {keys : List Bytes} {s : Session}
    (h : Reach (Session.next sha) always ⟨.fresh store keys, []⟩ s) :
    Attributed sha (.fresh store keys) s := by
  induction h with
  | refl => exact fun hne => absurd rfl hne
  | tail hrun _ hnext ih => exact attributed_next hrun ih hnext

/-- A getNextAssertion that succeeds returns an assertion of the first
credential that is left of the last sign-in of its owner, for what this sign-in
asked. -/
theorem next_left {sha : Sha256} {store : Store} {keys : List Bytes} {s : Session} {c : Call}
    (h : Reach (Session.next sha) always ⟨.fresh store keys, []⟩ s) (hcmd : c.cmd = some 0x08)
    (hok : (handle sha c.env c.req c.owner s.authenticator).1.reply.bytes.head? = some 0) :
    s.authenticator.Held c ∧ ∃ opener q id rest,
      LeftBy sha (.fresh store keys) s.history opener q (id :: rest) ∧ opener.owner = c.owner ∧
      AssertionOf sha q.rpId q.cdh id (handle sha c.env c.req c.owner s.authenticator).1.reply
        (handle sha c.env c.req c.owner s.authenticator).1.effects := by
  have hreq : c.req ≠ [] := by
    intro hnil
    rw [Call.cmd, hnil] at hcmd
    cases hcmd
  obtain ⟨hheld, id, rest, rpId, cdh, hpending, hrp, hhash, hassertion⟩ :=
    (handle_follows hreq rfl).2 hcmd hok
  obtain ⟨opener, q, hleft, howner, hrpId, hcdh⟩ := attributed_reachable h hheld.1
  obtain rfl := Option.some.inj (hrp.symm.trans hrpId)
  obtain rfl := Option.some.inj (hhash.symm.trans hcdh)
  refine ⟨hheld, opener, q, id, rest, hpending ▸ hleft, ?_, hassertion⟩
  exact Option.some.inj (howner.symm.trans hheld.2.2.1)

end Passkey.Phone

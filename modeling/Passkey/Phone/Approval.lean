import Passkey.Phone.Authenticator

/-!
What the authenticator does without asking. Over every sequence of calls, a
credential is created, authenticator data with a flag set is signed and a name
is returned only after the user approved a prompt for that RP: in the same
call, or, for getNextAssertion, in the getAssertion that opened the chain.
-/

namespace Passkey.Phone

open Library

/-- The user said OK to a prompt with this title for this RP. -/
def Approved (title : String) (rpId : Text) (effects : List Effect) : Prop :=
  ∃ detail, .confirm rpId title.toList detail Status.ok ∈ effects

/-- Approved in this call, or earned by an earlier one. -/
def Authorised (earned : Text → Prop) (rpId : Text) (effects : List Effect) : Prop :=
  Approved "Create a key" rpId effects ∨ Approved "Sign in" rpId effects ∨ earned rpId

/-- The effects of a call are covered by approvals. Byte 32 of authenticator
data holds the flags, the bytes before it the hash of the RP id. -/
structure Justified (sha : Sha256) (earned : Text → Prop) (effects : List Effect) : Prop where
  created : ∀ id c, .created id c ∈ effects →
    ∃ rpId, c.rp = some rpId ∧ Approved "Create a key" rpId effects
  signed : ∀ id ad cdh, .signed id ad cdh ∈ effects →
    ad[32]? = some 0 ∨ ∃ rpId, ad.take 32 = sha.digest rpId ∧ Authorised earned rpId effects

/-- The map has a user entity with a name in it. -/
def Discloses (m : Object) : Prop :=
  ∃ user value, (.int 4, .map user) ∈ m ∧
    ((key "name", value) ∈ user ∨ (key "displayName", value) ∈ user)

/-- A map with names comes with authenticator data of an RP that was approved. -/
def Named (sha : Sha256) (earned : Text → Prop) (m : Object) (effects : List Effect) : Prop :=
  Discloses m → ∃ rpId ad, (.int 2, .bytes ad) ∈ m ∧ ad.take 32 = sha.digest rpId ∧
    (Approved "Sign in" rpId effects ∨ earned rpId)

section Effects

variable {sha : Sha256} {earned : Text → Prop} {effects : List Effect}

theorem Approved.append {title : String} {rpId : Text} (h : Approved title rpId effects)
    (more : List Effect) : Approved title rpId (effects ++ more) := by
  obtain ⟨detail, hmem⟩ := h
  exact ⟨detail, List.mem_append_left _ hmem⟩

theorem Authorised.append {rpId : Text} (h : Authorised earned rpId effects)
    (more : List Effect) : Authorised earned rpId (effects ++ more) := by
  rcases h with hmake | hsign | hearned
  · exact .inl (hmake.append more)
  · exact .inr (.inl (hsign.append more))
  · exact .inr (.inr hearned)

theorem Justified.nil : Justified sha earned [] :=
  ⟨by simp, by simp⟩

theorem Justified.snoc (h : Justified sha earned effects) (e : Effect)
    (hcreated : ∀ id c, e = .created id c →
      ∃ rpId, c.rp = some rpId ∧ Approved "Create a key" rpId effects)
    (hsigned : ∀ id ad cdh, e = .signed id ad cdh →
      ad[32]? = some 0 ∨ ∃ rpId, ad.take 32 = sha.digest rpId ∧ Authorised earned rpId effects) :
    Justified sha earned (effects ++ [e]) := by
  constructor
  · intro id c hmem
    obtain ⟨rpId, hrp, happroved⟩ : ∃ rpId, c.rp = some rpId ∧
        Approved "Create a key" rpId effects := by
      rcases List.mem_append.mp hmem with hold | hnew
      · exact h.created id c hold
      · exact hcreated id c (List.mem_singleton.mp hnew).symm
    exact ⟨rpId, hrp, happroved.append _⟩
  · intro id ad cdh hmem
    have hcover : ad[32]? = some 0 ∨
        ∃ rpId, ad.take 32 = sha.digest rpId ∧ Authorised earned rpId effects := by
      rcases List.mem_append.mp hmem with hold | hnew
      · exact h.signed id ad cdh hold
      · exact hsigned id ad cdh (List.mem_singleton.mp hnew).symm
    rcases hcover with hzero | ⟨rpId, hhash, hauth⟩
    · exact .inl hzero
    · exact .inr ⟨rpId, hhash, hauth.append _⟩

theorem Justified.confirm (h : Justified sha earned effects) (rpId title detail : Text)
    (status : Int) : Justified sha earned (effects ++ [.confirm rpId title detail status]) :=
  h.snoc _ (by simp) (by simp)

/-- Justified effects in which the last prompt may have been approved. -/
def Asked (sha : Sha256) (earned : Text → Prop) (title : String) (rpId : Text) (status : Int)
    (effects : List Effect) : Prop :=
  Justified sha earned effects ∧ (status = Status.ok → Approved title rpId effects)

theorem Justified.asked (h : Justified sha earned effects) (rpId : Text) (title : String)
    (detail : Text) (status : Int) :
    Asked sha earned title rpId status
      (effects ++ [.confirm rpId title.toList detail status]) :=
  ⟨h.confirm _ _ _ _, fun hok => ⟨detail, by simp [hok]⟩⟩

end Effects

/-! ### Authenticator data -/

theorem take_digest (sha : Sha256) (rpId : Text) (rest : Bytes) :
    (sha.digest rpId ++ rest).take 32 = sha.digest rpId := by
  have hlength := sha.length_digest rpId
  rw [← hlength, List.take_left]

theorem attestedData_hash (sha : Sha256) (rpId : Text) (id cose : Bytes) :
    (attestedData sha rpId id cose).take 32 = sha.digest rpId := by
  simp only [attestedData, List.append_assoc]
  exact take_digest sha rpId _

theorem authData_hash (sha : Sha256) (rpId : Text) (flags : UInt8) (n : Nat) :
    (authData sha rpId flags n).take 32 = sha.digest rpId := by
  simp only [authData, List.append_assoc]
  exact take_digest sha rpId _

theorem authData_flags (sha : Sha256) (rpId : Text) (flags : UInt8) (n : Nat) :
    (authData sha rpId flags n)[32]? = some flags := by
  have hlength := sha.length_digest rpId
  simp only [authData, List.append_assoc]
  rw [List.getElem?_append_right (by omega)]
  simp [hlength]

/-! ### What each part of a command does -/

/-- The fields that carry a chain from one call to the next. -/
structure Chain where
  pending : List Bytes
  hash : Option Bytes
  rpId : Option Text
  flags : UInt8
  owner : Option Owner
  deadline : Int64

def Authenticator.chain (a : Authenticator) : Chain :=
  ⟨a.pending, a.pendingHash, a.pendingRp, a.pendingFlags, a.pendingOwner, a.pendingUntil⟩

/-- A fact about the effects so far, with the chain fields fixed. -/
def Sees (P : List Effect → Prop) (f : Chain) (w : World) : Prop :=
  P w.effects ∧ w.toAuthenticator.chain = f

section Parts

variable {P : List Effect → Prop} {f : Chain} {sha : Sha256} {earned : Text → Prop}

theorem note_spec {P' : List Effect → Prop} {E : World → Prop} (e : Effect)
    (h : ∀ effects, P effects → P' (effects ++ [e])) :
    Triple (Sees P f) (note e) (fun _ => Sees P' f) E :=
  Triple.update fun _ hw => ⟨h _ hw.1, hw.2⟩

theorem delete_spec {E : World → Prop} (env : Env) (id : Bytes) :
    Triple (Sees P f) (delete env id) (fun _ => Sees P f) E :=
  Triple.update fun _ hw => hw

theorem save_spec {E : World → Prop} (id : Bytes) (c : Json) :
    Triple (Sees P f) (save id c) (fun _ => Sees P f) E :=
  Triple.update fun _ hw => hw

theorem replaceOld_spec (env : Env) (rpId : Text) (uid : Bytes) (store : Store) :
    Triple (Sees P f) (replaceOld env rpId uid store) (fun _ => Sees P f) (Sees P f) := by
  induction store with
  | nil => exact Triple.pure fun _ hw => hw
  | cons entry rest ih =>
      refine Triple.bind (R := fun _ => Sees P f) (Triple.ofExcept (fun _ _ _ hw => hw)
        fun _ hw => hw) fun old => ?_
      cases old with
      | true => exact Triple.bind (delete_spec env entry.1) fun _ => ih
      | false => exact ih

theorem newKey_spec (env : Env) (id : Bytes) :
    Triple (Sees P f) (newKey env id) (fun _ => Sees P f) (Sees P f) := by
  unfold newKey
  split
  · exact Triple.bind (R := fun _ => Sees P f) (Triple.update fun _ hw => hw)
      fun _ => Triple.pure fun _ hw => hw
  · exact Triple.throw fun _ hw => hw

theorem sign_spec (env : Env) (id ad cdh : Bytes)
    (h : ∀ effects, P effects → P (effects ++ [.signed id ad cdh])) :
    Triple (Sees P f) (sign env id ad cdh) (fun _ => Sees P f) (Sees P f) := by
  unfold sign
  split
  · exact Triple.bind (note_spec _ h) fun _ => Triple.pure fun _ hw => hw
  · exact Triple.throw fun _ hw => hw

theorem nonNull_ok {α : Type} {x : Option α} {a : α} (h : nonNull x = .ok a) : x = some a := by
  cases x with
  | none => cases h
  | some a' => exact congrArg some (Except.ok.inj h)

/-- A pure part of a command changes nothing and may throw. -/
theorem ofExcept_spec {α : Type} (x : Except Thrown α) :
    Triple (Sees P f) (ofExcept x : Java α) (fun _ => Sees P f) (Sees P f) :=
  Triple.ofExcept (fun _ _ _ hw => hw) fun _ hw => hw

end Parts

/-! ### makeCredential -/

section MakeCredential

variable {f : Chain} {sha : Sha256} {earned : Text → Prop}

/-- Justified effects that include an approval to create a key for the RP. -/
def Granted (sha : Sha256) (earned : Text → Prop) (rpId : Text) (effects : List Effect) : Prop :=
  Justified sha earned effects ∧ Approved "Create a key" rpId effects

theorem Granted.created {rpId : Text} {effects : List Effect}
    (h : Granted sha earned rpId effects) (id : Bytes) {c : Json} (hrp : c.rp = some rpId) :
    Granted sha earned rpId (effects ++ [.created id c]) := by
  refine ⟨h.1.snoc _ ?_ (by simp), h.2.append _⟩
  intro id' c' heq
  simp only [Effect.created.injEq] at heq
  exact ⟨rpId, heq.2 ▸ hrp, h.2⟩

theorem Granted.attested {rpId : Text} {effects : List Effect}
    (h : Granted sha earned rpId effects) (id cose cdh : Bytes) :
    Granted sha earned rpId
      (effects ++ [.signed id (attestedData sha rpId id cose) cdh]) := by
  refine ⟨h.1.snoc _ (by simp) ?_, h.2.append _⟩
  intro id' ad cdh' heq
  simp only [Effect.signed.injEq] at heq
  exact .inr ⟨rpId, heq.2.1 ▸ attestedData_hash sha rpId id cose, .inl h.2⟩

/-- A reply without names. -/
def Silent (r : Reply) : Prop :=
  ∀ m, r.returned = some m → ¬ Discloses m

theorem silent_err (status : Int) : Silent (err status) := by
  simp [Silent, err]

theorem ok_returned {m : Object} {r : Reply} (h : ok m = .ok r) : r.returned = some m := by
  unfold ok at h
  cases hencode : Cbor.encode (.map m) with
  | error e => simp [hencode, bind, Except.bind] at h
  | ok b =>
      simp only [hencode, bind, Except.bind, pure, Except.pure, Except.ok.injEq] at h
      rw [← h]

/-- After the approval: the new credential and its attestation. -/
theorem store_spec (env : Env) (r : Registration) (rpId : Text) :
    Triple (Sees (Granted sha earned rpId) f) (create.store sha env r rpId)
      (fun reply w => Silent reply ∧ Sees (Granted sha earned rpId) f w)
      (Sees (Granted sha earned rpId) f) := by
  unfold create.store
  refine Triple.bind (newKey_spec env _) fun point => ?_
  refine Triple.bind (ofExcept_spec _) fun uid => ?_
  refine Triple.bind (save_spec _ _) fun _ => ?_
  refine Triple.bind (note_spec _ fun _ h => h.created _ rfl) fun _ => ?_
  refine Triple.bind (ofExcept_spec _) fun cose => ?_
  refine Triple.bind (sign_spec env _ _ _ fun _ h => h.attested _ _ _) fun sig => ?_
  refine Triple.ofExcept ?_ fun _ hw => hw
  intro reply hreply w hw
  refine ⟨?_, hw⟩
  intro m hm
  rw [ok_returned hreply, Option.some.injEq] at hm
  subst hm
  rintro ⟨user, value, hmem, -⟩
  simp at hmem

theorem create_spec (env : Env) (r : Registration) (rpId : Text) :
    Triple (Sees (Granted sha earned rpId) f) (create sha env r rpId)
      (fun reply w => Silent reply ∧ Sees (Granted sha earned rpId) f w)
      (Sees (Granted sha earned rpId) f) := by
  unfold create
  refine Triple.bind (R := fun _ => Sees (Granted sha earned rpId) f)
    (Triple.get fun _ hw => hw) fun w => ?_
  refine Triple.ite (fun _ => ?_) fun _ => store_spec env r rpId
  refine Triple.bind (ofExcept_spec _) fun uid => ?_
  exact Triple.bind (replaceOld_spec env rpId uid _) fun _ => store_spec env r rpId

/-- Asking the user: what holds after a prompt that was not approved, and what
an approved one adds. -/
theorem confirm_spec {P P' : List Effect → Prop} {E : World → Prop} (env : Env)
    (rpId title suffix : Text)
    (h : ∀ effects, P effects →
      P' (effects ++ [.confirm rpId title (label rpId ++ suffix) env.decision])) :
    Triple (Sees P f) (confirm env rpId title suffix)
      (fun s w => s = env.decision ∧ Sees P' f w) E := by
  unfold confirm
  exact Triple.bind (note_spec _ h) fun _ => Triple.pure fun _ hw => ⟨rfl, hw⟩

theorem makeCredential_spec (env : Env) (p : Option Object) :
    Triple (Sees (Justified sha earned) f) (makeCredential sha env p)
      (fun reply w => Silent reply ∧ Sees (Justified sha earned) f w)
      (Sees (Justified sha earned) f) := by
  unfold makeCredential
  refine Triple.bind (ofExcept_spec _) fun p => ?_
  refine Triple.bind (ofExcept_spec _) fun parameters => ?_
  cases parameters with
  | error status => exact Triple.pure fun _ hw => ⟨silent_err status, hw⟩
  | ok r =>
      refine Triple.bind (R := fun _ => Sees (Justified sha earned) f)
        (Triple.get fun _ hw => hw) fun w => ?_
      refine Triple.bind (ofExcept_spec _) fun already => ?_
      refine Triple.bind (ofExcept_spec _) fun rpId => ?_
      refine Triple.ite (fun _ => ?_) fun _ => ?_
      · refine Triple.bind (confirm_spec env rpId _ _ fun _ h => h.confirm _ _ _ _) fun s => ?_
        exact Triple.pure fun _ hw => ⟨silent_err _, hw.2⟩
      · refine Triple.bind
          (confirm_spec env rpId _ _ fun _ h => h.asked rpId "Create a key" _ _) fun s => ?_
        refine Triple.assume fun hs => ?_
        refine Triple.ite (fun _ => ?_) fun hok => ?_
        · exact Triple.pure fun _ hw => ⟨silent_err s, hw.1.1, hw.2⟩
        · have hdecision : env.decision = Status.ok := hs ▸ not_not.mp hok
          exact (create_spec env r rpId).consequence
            (fun _ hw => ⟨⟨hw.1.1, hw.1.2 hdecision⟩, hw.2⟩)
            (fun _ _ hw => ⟨hw.1, hw.2.1.1, hw.2.2⟩) fun _ hw => ⟨hw.1.1, hw.2⟩

end MakeCredential

/-! ### getAssertion and getNextAssertion -/

section Assertions

variable {f : Chain} {sha : Sha256} {earned : Text → Prop}

/-- Justified effects under which an assertion with these flags may be made. -/
def Ready (sha : Sha256) (earned : Text → Prop) (rpId : Text) (flags : UInt8)
    (effects : List Effect) : Prop :=
  Justified sha earned effects ∧
    (flags = 0 ∨ Approved "Sign in" rpId effects ∨ earned rpId)

theorem Ready.signed {rpId : Text} {flags : UInt8} {effects : List Effect}
    (h : Ready sha earned rpId flags effects) (id cdh : Bytes) (n : Nat) :
    Ready sha earned rpId flags
      (effects ++ [.signed id (authData sha rpId flags n) cdh]) := by
  constructor
  · refine h.1.snoc _ (by simp) ?_
    intro id' ad cdh' heq
    simp only [Effect.signed.injEq] at heq
    obtain ⟨-, rfl, -⟩ := heq
    rcases h.2 with hzero | hauth
    · exact .inl (hzero ▸ authData_flags sha rpId flags n)
    · exact .inr ⟨rpId, authData_hash sha rpId flags n, .inr hauth⟩
  · rcases h.2 with hzero | happroved | hearned
    · exact .inl hzero
    · exact .inr (.inl (happroved.append _))
    · exact .inr (.inr hearned)

theorem userEntity_named {c : Json} {uid : Bytes} {flags : UInt8} {value : Value}
    (h : (key "name", value) ∈ userEntity c uid flags ∨
      (key "displayName", value) ∈ userEntity c uid flags) : flags ≠ 0 := by
  rintro rfl
  simp [userEntity, key] at h

/-- The map of an assertion names its user only with a flag set. -/
theorem named_assertion {c : Json} {uid : Bytes} {flags : UInt8} {rpId : Text} {n : Nat}
    {cred : Value} {sig : Bytes} {effects : List Effect} {counted : Object}
    (hcounted : ∀ e ∈ counted, e.1 = .int 5) (h : Ready sha earned rpId flags effects) :
    Named sha earned ([(.int 1, cred), (.int 2, .bytes (authData sha rpId flags n)),
      (.int 3, .bytes sig)] ++ [(.int 4, .map (userEntity c uid flags))] ++ counted) effects := by
  rintro ⟨user, value, hmem, hname⟩
  have hflags : flags ≠ 0 := by
    rcases List.mem_append.mp hmem with hmain | hrest
    · obtain rfl : user = userEntity c uid flags := by simpa using hmain
      exact userEntity_named hname
    · have hfive := hcounted _ hrest
      simp at hfive
  refine ⟨rpId, authData sha rpId flags n, by simp, authData_hash sha rpId flags n, ?_⟩
  exact h.2.resolve_left hflags

theorem unnamed_assertion {counted main : Object} {effects : List Effect}
    (hcounted : ∀ e ∈ counted, e.1 = .int 5) (hmain : ∀ e ∈ main, e.1 ≠ .int 4) :
    Named sha earned (main ++ counted) effects := by
  rintro ⟨user, value, hmem, -⟩
  rcases List.mem_append.mp hmem with hold | hrest
  · exact absurd rfl (hmain _ hold)
  · have hfive := hcounted _ hrest
    simp at hfive

theorem assertion_spec (env : Env) (id : Bytes) (rpId : Text) (cdh : Bytes) (flags : UInt8)
    (count : Nat) (withUser : Bool) :
    Triple (Sees (Ready sha earned rpId flags) f)
      (assertion sha env id rpId cdh flags count withUser)
      (fun m w => Named sha earned m w.effects ∧ Sees (Ready sha earned rpId flags) f w)
      (Sees (Ready sha earned rpId flags) f) := by
  unfold assertion
  refine Triple.bind (R := fun _ => Sees (Ready sha earned rpId flags) f)
    (Triple.get fun _ hw => hw) fun w => ?_
  refine Triple.bind (save_spec _ _) fun _ => ?_
  refine Triple.ite (fun _ => Triple.throw fun _ hw => hw) fun _ => ?_
  refine Triple.bind (sign_spec env _ _ _ fun _ h => h.signed _ _ _) fun sig => ?_
  have hcounted : ∀ e ∈ (if count > 1 then [((.int 5 : Value), (.int count : Value))] else []),
      e.1 = .int 5 := by
    split <;> simp
  refine Triple.ite (fun _ => ?_) fun _ => ?_
  · refine Triple.bind (ofExcept_spec _) fun uid => ?_
    exact Triple.pure fun w hw => ⟨named_assertion hcounted hw.1, hw⟩
  · exact Triple.pure fun w hw => ⟨unnamed_assertion hcounted (by simp), hw⟩

/-- The reply of an assertion, with the names it may hold. -/
def NamedReply (sha : Sha256) (earned : Text → Prop) (r : Reply) (effects : List Effect) : Prop :=
  ∀ m, r.returned = some m → Named sha earned m effects

theorem Silent.named {r : Reply} (h : Silent r) (effects : List Effect) :
    NamedReply sha earned r effects :=
  fun m hm hdiscloses => absurd hdiscloses (h m hm)

/-- The chain that an answered getAssertion leaves behind. -/
def Chain.opened (f : Chain) (env : Env) (q : SignIn) (rest : List Bytes) : Chain :=
  ⟨if q.discoverable then rest else [], some q.cdh, some q.rpId, q.flags, f.owner,
    env.later + 30000⟩

theorem answer_spec (env : Env) (q : SignIn) (first : Bytes) (rest : List Bytes) :
    Triple (Sees (Ready sha earned q.rpId q.flags) f) (answer sha env q first rest)
      (fun r w => NamedReply sha earned r w.effects ∧
        Sees (Ready sha earned q.rpId q.flags) (f.opened env q rest) w)
      (Sees (Ready sha earned q.rpId q.flags) (f.opened env q rest)) := by
  unfold answer
  refine Triple.bind (R := fun _ =>
    Sees (Ready sha earned q.rpId q.flags) (f.opened env q rest)) ?_ fun _ => ?_
  · refine Triple.update fun w hw => ⟨hw.1, ?_⟩
    have howner : w.pendingOwner = f.owner := hw.2 ▸ rfl
    simp [Authenticator.chain, Chain.opened, howner]
  · refine Triple.bind (assertion_spec env first q.rpId q.cdh q.flags _ _) fun m => ?_
    refine Triple.ofExcept ?_ fun _ hw => hw.2
    intro r hr w hw
    refine ⟨?_, hw.2⟩
    intro m' hm'
    rw [ok_returned hr, Option.some.injEq] at hm'
    exact hm' ▸ hw.1

/-- No chain, or the chain that a sign-in opened with what it earned. -/
def Opens (env : Env) (p : Option Object) (owner : Option Owner) (w : World) : Prop :=
  w.pendingOwner = owner ∧ (w.pending ≠ [] → ∃ object q, p = some object ∧
    readSignIn object = .ok (.ok q) ∧ q.discoverable = true ∧ w.pendingRp = some q.rpId ∧
    w.pendingUntil = env.later + 30000 ∧
    (w.pendingFlags = 0 ∨ Approved "Sign in" q.rpId w.effects))

/-- A call that is not the next one of a chain earns nothing from before. -/
def Unearned : Text → Prop := fun _ => False

theorem Justified.mono {earned' : Text → Prop} {effects : List Effect}
    (h : Justified sha earned effects) (hle : ∀ rpId, earned rpId → earned' rpId) :
    Justified sha earned' effects := by
  refine ⟨h.created, fun id ad cdh hmem => ?_⟩
  rcases h.signed id ad cdh hmem with hzero | ⟨rpId, hhash, hauth⟩
  · exact .inl hzero
  · exact .inr ⟨rpId, hhash, hauth.imp_right (Or.imp_right (hle rpId))⟩

theorem NamedReply.mono {earned' : Text → Prop} {r : Reply} {effects : List Effect}
    (h : NamedReply sha earned r effects) (hle : ∀ rpId, earned rpId → earned' rpId) :
    NamedReply sha earned' r effects := by
  intro m hm hdiscloses
  obtain ⟨rpId, ad, hmem, hhash, hauth⟩ := h m hm hdiscloses
  exact ⟨rpId, ad, hmem, hhash, hauth.imp_right (hle rpId)⟩

theorem opens_of_closed {env : Env} {p : Option Object} {w : World} {P : List Effect → Prop}
    (hclosed : f.pending = []) (hw : Sees P f w) : Opens env p f.owner w := by
  have hpending : w.pending = f.pending := hw.2 ▸ rfl
  have howner : w.pendingOwner = f.owner := hw.2 ▸ rfl
  exact ⟨howner, fun hne => absurd (hpending.trans hclosed) hne⟩

theorem opens_of_answer {env : Env} {object : Object} {q : SignIn} {rest : List Bytes} {w : World}
    (hq : readSignIn object = .ok (.ok q))
    (hw : Sees (Ready sha Unearned q.rpId q.flags) (f.opened env q rest) w) :
    Opens env (some object) f.owner w := by
  obtain ⟨⟨-, hready⟩, hchain⟩ := hw
  have hpending : w.pending = if q.discoverable then rest else [] := congrArg Chain.pending hchain
  refine ⟨congrArg Chain.owner hchain, fun hne => ?_⟩
  have hdiscoverable : q.discoverable = true := by
    by_contra hlisted
    exact hne (by simpa [hlisted] using hpending)
  have hflags : w.pendingFlags = q.flags := congrArg Chain.flags hchain
  refine ⟨object, q, rfl, hq, hdiscoverable, congrArg Chain.rpId hchain,
    congrArg Chain.deadline hchain, ?_⟩
  rcases hready with hzero | happroved | hfalse
  · exact .inl (hflags.trans hzero)
  · exact .inr happroved
  · exact hfalse.elim

theorem SignIn.flags_eq_zero {q : SignIn} (h : ¬ (q.up || q.uv) = true) : q.flags = 0 := by
  simp only [Bool.or_eq_true, not_or, Bool.not_eq_true] at h
  simp [SignIn.flags, h.1, h.2]

/-- After a sign-in: the effects are covered, and so is the chain it leaves. -/
def SignedIn (sha : Sha256) (env : Env) (p : Option Object) (owner : Option Owner)
    (w : World) : Prop :=
  Justified sha Unearned w.effects ∧ Opens env p owner w

theorem getAssertion_spec (env : Env) (p : Option Object) (hclosed : f.pending = []) :
    Triple (Sees (Justified sha Unearned) f) (getAssertion sha env p)
      (fun r w => NamedReply sha Unearned r w.effects ∧ SignedIn sha env p f.owner w)
      (SignedIn sha env p f.owner) := by
  have hstays : ∀ w, Sees (Justified sha Unearned) f w → SignedIn sha env p f.owner w :=
    fun w hw => ⟨hw.1, opens_of_closed hclosed hw⟩
  have hrefused : ∀ status w, Sees (Justified sha Unearned) f w →
      NamedReply sha Unearned (err status) w.effects ∧ SignedIn sha env p f.owner w :=
    fun status w hw => ⟨(silent_err status).named _, hstays w hw⟩
  unfold getAssertion
  refine Triple.bind (R := fun object w => p = some object ∧ Sees (Justified sha Unearned) f w)
    (Triple.ofExcept ?_ hstays) fun object => ?_
  · intro object hobject w hw
    cases p with
    | none => cases hobject
    | some o => exact ⟨congrArg some (Except.ok.inj hobject), hw⟩
  · refine Triple.assume fun hp => ?_
    subst hp
    refine Triple.bind (R := fun parameters w => readSignIn object = .ok parameters ∧
      Sees (Justified sha Unearned) f w) (Triple.ofExcept (fun _ heq _ hw => ⟨heq, hw⟩) hstays)
      fun parameters => ?_
    refine Triple.assume fun hq => ?_
    cases parameters with
    | error status => exact Triple.pure (hrefused status)
    | ok q =>
        refine Triple.bind (R := fun _ => Sees (Justified sha Unearned) f)
          (Triple.get fun _ hw => hw) fun w => ?_
        refine Triple.bind (R := fun _ => Sees (Justified sha Unearned) f)
          (Triple.ofExcept (fun _ _ _ hw => hw) hstays) fun found => ?_
        have hanswer (first : Bytes) (rest : List Bytes) :
            Triple (Sees (Ready sha Unearned q.rpId q.flags) f) (answer sha env q first rest)
              (fun r w => NamedReply sha Unearned r w.effects ∧
                SignedIn sha env (some object) f.owner w)
              (SignedIn sha env (some object) f.owner) :=
          (answer_spec env q first rest).consequence (fun _ hw => hw)
            (fun _ _ hw => ⟨hw.1, hw.2.1.1, opens_of_answer hq hw.2⟩)
            fun _ hw => ⟨hw.1.1, opens_of_answer hq hw⟩
        cases found with
        | nil =>
            refine Triple.ite (fun _ => ?_) fun _ => Triple.pure (hrefused _)
            refine Triple.bind (confirm_spec env q.rpId _ _ fun _ h => h.confirm _ _ _ _)
              fun s => ?_
            exact Triple.pure fun w hw => hrefused _ w hw.2
        | cons first rest =>
            refine Triple.ite (fun _ => ?_) fun hneither => ?_
            · refine Triple.bind
                (confirm_spec env q.rpId _ _ fun _ h => h.asked q.rpId "Sign in" _ _) fun s => ?_
              refine Triple.assume fun hs => ?_
              refine Triple.ite (fun _ => ?_) fun hok => ?_
              · exact Triple.pure fun w hw => hrefused s w ⟨hw.1.1, hw.2⟩
              · have hdecision : env.decision = Status.ok := hs ▸ not_not.mp hok
                exact (hanswer first rest).consequence
                  (fun _ hw => ⟨⟨hw.1.1, .inr (.inl (hw.1.2 hdecision))⟩, hw.2⟩)
                  (fun _ _ hw => hw) fun _ hw => hw
            · exact (hanswer first rest).consequence
                (fun _ hw => ⟨⟨hw.1, .inl (SignIn.flags_eq_zero hneither)⟩, hw.2⟩)
                (fun _ _ hw => hw) fun _ hw => hw

/-- The chain is the one before the call, with no more pending than before. -/
def Shrunk (f : Chain) (w : World) : Prop :=
  w.toAuthenticator.chain = {f with pending := w.pending} ∧ (w.pending ≠ [] → f.pending ≠ [])

theorem shrunk_of_sees {P : List Effect → Prop} {l : List Bytes} {w : World}
    (hl : l ≠ [] → f.pending ≠ []) (hw : Sees P {f with pending := l} w) : Shrunk f w := by
  have hpending : w.pending = l := congrArg Chain.pending hw.2
  exact ⟨hpending ▸ hw.2, hpending ▸ hl⟩

theorem getNextAssertion_spec (env : Env)
    (hearned : f.pending ≠ [] → ∃ rpId, f.rpId = some rpId ∧ (f.flags = 0 ∨ earned rpId)) :
    Triple (Sees (Justified sha earned) f) (getNextAssertion sha env)
      (fun r w => NamedReply sha earned r w.effects ∧ Justified sha earned w.effects ∧ Shrunk f w)
      (fun w => Justified sha earned w.effects ∧ Shrunk f w) := by
  unfold getNextAssertion
  refine Triple.bind (R := fun before w => before.toAuthenticator.chain = f ∧
    Sees (Justified sha earned) f w) (Triple.get fun _ hw => ⟨hw.2, hw⟩) fun before => ?_
  refine Triple.assume fun hchain => ?_
  have hpending : before.pending = f.pending := congrArg Chain.pending hchain
  cases hlist : before.pending with
  | nil =>
      exact Triple.pure fun w hw => ⟨(silent_err _).named _, hw.1,
        shrunk_of_sees (l := f.pending) id hw⟩
  | cons id rest =>
      have hne : f.pending ≠ [] := by rw [← hpending, hlist]; simp
      obtain ⟨rpId, hrp, hflags⟩ := hearned hne
      have hshrunk : ∀ w, Sees (Justified sha earned) {f with pending := rest} w →
          Justified sha earned w.effects ∧ Shrunk f w :=
        fun w hw => ⟨hw.1, shrunk_of_sees (fun _ => hne) hw⟩
      refine Triple.bind (R := fun _ => Sees (Justified sha earned) {f with pending := rest})
        (Triple.update fun w hw => ⟨hw.1, ?_⟩) fun _ => ?_
      · simp only [Authenticator.chain]
        rw [← hw.2]
        rfl
      · have hrpId : before.pendingRp = some rpId := (congrArg Chain.rpId hchain).trans hrp
        have hpendingFlags : before.pendingFlags = f.flags := congrArg Chain.flags hchain
        refine Triple.bind (R := fun r w => r = rpId ∧
          Sees (Justified sha earned) {f with pending := rest} w)
          (Triple.ofExcept ?_ hshrunk) fun r => ?_
        · intro r hr w hw
          rw [hrpId] at hr
          exact ⟨(Except.ok.inj hr).symm, hw⟩
        · refine Triple.assume fun hr => ?_
          subst hr
          refine Triple.bind (R := fun _ => Sees (Justified sha earned) {f with pending := rest})
            (Triple.ofExcept (fun _ _ _ hw => hw) hshrunk) fun cdh => ?_
          have hassertion := @assertion_spec {f with pending := rest} sha earned env id r cdh
            before.pendingFlags 0 true
          refine Triple.bind (R := fun m w => Named sha earned m w.effects ∧
            Sees (Justified sha earned) {f with pending := rest} w)
            (hassertion.consequence
              (fun _ hw => ⟨⟨hw.1, hpendingFlags ▸ hflags.imp_right .inr⟩, hw.2⟩)
              (fun _ _ hw => ⟨hw.1, hw.2.1.1, hw.2.2⟩)
              fun _ hw => hshrunk _ ⟨hw.1.1, hw.2⟩) fun m => ?_
          refine Triple.ofExcept ?_ fun w hw => hshrunk w hw.2
          intro reply hreply w hw
          refine ⟨?_, hshrunk w hw.2⟩
          intro m' hm'
          rw [ok_returned hreply, Option.some.injEq] at hm'
          exact hm' ▸ hw.1

end Assertions

end Passkey.Phone

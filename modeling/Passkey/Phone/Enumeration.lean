import Passkey.Phone.Accounts

/-!
All credentials of a site, one call after the other. A sign-in without an allow
list returns the newest and leaves the rest to the getNextAssertion calls of
its owner, which return each of them once, from the newer to the older, until
there is none left, the time is over or something else was asked.
-/

namespace Passkey.Phone

open Library

/-! ### The order of the credentials -/

/-- When it was made; `optLong` reads 0 where nothing is stored. -/
def Json.time (c : Json) : Int :=
  (c.t.getD 0).toInt

/-- The credentials of a site. -/
def Store.site (store : Store) (rpId : Text) : Store :=
  store.filter fun e => e.2.rp = some rpId

/-- The first was made after the second. -/
def Newer (x y : Bytes × Json) : Prop :=
  y.2.time < x.2.time

theorem strictMonoOn_digitChar : StrictMonoOn Nat.digitChar (Set.Iio 10) := by
  have hall : ∀ n < 10, ∀ m < n, Nat.digitChar m < Nat.digitChar n := by decide
  intro m _ n hn hlt
  exact hall n hn m hlt

/-- From 1970 on, the padded texts of two times compare as the times do. -/
theorem stamp_lt_iff {t t' : Int64} (ht : 0 ≤ t.toInt) (ht' : 0 ≤ t'.toInt) :
    stamp t < stamp t' ↔ t.toInt < t'.toInt := by
  have hstamp {t : Int64} (ht : 0 ≤ t.toInt) :
      stamp t = numeral 10 Nat.digitChar 20 t.toInt.toNat := by
    have hle : 0 ≤ t := Int64.le_iff_toInt_le.mpr ht
    rw [stamp, if_pos hle]
    rfl
  have hfits (t : Int64) : t.toInt.toNat < 10 ^ 20 := by
    have hlt := t.toInt_lt
    omega
  rw [hstamp ht, hstamp ht', numeral_lt_iff (by omega) strictMonoOn_digitChar,
    Nat.mod_eq_of_lt (hfits t), Nat.mod_eq_of_lt (hfits t')]
  omega

/-- What the sort compares of a credential. -/
def stamped (e : Bytes × Json) : Text × Bytes :=
  (stamp (e.2.t.getD 0), e.1)

/-- Where every credential has a site, those of this one are listed. -/
theorem ofSite_eq {store : Store} (hsites : ∀ e ∈ store, e.2.rp ≠ none) (rpId : Text) :
    ofSite rpId store = .ok ((store.site rpId).map stamped) := by
  induction store with
  | nil => rfl
  | cons e rest ih =>
      obtain ⟨id, c⟩ := e
      have hrest := ih fun e he => hsites e (List.mem_cons_of_mem _ he)
      obtain ⟨rp, hrp⟩ := Option.ne_none_iff_exists'.mp (hsites _ List.mem_cons_self)
      have hread : getString c.rp = .ok rp := by
        rw [show c.rp = some rp from hrp]
        rfl
      have hread' : ofSite rpId ((id, c) :: rest)
          = .ok (if rpId = rp then stamped (id, c) :: (Store.site rest rpId).map stamped
            else (Store.site rest rpId).map stamped) := by
        rw [ofSite, hread, hrest]
        rfl
      have hcons : Store.site ((id, c) :: rest) rpId
          = if rpId = rp then (id, c) :: Store.site rest rpId else Store.site rest rpId := by
        rw [Store.site, List.filter_cons, hrp]
        simp only [Option.some.injEq, decide_eq_true_eq, @eq_comm _ rp rpId]
        rfl
      rw [hread', hcons]
      split <;> rfl

/-- The sort puts the first before the second. -/
def Precedes (x y : Bytes × Json) : Prop :=
  newestFirst (stamped x) (stamped y)

instance : DecidableRel Precedes := fun x y => by
  unfold Precedes
  infer_instance

instance : IsTrans (Bytes × Json) Precedes :=
  ⟨fun _ _ _ hab hbc => not_lt.mpr ((not_lt.mp hbc).trans (not_lt.mp hab))⟩

instance : Std.Total Precedes :=
  ⟨fun x y => (le_total (stamped y).1 (stamped x).1).imp not_lt.mpr not_lt.mpr⟩

/-- The credentials of a site in the order in which they are offered. -/
def offered (entries : Store) (rpId : Text) : Store :=
  (entries.site rpId).insertionSort Precedes

theorem offered_perm {entries store : Store} (h : entries.Perm store) (rpId : Text) :
    (offered entries rpId).Perm (store.site rpId) :=
  (List.perm_insertionSort _ _).trans (h.filter _)

/-- Credentials with different times from 1970 on are offered newest first. -/
theorem offered_newer {entries : Store} {rpId : Text}
    (htimes : ((entries.site rpId).map fun e => e.2.time).Nodup)
    (hepoch : ∀ e ∈ entries.site rpId, 0 ≤ e.2.time) :
    (offered entries rpId).Pairwise Newer := by
  have hperm := offered_perm (List.Perm.refl entries) rpId
  have hsorted : (offered entries rpId).Pairwise Precedes := List.pairwise_insertionSort _ _
  have hdifferent : (offered entries rpId).Pairwise fun x y => x.2.time ≠ y.2.time :=
    List.pairwise_map.mp ((hperm.map _).nodup_iff.mpr htimes)
  refine (hsorted.and hdifferent).imp_of_mem ?_
  intro x y hx hy hxy
  have hnot : ¬ x.2.time < y.2.time := by
    intro hlt
    exact hxy.1 ((stamp_lt_iff (hepoch x (hperm.mem_iff.mp hx))
      (hepoch y (hperm.mem_iff.mp hy))).mpr hlt)
  have hne := hxy.2
  unfold Newer
  omega

theorem hits_offered {env : Env} {store : Store} {q : SignIn} (hall : q.discoverable = true)
    (hentries : (env.entries store).Perm store) (hsites : ∀ e ∈ store, e.2.rp ≠ none) :
    hits env store q = .ok ((offered (env.entries store) q.rpId).map Prod.fst) := by
  have hlisted := ofSite_eq (fun e he => hsites e (hentries.mem_iff.mp he)) q.rpId
  have hsorted : (offered (env.entries store) q.rpId).map stamped
      = (((env.entries store).site q.rpId).map stamped).insertionSort newestFirst :=
    List.map_insertionSort _ _ stamped _ fun _ _ _ _ => Iff.rfl
  have hids : hits env store q
      = .ok (((offered (env.entries store) q.rpId).map stamped).map Prod.snd) := by
    rw [hits, if_pos hall, hlisted, hsorted]
    rfl
  rw [hids, List.map_map]
  rfl

/-! ### What an answer needs -/

/-- The key store signs whatever it is asked to. -/
def Env.Signs (env : Env) : Prop :=
  ∀ id data, ∃ sig, env.sign id data = some sig

/-- The credential has its key and its user. -/
structure Authenticator.Usable (a : Authenticator) (id : Bytes) : Prop where
  key : id ∈ a.keys
  user : ∃ c, a.store.find id = some c ∧ c.uid ≠ none

/-- What is found after `putString`. -/
theorem find_putString (store : Store) (id id' : Bytes) (c : Json) :
    (store.putString id c).find id' = if id' = id then some c else store.find id' := by
  unfold Store.putString Store.find
  split
  · rename_i hany
    have hkeys : (fun e : Bytes × Json => e.1 == id') ∘ (fun e => if e.1 = id then (id, c) else e)
        = fun e => e.1 == id' := by
      funext e
      by_cases he : e.1 = id <;> simp [he]
    rw [List.find?_map, hkeys, Option.map_map]
    by_cases hid : id' = id
    · subst hid
      obtain ⟨e, hfound⟩ := Option.isSome_iff_exists.mp (List.find?_isSome.mpr
        (List.any_eq_true.mp hany))
      have he : e.1 = id' := by simpa using List.find?_some hfound
      rw [hfound, if_pos rfl]
      simp [he]
    · rw [if_neg hid]
      apply Option.map_congr
      intro e hfound
      have he : e.1 = id' := by simpa using List.find?_some hfound
      have hother : e.1 ≠ id := by rwa [he]
      simp [hother]
  · rename_i hnone
    rw [List.find?_append]
    by_cases hid : id' = id
    · subst hid
      have hmissing : List.find? (fun e : Bytes × Json => e.1 == id') store = none :=
        List.find?_eq_none.mpr fun e he heq => hnone (List.any_eq_true.mpr ⟨e, he, heq⟩)
      simp [hmissing]
    · have hlast : List.find? (fun e : Bytes × Json => e.1 == id') [(id, c)] = none := by
        simpa using Ne.symm hid
      rw [hlast, Option.or_none, if_neg hid]

/-- Counting an assertion leaves every credential usable. -/
theorem usable_counted {a : Authenticator} {id id' : Bytes} {c : Json} (huid : c.uid ≠ none)
    (h : a.Usable id') : Authenticator.Usable {a with store := a.store.putString id c} id' := by
  refine ⟨h.key, ?_⟩
  rw [find_putString]
  split
  · exact ⟨c, rfl, huid⟩
  · exact h.user

/-- The chain is pending and its credentials can be used. -/
def Supplied (f : Chain) (a : Authenticator) : Prop :=
  a.chain = f ∧ ∀ id ∈ f.pending, a.Usable id

/-- The entry for the number of credentials, which only a first answer has. -/
def numberOf (count : Nat) : Object :=
  if count > 1 then [(.int 5, .int count)] else []

/-- The map is an assertion of the credential, signed over the RP, the client
data hash and the flags of the sign-in. -/
def Attests (sha : Sha256) (env : Env) (q : SignIn) (count : Nat) (id : Bytes) (m : Object)
    (effects : List Effect) : Prop :=
  ∃ n sig c uid, m = assertionMap id (authData sha q.rpId q.flags n) sig
      (userEntity c uid q.flags) ++ numberOf count ∧
    env.sign id (authData sha q.rpId q.flags n ++ q.cdh) = some sig ∧
    .signed id (authData sha q.rpId q.flags n) q.cdh ∈ effects

/-- The reply is such an assertion. -/
def Answers (sha : Sha256) (env : Env) (q : SignIn) (count : Nat) (id : Bytes) (r : Reply)
    (effects : List Effect) : Prop :=
  ∃ m b, Attests sha env q count id m effects ∧ Cbor.encode (.map m) = .ok b ∧ r.bytes = 0 :: b

theorem ok_of_entries {m : Object} {n : Nat} (h : Cbor.entriesLength m = .ok n) :
    ∃ r, ok m = .ok r := by
  have hmap : Cbor.encodedLength (.map m) = .ok (Cbor.headLength m.length + n) := by
    rw [Cbor.encodedLength, h]
    rfl
  obtain ⟨r, hr, -⟩ := ok_of_length hmap
  exact ⟨r, hr⟩

/-- An assertion can always be written. -/
theorem attests_written {sha : Sha256} {env : Env} {q : SignIn} {count : Nat} {id : Bytes}
    {m : Object} {effects : List Effect} (h : Attests sha env q count id m effects) :
    ∃ r, ok m = .ok r := by
  obtain ⟨n, sig, c, uid, rfl, -, -⟩ := h
  obtain ⟨k, hfirst⟩ : ∃ k, Cbor.entriesLength
      [(.int 1, .map [(key "type", key "public-key"), (key "id", .bytes id)]),
        (.int 2, .bytes (authData sha q.rpId q.flags n)), (.int 3, .bytes sig)] = .ok k :=
    ⟨_, rfl⟩
  exact ok_of_entries (Cbor.entriesLength_append (Cbor.entriesLength_append hfirst
    (entriesLength_user c uid q.flags)) (entriesLength_count count))

section Parts

variable {sha : Sha256} {env : Env} {f : Chain}

theorem sign_signs (hsigns : env.Signs) (id ad cdh : Bytes) (before : World) :
    Triple (· = before) (sign env id ad cdh)
      (fun sig w => env.sign id (ad ++ cdh) = some sig ∧
        w = {before with effects := before.effects ++ [.signed id ad cdh]})
      (fun _ => False) := by
  obtain ⟨sig, hsig⟩ := hsigns id (ad ++ cdh)
  unfold sign
  rw [hsig]
  refine Triple.bind (R := fun _ w =>
    w = {before with effects := before.effects ++ [.signed id ad cdh]}) ?_ fun _ => ?_
  · apply Triple.update
    intro w hw
    rw [hw]
  · exact Triple.pure fun w hw => ⟨rfl, hw⟩

theorem assertion_answers (hsigns : env.Signs) (q : SignIn) (id : Bytes) (count : Nat) :
    Triple (fun w : World => Supplied f w.toAuthenticator ∧ w.toAuthenticator.Usable id)
      (assertion sha env id q.rpId q.cdh q.flags count true)
      (fun m w => Attests sha env q count id m w.effects ∧ Supplied f w.toAuthenticator)
      (fun _ => False) := by
  apply Triple.fix
  rintro before ⟨⟨hchain, hall⟩, hkey, c, hfind, huid⟩
  obtain ⟨uid, huser⟩ := Option.ne_none_iff_exists'.mp huid
  unfold assertion
  refine Triple.bind (R := fun got w => got = before ∧ w = before)
    (Triple.get fun w hw => ⟨hw, hw⟩) fun got => Triple.assume fun hgot => ?_
  rw [hgot, hfind, Option.getD_some]
  let counted : World :=
    {before with store := before.store.putString id {c with n := some (c.n.getD 0 + 1)}}
  refine Triple.bind (R := fun _ w => w = counted) (Triple.update fun w hw => ?_) fun _ => ?_
  · rw [hw]
  · refine Triple.ite (fun hnot => absurd hkey hnot) fun _ => ?_
    refine Triple.bind (sign_signs hsigns id _ q.cdh counted) fun sig => Triple.assume fun hsig => ?_
    refine Triple.ite (fun _ => ?_) fun hnot => absurd rfl hnot
    apply Triple.ofExcept_bind
    · intro uid' _
      apply Triple.pure
      intro w hw
      rw [hw]
      refine ⟨⟨_, sig, _, uid', rfl, hsig, ?_⟩, hchain, fun id' hid' => ?_⟩
      · exact List.mem_append_right _ (List.mem_singleton_self _)
      · have hcounted : ({c with n := some (c.n.getD 0 + 1)} : Json).uid ≠ none := huid
        exact usable_counted hcounted (hall id' hid')
    · intro e he
      rw [huser] at he
      cases he

/-- The assertion as a reply. -/
theorem reply_answers (q : SignIn) (count : Nat) (id : Bytes) (m : Object) :
    Triple (fun w : World => Attests sha env q count id m w.effects ∧ Supplied f w.toAuthenticator)
      (MonadExcept.ofExcept (ok m) : Java Reply)
      (fun r w => Answers sha env q count id r w.effects ∧ Supplied f w.toAuthenticator)
      (fun _ => False) := by
  apply Triple.ofExcept_cases
  · intro r hr w hw
    obtain ⟨b, hbytes, hencode⟩ := ok_bytes hr
    exact ⟨⟨m, b, hw.1, hencode, hbytes⟩, hw.2⟩
  · intro e he w hw
    obtain ⟨r, hr⟩ := attests_written hw.1
    rw [hr] at he
    cases he

theorem getNextAssertion_answers (hsigns : env.Signs) {q : SignIn} {id : Bytes} {rest : List Bytes}
    (hpending : f.pending = id :: rest) (hrp : f.rpId = some q.rpId) (hhash : f.hash = some q.cdh)
    (hflags : f.flags = q.flags) :
    Triple (fun w : World => Supplied f w.toAuthenticator) (getNextAssertion sha env)
      (fun r w => Answers sha env q 0 id r w.effects ∧
        Supplied {f with pending := rest} w.toAuthenticator)
      (fun _ => False) := by
  apply Triple.fix
  rintro before ⟨hchain, hall⟩
  have hleft : before.pending = id :: rest := hpending ▸ congrArg Chain.pending hchain
  have hrp' : before.pendingRp = some q.rpId := hrp ▸ congrArg Chain.rpId hchain
  have hhash' : before.pendingHash = some q.cdh := hhash ▸ congrArg Chain.hash hchain
  have hflags' : before.pendingFlags = q.flags := hflags ▸ congrArg Chain.flags hchain
  unfold getNextAssertion
  refine Triple.bind (R := fun got w => got = before ∧ w = before)
    (Triple.get fun w hw => ⟨hw, hw⟩) fun got => Triple.assume fun hgot => ?_
  rw [hgot, hleft, hrp', hhash', hflags']
  refine Triple.bind (R := fun _ w => Supplied {f with pending := rest} w.toAuthenticator ∧
    w.toAuthenticator.Usable id) (Triple.update fun w hw => ?_) fun _ => ?_
  · rw [hw]
    refine ⟨⟨?_, fun id' hid' => ?_⟩, ?_⟩
    · rw [← hchain]
      rfl
    · have husable := hall id' (hpending ▸ List.mem_cons_of_mem _ hid')
      exact ⟨husable.key, husable.user⟩
    · have husable := hall id (hpending ▸ List.mem_cons_self)
      exact ⟨husable.key, husable.user⟩
  · apply Triple.ofExcept_bind
    · intro rpId hrpId
      obtain rfl := Option.some.inj (nonNull_ok hrpId)
      apply Triple.ofExcept_bind
      · intro cdh hcdh
        obtain rfl := Option.some.inj (nonNull_ok hcdh)
        exact Triple.bind (assertion_answers hsigns q id 0) fun m => reply_answers q 0 id m
      · intro e he
        cases he
    · intro e he
      cases he

theorem answer_answers (hsigns : env.Signs) {q : SignIn} (hall : q.discoverable = true)
    (first : Bytes) (rest : List Bytes) :
    Triple (fun w : World => w.toAuthenticator.chain = f ∧
        ∀ id ∈ first :: rest, w.toAuthenticator.Usable id)
      (answer sha env q first rest)
      (fun r w => Answers sha env q (rest.length + 1) first r w.effects ∧
        Supplied (f.opened env q rest) w.toAuthenticator)
      (fun _ => False) := by
  unfold answer
  refine Triple.bind (R := fun _ w => Supplied (f.opened env q rest) w.toAuthenticator ∧
    w.toAuthenticator.Usable first) (Triple.update fun w hw => ?_) fun _ => ?_
  · have howner : w.pendingOwner = f.owner := congrArg Chain.owner hw.1
    refine ⟨⟨?_, fun id hid => ?_⟩, ?_⟩
    · simp [Authenticator.chain, Chain.opened, howner]
    · rw [Chain.opened, hall, if_pos rfl] at hid
      have husable := hw.2 id (List.mem_cons_of_mem _ hid)
      exact ⟨husable.key, husable.user⟩
    · have husable := hw.2 first List.mem_cons_self
      exact ⟨husable.key, husable.user⟩
  · rw [hall, if_pos rfl]
    exact Triple.bind (assertion_answers hsigns q first _) fun m => reply_answers q _ first m

/-- A sign-in that the user approves, where these credentials are found. -/
theorem getAssertion_answers (hsigns : env.Signs) {object : Object} {q : SignIn}
    (hread : readSignIn object = .ok (.ok q)) (hall : q.discoverable = true)
    (happroved : (q.up || q.uv) = true → env.decision = Status.ok) {before : World}
    {first : Bytes} {rest : List Bytes} (hfound : hits env before.store q = .ok (first :: rest))
    (husable : ∀ id ∈ first :: rest, before.toAuthenticator.Usable id) :
    Triple (· = before) (getAssertion sha env (some object))
      (fun r w => Answers sha env q (rest.length + 1) first r w.effects ∧
        Supplied (before.toAuthenticator.chain.opened env q rest) w.toAuthenticator)
      (fun _ => False) := by
  let ready (w : World) : Prop := w.toAuthenticator.chain = before.toAuthenticator.chain ∧
    ∀ id ∈ first :: rest, w.toAuthenticator.Usable id
  have hready : ready before := ⟨rfl, husable⟩
  have hanswer : Triple ready (answer sha env q first rest)
      (fun r w => Answers sha env q (rest.length + 1) first r w.effects ∧
        Supplied (before.toAuthenticator.chain.opened env q rest) w.toAuthenticator)
      (fun _ => False) := answer_answers hsigns hall first rest
  unfold getAssertion
  apply Triple.ofExcept_bind
  · intro object' hobject
    obtain rfl := Option.some.inj (nonNull_ok hobject)
    rw [hread]
    apply Triple.ofExcept_bind
    · intro parameters hparameters
      obtain rfl := Except.ok.inj hparameters
      refine Triple.bind (R := fun got w => got = before ∧ w = before)
        (Triple.get fun w hw => ⟨hw, hw⟩) fun got => Triple.assume fun hgot => ?_
      rw [hgot, hfound]
      apply Triple.ofExcept_bind
      · intro found hids
        obtain rfl := Except.ok.inj hids
        refine Triple.ite (fun hasks => ?_) fun _ => ?_
        · refine Triple.bind (R := fun s w => s = env.decision ∧ ready w) ?_
            fun s => Triple.assume fun hs => ?_
          · unfold confirm
            refine Triple.bind (R := fun _ => ready) (Triple.update fun w hw => ?_)
              fun _ => Triple.pure fun w hw => ⟨rfl, hw⟩
            rw [hw]
            exact hready
          · refine Triple.ite (fun hdenied => ?_) fun _ => hanswer
            exact absurd (hs.trans (happroved hasks)) hdenied
        · exact hanswer.consequence (fun w hw => hw ▸ hready) (fun _ _ hw => hw) fun _ hw => hw
      · intro e he
        cases he
    · intro e he
      cases he
  · intro e he
    cases he

end Parts

/-! ### One call -/

/-- A sign-in without an allow list that the user approves, where it asks. -/
structure Call.SignsIn (c : Call) (q : SignIn) : Prop where
  cmd : c.cmd = some 0x02
  read : ∃ object, parameters c.req = .ok (some object) ∧ readSignIn object = .ok (.ok q)
  discoverable : q.discoverable = true
  approved : (q.up || q.uv) = true → c.env.decision = Status.ok

/-- A getNextAssertion, with no parameters or with any that can be read. -/
def Call.AsksNext (x : Call) : Prop :=
  x.cmd = some 0x08 ∧ ∃ p, parameters x.req = .ok p

/-- A getNextAssertion of the owner that signed in, within 30 s. -/
structure Call.Continues (x c : Call) : Prop where
  asks : x.AsksNext
  owner : x.owner = c.owner
  inTime : x.env.now.toInt ≤ c.env.later.toInt + 30000
  signs : x.env.Signs

/-- Another command, or a call of another owner, or one after 30 s. -/
def Call.Ends (x c : Call) : Prop :=
  x.req ≠ [] ∧ (x.cmd ≠ some 0x08 ∨ x.owner ≠ c.owner ∨
    c.env.later.toInt + 30000 < x.env.now.toInt)

/-- A sign-in that finds more than one credential, and so leaves some. -/
def Call.Opens (x : Call) (a : Authenticator) : Prop :=
  ∃ q first rest, Opening x a.store q first rest ∧ rest ≠ []

/-- There is nothing to return. -/
def NotAllowed (o : Outcome) : Prop :=
  o = {reply := err Status.notAllowed}

/-- The chain of a sign-in with these credentials left. -/
def Call.chain (c : Call) (q : SignIn) (left : List Bytes) : Chain where
  pending := left
  hash := some q.cdh
  rpId := some q.rpId
  flags := q.flags
  owner := some c.owner
  deadline := c.env.later + 30000

section Calls

variable {sha : Sha256} {a : Authenticator} {c x : Call} {q : SignIn}

/-- The first answer. -/
theorem signIn_answers (hin : c.SignsIn q) (hsigns : c.env.Signs) {first : Bytes}
    {rest : List Bytes} (hfound : hits c.env a.store q = .ok (first :: rest))
    (husable : ∀ id ∈ first :: rest, a.Usable id) :
    Answers sha c.env q (rest.length + 1) first (handle sha c.env c.req c.owner a).1.reply
        (handle sha c.env c.req c.owner a).1.effects ∧
      Supplied (c.chain q rest) (handle sha c.env c.req c.owner a).2 := by
  obtain ⟨object, hp, hread⟩ := hin.read
  apply Call.handled (Q := fun o b => Answers sha c.env q (rest.length + 1) first o.reply
    o.effects ∧ Supplied (c.chain q rest) b) hin.cmd
  unfold dispatch
  rw [hp]
  apply Triple.ofExcept_bind
  · intro p hparameters
    obtain rfl := Except.ok.inj hparameters
    refine Triple.ite (fun h => absurd h (by decide)) fun _ => ?_
    refine Triple.ite (fun h => absurd h (by decide)) fun _ => ?_
    refine Triple.ite (fun _ => ?_) fun h => absurd rfl h
    have hentered : ∀ id ∈ first :: rest, (a.enter c.env 0x02 c.owner).Usable id := fun id hid =>
      ⟨(husable id hid).key, (husable id hid).user⟩
    have hopened : (a.enter c.env 0x02 c.owner).chain.opened c.env q rest = c.chain q rest := by
      rw [Chain.opened, hin.discoverable, if_pos rfl]
      rfl
    refine (@getAssertion_answers sha c.env hsigns object q hread hin.discoverable hin.approved
      {a.enter c.env 0x02 c.owner with} first rest hfound hentered).consequence
      (fun _ hw => hw) (fun r w hw => ?_) fun _ hw => hw.elim
    exact hopened ▸ hw
  · intro e he
    cases he

theorem deadline_eq {later : Int64} (hclock : later.toInt + 30000 < 2 ^ 63) :
    (later + 30000).toInt = later.toInt + 30000 := by
  have hlower := Int64.le_toInt later
  have hconst : (30000 : Int64).toInt = 30000 := by decide
  have hsize : ((2 ^ 64 : Nat) : Int) = 18446744073709551616 := by rfl
  rw [Int64.toInt_add, hconst, Int.bmod_def, hsize]
  split <;> omega

/-- In time, its owner finds the chain as it was left. -/
theorem enter_continues {left : List Bytes} (hx : x.Continues c) (ha : a.chain = c.chain q left)
    (hclock : c.env.later.toInt + 30000 < 2 ^ 63) : a.enter x.env 0x08 x.owner = a := by
  have howner : a.pendingOwner = some x.owner := by
    rw [hx.owner]
    exact congrArg Chain.owner ha
  have huntil : a.pendingUntil = c.env.later + 30000 := congrArg Chain.deadline ha
  have hlate : ¬ x.env.now > a.pendingUntil := by
    intro hlt
    have hlt' := Int64.lt_iff_toInt_lt.mp hlt
    have hin := hx.inTime
    rw [huntil, deadline_eq hclock] at hlt'
    omega
  have hopen : ¬ ((0x08 : UInt8) ≠ 0x08 || a.pendingOwner ≠ some x.owner ||
      x.env.now > a.pendingUntil) = true := by
    simp [howner, hlate]
  unfold Authenticator.enter
  rw [if_neg hopen, ← howner]

/-- The next answer. -/
theorem next_answers (hx : x.Continues c) (hclock : c.env.later.toInt + 30000 < 2 ^ 63)
    {id : Bytes} {rest : List Bytes} (ha : Supplied (c.chain q (id :: rest)) a) :
    Answers sha x.env q 0 id (handle sha x.env x.req x.owner a).1.reply
        (handle sha x.env x.req x.owner a).1.effects ∧
      Supplied (c.chain q rest) (handle sha x.env x.req x.owner a).2 := by
  obtain ⟨p, hp⟩ := hx.asks.2
  apply Call.handled (Q := fun o b => Answers sha x.env q 0 id o.reply o.effects ∧
    Supplied (c.chain q rest) b) hx.asks.1
  rw [enter_continues hx ha.1 hclock]
  unfold dispatch
  rw [hp]
  apply Triple.ofExcept_bind
  · intro p' _
    refine Triple.ite (fun h => absurd h (by decide)) fun _ => ?_
    refine Triple.ite (fun h => absurd h (by decide)) fun _ => ?_
    refine Triple.ite (fun h => absurd h (by decide)) fun _ => ?_
    refine Triple.ite (fun _ => ?_) fun h => absurd rfl h
    refine (@getNextAssertion_answers sha x.env (c.chain q (id :: rest)) hx.signs q id rest rfl
      rfl rfl rfl).consequence (fun w hw => ?_) (fun _ _ hw => hw) fun _ hw => hw.elim
    rw [hw]
    exact ha
  · intro e he
    cases he

/-- With nothing pending, a getNextAssertion is refused and changes nothing. -/
theorem next_refused (hx : x.AsksNext) (hclosed : (a.enter x.env 0x08 x.owner).pending = []) :
    NotAllowed (handle sha x.env x.req x.owner a).1 ∧
      (handle sha x.env x.req x.owner a).2 = a.enter x.env 0x08 x.owner := by
  obtain ⟨p, hp⟩ := hx.2
  apply Call.handled (Q := fun o b => NotAllowed o ∧ b = a.enter x.env 0x08 x.owner) hx.1
  unfold dispatch
  rw [hp]
  apply Triple.ofExcept_bind
  · intro p' _
    refine Triple.ite (fun h => absurd h (by decide)) fun _ => ?_
    refine Triple.ite (fun h => absurd h (by decide)) fun _ => ?_
    refine Triple.ite (fun h => absurd h (by decide)) fun _ => ?_
    refine Triple.ite (fun _ => ?_) fun h => absurd rfl h
    unfold getNextAssertion
    refine Triple.bind (R := fun got w => got = {a.enter x.env 0x08 x.owner with} ∧
      w = {a.enter x.env 0x08 x.owner with}) (Triple.get fun w hw => ⟨hw, hw⟩) fun got =>
      Triple.assume fun hgot => ?_
    rw [hgot]
    dsimp only
    rw [hclosed]
    apply Triple.pure
    intro w hw
    rw [hw]
    exact ⟨rfl, rfl⟩
  · intro e he
    cases he

/-- Where the chain is not held by the call, it is closed after it, unless the
call opens one of its own. -/
theorem closed_after (hempty : x.req = [] → a.pending = []) (hheld : ¬ a.Held x)
    (hopens : ¬ x.Opens a) :
    (handle sha x.env x.req x.owner a).2.pending = [] ∧
      (x.AsksNext → NotAllowed (handle sha x.env x.req x.owner a).1) := by
  constructor
  · by_contra hne
    by_cases hreq : x.req = []
    · rw [hreq] at hne
      exact hne (hempty hreq)
    · rcases ((handle_follows hreq rfl).1 hne).2 with hkept | ⟨q, first, rest, hopening, hrest, -⟩
      · exact hheld hkept.1
      · exact hopens ⟨q, first, rest, hopening, hrest ▸ hne⟩
  · intro hasks
    have hclosed : (a.enter x.env 0x08 x.owner).pending = [] := by
      by_contra hne
      exact hheld (enter_pending hasks.1 hne)
    exact (next_refused hasks hclosed).1

theorem not_held_of_ends {left : List Bytes} (hx : x.Ends c) (ha : a.chain = c.chain q left) :
    ¬ a.Held x := by
  rintro ⟨-, hcmd, hholder, htime⟩
  have howner : a.pendingOwner = some c.owner := congrArg Chain.owner ha
  have huntil : a.pendingUntil = c.env.later + 30000 := congrArg Chain.deadline ha
  rcases hx.2 with hother | hother | hlate
  · exact hother hcmd
  · exact hother (Option.some.inj (hholder.symm.trans howner))
  · have hin := @deadline_le x.env.now c.env.later fun hlt => by
      have hlt' := Int64.lt_iff_toInt_lt.mp hlt
      rw [huntil] at htime
      omega
    omega

end Calls

/-! ### Every sequence of calls -/

/-- The calls were answered with the credentials in this order, each of them
once, and the first answer said how many they are; a call that came when none
was left was refused. -/
def Enumerated (sha : Sha256) (q : SignIn) (order : Store) (history : List (Call × Outcome)) :
    Prop :=
  ∀ i x o, history[i]? = some (x, o) →
    match order[i]? with
    | some e => Answers sha x.env q (if i = 0 then order.length else 0) e.1 o.reply o.effects
    | none => NotAllowed o

/-- After these calls, the chain holds the rest of the credentials. -/
structure Enumerating (sha : Sha256) (c : Call) (q : SignIn) (order : Store) (s : Session) :
    Prop where
  started : s.history ≠ []
  enumerated : Enumerated sha q order s.history
  supplied : Supplied (c.chain q ((order.map Prod.fst).drop s.history.length)) s.authenticator

theorem Enumerated.snoc {sha : Sha256} {q : SignIn} {order : Store}
    {history : List (Call × Outcome)} (h : Enumerated sha q order history) {x : Call} {o : Outcome}
    (hlast : match order[history.length]? with
      | some e => Answers sha x.env q (if history.length = 0 then order.length else 0) e.1 o.reply
          o.effects
      | none => NotAllowed o) : Enumerated sha q order (history ++ [(x, o)]) := by
  intro i y o' hi
  rcases Nat.lt_trichotomy i history.length with hlt | rfl | hgt
  · rw [List.getElem?_append_left hlt] at hi
    exact h i y o' hi
  · rw [List.getElem?_concat_length] at hi
    obtain ⟨rfl, rfl⟩ := Prod.mk.inj (Option.some.inj hi)
    exact hlast
  · rw [List.getElem?_eq_none (by rw [List.length_append, List.length_singleton]; omega)] at hi
    cases hi

/-- Each getNextAssertion in time takes the next credential. -/
theorem Enumerating.next {sha : Sha256} {c x : Call} {q : SignIn} {order : Store} {s t : Session}
    (hs : Enumerating sha c q order s) (hx : x.Continues c)
    (hclock : c.env.later.toInt + 30000 < 2 ^ 63) (hnext : Session.next sha s x = some t) :
    Enumerating sha c q order t := by
  rw [Session.next, Option.some.injEq] at hnext
  subst hnext
  have hcount : s.history.length ≠ 0 := mt List.length_eq_zero_iff.mp hs.started
  have hsupplied := hs.supplied
  cases hleft : order[s.history.length]? with
  | some e =>
      have hdrop : (order.map Prod.fst).drop s.history.length
          = e.1 :: (order.map Prod.fst).drop (s.history.length + 1) := by
        obtain ⟨hlt, rfl⟩ := List.getElem?_eq_some_iff.mp hleft
        rw [List.drop_eq_getElem_cons (by simpa using hlt), List.getElem_map]
      rw [hdrop] at hsupplied
      obtain ⟨hanswers, hafter⟩ := @next_answers sha s.authenticator c x q hx hclock _ _ hsupplied
      refine ⟨by simp, hs.enumerated.snoc ?_, ?_⟩
      · rw [hleft, if_neg hcount]
        exact hanswers
      · rw [List.length_append, List.length_singleton]
        exact hafter
  | none =>
      have hlength : order.length ≤ s.history.length := List.getElem?_eq_none_iff.mp hleft
      have hnone (n : Nat) (hn : order.length ≤ n) : (order.map Prod.fst).drop n = [] := by
        rw [List.drop_eq_nil_iff, List.length_map]
        exact hn
      have hkept := enter_continues hx hsupplied.1 hclock
      have hclosed : (s.authenticator.enter x.env 0x08 x.owner).pending = [] := by
        rw [hkept, ← hnone _ hlength]
        exact congrArg Chain.pending hsupplied.1
      obtain ⟨hrefused, hsame⟩ := @next_refused sha s.authenticator x hx.asks hclosed
      refine ⟨by simp, hs.enumerated.snoc ?_, ?_⟩
      · rw [hleft]
        exact hrefused
      · rw [List.length_append, List.length_singleton, hnone _ (by omega)]
        rw [hnone _ hlength] at hsupplied
        rw [hsame, hkept]
        exact hsupplied

/-- The chain is closed, and it was since the `n`-th call. -/
structure Closed (n : Nat) (s : Session) : Prop where
  pending : s.authenticator.pending = []
  after : n ≤ s.history.length
  refused : ∀ p ∈ s.history.drop n, p.1.AsksNext → NotAllowed p.2

/-- No call opens a chain of its own. -/
def Unopened (s : Session) (x : Call) : Prop :=
  ¬ x.Opens s.authenticator

theorem Closed.snoc {n : Nat} {history : List (Call × Outcome)} {x : Call} {o : Outcome}
    {b : Authenticator} (hafter : n ≤ history.length)
    (hrefused : ∀ p ∈ history.drop n, p.1.AsksNext → NotAllowed p.2) (hpending : b.pending = [])
    (hlast : x.AsksNext → NotAllowed o) : Closed n ⟨b, history ++ [(x, o)]⟩ := by
  refine ⟨hpending, ?_, ?_⟩
  · rw [List.length_append]
    omega
  · intro p hp
    rw [List.drop_append_of_le_length hafter] at hp
    rcases List.mem_append.mp hp with hold | hnew
    · exact hrefused p hold
    · obtain rfl := List.mem_singleton.mp hnew
      exact hlast

theorem closed_next {sha : Sha256} {n : Nat} {s t : Session} {x : Call} (hs : Closed n s)
    (hx : Unopened s x) (hnext : Session.next sha s x = some t) : Closed n t := by
  rw [Session.next, Option.some.injEq] at hnext
  subst hnext
  obtain ⟨hpending, hlast⟩ := @closed_after sha s.authenticator x (fun _ => hs.pending)
    (fun hheld => hheld.1 hs.pending) hx
  exact Closed.snoc hs.after hs.refused hpending hlast

/-- The store of a phone: whole credentials, each with an id of its own, and
those of the site with their keys and made at different times from 1970 on. -/
structure Authenticator.Stocked (a : Authenticator) (rpId : Text) : Prop where
  ids : (a.store.map Prod.fst).Nodup
  sites : ∀ e ∈ a.store, e.2.rp ≠ none
  users : ∀ e ∈ a.store, e.2.uid ≠ none
  keys : ∀ e ∈ a.store.site rpId, e.1 ∈ a.keys
  times : ((a.store.site rpId).map fun e => e.2.time).Nodup
  epoch : ∀ e ∈ a.store.site rpId, 0 ≤ e.2.time

theorem find_of_mem {store : Store} (hids : (store.map Prod.fst).Nodup) {e : Bytes × Json}
    (he : e ∈ store) : store.find e.1 = some e.2 := by
  unfold Store.find
  obtain ⟨e', hfound⟩ := Option.isSome_iff_exists.mp
    (List.find?_isSome (p := fun x : Bytes × Json => x.1 == e.1).mpr ⟨e, he, beq_self_eq_true _⟩)
  have hid : e'.1 = e.1 := by simpa using List.find?_some hfound
  rw [hfound, List.inj_on_of_nodup_map hids (List.mem_of_find?_eq_some hfound) he hid]
  rfl

/-- Every credential of the site can be used. -/
theorem Authenticator.Stocked.usable {a : Authenticator} {rpId : Text} (h : a.Stocked rpId)
    {e : Bytes × Json} (he : e ∈ a.store.site rpId) : a.Usable e.1 := by
  have hstored := List.mem_of_mem_filter he
  exact ⟨h.keys e he, e.2, find_of_mem h.ids hstored, h.users e hstored⟩

/-- After an approved sign-in without an allow list, getNextAssertion calls of
its owner within 30 s return the other credentials of the site, so that each is
returned once and the newer before the older, all for the same RP, client data
hash and flags; then they are refused. After any other command, a call of
another owner or one after 30 s, every getNextAssertion is refused until a
sign-in opens a chain of its own. -/
theorem returns_each_once {sha : Sha256} {a : Authenticator} {c : Call} {q : SignIn}
    (hin : c.SignsIn q) (hsigns : c.env.Signs) (hentries : (c.env.entries a.store).Perm a.store)
    (hstock : a.Stocked q.rpId) (hsome : a.store.site q.rpId ≠ [])
    (hclock : c.env.later.toInt + 30000 < 2 ^ 63) :
    ∃ order : Store, order.Perm (a.store.site q.rpId) ∧ order.Pairwise Newer ∧
      ∀ first, Session.next sha ⟨a, []⟩ c = some first →
      ∀ s, Reach (Session.next sha) (fun _ x => x.Continues c) first s →
        Enumerated sha q order s.history ∧
        ∀ x t u, x.Ends c → Unopened s x → Session.next sha s x = some t →
          Reach (Session.next sha) Unopened t u →
          ∀ p ∈ u.history.drop s.history.length, p.1.AsksNext → NotAllowed p.2 := by
  have hperm := offered_perm hentries q.rpId
  have hsite : ((c.env.entries a.store).site q.rpId).Perm (a.store.site q.rpId) :=
    hentries.filter _
  have hnewer := @offered_newer (c.env.entries a.store) q.rpId
    ((hsite.map _).nodup_iff.mpr hstock.times) fun e he => hstock.epoch e (hsite.mem_iff.mp he)
  have hfound := hits_offered hin.discoverable hentries hstock.sites
  generalize offered (c.env.entries a.store) q.rpId = order at hperm hnewer hfound
  refine ⟨order, hperm, hnewer, fun first hfirst s hrun => ?_⟩
  cases order with
  | nil => exact absurd hperm.symm.eq_nil hsome
  | cons e rest =>
      have husable : ∀ id ∈ e.1 :: rest.map Prod.fst, a.Usable id := by
        intro id hid
        obtain ⟨e', he', rfl⟩ := List.mem_map.mp (List.map_cons ▸ hid : id ∈ (e :: rest).map Prod.fst)
        exact hstock.usable (hperm.mem_iff.mp he')
      obtain ⟨hanswers, hsupplied⟩ := @signIn_answers sha a c q hin hsigns _ _ hfound husable
      have hstart : Enumerating sha c q (e :: rest) first := by
        rw [Session.next, Option.some.injEq] at hfirst
        subst hfirst
        refine ⟨by simp, ?_, hsupplied⟩
        intro i x o hi
        cases i with
        | zero =>
            obtain ⟨rfl, rfl⟩ := Prod.mk.inj (Option.some.inj hi)
            simpa using hanswers
        | succ i => cases hi
      have hall := hrun.invariant hstart fun t x u ht hx hnext => ht.next hx hclock hnext
      refine ⟨hall.enumerated, fun x t u hends hunopened hnext hmore => ?_⟩
      have hclosed : Closed s.history.length t := by
        rw [Session.next, Option.some.injEq] at hnext
        subst hnext
        obtain ⟨hpending, hlast⟩ := @closed_after sha s.authenticator x
          (fun hreq => absurd hreq hends.1) (not_held_of_ends hends hall.supplied.1) hunopened
        exact Closed.snoc (Nat.le_refl _) (by simp) hpending hlast
      exact (hmore.invariant hclosed fun _ _ _ ht hx hnext => closed_next ht hx hnext).refused

/-- What `signInCall` asks. -/
def twoSignIn : SignIn where
  rpId := "a".toList
  cdh := [0]
  up := true
  uv := false
  allow := []

/-- Both accounts are returned, each once. -/
theorem both_returned : ∃ order : Store, order.Perm (twoAccounts.site "a".toList) ∧
    order.Pairwise Newer ∧ ∀ first,
      Session.next zeroDigest ⟨.fresh twoAccounts [[1], [2]], []⟩ signInCall = some first →
      ∀ s, Reach (Session.next zeroDigest) (fun _ x => x.Continues signInCall) first s →
        Enumerated zeroDigest twoSignIn order s.history := by
  have hin : signInCall.SignsIn twoSignIn := ⟨rfl, ⟨_, rfl, rfl⟩, rfl, fun _ => rfl⟩
  have hstock : (Authenticator.fresh twoAccounts [[1], [2]]).Stocked "a".toList :=
    ⟨by decide, by decide, by decide, by decide, by decide, by decide⟩
  obtain ⟨order, hperm, hnewer, hruns⟩ := @returns_each_once zeroDigest
    (.fresh twoAccounts [[1], [2]]) signInCall twoSignIn hin (fun _ _ => ⟨[3], rfl⟩) (.refl _)
    hstock (by decide) (by decide)
  exact ⟨order, hperm, hnewer, fun first hfirst s hrun => (hruns first hfirst s hrun).1⟩

/-- Not so where the other command is a sign-in itself: after it, a
getNextAssertion returns what that one left. -/
theorem not_each_once : ∃ s, replay (Session.next zeroDigest) always
      ⟨.fresh twoAccounts [[1], [2]], []⟩ [signInCall, signInCall, nextCall] = some s ∧
    (s.history.map fun x => x.2.reply.bytes.head?) = [some 0, some 0, some 0] :=
  ⟨_, rfl, rfl⟩

end Passkey.Phone

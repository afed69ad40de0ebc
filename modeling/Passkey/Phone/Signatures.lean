import Passkey.Library.Refinements
import Passkey.Phone.Deeds

/-!
The signatures of a key over all its time, with restarts of the app. A key is
made once and for one site, it signs for that site only, and its counter rises
with every signature, so a site can tell a copy of the key from the key.
-/

namespace Passkey.Phone

open Library

abbrev History := List (Call × Outcome)

def observeCall (sha : Sha256) (a : Authenticator) (e : Happening) (_ : Authenticator)
    (history : History) : History :=
  match e with
  | .call c => history ++ [(c, (handle sha c.env c.req c.owner a).1)]
  | .restart => history

/-- What was done by keys, in order. -/
def done (history : History) : List Effect :=
  history.flatMap fun x => acts x.2.effects

/-- A new credential gets an id that none had before: it is random. -/
def Draws (x : Authenticator × History) (e : Happening) : Prop :=
  e.Listed x.1 ∧ ∀ c, e = .call c → c.cmd = some 0x01 →
    ∀ credential, .created c.env.id.toList credential ∉ done x.2

/-- The counter in authenticator data. -/
def counter (ad : Bytes) : Nat :=
  ofBigEndian ((ad.drop 33).take 4)

def Effect.counter (id : Bytes) : Effect → Option Nat
  | .signed id' ad _ => if id' = id then some (Phone.counter ad) else none
  | _ => none

/-- The counters that a key signed, in order. -/
def counters (id : Bytes) (effects : List Effect) : List Nat :=
  effects.filterMap (Effect.counter id)

/-- The call signed what it was asked to sign, by a credential on its list. -/
def Call.Signs (sha : Sha256) (c : Call) (o : Outcome) : Prop :=
  ∀ object q, c.cmd = some 0x02 → parameters c.req = .ok (some object) →
    readSignIn object = .ok (.ok q) → ∀ id ad cdh, .signed id ad cdh ∈ o.effects →
      cdh = q.cdh ∧ (∃ n, ad = authData sha q.rpId q.flags n) ∧
        (q.discoverable = false → q.Lists id)

structure KeyLaw (sha : Sha256) (history : History) : Prop where
  /-- No key is made twice. -/
  single : ∀ id c c', .created id c ∈ done history → .created id c' ∈ done history → c = c'
  site : ∀ id ad cdh, .signed id ad cdh ∈ done history →
    ∃ c rpId, .created id c ∈ done history ∧ c.rp = some rpId ∧ ad.take 32 = sha.digest rpId
  /-- The counter has four bytes. -/
  rising : history.length < 2 ^ 32 → ∀ id, (counters id (done history)).Pairwise (· < ·)
  asked : ∀ x ∈ history, x.1.Signs sha x.2

/-! ### The counter -/

theorem counter_authData (sha : Sha256) (rpId : Text) (flags : UInt8) (n : Nat) :
    counter (authData sha rpId flags n) = n % 2 ^ 32 := by
  have hdrop : (authData sha rpId flags n).drop 33 = bigEndian 4 n := by
    have hlength : (sha.digest rpId ++ [flags]).length = 33 := by simp [sha.length_digest]
    rw [authData, ← hlength, List.drop_left]
  have htake : (bigEndian 4 n).take 4 = bigEndian 4 n :=
    List.take_of_length_le (length_bigEndian 4 n).le
  rw [counter, hdrop, htake, ofBigEndian, foldl_bigEndian, Nat.zero_mul, Nat.zero_add]
  rfl

theorem counter_attestedData (sha : Sha256) (rpId : Text) (id cose : Bytes) :
    counter (attestedData sha rpId id cose) = 0 := by
  have hdrop : (attestedData sha rpId id cose).drop 33 =
      [0, 0, 0, 0] ++ (aaguid ++ [0, UInt8.ofNat id.length] ++ id ++ cose) := by
    have hlength : (sha.digest rpId ++ [0x45]).length = 33 := by simp [sha.length_digest]
    rw [attestedData, ← hlength]
    simp only [List.append_assoc]
    rw [← List.append_assoc, List.drop_left]
  rw [counter, hdrop]
  rfl

theorem counters_append (id : Bytes) (effects more : List Effect) :
    counters id (effects ++ more) = counters id effects ++ counters id more :=
  List.filterMap_append ..

theorem mem_counters {id : Bytes} {effects : List Effect} {k : Nat} (h : k ∈ counters id effects) :
    ∃ ad cdh, .signed id ad cdh ∈ effects ∧ counter ad = k := by
  obtain ⟨e, he, hk⟩ := List.mem_filterMap.mp h
  cases e with
  | confirm => cases hk
  | created => cases hk
  | signed id' ad cdh =>
      obtain ⟨rfl, hcounter⟩ := Option.ite_none_right_eq_some.mp hk
      exact ⟨ad, cdh, he, Option.some.inj hcounter⟩

theorem counters_created (id id' : Bytes) (c : Json) : counters id [.created id' c] = [] := by
  rfl

theorem counters_signed (id id' ad cdh : Bytes) :
    counters id [.signed id' ad cdh] = if id' = id then [counter ad] else [] := by
  by_cases hid : id' = id <;> simp [counters, Effect.counter, hid]

/-! ### The ledger -/

/-- What the store says about the keys, beside what was done by them. -/
structure Ledger (sha : Sha256) (calls : Nat) (effects : List Effect) (store : Store) :
    Prop where
  known : ∀ id c, store.find id = some c → ∃ c', .created id c' ∈ effects ∧ c.rp = c'.rp
  bounded : ∀ id, store.number id ≤ calls
  below : ∀ id c, store.find id = some c → ∀ k ∈ counters id effects, k ≤ store.number id
  single : ∀ id c c', .created id c ∈ effects → .created id c' ∈ effects → c = c'
  site : ∀ id ad cdh, .signed id ad cdh ∈ effects →
    ∃ c rpId, .created id c ∈ effects ∧ c.rp = some rpId ∧ ad.take 32 = sha.digest rpId
  rising : calls < 2 ^ 32 → ∀ id, (counters id effects).Pairwise (· < ·)

/-- The credentials of the chain are there, and of its site. -/
def Waits (store : Store) (a : Authenticator) : Prop :=
  ∀ id ∈ a.pending, ∃ rpId, a.pendingRp = some rpId ∧ store.HasFor id rpId

section Ledger

variable {sha : Sha256} {calls : Nat} {effects : List Effect} {store : Store}

theorem ledger_empty (sha : Sha256) : Ledger sha 0 [] [] where
  known _ _ h := by cases h
  bounded _ := le_rfl
  below _ _ h := by cases h
  single _ _ _ h := absurd h List.not_mem_nil
  site _ _ _ h := absurd h List.not_mem_nil
  rising _ _ := List.Pairwise.nil

theorem Ledger.mono (h : Ledger sha calls effects store) {more : Nat} (hle : calls ≤ more) :
    Ledger sha more effects store :=
  {h with
    bounded := fun id => (h.bounded id).trans hle
    rising := fun hlt => h.rising (hle.trans_lt hlt)}

theorem Ledger.unmade (h : Ledger sha calls effects store) {id : Bytes}
    (hnew : ∀ c, .created id c ∉ effects) : counters id effects = [] := by
  apply List.eq_nil_iff_forall_not_mem.mpr
  intro k hk
  obtain ⟨ad, cdh, hsigned, -⟩ := mem_counters hk
  obtain ⟨c, -, hcreated, -⟩ := h.site id ad cdh hsigned
  exact hnew c hcreated

theorem find_filter (store : Store) (ids : List Bytes) (id : Bytes) :
    Store.find (store.filter fun e => e.1 ∉ ids) id = if id ∈ ids then none else store.find id := by
  unfold Store.find
  rw [List.find?_filter]
  split
  · rename_i hgone
    rw [Option.map_eq_none_iff, List.find?_eq_none]
    intro e _ hkept
    obtain ⟨hnot, hid⟩ : e.1 ∉ ids ∧ e.1 = id := by simpa using hkept
    exact hnot (hid ▸ hgone)
  · rename_i hkept
    congr 2
    funext e
    by_cases hid : e.1 = id
    · simp [hid, hkept]
    · simp [hid]

/-- Credentials are deleted. -/
theorem Ledger.filter (h : Ledger sha calls effects store) (ids : List Bytes) :
    Ledger sha calls effects (store.filter fun e => e.1 ∉ ids) := by
  have hfind (id : Bytes) (c : Json)
      (hc : Store.find (store.filter fun e => e.1 ∉ ids) id = some c) : store.find id = some c := by
    rw [find_filter] at hc
    exact (Option.ite_none_left_eq_some.mp hc).2
  have hnumber (id : Bytes) (c : Json)
      (hc : Store.find (store.filter fun e => e.1 ∉ ids) id = some c) :
      Store.number (store.filter fun e => e.1 ∉ ids) id = store.number id := by
    rw [Store.number, Store.number, hc, hfind id c hc]
  refine {h with known := ?_, bounded := ?_, below := ?_}
  · exact fun id c hc => h.known id c (hfind id c hc)
  · intro id
    cases hc : Store.find (store.filter fun e => e.1 ∉ ids) id with
    | none =>
        rw [Store.number, hc]
        exact Nat.zero_le calls
    | some c => exact hnumber id c hc ▸ h.bounded id
  · intro id c hc k hk
    rw [hnumber id c hc]
    exact h.below id c (hfind id c hc) k hk

/-- A credential is made, with an id that is new. -/
theorem Ledger.create (h : Ledger sha calls effects store) {id : Bytes}
    (hnew : ∀ c, .created id c ∉ effects) {c : Json} (hn : c.n = some 0) :
    Ledger sha calls (effects ++ [.created id c]) (store.putString id c) := by
  have hcounters (id' : Bytes) :
      counters id' (effects ++ [.created id c]) = counters id' effects := by
    rw [counters_append, counters_created, List.append_nil]
  have hcreated {id' : Bytes} {c' : Json} (hmem : .created id' c' ∈ effects) :
      .created id' c' ∈ effects ++ [.created id c] := List.mem_append_left _ hmem
  have hself : .created id c ∈ effects ++ [.created id c] := by simp
  have hcases {id' : Bytes} {c' : Json} (hmem : .created id' c' ∈ effects ++ [.created id c]) :
      .created id' c' ∈ effects ∨ id' = id ∧ c' = c := by
    rcases List.mem_append.mp hmem with hold | hlast
    · exact .inl hold
    · have heq := List.mem_singleton.mp hlast
      simp only [Effect.created.injEq] at heq
      exact .inr heq
  have hnumber (id' : Bytes) :
      (store.putString id c).number id' = if id' = id then 0 else store.number id' := by
    rw [Store.number, find_putString]
    split
    · simp [hn]
    · rfl
  constructor
  · intro id' c' hc'
    rw [find_putString] at hc'
    split at hc'
    · rename_i hid
      subst hid
      obtain rfl := Option.some.inj hc'
      exact ⟨c, hself, rfl⟩
    · obtain ⟨c₀, hmem, hrp⟩ := h.known id' c' hc'
      exact ⟨c₀, hcreated hmem, hrp⟩
  · intro id'
    rw [hnumber]
    split
    · exact Nat.zero_le _
    · exact h.bounded id'
  · intro id' c' hc' k hk
    rw [hcounters] at hk
    rw [find_putString] at hc'
    rw [hnumber]
    split at hc'
    · rename_i hid
      rw [hid, h.unmade hnew] at hk
      cases hk
    · rename_i hid
      rw [if_neg hid]
      exact h.below id' c' hc' k hk
  · intro id' c₁ c₂ h₁ h₂
    rcases hcases h₁ with hold₁ | ⟨rfl, rfl⟩
    · rcases hcases h₂ with hold₂ | ⟨rfl, -⟩
      · exact h.single id' c₁ c₂ hold₁ hold₂
      · exact absurd hold₁ (hnew c₁)
    · rcases hcases h₂ with hold₂ | ⟨-, rfl⟩
      · exact absurd hold₂ (hnew c₂)
      · rfl
  · intro id' ad cdh hsigned
    rcases List.mem_append.mp hsigned with hold | hlast
    · obtain ⟨c', rpId, hmem, hsite⟩ := h.site id' ad cdh hold
      exact ⟨c', rpId, hcreated hmem, hsite⟩
    · cases List.mem_singleton.mp hlast
  · intro hlt id'
    rw [hcounters]
    exact h.rising hlt id'

/-- A key signs, for its site and with a counter it did not sign before. -/
theorem Ledger.sign (h : Ledger sha calls effects store) {id ad cdh : Bytes} {c : Json}
    {rpId : Text} (hcreated : .created id c ∈ effects) (hrp : c.rp = some rpId)
    (hsite : ad.take 32 = sha.digest rpId) (hle : counter ad ≤ store.number id)
    (hlt : calls < 2 ^ 32 → ∀ k ∈ counters id effects, k < counter ad) :
    Ledger sha calls (effects ++ [.signed id ad cdh]) store := by
  have hcounters (id' : Bytes) : counters id' (effects ++ [.signed id ad cdh]) =
      counters id' effects ++ if id = id' then [counter ad] else [] := by
    rw [counters_append, counters_signed]
  have hmade {id' : Bytes} {c' : Json} : .created id' c' ∈ effects ++ [.signed id ad cdh] ↔
      .created id' c' ∈ effects := by
    simp
  constructor
  · intro id' c' hc'
    obtain ⟨c₀, hmem, hsame⟩ := h.known id' c' hc'
    exact ⟨c₀, hmade.mpr hmem, hsame⟩
  · exact h.bounded
  · intro id' c' hc' k hk
    rw [hcounters] at hk
    rcases List.mem_append.mp hk with hold | hlast
    · exact h.below id' c' hc' k hold
    · split at hlast
      · rename_i hid
        obtain rfl := List.mem_singleton.mp hlast
        exact hid ▸ hle
      · cases hlast
  · intro id' c₁ c₂ h₁ h₂
    exact h.single id' c₁ c₂ (hmade.mp h₁) (hmade.mp h₂)
  · intro id' ad' cdh' hsigned
    rcases List.mem_append.mp hsigned with hold | hlast
    · obtain ⟨c', rpId', hmem, hfor⟩ := h.site id' ad' cdh' hold
      exact ⟨c', rpId', hmade.mpr hmem, hfor⟩
    · have heq := List.mem_singleton.mp hlast
      simp only [Effect.signed.injEq] at heq
      obtain ⟨rfl, rfl, rfl⟩ := heq
      exact ⟨c, rpId, hmade.mpr hcreated, hrp, hsite⟩
  · intro hsmall id'
    rw [hcounters]
    split
    · rename_i hid
      subst hid
      refine List.pairwise_append.mpr ⟨h.rising hsmall id, List.pairwise_singleton _ _, ?_⟩
      intro k hk k' hk'
      obtain rfl := List.mem_singleton.mp hk'
      exact hlt hsmall k hk
    · rw [List.append_nil]
      exact h.rising hsmall id'

theorem number_counted (store : Store) (id id' : Bytes) : (store.counted id).number id' =
    if id' = id then store.number id + 1 else store.number id' := by
  rw [Store.number, Store.counted, find_putString]
  split <;> rfl

/-- A credential is counted. -/
theorem Ledger.count (h : Ledger sha calls effects store) {id : Bytes} {rpId : Text}
    (hhas : store.HasFor id rpId) : Ledger sha (calls + 1) effects (store.counted id) := by
  obtain ⟨c, hfind, hrp⟩ := hhas
  refine {h.mono (Nat.le_succ calls) with known := ?_, bounded := ?_, below := ?_}
  · intro id' c' hc'
    rw [Store.counted, find_putString, hfind] at hc'
    split at hc'
    · rename_i hid
      subst hid
      obtain ⟨c₀, hmem, hsame⟩ := h.known id' c hfind
      exact ⟨c₀, hmem, (congrArg Json.rp (Option.some.inj hc')).symm.trans hsame⟩
    · exact h.known id' c' hc'
  · intro id'
    rw [number_counted]
    split
    · exact Nat.succ_le_succ (h.bounded id)
    · exact (h.bounded id').trans (Nat.le_succ calls)
  · intro id' c' hc' k hk
    rw [number_counted]
    rw [Store.counted, find_putString] at hc'
    split at hc'
    · rename_i hid
      rw [if_pos hid]
      exact (h.below id c hfind k (hid ▸ hk)).trans (Nat.le_succ _)
    · rename_i hid
      rw [if_neg hid]
      exact h.below id' c' hc' k hk

/-- A claim is counted, and then signed. -/
theorem Ledger.claim (h : Ledger sha calls effects store) {x : Claim}
    (hhas : store.HasFor x.id x.rpId) :
    Ledger sha (calls + 1) (effects ++ [.signed x.id
      (authData sha x.rpId x.flags (store.number x.id + 1)) x.cdh]) (store.counted x.id) := by
  obtain ⟨c, hfind, hrp⟩ := hhas
  obtain ⟨c', hcreated, hsame⟩ := h.known x.id c hfind
  apply (h.count ⟨c, hfind, hrp⟩).sign hcreated (hsame ▸ hrp) (authData_hash ..)
  · rw [counter_authData, number_counted, if_pos rfl]
    exact Nat.mod_le _ _
  · intro hsmall k hk
    have hbound := h.bounded x.id
    rw [counter_authData, Nat.mod_eq_of_lt (by omega)]
    exact Nat.lt_succ_of_le (h.below x.id c hfind k hk)

/-- A credential is made and attested. -/
theorem Ledger.attest (h : Ledger sha calls effects store) {id : Bytes}
    (hnew : ∀ c, .created id c ∉ effects) {c : Json} (hn : c.n = some 0) {rpId : Text}
    (hrp : c.rp = some rpId) (cose cdh : Bytes) :
    Ledger sha calls (effects ++ [.created id c, .signed id (attestedData sha rpId id cose) cdh])
      (store.putString id c) := by
  have hnone : counters id (effects ++ [.created id c]) = [] := by
    rw [counters_append, counters_created, List.append_nil]
    exact h.unmade hnew
  have hattested : Ledger sha calls (effects ++ [.created id c] ++
      [.signed id (attestedData sha rpId id cose) cdh]) (store.putString id c) := by
    apply (h.create hnew hn).sign (by simp) hrp (attestedData_hash ..)
    · exact (counter_attestedData ..).le.trans (Nat.zero_le _)
    · simp [hnone]
  rwa [List.append_assoc] at hattested

end Ledger

/-! ### One call -/

section Handle

variable {sha : Sha256} {calls : Nat} {effects : List Effect}

theorem hasFor_counted {store : Store} {id id' : Bytes} {rpId rpId' : Text}
    (hhas : store.HasFor id rpId) (h : store.HasFor id' rpId') :
    (store.counted id).HasFor id' rpId' := by
  obtain ⟨c, hfind, -⟩ := hhas
  obtain ⟨c', hfind', hrp⟩ := h
  unfold Store.HasFor
  rw [Store.counted, find_putString]
  split
  · rename_i hid
    subst hid
    obtain rfl := Option.some.inj (hfind.symm.trans hfind')
    exact ⟨_, rfl, by rw [hfind]; exact hrp⟩
  · exact ⟨c', hfind', hrp⟩

theorem ledger_claimed {x : Claim} {s w : World} (h : Claimed sha x s w)
    (hledger : Ledger sha calls effects s.store) (hnone : acts s.effects = [])
    (hhas : s.store.HasFor x.id x.rpId) :
    Ledger sha (calls + 1) (effects ++ acts w.effects) w.store := by
  rw [h.store]
  rcases h.acts with hsame | hsigned
  · rw [hsame, hnone, List.append_nil]
    exact hledger.count hhas
  · rw [hsigned, hnone, List.nil_append]
    exact hledger.claim hhas

theorem Deed.ledger {env : Env} {cmd : UInt8} {p : Option Object} {s w : World}
    (h : Deed sha env cmd p s w) (hledger : Ledger sha calls effects s.store)
    (hwaits : Waits s.store s.toAuthenticator) (hclosed : cmd ≠ 0x08 → s.pending = [])
    (hnone : acts s.effects = [])
    (hdrawn : cmd = 0x01 → ∀ c, .created env.id.toList c ∉ effects) :
    Ledger sha (calls + 1) (effects ++ acts w.effects) w.store ∧
      Waits w.store w.toAuthenticator := by
  cases h with
  | idles hstore hacts hpending hrp =>
      rw [hacts, hnone, List.append_nil, hstore]
      refine ⟨hledger.mono (Nat.le_succ calls), fun id hid => ?_⟩
      rw [hrp]
      exact hwaits id (hpending id hid)
  | sweeps ids hcmd hstore hacts hpending =>
      rw [hacts, hnone, List.append_nil, hstore]
      refine ⟨(hledger.filter ids).mono (Nat.le_succ calls), fun id hid => ?_⟩
      rw [hpending, hclosed (by rw [hcmd]; decide)] at hid
      cases hid
  | makes ids rpId c hcmd hrp hn hstore hacts hpending =>
      have hnew := hdrawn hcmd
      rw [hstore]
      refine ⟨?_, fun id hid => ?_⟩
      · rcases hacts with hmade | ⟨cose, cdh, hattested⟩
        · rw [hmade, hnone, List.nil_append]
          exact ((hledger.filter ids).create hnew hn).mono (Nat.le_succ calls)
        · rw [hattested, hnone, List.nil_append]
          exact ((hledger.filter ids).attest hnew hn hrp cose cdh).mono (Nat.le_succ calls)
      · rw [hpending, hclosed (by rw [hcmd]; decide)] at hid
        cases hid
  | answers object q x hcmd hp hread hasks hclaimed hrp hpending =>
      have hhas : s.store.HasFor x.id x.rpId := hasks.rpId ▸ hasks.stored
      refine ⟨ledger_claimed hclaimed hledger hnone hhas, fun id hid => ⟨q.rpId, hrp, ?_⟩⟩
      rw [hclaimed.store]
      exact hasFor_counted hhas (hpending id hid)
  | continues x hcmd hfirst hsite hclaimed hpending hrp =>
      have hstored {id : Bytes} (hid : id ∈ s.pending) : s.store.HasFor id x.rpId := by
        obtain ⟨rpId, hrpId, hhas⟩ := hwaits id hid
        obtain rfl := Option.some.inj (hrpId.symm.trans hsite)
        exact hhas
      have hhas := hstored hfirst
      refine ⟨ledger_claimed hclaimed hledger hnone hhas, fun id hid => ?_⟩
      refine ⟨x.rpId, hrp.trans hsite, ?_⟩
      rw [hclaimed.store]
      exact hasFor_counted hhas (hstored (hpending id hid))

theorem handle_ledger {c : Call} {a : Authenticator} (hids : (a.store.map Prod.fst).Nodup)
    (hentries : (c.env.entries a.store).Perm a.store) (hledger : Ledger sha calls effects a.store)
    (hwaits : Waits a.store a) (hdrawn : c.cmd = some 0x01 →
      ∀ credential, .created c.env.id.toList credential ∉ effects) :
    Ledger sha (calls + 1) (effects ++ acts (handle sha c.env c.req c.owner a).1.effects)
        (handle sha c.env c.req c.owner a).2.store ∧
      Waits (handle sha c.env c.req c.owner a).2.store (handle sha c.env c.req c.owner a).2 := by
  by_cases hreq : c.req = []
  · rw [hreq]
    exact ⟨(List.append_nil effects).symm ▸ hledger.mono (Nat.le_succ calls), hwaits⟩
  · obtain ⟨cmd, hcmd, w, hafter, heffects, hdid⟩ := @handle_does sha c a hreq hids hentries
    have hbegin : Waits (c.begins cmd a).store (c.begins cmd a).toAuthenticator := by
      intro id hid
      change id ∈ (a.enter c.env cmd c.owner).pending at hid
      simp only [Authenticator.enter] at hid
      split at hid
      · cases hid
      · exact hwaits id hid
    have hclosed (hne : cmd ≠ 0x08) : (c.begins cmd a).pending = [] := by
      change (a.enter c.env cmd c.owner).pending = []
      simp [Authenticator.enter, hne]
    have hdeed : ∃ p, Deed sha c.env cmd p (c.begins cmd a) w := by
      rcases hdid with hstill | ⟨p, -, hdeed⟩
      · exact ⟨none, hstill.idles⟩
      · exact ⟨p, hdeed⟩
    obtain ⟨p, hdeed⟩ := hdeed
    rw [← heffects, ← hafter]
    exact hdeed.ledger hledger hbegin hclosed rfl fun hmake => hdrawn (hcmd.trans (by rw [hmake]))

/-- A sign-in signs what its parameters say. -/
theorem handle_signs {c : Call} {a : Authenticator} (hids : (a.store.map Prod.fst).Nodup)
    (hentries : (c.env.entries a.store).Perm a.store) :
    c.Signs sha (handle sha c.env c.req c.owner a).1 := by
  intro object q hcmd hparameters hread id ad cdh hsigned
  have hreq : c.req ≠ [] := by
    intro hnil
    rw [Call.cmd, hnil] at hcmd
    cases hcmd
  obtain ⟨cmd, hcmd', w, -, heffects, hdid⟩ := @handle_does sha c a hreq hids hentries
  obtain rfl : cmd = 0x02 := Option.some.inj (hcmd'.symm.trans hcmd)
  rw [← heffects, ← mem_acts rfl] at hsigned
  have hnothing (hacts : acts w.effects = acts (c.begins 0x02 a).effects) :
      False := by
    rw [hacts] at hsigned
    cases hsigned
  rcases hdid with hstill | ⟨p, hp, hdeed⟩
  · exact (hnothing hstill.acts).elim
  · cases hdeed with
    | idles _ hacts => exact (hnothing hacts).elim
    | sweeps _ hcmd => exact absurd hcmd (by decide)
    | makes _ _ _ hcmd => exact absurd hcmd (by decide)
    | continues _ hcmd => exact absurd hcmd (by decide)
    | answers object' q' x _ hp' hread' hasks hclaimed =>
        obtain rfl : object = object' := by
          have hsome := Except.ok.inj (hparameters.symm.trans (hp.trans (congrArg Except.ok hp')))
          exact Option.some.inj hsome
        obtain rfl : q = q' := by simpa using hread.symm.trans hread'
        rcases hclaimed.acts with hacts | hacts
        · exact (hnothing hacts).elim
        · rw [hacts] at hsigned
          have heq := List.mem_singleton.mp hsigned
          simp only [Effect.signed.injEq] at heq
          obtain ⟨rfl, rfl, rfl⟩ := heq
          exact ⟨hasks.cdh, ⟨_, by rw [hasks.rpId, hasks.flags]⟩, hasks.listed⟩

end Handle

/-! ### Every run -/

section Runs

variable {sha : Sha256}

theorem done_snoc (history : History) (x : Call × Outcome) :
    done (history ++ [x]) = done history ++ acts x.2.effects := by
  simp [done]

theorem unique_observed {x : Authenticator × History}
    (h : Reach (watch (Authenticator.next sha) (observeCall sha)) Draws (.fresh [] [], []) x) :
    x.1.store.Unique := by
  have hrun : Reach (Authenticator.next sha) Happening.Listed (.fresh [] []) x.1 :=
    h.refines (f := Prod.fst) fun t e u hdraws hnext => Reach.step hdraws.1 (watch_eq hnext).1
  exact unique_reachable hrun

/-- What is known after any calls and restarts. -/
structure Audited (sha : Sha256) (x : Authenticator × History) : Prop where
  ledger : Ledger sha x.2.length (done x.2) x.1.store
  waits : Waits x.1.store x.1
  asked : ∀ y ∈ x.2, y.1.Signs sha y.2

theorem audited_reachable {x : Authenticator × History}
    (h : Reach (watch (Authenticator.next sha) (observeCall sha)) Draws (.fresh [] [], []) x) :
    Audited sha x := by
  induction h with
  | refl =>
      refine ⟨ledger_empty sha, fun id hid => absurd hid List.not_mem_nil, fun y hy => ?_⟩
      cases hy
  | @tail x y e hrun hdraws hnext ih =>
      obtain ⟨hstep, hrecord⟩ := watch_eq hnext
      obtain ⟨b, history⟩ := y
      cases e with
      | restart =>
          cases hstep
          cases hrecord
          exact ⟨ih.ledger, fun id hid => absurd hid List.not_mem_nil, ih.asked⟩
      | call c =>
          have hids := (unique_observed hrun).ids
          have hentries := hdraws.1 x.1.store
          obtain ⟨hledger, hwaits⟩ :=
            handle_ledger hids hentries ih.ledger ih.waits (hdraws.2 c rfl)
          cases hstep
          cases hrecord
          refine ⟨?_, hwaits, fun y hy => ?_⟩
          · change Ledger sha (x.2 ++ [_]).length (done (x.2 ++ [_])) _
            rw [done_snoc, List.length_append]
            exact hledger
          · rcases List.mem_append.mp hy with hold | hlast
            · exact ih.asked y hold
            · obtain rfl := List.mem_singleton.mp hlast
              exact handle_signs hids hentries

/-- Over all calls and restarts since the app was installed, as long as every
`commit` has reached the disk before a restart: a key is made once, signs only
for the site that it was made for, what it signs in a sign-in is what that asked
for and by a credential on its list, and its counters rise. -/
theorem key_law {x : Authenticator × History}
    (h : Reach (watch (Authenticator.next sha) (observeCall sha)) Draws (.fresh [] [], []) x) :
    KeyLaw sha x.2 := by
  have haudited := audited_reachable h
  exact ⟨haudited.ledger.single, haudited.ledger.site, haudited.ledger.rising, haudited.asked⟩

end Runs

/-- A key is made, signs in twice, with the app started anew in between, and its
counters are 0, 1 and 2. -/
theorem usedTwice_counted : ∃ x : Authenticator × History,
    Reach (watch (Authenticator.next zeroDigest) (observeCall zeroDigest)) Draws
      (.fresh [] [], []) x ∧
    counters signing.id.toList (done x.2) = [0, 1, 2] ∧ KeyLaw zeroDigest x.2 := by
  have hlisted (c : Call) (h : c.env.entries = id) (a : Authenticator) :
      Happening.Listed a (.call c) := fun store => by rw [h]; exact .refl store
  have hmade : Draws (.fresh [] [], []) (.call ⟨signing, registerDiscoverable, 0⟩) := by
    refine ⟨hlisted _ rfl _, ?_⟩
    intro c hc _ credential hmem
    cases hc
    cases hmem
  have hsigns (x : Authenticator × History) : Draws x (.call signInCall) := by
    refine ⟨hlisted _ rfl _, ?_⟩
    intro c hc hcmd
    cases hc
    cases hcmd
  have hrestarts (x : Authenticator × History) : Draws x .restart := ⟨trivial, by simp⟩
  have hfirst : Reach (watch (Authenticator.next zeroDigest) (observeCall zeroDigest)) Draws
      (.fresh [] [], []) _ := Reach.refl.tail hmade rfl
  have hrun := ((hfirst.tail (hsigns _) rfl).tail (hrestarts _) rfl).tail (hsigns _) rfl
  exact ⟨_, hrun, by decide +kernel, key_law hrun⟩

end Passkey.Phone

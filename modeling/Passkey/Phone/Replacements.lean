import Passkey.Phone.Followups
import Passkey.Phone.Responses

/-!
What makeCredential does to the store and the keys. It deletes the credentials
that the new one replaces before it generates the key, and reads the user id of
a credential that replaces none after it. Where one of the later steps fails,
what was deleted stays deleted and what was generated stays.
-/

namespace Passkey.Phone

open Library

/-! ### Replacing -/

/-- A discoverable credential of this site and account. -/
def Json.Of (c : Json) (rpId : Text) (uid : Bytes) : Prop :=
  c.rk = some true ∧ c.rp = some rpId ∧ c.uid = some uid

theorem replaced_of {c : Json} {rpId : Text} {uid : Bytes} (h : c.replaced rpId uid = .ok true) :
    c.Of rpId uid := by
  unfold Json.replaced at h
  split at h
  · rename_i hrk
    obtain ⟨rp, hrp, h⟩ := bind_ok h
    split at h
    · cases h
    · rename_i hsite
      obtain ⟨other, huid, h⟩ := bind_ok h
      have hsame : uid = other := of_decide_eq_true (Except.ok.inj h)
      refine ⟨hrk, ?_, ?_⟩
      · cases hc : c.rp with
        | none =>
            rw [hc] at hrp
            cases hrp
        | some rp' =>
            rw [hc] at hrp
            cases hrp
            exact congrArg some (not_not.mp hsite).symm
      · cases hc : c.uid with
        | none =>
            rw [hc] at huid
            cases huid
        | some other' =>
            rw [hc] at huid
            cases huid
            exact congrArg some hsame.symm
  · cases h

theorem not_of_replaced {c : Json} {rpId : Text} {uid : Bytes}
    (h : c.replaced rpId uid = .ok false) : ¬ c.Of rpId uid := by
  rintro ⟨hrk, hrp, huid⟩
  unfold Json.replaced at h
  rw [if_pos hrk, hrp, huid] at h
  simp [getString, bind, Except.bind, pure, Except.pure] at h

/-- The credentials that the loop deletes; an entry that it cannot read ends
it. -/
def oldIds (rpId : Text) (uid : Bytes) : Store → List Bytes
  | [] => []
  | (id, o) :: rest =>
      match o.replaced rpId uid with
      | .ok true => id :: oldIds rpId uid rest
      | .ok false => oldIds rpId uid rest
      | .error _ => []

/-- All entries can be read. -/
def Legible (rpId : Text) (uid : Bytes) (entries : Store) : Prop :=
  ∀ e ∈ entries, ∃ old, e.2.replaced rpId uid = .ok old

theorem mem_oldIds {rpId : Text} {uid : Bytes} {entries : Store} {id : Bytes}
    (h : id ∈ oldIds rpId uid entries) : ∃ e ∈ entries, e.1 = id ∧ e.2.Of rpId uid := by
  induction entries with
  | nil => cases h
  | cons e rest ih =>
      have hlater (h : id ∈ oldIds rpId uid rest) :
          ∃ e' ∈ e :: rest, e'.1 = id ∧ e'.2.Of rpId uid := by
        obtain ⟨e', hmem, hfacts⟩ := ih h
        exact ⟨e', List.mem_cons_of_mem _ hmem, hfacts⟩
      rw [oldIds] at h
      split at h
      · rename_i hold
        rcases List.mem_cons.mp h with rfl | h
        · exact ⟨e, List.mem_cons_self, rfl, replaced_of hold⟩
        · exact hlater h
      · exact hlater h
      · cases h

/-- Where all entries can be read, all of this account are deleted. -/
theorem oldIds_complete {rpId : Text} {uid : Bytes} {entries : Store}
    (hlegible : Legible rpId uid entries) {e : Bytes × Json} (hmem : e ∈ entries)
    (hof : e.2.Of rpId uid) : e.1 ∈ oldIds rpId uid entries := by
  induction entries with
  | nil => cases hmem
  | cons x rest ih =>
      obtain ⟨hfirst, hrest⟩ := List.forall_mem_cons.mp hlegible
      obtain ⟨old, hold⟩ := hfirst
      rw [oldIds, hold]
      rcases List.mem_cons.mp hmem with rfl | hmem
      · cases old with
        | true => exact List.mem_cons_self
        | false => exact absurd hof (not_of_replaced hold)
      · cases old with
        | true => exact List.mem_cons_of_mem _ (ih hrest hmem)
        | false => exact ih hrest hmem

/-! ### What is left after each part -/

/-- The store and the keys are as they were. -/
def Untouched (b : Authenticator) (w : World) : Prop :=
  w.store = b.store ∧ w.keys = b.keys

/-- The credentials with these ids were deleted; the key store may have failed
to delete their keys. -/
structure Swept (b : Authenticator) (ids : List Bytes) (w : World) : Prop where
  store : w.store = b.store.filter fun e => e.1 ∉ ids
  keys : ∀ k ∈ w.keys, k ∈ b.keys
  spared : ∀ k ∈ b.keys, k ∉ ids → k ∈ w.keys
  none : ids = [] → w.keys = b.keys

theorem Untouched.swept {b : Authenticator} {w : World} (h : Untouched b w) : Swept b [] w := by
  refine ⟨by simp [h.1], ?_, ?_, fun _ => h.2⟩
  · intro k hk
    exact h.2 ▸ hk
  · intro k hk _
    exact h.2 ▸ hk

theorem Swept.untouched {b : Authenticator} {w : World} (h : Swept b [] w) : Untouched b w :=
  ⟨by simp [h.store], h.none rfl⟩

/-- Deleting a credential that was stored can be seen. -/
theorem Swept.untouched_iff {b : Authenticator} {ids : List Bytes} {w : World}
    (h : Swept b ids w) (hstored : ∀ id ∈ ids, ∃ e ∈ b.store, e.1 = id) :
    Untouched b w ↔ ids = [] := by
  constructor
  · intro hsame
    by_contra hne
    obtain ⟨id, hid⟩ := List.exists_mem_of_ne_nil ids hne
    obtain ⟨e, hmem, rfl⟩ := hstored id hid
    have hkept : e ∈ w.store := hsame.1 ▸ hmem
    rw [h.store, List.mem_filter] at hkept
    exact absurd hid (of_decide_eq_true hkept.2)
  · rintro rfl
    exact h.untouched

section Parts

variable {sha : Sha256} {env : Env} {b : Authenticator}

/-- What `delete` leaves of an authenticator. -/
def Authenticator.without (b : Authenticator) (env : Env) (id : Bytes) : Authenticator :=
  {b with
    keys := if env.deleteKey then b.keys.filter (· ≠ id) else b.keys
    store := b.store.remove id}

theorem delete_without {E : World → Prop} (id : Bytes) :
    Triple (Untouched b) (delete env id) (fun _ => Untouched (b.without env id)) E := by
  apply Triple.update
  intro w hw
  exact ⟨by rw [hw.1]; rfl, by rw [hw.2]; rfl⟩

theorem Swept.cons {ids : List Bytes} {id : Bytes} {w : World}
    (h : Swept (b.without env id) ids w) : Swept b (id :: ids) w := by
  have hkeys : ∀ k ∈ (b.without env id).keys, k ∈ b.keys := by
    intro k hk
    unfold Authenticator.without at hk
    dsimp only at hk
    split at hk
    · exact (List.mem_filter.mp hk).1
    · exact hk
  refine ⟨?_, fun k hk => hkeys k (h.keys k hk), ?_, fun hnil => absurd hnil (by simp)⟩
  · rw [h.store, Authenticator.without, Store.remove, List.filter_filter]
    apply List.filter_congr
    intro e _
    simp [Bool.and_comm]
  · intro k hk hnot
    have hne : k ≠ id := fun heq => hnot (heq ▸ List.mem_cons_self)
    refine h.spared k ?_ fun hmem => hnot (List.mem_cons_of_mem _ hmem)
    unfold Authenticator.without
    dsimp only
    split
    · exact List.mem_filter.mpr ⟨hk, decide_eq_true hne⟩
    · exact hk

theorem replaceOld_sweeps (rpId : Text) (uid : Bytes) (entries : Store) :
    Triple (Untouched b) (replaceOld env rpId uid entries)
      (fun _ w => Legible rpId uid entries ∧ Swept b (oldIds rpId uid entries) w)
      (fun w => ¬ Legible rpId uid entries ∧ Swept b (oldIds rpId uid entries) w) := by
  induction entries generalizing b with
  | nil =>
      apply Triple.pure
      intro w hw
      exact ⟨fun e he => absurd he List.not_mem_nil, hw.swept⟩
  | cons e rest ih =>
      unfold replaceOld
      apply Triple.ofExcept_bind
      · intro old hold
        have hlegible : Legible rpId uid (e :: rest) ↔ Legible rpId uid rest := by
          rw [Legible, List.forall_mem_cons]
          exact and_iff_right ⟨old, hold⟩
        rw [oldIds, hold, hlegible]
        cases old with
        | true =>
            refine Triple.bind (delete_without e.1) fun _ => ?_
            exact ih.consequence (fun _ hw => hw) (fun _ _ hw => ⟨hw.1, hw.2.cons⟩)
              fun _ hw => ⟨hw.1, hw.2.cons⟩
        | false => exact ih
      · intro e' he w hw
        rw [oldIds, he]
        refine ⟨fun hlegible => ?_, hw.swept⟩
        obtain ⟨old, hold⟩ := hlegible e List.mem_cons_self
        rw [he] at hold
        cases hold

/-! ### The new credential -/

/-- Once a key is generated, the user id is read and the attestation signed. -/
def Registration.Completes (sha : Sha256) (env : Env) (r : Registration) (rpId : Text) : Prop :=
  ∀ point, env.newKey = some point → ∃ uid cose sig, userId r.user = .ok uid ∧
    Cbor.encode (.map (coseKey point)) = .ok cose ∧
    env.sign env.id.toList (attestedData sha rpId env.id.toList cose ++ r.cdh) = some sig

/-- The key was generated, and the credential stored unless its user id could
not be read. -/
structure Registration.Stored (env : Env) (r : Registration) (rpId : Text) (s w : World) :
    Prop where
  keys : w.keys = s.keys ++ [env.id.toList]
  store : w.store = s.store ∨ ∃ uid c, userId r.user = .ok uid ∧ c.rk = some r.rk ∧
    c.rp = some rpId ∧ c.uid = some uid ∧ w.store = s.store.putString env.id.toList c

theorem newKey_stored {s : World} (id : Bytes) :
    Triple (· = s) (newKey env id)
      (fun point w => env.newKey = some point ∧ w = {s with keys := s.keys ++ [id]})
      (fun w => env.newKey = none ∧ w = s) := by
  unfold newKey
  split
  · rename_i point hpoint
    refine Triple.bind (R := fun _ w => w = {s with keys := s.keys ++ [id]}) ?_ fun _ => ?_
    · apply Triple.update
      rintro w rfl
      rfl
    · exact Triple.pure fun w hw => ⟨hpoint, hw⟩
  · rename_i hnone
    exact Triple.throw fun w hw => ⟨hnone, hw⟩

theorem sign_kept {P : World → Prop} (hnote : ∀ w e, P w → P {w with effects := w.effects ++ [e]})
    (id ad cdh : Bytes) :
    Triple P (sign env id ad cdh) (fun sig w => env.sign id (ad ++ cdh) = some sig ∧ P w)
      (fun w => env.sign id (ad ++ cdh) = none ∧ P w) := by
  unfold sign
  split
  · rename_i sig hsig
    refine Triple.bind (R := fun _ => P) (Triple.update fun w hw => hnote w _ hw) fun _ => ?_
    exact Triple.pure fun w hw => ⟨hsig, hw⟩
  · rename_i hsig
    exact Triple.throw fun w hw => ⟨hsig, hw⟩

/-- The public key and the attestation can always be written. -/
theorem cose_written (point : Nat × Nat) : ∃ cose, Cbor.encode (.map (coseKey point)) = .ok cose :=
  ⟨_, rfl⟩

theorem attestation_written (ad sig : Bytes) :
    ∃ reply, ok [(.int 1, key "packed"), (.int 2, .bytes ad),
      (.int 3, .map [(key "alg", .int (-7)), (key "sig", .bytes sig)])] = .ok reply := by
  obtain ⟨reply, hreply, -⟩ := ok_of_length (length_attestation ad sig)
  exact ⟨reply, hreply⟩

theorem ok_head {m : Object} {r : Reply} (h : ok m = .ok r) : r.bytes.head? = some 0 := by
  obtain ⟨b, hbytes, -⟩ := ok_bytes h
  rw [hbytes]
  rfl

theorem store_stores (r : Registration) (rpId : Text) (s : World) :
    Triple (· = s) (create.store sha env r rpId)
      (fun reply w => reply.bytes.head? = some 0 ∧ env.newKey ≠ none ∧
        r.Completes sha env rpId ∧ r.Stored env rpId s w)
      (fun w => env.newKey = none ∧ w = s ∨
        env.newKey ≠ none ∧ ¬ r.Completes sha env rpId ∧ r.Stored env rpId s w) := by
  unfold create.store
  refine Triple.bind ((newKey_stored _).consequence (fun _ hw => hw) (fun _ _ hw => hw)
    fun _ hw => .inl hw) fun point => Triple.assume fun hpoint => ?_
  have hnew : env.newKey ≠ none := by simp [hpoint]
  apply Triple.ofExcept_bind
  · intro uid huid
    refine Triple.bind (R := fun _ => r.Stored env rpId s) ?_ fun _ => ?_
    · apply Triple.update
      rintro w rfl
      exact ⟨rfl, .inr ⟨uid, _, huid, rfl, rfl, rfl, rfl⟩⟩
    · refine Triple.bind (R := fun _ => r.Stored env rpId s)
        (Triple.update fun w hw => ⟨hw.keys, hw.store⟩) fun _ => ?_
      apply Triple.ofExcept_bind
      · intro cose hcose
        refine Triple.bind ((sign_kept (fun w e hw => ⟨hw.keys, hw.store⟩) _ _ _).consequence
          (fun _ hw => hw) (fun _ _ hw => hw) fun w hw => ?_) fun sig => Triple.assume fun hsig => ?_
        · refine .inr ⟨hnew, fun hcompletes => ?_, hw.2⟩
          obtain ⟨uid', cose', sig, -, hcose', hsig⟩ := hcompletes point hpoint
          obtain rfl : cose = cose' := Except.ok.inj (hcose.symm.trans hcose')
          exact absurd (hw.1.symm.trans hsig) (by simp)
        · have hcompletes : r.Completes sha env rpId := by
            intro point' hpoint'
            obtain rfl : point = point' := Option.some.inj (hpoint.symm.trans hpoint')
            exact ⟨uid, cose, sig, huid, hcose, hsig⟩
          apply Triple.ofExcept_cases
          · intro reply hreply w hw
            exact ⟨ok_head hreply, hnew, hcompletes, hw⟩
          · intro e he w hw
            obtain ⟨reply, hreply⟩ :=
              attestation_written (attestedData sha rpId env.id.toList cose) sig
            rw [hreply] at he
            cases he
      · intro e he w hw
        obtain ⟨cose, hcose⟩ := cose_written point
        rw [hcose] at he
        cases he
  · rintro e he w rfl
    refine .inr ⟨hnew, fun hcompletes => ?_, rfl, .inl rfl⟩
    obtain ⟨uid, -, -, huid, -⟩ := hcompletes point hpoint
    rw [he] at huid
    cases huid

end Parts

/-! ### What a failed registration leaves -/

/-- The entries are read to their end before anything is made. -/
def Registration.Reads (r : Registration) (rpId : Text) (entries : Store) : Prop :=
  r.rk = true → ∃ uid, userId r.user = .ok uid ∧ Legible rpId uid entries

/-- The credentials that are deleted after an approval. -/
def Registration.old (r : Registration) (rpId : Text) (entries : Store) : List Bytes :=
  if r.rk then
    match userId r.user with
    | .ok uid => oldIds rpId uid entries
    | .error _ => []
  else []

/-- A key that is generated serves, and nothing is deleted where none is. -/
structure Registration.Safe (sha : Sha256) (env : Env) (r : Registration) (rpId : Text)
    (entries : Store) : Prop where
  completes : r.Reads rpId entries → r.Completes sha env rpId
  spares : ¬ r.Reads rpId entries ∨ env.newKey = none → r.old rpId entries = []

/-- The registration that the parameters ask for, once the user approved it. -/
structure Registers (env : Env) (store : Store) (p : Option Object) (r : Registration)
    (rpId : Text) : Prop where
  read : ∃ object, p = some object ∧ readRegistration object = .ok (.ok r)
  new : excluded store r.rpId r.exclude = .ok false
  site : r.rpId = some rpId
  approved : env.decision = Status.ok

/-- The registration that a request asks for. -/
def registrationIn (req : Bytes) : Option Registration :=
  (parameters req).toOption.join.bind fun object =>
    (readRegistration object).toOption.bind Except.toOption

theorem Registers.asked {env : Env} {store : Store} {req : Bytes} {p : Option Object}
    {r : Registration} {rpId : Text} (h : Registers env store p r rpId)
    (hp : parameters req = .ok p) : registrationIn req = some r := by
  obtain ⟨object, rfl, hread⟩ := h.read
  simp [registrationIn, hp, hread, Except.toOption]

/-- If the request registers a credential after an approval, it does so safely. -/
def Call.Safe (sha : Sha256) (c : Call) (a : Authenticator) : Prop :=
  ∀ p r rpId, parameters c.req = .ok p → Registers c.env a.store p r rpId →
    r.Safe sha c.env rpId (c.env.entries a.store)

section Failures

variable {sha : Sha256} {env : Env} {b : Authenticator}

theorem old_stored {r : Registration} {rpId : Text} {entries : Store} {id : Bytes}
    (h : id ∈ r.old rpId entries) : ∃ e ∈ entries, e.1 = id := by
  unfold Registration.old at h
  split at h
  · split at h
    · obtain ⟨e, hmem, hid, -⟩ := mem_oldIds h
      exact ⟨e, hmem, hid⟩
    · cases h
  · cases h

/-- Without a generated key, what is deleted decides. -/
theorem safe_iff_old {r : Registration} {rpId : Text} {entries : Store}
    (hnone : ¬ r.Reads rpId entries ∨ env.newKey = none) :
    r.Safe sha env rpId entries ↔ r.old rpId entries = [] := by
  constructor
  · intro hsafe
    exact hsafe.spares hnone
  · intro hold
    refine ⟨fun hreads point hpoint => ?_, fun _ => hold⟩
    rcases hnone with hunread | hnokey
    · exact absurd hreads hunread
    · rw [hnokey] at hpoint
      cases hpoint

/-- What is left where the new credential is made, or should have been. -/
theorem stores_safely (hfresh : env.id.toList ∉ b.keys) {entries : Store}
    (hentries : ∀ e ∈ entries, e ∈ b.store) (r : Registration) (rpId : Text)
    (hreads : r.Reads rpId entries) :
    Triple (Swept b (r.old rpId entries)) (create.store sha env r rpId)
      (fun reply _ => reply.bytes.head? = some 0 ∧ r.Safe sha env rpId entries)
      (fun w => r.Safe sha env rpId entries ↔ Untouched b w) := by
  apply Triple.fix
  intro s hs
  have hstored : ∀ id ∈ r.old rpId entries, ∃ e ∈ b.store, e.1 = id := by
    intro id hid
    obtain ⟨e, hmem, heq⟩ := old_stored hid
    exact ⟨e, hentries e hmem, heq⟩
  refine (store_stores r rpId s).consequence (fun _ hw => hw) ?_ ?_
  · rintro reply w ⟨hok, hnew, hcompletes, -⟩
    refine ⟨hok, fun _ => hcompletes, fun hnone => ?_⟩
    exact hnone.elim (absurd hreads) fun hnokey => absurd hnokey hnew
  · rintro w (⟨hnone, rfl⟩ | ⟨hnew, hincomplete, hleft⟩)
    · rw [safe_iff_old (.inr hnone), hs.untouched_iff hstored]
    · constructor
      · intro hsafe
        exact absurd (hsafe.completes hreads) hincomplete
      · intro hsame
        have hkey : env.id.toList ∈ w.keys := by
          rw [hleft.keys]
          exact List.mem_append_right _ (List.mem_singleton_self _)
        exact absurd (hsame.2 ▸ hkey) hfresh

theorem create_safely (hfresh : env.id.toList ∉ b.keys)
    (hentries : (env.entries b.store).Perm b.store) (r : Registration) (rpId : Text) :
    Triple (Untouched b) (create sha env r rpId)
      (fun reply _ => reply.bytes.head? = some 0 ∧
        r.Safe sha env rpId (env.entries b.store))
      (fun w => r.Safe sha env rpId (env.entries b.store) ↔ Untouched b w) := by
  have hlisted : ∀ e ∈ env.entries b.store, e ∈ b.store := fun e he => hentries.subset he
  unfold create
  refine Triple.bind (R := fun got w => got.store = b.store ∧ Untouched b w)
    (Triple.get fun w hw => ⟨hw.1, hw⟩) fun got => Triple.assume fun hgot => ?_
  rw [hgot]
  apply Triple.ite
  · intro hrk
    apply Triple.ofExcept_bind
    · intro uid huid
      have hold : r.old rpId (env.entries b.store) = oldIds rpId uid (env.entries b.store) := by
        rw [Registration.old, if_pos hrk, huid]
      refine Triple.bind ((replaceOld_sweeps rpId uid (env.entries b.store)).consequence
        (fun _ hw => hw) (fun _ _ hw => hw) fun w hw => ?_) fun _ => Triple.assume fun hlegible => ?_
      · have hunread : ¬ r.Reads rpId (env.entries b.store) := by
          intro hreads
          obtain ⟨uid', huid', hlegible⟩ := hreads hrk
          obtain rfl : uid = uid' := Except.ok.inj (huid.symm.trans huid')
          exact hw.1 hlegible
        rw [safe_iff_old (.inl hunread), hold, hw.2.untouched_iff fun id hid => ?_]
        obtain ⟨e, hmem, heq, -⟩ := mem_oldIds hid
        exact ⟨e, hlisted e hmem, heq⟩
      · rw [← hold]
        exact stores_safely hfresh hlisted r rpId fun _ => ⟨uid, huid, hlegible⟩
    · intro e he w hw
      have hunread : ¬ r.Reads rpId (env.entries b.store) := by
        intro hreads
        obtain ⟨uid, huid, -⟩ := hreads hrk
        rw [he] at huid
        cases huid
      have hnone : r.old rpId (env.entries b.store) = [] := by
        rw [Registration.old, if_pos hrk, he]
      rw [safe_iff_old (.inl hunread)]
      exact ⟨fun _ => hw, fun _ => hnone⟩
  · intro hrk
    have hnone : r.old rpId (env.entries b.store) = [] := by
      rw [Registration.old, if_neg hrk]
    refine (stores_safely hfresh hlisted r rpId fun h => absurd h hrk).consequence
      (fun w hw => ?_) (fun _ _ hw => hw) fun _ hw => hw
    rw [hnone]
    exact hw.swept

/-- Every registration that these parameters make is safe. -/
def SafeParameters (sha : Sha256) (env : Env) (store : Store) (p : Option Object) : Prop :=
  ∀ r rpId, Registers env store p r rpId → r.Safe sha env rpId (env.entries store)

theorem safe_unregistered {p : Option Object}
    (h : ∀ r rpId, ¬ Registers env b.store p r rpId) : SafeParameters sha env b.store p :=
  fun r rpId hregisters => absurd hregisters (h r rpId)

theorem safe_registered {p : Option Object} {r : Registration} {rpId : Text}
    (h : Registers env b.store p r rpId) :
    SafeParameters sha env b.store p ↔ r.Safe sha env rpId (env.entries b.store) := by
  constructor
  · intro hsafe
    exact hsafe r rpId h
  · intro hsafe r' rpId' h'
    obtain ⟨object, rfl, hread⟩ := h.read
    obtain ⟨object', hobject, hread'⟩ := h'.read
    cases hobject
    obtain rfl : r = r' := Except.ok.inj (Except.ok.inj (hread.symm.trans hread'))
    obtain rfl : rpId = rpId' := Option.some.inj (h.site.symm.trans h'.site)
    exact hsafe

/-- A refused or unreadable command changes nothing. -/
theorem refused_safely {p : Option Object} (hnot : ∀ r rpId, ¬ Registers env b.store p r rpId)
    {w : World} (hw : Untouched b w) : SafeParameters sha env b.store p ↔ Untouched b w :=
  ⟨fun _ => hw, fun _ => safe_unregistered hnot⟩

theorem confirm_untouched {E : World → Prop} (rpId title suffix : Text) :
    Triple (Untouched b) (confirm env rpId title suffix)
      (fun s w => s = env.decision ∧ Untouched b w) E := by
  unfold confirm
  exact Triple.bind (Triple.update fun _ hw => hw) fun _ => Triple.pure fun _ hw => ⟨rfl, hw⟩

theorem makeCredential_safely (hfresh : env.id.toList ∉ b.keys)
    (hentries : (env.entries b.store).Perm b.store) (p : Option Object) :
    Triple (Untouched b) (makeCredential sha env p)
      (fun reply w => SafeParameters sha env b.store p ∧
        (reply.bytes.head? ≠ some 0 → Untouched b w))
      (fun w => SafeParameters sha env b.store p ↔ Untouched b w) := by
  have hends {r : Reply} (hnot : ∀ r rpId, ¬ Registers env b.store p r rpId) {w : World}
      (hw : Untouched b w) : SafeParameters sha env b.store p ∧
        (r.bytes.head? ≠ some 0 → Untouched b w) := ⟨safe_unregistered hnot, fun _ => hw⟩
  unfold makeCredential
  apply Triple.ofExcept_bind
  · intro object hobject
    obtain rfl := nonNull_ok hobject
    apply Triple.ofExcept_bind
    · intro parameters hread
      have hsame {r r' : Registration} (h : parameters = .ok r) {rpId : Text}
          (h' : Registers env b.store (some object) r' rpId) : r' = r := by
        obtain ⟨object', hobject', hread'⟩ := h'.read
        cases hobject'
        rw [hread, h] at hread'
        exact (Except.ok.inj (Except.ok.inj hread')).symm
      cases parameters with
      | error status =>
          refine Triple.pure fun w hw => hends (fun r rpId h => ?_) hw
          obtain ⟨object', hobject', hread'⟩ := h.read
          cases hobject'
          rw [hread] at hread'
          cases hread'
      | ok r =>
          refine Triple.bind (R := fun got w => got.store = b.store ∧ Untouched b w)
            (Triple.get fun w hw => ⟨hw.1, hw⟩) fun got => Triple.assume fun hgot => ?_
          rw [hgot]
          apply Triple.ofExcept_bind
          · intro already halready
            apply Triple.ofExcept_bind
            · intro rpId hrp
              have hsite := nonNull_ok hrp
              apply Triple.ite
              · intro hexcluded
                refine Triple.bind (confirm_untouched rpId _ _) fun s => Triple.pure fun w hw =>
                  hends (fun r' rpId' h => ?_) hw.2
                have hnew := h.new
                rw [hsame rfl h, halready, hexcluded] at hnew
                cases hnew
              · intro hnew
                refine Triple.bind (confirm_untouched rpId _ _) fun s =>
                  Triple.assume fun hs => ?_
                apply Triple.ite
                · intro hdenied
                  refine Triple.pure fun w hw => hends (fun r' rpId' h => ?_) hw
                  exact hdenied (hs.trans h.approved)
                · intro happroved
                  have hregisters : Registers env b.store (some object) r rpId :=
                    ⟨⟨object, rfl, hread⟩, by simpa [hnew] using halready, hsite,
                      hs ▸ not_not.mp happroved⟩
                  rw [safe_registered hregisters]
                  exact (create_safely hfresh hentries r rpId).consequence (fun _ hw => hw)
                    (fun _ _ hw => ⟨hw.2, fun hfailed => absurd hw.1 hfailed⟩) fun _ hw => hw
            · refine fun e he w hw => refused_safely (fun r' rpId h => ?_) hw
              have hsite := h.site
              rw [hsame rfl h] at hsite
              rw [hsite] at he
              cases he
          · refine fun e he w hw => refused_safely (fun r' rpId h => ?_) hw
            have hnew := h.new
            rw [hsame rfl h, he] at hnew
            cases hnew
    · refine fun e he w hw => refused_safely (fun r rpId h => ?_) hw
      obtain ⟨object', hobject', hread⟩ := h.read
      cases hobject'
      rw [he] at hread
      cases hread
  · refine fun e he w hw => refused_safely (fun r rpId h => ?_) hw
    obtain ⟨object, rfl, -⟩ := h.read
    cases he

end Failures

/-- A registration that is refused leaves the store and the keys as they were,
exactly where it is safe: where a generated key serves, and no credential is
deleted for a key that is not generated. -/
theorem refused_unchanged_iff {sha : Sha256} {c : Call} {a : Authenticator}
    (hcmd : c.cmd = some 0x01) (hentries : (c.env.entries a.store).Perm a.store)
    (hfresh : c.env.id.toList ∉ a.keys) :
    ((handle sha c.env c.req c.owner a).1.reply.bytes.head? ≠ some 0 →
      (handle sha c.env c.req c.owner a).2.store = a.store ∧
        (handle sha c.env c.req c.owner a).2.keys = a.keys) ↔ c.Safe sha a := by
  have hdispatch : Triple (Untouched a) (dispatch sha c.env 0x01 c.req)
      (fun reply w => c.Safe sha a ∧ (reply.bytes.head? ≠ some 0 → Untouched a w))
      (fun w => c.Safe sha a ↔ Untouched a w) := by
    unfold dispatch
    apply Triple.ofExcept_bind
    · intro p hp
      have hsafe : c.Safe sha a ↔ SafeParameters sha c.env a.store p := by
        constructor
        · intro h r rpId
          exact h p r rpId hp
        · intro h p' r rpId hp'
          obtain rfl : p = p' := Except.ok.inj (hp.symm.trans hp')
          exact h r rpId
      rw [hsafe]
      exact makeCredential_safely hfresh hentries p
    · intro e he w hw
      refine ⟨fun _ => hw, fun _ p r rpId hp => ?_⟩
      rw [he] at hp
      cases hp
  apply Call.handled (Q := fun o b => (o.reply.bytes.head? ≠ some 0 →
    b.store = a.store ∧ b.keys = a.keys) ↔ c.Safe sha a) hcmd
  apply hdispatch.consequence
  · rintro w rfl
    exact ⟨rfl, rfl⟩
  · intro r w hw
    exact ⟨fun _ => hw.1, fun _ => hw.2⟩
  · intro w hw e
    have hfailed : (err e.status).bytes.head? ≠ some 0 := err_head (by cases e <;> decide)
    exact ⟨fun h => hw.mpr (h hfailed), fun h _ => hw.mp h⟩

/-! ### A key that cannot be generated -/

/-- makeCredential with rk for the site `a` and the user with id 7. -/
def registerDiscoverable : Bytes :=
  [0x01, 0xA5, 0x01, 0x41, 0x00, 0x02, 0xA1, 0x62, 0x69, 0x64, 0x61, 0x61,
    0x03, 0xA1, 0x62, 0x69, 0x64, 0x41, 0x07,
    0x04, 0x81, 0xA2, 0x63, 0x61, 0x6C, 0x67, 0x26, 0x64, 0x74, 0x79, 0x70, 0x65, 0x6A,
    0x70, 0x75, 0x62, 0x6C, 0x69, 0x63, 0x2D, 0x6B, 0x65, 0x79,
    0x07, 0xA1, 0x62, 0x72, 0x6B, 0xF5]

/-- A user who approves, on a phone that generates no key. -/
def keyless : Env :=
  {signing with
    id := Vector.replicate 16 8
    newKey := none}

/-- The phone of a user who registered once. -/
def once : Authenticator :=
  (handle zeroDigest signing registerDiscoverable 0 (.fresh [] [])).2

theorem once_reached :
    Reach (Authenticator.next zeroDigest) Happening.Lawful (.fresh [] []) once :=
  Reach.tail (e := .call ⟨signing, registerDiscoverable, 0⟩) .refl signing_lawful rfl

/-- The same for the user with id 8. -/
def registerOther : Bytes :=
  registerDiscoverable.set 18 8

/-- A registration of another user, for which no key can be generated, is safe:
it answers `ERR_OTHER` and the first user keeps the credential. -/
theorem keyless_spares : once.store.length = 1 ∧ once.keys.length = 1 ∧
    (handle zeroDigest keyless registerOther 0 once).1.reply.bytes = [0x7F] ∧
      (handle zeroDigest keyless registerOther 0 once).2.store = once.store ∧
      (handle zeroDigest keyless registerOther 0 once).2.keys = once.keys := by
  have hsafe : Call.Safe zeroDigest ⟨keyless, registerOther, 0⟩ once := by
    intro p r rpId hp hregisters
    have hspares : (registrationIn registerOther).all (fun r => r.rpId.all fun rpId =>
        (r.old rpId once.store).isEmpty) = true := by
      decide +kernel
    rw [hregisters.asked hp, Option.all_some, hregisters.site, Option.all_some,
      List.isEmpty_iff] at hspares
    refine ⟨fun _ point hpoint => ?_, fun _ => hspares⟩
    cases hpoint
  have hreply : (handle zeroDigest keyless registerOther 0 once).1.reply.bytes = [0x7F] := by
    decide +kernel
  have hiff := @refused_unchanged_iff zeroDigest ⟨keyless, registerOther, 0⟩ once rfl
    (signing_lawful.entries _) (by decide +kernel)
  exact ⟨by decide +kernel, by decide +kernel, hreply, hiff.mpr hsafe (by simp [hreply])⟩

/-- A second registration of the first user, for which no key can be generated,
answers `ERR_OTHER` and deletes what the first one made. -/
theorem keyless_deletes : ∃ a,
    Reach (Authenticator.next zeroDigest) Happening.Lawful (.fresh [] []) a ∧
      keyless.id.toList ∉ a.keys ∧ a.store.length = 1 ∧ a.keys.length = 1 ∧
      (handle zeroDigest keyless registerDiscoverable 0 a).1.reply.bytes = [0x7F] ∧
      (handle zeroDigest keyless registerDiscoverable 0 a).2.store.length = 0 ∧
      (handle zeroDigest keyless registerDiscoverable 0 a).2.keys.length = 0 := by
  refine ⟨once, once_reached, ?_⟩
  decide +kernel

end Passkey.Phone

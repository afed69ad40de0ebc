import Passkey.Phone.Accounts
import Passkey.Phone.Enumeration

/-!
What one call of `handle` can do: to the store, to the chain that is pending,
and by a key. It deletes credentials and may then make one, or it counts one
credential and may then sign with it, or it does nothing of the kind.
-/

namespace Passkey.Phone

open Library

/-- What was done by a key: a prompt is nothing of the kind. -/
def Effect.acts : Effect → Bool
  | .confirm .. => false
  | .created .. => true
  | .signed .. => true

def acts (effects : List Effect) : List Effect :=
  effects.filter Effect.acts

theorem acts_append (effects more : List Effect) :
    acts (effects ++ more) = acts effects ++ acts more :=
  List.filter_append ..

theorem mem_acts {effects : List Effect} {e : Effect} (h : e.acts = true) :
    e ∈ acts effects ↔ e ∈ effects := by
  simp [acts, h]

/-- A credential of this site has the id. -/
def Store.HasFor (store : Store) (id : Bytes) (rpId : Text) : Prop :=
  ∃ c, store.find id = some c ∧ c.rp = some rpId

/-- How often the credential was counted. -/
def Store.number (store : Store) (id : Bytes) : Nat :=
  ((store.find id).getD {}).n.getD 0

/-- The store after one more assertion. -/
def Store.counted (store : Store) (id : Bytes) : Store :=
  store.putString id {(store.find id).getD {} with n := some (store.number id + 1)}

/-- The request asks for an assertion by one of these. -/
def SignIn.Lists (q : SignIn) (id : Bytes) : Prop :=
  ∃ m, .map m ∈ q.allow ∧ at_ m "id" = .bytes id

/-- An assertion: whose, for which site, over which challenge, with which flags. -/
structure Claim where
  id : Bytes
  rpId : Text
  cdh : Bytes
  flags : UInt8

/-- The credential was counted, and signed unless that failed. -/
structure Claimed (sha : Sha256) (x : Claim) (s w : World) : Prop where
  store : w.store = s.store.counted x.id
  acts : acts w.effects = acts s.effects ∨ acts w.effects = acts s.effects ++
    [.signed x.id (authData sha x.rpId x.flags (s.store.number x.id + 1)) x.cdh]

/-- The parameters ask for this assertion. -/
structure SignIn.Asks (q : SignIn) (store : Store) (x : Claim) : Prop where
  rpId : x.rpId = q.rpId
  cdh : x.cdh = q.cdh
  flags : x.flags = q.flags
  stored : store.HasFor x.id q.rpId
  listed : q.discoverable = false → q.Lists x.id

/-- What a command can do. -/
inductive Deed (sha : Sha256) (env : Env) (cmd : UInt8) (p : Option Object) (s w : World) :
    Prop where
  | idles (hstore : w.store = s.store) (hacts : acts w.effects = acts s.effects)
      (hpending : ∀ id ∈ w.pending, id ∈ s.pending) (hrp : w.pendingRp = s.pendingRp)
  | sweeps (ids : List Bytes) (hcmd : cmd = 0x01)
      (hstore : w.store = s.store.filter fun e => e.1 ∉ ids)
      (hacts : acts w.effects = acts s.effects) (hpending : w.pending = s.pending)
  /-- A credential is made, and attested unless that fails. -/
  | makes (ids : List Bytes) (rpId : Text) (c : Json) (hcmd : cmd = 0x01)
      (hrp : c.rp = some rpId) (hn : c.n = some 0)
      (hstore : w.store = Store.putString (s.store.filter fun e => e.1 ∉ ids) env.id.toList c)
      (hacts : acts w.effects = acts s.effects ++ [.created env.id.toList c] ∨
        ∃ cose cdh, acts w.effects = acts s.effects ++ [.created env.id.toList c,
          .signed env.id.toList (attestedData sha rpId env.id.toList cose) cdh])
      (hpending : w.pending = s.pending)
  /-- A sign-in, which may leave a chain of other credentials of the site. -/
  | answers (object : Object) (q : SignIn) (x : Claim) (hcmd : cmd = 0x02)
      (hp : p = some object) (hread : readSignIn object = .ok (.ok q)) (hasks : q.Asks s.store x)
      (hclaimed : Claimed sha x s w) (hrp : w.pendingRp = some q.rpId)
      (hpending : ∀ id ∈ w.pending, s.store.HasFor id q.rpId)
  /-- The next of the chain. -/
  | continues (x : Claim) (hcmd : cmd = 0x08) (hfirst : x.id ∈ s.pending)
      (hsite : s.pendingRp = some x.rpId) (hclaimed : Claimed sha x s w)
      (hpending : ∀ id ∈ w.pending, id ∈ s.pending) (hrp : w.pendingRp = s.pendingRp)

section Parts

variable {sha : Sha256} {env : Env} {s : World}

/-! ### Prompts and assertions -/

theorem confirm_does {E : World → Prop} (rpId title suffix : Text) :
    Triple (· = s) (confirm env rpId title suffix)
      (fun _ w => w = {s with effects := s.effects ++
        [.confirm rpId title (label rpId ++ suffix) env.decision]}) E := by
  unfold confirm
  refine Triple.bind (R := fun _ w => w = {s with effects := s.effects ++
    [.confirm rpId title (label rpId ++ suffix) env.decision]}) ?_
    fun _ => Triple.pure fun _ hw => hw
  apply Triple.update
  rintro w rfl
  rfl

theorem sign_does (id ad cdh : Bytes) :
    Triple (· = s) (sign env id ad cdh)
      (fun _ w => w = {s with effects := s.effects ++ [.signed id ad cdh]}) (· = s) := by
  unfold sign
  split
  · refine Triple.bind (R := fun _ w => w = {s with effects := s.effects ++ [.signed id ad cdh]})
      ?_ fun _ => Triple.pure fun _ hw => hw
    apply Triple.update
    rintro w rfl
    rfl
  · exact Triple.throw fun _ hw => hw

/-- The chain stays as it is. -/
def Onward (sha : Sha256) (x : Claim) (s w : World) : Prop :=
  Claimed sha x s w ∧ w.pending = s.pending ∧ w.pendingRp = s.pendingRp

theorem assertion_does (x : Claim) (count : Nat) (withUser : Bool) :
    Triple (· = s) (assertion sha env x.id x.rpId x.cdh x.flags count withUser)
      (fun _ => Onward sha x s) (Onward sha x s) := by
  have hcounted : Onward sha x s {s with store := s.store.counted x.id} :=
    ⟨⟨rfl, .inl rfl⟩, rfl, rfl⟩
  unfold assertion
  refine Triple.bind (R := fun got w => got = s ∧ w = s) (Triple.get fun w hw => ⟨hw, hw⟩)
    fun got => Triple.assume fun hgot => ?_
  subst hgot
  refine Triple.bind (R := fun _ w => w = {got with store := got.store.counted x.id}) ?_
    fun _ => ?_
  · apply Triple.update
    rintro w rfl
    rfl
  · apply Triple.ite
    · intro _
      apply Triple.throw
      rintro w rfl
      exact hcounted
    · intro _
      refine Triple.bind ((sign_does _ _ _).consequence (fun _ hw => hw)
        (fun _ _ hw => hw) fun w hw => hw ▸ hcounted) fun sig => ?_
      have hsigned (w : World) (hw : w = {got with
          store := got.store.counted x.id
          effects := got.effects ++ [.signed x.id
            (authData sha x.rpId x.flags (got.store.number x.id + 1)) x.cdh]}) :
          Onward sha x got w := by
        subst hw
        exact ⟨⟨rfl, .inr (acts_append ..)⟩, rfl, rfl⟩
      apply Triple.ite
      · intro _
        apply Triple.ofExcept_bind
        · intro uid _
          exact Triple.pure hsigned
        · exact fun _ _ => hsigned
      · intro _
        exact Triple.pure hsigned

/-! ### The credentials of a sign-in -/

theorem hasFor_of_mem {store : Store} (hids : (store.map Prod.fst).Nodup) {e : Bytes × Json}
    (he : e ∈ store) {rpId : Text} (hrp : e.2.rp = some rpId) : store.HasFor e.1 rpId :=
  ⟨e.2, find_of_mem hids he, hrp⟩

theorem asMap_ok {v : Value} {object : Object} (h : asMap v = .ok (some object)) :
    v = .map object := by
  cases v <;> cases h
  rfl

theorem asBytes_ok {v : Value} {b : Bytes} (h : asBytes v = .ok (some b)) : v = .bytes b := by
  cases v <;> cases h
  rfl

theorem allowed_has {store : Store} {rpId : Text} {allow : List Value} {found l : List Bytes}
    {P : Bytes → Prop} (hfound : ∀ id ∈ found, P id)
    (hallow : ∀ m id, .map m ∈ allow → at_ m "id" = .bytes id → store.HasFor id rpId → P id)
    (h : allowed store rpId allow found = .ok l) : ∀ id ∈ l, P id := by
  induction allow generalizing found with
  | nil =>
      cases h
      exact hfound
  | cons o rest ih =>
      have hrest (m : Object) (id : Bytes) (hm : .map m ∈ rest) := hallow m id
        (List.mem_cons_of_mem _ hm)
      obtain ⟨entry, hentry, h⟩ := bind_ok h
      obtain ⟨object, hobject, h⟩ := bind_ok h
      obtain ⟨id, hid, h⟩ := bind_ok h
      have hmap : o = .map object := by
        obtain rfl := nonNull_ok hobject
        exact asMap_ok hentry
      have hbytes (id' : Bytes) (hsome : id = some id') : at_ object "id" = .bytes id' := by
        subst hsome
        exact asBytes_ok hid
      cases id with
      | none => exact ih hfound hrest h
      | some id =>
          cases hfind : store.find id with
          | none =>
              rw [Option.bind_some, hfind] at h
              exact ih hfound hrest h
          | some c =>
              rw [Option.bind_some, hfind] at h
              obtain ⟨rp, hrp, h⟩ := bind_ok h
              refine ih (fun x hx => ?_) hrest h
              split at hx
              · rename_i hsame
                rcases List.mem_append.mp hx with hx | hx
                · exact hfound x hx
                · obtain rfl := List.mem_singleton.mp hx
                  simp only [Bool.and_eq_true, decide_eq_true_eq] at hsame
                  have hsite : rpId = rp := hsame.1
                  refine hallow object x (hmap ▸ List.mem_cons_self) (hbytes x rfl) ⟨c, hfind, ?_⟩
                  cases hc : c.rp with
                  | none => simp [getString, hc] at hrp
                  | some rp' =>
                      simp only [getString, hc, Except.ok.injEq] at hrp
                      rw [hsite, hrp]
              · exact hfound x hx

theorem ofSite_has {rpId : Text} {store : Store} {l : List (Text × Bytes)}
    (h : ofSite rpId store = .ok l) : ∀ x ∈ l, ∃ e ∈ store, e.1 = x.2 ∧ e.2.rp = some rpId := by
  induction store generalizing l with
  | nil =>
      cases h
      simp
  | cons e rest ih =>
      obtain ⟨rp, hrp, h⟩ := bind_ok h
      obtain ⟨others, hothers, h⟩ := bind_ok h
      cases h
      have hrest (x : Text × Bytes) (hx : x ∈ others) :
          ∃ e' ∈ e :: rest, e'.1 = x.2 ∧ e'.2.rp = some rpId := by
        obtain ⟨e', he', hsame⟩ := ih hothers x hx
        exact ⟨e', List.mem_cons_of_mem _ he', hsame⟩
      intro x hx
      split at hx
      · rename_i hsite
        rcases List.mem_cons.mp hx with rfl | hx
        · refine ⟨e, List.mem_cons_self, rfl, ?_⟩
          cases hc : e.2.rp with
          | none => simp [getString, hc] at hrp
          | some rp' =>
              simp only [getString, hc, Except.ok.injEq] at hrp
              rw [hsite, hrp]
        · exact hrest x hx
      · exact hrest x hx

/-- What a sign-in offers is there for its site, and on its list if it has one. -/
theorem hits_has {store : Store} (hids : (store.map Prod.fst).Nodup)
    (hentries : (env.entries store).Perm store) {q : SignIn} {l : List Bytes}
    (h : hits env store q = .ok l) :
    ∀ id ∈ l, store.HasFor id q.rpId ∧ (q.discoverable = false → q.Lists id) := by
  unfold hits at h
  split at h
  · rename_i hall
    obtain ⟨rks, hsite, h⟩ := bind_ok h
    cases h
    intro id hid
    obtain ⟨x, hx, rfl⟩ := List.mem_map.mp hid
    obtain ⟨e, he, hkey, hrp⟩ := ofSite_has hsite x ((List.mem_insertionSort _).mp hx)
    refine ⟨hkey ▸ hasFor_of_mem hids (hentries.subset he) hrp, fun hlist => ?_⟩
    cases hall.symm.trans hlist
  · refine allowed_has (by simp) (fun m id hm hid hhas => ?_) h
    exact ⟨hhas, fun _ => ⟨m, hm, hid⟩⟩

/-! ### makeCredential -/

/-- Old credentials were deleted. -/
structure Cleared (ids : List Bytes) (s w : World) : Prop where
  store : w.store = s.store.filter fun e => e.1 ∉ ids
  acts : acts w.effects = acts s.effects
  pending : w.pending = s.pending

theorem replaceOld_clears (rpId : Text) (uid : Bytes) (entries : Store) {ids : List Bytes}
    (t : World) : Triple (Cleared ids t) (replaceOld env rpId uid entries)
      (fun _ w => ∃ ids, Cleared ids t w) (fun w => ∃ ids, Cleared ids t w) := by
  induction entries generalizing ids with
  | nil => exact Triple.pure fun w hw => ⟨ids, hw⟩
  | cons e rest ih =>
      unfold replaceOld
      apply Triple.ofExcept_bind
      · intro old _
        cases old with
        | true =>
            refine Triple.bind (R := fun _ => Cleared (e.1 :: ids) t) ?_ fun _ => ih
            apply Triple.update
            intro w hw
            refine ⟨?_, hw.acts, hw.pending⟩
            change w.store.remove e.1 = _
            rw [Store.remove, hw.store, List.filter_filter]
            apply List.filter_congr
            intro x _
            simp
        | false => exact ih
      · exact fun _ _ w hw => ⟨ids, hw⟩

theorem Cleared.sweeps {ids : List Bytes} {p : Option Object} {w : World}
    (h : Cleared ids s w) : Deed sha env 0x01 p s w :=
  .sweeps ids rfl h.store h.acts h.pending

theorem store_does {ids : List Bytes} {t : World} (ht : Cleared ids s t) (r : Registration)
    (rpId : Text) (p : Option Object) : Triple (· = t) (create.store sha env r rpId)
      (fun _ => Deed sha env 0x01 p s) (Deed sha env 0x01 p s) := by
  unfold create.store
  have hkeys (k : List Bytes) : Cleared ids s {t with keys := k} :=
    ⟨ht.store, ht.acts, ht.pending⟩
  refine Triple.bind (R := fun _ w => ∃ k, w = {t with keys := k}) ?_ fun point => ?_
  · unfold newKey
    split
    · refine Triple.bind (R := fun _ w => ∃ k, w = {t with keys := k}) ?_
        fun _ => Triple.pure fun _ hw => hw
      apply Triple.update
      rintro w rfl
      exact ⟨_, rfl⟩
    · apply Triple.throw
      rintro w rfl
      exact ht.sweeps
  · apply Triple.fix
    rintro t' ⟨k, ht'⟩
    apply Triple.ofExcept_bind
    · intro uid _
      generalize hc : ({
        rp := some rpId
        uid := some uid
        name := some (str (at_ r.user "name") [])
        dn := some (str (at_ r.user "displayName") [])
        rk := some r.rk
        n := some 0
        t := some env.later} : Json) = c
      have hrp : c.rp = some rpId := by rw [← hc]
      have hn : c.n = some 0 := by rw [← hc]
      have hmade {w : World} (hstore : w.store = Store.putString t.store env.id.toList c)
          (hacts : acts w.effects = acts s.effects ++ [.created env.id.toList c] ∨
            ∃ cose cdh, acts w.effects = acts s.effects ++ [.created env.id.toList c,
              .signed env.id.toList (attestedData sha rpId env.id.toList cose) cdh])
          (hpending : w.pending = t.pending) : Deed sha env 0x01 p s w :=
        .makes ids rpId c rfl hrp hn (ht.store ▸ hstore) hacts (hpending.trans ht.pending)
      have hcreated : acts (t.effects ++ [.created env.id.toList c]) =
          acts s.effects ++ [.created env.id.toList c] := by
        rw [acts_append, ht.acts]
        rfl
      refine Triple.bind (R := fun _ w => w = {t with
          keys := k
          store := t.store.putString env.id.toList c}) ?_ fun _ => ?_
      · apply Triple.update
        rintro w rfl
        rw [ht']
      · refine Triple.bind (R := fun _ w => w = {t with
            keys := k
            store := t.store.putString env.id.toList c
            effects := t.effects ++ [.created env.id.toList c]}) ?_ fun _ => ?_
        · apply Triple.update
          rintro w rfl
          rfl
        · apply Triple.ofExcept_bind
          · intro cose _
            refine Triple.bind ((sign_does _ _ _).consequence (fun _ hw => hw)
              (fun _ _ hw => hw) ?_) fun sig => ?_
            · rintro w rfl
              exact hmade rfl (.inl hcreated) rfl
            · have hattested (w : World) (hw : w = {t with
                  keys := k
                  store := t.store.putString env.id.toList c
                  effects := t.effects ++ [.created env.id.toList c] ++ [.signed env.id.toList
                    (attestedData sha rpId env.id.toList cose) r.cdh]}) :
                  Deed sha env 0x01 p s w := by
                subst hw
                refine hmade rfl (.inr ⟨cose, r.cdh, ?_⟩) rfl
                rw [acts_append, hcreated, List.append_assoc]
                rfl
              exact Triple.ofExcept (fun _ _ => hattested) hattested
          · rintro e _ w rfl
            exact hmade rfl (.inl hcreated) rfl
    · rintro e _ w rfl
      exact (ht' ▸ hkeys k).sweeps

theorem create_does (r : Registration) (rpId : Text) (p : Option Object) {t : World}
    (ht : Cleared [] s t) : Triple (· = t) (create sha env r rpId)
      (fun _ => Deed sha env 0x01 p s) (Deed sha env 0x01 p s) := by
  unfold create
  refine Triple.bind (R := fun got w => w = t) (Triple.get fun w hw => hw) fun got => ?_
  apply Triple.ite
  · intro _
    apply Triple.ofExcept_bind
    · intro uid _
      refine Triple.bind ((replaceOld_clears rpId uid _ s).consequence (fun w hw => hw ▸ ht)
        (fun _ _ hw => hw) fun w ⟨ids, hw⟩ => hw.sweeps) fun _ => ?_
      apply Triple.fix
      rintro t' ⟨ids, ht'⟩
      exact store_does ht' r rpId p
    · rintro e _ w rfl
      exact ht.sweeps
  · intro _
    exact store_does ht r rpId p

/-- Nothing but a prompt. -/
structure Still (s w : World) : Prop where
  store : w.store = s.store
  acts : acts w.effects = acts s.effects
  pending : w.pending = s.pending
  pendingRp : w.pendingRp = s.pendingRp

theorem Still.refl (s : World) : Still s s :=
  ⟨rfl, rfl, rfl, rfl⟩

theorem Still.cleared {w : World} (h : Still s w) : Cleared [] s w :=
  ⟨h.store.trans (by simp), h.acts, h.pending⟩

theorem Still.idles {cmd : UInt8} {p : Option Object} {w : World} (h : Still s w) :
    Deed sha env cmd p s w :=
  .idles h.store h.acts (fun _ hid => h.pending ▸ hid) h.pendingRp

theorem confirm_still {E : World → Prop} (rpId title suffix : Text) :
    Triple (Still s) (confirm env rpId title suffix) (fun _ => Still s) E := by
  apply Triple.fix
  intro t ht
  apply (confirm_does rpId title suffix).consequence (fun _ hw => hw) _ fun _ hw => hw
  rintro _ w rfl
  refine ⟨ht.store, ?_, ht.pending, ht.pendingRp⟩
  rw [acts_append, ht.acts]
  exact List.append_nil _

theorem makeCredential_does (p : Option Object) :
    Triple (Still s) (makeCredential sha env p) (fun _ => Deed sha env 0x01 p s)
      (Deed sha env 0x01 p s) := by
  unfold makeCredential
  apply Triple.ofExcept_bind
  · intro object _
    apply Triple.ofExcept_bind
    · intro parameters _
      cases parameters with
      | error status => exact Triple.pure fun _ hw => hw.idles
      | ok r =>
          refine Triple.bind (R := fun _ => Still s) (Triple.get fun _ hw => hw) fun got => ?_
          apply Triple.ofExcept_bind
          · intro already _
            apply Triple.ofExcept_bind
            · intro rpId _
              apply Triple.ite
              · intro _
                exact Triple.bind (confirm_still rpId _ _) fun _ => Triple.pure fun _ hw => hw.idles
              · intro _
                refine Triple.bind (confirm_still rpId _ _) fun status => ?_
                apply Triple.ite
                · intro _
                  exact Triple.pure fun _ hw => hw.idles
                · intro _
                  apply Triple.fix
                  intro t ht
                  exact create_does r rpId p ht.cleared
            · exact fun _ _ _ hw => hw.idles
          · exact fun _ _ _ hw => hw.idles
    · exact fun _ _ _ hw => hw.idles
  · exact fun _ _ _ hw => hw.idles

/-! ### getAssertion and getNextAssertion -/

theorem answer_does {object : Object} {q : SignIn} (hread : readSignIn object = .ok (.ok q))
    {first : Bytes} {rest : List Bytes}
    (hfound : ∀ id ∈ first :: rest,
      s.store.HasFor id q.rpId ∧ (q.discoverable = false → q.Lists id)) :
    Triple (Still s) (answer sha env q first rest) (fun _ => Deed sha env 0x02 (some object) s)
      (Deed sha env 0x02 (some object) s) := by
  have hfirst := hfound first List.mem_cons_self
  have hdone {t w : World} (hstore : t.store = s.store) (hacts : acts t.effects = acts s.effects)
      (hpending : t.pending = if q.discoverable then rest else []) (hrp : t.pendingRp = some q.rpId)
      (h : Onward sha ⟨first, q.rpId, q.cdh, q.flags⟩ t w) :
      Deed sha env 0x02 (some object) s w := by
    obtain ⟨⟨hcounted, hsigned⟩, hsame, hsite⟩ := h
    refine .answers object q ⟨first, q.rpId, q.cdh, q.flags⟩ rfl rfl hread
      ⟨rfl, rfl, rfl, hfirst.1, hfirst.2⟩ ⟨hstore ▸ hcounted, ?_⟩ (hsite.trans hrp) ?_
    · rw [hstore, hacts] at hsigned
      exact hsigned
    · intro id hid
      rw [hsame, hpending] at hid
      split at hid
      · exact (hfound id (List.mem_cons_of_mem _ hid)).1
      · cases hid
  unfold answer
  refine Triple.bind (R := fun _ w => w.store = s.store ∧ acts w.effects = acts s.effects ∧
    w.pending = (if q.discoverable then rest else []) ∧ w.pendingRp = some q.rpId) ?_ fun _ => ?_
  · apply Triple.update
    exact fun w hw => ⟨hw.store, hw.acts, rfl, rfl⟩
  · apply Triple.fix
    rintro t ⟨hstore, hacts, hpending, hrp⟩
    refine Triple.bind ((assertion_does ⟨first, q.rpId, q.cdh, q.flags⟩ _ _).consequence
      (fun _ hw => hw) (fun _ _ hw => hdone hstore hacts hpending hrp hw)
      fun _ hw => hdone hstore hacts hpending hrp hw) fun m => ?_
    exact Triple.ofExcept (fun _ _ _ hw => hw) fun _ hw => hw

theorem getAssertion_does (hids : (s.store.map Prod.fst).Nodup)
    (hentries : (env.entries s.store).Perm s.store) (p : Option Object) :
    Triple (Still s) (getAssertion sha env p) (fun _ => Deed sha env 0x02 p s)
      (Deed sha env 0x02 p s) := by
  unfold getAssertion
  apply Triple.ofExcept_bind
  · intro object hobject
    obtain rfl := nonNull_ok hobject
    apply Triple.ofExcept_bind
    · intro parameters hread
      cases parameters with
      | error status => exact Triple.pure fun _ hw => hw.idles
      | ok q =>
          refine Triple.bind (R := fun got w => got.store = s.store ∧ Still s w)
            (Triple.get fun _ hw => ⟨hw.store, hw⟩) fun got => Triple.assume fun hgot => ?_
          apply Triple.ofExcept_bind
          · intro found hhits
            have hfound := hits_has hids hentries (hgot ▸ hhits)
            cases found with
            | nil =>
                apply Triple.ite
                · intro _
                  exact Triple.bind (confirm_still _ _ _) fun _ => Triple.pure fun _ hw => hw.idles
                · intro _
                  exact Triple.pure fun _ hw => hw.idles
            | cons first rest =>
                apply Triple.ite
                · intro _
                  refine Triple.bind (confirm_still _ _ _) fun status => ?_
                  apply Triple.ite
                  · intro _
                    exact Triple.pure fun _ hw => hw.idles
                  · intro _
                    exact answer_does hread hfound
                · intro _
                  exact answer_does hread hfound
          · exact fun _ _ _ hw => hw.idles
    · exact fun _ _ _ hw => hw.idles
  · exact fun _ _ _ hw => hw.idles

theorem getNextAssertion_does (p : Option Object) :
    Triple (· = s) (getNextAssertion sha env) (fun _ => Deed sha env 0x08 p s)
      (Deed sha env 0x08 p s) := by
  unfold getNextAssertion
  refine Triple.bind (R := fun got w => got = s ∧ w = s) (Triple.get fun w hw => ⟨hw, hw⟩)
    fun got => Triple.assume fun hgot => ?_
  subst hgot
  cases hpending : got.pending with
  | nil =>
      apply Triple.pure
      rintro w rfl
      exact (Still.refl w).idles
  | cons id rest =>
      have hmem {x : Bytes} (hx : x ∈ rest) : x ∈ got.pending := by
        rw [hpending]
        exact List.mem_cons_of_mem _ hx
      have hdrops (w : World) (hw : w = {got with pending := rest}) :
          Deed sha env 0x08 p got w := by
        subst hw
        exact .idles rfl rfl (fun _ => hmem) rfl
      refine Triple.bind (R := fun _ w => w = {got with pending := rest}) ?_ fun _ => ?_
      · apply Triple.update
        rintro w rfl
        rfl
      · apply Triple.ofExcept_bind
        · intro rpId hrp
          apply Triple.ofExcept_bind
          · intro cdh _
            have hdone (w : World)
                (h : Onward sha ⟨id, rpId, cdh, got.pendingFlags⟩ {got with pending := rest} w) :
                Deed sha env 0x08 p got w := by
              obtain ⟨⟨hstore, hacts⟩, hsame, hsite⟩ := h
              refine .continues ⟨id, rpId, cdh, got.pendingFlags⟩ rfl ?_ (nonNull_ok hrp)
                ⟨hstore, hacts⟩ (fun x hx => ?_) hsite
              · rw [hpending]
                exact List.mem_cons_self
              · rw [hsame] at hx
                exact hmem hx
            have hspec := @assertion_does sha env {got with pending := rest}
              ⟨id, rpId, cdh, got.pendingFlags⟩ 0 true
            refine Triple.bind (hspec.consequence
              (fun _ hw => hw) (fun _ _ hw => hdone _ hw) hdone) fun m => ?_
            exact Triple.ofExcept (fun _ _ _ hw => hw) fun _ hw => hw
          · exact fun _ _ => hdrops
        · exact fun _ _ => hdrops

/-! ### handle -/

theorem dispatch_does (hids : (s.store.map Prod.fst).Nodup)
    (hentries : (env.entries s.store).Perm s.store) (cmd : UInt8) (req : Bytes) :
    Triple (· = s) (dispatch sha env cmd req)
      (fun _ w => ∃ p, parameters req = .ok p ∧ Deed sha env cmd p s w)
      (fun w => Still s w ∨ ∃ p, parameters req = .ok p ∧ Deed sha env cmd p s w) := by
  have hstill (w : World) (hw : w = s) : Still s w := hw ▸ Still.refl s
  unfold dispatch
  apply Triple.ofExcept_bind
  · intro p hp
    apply Triple.ite
    · intro _
      exact Triple.ofExcept (fun _ _ w hw => ⟨p, hp, (hstill w hw).idles⟩)
        fun w hw => .inl (hstill w hw)
    · intro _
      apply Triple.ite
      · rintro rfl
        exact (makeCredential_does p).consequence hstill (fun _ _ hw => ⟨p, hp, hw⟩)
          fun _ hw => .inr ⟨p, hp, hw⟩
      · intro _
        apply Triple.ite
        · rintro rfl
          exact (getAssertion_does hids hentries p).consequence hstill
            (fun _ _ hw => ⟨p, hp, hw⟩) fun _ hw => .inr ⟨p, hp, hw⟩
        · intro _
          apply Triple.ite
          · rintro rfl
            exact (getNextAssertion_does p).consequence (fun _ hw => hw)
              (fun _ _ hw => ⟨p, hp, hw⟩) fun _ hw => .inr ⟨p, hp, hw⟩
          · intro _
            exact Triple.pure fun w hw => ⟨p, hp, (hstill w hw).idles⟩
  · exact fun _ _ w hw => .inl (hstill w hw)

end Parts

/-- The world in which the command of a call begins. -/
def Call.begins (c : Call) (cmd : UInt8) (a : Authenticator) : World :=
  {a.enter c.env cmd c.owner with}

/-- What a call did, if there was a command in it. -/
def Call.Does (sha : Sha256) (c : Call) (a : Authenticator) (o : Outcome) (b : Authenticator) :
    Prop :=
  ∃ cmd, c.cmd = some cmd ∧ ∃ w : World, w.toAuthenticator = b ∧ w.effects = o.effects ∧
    (Still (c.begins cmd a) w ∨
      ∃ p, parameters c.req = .ok p ∧ Deed sha c.env cmd p (c.begins cmd a) w)

theorem handle_does {sha : Sha256} {c : Call} {a : Authenticator} (hreq : c.req ≠ [])
    (hids : (a.store.map Prod.fst).Nodup) (hentries : (c.env.entries a.store).Perm a.store) :
    c.Does sha a (handle sha c.env c.req c.owner a).1 (handle sha c.env c.req c.owner a).2 := by
  obtain ⟨cmd, hcmd⟩ := Call.cmd_of_nonempty hreq
  apply Call.handled (Q := c.Does sha a) hcmd
  apply (@dispatch_does sha c.env (c.begins cmd a) hids hentries cmd c.req).consequence
  · exact fun w hw => hw
  · exact fun _ w hw => ⟨cmd, hcmd, w, rfl, rfl, .inr hw⟩
  · exact fun w hw e => ⟨cmd, hcmd, w, rfl, rfl, hw⟩

end Passkey.Phone

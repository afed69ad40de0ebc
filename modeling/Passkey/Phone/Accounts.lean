import Passkey.Phone.Replacements

/-!
One discoverable credential for each account. Over every sequence of calls, with
failures anywhere, the store holds no two credentials marked rk for one site
and user, and a makeCredential deletes none but those that its own replaces.
-/

namespace Passkey.Phone

open Library

/-- No id is stored twice, and no account has two discoverable credentials. -/
structure Store.Unique (store : Store) : Prop where
  ids : (store.map Prod.fst).Nodup
  accounts : store.Pairwise fun x y => ∀ rpId uid, x.2.Of rpId uid → ¬ y.2.Of rpId uid

namespace Store.Unique

variable {store : Store}

theorem nil : Store.Unique [] :=
  ⟨List.nodup_nil, .nil⟩

theorem filter (h : store.Unique) (p : Bytes × Json → Bool) : Store.Unique (store.filter p) :=
  ⟨h.ids.sublist (List.filter_sublist.map _), h.accounts.sublist List.filter_sublist⟩

/-- Two entries with one id are the same entry. -/
theorem entry_eq (h : store.Unique) {x y : Bytes × Json} (hx : x ∈ store) (hy : y ∈ store)
    (hid : x.1 = y.1) : x = y :=
  List.inj_on_of_nodup_map h.ids hx hy hid

/-- Two entries with different ids are of different accounts. -/
theorem account_ne (h : store.Unique) {x y : Bytes × Json} (hx : x ∈ store) (hy : y ∈ store)
    (hid : x.1 ≠ y.1) {rpId : Text} {uid : Bytes} (hof : x.2.Of rpId uid) :
    ¬ y.2.Of rpId uid := by
  have hsymm : Std.Symm fun x y : Bytes × Json =>
      ∀ rpId uid, x.2.Of rpId uid → ¬ y.2.Of rpId uid := by
    constructor
    intro x y hxy rpId uid hy hx
    exact hxy rpId uid hx hy
  have hne : x ≠ y := by
    rintro rfl
    exact hid rfl
  exact h.accounts.forall hx hy hne rpId uid hof

/-- Storing a credential of an account that no other one has. -/
theorem put (h : store.Unique) (id : Bytes) {c : Json}
    (hnew : ∀ e ∈ store, e.1 ≠ id → ∀ rpId uid, e.2.Of rpId uid → ¬ c.Of rpId uid) :
    (store.putString id c).Unique := by
  unfold Store.putString
  split
  · constructor
    · have hids : (store.map fun e => if e.1 = id then (id, c) else e).map Prod.fst
          = store.map Prod.fst := by
        rw [List.map_map]
        apply List.map_congr_left
        intro e _
        by_cases he : e.1 = id
        · simp [he]
        · simp [he]
      rw [hids]
      exact h.ids
    · rw [List.pairwise_map]
      have hids : store.Pairwise fun x y => x.1 ≠ y.1 := List.pairwise_map.mp h.ids
      refine (hids.and h.accounts).imp_of_mem ?_
      intro x y hx hy hpair rpId uid hxof hyof
      obtain ⟨hne, haccounts⟩ := hpair
      by_cases hxid : x.1 = id
      · have hyid : y.1 ≠ id := fun hy => hne (hxid.trans hy.symm)
        rw [if_pos hxid] at hxof
        rw [if_neg hyid] at hyof
        exact hnew y hy hyid rpId uid hyof hxof
      · rw [if_neg hxid] at hxof
        by_cases hyid : y.1 = id
        · rw [if_pos hyid] at hyof
          exact hnew x hx hxid rpId uid hxof hyof
        · rw [if_neg hyid] at hyof
          exact haccounts rpId uid hxof hyof
  · rename_i habsent
    have hids : ∀ e ∈ store, e.1 ≠ id := by
      intro e he heq
      exact habsent (List.any_eq_true.mpr ⟨e, he, by simp [heq]⟩)
    constructor
    · rw [List.map_append, List.nodup_append]
      refine ⟨h.ids, List.nodup_singleton _, ?_⟩
      intro x hx y hy
      obtain ⟨e, he, rfl⟩ := List.mem_map.mp hx
      obtain rfl : y = id := List.mem_singleton.mp hy
      exact hids e he
    · rw [List.pairwise_append]
      refine ⟨h.accounts, List.pairwise_singleton _ _, ?_⟩
      intro x hx y hy
      obtain rfl : y = (id, c) := List.mem_singleton.mp hy
      exact hnew x hx (hids x hx)

end Store.Unique

theorem mem_putString_self (store : Store) (id : Bytes) (c : Json) :
    (id, c) ∈ store.putString id c := by
  unfold Store.putString
  split
  · rename_i hany
    obtain ⟨e, he, hid⟩ := List.any_eq_true.mp hany
    exact List.mem_map.mpr ⟨e, he, by simp [eq_of_beq hid]⟩
  · exact List.mem_append_right _ (List.mem_singleton_self _)

/-- The other entries stay. -/
theorem mem_putString_other {store : Store} {id : Bytes} {c : Json} {e : Bytes × Json}
    (he : e ∈ store) (hid : e.1 ≠ id) : e ∈ store.putString id c := by
  unfold Store.putString
  split
  · exact List.mem_map.mpr ⟨e, he, by simp [hid]⟩
  · exact List.mem_append_left _ he

/-! ### makeCredential -/

/-- The credential is still there, as it was unless its id was drawn again. -/
structure Retained (env : Env) (b : Authenticator) (e : Bytes × Json) (a : Authenticator) :
    Prop where
  stored : ∃ c, (e.1, c) ∈ a.store
  same : e.1 ≠ env.id.toList → e ∈ a.store
  key : e.1 ∈ b.keys → e.1 ∈ a.keys

/-- After a registration, with or without the new credential. -/
structure Registration.Leaves (env : Env) (r : Registration) (rpId : Text) (b : Authenticator)
    (w : World) : Prop where
  unique : w.store.Unique
  retained : ∀ e ∈ b.store, e.1 ∉ r.old rpId (env.entries b.store) →
    Retained env b e w.toAuthenticator

section MakeCredential

variable {sha : Sha256} {env : Env} {b : Authenticator}

theorem leaves_swept (hb : b.store.Unique) {r : Registration} {rpId : Text} {w : World}
    (hw : Swept b (r.old rpId (env.entries b.store)) w) : r.Leaves env rpId b w := by
  constructor
  · rw [hw.store]
    exact hb.filter _
  · intro e he hnot
    have hstored : e ∈ w.store := by
      rw [hw.store]
      exact List.mem_filter.mpr ⟨he, decide_eq_true hnot⟩
    exact ⟨⟨e.2, hstored⟩, fun _ => hstored, fun hkey => hw.spared e.1 hkey hnot⟩

/-- Where all entries were read, the account has no credential left. -/
theorem account_swept (hentries : (env.entries b.store).Perm b.store) {r : Registration}
    {rpId : Text} (hrk : r.rk = true) (hreads : r.Reads rpId (env.entries b.store)) {uid : Bytes}
    (huid : userId r.user = .ok uid) {w : World}
    (hw : Swept b (r.old rpId (env.entries b.store)) w) {e : Bytes × Json} (he : e ∈ w.store) :
    ¬ e.2.Of rpId uid := by
  intro hof
  obtain ⟨uid', huid', hlegible⟩ := hreads hrk
  obtain rfl : uid = uid' := Except.ok.inj (huid.symm.trans huid')
  rw [hw.store, Registration.old, if_pos hrk, huid, List.mem_filter] at he
  have hlisted : e ∈ env.entries b.store := hentries.symm.subset he.1
  exact of_decide_eq_true he.2 (oldIds_complete hlegible hlisted hof)

theorem leaves_stored (hb : b.store.Unique) (hentries : (env.entries b.store).Perm b.store)
    {r : Registration} {rpId : Text} (hreads : r.Reads rpId (env.entries b.store)) {s w : World}
    (hs : Swept b (r.old rpId (env.entries b.store)) s) (hw : r.Stored env rpId s w) :
    r.Leaves env rpId b w := by
  have hleaves := leaves_swept hb hs
  have hkeys : ∀ k ∈ s.keys, k ∈ w.keys := by
    intro k hk
    rw [hw.keys]
    exact List.mem_append_left _ hk
  rcases hw.store with hsame | ⟨uid, c, huid, hrk, hrp, hcuid, hput⟩
  · constructor
    · exact hsame ▸ hleaves.unique
    · intro e he hnot
      have hretained := hleaves.retained e he hnot
      exact ⟨hsame ▸ hretained.stored, hsame ▸ hretained.same,
        fun hkey => hkeys _ (hretained.key hkey)⟩
  · constructor
    · rw [hput]
      apply hleaves.unique.put
      rintro e he - rpId' uid' heof ⟨hcrk, hcrp, hcuid'⟩
      have hdiscoverable : r.rk = true := Option.some.inj (hrk.symm.trans hcrk)
      obtain rfl : rpId = rpId' := Option.some.inj (hrp.symm.trans hcrp)
      obtain rfl : uid = uid' := Option.some.inj (hcuid.symm.trans hcuid')
      exact account_swept hentries hdiscoverable hreads huid hs he heof
    · intro e he hnot
      have hretained := hleaves.retained e he hnot
      refine ⟨?_, ?_, fun hkey => hkeys _ (hretained.key hkey)⟩
      · by_cases hid : e.1 = env.id.toList
        · exact ⟨c, by rw [hput, hid]; exact mem_putString_self _ _ _⟩
        · obtain ⟨c', hstored⟩ := hretained.stored
          exact ⟨c', by rw [hput]; exact mem_putString_other hstored hid⟩
      · intro hid
        rw [hput]
        exact mem_putString_other (hretained.same hid) hid

theorem store_leaves (hb : b.store.Unique) (hentries : (env.entries b.store).Perm b.store)
    (r : Registration) (rpId : Text) (hreads : r.Reads rpId (env.entries b.store)) :
    Triple (Swept b (r.old rpId (env.entries b.store))) (create.store sha env r rpId)
      (fun _ => r.Leaves env rpId b) (r.Leaves env rpId b) := by
  apply Triple.fix
  intro s hs
  apply (store_stores r rpId s).consequence (fun _ hw => hw)
  · intro _ w hw
    exact leaves_stored hb hentries hreads hs hw.2.2.2
  · rintro w (⟨-, rfl⟩ | ⟨-, -, hstored⟩)
    · exact leaves_swept hb hs
    · exact leaves_stored hb hentries hreads hs hstored

theorem create_leaves (hb : b.store.Unique) (hentries : (env.entries b.store).Perm b.store)
    (r : Registration) (rpId : Text) :
    Triple (Untouched b) (create sha env r rpId) (fun _ => r.Leaves env rpId b)
      (r.Leaves env rpId b) := by
  unfold create
  refine Triple.bind (R := fun got w => got.store = b.store ∧ Untouched b w)
    (Triple.get fun w hw => ⟨hw.1, hw⟩) fun got => Triple.assume fun hgot => ?_
  rw [hgot]
  apply Triple.ite
  · intro hrk
    apply Triple.ofExcept_bind
    · intro uid huid
      have hold : r.old rpId (env.entries b.store) = oldIds rpId uid (env.entries b.store) := by
        rw [Registration.old, if_pos hrk, huid]
      refine Triple.bind ((replaceOld_sweeps rpId uid (env.entries b.store)).consequence
        (fun _ hw => hw) (fun _ _ hw => hw) fun w hw => leaves_swept hb (hold ▸ hw.2))
        fun _ => Triple.assume fun hlegible => ?_
      rw [← hold]
      exact store_leaves hb hentries r rpId fun _ => ⟨uid, huid, hlegible⟩
    · intro e he w hw
      have hnone : r.old rpId (env.entries b.store) = [] := by
        rw [Registration.old, if_pos hrk, he]
      exact leaves_swept hb (hnone ▸ hw.swept)
  · intro hrk
    have hnone : r.old rpId (env.entries b.store) = [] := by
      rw [Registration.old, if_neg hrk]
    refine (store_leaves hb hentries r rpId fun h => absurd h hrk).consequence
      (fun w hw => ?_) (fun _ _ hw => hw) fun _ hw => hw
    exact hnone ▸ hw.swept

/-- Nothing happened, or a registration that the user approved. -/
def MayRegister (env : Env) (b : Authenticator) (p : Option Object) (w : World) : Prop :=
  Untouched b w ∨ ∃ r rpId, Registers env b.store p r rpId ∧ r.Leaves env rpId b w

theorem makeCredential_leaves (hb : b.store.Unique)
    (hentries : (env.entries b.store).Perm b.store) (p : Option Object) :
    Triple (Untouched b) (makeCredential sha env p) (fun _ => MayRegister env b p)
      (MayRegister env b p) := by
  unfold makeCredential
  apply Triple.ofExcept_bind
  · intro object hobject
    obtain rfl := nonNull_ok hobject
    apply Triple.ofExcept_bind
    · intro parameters hread
      cases parameters with
      | error status => exact Triple.pure fun w hw => .inl hw
      | ok r =>
          refine Triple.bind (R := fun got w => got.store = b.store ∧ Untouched b w)
            (Triple.get fun w hw => ⟨hw.1, hw⟩) fun got => Triple.assume fun hgot => ?_
          rw [hgot]
          apply Triple.ofExcept_bind
          · intro already halready
            apply Triple.ofExcept_bind
            · intro rpId hrp
              apply Triple.ite
              · intro _
                exact Triple.bind (confirm_untouched rpId _ _) fun s =>
                  Triple.pure fun w hw => .inl hw.2
              · intro hnew
                refine Triple.bind (confirm_untouched rpId _ _) fun s =>
                  Triple.assume fun hs => ?_
                apply Triple.ite
                · intro _
                  exact Triple.pure fun w hw => .inl hw
                · intro happroved
                  have hregisters : Registers env b.store (some object) r rpId :=
                    ⟨⟨object, rfl, hread⟩, by simpa [hnew] using halready, nonNull_ok hrp,
                      hs ▸ not_not.mp happroved⟩
                  exact (create_leaves hb hentries r rpId).consequence (fun _ hw => hw)
                    (fun _ _ hw => .inr ⟨r, rpId, hregisters, hw⟩)
                    fun _ hw => .inr ⟨r, rpId, hregisters, hw⟩
            · exact fun _ _ w hw => .inl hw
          · exact fun _ _ w hw => .inl hw
    · exact fun _ _ w hw => .inl hw
  · exact fun _ _ w hw => .inl hw

end MakeCredential

/-! ### The other commands -/

section Assertions

variable {sha : Sha256} {env : Env}

/-- No account has two discoverable credentials. -/
abbrev unique (w : World) : Prop :=
  w.store.Unique

/-- Counting an assertion keeps the account of a credential; an id that is not
stored gets an entry of no account. -/
theorem unique_counted {store : Store} (h : store.Unique) (id : Bytes) (n : Nat) :
    (store.putString id {(store.find id).getD {} with n := some n}).Unique := by
  apply h.put
  intro e he hid rpId uid heof hof
  have hof' : ((store.find id).getD {}).Of rpId uid := hof
  cases hfind : store.find id with
  | none =>
      rw [hfind] at hof'
      cases hof'.1
  | some c =>
      rw [hfind] at hof'
      obtain ⟨e', hfound, rfl⟩ := Option.map_eq_some_iff.mp hfind
      have hid' : e'.1 = id := by simpa using List.find?_some hfound
      have hne : e.1 ≠ e'.1 := fun heq => hid (heq.trans hid')
      exact h.account_ne he (List.mem_of_find?_eq_some hfound) hne heof hof'

theorem assertion_unique (id : Bytes) (rpId : Text) (cdh : Bytes) (flags : UInt8) (count : Nat)
    (withUser : Bool) :
    Triple unique (assertion sha env id rpId cdh flags count withUser) (fun _ => unique)
      unique := by
  unfold assertion
  refine Triple.bind (R := fun got w => w = got ∧ unique w) (Triple.get fun w hw => ⟨rfl, hw⟩)
    fun got => ?_
  refine Triple.bind (R := fun _ => unique) (Triple.update ?_) fun _ => ?_
  · rintro w ⟨rfl, hw⟩
    exact unique_counted hw id _
  · apply Triple.ite
    · intro _
      exact Triple.throw fun _ hw => hw
    · intro _
      refine Triple.bind ((sign_kept (fun _ _ hw => hw) id _ cdh).consequence (fun _ hw => hw)
        (fun _ _ hw => hw) fun _ hw => hw.2) fun sig => Triple.assume fun _ => ?_
      apply Triple.ite
      · intro _
        apply Triple.ofExcept_bind
        · intro uid _
          exact Triple.pure fun _ hw => hw
        · exact fun _ _ _ hw => hw
      · intro _
        exact Triple.pure fun _ hw => hw

theorem answer_unique (q : SignIn) (first : Bytes) (rest : List Bytes) :
    Triple unique (answer sha env q first rest) (fun _ => unique) unique := by
  unfold answer
  refine Triple.bind (R := fun _ => unique) (Triple.update fun _ hw => hw) fun _ => ?_
  refine Triple.bind (assertion_unique first q.rpId q.cdh q.flags _ _) fun m => ?_
  exact Triple.ofExcept (fun _ _ _ hw => hw) fun _ hw => hw

theorem confirm_unique {E : World → Prop} (rpId title suffix : Text) :
    Triple unique (confirm env rpId title suffix) (fun _ => unique) E := by
  unfold confirm
  exact Triple.bind (Triple.update fun _ hw => hw) fun _ => Triple.pure fun _ hw => hw

theorem getAssertion_unique (p : Option Object) :
    Triple unique (getAssertion sha env p) (fun _ => unique) unique := by
  unfold getAssertion
  apply Triple.ofExcept_bind
  · intro object _
    apply Triple.ofExcept_bind
    · intro parameters _
      cases parameters with
      | error status => exact Triple.pure fun _ hw => hw
      | ok q =>
          refine Triple.bind (R := fun _ => unique) (Triple.get fun _ hw => hw) fun got => ?_
          apply Triple.ofExcept_bind
          · intro found _
            cases found with
            | nil =>
                apply Triple.ite
                · intro _
                  exact Triple.bind (confirm_unique _ _ _) fun _ => Triple.pure fun _ hw => hw
                · intro _
                  exact Triple.pure fun _ hw => hw
            | cons first rest =>
                apply Triple.ite
                · intro _
                  refine Triple.bind (confirm_unique _ _ _) fun s => ?_
                  apply Triple.ite
                  · intro _
                    exact Triple.pure fun _ hw => hw
                  · intro _
                    exact answer_unique q first rest
                · intro _
                  exact answer_unique q first rest
          · exact fun _ _ _ hw => hw
    · exact fun _ _ _ hw => hw
  · exact fun _ _ _ hw => hw

theorem getNextAssertion_unique :
    Triple unique (getNextAssertion sha env) (fun _ => unique) unique := by
  unfold getNextAssertion
  refine Triple.bind (R := fun _ => unique) (Triple.get fun _ hw => hw) fun got => ?_
  cases got.pending with
  | nil => exact Triple.pure fun _ hw => hw
  | cons id rest =>
      refine Triple.bind (R := fun _ => unique) (Triple.update fun _ hw => hw) fun _ => ?_
      apply Triple.ofExcept_bind
      · intro rpId _
        apply Triple.ofExcept_bind
        · intro cdh _
          refine Triple.bind (assertion_unique id rpId cdh got.pendingFlags 0 true) fun m => ?_
          exact Triple.ofExcept (fun _ _ _ hw => hw) fun _ hw => hw
        · exact fun _ _ _ hw => hw
      · exact fun _ _ _ hw => hw

end Assertions

/-! ### Every sequence of calls -/

/-- The entries of the store are listed in some order; nothing else is asked of
a call. -/
def Happening.Listed (_ : Authenticator) : Happening → Prop
  | .call c => ∀ store, (c.env.entries store).Perm store
  | .restart => True

section Calls

variable {sha : Sha256} {c : Call} {a : Authenticator}

theorem dispatch_unique (ha : a.store.Unique) (hentries : (c.env.entries a.store).Perm a.store)
    (cmd : UInt8) (req : Bytes) :
    Triple (Untouched a) (dispatch sha c.env cmd req) (fun _ => unique) unique := by
  have hsame (w : World) (hw : Untouched a w) : unique w := by
    unfold unique
    rw [hw.1]
    exact ha
  unfold dispatch
  apply Triple.ofExcept_bind
  · intro p _
    apply Triple.ite
    · intro _
      exact Triple.ofExcept (fun _ _ w hw => hsame w hw) hsame
    · intro _
      apply Triple.ite
      · intro _
        have hmade (w : World) (hw : MayRegister c.env a p w) : unique w := by
          rcases hw with hw | ⟨r, rpId, -, hleaves⟩
          · exact hsame w hw
          · exact hleaves.unique
        exact (makeCredential_leaves ha hentries p).consequence (fun _ hw => hw)
          (fun _ w hw => hmade w hw) hmade
      · intro _
        apply Triple.ite
        · intro _
          exact (getAssertion_unique p).consequence hsame (fun _ _ hw => hw) fun _ hw => hw
        · intro _
          apply Triple.ite
          · intro _
            exact getNextAssertion_unique.consequence hsame (fun _ _ hw => hw) fun _ hw => hw
          · intro _
            exact Triple.pure hsame
  · intro _ _ w hw
    exact hsame w hw

theorem handle_unique (ha : a.store.Unique) (hentries : (c.env.entries a.store).Perm a.store) :
    (handle sha c.env c.req c.owner a).2.store.Unique := by
  cases hcmd : c.cmd with
  | none =>
      obtain hreq : c.req = [] := List.head?_eq_none_iff.mp hcmd
      rw [hreq]
      exact ha
  | some cmd =>
      apply Call.handled (Q := fun _ b => b.store.Unique) hcmd
      apply (dispatch_unique ha hentries cmd c.req).consequence
      · rintro w rfl
        exact ⟨rfl, rfl⟩
      · exact fun _ _ hw => hw
      · exact fun _ hw _ => hw

theorem unique_reachable
    (h : Reach (Authenticator.next sha) Happening.Listed (.fresh [] []) a) : a.store.Unique := by
  apply h.invariant
  · exact Store.Unique.nil
  · intro t e u ht hlisted hnext
    cases e with
    | call c =>
        cases hnext
        exact handle_unique ht (hlisted t.store)
    | restart =>
        cases hnext
        exact ht

/-- The request registers a discoverable credential that replaces this one. -/
def Call.Replaces (c : Call) (a : Authenticator) (e : Bytes × Json) : Prop :=
  ∃ p r rpId uid, parameters c.req = .ok p ∧ Registers c.env a.store p r rpId ∧ r.rk = true ∧
    userId r.user = .ok uid ∧ e.2.Of rpId uid

theorem replaces_of_old (ha : a.store.Unique) (hentries : (c.env.entries a.store).Perm a.store)
    {p : Option Object} (hp : parameters c.req = .ok p) {r : Registration} {rpId : Text}
    (hregisters : Registers c.env a.store p r rpId) {e : Bytes × Json} (he : e ∈ a.store)
    (hold : e.1 ∈ r.old rpId (c.env.entries a.store)) : c.Replaces a e := by
  unfold Registration.old at hold
  split at hold
  · rename_i hrk
    split at hold
    · rename_i uid huid
      obtain ⟨e', he', hid, hof⟩ := mem_oldIds hold
      obtain rfl := ha.entry_eq (hentries.subset he') he hid
      exact ⟨p, r, rpId, uid, hp, hregisters, hrk, huid, hof⟩
    · cases hold
  · cases hold

theorem retained_refl (e : Bytes × Json) (he : e ∈ a.store) {b : Authenticator}
    (hstore : b.store = a.store) (hkeys : b.keys = a.keys) : Retained c.env a e b :=
  ⟨⟨e.2, hstore ▸ he⟩, fun _ => hstore ▸ he, fun hkey => hkeys ▸ hkey⟩

theorem handle_retains (ha : a.store.Unique) (hentries : (c.env.entries a.store).Perm a.store)
    (hcmd : c.cmd = some 0x01) {e : Bytes × Json} (he : e ∈ a.store) (hother : ¬ c.Replaces a e) :
    Retained c.env a e (handle sha c.env c.req c.owner a).2 := by
  have hsame (w : World) (hw : Untouched a w) : Retained c.env a e w.toAuthenticator :=
    retained_refl e he hw.1 hw.2
  apply Call.handled (Q := fun _ b => Retained c.env a e b) hcmd
  unfold dispatch
  apply Triple.ofExcept_bind
  · intro p hp
    have hmade (w : World) (hw : MayRegister c.env a p w) :
        Retained c.env a e w.toAuthenticator := by
      rcases hw with hw | ⟨r, rpId, hregisters, hleaves⟩
      · exact hsame w hw
      · refine hleaves.retained e he fun hold => hother ?_
        exact replaces_of_old ha hentries hp hregisters he hold
    apply (makeCredential_leaves ha hentries p).consequence
    · rintro w rfl
      exact ⟨rfl, rfl⟩
    · exact fun _ w hw => hmade w hw
    · exact fun w hw _ => hmade w hw
  · rintro _ _ w rfl _
    exact hsame _ ⟨rfl, rfl⟩

/-- Whatever was asked, approved, refused or failed before, no account has two
discoverable credentials, and a makeCredential leaves all others than the one
that it replaces. -/
theorem one_for_each_account
    (hrun : Reach (Authenticator.next sha) Happening.Listed (.fresh [] []) a) :
    a.store.Unique ∧ ∀ c : Call, c.cmd = some 0x01 →
      (∀ store, (c.env.entries store).Perm store) → ∀ e ∈ a.store, ¬ c.Replaces a e →
        Retained c.env a e (handle sha c.env c.req c.owner a).2 := by
  have ha := unique_reachable hrun
  refine ⟨ha, ?_⟩
  intro c hcmd hentries e he hother
  exact handle_retains ha (hentries a.store) hcmd he hother

end Calls

/-- A user who approves, on a phone that draws this id for a new credential. -/
def drawing (id : UInt8) : Env :=
  {signing with id := Vector.replicate 16 id}

/-- Two users have registered, and the first one registers once more. -/
def registeredTwice : Authenticator :=
  (handle zeroDigest (drawing 8) registerOther 0
    (handle zeroDigest (drawing 9) registerDiscoverable 0 (.fresh [] [])).2).2

def registeringAgain : Call :=
  ⟨drawing 7, registerDiscoverable, 0⟩

/-- The new credential takes the place of the first user's; that of the other
user is kept. -/
theorem replaced_once : ∃ a,
    Reach (Authenticator.next zeroDigest) Happening.Listed (.fresh [] []) a ∧
    a.store.map (fun e => (e.1.head?, e.2.uid)) = [(some 9, some [7]), (some 8, some [8])] ∧
    a.store.Unique ∧
    (∀ e ∈ a.store, e.2.uid = some [8] → Retained registeringAgain.env a e
      (handle zeroDigest registeringAgain.env registeringAgain.req 0 a).2) ∧
    (handle zeroDigest registeringAgain.env registeringAgain.req 0 a).2.store.map
      (fun e => (e.1.head?, e.2.uid)) = [(some 8, some [8]), (some 7, some [7])] := by
  have hrun : Reach (Authenticator.next zeroDigest) Happening.Listed (.fresh [] [])
      registeredTwice := by
    refine Reach.tail (e := .call ⟨drawing 8, registerOther, 0⟩) ?_ signing_lawful.entries rfl
    exact Reach.tail (e := .call ⟨drawing 9, registerDiscoverable, 0⟩) .refl
      signing_lawful.entries rfl
  obtain ⟨hunique, hkept⟩ := one_for_each_account hrun
  refine ⟨registeredTwice, hrun, by decide +kernel, hunique, fun e he hother => ?_,
    by decide +kernel⟩
  refine hkept registeringAgain rfl signing_lawful.entries e he ?_
  rintro ⟨p, r, rpId, uid, hp, hregisters, -, huid, -, -, hmine⟩
  have hfirst : (registrationIn registeringAgain.req).all (fun r =>
      (userId r.user).toOption = some [7]) = true := by
    decide +kernel
  rw [hregisters.asked hp, Option.all_some, huid] at hfirst
  have hseven : uid = [7] := Option.some.inj (of_decide_eq_true hfirst)
  rw [hother, hseven] at hmine
  cases hmine

end Passkey.Phone

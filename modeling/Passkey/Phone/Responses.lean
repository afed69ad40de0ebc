import Passkey.Daemon.Frames
import Passkey.Phone.KeyService

/-!
How long the phone's responses get. The daemon drops a link on which a body of
more than 8192 bytes arrives, and the phone does not look at the length of what
it sends. Every response fits but an assertion that returns a stored user whose
names are too long; they may be, for text that is not UTF-8 grows when it is
decoded.
-/

namespace Passkey.Phone

open Library

/-! ### Lengths of encodings -/

namespace Cbor

def headLength (v : Nat) : Nat :=
  if v < 24 then 1
  else if v < 0x100 then 2
  else if v < 0x10000 then 3
  else if v < 0x100000000 then 5
  else 9

/-- A byte string or text of `n` bytes with its head. -/
def stringLength (n : Nat) : Nat :=
  headLength n + n

theorem length_head (major v : Nat) : (head major v).length = headLength v := by
  unfold head headLength
  split_ifs <;> simp

mutual

/-- The length of what the encoder writes. -/
def encodedLength : Value → Except Thrown Nat
  | .int v => .ok (headLength (if 0 ≤ v then v.toNat else (-1 - v).toNat))
  | .bytes b => .ok (stringLength b.length)
  | .text s => .ok (stringLength (utf8 s).length)
  | .array l => do
      let n ← itemsLength l
      return headLength l.length + n
  | .map m => do
      let n ← entriesLength m
      return headLength m.length + n
  | .bool _ => .ok 1
  | .null => .error .illegalArgument

def itemsLength : List Value → Except Thrown Nat
  | [] => .ok 0
  | x :: rest => do
      let first ← encodedLength x
      let others ← itemsLength rest
      return first + others

def entriesLength : List (Value × Value) → Except Thrown Nat
  | [] => .ok 0
  | (k, v) :: rest => do
      let key ← encodedLength k
      let value ← encodedLength v
      let others ← entriesLength rest
      return key + value + others

end

/-- The bytes of the entries of a map, in any order. -/
def entryBytes (kv : List (Bytes × Bytes)) : Nat :=
  (kv.flatMap fun p => p.1 ++ p.2).length

theorem entryBytes_perm {kv sorted : List (Bytes × Bytes)} (h : sorted.Perm kv) :
    entryBytes sorted = entryBytes kv :=
  (h.flatMap_right _).length_eq

theorem length_of_writeEntries {m : List (Value × Value)} {kv : List (Bytes × Bytes)}
    (h : writeEntries m = .ok kv) : kv.length = m.length := by
  induction m generalizing kv with
  | nil =>
      cases h
      rfl
  | cons e rest ih =>
      obtain ⟨key, -, h⟩ := bind_ok h
      obtain ⟨value, -, h⟩ := bind_ok h
      obtain ⟨others, hrest, h⟩ := bind_ok h
      cases h
      rw [List.length_cons, List.length_cons, ih hrest]

mutual

theorem length_write (v : Value) : (write v).map List.length = encodedLength v := by
  cases v with
  | int v =>
      rw [write, encodedLength]
      split <;> exact congrArg _ (length_head _ _)
  | bytes b => simp [write, encodedLength, Except.map, length_head, stringLength]
  | text s => simp [write, encodedLength, Except.map, length_head, stringLength]
  | bool b => rfl
  | null => rfl
  | array l =>
      have hitems := length_writeItems l
      rw [write, encodedLength, ← hitems]
      cases writeItems l with
      | error e => rfl
      | ok items => simp [Except.map, bind, Except.bind, pure, Except.pure, length_head]
  | map m =>
      have hentries := length_writeEntries m
      rw [write, encodedLength, ← hentries]
      cases hwrite : writeEntries m with
      | error e => rfl
      | ok kv =>
          rw [hwrite] at hentries
          have hsorted := entryBytes_perm (List.perm_insertionSort keyLe kv)
          have hcount := length_of_writeEntries hwrite
          simp only [entryBytes] at hsorted
          simp [Except.map, bind, Except.bind, pure, Except.pure, length_head, hcount, entryBytes,
            hsorted]

theorem length_writeItems (l : List Value) :
    (writeItems l).map List.length = itemsLength l := by
  cases l with
  | nil => rfl
  | cons x rest =>
      have hfirst := length_write x
      have hothers := length_writeItems rest
      rw [writeItems, itemsLength, ← hfirst, ← hothers]
      cases write x with
      | error e => rfl
      | ok first =>
          cases writeItems rest with
          | error e => rfl
          | ok others => simp [Except.map, bind, Except.bind, pure, Except.pure]

theorem length_writeEntries (m : List (Value × Value)) :
    (writeEntries m).map entryBytes = entriesLength m := by
  match m with
  | [] => rfl
  | (k, v) :: rest =>
      have hkey := length_write k
      have hvalue := length_write v
      have hothers := length_writeEntries rest
      rw [writeEntries, entriesLength, ← hkey, ← hvalue, ← hothers]
      cases write k with
      | error e => rfl
      | ok key =>
          cases write v with
          | error e => rfl
          | ok value =>
              cases writeEntries rest with
              | error e => rfl
              | ok others =>
                  simp [Except.map, bind, Except.bind, pure, Except.pure, entryBytes]
                  omega

end

theorem entriesLength_append {m m' : List (Value × Value)} {n n' : Nat}
    (h : entriesLength m = .ok n) (h' : entriesLength m' = .ok n') :
    entriesLength (m ++ m') = .ok (n + n') := by
  induction m generalizing n with
  | nil =>
      cases h
      simpa using h'
  | cons e rest ih =>
      obtain ⟨key, hkey, h⟩ := bind_ok h
      obtain ⟨value, hvalue, h⟩ := bind_ok h
      obtain ⟨others, hrest, h⟩ := bind_ok h
      cases h
      rw [List.cons_append, entriesLength, hkey, hvalue, ih hrest, Nat.add_assoc]
      rfl

end Cbor

/-! ### Which responses are long -/

/-- What `assertion` is called with for a reply that returns its user. -/
structure Asserted where
  id : Bytes
  rpId : Text
  cdh : Bytes
  flags : UInt8
  count : Nat

/-- The assertion that a command is answered with: the newest credential of a
site, or the next one of the pending chain. -/
inductive Asserts (env : Env) (a : Authenticator) (cmd : UInt8) (p : Option Object) :
    Asserted → Prop
  | first {object : Object} {q : SignIn} {id : Bytes} {rest : List Bytes} (hcmd : cmd = 0x02)
      (hobject : p = some object) (hread : readSignIn object = .ok (.ok q))
      (hdiscoverable : q.discoverable = true) (hhits : hits env a.store q = .ok (id :: rest))
      (happroved : (q.up || q.uv) = true → env.decision = Status.ok) :
      Asserts env a cmd p ⟨id, q.rpId, q.cdh, q.flags, rest.length + 1⟩
  | next {id : Bytes} {rest : List Bytes} {rpId : Text} {cdh : Bytes} (hcmd : cmd = 0x08)
      (hpending : a.pending = id :: rest) (hrp : a.pendingRp = some rpId)
      (hhash : a.pendingHash = some cdh) :
      Asserts env a cmd p ⟨id, rpId, cdh, a.pendingFlags, 0⟩

/-- A text under a key of `n` bytes, left out where it is empty. -/
def nameLength (n : Nat) (s : Text) : Nat :=
  if s = [] then 0 else n + Cbor.stringLength (Cbor.utf8 s).length

def userLength (c : Json) (uid : Bytes) (flags : UInt8) : Nat :=
  4 + Cbor.stringLength uid.length +
    if flags &&& 0x04 ≠ 0 then nameLength 5 (c.name.getD []) + nameLength 12 (c.dn.getD []) else 0

def countLength (count : Nat) : Nat :=
  if count > 1 then 1 + Cbor.headLength count else 0

/-- The assertion is made, and what is stored of the user does not fit into
its response: 87 bytes are taken by all that has a fixed length. -/
def Asserted.Long (sha : Sha256) (env : Env) (a : Authenticator) (s : Asserted) : Prop :=
  s.id ∈ a.keys ∧ ∃ c uid sig, a.store.find s.id = some c ∧ c.uid = some uid ∧
    env.sign s.id (authData sha s.rpId s.flags (c.n.getD 0 + 1) ++ s.cdh) = some sig ∧
    KeyService.maxBody < 87 + Cbor.stringLength sig.length + userLength c uid s.flags +
      countLength s.count

/-- A command is answered with an assertion whose user is too long. -/
def Overflows (sha : Sha256) (env : Env) (a : Authenticator) (cmd : UInt8) (p : Option Object) :
    Prop :=
  ∃ s, Asserts env a cmd p s ∧ s.Long sha env a

def Call.Oversized (sha : Sha256) (c : Call) (a : Authenticator) : Prop :=
  ∃ cmd p, c.cmd = some cmd ∧ parameters c.req = .ok p ∧
    Overflows sha c.env (a.enter c.env cmd c.owner) cmd p

/-! ### The lengths of the parts -/

section Parts

open Cbor

theorem entriesLength_name (name : String) (n : Nat) (s : Text)
    (hname : encodedLength (key name) = .ok n) :
    entriesLength (if s = [] then [] else [(key name, .text s)]) = .ok (nameLength n s) := by
  unfold nameLength
  split
  · rfl
  · rw [entriesLength, hname, encodedLength, entriesLength]
    rfl

/-- The names, as `userEntity` returns them. -/
def names (c : Json) : Object :=
  (if c.name.getD [] = [] then [] else [(key "name", .text (c.name.getD []))]) ++
    if c.dn.getD [] = [] then [] else [(key "displayName", .text (c.dn.getD []))]

theorem userEntity_eq (c : Json) (uid : Bytes) (flags : UInt8) :
    userEntity c uid flags
      = [(key "id", .bytes uid)] ++ if flags &&& 0x04 ≠ 0 then names c else [] := rfl

theorem length_user (c : Json) (uid : Bytes) (flags : UInt8) :
    encodedLength (.map (userEntity c uid flags)) = .ok (userLength c uid flags) := by
  have hid : entriesLength [(key "id", .bytes uid)] = .ok (3 + stringLength uid.length) := rfl
  have hname := entriesLength_name "name" 5 (c.name.getD []) rfl
  have hdn := entriesLength_name "displayName" 12 (c.dn.getD []) rfl
  have hfew : (userEntity c uid flags).length < 24 := by
    unfold userEntity
    split_ifs <;> simp
  have hentries : entriesLength (userEntity c uid flags) = .ok (3 + stringLength uid.length +
      if flags &&& 0x04 ≠ 0 then nameLength 5 (c.name.getD []) + nameLength 12 (c.dn.getD [])
      else 0) := by
    rw [userEntity_eq]
    refine entriesLength_append hid ?_
    split
    · exact entriesLength_append hname hdn
    · rfl
  rw [encodedLength, hentries, headLength, if_pos hfew, userLength]
  show Except.ok _ = Except.ok _
  congr 1
  omega

/-- A reply that is a map, by the length of its encoding. -/
theorem ok_of_length {m : Object} {n : Nat} (h : encodedLength (.map m) = .ok n) :
    ∃ r, ok m = .ok r ∧ r.bytes.length = 1 + n := by
  have hwrite := length_write (.map m)
  rw [h] at hwrite
  cases hmap : write (.map m) with
  | error e =>
      rw [hmap] at hwrite
      cases hwrite
  | ok b =>
      rw [hmap] at hwrite
      have hlength : b.length = n := Except.ok.inj hwrite
      refine ⟨{bytes := 0 :: b, returned := some m}, ?_, by simp [hlength, Nat.add_comm]⟩
      rw [ok, encode, hmap]
      rfl

theorem length_authData (sha : Sha256) (rpId : Text) (flags : UInt8) (n : Nat) :
    (authData sha rpId flags n).length = 37 := by
  simp [authData, sha.length_digest]

theorem length_cose (point : Nat × Nat) {cose : Bytes}
    (h : encode (.map (coseKey point)) = .ok cose) : cose.length = 77 := by
  have hwrite := length_write (.map (coseKey point))
  rw [← encode, h] at hwrite
  have hlength : encodedLength (.map (coseKey point)) = .ok 77 := by
    simp [coseKey, encodedLength, entriesLength, headLength, stringLength, bind, Except.bind, pure,
      Except.pure]
  exact Except.ok.inj (hwrite.trans hlength)

theorem length_attestation (ad sig : Bytes) :
    encodedLength (.map [(.int 1, key "packed"), (.int 2, .bytes ad),
      (.int 3, .map [(key "alg", .int (-7)), (key "sig", .bytes sig)])])
      = .ok (1 + (8 + (1 + stringLength ad.length + (1 + (1 + (5 + (4 + stringLength sig.length))))))) :=
  rfl

end Parts

/-! ### What calls rely on -/

/-- What the platform promises: the entries of the store in some order, and
signatures over P-256 in DER, of 72 bytes at most. -/
structure Env.Lawful (env : Env) : Prop where
  entries : ∀ store, (env.entries store).Perm store
  sign : ∀ id data sig, env.sign id data = some sig → sig.length ≤ 72

/-- All ids are of the length that `makeCredential` gives them. -/
structure Authenticator.Sized (a : Authenticator) : Prop where
  store : ∀ e ∈ a.store, e.1.length = 16
  pending : ∀ id ∈ a.pending, id.length = 16

/-- `read_link` takes the response to a REQ as one message. -/
def Accepted (body : Bytes) : Prop :=
  body.length ≤ Daemon.maxBody ∧
    ∀ rest, readFrame Daemon.maxBody (frame body ++ rest) = .message body rest

/-- The response to a REQ has five bytes before the reply. -/
def Reply.Fits (r : Reply) : Prop :=
  r.bytes.length + 5 ≤ KeyService.maxBody

theorem fits_err (status : Int) : (err status).Fits := by
  show 1 + 5 ≤ 8192
  omega

theorem fits_ok {m : Object} {r : Reply} {n : Nat} (h : ok m = .ok r)
    (hn : Cbor.encodedLength (.map m) = .ok n) : r.Fits ↔ n + 6 ≤ KeyService.maxBody := by
  obtain ⟨r', hr', hlength⟩ := ok_of_length hn
  obtain rfl : r = r' := Except.ok.inj (h.symm.trans hr')
  rw [Reply.Fits, hlength]
  omega

theorem mem_putString {store : Store} {id : Bytes} {c : Json} {e : Bytes × Json}
    (h : e ∈ store.putString id c) : e = (id, c) ∨ e ∈ store := by
  unfold Store.putString at h
  split at h
  · obtain ⟨e', hmem, heq⟩ := List.mem_map.mp h
    split at heq
    · exact .inl heq.symm
    · exact .inr (heq ▸ hmem)
  · rcases List.mem_append.mp h with hold | hnew
    · exact .inr hold
    · exact .inl (List.mem_singleton.mp hnew)

theorem mem_of_find {store : Store} {id : Bytes} {c : Json} (h : store.find id = some c) :
    ∃ e ∈ store, e.1 = id := by
  obtain ⟨e, hfound, -⟩ := Option.map_eq_some_iff.mp h
  exact ⟨e, List.mem_of_find?_eq_some hfound, by simpa using List.find?_some hfound⟩

section Specs

variable {sha : Sha256} {env : Env} {α : Type}

abbrev sized (w : World) : Prop :=
  w.toAuthenticator.Sized

theorem ofExcept_sized {E : World → Prop} (x : Except Thrown α) (herror : ∀ w, sized w → E w) :
    Triple sized (MonadExcept.ofExcept x : Java α) (fun a w => x = .ok a ∧ sized w) E :=
  Triple.ofExcept (fun _ h _ hw => ⟨h, hw⟩) herror

theorem note_sized {E : World → Prop} (e : Effect) :
    Triple sized (note e) (fun _ => sized) E :=
  Triple.update fun _ hw => ⟨hw.store, hw.pending⟩

theorem save_sized {E : World → Prop} {id : Bytes} (hid : id.length = 16) (c : Json) :
    Triple sized (save id c) (fun _ => sized) E := by
  refine Triple.update fun w hw => ⟨fun e he => ?_, hw.pending⟩
  rcases mem_putString he with rfl | he
  · exact hid
  · exact hw.store e he

theorem delete_sized {E : World → Prop} (id : Bytes) :
    Triple sized (delete env id) (fun _ => sized) E :=
  Triple.update fun _ hw => ⟨fun e he => hw.store e (List.mem_filter.mp he).1, hw.pending⟩

theorem newKey_sized {E : World → Prop} (id : Bytes) (herror : ∀ w, sized w → E w) :
    Triple sized (newKey env id) (fun _ => sized) E := by
  unfold newKey
  split
  · exact Triple.bind (R := fun _ => sized) (Triple.update fun _ hw => ⟨hw.store, hw.pending⟩)
      fun _ => Triple.pure fun _ hw => hw
  · exact Triple.throw herror

theorem sign_sized {E : World → Prop} (id ad cdh : Bytes)
    (herror : env.sign id (ad ++ cdh) = none → ∀ w, sized w → E w) :
    Triple sized (sign env id ad cdh)
      (fun sig w => env.sign id (ad ++ cdh) = some sig ∧ sized w) E := by
  unfold sign
  split
  · rename_i sig hsig
    exact Triple.bind (note_sized _) fun _ => Triple.pure fun _ hw => ⟨hsig, hw⟩
  · rename_i hsig
    exact Triple.throw (herror hsig)

theorem replaceOld_sized (rpId : Text) (uid : Bytes) (entries : Store) :
    Triple sized (replaceOld env rpId uid entries) (fun _ => sized) sized := by
  induction entries with
  | nil => exact Triple.pure fun _ hw => hw
  | cons e rest ih =>
      unfold replaceOld
      refine Triple.bind (ofExcept_sized _ fun _ hw => hw) fun old => ?_
      refine Triple.assume fun _ => Triple.ite (fun _ => ?_) fun _ => ih
      exact Triple.bind (delete_sized e.1) fun _ => ih

theorem confirm_sized {E : World → Prop} (rpId title suffix : Text) :
    Triple sized (confirm env rpId title suffix) (fun _ => sized) E :=
  Triple.bind (note_sized _) fun _ => Triple.pure fun _ hw => hw

/-! ### makeCredential -/

/-- The length of an attestation does not depend on what is stored. -/
theorem store_sized (henv : env.Lawful) (r : Registration) (rpId : Text) :
    Triple sized (create.store sha env r rpId) (fun reply w => reply.Fits ∧ sized w) sized := by
  unfold create.store
  have hid : env.id.toList.length = 16 := by simp
  refine Triple.bind (newKey_sized _ fun _ hw => hw) fun point => ?_
  refine Triple.bind (ofExcept_sized _ fun _ hw => hw) fun uid => ?_
  refine Triple.assume fun _ => ?_
  refine Triple.bind (save_sized hid _) fun _ => ?_
  refine Triple.bind (note_sized _) fun _ => ?_
  refine Triple.bind (ofExcept_sized _ fun _ hw => hw) fun cose => ?_
  refine Triple.assume fun hcose => ?_
  refine Triple.bind (sign_sized _ _ _ fun _ _ hw => hw) fun sig => ?_
  refine Triple.assume fun hsig => ?_
  refine Triple.ofExcept (fun reply hreply w hw => ⟨?_, hw⟩) fun _ hw => hw
  have hauth : (attestedData sha rpId env.id.toList cose).length = 148 := by
    simp [attestedData, aaguid, sha.length_digest, length_cose point hcose]
  have hshort : sig.length ≤ 72 := henv.sign _ _ _ hsig
  refine (fits_ok hreply (length_attestation _ sig)).mpr ?_
  rw [hauth, KeyService.maxBody]
  unfold Cbor.stringLength Cbor.headLength
  split_ifs <;> omega

theorem create_sized (henv : env.Lawful) (r : Registration) (rpId : Text) :
    Triple sized (create sha env r rpId) (fun reply w => reply.Fits ∧ sized w) sized := by
  unfold create
  refine Triple.bind (R := fun _ => sized) (Triple.get fun _ hw => hw) fun w => ?_
  refine Triple.ite (fun _ => ?_) fun _ => store_sized henv r rpId
  refine Triple.bind (ofExcept_sized _ fun _ hw => hw) fun uid => Triple.assume fun _ => ?_
  exact Triple.bind (replaceOld_sized rpId uid _) fun _ => store_sized henv r rpId

theorem makeCredential_sized (henv : env.Lawful) (p : Option Object) :
    Triple sized (makeCredential sha env p) (fun reply w => reply.Fits ∧ sized w) sized := by
  unfold makeCredential
  refine Triple.bind (ofExcept_sized _ fun _ hw => hw) fun p => Triple.assume fun _ => ?_
  refine Triple.bind (ofExcept_sized _ fun _ hw => hw) fun parameters => Triple.assume fun _ => ?_
  cases parameters with
  | error status => exact Triple.pure fun _ hw => ⟨fits_err status, hw⟩
  | ok r =>
      refine Triple.bind (R := fun _ => sized) (Triple.get fun _ hw => hw) fun w => ?_
      refine Triple.bind (ofExcept_sized _ fun _ hw => hw) fun already => Triple.assume fun _ => ?_
      refine Triple.bind (ofExcept_sized _ fun _ hw => hw) fun rpId => Triple.assume fun _ => ?_
      refine Triple.ite (fun _ => ?_) fun _ => ?_
      · exact Triple.bind (confirm_sized rpId _ _) fun s => Triple.pure fun _ hw => ⟨fits_err _, hw⟩
      · refine Triple.bind (confirm_sized rpId _ _) fun s => ?_
        exact Triple.ite (fun _ => Triple.pure fun _ hw => ⟨fits_err s, hw⟩)
          fun _ => create_sized henv r rpId

/-! ### Assertions -/

/-- The store and the keys are as they were. -/
def Kept (a : Authenticator) (w : World) : Prop :=
  (w.store = a.store ∧ w.keys = a.keys) ∧ sized w

theorem length_assertion {id : Bytes} (hid : id.length = 16) (ad sig : Bytes)
    (had : ad.length = 37) {more : Object} {n : Nat} (hmore : Cbor.entriesLength more = .ok n)
    (hfew : more.length < 3) :
    Cbor.encodedLength (.map ([(.int 1, .map [(key "type", key "public-key"), (key "id", .bytes id)]),
      (.int 2, .bytes ad), (.int 3, .bytes sig)] ++ more))
      = .ok (80 + Cbor.stringLength sig.length + n) := by
  have hfirst : Cbor.entriesLength
      [(.int 1, .map [(key "type", key "public-key"), (key "id", .bytes id)]),
        (.int 2, .bytes ad), (.int 3, .bytes sig)] = .ok (79 + Cbor.stringLength sig.length) := by
    have hparts : Cbor.entriesLength
        [(.int 1, .map [(key "type", key "public-key"), (key "id", .bytes id)]),
          (.int 2, .bytes ad), (.int 3, .bytes sig)]
          = .ok (1 + (1 + (5 + 11 + (3 + Cbor.stringLength id.length + 0))) +
            (1 + Cbor.stringLength ad.length + (1 + Cbor.stringLength sig.length + 0))) := rfl
    have hshort : Cbor.stringLength 16 = 17 ∧ Cbor.stringLength 37 = 39 := ⟨rfl, rfl⟩
    rw [hparts, hid, had, hshort.1, hshort.2]
    show Except.ok _ = Except.ok _
    congr 1
    omega
  have hentries := Cbor.entriesLength_append hfirst hmore
  rw [Cbor.encodedLength, hentries, Cbor.headLength, if_pos (by simp; omega)]
  show Except.ok _ = Except.ok _
  congr 1
  omega

theorem entriesLength_count (count : Nat) :
    Cbor.entriesLength (if count > 1 then [(.int 5, .int count)] else [])
      = .ok (countLength count) := by
  unfold countLength
  split
  · rename_i hcount
    have hpos : (0 : Int) ≤ count := by omega
    rw [Cbor.entriesLength, Cbor.encodedLength, Cbor.encodedLength, if_pos hpos, Int.toNat_natCast,
      Cbor.entriesLength]
    rfl
  · rfl

theorem entriesLength_user (c : Json) (uid : Bytes) (flags : UInt8) :
    Cbor.entriesLength [(.int 4, .map (userEntity c uid flags))]
      = .ok (1 + userLength c uid flags) := by
  rw [Cbor.entriesLength, length_user]
  rfl

theorem find_of_uid {store : Store} {id uid : Bytes}
    (h : ((store.find id).getD {}).uid = some uid) :
    store.find id = some ((store.find id).getD {}) := by
  cases hfind : store.find id with
  | none =>
      rw [hfind] at h
      cases h
  | some c => rfl

/-- With its user, an assertion fits unless it is a long one. -/
theorem assertion_sized {b : Authenticator} {s : Asserted} (hid : s.id.length = 16) :
    Triple (Kept b) (assertion sha env s.id s.rpId s.cdh s.flags s.count true)
      (fun m w => (∃ n, Cbor.encodedLength (.map m) = .ok n ∧
        (n + 6 ≤ KeyService.maxBody ↔ ¬ s.Long sha env b)) ∧ sized w)
      (fun w => ¬ s.Long sha env b ∧ sized w) := by
  unfold assertion
  refine Triple.bind
    (R := fun (got w : World) => (got.store = b.store ∧ got.keys = b.keys) ∧ sized w)
    (Triple.get fun w hw => ⟨hw.1, hw.2⟩) fun w => Triple.assume fun hkept => ?_
  rw [hkept.1, hkept.2]
  obtain ⟨c, hc⟩ : ∃ c, (b.store.find s.id).getD {} = c := ⟨_, rfl⟩
  have hstored {c' : Json} (h : b.store.find s.id = some c') : c' = c := by
    rw [← hc, h, Option.getD_some]
  rw [hc]
  refine Triple.bind (save_sized hid _) fun _ => ?_
  refine Triple.ite (fun hkey => Triple.throw fun w hw => ⟨fun hlong => ?_, hw⟩) fun hkey => ?_
  · exact hkey hlong.1
  refine Triple.bind (sign_sized _ _ _ fun hnone w hw => ⟨fun hlong => ?_, hw⟩) fun sig =>
    Triple.assume fun hsig => ?_
  · obtain ⟨-, c', uid, sig, hfind, -, hsig, -⟩ := hlong
    rw [hstored hfind] at hsig
    exact absurd (hnone.symm.trans hsig) (by simp)
  refine Triple.ite (fun _ => ?_) fun h => absurd rfl h
  cases huid : c.uid with
  | none =>
      refine fun w hw => ⟨fun hlong => ?_, hw⟩
      obtain ⟨-, c', uid, sig, hfind, huid', -⟩ := hlong
      rw [hstored hfind, huid] at huid'
      cases huid'
  | some uid =>
      have hfind : b.store.find s.id = some c := by
        have hfound := @find_of_uid b.store s.id uid
        rw [hc] at hfound
        exact hfound huid
      have hmore := Cbor.entriesLength_append
        (entriesLength_user c uid s.flags) (entriesLength_count s.count)
      have hlength := length_assertion hid
        (authData sha s.rpId s.flags (c.n.getD 0 + 1)) sig (length_authData _ _ _ _) hmore
        (by split <;> simp)
      rw [← List.append_assoc] at hlength
      refine fun w hw => ⟨⟨_, hlength, ?_⟩, hw⟩
      constructor
      · rintro hfits ⟨-, c', uid', sig', hfind', huid', hsig', hlong⟩
        obtain rfl : c' = c := hstored hfind'
        obtain rfl : uid = uid' := Option.some.inj (huid.symm.trans huid')
        obtain rfl : sig = sig' := Option.some.inj (hsig.symm.trans hsig')
        omega
      · intro hshort
        by_contra hlarge
        exact hshort ⟨not_not.mp hkey, c, uid, sig, hfind, huid, hsig, by omega⟩

/-- Without its user, an assertion fits. -/
theorem assertion_short (henv : env.Lawful) {id : Bytes} (hid : id.length = 16) (rpId : Text)
    (cdh : Bytes) (flags : UInt8) :
    Triple sized (assertion sha env id rpId cdh flags 0 false)
      (fun m w => (∃ n, Cbor.encodedLength (.map m) = .ok n ∧ n + 6 ≤ KeyService.maxBody) ∧ sized w)
      sized := by
  unfold assertion
  refine Triple.bind (R := fun _ => sized) (Triple.get fun _ hw => hw) fun w => ?_
  refine Triple.bind (save_sized hid _) fun _ => ?_
  refine Triple.ite (fun _ => Triple.throw fun _ hw => hw) fun _ => ?_
  refine Triple.bind (sign_sized _ _ _ fun _ _ hw => hw) fun sig => Triple.assume fun hsig => ?_
  have hlength := @length_assertion id hid
    (authData sha rpId flags (((w.store.find id).getD {}).n.getD 0 + 1)) sig
    (length_authData _ _ _ _) [] 0 rfl (by decide)
  refine Triple.ite (fun h => absurd h (by decide)) fun _ => ?_
  refine Triple.pure fun w hw => ⟨⟨_, hlength, ?_⟩, hw⟩
  have hshort : sig.length ≤ 72 := henv.sign _ _ _ hsig
  rw [KeyService.maxBody]
  unfold Cbor.stringLength Cbor.headLength
  split_ifs <;> omega

/-! ### The credentials of a sign-in -/

theorem allowed_sized {store : Store} (hstore : ∀ e ∈ store, e.1.length = 16) {rpId : Text}
    {allow : List Value} {found l : List Bytes} (hfound : ∀ id ∈ found, id.length = 16)
    (h : allowed store rpId allow found = .ok l) : ∀ id ∈ l, id.length = 16 := by
  induction allow generalizing found with
  | nil =>
      cases h
      exact hfound
  | cons o rest ih =>
      obtain ⟨entry, -, h⟩ := bind_ok h
      obtain ⟨object, -, h⟩ := bind_ok h
      obtain ⟨id, -, h⟩ := bind_ok h
      cases id with
      | none => exact ih hfound h
      | some id =>
          cases hfind : store.find id with
          | none =>
              rw [Option.bind_some, hfind] at h
              exact ih hfound h
          | some c =>
              rw [Option.bind_some, hfind] at h
              obtain ⟨rp, -, h⟩ := bind_ok h
              refine ih ?_ h
              obtain ⟨e, he, hkey⟩ := mem_of_find hfind
              have hid : id.length = 16 := hkey ▸ hstore e he
              intro x hx
              split at hx
              · rcases List.mem_append.mp hx with hx | hx
                · exact hfound x hx
                · exact List.mem_singleton.mp hx ▸ hid
              · exact hfound x hx

theorem ofSite_sized {rpId : Text} {store : Store} {l : List (Text × Bytes)}
    (h : ofSite rpId store = .ok l) : ∀ x ∈ l, ∃ e ∈ store, e.1 = x.2 := by
  induction store generalizing l with
  | nil =>
      cases h
      simp
  | cons e rest ih =>
      obtain ⟨rp, -, h⟩ := bind_ok h
      obtain ⟨others, hothers, h⟩ := bind_ok h
      cases h
      intro x hx
      split at hx
      · rcases List.mem_cons.mp hx with rfl | hx
        · exact ⟨e, List.mem_cons_self, rfl⟩
        · obtain ⟨e', he', hkey⟩ := ih hothers x hx
          exact ⟨e', List.mem_cons_of_mem _ he', hkey⟩
      · obtain ⟨e', he', hkey⟩ := ih hothers x hx
        exact ⟨e', List.mem_cons_of_mem _ he', hkey⟩

theorem hits_sized (henv : env.Lawful) {store : Store} (hstore : ∀ e ∈ store, e.1.length = 16)
    {q : SignIn} {l : List Bytes} (h : hits env store q = .ok l) : ∀ id ∈ l, id.length = 16 := by
  unfold hits at h
  split at h
  · obtain ⟨rks, hsite, h⟩ := bind_ok h
    cases h
    intro id hid
    obtain ⟨x, hx, rfl⟩ := List.mem_map.mp hid
    obtain ⟨e, he, hkey⟩ := ofSite_sized hsite x ((List.mem_insertionSort _).mp hx)
    exact hkey ▸ hstore e ((henv.entries store).subset he)
  · exact allowed_sized hstore (by simp) h

/-! ### The commands -/

theorem overflows_signIn {b : Authenticator} {object : Object} {q : SignIn}
    (hread : readSignIn object = .ok (.ok q)) :
    Overflows sha env b 0x02 (some object) ↔
      ∃ id rest, hits env b.store q = .ok (id :: rest) ∧ q.discoverable = true ∧
        ((q.up || q.uv) = true → env.decision = Status.ok) ∧
        Asserted.Long sha env b ⟨id, q.rpId, q.cdh, q.flags, rest.length + 1⟩ := by
  constructor
  · rintro ⟨s, hs, hlong⟩
    cases hs with
    | @first object' q' id rest _ hobject hread' hdiscoverable hhits happroved =>
        cases hobject
        obtain rfl : q = q' := by simpa using hread.symm.trans hread'
        exact ⟨id, rest, hhits, hdiscoverable, happroved, hlong⟩
    | next hcmd => cases hcmd
  · rintro ⟨id, rest, hhits, hdiscoverable, happroved, hlong⟩
    exact ⟨_, .first rfl rfl hread hdiscoverable hhits happroved, hlong⟩

theorem overflows_next {b : Authenticator} {p : Option Object} :
    Overflows sha env b 0x08 p ↔
      ∃ id rest rpId cdh, b.pending = id :: rest ∧ b.pendingRp = some rpId ∧
        b.pendingHash = some cdh ∧
        Asserted.Long sha env b ⟨id, rpId, cdh, b.pendingFlags, 0⟩ := by
  constructor
  · rintro ⟨s, hs, hlong⟩
    cases hs with
    | first hcmd => cases hcmd
    | next _ hpending hrp hhash => exact ⟨_, _, _, _, hpending, hrp, hhash, hlong⟩
  · rintro ⟨id, rest, rpId, cdh, hpending, hrp, hhash, hlong⟩
    exact ⟨_, .next rfl hpending hrp hhash, hlong⟩

theorem ok_sized {m : Object} {P : Prop}
    (hm : ∃ n, Cbor.encodedLength (.map m) = .ok n ∧ (n + 6 ≤ KeyService.maxBody ↔ ¬ P)) :
    Triple sized (MonadExcept.ofExcept (ok m) : Java Reply)
      (fun r w => (r.Fits ↔ ¬ P) ∧ sized w) (fun w => ¬ P ∧ sized w) := by
  obtain ⟨n, hn, hiff⟩ := hm
  refine Triple.ofExcept_cases (fun r hr w hw => ⟨(fits_ok hr hn).trans hiff, hw⟩) ?_
  intro e he
  obtain ⟨r, hr, -⟩ := ok_of_length hn
  exact absurd (hr.symm.trans he) (by simp)

variable {b : Authenticator}

theorem answer_sized (henv : env.Lawful) (hb : b.Sized) (q : SignIn) (first : Bytes)
    (rest : List Bytes) (hids : ∀ id ∈ first :: rest, id.length = 16) :
    Triple (fun w => w.toAuthenticator = b) (answer sha env q first rest)
      (fun r w => (r.Fits ↔ ¬ (q.discoverable = true ∧
        Asserted.Long sha env b ⟨first, q.rpId, q.cdh, q.flags, rest.length + 1⟩)) ∧ sized w)
      (fun w => ¬ (q.discoverable = true ∧
        Asserted.Long sha env b ⟨first, q.rpId, q.cdh, q.flags, rest.length + 1⟩) ∧ sized w) := by
  obtain ⟨hfirst, hrest⟩ := List.forall_mem_cons.mp hids
  unfold answer
  refine Triple.bind (R := fun _ => Kept b) ?_ fun _ => ?_
  · apply Triple.update
    rintro w rfl
    refine ⟨⟨rfl, rfl⟩, hb.store, fun id hid => ?_⟩
    dsimp only at hid
    split at hid
    · exact hrest id hid
    · cases hid
  · cases hdiscoverable : q.discoverable with
    | true =>
        have hspec := @assertion_sized sha env b
          ⟨first, q.rpId, q.cdh, q.flags, rest.length + 1⟩ hfirst
        refine Triple.bind (hspec.consequence (fun _ hw => hw) (fun _ _ hw => hw) ?_)
          fun m => Triple.assume fun hm => ?_
        · intro w hw
          exact ⟨fun h => hw.1 h.2, hw.2⟩
        · simpa using ok_sized hm
    | false =>
        have hspec := @assertion_short sha env henv first hfirst q.rpId q.cdh q.flags
        refine Triple.bind (hspec.consequence (fun _ hw => hw.2) (fun _ _ hw => hw) ?_)
          fun m => Triple.assume fun hm => ?_
        · intro w hw
          exact ⟨by simp, hw⟩
        · obtain ⟨n, hn, hfits⟩ := hm
          exact ok_sized ⟨n, hn, by simp [hfits]⟩

theorem confirm_kept {E : World → Prop} (rpId title suffix : Text) :
    Triple (fun w => w.toAuthenticator = b) (confirm env rpId title suffix)
      (fun s w => s = env.decision ∧ w.toAuthenticator = b) E :=
  Triple.bind (R := fun _ w => w.toAuthenticator = b) (Triple.update fun _ hw => hw)
    fun _ => Triple.pure fun _ hw => ⟨rfl, hw⟩

/-- A command that is answered with its status. -/
theorem err_sized (hb : b.Sized) {P : Prop} (hP : ¬ P) (status : Int) :
    Triple (fun w => w.toAuthenticator = b) (pure (err status) : Java Reply)
      (fun r w => (r.Fits ↔ ¬ P) ∧ sized w) (fun w => ¬ P ∧ sized w) := by
  apply Triple.pure
  rintro w rfl
  exact ⟨⟨fun _ => hP, fun _ => fits_err status⟩, hb⟩

/-- Once it is known which credentials there are. -/
theorem found_sized (henv : env.Lawful) (hb : b.Sized) {object : Object} {q : SignIn}
    (hread : readSignIn object = .ok (.ok q)) {found : List Bytes}
    (hfound : hits env b.store q = .ok found) :
    Triple (fun w => w.toAuthenticator = b) (match found with
      | [] =>
          if q.up then do
            let _ ← confirm env q.rpId "No key for this site".toList []
            return err Status.noCredentials
          else return err Status.noCredentials
      | first :: rest =>
          if q.up || q.uv then do
            let s ← confirm env q.rpId "Sign in".toList []
            if s ≠ Status.ok then return err s else answer sha env q first rest
          else answer sha env q first rest)
      (fun r w => (r.Fits ↔ ¬ Overflows sha env b 0x02 (some object)) ∧ sized w)
      (fun w => ¬ Overflows sha env b 0x02 (some object) ∧ sized w) := by
  rw [overflows_signIn hread, hfound]
  cases found with
  | nil =>
      have hnone : ¬ ∃ id rest, Except.ok (ε := Thrown) [] = .ok (id :: rest) ∧
          q.discoverable = true ∧ ((q.up || q.uv) = true → env.decision = Status.ok) ∧
          Asserted.Long sha env b ⟨id, q.rpId, q.cdh, q.flags, rest.length + 1⟩ := by
        rintro ⟨id, rest, h, -⟩
        cases h
      apply Triple.ite
      · intro _
        exact Triple.bind (confirm_kept _ _ _) fun _ => Triple.assume fun _ =>
          err_sized hb hnone _
      · intro _
        exact err_sized hb hnone _
  | cons first rest =>
      have hone : (∃ id rest', Except.ok (ε := Thrown) (first :: rest) = .ok (id :: rest') ∧
          q.discoverable = true ∧ ((q.up || q.uv) = true → env.decision = Status.ok) ∧
          Asserted.Long sha env b ⟨id, q.rpId, q.cdh, q.flags, rest'.length + 1⟩) ↔
          ((q.up || q.uv) = true → env.decision = Status.ok) ∧ q.discoverable = true ∧
          Asserted.Long sha env b ⟨first, q.rpId, q.cdh, q.flags, rest.length + 1⟩ := by
        constructor
        · rintro ⟨id, rest', h, hdiscoverable, happroved, hlong⟩
          cases h
          exact ⟨happroved, hdiscoverable, hlong⟩
        · rintro ⟨happroved, hdiscoverable, hlong⟩
          exact ⟨first, rest, rfl, hdiscoverable, happroved, hlong⟩
      have hanswer := @answer_sized sha env b henv hb q first rest (hits_sized henv hb.store hfound)
      rw [hone]
      apply Triple.ite
      · intro hasks
        refine Triple.bind (confirm_kept _ _ _) fun s => Triple.assume fun hs => ?_
        apply Triple.ite
        · intro hrefused
          exact err_sized hb (fun h => hrefused (hs.trans (h.1 hasks))) s
        · intro happroved
          have hok : env.decision = Status.ok := hs ▸ not_not.mp happroved
          simpa [hok] using hanswer
      · intro hsilent
        simpa [hsilent] using hanswer

theorem getAssertion_sized (henv : env.Lawful) (hb : b.Sized) (p : Option Object) :
    Triple (fun w => w.toAuthenticator = b) (getAssertion sha env p)
      (fun r w => (r.Fits ↔ ¬ Overflows sha env b 0x02 p) ∧ sized w)
      (fun w => ¬ Overflows sha env b 0x02 p ∧ sized w) := by
  have hthrows (h : ¬ Overflows sha env b 0x02 p) (w : World) (hw : w.toAuthenticator = b) :
      ¬ Overflows sha env b 0x02 p ∧ sized w := ⟨h, by rwa [sized, hw]⟩
  -- A command without parameters, or with bad ones, makes no assertion.
  have hbad (h : ∀ object q, p = some object → readSignIn object ≠ .ok (.ok q)) :
      ¬ Overflows sha env b 0x02 p := by
    rintro ⟨s, hs, -⟩
    cases hs with
    | first _ hobject hread => exact h _ _ hobject hread
    | next hcmd => cases hcmd
  unfold getAssertion
  apply Triple.ofExcept_bind
  · intro object hp
    cases p with
    | none => cases hp
    | some object' =>
        obtain rfl : object' = object := Except.ok.inj hp
        apply Triple.ofExcept_bind
        · intro parameters hread
          cases parameters with
          | error status =>
              refine err_sized hb (hbad fun o q ho hq => ?_) status
              cases ho
              simp [hread] at hq
          | ok q =>
              have hover := @overflows_signIn sha env b object' q hread
              refine Triple.bind (R := fun (got w : World) => got.store = b.store ∧
                w.toAuthenticator = b) (Triple.get fun w hw => ⟨hw ▸ rfl, hw⟩)
                fun got => Triple.assume fun hstore => ?_
              rw [hstore]
              apply Triple.ofExcept_bind
              · intro found hfound
                exact found_sized henv hb hread hfound
              · intro e he
                apply hthrows
                rw [hover]
                rintro ⟨id, rest, hhits, -⟩
                exact absurd (he.symm.trans hhits) (by simp)
        · intro e he
          apply hthrows
          refine hbad fun o q ho hq => ?_
          cases ho
          exact absurd (he.symm.trans hq) (by simp)
  · intro e he
    apply hthrows
    refine hbad fun o q ho _ => ?_
    cases ho
    cases he

theorem getNextAssertion_sized (hb : b.Sized) (p : Option Object) :
    Triple (fun w => w.toAuthenticator = b) (getNextAssertion sha env)
      (fun r w => (r.Fits ↔ ¬ Overflows sha env b 0x08 p) ∧ sized w)
      (fun w => ¬ Overflows sha env b 0x08 p ∧ sized w) := by
  rw [overflows_next]
  unfold getNextAssertion
  refine Triple.bind (R := fun (got w : World) => got.toAuthenticator = b ∧
    w.toAuthenticator = b) (Triple.get fun w hw => ⟨hw, hw⟩)
    fun got => Triple.assume fun hgot => ?_
  subst hgot
  cases hpending : got.pending with
  | nil =>
      apply err_sized hb
      rintro ⟨id, rest, rpId, cdh, h, -⟩
      cases h
  | cons id rest =>
      obtain ⟨hid, hrest⟩ : id.length = 16 ∧ ∀ x ∈ rest, x.length = 16 := by
        have hids := hb.pending
        rw [hpending] at hids
        exact List.forall_mem_cons.mp hids
      refine Triple.bind (R := fun _ => Kept got.toAuthenticator) ?_ fun _ => ?_
      · apply Triple.update
        intro w hw
        have hstore : w.store = got.store := congrArg Authenticator.store hw
        have hkeys : w.keys = got.keys := congrArg Authenticator.keys hw
        exact ⟨⟨hstore, hkeys⟩, hstore ▸ hb.store, hrest⟩
      · apply Triple.ofExcept_bind
        · intro rpId hrp
          apply Triple.ofExcept_bind
          · intro cdh hhash
            have hone : (∃ id' rest' rpId' cdh', id :: rest = id' :: rest' ∧
                got.pendingRp = some rpId' ∧ got.pendingHash = some cdh' ∧
                Asserted.Long sha env got.toAuthenticator ⟨id', rpId', cdh', got.pendingFlags, 0⟩) ↔
                Asserted.Long sha env got.toAuthenticator ⟨id, rpId, cdh, got.pendingFlags, 0⟩ := by
              constructor
              · rintro ⟨id', rest', rpId', cdh', h, hrp', hhash', hlong⟩
                cases h
                rw [hrp'] at hrp
                rw [hhash'] at hhash
                cases hrp
                cases hhash
                exact hlong
              · intro hlong
                exact ⟨id, rest, rpId, cdh, rfl, nonNull_ok hrp, nonNull_ok hhash, hlong⟩
            rw [hone]
            have hspec := @assertion_sized sha env got.toAuthenticator
              ⟨id, rpId, cdh, got.pendingFlags, 0⟩ hid
            exact Triple.bind hspec fun m => Triple.assume fun hm => ok_sized hm
          · intro e he w hw
            refine ⟨?_, hw.2⟩
            rintro ⟨id', rest', rpId', cdh', -, -, hhash, -⟩
            rw [hhash] at he
            cases he
        · intro e he w hw
          refine ⟨?_, hw.2⟩
          rintro ⟨id', rest', rpId', cdh', -, hrp, -⟩
          rw [hrp] at he
          cases he

/-! ### handle -/

theorem overflows_cmd {cmd : UInt8} {p : Option Object} (h : Overflows sha env b cmd p) :
    cmd = 0x02 ∨ cmd = 0x08 := by
  obtain ⟨s, hs, -⟩ := h
  cases hs with
  | first hcmd => exact .inl hcmd
  | next hcmd => exact .inr hcmd

theorem dispatch_sized (henv : env.Lawful) (hb : b.Sized) (cmd : UInt8) (req : Bytes) :
    Triple (fun w => w.toAuthenticator = b) (dispatch sha env cmd req)
      (fun r w => (r.Fits ↔ ¬ ∃ p, parameters req = .ok p ∧ Overflows sha env b cmd p) ∧ sized w)
      (fun w => (¬ ∃ p, parameters req = .ok p ∧ Overflows sha env b cmd p) ∧ sized w) := by
  have hsized (w : World) (hw : w.toAuthenticator = b) : sized w := by rwa [sized, hw]
  unfold dispatch
  apply Triple.ofExcept_bind
  · intro p hp
    have hthis : (∃ p', parameters req = .ok p' ∧ Overflows sha env b cmd p') ↔
        Overflows sha env b cmd p := by
      rw [hp]
      simp
    rw [hthis]
    apply Triple.ite
    · rintro rfl
      have hnone : ¬ Overflows sha env b 0x04 p := fun h => absurd (overflows_cmd h) (by decide)
      refine (ok_sized ⟨_, rfl, ?_⟩).consequence hsized (fun _ _ hw => hw) fun _ hw => hw
      exact ⟨fun _ => hnone, fun _ => by decide⟩
    · intro _
      apply Triple.ite
      · rintro rfl
        have hnone : ¬ Overflows sha env b 0x01 p := fun h => absurd (overflows_cmd h) (by decide)
        refine (makeCredential_sized henv p).consequence hsized (fun r w hw => ⟨?_, hw.2⟩)
          fun w hw => ⟨hnone, hw⟩
        exact ⟨fun _ => hnone, fun _ => hw.1⟩
      · intro _
        apply Triple.ite
        · rintro rfl
          exact getAssertion_sized henv hb p
        · intro htwo
          apply Triple.ite
          · rintro rfl
            exact getNextAssertion_sized hb p
          · intro height
            exact err_sized hb (fun h => (overflows_cmd h).elim htwo height) _
  · intro e he w hw
    refine ⟨?_, hsized w hw⟩
    rintro ⟨p, hp, -⟩
    rw [hp] at he
    cases he

theorem enter_sized (hb : b.Sized) (cmd : UInt8) (owner : Owner) :
    (b.enter env cmd owner).Sized := by
  refine ⟨hb.store, fun id hid => ?_⟩
  unfold Authenticator.enter at hid
  dsimp only at hid
  split at hid
  · cases hid
  · exact hb.pending id hid

end Specs

/-- One call: its reply fits unless it is an oversized one, and ids stay of
their length. -/
theorem handle_sized {sha : Sha256} {c : Call} {a : Authenticator} (henv : c.env.Lawful)
    (ha : a.Sized) :
    ((handle sha c.env c.req c.owner a).1.reply.Fits ↔ ¬ c.Oversized sha a) ∧
      (handle sha c.env c.req c.owner a).2.Sized := by
  cases hreq : c.req with
  | nil =>
      have hnone : ¬ c.Oversized sha a := by
        rintro ⟨cmd, p, hcmd, -⟩
        rw [Call.cmd, hreq] at hcmd
        cases hcmd
      exact ⟨⟨fun _ => hnone, fun _ => fits_err _⟩, ha⟩
  | cons cmd rest =>
      have hiff : c.Oversized sha a ↔ ∃ p, parameters c.req = .ok p ∧
          Overflows sha c.env (a.enter c.env cmd c.owner) cmd p := by
        constructor
        · rintro ⟨cmd', p, hcmd, hp, hover⟩
          rw [Call.cmd, hreq] at hcmd
          cases hcmd
          exact ⟨p, hp, hover⟩
        · rintro ⟨p, hp, hover⟩
          exact ⟨cmd, p, by rw [Call.cmd, hreq]; rfl, hp, hover⟩
      have hcmd : c.cmd = some cmd := by rw [Call.cmd, hreq]; rfl
      rw [hiff, ← hreq]
      have hspec := @dispatch_sized sha c.env (a.enter c.env cmd c.owner) henv
        (enter_sized ha cmd c.owner) cmd c.req
      apply Call.handled (Q := fun o b => (o.reply.Fits ↔ ¬ ∃ p, parameters c.req = .ok p ∧
        Overflows sha c.env (a.enter c.env cmd c.owner) cmd p) ∧ b.Sized) hcmd
      refine hspec.consequence ?_ (fun _ _ hw => hw) fun w hw e => ?_
      · rintro w rfl
        rfl
      · exact ⟨⟨fun _ => hw.1, fun _ => fits_err _⟩, hw.2⟩

/-! ### Every store that calls can reach -/

/-- A call, or the start of a new process over what is stored: every `commit`
before it has reached the disk. -/
inductive Happening where
  | call (c : Call)
  | restart

def Authenticator.next (sha : Sha256) : Next Authenticator Happening := fun a e =>
  match e with
  | .call c => some (handle sha c.env c.req c.owner a).2
  | .restart => some (.fresh a.store a.keys)

def Happening.Lawful (_ : Authenticator) : Happening → Prop
  | .call c => c.env.Lawful
  | .restart => True

theorem sized_reachable {sha : Sha256} {a : Authenticator}
    (h : Reach (Authenticator.next sha) Happening.Lawful (.fresh [] []) a) : a.Sized := by
  apply h.invariant
  · exact ⟨fun _ he => absurd he List.not_mem_nil, fun _ hid => absurd hid List.not_mem_nil⟩
  · intro t e u ht hlawful hnext
    cases e with
    | call c =>
        cases hnext
        exact (handle_sized hlawful ht).2
    | restart =>
        cases hnext
        exact ⟨ht.store, fun _ hid => absurd hid List.not_mem_nil⟩

theorem accepted_iff {body : Bytes} (hne : body ≠ []) :
    Accepted body ↔ body.length ≤ Daemon.maxBody :=
  ⟨fun h => h.1, fun h => ⟨h, fun rest => readFrame_frame rest hne h (by decide)⟩⟩

theorem length_seqNo {body seqNo req : Bytes} (h : KeyService.parse body = .req seqNo req) :
    seqNo.length = 4 := by
  cases body with
  | nil => cases h
  | cons type rest =>
      rw [KeyService.parse] at h
      split_ifs at h with _ _ hreq
      cases h
      rw [List.length_take]
      simp only [Bool.and_eq_true, decide_eq_true_eq] at hreq
      omega

/-- Whatever was stored before, the daemon takes the response to a request,
unless it is an assertion whose stored user is too long. -/
theorem response_accepted {sha : Sha256} {a : Authenticator}
    (hrun : Reach (Authenticator.next sha) Happening.Lawful (.fresh [] []) a) {c : Call}
    (henv : c.env.Lawful) {body seqNo : Bytes} (hparse : KeyService.parse body = .req seqNo c.req) :
    Accepted (KeyService.response seqNo (handle sha c.env c.req c.owner a).1.reply.bytes) ↔
      ¬ c.Oversized sha a := by
  rw [accepted_iff (by simp [KeyService.response]), ← (handle_sized henv (sized_reachable hrun)).1,
    Reply.Fits, KeyService.response, List.cons_append, List.length_cons, List.length_append,
    length_seqNo hparse]
  show _ ≤ 8192 ↔ _ ≤ 8192
  omega

/-! ### A name that is not UTF-8 -/

/-- A user who approves, on a phone with full-length signatures. -/
def signing : Env where
  now := 0
  later := 0
  decision := Status.ok
  id := Vector.replicate 16 9
  newKey := some (1, 2)
  sign _ _ := some (List.replicate 72 3)
  deleteKey := true
  entries := id

theorem signing_lawful : signing.Lawful := by
  refine ⟨fun store => List.Perm.refl store, fun id data sig hsig => ?_⟩
  obtain rfl : List.replicate 72 3 = sig := Option.some.inj hsig
  rfl

/-- makeCredential for the site `a` and the user with id 7; each of the 2750
bytes of the name reads as one U+FFFD and is written as three bytes. -/
def registration : Bytes :=
  [0x01, 0xA4, 0x01, 0x41, 0x00, 0x02, 0xA1, 0x62, 0x69, 0x64, 0x61, 0x61,
    0x03, 0xA2, 0x62, 0x69, 0x64, 0x41, 0x07, 0x64, 0x6E, 0x61, 0x6D, 0x65, 0x79, 0x0A, 0xBE] ++
  List.replicate 2750 0xFF ++
  [0x04, 0x81, 0xA2, 0x63, 0x61, 0x6C, 0x67, 0x26, 0x64, 0x74, 0x79, 0x70, 0x65, 0x6A,
    0x70, 0x75, 0x62, 0x6C, 0x69, 0x63, 0x2D, 0x6B, 0x65, 0x79]

def registered : Authenticator :=
  (handle zeroDigest signing registration 0 (.fresh [] [])).2

/-- After this registration the response to a sign-in is refused. -/
theorem longName_refused : ∃ a seqNo req,
    Reach (Authenticator.next zeroDigest) Happening.Lawful (.fresh [] []) a ∧
      KeyService.parse (KeyService.REQ :: seqNo ++ req) = .req seqNo req ∧
      (KeyService.REQ :: seqNo ++ req).length ≤ KeyService.maxBody ∧
      ¬ Accepted (KeyService.response seqNo (handle zeroDigest signing req 0 a).1.reply.bytes) := by
  refine ⟨registered, [0, 0, 0, 2], signInCall.req, ?_, rfl, by decide, fun h => absurd h.1 ?_⟩
  · exact Reach.tail (e := .call ⟨signing, registration, 0⟩) .refl signing_lawful rfl
  · decide +kernel

/-- makeCredential for the site `a` and the user with id 7, whose names are
short. -/
def shortRegistration : Bytes :=
  [0x01, 0xA4, 0x01, 0x41, 0x00, 0x02, 0xA1, 0x62, 0x69, 0x64, 0x61, 0x61,
    0x03, 0xA3, 0x62, 0x69, 0x64, 0x41, 0x07, 0x64, 0x6E, 0x61, 0x6D, 0x65, 0x61, 0x78,
    0x6B, 0x64, 0x69, 0x73, 0x70, 0x6C, 0x61, 0x79, 0x4E, 0x61, 0x6D, 0x65, 0x61, 0x79,
    0x04, 0x81, 0xA2, 0x63, 0x61, 0x6C, 0x67, 0x26, 0x64, 0x74, 0x79, 0x70, 0x65, 0x6A,
    0x70, 0x75, 0x62, 0x6C, 0x69, 0x63, 0x2D, 0x6B, 0x65, 0x79]

/-- The response to a sign-in with the names that were stored before is taken,
so its stored user is short enough. -/
theorem signIn_accepted : ∃ a reply,
    Reach (Authenticator.next zeroDigest) Happening.Lawful (.fresh [] []) a ∧
      a.store.map (fun e => (e.2.uid, e.2.name, e.2.dn)) =
        [(some [7], some "x".toList, some "y".toList)] ∧
      (handle zeroDigest signing signInCall.req 0 a).1.reply.bytes = reply ∧
      reply.head? = some 0 ∧ [0x6E, 0x61, 0x6D, 0x65, 0x61, 0x78] <:+: reply ∧
      Accepted (KeyService.response [0, 0, 0, 2] reply) ∧
      ¬ (⟨signing, signInCall.req, 0⟩ : Call).Oversized zeroDigest a := by
  have hrun : Reach (Authenticator.next zeroDigest) Happening.Lawful (.fresh [] [])
      (handle zeroDigest signing shortRegistration 0 (.fresh [] [])).2 :=
    Reach.tail (e := .call ⟨signing, shortRegistration, 0⟩) .refl signing_lawful rfl
  have haccepted : Accepted (KeyService.response [0, 0, 0, 2]
      (handle zeroDigest signing signInCall.req 0
        (handle zeroDigest signing shortRegistration 0 (.fresh [] [])).2).1.reply.bytes) := by
    rw [accepted_iff (by simp [KeyService.response])]
    decide +kernel
  refine ⟨_, _, hrun, by decide +kernel, rfl, by decide +kernel, by decide +kernel, haccepted, ?_⟩
  exact (@response_accepted zeroDigest _ hrun ⟨signing, signInCall.req, 0⟩ signing_lawful
    (KeyService.REQ :: [0, 0, 0, 2] ++ signInCall.req) [0, 0, 0, 2] rfl).mp haccepted

end Passkey.Phone

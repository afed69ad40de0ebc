import Passkey.Daemon.Decoding

/-!
Where the daemon's decoder leaves its offset. It stays inside the input, and none
of the faults of its arithmetic is reached. The decoder of the probe, which hands
the offset on as an argument, is the same one.
-/

namespace Passkey.Daemon.Cbor

open Library Utf8

section Offsets

variable {input : Bytes} {size p q : Nat}

/-! ### Where the offset ends -/

/-- A reader that starts inside the input ends inside it, not before where it
started, and does not panic. -/
def Settles {α : Type} (input : Bytes) (x : Reader α) : Prop :=
  ∀ p, p ≤ input.length → match x p with
    | .ok _ q => p ≤ q ∧ q ≤ input.length
    | .error fault q => fault = .error ∧ p ≤ q ∧ q ≤ input.length

namespace Settles

variable {α β : Type}

theorem pure (a : α) : Settles input (pure a) := by
  intro p hp
  exact ⟨le_refl p, hp⟩

theorem error : Settles input (throw .error : Reader α) := by
  intro p hp
  exact ⟨rfl, le_refl p, hp⟩

theorem orError (x : Option α) : Settles input (orError x) := by
  cases x with
  | none => exact error
  | some a => exact pure a

/-- The second reader settles for what the first one gives. -/
theorem bind {x : Reader α} {f : α → Reader β} (hx : Settles input x)
    (hf : ∀ a p q, x p = .ok a q → Settles input (f a)) : Settles input (x >>= f) := by
  intro p hp
  have hfirst := hx p hp
  simp only [Bind.bind, EStateM.bind]
  cases hread : x p with
  | error fault q =>
      rw [hread] at hfirst
      exact hfirst
  | ok a q =>
      rw [hread] at hfirst
      obtain ⟨hpq, hq⟩ := hfirst
      have hsecond := hf a p q hread q hq
      dsimp only
      cases hmore : f a q with
      | error fault r =>
          rw [hmore] at hsecond
          obtain ⟨hfault, hqr, hr⟩ := hsecond
          exact ⟨hfault, hpq.trans hqr, hr⟩
      | ok b r =>
          rw [hmore] at hsecond
          obtain ⟨hqr, hr⟩ := hsecond
          exact ⟨hpq.trans hqr, hr⟩

theorem takeSlice (hsize : input.length < size) (length : Nat) :
    Settles input (takeSlice input size length) := by
  intro p hp
  rw [takeSlice_eq hsize]
  split
  · rename_i h
    split_ifs at h with hinside
    cases h
    exact ⟨by omega, hinside⟩
  · rename_i h
    split_ifs at h with hinside
    cases h
    exact ⟨rfl, le_refl p, hp⟩

theorem takeArgument (hsize : input.length < size) (info : Nat) :
    Settles input (takeArgument input size info) := by
  have huint (count : Nat) : Settles input (takeUint input size count) :=
    (takeSlice hsize count).bind fun _ _ _ _ => pure _
  unfold Cbor.takeArgument
  split_ifs
  · exact pure info
  · exact huint 1
  · exact huint 2
  · exact huint 4
  · exact huint 8
  · exact error

theorem times {item : Reader α} (h : Settles input item) (n : Nat) :
    Settles input (times item n) := by
  induction n with
  | zero => exact pure []
  | succ n ih =>
      apply h.bind
      intro _ _ _ _
      exact ih.bind fun _ _ _ _ => pure _

theorem takeBody (hsize : input.length < size) {inner : Reader Cbor} (h : Settles input inner)
    (major value : Nat) : Settles input (takeBody input size inner major value) := by
  unfold Cbor.takeBody
  split
  · exact (orError _).bind fun _ _ _ _ => pure _
  split
  · apply (orError _).bind
    intro v p q hread
    obtain ⟨hv, -⟩ := orError_ok.mp hread
    obtain ⟨hn, rfl⟩ := toI64_some.mp hv
    -- The least number is -2^63, so an `i64` holds the result.
    have hnegate : negate value = Pure.pure (-1 - (value : Int)) := if_pos (by omega)
    rw [hnegate]
    exact (pure _).bind fun _ _ _ _ => pure _
  split
  · apply (orError _).bind
    intro length _ _ _
    apply (takeSlice hsize length).bind
    intro bytes _ _ _
    split
    · exact pure _
    · exact (orError _).bind fun _ _ _ _ => pure _
  split
  · exact (h.times value).bind fun _ _ _ _ => pure _
  split
  · have hentry : Settles input (do
        let k ← inner
        let v ← inner
        return (k, v)) := by
      apply h.bind
      intro _ _ _ _
      exact h.bind fun _ _ _ _ => pure _
    exact (hentry.times value).bind fun _ _ _ _ => pure _
  · exact h

theorem takeRest (hsize : input.length < size) {inner : Reader Cbor} (h : Settles input inner)
    (first : UInt8) : Settles input (takeRest input size inner first) := by
  unfold Cbor.takeRest
  split
  · split_ifs
    · exact pure _
    · exact pure _
    · exact pure _
    · exact error
  · exact (takeArgument hsize _).bind fun _ _ _ _ => takeBody hsize h _ _

theorem takeItem (hsize : input.length < size) (levels : Nat) :
    Settles input (takeItem input size levels) := by
  induction levels with
  | zero => exact error
  | succ levels ih =>
      intro p hp
      rw [takeItem_eq hsize]
      by_cases hinside : p < input.length
      · rw [List.getElem?_eq_getElem hinside]
        have hrest := (takeRest hsize ih input[p]) (p + 1) hinside
        dsimp only
        split
        · rename_i heq
          rw [heq] at hrest
          obtain ⟨hpq, hq⟩ := hrest
          exact ⟨by omega, hq⟩
        · rename_i heq
          rw [heq] at hrest
          obtain ⟨hfault, hpq, hq⟩ := hrest
          exact ⟨hfault, by omega, hq⟩
      · rw [List.getElem?_eq_none (by omega)]
        exact ⟨rfl, le_refl p, hp⟩

end Settles

/-! ### Results -/

/-- What lies up to `q` lies there whatever stands behind it. -/
theorem lies_take {input' part : Bytes} (h : Lies input p part q)
    (hsame : input'.take q = input.take q) : Lies input' p part q := by
  obtain ⟨hpq, hq, rfl⟩ := lies_iff.mp h
  have hlength : q ≤ input'.length := by
    have hle := congrArg List.length hsame
    rw [List.length_take, List.length_take] at hle
    omega
  refine lies_iff.mpr ⟨hpq, hlength, ?_⟩
  rw [← List.drop_take, ← List.drop_take, hsame]

/-- Outside the input nothing is read. -/
theorem takeItem_outside (hsize : input.length < size) (levels : Nat) (hp : input.length ≤ p) :
    takeItem input size levels p = .error .error p := by
  cases levels with
  | zero => rfl
  | succ levels => rw [takeItem_eq hsize, List.getElem?_eq_none hp]

/-- The decoder does not panic and stays inside the input. It returns a value
where an item for this value lies, however many bytes stand behind it; no input
is as long as a `usize` can count. -/
theorem decode_exact (hsize : input.length < size) (depth offset : Nat) :
    (∀ fault e, decodeCborAt input size depth offset = .error fault e → fault = .error ∧
      (e = offset ∨ offset ≤ e ∧ e ≤ input.length)) ∧
    (∀ v e, decodeCborAt input size depth offset = .ok v e ↔
      ∃ enc, Item (9 - depth) v enc ∧ Lies input offset enc e) ∧
    ∀ v e, decodeCborAt input size depth offset = .ok v e → e ≤ input.length ∧
      ∀ input', input'.length < size → input'.take e = input.take e →
        decodeCborAt input' size depth offset = .ok v e := by
  refine ⟨?_, takeItem_ok hsize (9 - depth) offset, ?_⟩
  · intro fault e h
    by_cases hinside : offset ≤ input.length
    · have hsettles := Settles.takeItem hsize (9 - depth) offset hinside
      rw [show takeItem input size (9 - depth) offset = .error fault e from h] at hsettles
      exact ⟨hsettles.1, .inr hsettles.2⟩
    · have houtside := takeItem_outside hsize (9 - depth) (Nat.le_of_not_le hinside)
      cases houtside.symm.trans h
      exact ⟨rfl, .inl rfl⟩
  · intro v e h
    obtain ⟨enc, hitem, hlies⟩ := (takeItem_ok hsize (9 - depth) offset v e).mp h
    refine ⟨hlies.inside, ?_⟩
    intro input' hsize' hsame
    exact (takeItem_ok hsize' (9 - depth) offset v e).mpr ⟨enc, hitem, lies_take hlies hsame⟩

/-- A map with a tag on one of its values, and a byte behind it. -/
theorem decoded_tagged :
    decodeCborAt [0x02, 0xA1, 0x05, 0xC1, 0x38, 0x29, 0x00] (2 ^ 64) 0 1 =
      .ok (.map [(.integer 5, .integer (-42))]) 6 ∧
    ∃ enc, Item 9 (.map [(.integer 5, .integer (-42))]) enc ∧
      Lies [0x02, 0xA1, 0x05, 0xC1, 0x38, 0x29, 0x00] 1 enc 6 := by
  have hread : decodeCborAt [0x02, 0xA1, 0x05, 0xC1, 0x38, 0x29, 0x00] (2 ^ 64) 0 1 =
      .ok (.map [(.integer 5, .integer (-42))]) 6 := by rfl
  exact ⟨hread, ((decode_exact (by simp) 0 1).2.1 _ _).mp hread⟩

/-! ### The decoder with its offset as an argument -/

/-- What is read at `p`, told either way. -/
def Alike {α : Type} (p : Nat) (x : Option (α × Nat)) (y : Reader α) : Prop :=
  ∀ a q, x = some (a, q) ↔ y p = .ok a q

namespace Alike

variable {α β : Type} {x : Option (α × Nat)} {y : Reader α}

theorem pure (a : α) : Alike p (some (a, p)) (pure a) := by
  intro a' q
  constructor
  · intro h
    cases h
    rfl
  · intro h
    cases h
    rfl

theorem fails : Alike p none (throw .error : Reader α) := by
  intro a q
  constructor
  · intro h
    cases h
  · intro h
    cases h

theorem bind {f : α × Nat → Option (β × Nat)} {g : α → Reader β} (h : Alike p x y)
    (hf : ∀ a q, y p = .ok a q → Alike q (f (a, q)) (g a)) : Alike p (x >>= f) (y >>= g) := by
  intro b r
  rw [run_bind]
  constructor
  · intro hx
    obtain ⟨⟨a, q⟩, hfirst, hrest⟩ := Option.bind_eq_some_iff.mp hx
    have hread := (h a q).mp hfirst
    exact ⟨a, q, hread, (hf a q hread b r).mp hrest⟩
  · rintro ⟨a, q, hread, hrest⟩
    exact Option.bind_eq_some_iff.mpr ⟨(a, q), (h a q).mpr hread, (hf a q hread b r).mpr hrest⟩

theorem orError {x : Option α} {f : α → Option (β × Nat)} {g : α → Reader β}
    (hf : ∀ a, Alike p (f a) (g a)) : Alike p (x >>= f) (orError x >>= g) := by
  cases x with
  | none => exact fails
  | some a => exact hf a

theorem takeSlice (hsize : input.length < size) {n : Nat} {f : Bytes → Option (β × Nat)}
    {g : Bytes → Reader β} (hf : ∀ bytes, bytes.length = n → Alike (p + n) (f bytes) (g bytes)) :
    Alike p (slice input p n >>= f) (takeSlice input size n >>= g) := by
  rw [slice]
  split
  · rename_i hinside
    have hread : Cbor.takeSlice input size n p = .ok ((input.drop p).take n) (p + n) := by
      rw [takeSlice_eq hsize, if_pos hinside]
    intro b r
    rw [bind_of_ok hread]
    refine hf _ ?_ b r
    rw [List.length_take, List.length_drop]
    omega
  · rename_i hnot
    intro b r
    constructor
    · intro h
      cases h
    · intro h
      obtain ⟨bytes, q, hread, -⟩ := run_bind.mp h
      rw [takeSlice_eq hsize, if_neg hnot] at hread
      cases hread

theorem argument (hsize : input.length < size) (info : Nat) :
    Alike p (argument input p info) (takeArgument input size info) := by
  have huint {count : Nat} (hcount : count ≤ 8) :
      Alike p (readUint input p count) (takeUint input size count) := by
    apply takeSlice hsize
    intro bytes hbytes
    rw [fold_eq (by omega)]
    exact pure (ofBigEndian bytes)
  unfold Cbor.argument takeArgument
  split_ifs
  · exact pure info
  · exact huint (by omega)
  · exact huint (by omega)
  · exact huint (by omega)
  · exact huint (by omega)
  · exact fails

theorem items {item : Nat → Option (α × Nat)} (h : ∀ p, Alike p (item p) y) (n : Nat) :
    Alike p (decodeItems item n p) (times y n) := by
  induction n generalizing p with
  | zero => exact pure []
  | succ n ih =>
      apply (h p).bind
      intro a q _
      apply (@ih q).bind
      intro l r _
      exact pure (a :: l)

end Alike

theorem decodeBody_alike (hsize : input.length < size) {levels : Nat}
    (h : ∀ p, Alike p (decodeCbor input levels p) (takeItem input size levels)) (major n : Nat) :
    Alike p (decodeBody input levels major n p)
      (takeBody input size (takeItem input size levels) major n) := by
  unfold decodeBody takeBody
  split
  · exact Alike.orError fun v => Alike.pure _
  split
  · have hnegate {v : Int} (hv : toI64 n = some v) : negate v = pure (-1 - v) := by
      obtain ⟨hn, rfl⟩ := toI64_some.mp hv
      exact if_pos (by omega)
    cases hv : toI64 n with
    | none => exact Alike.fails
    | some v =>
        show Alike p (some (Cbor.integer (-1 - v), p))
          (negate v >>= fun v => pure (Cbor.integer v))
        rw [hnegate hv]
        exact Alike.pure _
  split
  · by_cases hn : n < size
    · rw [if_pos hn]
      show Alike p _ (takeSlice input size n >>= _)
      apply Alike.takeSlice hsize
      intro bytes _
      split
      · exact Alike.pure _
      · exact Alike.orError fun t => Alike.pure _
    · rw [if_neg hn, slice, if_neg (by omega)]
      exact Alike.fails
  split
  · exact (Alike.items h n).bind fun l q _ => Alike.pure _
  split
  · have hentry (p : Nat) : Alike p (pair (decodeCbor input levels) (decodeCbor input levels) p)
        (do
          let k ← takeItem input size levels
          let v ← takeItem input size levels
          return (k, v)) := by
      apply (h p).bind
      intro k q _
      exact (h q).bind fun v r _ => Alike.pure _
    exact (Alike.items hentry n).bind fun m q _ => Alike.pure _
  · exact h p

/-- Both tell the same decoder. -/
theorem decodeCbor_alike (hsize : input.length < size) (levels : Nat) :
    Alike p (decodeCbor input levels p) (takeItem input size levels) := by
  induction levels generalizing p with
  | zero => exact Alike.fails
  | succ levels ih =>
      intro v q
      rw [takeItem_eq hsize, decodeCbor]
      cases input[p]? with
      | none =>
          constructor
          · intro h
            cases h
          · intro h
            cases h
      | some first =>
          have hsimple : Alike (p + 1)
              (if first.toNat % 32 = 20 then some (Cbor.bool false, p + 1)
                else if first.toNat % 32 = 21 then some (Cbor.bool true, p + 1)
                else if first.toNat % 32 = 22 then some (Cbor.null, p + 1) else none)
              (if first.toNat % 32 = 20 then return Cbor.bool false
                else if first.toNat % 32 = 21 then return Cbor.bool true
                else if first.toNat % 32 = 22 then return Cbor.null else throw .error) := by
            split_ifs
            · exact Alike.pure _
            · exact Alike.pure _
            · exact Alike.pure _
            · exact Alike.fails
          have hbody : Alike (p + 1)
              (argument input (p + 1) (first.toNat % 32) >>= fun x =>
                decodeBody input levels (first.toNat / 32) x.1 x.2)
              (takeArgument input size (first.toNat % 32) >>= fun n =>
                takeBody input size (takeItem input size levels) (first.toNat / 32) n) :=
            (Alike.argument hsize _).bind fun n r _ => decodeBody_alike hsize @ih _ n
          show (if first.toNat / 32 = 7 then _ else argument input (p + 1) (first.toNat % 32) >>=
            fun x => decodeBody input levels (first.toNat / 32) x.1 x.2) = some (v, q) ↔ _
          dsimp only
          rw [takeRest]
          split
          · exact hsimple v q
          · exact hbody v q

end Offsets

end Passkey.Daemon.Cbor

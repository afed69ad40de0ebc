import Passkey.Library.Triples
import Passkey.Phone.Encoding

/-!
The canonical form of what the phone encodes. The order in which entries were
put into a map does not show in its encoding; every head is of the shortest
form, the keys of every map increase, and the decoder takes the value back.
-/

namespace Passkey.Phone.Cbor

open Library Utf8

/-! ### Heads -/

/-- A head of this major type and number, in any of the five forms. -/
def Head (major n : Nat) (h : Bytes) : Prop :=
  ∃ info count, Form n info count ∧ h = UInt8.ofNat (major * 32 + info) :: bigEndian count n

/-- No head of this type and number is shorter. -/
def Shortest (major n : Nat) (h : Bytes) : Prop :=
  Head major n h ∧ ∀ h', Head major n h' → h.length ≤ h'.length

theorem head_isHead (major : Nat) {n : Nat} (hn : n < 256 ^ 8) : Head major n (head major n) := by
  obtain ⟨info, count, hform, hhead⟩ := head_form major hn
  exact ⟨info, count, hform, hhead⟩

/-- The bounds of the five forms are where the encoder changes from one to the
next. -/
theorem head_shortest (major : Nat) {n : Nat} (hn : n < 256 ^ 8) :
    Shortest major n (head major n) := by
  refine ⟨head_isHead major hn, ?_⟩
  rintro h' ⟨info, count, hform, rfl⟩
  rw [List.length_cons, length_bigEndian]
  unfold head
  cases hform with
  | short h =>
      rw [if_pos h]
      simp
  | one h | two h | four h | eight h =>
      split_ifs <;> simp only [List.length_cons, List.length_nil, length_bigEndian] <;> omega

/-! ### Spellings -/

/-- What an encoding is held to: which heads it may use, and which entries a
map may have, as the encodings of keys and values in the order of the bytes. -/
structure Rules where
  head : Nat → Nat → Bytes → Prop
  entries : List (Bytes × Bytes) → Prop

/-- The bytes encode the value, the entries of its maps in the order in which
the bytes have them, at most `levels` values inside each other. -/
def Spells (rules : Rules) : Nat → Value → Bytes → Prop
  | 0, _, _ => False
  | _ + 1, .int v, enc =>
      if 0 ≤ v then rules.head 0 v.toNat enc else rules.head 1 (-1 - v).toNat enc
  | _ + 1, .bytes b, enc => ∃ h, rules.head 2 b.length h ∧ enc = h ++ b
  | _ + 1, .text s, enc => ∃ h, rules.head 3 (utf8 s).length h ∧ enc = h ++ utf8 s
  | _ + 1, .bool b, enc => enc = [if b then 0xF5 else 0xF4]
  | _ + 1, .null, enc => enc = [0xF6]
  | levels + 1, .array l, enc => ∃ h items, rules.head 4 l.length h ∧
      List.Forall₂ (Spells rules levels) l items ∧ enc = h ++ items.flatten
  | levels + 1, .map m, enc => ∃ h kv, rules.head 5 m.length h ∧
      List.Forall₂ (Both (Spells rules levels)) m kv ∧ rules.entries kv ∧
      enc = h ++ kv.flatMap fun p => p.1 ++ p.2

/-- Shorter keys first, then byte by byte; no key comes twice. -/
def Increasing (kv : List (Bytes × Bytes)) : Prop :=
  kv.Pairwise fun a b =>
    a.1.length < b.1.length ∨ a.1.length = b.1.length ∧ a.1 < b.1

/-- CTAP2 canonical CBOR. -/
def ctap2 : Rules where
  head := Shortest
  entries := Increasing

/-! ### What can be written -/

/-- The objects that the encoder is given, `levels` of them at most inside each
other: numbers that a `long` holds, strings, lists and maps as long as Java has
them, and in no map two keys that are encoded alike. -/
def Writable : Nat → Value → Prop
  | 0, _ => False
  | _ + 1, .int v => -2 ^ 63 ≤ v ∧ v < 2 ^ 63
  | _ + 1, .bytes b => b.length < 2 ^ 31
  | _ + 1, .text s => (utf8 s).length < 2 ^ 31
  | _ + 1, .bool _ => True
  | _ + 1, .null => False
  | levels + 1, .array l => l.length < 2 ^ 31 ∧ ∀ x ∈ l, Writable levels x
  | levels + 1, .map m => m.length < 2 ^ 31 ∧
      (∀ e ∈ m, Writable levels e.1 ∧ Writable levels e.2) ∧
      m.Pairwise fun x y => write x.1 ≠ write y.1

theorem parameter_of_writable {levels : Nat} {v : Value} (h : Writable levels v) :
    Parameter levels v := by
  induction levels generalizing v with
  | zero => exact h
  | succ levels ih =>
      cases v with
      | int v => exact h
      | bytes b => exact trivial
      | text s => exact trivial
      | bool b => exact trivial
      | null => exact h
      | array l => exact fun x hx => ih (h.2 x hx)
      | map m =>
          obtain ⟨-, hentries, hkeys⟩ := h
          constructor
          · apply List.pairwise_map.mpr
            exact hkeys.imp fun hne heq => hne (congrArg write heq)
          · intro e he
            exact ⟨ih (hentries e he).1, ih (hentries e he).2⟩

theorem write_writable {levels : Nat} {v : Value} (h : Writable levels v) :
    ∃ enc, write v = .ok enc := by
  obtain ⟨enc, -, hwrite, -⟩ := write_parameter (parameter_of_writable h)
  exact ⟨enc, hwrite⟩

/-! ### Writing lists and maps -/

/-- The encodings of an entry's key and value. -/
def Writes (e : Value × Value) (p : Bytes × Bytes) : Prop :=
  write e.1 = .ok p.1 ∧ write e.2 = .ok p.2

theorem writeItems_eq {l : List Value} {enc : Bytes} (h : writeItems l = .ok enc) :
    ∃ items, List.Forall₂ (fun x i => write x = .ok i) l items ∧ enc = items.flatten := by
  induction l generalizing enc with
  | nil =>
      cases h
      exact ⟨[], .nil, rfl⟩
  | cons x rest ih =>
      obtain ⟨first, hfirst, h⟩ := bind_ok h
      obtain ⟨others, hothers, h⟩ := bind_ok h
      cases h
      obtain ⟨items, hitems, rfl⟩ := ih hothers
      exact ⟨first :: items, .cons hfirst hitems, rfl⟩

theorem writeEntries_iff {m : List (Value × Value)} {kv : List (Bytes × Bytes)} :
    writeEntries m = .ok kv ↔ List.Forall₂ Writes m kv := by
  constructor
  · intro h
    induction m generalizing kv with
    | nil =>
        cases h
        exact .nil
    | cons e rest ih =>
        obtain ⟨key, hkey, h⟩ := bind_ok h
        obtain ⟨value, hvalue, h⟩ := bind_ok h
        obtain ⟨others, hothers, h⟩ := bind_ok h
        cases h
        exact .cons ⟨hkey, hvalue⟩ (ih hothers)
  · intro h
    induction h with
    | nil => rfl
    | cons he _ ih =>
        rw [writeEntries, he.1, he.2, ih]
        rfl

theorem writeItems_congr {l l' : List Value}
    (h : List.Forall₂ (fun x y => write x = write y) l l') : writeItems l = writeItems l' := by
  induction h with
  | nil => rfl
  | cons hx _ ih => rw [writeItems, writeItems, hx, ih]

/-- Entries that are written alike. -/
def Alike (e e' : Value × Value) : Prop :=
  write e.1 = write e'.1 ∧ write e.2 = write e'.2

theorem writeEntries_congr {m m' : List (Value × Value)} (h : List.Forall₂ Alike m m') :
    writeEntries m = writeEntries m' := by
  induction h with
  | nil => rfl
  | cons he _ ih => rw [writeEntries, writeEntries, he.1, he.2, ih]

/-! ### The order of keys -/

instance : Std.Total keyLe := by
  constructor
  intro a b
  unfold keyLe
  by_cases hlength : a.1.length = b.1.length
  · rw [if_neg (not_not.mpr hlength), if_neg (not_not.mpr hlength.symm)]
    exact List.le_total a.1 b.1
  · rw [if_pos hlength, if_pos (Ne.symm hlength)]
    omega

instance : IsTrans (Bytes × Bytes) keyLe := by
  constructor
  intro a b c hab hbc
  unfold keyLe at hab hbc ⊢
  split at hab
  · split at hbc
    · rw [if_pos (by omega)]
      omega
    · rw [if_pos (by omega)]
      omega
  · split at hbc
    · rw [if_pos (by omega)]
      omega
    · rw [if_neg (by omega)]
      exact List.le_trans hab hbc

theorem keyLe_antisymm {a b : Bytes × Bytes} (hab : keyLe a b) (hba : keyLe b a) :
    a.1 = b.1 := by
  unfold keyLe at hab hba
  by_cases hlength : a.1.length = b.1.length
  · rw [if_neg (not_not.mpr hlength)] at hab
    rw [if_neg (not_not.mpr hlength.symm)] at hba
    exact List.le_antisymm hab hba
  · rw [if_pos hlength] at hab
    rw [if_pos (Ne.symm hlength)] at hba
    omega

/-- No two keys are the same. -/
def Distinct (kv : List (Bytes × Bytes)) : Prop :=
  kv.Pairwise fun a b => a.1 ≠ b.1

theorem Distinct.perm {kv kv' : List (Bytes × Bytes)} (h : Distinct kv) (hperm : kv.Perm kv') :
    Distinct kv' :=
  List.Pairwise.perm h hperm fun hne => Ne.symm hne

/-- Entries with different keys have one order. -/
theorem sorted_eq {kv kv' : List (Bytes × Bytes)} (hdistinct : Distinct kv)
    (hperm : kv.Perm kv') : kv.insertionSort keyLe = kv'.insertionSort keyLe := by
  have hsame := ((List.perm_insertionSort keyLe kv).trans hperm).trans
    (List.perm_insertionSort keyLe kv').symm
  refine hsame.eq_of_pairwise ?_ (List.pairwise_insertionSort keyLe kv)
    (List.pairwise_insertionSort keyLe kv')
  intro a b ha hb hab hba
  by_contra hne
  have hsymm : Std.Symm fun a b : Bytes × Bytes => a.1 ≠ b.1 := ⟨fun _ _ h => Ne.symm h⟩
  have ha' : a ∈ kv := (List.mem_insertionSort keyLe).mp ha
  have hb' : b ∈ kv := hperm.symm.subset ((List.mem_insertionSort keyLe).mp hb)
  exact hdistinct.forall ha' hb' hne (keyLe_antisymm hab hba)

/-- What is sorted and has no key twice increases. -/
theorem sorted_increasing {kv : List (Bytes × Bytes)} (hdistinct : Distinct kv) :
    Increasing (kv.insertionSort keyLe) := by
  have hsorted := List.pairwise_insertionSort keyLe kv
  have hkeys := hdistinct.perm (List.perm_insertionSort keyLe kv).symm
  refine (hsorted.and hkeys).imp ?_
  intro a b hboth
  obtain ⟨hle, hne⟩ := hboth
  unfold keyLe at hle
  split at hle
  · exact .inl hle
  · rename_i hlength
    exact .inr ⟨not_not.mp hlength, (List.le_iff_lt_or_eq.mp hle).resolve_right hne⟩

/-- A map is written by its entries, in whatever order they were put. -/
theorem write_map_perm {m p m' : List (Value × Value)} (hp : p.Perm m)
    (halike : List.Forall₂ Alike p m') {kv : List (Bytes × Bytes)}
    (hkv : writeEntries m = .ok kv) (hdistinct : Distinct kv) :
    write (.map m) = write (.map m') := by
  obtain ⟨kv', hwrites, hperm⟩ := List.perm_comp_forall₂ hp (writeEntries_iff.mp hkv)
  have hkv' : writeEntries m' = .ok kv' :=
    (writeEntries_congr halike).symm.trans (writeEntries_iff.mpr hwrites)
  rw [write, write, hkv, hkv']
  show Except.ok _ = Except.ok _
  rw [hperm.length_eq, sorted_eq hdistinct hperm.symm]

theorem distinct_of_writes {m : List (Value × Value)} {kv : List (Bytes × Bytes)}
    (hkeys : m.Pairwise fun x y => write x.1 ≠ write y.1) (h : List.Forall₂ Writes m kv) :
    Distinct kv := by
  induction h with
  | nil => exact .nil
  | @cons e p rest kv he hrest ih =>
      obtain ⟨hfirst, hkeys⟩ := List.pairwise_cons.mp hkeys
      refine .cons ?_ (ih hkeys)
      intro p' hp' heq
      obtain ⟨e', he', hwrites⟩ := partner_of_mem hrest hp'
      exact hfirst e' he' (he.1.trans ((congrArg _ heq).trans hwrites.1.symm))

/-! ### The order of entries does not show -/

/-- Values that differ in the order of entries only are written alike. -/
theorem write_reordered {levels depth : Nat} {v w : Value} (hv : Writable levels v)
    (h : Reordered depth v w) : write v = write w := by
  induction depth generalizing levels v w with
  | zero => exact absurd h id
  | succ depth ih =>
      cases levels with
      | zero => exact absurd hv id
      | succ levels =>
          rcases reordered_cases h with rfl | ⟨l, l', rfl, rfl⟩ | ⟨m, m', rfl, rfl⟩
          · rfl
          · have hitems : List.Forall₂ (Reordered depth) l l' := h
            have hsame : writeItems l = writeItems l' := by
              apply writeItems_congr
              apply List.Forall₂.imp (R := fun x y => x ∈ l ∧ Reordered depth x y)
              · intro x y hxy
                exact ih (hv.2 x hxy.1) hxy.2
              · exact (List.forall₂_and_left l l').mpr ⟨fun x hx => hx, hitems⟩
            rw [write, write, hsame, hitems.length_eq]
          · obtain ⟨p, hp, hentries⟩ := h
            obtain ⟨enc, hwrite⟩ := write_writable hv
            obtain ⟨kv, hkv, -⟩ := bind_ok hwrite
            obtain ⟨-, hall, hkeys⟩ := hv
            apply write_map_perm hp ?_ hkv (distinct_of_writes hkeys (writeEntries_iff.mp hkv))
            apply List.Forall₂.imp (R := fun x y => x ∈ p ∧ Both (Reordered depth) x y)
            · intro x y hxy
              have hx := hall x (hp.subset hxy.1)
              exact ⟨ih hx.1 hxy.2.1, ih hx.2 hxy.2.2⟩
            · exact (List.forall₂_and_left p m').mpr ⟨fun x hx => hx, hentries⟩

/-- What is written is the canonical encoding of the value with its entries in
the order of their keys. -/
theorem write_canonical {levels : Nat} {v : Value} {enc : Bytes} (hv : Writable levels v)
    (h : write v = .ok enc) :
    ∃ v', Reordered levels v v' ∧ Spells ctap2 levels v' enc := by
  induction levels generalizing v enc with
  | zero => exact absurd hv id
  | succ levels ih =>
      cases v with
      | int v =>
          have hbounds : -2 ^ 63 ≤ v ∧ v < 2 ^ 63 := hv
          rw [write] at h
          cases h
          refine ⟨.int v, rfl, ?_⟩
          unfold Spells
          split
          · exact head_shortest 0 (by omega)
          · exact head_shortest 1 (by omega)
      | bytes b =>
          have hlength : b.length < 2 ^ 31 := hv
          cases h
          exact ⟨.bytes b, rfl, _, head_shortest 2 (by omega), rfl⟩
      | text s =>
          have hlength : (utf8 s).length < 2 ^ 31 := hv
          cases h
          exact ⟨.text s, rfl, _, head_shortest 3 (by omega), rfl⟩
      | bool b =>
          cases h
          exact ⟨.bool b, rfl, rfl⟩
      | null => exact absurd hv id
      | array l =>
          obtain ⟨hlength, hall⟩ := hv
          obtain ⟨body, hitems, h⟩ := bind_ok h
          cases h
          obtain ⟨items, hwrites, rfl⟩ := writeItems_eq hitems
          have hchosen : List.Forall₂ (fun x i => ∃ x', Reordered levels x x' ∧
              Spells ctap2 levels x' i) l items := by
            refine List.Forall₂.imp ?_ ((List.forall₂_and_left l items).mpr ⟨fun x hx => hx, hwrites⟩)
            intro x i hx
            exact ih (hall x hx.1) hx.2
          obtain ⟨l', hre, hspells⟩ := between_of_forall₂ hchosen
          refine ⟨.array l', hre, _, items, ?_, hspells, rfl⟩
          rw [← hre.length_eq]
          exact head_shortest 4 (by omega)
      | map m =>
          obtain ⟨hlength, hall, hkeys⟩ := hv
          obtain ⟨kv, hkv, h⟩ := bind_ok h
          cases h
          have hwrites := writeEntries_iff.mp hkv
          obtain ⟨p, hp, hpm⟩ :=
            List.perm_comp_forall₂ (List.perm_insertionSort keyLe kv) hwrites.flip
          have hchosen : List.Forall₂ (fun e pair => ∃ e', Both (Reordered levels) e e' ∧
              Both (Spells ctap2 levels) e' pair) p (kv.insertionSort keyLe) := by
            refine List.Forall₂.imp ?_
              ((List.forall₂_and_left p _).mpr ⟨fun e he => he, hp.flip⟩)
            intro e pair he
            obtain ⟨hmem, hkey, hvalue⟩ := he
            have hwritable := hall e (hpm.subset hmem)
            obtain ⟨k', hkre, hkspells⟩ := ih hwritable.1 hkey
            obtain ⟨v', hvre, hvspells⟩ := ih hwritable.2 hvalue
            exact ⟨(k', v'), ⟨hkre, hvre⟩, hkspells, hvspells⟩
          obtain ⟨m', hre, hspells⟩ := between_of_forall₂ hchosen
          refine ⟨.map m', ⟨p, hpm, hre⟩, _, _, ?_, hspells,
            sorted_increasing (distinct_of_writes hkeys hwrites), rfl⟩
          rw [← hre.length_eq, hpm.length_eq, hwrites.length_eq]
          exact head_shortest 5 (by rw [← hwrites.length_eq]; omega)

/-- The bytes of a value do not depend on the order in which the entries of its
maps were put, and they are canonical. -/
theorem encode_canonical {levels depth : Nat} {v w : Value} (hv : Writable levels v)
    (h : Reordered depth v w) :
    encode v = encode w ∧ ∃ enc v', encode v = .ok enc ∧ Reordered levels v v' ∧
      Spells ctap2 levels v' enc := by
  obtain ⟨enc, hwrite⟩ := write_writable hv
  obtain ⟨v', hre, hspells⟩ := write_canonical hv hwrite
  exact ⟨write_reordered hv h, enc, v', hwrite, hre, hspells⟩

/-! ### Equal keys -/

/-- Entries with keys that are all different are put one behind the other. -/
theorem foldl_put {m acc : List (Value × Value)}
    (h : (acc ++ m).Pairwise fun x y => ¬ equals y.1 x.1 = true) :
    m.foldl (fun m e => put m e.1 e.2) acc = acc ++ m := by
  induction m generalizing acc with
  | nil => simp
  | cons e rest ih =>
      have hnew : ¬ acc.any (fun e' => equals e.1 e'.1) = true := by
        intro hany
        obtain ⟨e', he', hequal⟩ := List.any_eq_true.mp hany
        exact (List.pairwise_append.mp h).2.2 e' he' e List.mem_cons_self hequal
      have hput : put acc e.1 e.2 = acc ++ [e] := by
        rw [put, if_neg hnew]
      rw [List.foldl_cons, hput, ih (by simpa using h)]
      simp

/-- Each entry of a map that contains all entries of another has a partner that
is written alike. -/
theorem partner_of_contains {m m' : List (Value × Value)} (h : containsAll m m' = true)
    {e : Value × Value} (he : e ∈ m) :
    ∃ e' ∈ m', equals e.1 e'.1 = true ∧ equals e.2 e'.2 = true := by
  induction m with
  | nil => cases he
  | cons first rest ih =>
      rw [containsAll, Bool.and_eq_true] at h
      rcases List.mem_cons.mp he with rfl | he
      · obtain ⟨e', he', hboth⟩ := List.any_eq_true.mp h.1
        exact ⟨e', he', Bool.and_eq_true _ _ ▸ hboth⟩
      · exact ih h.2 he

theorem equalItems_alike {l l' : List Value} (h : equalItems l l' = true)
    (hitem : ∀ x ∈ l, ∀ y, equals x y = true → write x = write y) :
    List.Forall₂ (fun x y => write x = write y) l l' := by
  induction l generalizing l' with
  | nil =>
      cases l' with
      | nil => exact .nil
      | cons y rest => cases h
  | cons x rest ih =>
      cases l' with
      | nil => cases h
      | cons y rest' =>
          rw [equalItems, Bool.and_eq_true] at h
          refine .cons (hitem x List.mem_cons_self y h.1) (ih h.2 ?_)
          intro x' hx'
          exact hitem x' (List.mem_cons_of_mem _ hx')

/-- What an entry is written as. -/
def written (e : Value × Value) : Except Thrown Bytes × Except Thrown Bytes :=
  (write e.1, write e.2)

/-- Objects that are equal are written alike. -/
theorem write_of_equals {levels : Nat} {a b : Value} (ha : Writable levels a)
    (h : equals a b = true) : write a = write b := by
  induction levels generalizing a b with
  | zero => exact absurd ha id
  | succ levels ih =>
      cases a with
      | int v => rw [(equals_atom (a := .int v) trivial b).mp h]
      | text s => rw [(equals_atom (a := .text s) trivial b).mp h]
      | bytes s => simp [equals] at h
      | null => exact absurd ha id
      | bool x =>
          cases b with
          | bool y =>
              rw [equals, beq_iff_eq] at h
              rw [h]
          | _ => simp [equals] at h
      | array l =>
          cases b with
          | array l' =>
              rw [equals] at h
              have halike := equalItems_alike h fun x hx y hxy => ih (ha.2 x hx) hxy
              rw [write, write, writeItems_congr halike, halike.length_eq]
          | _ => simp [equals] at h
      | map m =>
          cases b with
          | map m' =>
              rw [equals, Bool.and_eq_true, beq_iff_eq] at h
              obtain ⟨hlength, hcontains⟩ := h
              obtain ⟨enc, hwrite⟩ := write_writable ha
              obtain ⟨kv, hkv, -⟩ := bind_ok hwrite
              obtain ⟨-, hall, hkeys⟩ := ha
              -- The keys of `m` are written differently, so its entries have
              -- different partners, and these are all entries of `m'`.
              have hnodup : (m.map written).Nodup := by
                apply List.pairwise_map.mpr
                exact hkeys.imp fun hne heq => hne (congrArg Prod.fst heq)
              have hsubset : m.map written ⊆ m'.map written := by
                intro w hw
                obtain ⟨e, he, rfl⟩ := List.mem_map.mp hw
                obtain ⟨e', he', hkey, hvalue⟩ := partner_of_contains hcontains he
                refine List.mem_map.mpr ⟨e', he', ?_⟩
                exact Prod.ext (ih (hall e he).1 hkey).symm (ih (hall e he).2 hvalue).symm
              have hperm : (m'.map written).Perm (m.map written) := by
                refine ((hnodup.subperm hsubset).perm_of_length_le ?_).symm
                rw [List.length_map, List.length_map, hlength]
              have hself : List.Forall₂ (fun w e => w = written e) (m.map written) m :=
                List.forall₂_map_left_iff.mpr (List.forall₂_same.mpr fun _ _ => rfl)
              obtain ⟨p, hp, hpm⟩ := List.perm_comp_forall₂ hperm hself
              refine write_map_perm hpm ?_ hkv
                (distinct_of_writes hkeys (writeEntries_iff.mp hkv))
              refine (List.forall₂_map_left_iff.mp hp).flip.imp fun e e' heq => ?_
              exact ⟨(congrArg Prod.fst heq).symm, (congrArg Prod.snd heq).symm⟩
          | _ => simp [equals] at h

/-! ### Reading it back -/

theorem writable_reordered {levels depth : Nat} {v v' : Value} (hv : Writable levels v)
    (h : Reordered depth v v') : Writable levels v' := by
  induction depth generalizing levels v v' with
  | zero => exact absurd h id
  | succ depth ih =>
      cases levels with
      | zero => exact absurd hv id
      | succ levels =>
          rcases reordered_cases h with rfl | ⟨l, l', rfl, rfl⟩ | ⟨m, m', rfl, rfl⟩
          · exact hv
          · have hitems : List.Forall₂ (Reordered depth) l l' := h
            obtain ⟨hlength, hall⟩ := hv
            refine ⟨hitems.length_eq ▸ hlength, ?_⟩
            intro y hy
            obtain ⟨x, hx, hxy⟩ := partner_of_mem hitems hy
            exact ih (hall x hx) hxy
          · obtain ⟨p, hp, hentries⟩ := h
            obtain ⟨hlength, hall, hkeys⟩ := hv
            refine ⟨?_, ?_, ?_⟩
            · rw [← hentries.length_eq, hp.length_eq]
              exact hlength
            · intro e' he'
              obtain ⟨e, he, hboth⟩ := mem_reordered hp hentries he'
              exact ⟨ih (hall e he).1 hboth.1, ih (hall e he).2 hboth.2⟩
            · have hkeys' : (p.map fun e => write e.1).Nodup := by
                rw [(hp.map fun e => write e.1).nodup_iff]
                exact List.pairwise_map.mpr hkeys
              have hmaps : (p.map fun e => write e.1) = m'.map fun e => write e.1 := by
                rw [← List.forall₂_eq_eq_eq, List.forall₂_map_left_iff,
                  List.forall₂_map_right_iff]
                refine List.Forall₂.imp ?_
                  ((List.forall₂_and_left p m').mpr ⟨fun x hx => hx, hentries⟩)
                intro e e' he
                exact write_reordered (hall e (hp.subset he.1)).1 he.2.1
              rw [hmaps] at hkeys'
              exact List.pairwise_map.mp hkeys'

/-- The decoder puts the entries of a map together as they stand. -/
theorem merged_writable {levels : Nat} {v : Value} (hv : Writable levels v) : merged v = v := by
  induction levels generalizing v with
  | zero => exact absurd hv id
  | succ levels ih =>
      cases v with
      | array l =>
          have hsame : l.map merged = l := by
            conv_rhs => rw [← List.map_id l]
            apply List.map_congr_left
            intro x hx
            exact ih (hv.2 x hx)
          rw [merged, mergedItems_eq, hsame]
      | map m =>
          obtain ⟨-, hall, hkeys⟩ := hv
          have hsame : mergedEntries m = m := by
            rw [mergedEntries_eq]
            conv_rhs => rw [← List.map_id m]
            apply List.map_congr_left
            intro e he
            exact Prod.ext (ih (hall e he).1) (ih (hall e he).2)
          rw [merged, hsame, foldl_put]
          · rfl
          · rw [List.nil_append]
            refine hkeys.imp_of_mem ?_
            intro x y _ hy hne hequal
            exact hne (write_of_equals (hall y hy).1 hequal).symm
      | _ => rfl

/-- What is encoded is decoded to the same value, integers as they are and maps
up to the order of their entries, and the whole encoding is read. An encoding
is an array, so it is shorter than 2^31 bytes. -/
theorem decode_encode {v : Value} (hv : Writable 9 v) :
    ∃ enc, encode v = .ok enc ∧ (enc.length < 2 ^ 31 →
      ∃ v', decode enc 0 = .ok v' ∧ read enc 9 0 = .ok (v', enc.length) ∧ Reordered 9 v v') := by
  obtain ⟨enc, v', hwrite, hencodes, hre⟩ := write_parameter (parameter_of_writable hv)
  refine ⟨enc, hwrite, fun hlength => ⟨v', ?_⟩⟩
  have hread : read enc 9 0 = .ok (v', enc.length) := by
    have hwhole := read_encodes hlength hencodes [] [] (by simp)
    rw [merged_writable (writable_reordered hv hre), List.length_nil, Nat.zero_add] at hwhole
    exact hwhole
  refine ⟨?_, hread, hre⟩
  rw [decode, hread]
  rfl

/-! ### A map of a map -/

/-- `{"b": [-1, true], {2: h'00', 1: 24}: "a"}`, entries as they were put. -/
def nested : Value :=
  .map [(.text ['b'], .array [.int (-1), .bool true]),
    (.map [(.int 2, .bytes [0]), (.int 1, .int 24)], .text ['a'])]

theorem nested_writable : Writable 9 nested := by
  have htext (levels : Nat) (c : Char) (hc : (utf8 [c]).length < 2 ^ 31) :
      Writable (levels + 1) (.text [c]) := hc
  have hbytes (levels : Nat) : Writable (levels + 1) (.bytes [0]) := by
    show 1 < 2 ^ 31
    omega
  have hint (levels : Nat) {v : Int} (hlow : -2 ^ 63 ≤ v) (hhigh : v < 2 ^ 63) :
      Writable (levels + 1) (.int v) := ⟨hlow, hhigh⟩
  refine ⟨by decide, ?_, by decide +kernel⟩
  intro e he
  fin_cases he
  · refine ⟨htext 7 'b' (by decide), by decide, ?_⟩
    intro x hx
    fin_cases hx
    · exact hint 6 (by omega) (by omega)
    · exact trivial
  · refine ⟨⟨by decide, ?_, by decide +kernel⟩, htext 7 'a' (by decide)⟩
    intro e he
    fin_cases he
    · exact ⟨hint 6 (by omega) (by omega), hbytes 6⟩
    · exact ⟨hint 6 (by omega) (by omega), hint 6 (by omega) (by omega)⟩

/-- The same with the entries of both maps the other way round. -/
def nestedSwapped : Value :=
  .map [(.map [(.int 1, .int 24), (.int 2, .bytes [0])], .text ['a']),
    (.text ['b'], .array [.int (-1), .bool true])]

theorem nested_decoded : ∃ enc v', encode nested = .ok enc ∧ enc.length < 2 ^ 31 ∧
    decode enc 0 = .ok v' ∧ Reordered 9 nested v' := by
  obtain ⟨enc, hencode, hdecode⟩ := decode_encode nested_writable
  have hlength : enc.length < 2 ^ 31 := by
    obtain rfl := Except.ok.inj hencode
    decide +kernel
  obtain ⟨v', hv', -, hre⟩ := hdecode hlength
  exact ⟨enc, v', hencode, hlength, hv', hre⟩

theorem nested_canonical : encode nested = encode nestedSwapped ∧ ∃ enc v',
    encode nested = .ok enc ∧ Reordered 9 nested v' ∧ Spells ctap2 9 v' enc := by
  refine @encode_canonical 9 9 nested nestedSwapped nested_writable ⟨_, List.Perm.swap _ _ _, ?_⟩
  refine .cons ⟨⟨_, List.Perm.swap _ _ _, ?_⟩, rfl⟩ (.cons ⟨rfl, ?_⟩ .nil)
  · exact .cons ⟨rfl, rfl⟩ (.cons ⟨rfl, rfl⟩ .nil)
  · exact .cons rfl (.cons rfl .nil)

end Passkey.Phone.Cbor

import Mathlib
import Passkey.Library.Positions
import Passkey.Phone.Cbor
import Passkey.Utf8

/-!
What the phone's encoder writes for the parameters of a request, and what its
decoder reads from there. The encoder orders the entries of each map by their
keys' encodings, so what is read is the value with its maps in that order.
-/

namespace Passkey.Phone.Cbor

open Library Utf8

/-! ### Parameters -/

/-- Integers, byte strings, text, booleans, arrays and maps with distinct keys,
`levels` of them at most inside each other. -/
def Parameter : Nat → Value → Prop
  | 0, _ => False
  | _ + 1, .int v => -2 ^ 63 ≤ v ∧ v < 2 ^ 63
  | _ + 1, .bytes _ => True
  | _ + 1, .text _ => True
  | _ + 1, .bool _ => True
  | _ + 1, .null => False
  | levels + 1, .array l => ∀ x ∈ l, Parameter levels x
  | levels + 1, .map m =>
      (m.map Prod.fst).Nodup ∧ ∀ e ∈ m, Parameter levels e.1 ∧ Parameter levels e.2

/-- Related keys and related values. -/
def Both {α β : Type} (R : α → β → Prop) (a : α × α) (b : β × β) : Prop :=
  R a.1 b.1 ∧ R a.2 b.2

/-- A value and bytes that encode it, with the entries of maps in the order in
which the bytes have them. -/
def Encodes : Nat → Value → Bytes → Prop
  | 0, _, _ => False
  | _ + 1, .int v, enc =>
      (-2 ^ 63 ≤ v ∧ v < 2 ^ 63) ∧ enc = if 0 ≤ v then head 0 v.toNat else head 1 (-1 - v).toNat
  | _ + 1, .bytes b, enc => enc = head 2 b.length ++ b
  | _ + 1, .text s, enc => enc = head 3 (utf8 s).length ++ utf8 s
  | _ + 1, .bool b, enc => enc = [if b then 0xF5 else 0xF4]
  | _ + 1, .null, _ => False
  | levels + 1, .array l, enc =>
      ∃ items, List.Forall₂ (Encodes levels) l items ∧ enc = head 4 l.length ++ items.flatten
  | levels + 1, .map m, enc =>
      ∃ kv : List (Bytes × Bytes),
        List.Forall₂ (Both (Encodes levels)) m kv ∧
        enc = head 5 m.length ++ kv.flatMap fun p => p.1 ++ p.2

/-- The same value but for the order of the entries of maps. -/
def Reordered : Nat → Value → Value → Prop
  | 0, _, _ => False
  | levels + 1, .array l, .array l' => List.Forall₂ (Reordered levels) l l'
  | levels + 1, .map m, .map m' =>
      ∃ p, p.Perm m ∧ List.Forall₂ (Both (Reordered levels)) p m'
  | _ + 1, v, v' => v = v'

/-! ### Writing -/

theorem writeItems_ok {levels : Nat} {l : List Value}
    (hitem : ∀ x ∈ l, ∃ enc x', write x = .ok enc ∧ Encodes levels x' enc ∧ Reordered levels x x') :
    ∃ items l', writeItems l = .ok items.flatten ∧ List.Forall₂ (Encodes levels) l' items ∧
      List.Forall₂ (Reordered levels) l l' := by
  induction l with
  | nil => exact ⟨[], [], rfl, .nil, .nil⟩
  | cons x rest ih =>
      obtain ⟨enc, x', hwrite, henc, hx⟩ := hitem x List.mem_cons_self
      obtain ⟨items, l', hrest, hitems, hl⟩ := ih fun y hy => hitem y (List.mem_cons_of_mem _ hy)
      refine ⟨enc :: items, x' :: l', ?_, .cons henc hitems, .cons hx hl⟩
      rw [writeItems, hwrite, hrest]
      rfl

/-- An entry and the encodings of its key and value. -/
def Entry (levels : Nat) (e : Value × Value) (p : Bytes × Bytes) : Prop :=
  ∃ e', Both (Encodes levels) e' p ∧ Both (Reordered levels) e e'

theorem writeEntries_ok {levels : Nat} {m : List (Value × Value)}
    (hitem : ∀ x, ((∃ e ∈ m, x = e.1 ∨ x = e.2)) →
      ∃ enc x', write x = .ok enc ∧ Encodes levels x' enc ∧ Reordered levels x x') :
    ∃ kv, writeEntries m = .ok kv ∧ List.Forall₂ (Entry levels) m kv := by
  induction m with
  | nil => exact ⟨[], rfl, .nil⟩
  | cons e rest ih =>
      obtain ⟨key, k', hkey, hk, hkr⟩ := hitem e.1 ⟨e, List.mem_cons_self, .inl rfl⟩
      obtain ⟨value, v', hvalue, hv, hvr⟩ := hitem e.2 ⟨e, List.mem_cons_self, .inr rfl⟩
      obtain ⟨kv, hrest, hkv⟩ := ih fun x ⟨e', he', hx⟩ =>
        hitem x ⟨e', List.mem_cons_of_mem _ he', hx⟩
      refine ⟨(key, value) :: kv, ?_, .cons ⟨(k', v'), ⟨hk, hv⟩, hkr, hvr⟩ hkv⟩
      rw [writeEntries, hkey, hvalue, hrest]
      rfl

/-- Entries in another order are the entries of a map in another order. -/
theorem entries_perm {levels : Nat} {m : List (Value × Value)} {kv sorted : List (Bytes × Bytes)}
    (hkv : List.Forall₂ (Entry levels) m kv) (hperm : sorted.Perm kv) :
    ∃ p m', p.Perm m ∧ List.Forall₂ (Both (Encodes levels)) m' sorted ∧
      List.Forall₂ (Both (Reordered levels)) p m' := by
  obtain ⟨p, hp, hpm⟩ := List.perm_comp_forall₂ hperm hkv.flip
  have hchosen : List.Forall₂ (fun e pair => ∃ e', Both (Reordered levels) e e' ∧
      Both (Encodes levels) e' pair) p sorted := by
    refine hp.flip.imp fun e pair hentry => ?_
    obtain ⟨e', henc, hre⟩ := hentry
    exact ⟨e', hre, henc⟩
  obtain ⟨m', hpm', hm'⟩ := between_of_forall₂ hchosen
  exact ⟨p, m', hpm, hm', hpm'⟩

/-- The encoder writes every parameter, its maps in the order of their keys. -/
theorem write_parameter {levels : Nat} {v : Value} (h : Parameter levels v) :
    ∃ enc v', write v = .ok enc ∧ Encodes levels v' enc ∧ Reordered levels v v' := by
  induction levels generalizing v with
  | zero => exact absurd h id
  | succ levels ih =>
      cases v with
      | int v => exact ⟨_, .int v, rfl, ⟨h, rfl⟩, rfl⟩
      | bytes b => exact ⟨_, .bytes b, rfl, rfl, rfl⟩
      | text s => exact ⟨_, .text s, rfl, rfl, rfl⟩
      | bool b => exact ⟨_, .bool b, rfl, rfl, rfl⟩
      | null => exact absurd h id
      | array l =>
          obtain ⟨items, l', hwrite, hitems, hl⟩ := writeItems_ok fun x hx => ih (h x hx)
          refine ⟨head 4 l.length ++ items.flatten, .array l', ?_, ⟨items, hitems, ?_⟩, hl⟩
          · rw [write, hwrite]
            rfl
          · rw [hl.length_eq]
      | map m =>
          have hitem (x : Value) (hx : ∃ e ∈ m, x = e.1 ∨ x = e.2) :
              ∃ enc x', write x = .ok enc ∧ Encodes levels x' enc ∧ Reordered levels x x' := by
            obtain ⟨e, he, rfl | rfl⟩ := hx
            · exact ih (h.2 e he).1
            · exact ih (h.2 e he).2
          obtain ⟨kv, hwrite, hkv⟩ := writeEntries_ok hitem
          have hsorted := List.perm_insertionSort keyLe kv
          obtain ⟨p, m', hp, hm', hpm'⟩ := entries_perm hkv hsorted
          refine ⟨_, .map m', by rw [write, hwrite]; rfl, ⟨_, hm', ?_⟩, p, hp, hpm'⟩
          rw [hm'.length_eq, hsorted.length_eq]

/-! ### Heads -/

/-- The additional information of a head and the number of bytes after it. -/
inductive Form (v : Nat) : Nat → Nat → Prop
  | short (h : v < 24) : Form v v 0
  | one (h : v < 256) : Form v 24 1
  | two (h : v < 256 ^ 2) : Form v 25 2
  | four (h : v < 256 ^ 4) : Form v 26 4
  | eight (h : v < 256 ^ 8) : Form v 27 8

theorem Form.bound {v info count : Nat} (h : Form v info count) : info < 32 := by
  cases h <;> omega

theorem head_form (major : Nat) {v : Nat} (hv : v < 256 ^ 8) :
    ∃ info count, Form v info count ∧
      head major v = UInt8.ofNat (major * 32 + info) :: bigEndian count v := by
  unfold head
  split
  · rename_i h
    exact ⟨v, 0, .short h, rfl⟩
  · split
    · rename_i h
      exact ⟨24, 1, .one h, rfl⟩
    · split
      · rename_i h
        exact ⟨25, 2, .two h, rfl⟩
      · split
        · rename_i h
          exact ⟨26, 4, .four h, rfl⟩
        · exact ⟨27, 8, .eight hv, rfl⟩

/-- The first byte of a head gives its two parts. -/
theorem first_parts {major info : Nat} (hmajor : major < 8) (hinfo : info < 32) :
    (UInt8.ofNat (major * 32 + info)).toNat / 32 = major ∧
      (UInt8.ofNat (major * 32 + info)).toNat % 32 = info := by
  have hbyte : (UInt8.ofNat (major * 32 + info)).toNat = major * 32 + info := by
    rw [UInt8.toNat_ofNat']
    omega
  rw [hbyte]
  omega

/-! ### Reading numbers -/

theorem byteAt_append (before after : Bytes) (x : UInt8) :
    byteAt (before ++ x :: after) before.length = .ok (x.toNat, before.length + 1) := by
  simp [byteAt]

theorem wrap_of_lt {v : Int} (hlow : 0 ≤ v) (hhigh : v < 2 ^ 63) : wrap 64 v = v := by
  rw [wrap, Int.bmod_eq_of_le] <;> omega

/-- A number that a `long` holds is read without wrapping. -/
theorem longAt_bigEndian (before after : Bytes) {count v start : Nat}
    (hfits : start * 256 ^ count + v % 256 ^ count < 2 ^ 63) :
    longAt (before ++ (bigEndian count v ++ after)) count start before.length
      = .ok (((start * 256 ^ count + v % 256 ^ count : Nat) : Int), before.length + count) := by
  induction count generalizing before start with
  | zero => simp [longAt, Nat.mod_one]
  | succ count ih =>
      have hbyte : (UInt8.ofNat (v / 256 ^ count)).toNat = v / 256 ^ count % 256 := by simp
      have htotal : (start * 256 + v / 256 ^ count % 256) * 256 ^ count + v % 256 ^ count
          = start * 256 ^ (count + 1) + v % 256 ^ (count + 1) := by
        have hsplit : v % 256 ^ (count + 1)
            = v / 256 ^ count % 256 * 256 ^ count + v % 256 ^ count := by
          rw [Nat.pow_succ, Nat.mod_mul, Nat.mul_comm (256 ^ count), Nat.add_comm]
        rw [hsplit, Nat.pow_succ, Nat.add_mul, Nat.mul_assoc, Nat.mul_comm 256, Nat.add_assoc]
      have hstart : start * 256 + v / 256 ^ count % 256
          ≤ (start * 256 + v / 256 ^ count % 256) * 256 ^ count :=
        Nat.le_mul_of_pos_right _ (Nat.pow_pos (by decide))
      have hwrap : wrap 64 ((start : Int) * 256 + (v / 256 ^ count % 256 : Nat))
          = ((start * 256 + v / 256 ^ count % 256 : Nat) : Int) := by
        rw [wrap_of_lt (by omega) (by omega)]
        omega
      have hread := ih (before ++ [UInt8.ofNat (v / 256 ^ count)]) (htotal ▸ hfits)
      rw [bigEndian, longAt, List.cons_append, byteAt_append, hbyte]
      simp only [List.append_assoc, List.singleton_append, List.length_append,
        List.length_singleton, htotal] at hread
      show longAt _ count (wrap 64 ((start : Int) * 256 + (v / 256 ^ count % 256 : Nat))) _ = _
      rw [hwrap, hread, Nat.add_assoc, Nat.add_comm 1]

/-- A head is read back where a `long` holds its number. -/
theorem arg_head (before after : Bytes) {v info count : Nat} (hform : Form v info count)
    (hv : v < 2 ^ 63) :
    arg (before ++ (bigEndian count v ++ after)) before.length info
      = .ok ((v : Int), before.length + count) := by
  have hlong {count : Nat} (hcount : v < 256 ^ count) :
      longAt (before ++ (bigEndian count v ++ after)) count 0 before.length
        = .ok ((v : Int), before.length + count) := by
    have hread := @longAt_bigEndian before after count v 0
    rw [Nat.mod_eq_of_lt hcount, Nat.zero_mul, Nat.zero_add] at hread
    exact hread hv
  cases hform with
  | short h => simp [arg, h]
  | one h => exact hlong h
  | two h => exact hlong h
  | four h => exact hlong h
  | eight h => exact hlong h

/-! ### Reading text -/

theorem string_sequence {c : Char} {enc : Bytes} (h : Sequence c enc) (rest : Bytes) :
    string (enc ++ rest) = c :: string rest := by
  have hchar {n : Nat} (hn : n = c.toNat) : Char.ofNat n = c := hn ▸ Char.ofNat_toNat c
  cases h with
  | one a ha hc =>
      rw [string.eq_def]
      simp [lead_one ha, hchar hc]
  | two a b ha hb hc =>
      obtain ⟨hone, htwo⟩ := lead_two ha
      rw [string.eq_def]
      simp [hone, htwo, hb, hchar hc]
  | three a b d ha hb hd hc =>
      obtain ⟨hone, htwo, hthree⟩ := lead_three ha
      rw [string.eq_def]
      simp only [List.cons_append, List.nil_append, Bool.and_eq_true, decide_eq_true_eq, hone,
        htwo, hthree, hb, hd, hchar hc]
      rfl
  | four a b d e ha hb hd he hc =>
      obtain ⟨hone, htwo, hthree, hfour⟩ := lead_four ha
      rw [string.eq_def]
      simp only [List.cons_append, List.nil_append, Bool.and_eq_true, decide_eq_true_eq, hone,
        htwo, hthree, hfour, hb, hd, he, hchar hc]
      rfl

/-- Text is read back from its bytes. -/
theorem string_utf8 (s : Text) : string (utf8 s) = s := by
  induction s with
  | nil => rfl
  | cons c rest ih =>
      rw [utf8, List.flatMap_cons, string_sequence (sequence_encode c)]
      exact congrArg _ ih

/-! ### Reading values -/

mutual

/-- What the decoder makes of a value, whose entries it puts into a map one
after the other. -/
def merged : Value → Value
  | .array l => .array (mergedItems l)
  | .map m => .map ((mergedEntries m).foldl (fun m e => put m e.1 e.2) [])
  | v => v

def mergedItems : List Value → List Value
  | [] => []
  | x :: rest => merged x :: mergedItems rest

def mergedEntries : List (Value × Value) → List (Value × Value)
  | [] => []
  | (k, v) :: rest => (merged k, merged v) :: mergedEntries rest

end

theorem mergedItems_eq (l : List Value) : mergedItems l = l.map merged := by
  induction l with
  | nil => rfl
  | cons x rest ih => rw [mergedItems, ih, List.map_cons]

theorem mergedEntries_eq (m : List (Value × Value)) :
    mergedEntries m = m.map fun e => (merged e.1, merged e.2) := by
  induction m with
  | nil => rfl
  | cons e rest ih => rw [mergedEntries, ih, List.map_cons]

theorem readItems_eq {α : Type} (item : Nat → Except Thrown (α × Nat)) (n p : Nat) :
    readItems item n p = items item n p := by
  induction n generalizing p with
  | zero => rfl
  | succ n ih =>
      rw [readItems, items]
      exact congrArg _ (funext fun x => congrArg (· >>= _) (ih x.2))

/-- What the decoder reads behind a head. -/
def readBody (b : Bytes) (levels major : Nat) (v : Int) (p : Nat) : Except Thrown (Value × Nat) :=
  if major = 0 then return (.int v, p)
  else if major = 1 then return (.int (-1 - v), p)
  else if major = 2 || major = 3 then
    if v > (b.length : Int) - p then throw .illegalArgument
    else do
      let s ← copyOfRange b p (wrap 32 (p + wrap 32 v))
      let p := (wrap 32 (p + wrap 32 v)).toNat
      return (if major = 2 then .bytes s else .text (string s), p)
  else if major = 4 then do
    let (items, p) ← readItems (read b levels) v.toNat p
    return (.array items, p)
  else if major = 5 then do
    let (entries, p) ← readItems (pair (read b levels) (read b levels)) v.toNat p
    return (.map (entries.foldl (fun m e => put m e.1 e.2) []), p)
  else throw .illegalArgument

theorem read_head {b before after : Bytes} (levels : Nat) {major v : Nat} (hmajor : major < 7)
    (hv : v < 2 ^ 63) (hb : b = before ++ (head major v ++ after)) :
    read b (levels + 1) before.length
      = readBody b levels major v (before.length + (head major v).length) := by
  obtain ⟨info, count, hform, hhead⟩ := @head_form major v (by omega)
  obtain ⟨hfirst, hinfo⟩ := first_parts (by omega : major < 8) hform.bound
  have hbyte : byteAt b before.length
      = .ok ((UInt8.ofNat (major * 32 + info)).toNat, before.length + 1) := by
    rw [hb, hhead]
    exact byteAt_append before _ _
  have harg : arg b (before.length + 1) info = .ok ((v : Int), before.length + 1 + count) := by
    have hread := arg_head (before ++ [UInt8.ofNat (major * 32 + info)]) after hform hv
    rw [List.length_append, List.append_assoc] at hread
    rw [hb, hhead]
    exact hread
  have hnot : major ≠ 7 := by omega
  rw [read, hbyte]
  show (if (UInt8.ofNat (major * 32 + info)).toNat / 32 = 7 then _ else _) = _
  rw [hfirst, if_neg hnot, hinfo, harg, hhead, List.length_cons, length_bigEndian,
    Nat.add_assoc, Nat.add_comm 1]
  rfl

theorem wrap_int {v : Int} (hlow : 0 ≤ v) (hhigh : v < 2 ^ 31) : wrap 32 v = v := by
  rw [wrap, Int.bmod_eq_of_le] <;> omega

/-- A byte or text string is the bytes that its head counts. -/
theorem readBody_string {b before part after : Bytes} {levels major : Nat}
    (hmajor : major = 2 ∨ major = 3) (hb : b = before ++ (part ++ after))
    (hlen : b.length < 2 ^ 31) :
    readBody b levels major part.length before.length
      = .ok (if major = 2 then .bytes part else .text (string part),
          before.length + part.length) := by
  have hlength : b.length = before.length + (part.length + after.length) := by
    rw [hb, List.length_append, List.length_append]
  have hstop : wrap 32 ((before.length : Int) + wrap 32 part.length)
      = ((before.length + part.length : Nat) : Int) := by
    rw [@wrap_int part.length (by omega) (by omega), wrap_int (by omega) (by omega)]
    omega
  have hcopy : copyOfRange b before.length ((before.length + part.length : Nat) : Int)
      = .ok part := by
    have hcount : (((before.length + part.length : Nat) : Int) - before.length).toNat
        = part.length := by omega
    have hpart : (b.drop before.length).take part.length = part := by
      rw [hb, List.drop_left, List.take_left]
    have hinside : ¬ ((decide ((before.length : Int) < 0)
        || decide ((before.length : Int) > b.length)) = true) := by
      simp only [Bool.or_eq_true, decide_eq_true_eq]
      omega
    rw [copyOfRange, if_neg (by omega), if_neg hinside]
    simp only [hcount, Int.toNat_natCast, hpart, Nat.sub_self, List.replicate_zero,
      List.append_nil]
  have hfits : ¬ ((part.length : Int) > (b.length : Int) - (before.length : Int)) := by omega
  have hstring : (decide (major = 2) || decide (major = 3)) = true := by simpa using hmajor
  rw [readBody, if_neg (by omega), if_neg (by omega), if_pos hstring, if_neg hfits, hstop, hcopy]
  rfl

theorem read_string {b before part after : Bytes} {levels major : Nat}
    (hmajor : major = 2 ∨ major = 3)
    (hb : b = before ++ (head major part.length ++ part ++ after)) (hlen : b.length < 2 ^ 31) :
    read b (levels + 1) before.length
      = .ok (if major = 2 then .bytes part else .text (string part),
          before.length + (head major part.length ++ part).length) := by
  rw [List.append_assoc] at hb
  have hfits : part.length < 2 ^ 63 := by
    have hlength := congrArg List.length hb
    simp only [List.length_append] at hlength
    omega
  rw [read_head levels (by omega) hfits hb]
  have hbody := @readBody_string b (before ++ head major part.length) part after levels major
    hmajor (by rw [hb, List.append_assoc]) hlen
  simp only [List.length_append, Nat.add_assoc] at hbody ⊢
  exact hbody

theorem read_bool {b before after : Bytes} (levels : Nat) (x : Bool)
    (hb : b = before ++ ([if x then 0xF5 else 0xF4] ++ after)) :
    read b (levels + 1) before.length = .ok (.bool x, before.length + 1) := by
  have hbyte := byteAt_append before after (if x then 0xF5 else 0xF4)
  rw [← List.singleton_append, ← hb] at hbyte
  rw [read, hbyte]
  cases x <;> rfl

theorem head_pos (major v : Nat) : 0 < (head major v).length := by
  unfold head
  split_ifs <;> simp

theorem encodes_pos {levels : Nat} {v : Value} {enc : Bytes} (h : Encodes levels v enc) :
    0 < enc.length := by
  cases levels with
  | zero => exact absurd h id
  | succ levels =>
      cases v with
      | int v =>
          rw [h.2]
          split <;> exact head_pos _ _
      | bytes s =>
          cases h
          rw [List.length_append]
          exact Nat.add_pos_left (head_pos _ _) _
      | text s =>
          cases h
          rw [List.length_append]
          exact Nat.add_pos_left (head_pos _ _) _
      | bool x =>
          cases h
          exact Nat.zero_lt_one
      | null => exact absurd h id
      | array l =>
          obtain ⟨items, -, rfl⟩ := h
          rw [List.length_append]
          exact Nat.add_pos_left (head_pos _ _) _
      | map m =>
          obtain ⟨kv, -, rfl⟩ := h
          rw [List.length_append]
          exact Nat.add_pos_left (head_pos _ _) _

/-- There are no more entries than bytes. -/
theorem length_le_entries {levels : Nat} {m : List (Value × Value)} {kv : List (Bytes × Bytes)}
    (h : List.Forall₂ (Both (Encodes levels)) m kv) :
    m.length ≤ (kv.map fun p => p.1 ++ p.2).flatten.length := by
  have hparts : List.Forall₂ (fun _ part => 0 < part.length) m (kv.map fun p => p.1 ++ p.2) := by
    apply List.forall₂_map_right_iff.mpr
    apply h.imp
    intro e p hp
    have hpos := encodes_pos hp.1
    rw [List.length_append]
    omega
  exact length_le_flatten hparts fun _ _ => id

/-- Wherever the encoding of a value stands in an array, it is read as that
value, its maps put together entry by entry. -/
theorem read_encodes {b : Bytes} (hlen : b.length < 2 ^ 31) {levels : Nat} {v : Value}
    {enc : Bytes} (h : Encodes levels v enc) : Reads b (read b levels) enc (merged v) := by
  induction levels generalizing v enc with
  | zero => exact absurd h id
  | succ levels ih =>
      intro before after hb
      cases v with
      | int v =>
          obtain ⟨⟨hlow, hhigh⟩, rfl⟩ := h
          split at hb
          · rename_i hpos
            rw [if_pos hpos, read_head levels (by omega) (by omega) hb]
            have hv : ((v.toNat : Nat) : Int) = v := by omega
            rw [hv]
            rfl
          · rename_i hneg
            rw [if_neg hneg, read_head levels (by omega) (by omega) hb]
            have hv : -1 - (((-1 - v).toNat : Nat) : Int) = v := by omega
            show Except.ok (Value.int (-1 - (((-1 - v).toNat : Nat) : Int)), _) = _
            rw [hv]
            rfl
      | bytes s =>
          cases h
          exact read_string (.inl rfl) hb hlen
      | text s =>
          cases h
          have hread := @read_string b before (utf8 s) after levels 3 (.inr rfl) hb hlen
          rw [string_utf8] at hread
          exact hread
      | bool x =>
          cases h
          exact read_bool levels x hb
      | null => exact absurd h id
      | array l =>
          obtain ⟨items, hitems, rfl⟩ := h
          rw [List.append_assoc] at hb
          have hread := Reads.items (hitems.imp fun x part hx => ih hx)
            (before ++ head 4 l.length) after (by rw [hb, List.append_assoc])
          have hcount := length_le_flatten hitems fun _ _ => encodes_pos
          have hlength := congrArg List.length hb
          simp only [List.length_append] at hlength hread
          rw [read_head levels (by omega) (by omega) hb, readBody, if_neg (by omega),
            if_neg (by omega), if_neg (by decide), if_pos rfl, Int.toNat_natCast, readItems_eq,
            hread, merged,
            mergedItems_eq, List.length_append, Nat.add_assoc]
          rfl
      | map m =>
          obtain ⟨kv, hkv, rfl⟩ := h
          rw [List.append_assoc, List.flatMap_def] at hb
          have hentries : List.Forall₂
              (fun e part => Reads b (pair (read b levels) (read b levels)) part
                (merged e.1, merged e.2)) m
              (kv.map fun p => p.1 ++ p.2) :=
            List.forall₂_map_right_iff.mpr
              (hkv.imp fun e p he => (ih he.1).pair (ih he.2))
          have hread := Reads.items hentries (before ++ head 5 m.length) after
            (by rw [hb, List.append_assoc])
          have hcount := length_le_entries hkv
          have hlength := congrArg List.length hb
          simp only [List.length_append] at hlength hread
          rw [read_head levels (by omega) (by omega) hb, readBody, if_neg (by omega),
            if_neg (by omega), if_neg (by decide), if_neg (by omega), if_pos rfl,
            Int.toNat_natCast, readItems_eq, hread, merged, mergedEntries_eq, List.length_append,
            List.flatMap_def, Nat.add_assoc]
          rfl

/-! ### Looking a key up -/

/-- Integers and text, which are keys by their value alone. -/
def IsAtom : Value → Prop
  | .int _ | .text _ => True
  | _ => False

theorem equals_atom {a : Value} (ha : IsAtom a) (x : Value) : equals a x = true ↔ x = a := by
  cases a with
  | int v =>
      cases x with
      | int w =>
          rw [equals, beq_iff_eq, Value.int.injEq]
          exact eq_comm
      | _ => simp [equals]
  | text s =>
      cases x with
      | text t =>
          rw [equals, beq_iff_eq, Value.text.injEq]
          exact eq_comm
      | _ => simp [equals]
  | _ => exact absurd ha id

theorem atom_equals {a : Value} (ha : IsAtom a) (x : Value) : equals x a = true ↔ x = a := by
  cases a with
  | int v => cases x <;> simp [equals]
  | text s => cases x <;> simp [equals]
  | _ => exact absurd ha id

theorem merged_atom {a : Value} (ha : IsAtom a) (v : Value) : merged v = a ↔ v = a := by
  cases a with
  | int v' => cases v <;> simp [merged]
  | text s => cases v <;> simp [merged]
  | _ => exact absurd ha id

/-- Nothing is reordered but maps, and arrays for the maps in them. -/
theorem reordered_cases {levels : Nat} {v v' : Value} (h : Reordered (levels + 1) v v') :
    v = v' ∨ (∃ l l', v = .array l ∧ v' = .array l') ∨ ∃ m m', v = .map m ∧ v' = .map m' := by
  unfold Reordered at h
  split at h
  · rename_i heq
    cases heq
  · exact .inr (.inl ⟨_, _, rfl, rfl⟩)
  · exact .inr (.inr ⟨_, _, rfl, rfl⟩)
  · exact .inl h

theorem reordered_map {levels : Nat} {m : List (Value × Value)} {v' : Value}
    (h : Reordered (levels + 1) (.map m) v') :
    ∃ m' p, v' = .map m' ∧ p.Perm m ∧ List.Forall₂ (Both (Reordered levels)) p m' := by
  cases v' with
  | map m' =>
      obtain ⟨p, hp, hpm⟩ := h
      exact ⟨m', p, rfl, hp, hpm⟩
  | _ => cases h

theorem reordered_atom {levels : Nat} {a v v' : Value} (ha : IsAtom a)
    (h : Reordered levels v v') : v = a ↔ v' = a := by
  cases levels with
  | zero => exact absurd h id
  | succ levels =>
      rcases reordered_cases h with rfl | ⟨l, l', rfl, rfl⟩ | ⟨m, m', rfl, rfl⟩
      · rfl
      · constructor <;> rintro rfl <;> exact absurd ha id
      · constructor <;> rintro rfl <;> exact absurd ha id

theorem get_eq (m : List (Value × Value)) (a : Value) :
    get m a = ((m.find? fun e => equals a e.1).map Prod.snd).getD .null := by
  rw [get]
  cases m.find? fun e => equals a e.1 <;> rfl

/-- Replacing the value of one key leaves every entry under its own key. -/
theorem find_replaced (m : List (Value × Value)) (a k v : Value) :
    (m.map fun e => if equals k e.1 then (e.1, v) else e).find? (fun e => equals a e.1)
      = (m.find? fun e => equals a e.1).map fun e => if equals k e.1 then (e.1, v) else e := by
  rw [List.find?_map]
  congr 2
  funext e
  by_cases hk : equals k e.1 = true <;> simp [hk]

/-- A key that is put last is the key that is found. -/
theorem get_put {a : Value} (ha : IsAtom a) (m : List (Value × Value)) (k v : Value) :
    get (put m k v) a = if equals k a then v else get m a := by
  rw [get_eq, get_eq, put]
  by_cases hk : k = a
  · subst hk
    rw [if_pos ((equals_atom ha k).mpr rfl)]
    split
    · rename_i hany
      obtain ⟨e, hfound⟩ : ∃ e, m.find? (fun e => equals k e.1) = some e :=
        Option.isSome_iff_exists.mp (List.find?_isSome.mpr (List.any_eq_true.mp hany))
      have hkey := List.find?_some hfound
      rw [find_replaced, hfound, Option.map_some, if_pos hkey]
      rfl
    · rename_i hnone
      have hfound : m.find? (fun e => equals k e.1) = none := by simpa using hnone
      rw [List.find?_append, hfound, Option.none_or, List.find?_singleton,
        if_pos ((equals_atom ha k).mpr rfl)]
      rfl
  · have hka : ¬ equals k a = true := fun h => hk ((atom_equals ha k).mp h)
    have hak : ¬ equals a k = true := fun h => hk ((equals_atom ha k).mp h)
    rw [if_neg hka]
    split
    · rw [find_replaced]
      cases hfound : m.find? fun e => equals a e.1 with
      | none => rfl
      | some e =>
          have hequal := List.find?_some hfound
          have hkey : e.1 = a := (equals_atom ha e.1).mp hequal
          rw [Option.map_some, hkey, if_neg hka]
    · rw [List.find?_append, List.find?_singleton, if_neg hak, Option.or_none]

/-- No two entries have the key. -/
def Once (a : Value) (m : List (Value × Value)) : Prop :=
  m.Pairwise fun x y => ¬ (x.1 = a ∧ y.1 = a)

theorem Once.unique {a v w : Value} {m : List (Value × Value)} (honce : Once a m)
    (hv : (a, v) ∈ m) (hw : (a, w) ∈ m) : v = w := by
  induction m with
  | nil => cases hv
  | cons e rest ih =>
      obtain ⟨hfirst, hrest⟩ := List.pairwise_cons.mp honce
      rcases List.mem_cons.mp hv with rfl | hv'
      · rcases List.mem_cons.mp hw with hw | hw
        · exact (Prod.mk.inj hw).2.symm
        · exact absurd ⟨rfl, rfl⟩ (hfirst _ hw)
      · rcases List.mem_cons.mp hw with rfl | hw
        · exact absurd ⟨rfl, rfl⟩ (hfirst _ hv')
        · exact ih hrest hv' hw

theorem get_foldl_absent {a : Value} (ha : IsAtom a) {m acc : List (Value × Value)}
    (h : ∀ e ∈ m, e.1 ≠ a) :
    get (m.foldl (fun m e => put m e.1 e.2) acc) a = get acc a := by
  induction m generalizing acc with
  | nil => rfl
  | cons e rest ih =>
      have hne : ¬ equals e.1 a = true := fun heq =>
        h e List.mem_cons_self ((atom_equals ha e.1).mp heq)
      rw [List.foldl_cons, ih fun x hx => h x (List.mem_cons_of_mem _ hx), get_put ha, if_neg hne]

theorem get_foldl {a v : Value} (ha : IsAtom a) {m : List (Value × Value)} (honce : Once a m)
    (hmem : (a, v) ∈ m) (acc : List (Value × Value)) :
    get (m.foldl (fun m e => put m e.1 e.2) acc) a = v := by
  induction m generalizing acc with
  | nil => cases hmem
  | cons e rest ih =>
      obtain ⟨hfirst, hrest⟩ := List.pairwise_cons.mp honce
      rw [List.foldl_cons]
      rcases List.mem_cons.mp hmem with rfl | hmem
      · have hrefl : equals a a = true := (atom_equals ha a).mpr rfl
        rw [get_foldl_absent ha fun x hx hxa => hfirst x hx ⟨rfl, hxa⟩, get_put ha, if_pos hrefl]
      · exact ih hrest hmem _

/-- The entry of a key in the map that is put together. -/
theorem get_merged {a v : Value} (ha : IsAtom a) {m : List (Value × Value)} (honce : Once a m)
    (hmem : (a, v) ∈ m) :
    get ((mergedEntries m).foldl (fun m e => put m e.1 e.2) []) a = merged v := by
  have hself : merged a = a := (merged_atom ha a).mpr rfl
  rw [mergedEntries_eq]
  refine get_foldl ha ?_ (List.mem_map.mpr ⟨(a, v), hmem, Prod.ext hself rfl⟩) []
  refine List.pairwise_map.mpr (honce.imp fun hpair hboth => hpair ?_)
  exact ⟨(merged_atom ha _).mp hboth.1, (merged_atom ha _).mp hboth.2⟩

theorem get_merged_absent {a : Value} (ha : IsAtom a) {m : List (Value × Value)}
    (habsent : ∀ v, (a, v) ∉ m) :
    get ((mergedEntries m).foldl (fun m e => put m e.1 e.2) []) a = .null := by
  rw [mergedEntries_eq, get_foldl_absent ha]
  · rfl
  · intro e' he' hkey
    obtain ⟨e, he, rfl⟩ := List.mem_map.mp he'
    have hkey : e.1 = a := (merged_atom ha e.1).mp hkey
    exact habsent e.2 (hkey ▸ he)

/-! ### What the order of a map does not change -/

section Reordered

variable {levels : Nat} {m p m' : List (Value × Value)}

theorem mem_reordered (hp : p.Perm m) (h : List.Forall₂ (Both (Reordered levels)) p m')
    {e' : Value × Value} (he : e' ∈ m') : ∃ e ∈ m, Both (Reordered levels) e e' := by
  obtain ⟨e, hmem, hboth⟩ := partner_of_mem h he
  exact ⟨e, hp.subset hmem, hboth⟩

theorem once_reordered (hkeys : (m.map Prod.fst).Nodup) (hp : p.Perm m)
    (h : List.Forall₂ (Both (Reordered levels)) p m') {a : Value} (ha : IsAtom a) : Once a m' := by
  have hkeys : (p.map Prod.fst).Nodup := (hp.map Prod.fst).nodup_iff.mpr hkeys
  clear hp
  induction h with
  | nil => exact .nil
  | @cons x y l l' hxy hrest ih =>
      obtain ⟨hfirst, hkeys⟩ := List.nodup_cons.mp hkeys
      refine .cons (fun e' he' hboth => hfirst ?_) (ih hkeys)
      obtain ⟨e, he, hee⟩ := mem_reordered (List.Perm.refl l) hrest he'
      have hx : x.1 = a := (reordered_atom ha hxy.1).mpr hboth.1
      have hkey : e.1 = a := (reordered_atom ha hee.1).mpr hboth.2
      exact List.mem_map.mpr ⟨e, he, hkey.trans hx.symm⟩

end Reordered

end Passkey.Phone.Cbor

import Passkey.Daemon.Cbor
import Passkey.Phone.Authenticator
import Passkey.Phone.Encoding

/-!
Which getAssertion requests the daemon takes for probes, and which the phone
answers without asking. The two decoders read the same bytes.
-/

namespace Passkey.Daemon

open Library Utf8
open Phone (Value)
open Phone.Cbor (Encodes Form head head_form first_parts)

namespace Cbor

/-! ### The daemon's reading -/

mutual

/-- What the daemon's decoder makes of a value. -/
def ofValue : Value → Cbor
  | .int v => .integer v
  | .bytes b => .bytes b
  | .text s => .text s
  | .array l => .array (ofItems l)
  | .map m => .map (ofEntries m)
  | .bool b => .bool b
  | .null => .null

def ofItems : List Value → List Cbor
  | [] => []
  | x :: rest => ofValue x :: ofItems rest

def ofEntries : List (Value × Value) → List (Cbor × Cbor)
  | [] => []
  | (k, v) :: rest => (ofValue k, ofValue v) :: ofEntries rest

end

theorem ofItems_eq (l : List Value) : ofItems l = l.map ofValue := by
  induction l with
  | nil => rfl
  | cons x rest ih => rw [ofItems, ih, List.map_cons]

theorem ofEntries_eq (m : List (Value × Value)) :
    ofEntries m = m.map fun e => (ofValue e.1, ofValue e.2) := by
  induction m with
  | nil => rfl
  | cons e rest ih => rw [ofEntries, ih, List.map_cons]

theorem fromUtf8_sequence {c : Char} {enc : Bytes} (h : Sequence c enc) (rest : Bytes) :
    fromUtf8 (enc ++ rest) = (fromUtf8 rest).map (c :: ·) := by
  have hchar {n : Nat} (hn : n = c.toNat) : Char.ofNat n = c := hn ▸ Char.ofNat_toNat c
  cases h with
  | one a ha hc =>
      rw [fromUtf8.eq_def]
      simp [lead_one ha, hchar hc]
  | two a b ha hb hc =>
      obtain ⟨hone, htwo⟩ := lead_two ha
      rw [fromUtf8.eq_def]
      simp [hone, htwo, hb, hchar hc]
  | three a b d ha hb hd hc =>
      obtain ⟨hone, htwo, hthree⟩ := lead_three ha
      rw [fromUtf8.eq_def]
      simp only [List.cons_append, List.nil_append, Bool.and_eq_true, decide_eq_true_eq, hone,
        htwo, hthree, hb, hd, hchar hc]
      rfl
  | four a b d e ha hb hd he hc =>
      obtain ⟨hone, htwo, hthree, hfour⟩ := lead_four ha
      rw [fromUtf8.eq_def]
      simp only [List.cons_append, List.nil_append, Bool.and_eq_true, decide_eq_true_eq, hone,
        htwo, hthree, hfour, hb, hd, he, hchar hc]
      rfl

theorem fromUtf8_utf8 (s : Text) : fromUtf8 (Phone.Cbor.utf8 s) = some s := by
  induction s with
  | nil => rfl
  | cons c rest ih =>
      rw [Phone.Cbor.utf8, List.flatMap_cons, fromUtf8_sequence (sequence_encode c)]
      exact congrArg _ ih

theorem slice_append (before part after : Bytes) :
    slice (before ++ (part ++ after)) before.length part.length = some part := by
  simp [slice]

theorem argument_head (before after : Bytes) {v info count : Nat} (hform : Form v info count) :
    argument (before ++ (bigEndian count v ++ after)) before.length info
      = some (v, before.length + count) := by
  have huint {count : Nat} (hcount : v < 256 ^ count) :
      readUint (before ++ (bigEndian count v ++ after)) before.length count
        = some (v, before.length + count) := by
    have hslice := slice_append before (bigEndian count v) after
    rw [length_bigEndian] at hslice
    rw [readUint, hslice]
    show some (ofBigEndian (bigEndian count v), _) = _
    rw [ofBigEndian_bigEndian hcount]
  cases hform with
  | short h => simp [argument, Nat.le_of_lt_succ h]
  | one h => exact huint h
  | two h => exact huint h
  | four h => exact huint h
  | eight h => exact huint h

theorem decodeItems_eq {α : Type} (item : Nat → Option (α × Nat)) (count offset : Nat) :
    decodeItems item count offset = items item count offset := by
  induction count generalizing offset with
  | zero => rfl
  | succ count ih =>
      rw [decodeItems, items]
      exact congrArg _ (funext fun x => congrArg (· >>= _) (ih x.2))

/-- What the decoder reads behind a head. -/
def decodeBody (input : Bytes) (levels major value offset : Nat) : Option (Cbor × Nat) :=
  if major = 0 then do
    let value ← toI64 value
    return (.integer value, offset)
  else if major = 1 then do
    let value ← toI64 value
    return (.integer (-1 - value), offset)
  else if major = 2 || major = 3 then do
    let bytes ← slice input offset value
    if major = 2 then return (.bytes bytes, offset + value)
    else do
      let text ← fromUtf8 bytes
      return (.text text, offset + value)
  else if major = 4 then do
    let (values, offset) ← decodeItems (decodeCbor input levels) value offset
    return (.array values, offset)
  else if major = 5 then do
    let (values, offset) ←
      decodeItems (pair (decodeCbor input levels) (decodeCbor input levels)) value offset
    return (.map values, offset)
  else decodeCbor input levels offset

theorem decode_head {input before after : Bytes} (levels : Nat) {major v : Nat}
    (hmajor : major < 7) (hv : v < 256 ^ 8) (hinput : input = before ++ (head major v ++ after)) :
    decodeCbor input (levels + 1) before.length
      = decodeBody input levels major v (before.length + (head major v).length) := by
  obtain ⟨info, count, hform, hhead⟩ := head_form major hv
  obtain ⟨hfirst, hinfo⟩ := first_parts (by omega : major < 8) hform.bound
  have hbyte : input[before.length]? = some (UInt8.ofNat (major * 32 + info)) := by
    rw [hinput, hhead]
    simp
  have hargument : argument input (before.length + 1) info
      = some (v, before.length + 1 + count) := by
    have hread := argument_head (before ++ [UInt8.ofNat (major * 32 + info)]) after hform
    rw [List.length_append, List.append_assoc] at hread
    rw [hinput, hhead]
    exact hread
  have hnot : major ≠ 7 := by omega
  rw [decodeCbor, hbyte]
  show (if (UInt8.ofNat (major * 32 + info)).toNat / 32 = 7 then _ else _) = _
  rw [hfirst, if_neg hnot, hinfo, hargument, hhead, List.length_cons, length_bigEndian,
    Nat.add_assoc, Nat.add_comm 1]
  rfl

/-- Wherever the encoding of a value stands in the input, it is read as that value. -/
theorem decode_encodes {input : Bytes} (hlen : input.length < 2 ^ 31) {levels : Nat} {v : Value}
    {enc : Bytes} (h : Encodes levels v enc) :
    Reads input (decodeCbor input levels) enc (ofValue v) := by
  induction levels generalizing v enc with
  | zero => exact absurd h id
  | succ levels ih =>
      intro before after hinput
      cases v with
      | int v =>
          obtain ⟨⟨hlow, hhigh⟩, rfl⟩ := h
          split at hinput
          · rename_i hpos
            have hsmall : v.toNat < 2 ^ 63 := by omega
            have hv : ((v.toNat : Nat) : Int) = v := by omega
            rw [if_pos hpos, decode_head levels (by omega) (by omega) hinput, decodeBody,
              if_pos rfl, toI64, if_pos hsmall, hv]
            rfl
          · rename_i hneg
            have hsmall : (-1 - v).toNat < 2 ^ 63 := by omega
            have hv : -1 - (((-1 - v).toNat : Nat) : Int) = v := by omega
            rw [if_neg hneg, decode_head levels (by omega) (by omega) hinput, decodeBody,
              if_neg (by omega), if_pos rfl, toI64, if_pos hsmall]
            show some (Cbor.integer (-1 - (((-1 - v).toNat : Nat) : Int)), _) = _
            rw [hv]
            rfl
      | bytes s =>
          cases h
          rw [List.append_assoc] at hinput
          have hslice := slice_append (before ++ head 2 s.length) s after
          have hlength := congrArg List.length hinput
          simp only [List.length_append] at hlength hslice
          rw [List.append_assoc, ← hinput] at hslice
          rw [decode_head levels (by omega) (by omega) hinput, decodeBody, if_neg (by omega),
            if_neg (by omega), if_pos (by decide), hslice, List.length_append, ← Nat.add_assoc]
          rfl
      | text s =>
          cases h
          rw [List.append_assoc] at hinput
          have hslice := slice_append
            (before ++ head 3 (Phone.Cbor.utf8 s).length) (Phone.Cbor.utf8 s) after
          have hlength := congrArg List.length hinput
          simp only [List.length_append] at hlength hslice
          rw [List.append_assoc, ← hinput] at hslice
          rw [decode_head levels (by omega) (by omega) hinput, decodeBody, if_neg (by omega),
            if_neg (by omega), if_pos (by decide), hslice, List.length_append, ← Nat.add_assoc]
          show (fromUtf8 (Phone.Cbor.utf8 s)).bind _ = _
          rw [fromUtf8_utf8]
          rfl
      | bool x =>
          cases h
          have hbyte : input[before.length]? = some (if x then 0xF5 else 0xF4) := by
            rw [hinput]
            simp
          rw [decodeCbor, hbyte]
          cases x <;> rfl
      | null => exact absurd h id
      | array l =>
          obtain ⟨items, hitems, rfl⟩ := h
          rw [List.append_assoc] at hinput
          have hread := Reads.items (hitems.imp fun x part hx => ih hx)
            (before ++ head 4 l.length) after (by rw [hinput, List.append_assoc])
          have hcount := length_le_flatten hitems fun _ _ => Phone.Cbor.encodes_pos
          have hlength := congrArg List.length hinput
          simp only [List.length_append] at hlength hread
          rw [decode_head levels (by omega) (by omega) hinput, decodeBody, if_neg (by omega),
            if_neg (by omega), if_neg (by decide), if_pos rfl, decodeItems_eq, hread, ofValue,
            ofItems_eq, List.length_append, Nat.add_assoc]
          rfl
      | map m =>
          obtain ⟨kv, hkv, rfl⟩ := h
          rw [List.append_assoc, List.flatMap_def] at hinput
          have hentries : List.Forall₂ (fun e part =>
              Reads input (pair (decodeCbor input levels) (decodeCbor input levels)) part
                (ofValue e.1, ofValue e.2)) m (kv.map fun p => p.1 ++ p.2) :=
            List.forall₂_map_right_iff.mpr
              (hkv.imp fun e p he => (ih he.1).pair (ih he.2))
          have hread := Reads.items hentries (before ++ head 5 m.length) after
            (by rw [hinput, List.append_assoc])
          have hcount := Phone.Cbor.length_le_entries hkv
          have hlength := congrArg List.length hinput
          simp only [List.length_append] at hlength hread
          rw [decode_head levels (by omega) (by omega) hinput, decodeBody, if_neg (by omega),
            if_neg (by omega), if_neg (by decide), if_neg (by omega), if_pos rfl, decodeItems_eq,
            hread, ofValue, ofEntries_eq, List.length_append, List.flatMap_def, Nat.add_assoc]
          rfl

end Cbor

/-! ### The phone's answer without asking -/

/-- The `up` of `getAssertion`. -/
def up (p : Phone.Object) : Except Phone.Thrown Bool := do
  let opts ← Phone.asMap (Phone.Cbor.get p (.int 5))
  return opts.all fun o => !Phone.isBool false (Phone.at_ o "up")

/-- It is the one that the request is answered with. -/
theorem up_readSignIn {p : Phone.Object} {q : Phone.SignIn}
    (h : Phone.readSignIn p = .ok (.ok q)) : up p = .ok q.up := by
  obtain ⟨rpId, -, h⟩ := bind_ok h
  obtain ⟨cdh, -, h⟩ := bind_ok h
  cases rpId with
  | none => cases h
  | some rpId =>
      cases cdh with
      | none => cases h
      | some cdh =>
          dsimp only at h
          split at h
          · cases h
          · obtain ⟨opts, hopts, h⟩ := bind_ok h
            obtain ⟨allow, -, h⟩ := bind_ok h
            cases h
            rw [up, hopts]
            rfl

/-- An entry of a request asks that nobody be asked. -/
def AsksNobody (m : List (Value × Value)) : Prop :=
  ∃ o, (Value.int 5, Value.map o) ∈ m ∧ (Phone.key "up", Value.bool false) ∈ o

theorem isInteger_ofValue (n : Int) (k : Value) :
    (Cbor.ofValue k).isInteger n = true ↔ k = .int n := by
  cases k <;> simp [Cbor.ofValue, Cbor.isInteger]

theorem isText_ofValue (s : Text) (k : Value) :
    (Cbor.ofValue k).isText s = true ↔ k = .text s := by
  cases k <;> simp [Cbor.ofValue, Cbor.isText]

theorem isFalse_ofValue (v : Value) : (Cbor.ofValue v).isFalse = true ↔ v = .bool false := by
  cases v <;> simp [Cbor.ofValue, Cbor.isFalse]

theorem isBool_merged (v : Value) :
    Phone.isBool false (Phone.Cbor.merged v) = true ↔ v = .bool false := by
  cases v <;> simp [Phone.Cbor.merged, Phone.isBool]

/-- The daemon looks for the entry in what it has read. -/
theorem silent_iff {data : Bytes} {m : List (Value × Value)} {offset : Nat}
    (hcommand : data.head? = some 0x02)
    (hread : Cbor.decodeCbor data 9 1 = some (Cbor.ofValue (.map m), offset)) :
    silent data ↔ AsksNobody m := by
  rw [silent, if_neg (by simp [hcommand]), hread, Cbor.ofValue, Cbor.ofEntries_eq]
  simp only [List.any_map, List.any_eq_true, Function.comp_apply, Bool.and_eq_true,
    isInteger_ofValue]
  constructor
  · rintro ⟨⟨k, v⟩, hmem, rfl, hoptions⟩
    cases v with
    | map o =>
        rw [Cbor.ofValue, Cbor.ofEntries_eq] at hoptions
        simp only [List.any_map, List.any_eq_true, Function.comp_apply, Bool.and_eq_true,
          isText_ofValue, isFalse_ofValue] at hoptions
        obtain ⟨⟨k, v⟩, hentry, rfl, rfl⟩ := hoptions
        exact ⟨o, hmem, hentry⟩
    | _ => cases hoptions
  · rintro ⟨o, hmem, hentry⟩
    refine ⟨_, hmem, rfl, ?_⟩
    rw [Cbor.ofValue, Cbor.ofEntries_eq]
    simp only [List.any_map, List.any_eq_true, Function.comp_apply, Bool.and_eq_true,
      isText_ofValue, isFalse_ofValue]
    exact ⟨_, hentry, rfl, rfl⟩

/-- The phone looks for it in the maps that it has put together. -/
theorem up_iff {m : List (Value × Value)} (honce : Phone.Cbor.Once (.int 5) m)
    (hopts : ∀ v, (Value.int 5, v) ∈ m → ∃ o, v = .map o ∧ Phone.Cbor.Once (Phone.key "up") o) :
    ∃ asked, up ((Phone.Cbor.mergedEntries m).foldl (fun m e => Phone.Cbor.put m e.1 e.2) [])
      = .ok asked ∧ (asked = false ↔ AsksNobody m) := by
  by_cases hentry : ∃ v, (Value.int 5, v) ∈ m
  · obtain ⟨v, hmem⟩ := hentry
    obtain ⟨o, rfl, hup⟩ := hopts v hmem
    have hget := Phone.Cbor.get_merged (a := .int 5) trivial honce hmem
    have hasks : AsksNobody m ↔ (Phone.key "up", Value.bool false) ∈ o := by
      refine ⟨fun ⟨o', hmem', hup'⟩ => ?_, fun hup' => ⟨o, hmem, hup'⟩⟩
      cases honce.unique hmem hmem'
      exact hup'
    rw [up, hget, Phone.Cbor.merged, hasks]
    refine ⟨_, rfl, ?_⟩
    rw [Option.all_some, Bool.not_eq_false', Phone.at_]
    by_cases hvalue : ∃ w, (Phone.key "up", w) ∈ o
    · obtain ⟨w, hw⟩ := hvalue
      rw [Phone.Cbor.get_merged (a := Phone.key "up") trivial hup hw, isBool_merged]
      exact ⟨fun hfalse => hfalse ▸ hw, fun hfalse => hup.unique hw hfalse⟩
    · rw [Phone.Cbor.get_merged_absent (a := Phone.key "up") trivial
        fun w hw => hvalue ⟨w, hw⟩]
      exact ⟨fun hfalse => (Bool.false_ne_true hfalse).elim, fun hw => absurd ⟨_, hw⟩ hvalue⟩
  · have hget := Phone.Cbor.get_merged_absent (a := .int 5) (m := m) trivial
      (fun v hmem => hentry ⟨v, hmem⟩)
    rw [up, hget]
    refine ⟨true, rfl, fun htrue => (Bool.false_ne_true htrue.symm).elim, fun ⟨o, hmem, _⟩ => ?_⟩
    exact absurd ⟨_, hmem⟩ hentry

/-- The daemon takes a canonically encoded request for a probe exactly where the
phone does not ask. -/
theorem silent_iff_up {m : List (Value × Value)} (hm : Phone.Cbor.Parameter 9 (.map m))
    (hopts : ∀ v, (Value.int 5, v) ∈ m → ∃ o, v = .map o) :
    ∃ enc, Phone.Cbor.encode (.map m) = .ok enc ∧
      -- The request is a Java array.
      ((0x02 :: enc).length < 2 ^ 31 →
        ∃ p asked, Phone.Cbor.decode (0x02 :: enc) 1 = .ok (.map p) ∧ up p = .ok asked ∧
          (silent (0x02 :: enc) ↔ asked = false)) := by
  obtain ⟨enc, v', hwrite, henc, hordered⟩ := Phone.Cbor.write_parameter hm
  refine ⟨enc, hwrite, fun hlen => ?_⟩
  obtain ⟨m', p, rfl, hp, hpm⟩ := Phone.Cbor.reordered_map hordered
  have honce : Phone.Cbor.Once (.int 5) m' := Phone.Cbor.once_reordered hm.1 hp hpm trivial
  have hoptions : ∀ v', (Value.int 5, v') ∈ m' →
      ∃ o', v' = .map o' ∧ Phone.Cbor.Once (Phone.key "up") o' := by
    intro v' hv'
    obtain ⟨e, he, hkey, hvalue⟩ := Phone.Cbor.mem_reordered hp hpm hv'
    have hfive : e.1 = .int 5 := (Phone.Cbor.reordered_atom (a := .int 5) trivial hkey).mpr rfl
    obtain ⟨o, ho⟩ := hopts e.2 (hfive ▸ he)
    have hparameter : Phone.Cbor.Parameter 8 (.map o) := ho ▸ (hm.2 e he).2
    rw [ho] at hvalue
    obtain ⟨o', q, rfl, hq, hqo⟩ := Phone.Cbor.reordered_map hvalue
    exact ⟨o', rfl, Phone.Cbor.once_reordered hparameter.1 hq hqo trivial⟩
  have hdata : (0x02 : UInt8) :: enc = [0x02] ++ (enc ++ []) := by simp
  have hdaemon := Cbor.decode_encodes hlen henc [0x02] [] hdata
  have hphone := Phone.Cbor.read_encodes hlen henc [0x02] [] hdata
  obtain ⟨asked, hup, hasked⟩ := up_iff honce hoptions
  refine ⟨_, asked, ?_, hup, (silent_iff rfl hdaemon).trans hasked.symm⟩
  rw [Phone.Cbor.decode]
  show (Phone.Cbor.read (0x02 :: enc) 9 [(0x02 : UInt8)].length).bind _ = _
  rw [hphone]
  rfl

/-- A probe: site and hash, with nobody to be asked. -/
def probeMap : List (Value × Value) :=
  [(.int 5, .map [(Phone.key "up", .bool false)]), (.int 2, .bytes [7]),
    (.int 1, Phone.key "a")]

def probeBytes : Bytes :=
  [0xA3, 0x01, 0x61, 0x61, 0x02, 0x41, 0x07, 0x05, 0xA1, 0x62, 0x75, 0x70, 0xF4]

theorem probe_silent : silent (0x02 :: probeBytes) ∧
    ∃ p, Phone.Cbor.decode (0x02 :: probeBytes) 1 = .ok (.map p) ∧ up p = .ok false := by
  have hparameter : Phone.Cbor.Parameter 9 (.map probeMap) := by
    simp [probeMap, Phone.Cbor.Parameter, Phone.key]
  have hopts : ∀ v, (Value.int 5, v) ∈ probeMap → ∃ o, v = .map o := by
    simp [probeMap, Phone.key]
  obtain ⟨enc, hencode, hsame⟩ := silent_iff_up hparameter hopts
  have henc : enc = probeBytes := Except.ok.inj (hencode.symm.trans rfl)
  subst henc
  obtain ⟨p, asked, hdecode, hup, hiff⟩ := hsame (by decide)
  have hsilent : silent (0x02 :: probeBytes) := rfl
  exact ⟨hsilent, p, hdecode, by rw [hup, hiff.mp hsilent]⟩

end Passkey.Daemon

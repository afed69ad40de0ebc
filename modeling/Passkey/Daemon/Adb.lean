import Passkey.Addresses
import Passkey.Library.Framing

/-!
The daemon trusts an adb server by its owner. It looks for the server's end of
its connection in the table of the TCP sockets, which the kernel writes as a
text, and asks for the devices only where an allowed user has that end.
-/

namespace Passkey.Daemon.Adb

open Library Net Text

/-! ### The table that is read -/

structure TcpRow where
  localAddress : Text
  remote : Text
  state : Text
  uid : UInt32

/-- `/proc/net/tcp`, from behind its first line. -/
def procTcp (text : Text) : List TcpRow :=
  ((lines text).drop 1).filterMap fun line => do
    let fields := splitWhitespace line
    let localAddress ← fields[1]?
    let remote ← fields[2]?
    let state ← fields[3]?
    let uid ← fields[7]?
    let uid ← parseUnsigned (2 ^ 32) uid
    some {localAddress, remote, state, uid := UInt32.ofNat uid}

/-- The uids of root, of the daemon and of the user in `PASSKEY_ADB_USER`, if
there is one. -/
def allowedAdbUids (euid : UInt32) (user : Option UInt32) : List UInt32 :=
  0 :: euid :: user.toList

def hexDigit (d : Nat) : Char :=
  (Nat.digitChar d).toUpper

/-- A number with this many digits, as `{:08X}` and `{:04X}` write it. -/
def hex (width n : Nat) : Text :=
  numeral 16 hexDigit width n

/-- `u32::from_le_bytes` of the octets. -/
def fromLeBytes (ip : Ipv4Addr) : Nat :=
  ip.a.toNat + 2 ^ 8 * ip.b.toNat + 2 ^ 16 * ip.c.toNat + 2 ^ 24 * ip.d.toNat

/-- One end of a connection as the table has it. -/
def endText (ip : Ipv4Addr) (port : UInt16) : Text :=
  hex 8 (fromLeBytes ip) ++ ':' :: hex 4 port.toNat

def adbServerTrusted (table : Option Text) (allowed : List UInt32) : Bool :=
  (table.map procTcp).any fun rows => rows.any fun row =>
    (row.localAddress = "0100007F:13AD".toList || row.localAddress = "00000000:13AD".toList)
      && row.state = "0A".toList && row.uid ∈ allowed

def adbPeerTrusted (address : Option SocketAddr) (table : Option Text) (allowed : List UInt32) :
    Bool :=
  match address with
  | some (.v4 ip port) =>
      (table.map procTcp).any fun rows => rows.any fun row =>
        row.localAddress = "0100007F:13AD".toList && row.remote = endText ip port
          && row.uid ∈ allowed
  | some (.v6 ..) => false
  | none => false

/-! ### The table that is written -/

structure End where
  ip : Ipv4Addr
  port : UInt16
  deriving DecidableEq

/-- The kernel writes an address as a number of the machine, here one with the
lowest byte first. -/
def End.text (x : End) : Text :=
  endText x.ip x.port

/-- A column of the table. -/
structure Word where
  text : Text
  nonempty : text ≠ []
  solid : ∀ c ∈ text, isWhitespace c = false

/-- No line ends in the text. -/
def Plain (text : Text) : Prop :=
  ∀ c ∈ text, c ≠ '\n' ∧ c ≠ '\r'

/-- A socket in the table, with the columns that are not read as they stand. -/
structure Entry where
  indent : Nat
  sl : Word
  here : End
  there : End
  state : UInt8
  queues : Word
  timer : Word
  retransmits : Word
  gap : Nat
  uid : UInt32
  rest : Text
  plain : Plain rest

def blanks (n : Nat) : Text :=
  List.replicate n ' '

def Entry.line (e : Entry) : Text :=
  blanks e.indent ++ (e.sl.text ++ ' ' :: (e.here.text ++ ' ' :: (e.there.text ++ ' ' ::
    (hex 2 e.state.toNat ++ ' ' :: (e.queues.text ++ ' ' :: (e.timer.text ++ ' ' ::
      (e.retransmits.text ++ ' ' :: (blanks e.gap ++ (decimal e.uid.toNat ++ ' ' :: e.rest)))))))))

structure Table where
  header : Text
  plain : Plain header
  entries : List Entry

def Table.text (table : Table) : Text :=
  unlines (table.header :: table.entries.map Entry.line)

def Entry.row (e : Entry) : TcpRow where
  localAddress := e.here.text
  remote := e.there.text
  state := hex 2 e.state.toNat
  uid := e.uid

/-! ### Numbers -/

theorem strictMonoOn_hexDigit : StrictMonoOn hexDigit (Set.Iio 16) := by
  have hall : ∀ n < 16, ∀ m < n, hexDigit m < hexDigit n := by decide
  intro m _ n hn hlt
  exact hall n hn m hlt

theorem hex_inj {width m n : Nat} (hm : m < 16 ^ width) (hn : n < 16 ^ width)
    (h : hex width m = hex width n) : m = n := by
  have hless (x y : Nat) : hex width x < hex width y ↔ x % 16 ^ width < y % 16 ^ width :=
    numeral_lt_iff (by omega) strictMonoOn_hexDigit width x y
  have hnot := hless m n
  have hnot' := hless n m
  rw [h, Nat.mod_eq_of_lt hm, Nat.mod_eq_of_lt hn] at hnot hnot'
  have hirrefl : ¬hex width n < hex width n := List.lt_irrefl _
  exact Nat.le_antisymm (Nat.not_lt.mp fun hlt => hirrefl (hnot'.mpr hlt))
    (Nat.not_lt.mp fun hlt => hirrefl (hnot.mpr hlt))

@[simp] theorem length_hex (width n : Nat) : (hex width n).length = width := by
  simp [hex, numeral]

theorem solid_hex {width n : Nat} {c : Char} (h : c ∈ hex width n) : isWhitespace c = false := by
  have hall : ∀ d < 16, isWhitespace (hexDigit d) = false := by decide
  simp only [hex, numeral, List.mem_map] at h
  obtain ⟨i, -, rfl⟩ := h
  exact hall _ (Nat.mod_lt _ (by omega))

theorem fromLeBytes_lt (ip : Ipv4Addr) : fromLeBytes ip < 16 ^ 8 := by
  have ha := ip.a.toNat_lt
  have hb := ip.b.toNat_lt
  have hc := ip.c.toNat_lt
  have hd := ip.d.toNat_lt
  unfold fromLeBytes
  omega

theorem fromLeBytes_inj {ip ip' : Ipv4Addr} (h : fromLeBytes ip = fromLeBytes ip') : ip = ip' := by
  obtain ⟨a, b, c, d⟩ := ip
  obtain ⟨a', b', c', d'⟩ := ip'
  have ha := a.toNat_lt
  have hb := b.toNat_lt
  have hc := c.toNat_lt
  have ha' := a'.toNat_lt
  have hb' := b'.toNat_lt
  have hc' := c'.toNat_lt
  simp only [fromLeBytes] at h
  have hbytes : a.toNat = a'.toNat ∧ b.toNat = b'.toNat ∧ c.toNat = c'.toNat ∧
      d.toNat = d'.toNat := by omega
  simp only [UInt8.toNat_inj] at hbytes
  obtain ⟨rfl, rfl, rfl, rfl⟩ := hbytes
  rfl

/-- The table has different texts for different ends. -/
theorem End.text_inj {x y : End} : x.text = y.text ↔ x = y := by
  constructor
  · intro h
    obtain ⟨ip, port⟩ := x
    obtain ⟨ip', port'⟩ := y
    obtain ⟨hip, hport⟩ := List.append_inj h (by simp)
    obtain rfl := fromLeBytes_inj (hex_inj (fromLeBytes_lt ip) (fromLeBytes_lt ip') hip)
    have hport := hex_inj port.toNat_lt port'.toNat_lt (List.cons.inj hport).2
    obtain rfl := UInt16.toNat_inj.mp hport
    rfl
  · rintro rfl
    rfl

theorem End.ne_nil (x : End) : x.text ≠ [] := by
  simp [End.text, endText]

theorem End.solid (x : End) {c : Char} (hc : c ∈ x.text) : isWhitespace c = false := by
  rcases List.mem_append.mp hc with hip | hport
  · exact solid_hex hip
  · rcases List.mem_cons.mp hport with rfl | hport
    · rfl
    · exact solid_hex hport

/-! ### A line of the table -/

theorem splitWhitespace_blanks (n : Nat) (text : Text) :
    splitWhitespace (blanks n ++ text) = splitWhitespace text := by
  induction n with
  | zero => rfl
  | succ n ih =>
      have hblank : isWhitespace ' ' = true := rfl
      rw [blanks, List.replicate_succ, List.cons_append, splitWhitespace,
        List.splitOnP_cons_eq_if_modifyHead, if_pos hblank, List.filter_cons_of_neg (by simp)]
      exact ih

theorem splitWhitespace_word (word : Word) (rest : Text) :
    splitWhitespace (word.text ++ ' ' :: rest) = word.text :: splitWhitespace rest :=
  splitWhitespace_append word.nonempty word.solid rfl rest

theorem Entry.fields (e : Entry) : splitWhitespace e.line =
    e.sl.text :: e.here.text :: e.there.text :: hex 2 e.state.toNat :: e.queues.text ::
      e.timer.text :: e.retransmits.text :: decimal e.uid.toNat :: splitWhitespace e.rest := by
  have hstate : hex 2 e.state.toNat ≠ [] := by
    intro h
    cases (congrArg List.length h).symm.trans (length_hex 2 _)
  have huid {c : Char} (hc : c ∈ decimal e.uid.toNat) : isWhitespace c = false :=
    not_isWhitespace_of_isDigit (isDigit_of_mem_decimal hc)
  rw [Entry.line, splitWhitespace_blanks, splitWhitespace_word,
    splitWhitespace_append e.here.ne_nil (fun c => e.here.solid) rfl,
    splitWhitespace_append e.there.ne_nil (fun c => e.there.solid) rfl,
    splitWhitespace_append hstate (fun c => solid_hex) rfl, splitWhitespace_word,
    splitWhitespace_word, splitWhitespace_word, splitWhitespace_blanks,
    splitWhitespace_append (decimal_ne_nil _) (fun c => huid) rfl]

theorem Plain.append {front rest : Text} (hfront : Plain front) (hrest : Plain rest) :
    Plain (front ++ rest) := by
  intro c hc
  rcases List.mem_append.mp hc with hc | hc
  · exact hfront c hc
  · exact hrest c hc

theorem Plain.space {rest : Text} (hrest : Plain rest) : Plain (' ' :: rest) := by
  intro c hc
  rcases List.mem_cons.mp hc with rfl | hc
  · exact ⟨by decide, by decide⟩
  · exact hrest c hc

theorem plain_blanks (n : Nat) : Plain (blanks n) := by
  intro c hc
  obtain rfl := List.eq_of_mem_replicate hc
  exact ⟨by decide, by decide⟩

theorem plain_solid {text : Text} (h : ∀ c ∈ text, isWhitespace c = false) : Plain text := by
  refine fun c hc => ⟨?_, ?_⟩
  · rintro rfl
    cases h _ hc
  · rintro rfl
    cases h _ hc

theorem Plain.chomp {line : Text} (h : Plain line) : chomp line = line := by
  refine chomp_eq fun hlast => ?_
  exact (h '\r' (List.mem_of_getLast? hlast)).2 rfl

theorem Entry.plain_line (e : Entry) : Plain e.line := by
  have huid : Plain (decimal e.uid.toNat) :=
    plain_solid fun _ hc => not_isWhitespace_of_isDigit (isDigit_of_mem_decimal hc)
  have hretransmits : Plain (e.retransmits.text ++ ' ' ::
      (blanks e.gap ++ (decimal e.uid.toNat ++ ' ' :: e.rest))) :=
    (plain_solid e.retransmits.solid).append
      ((plain_blanks _).append (huid.append e.plain.space)).space
  have hstate : Plain (hex 2 e.state.toNat ++ ' ' :: (e.queues.text ++ ' ' :: (e.timer.text ++
      ' ' :: (e.retransmits.text ++ ' ' ::
        (blanks e.gap ++ (decimal e.uid.toNat ++ ' ' :: e.rest)))))) :=
    (plain_solid fun _ => solid_hex).append ((plain_solid e.queues.solid).append
      ((plain_solid e.timer.solid).append hretransmits.space).space).space
  exact (plain_blanks _).append ((plain_solid e.sl.solid).append
    ((plain_solid fun _ => e.here.solid).append
      ((plain_solid fun _ => e.there.solid).append hstate.space).space).space)

/-! ### The table -/

/-- The columns that the daemon needs are read back from every line. -/
theorem procTcp_text (table : Table) : procTcp table.text = table.entries.map Entry.row := by
  have hplain : ∀ line ∈ table.header :: table.entries.map Entry.line, Plain line := by
    intro line hline
    rcases List.mem_cons.mp hline with rfl | hentry
    · exact table.plain
    · obtain ⟨e, -, rfl⟩ := List.mem_map.mp hentry
      exact e.plain_line
  have hlines : lines table.text = table.header :: table.entries.map Entry.line := by
    rw [Table.text, lines_unlines fun line hline hend => (hplain line hline _ hend).1 rfl]
    exact (List.map_congr_left fun line hline => (hplain line hline).chomp).trans (List.map_id' _)
  rw [procTcp, hlines, List.drop_one, List.tail_cons, List.filterMap_map, ← List.filterMap_eq_map]
  refine List.filterMap_congr fun e _ => ?_
  have huid : parseUnsigned 4294967296 (decimal e.uid.toNat) = some e.uid.toNat :=
    parseUnsigned_decimal e.uid.toNat_lt
  simp [Entry.fields, huid, Entry.row]

/-- Where an adb server listens. -/
def adbEnd : End :=
  ⟨⟨127, 0, 0, 1⟩, 5037⟩

/-- The same port of every address. -/
def anyEnd : End :=
  ⟨⟨0, 0, 0, 0⟩, 5037⟩

theorem text_adbEnd : adbEnd.text = "0100007F:13AD".toList := by
  decide +kernel

theorem text_anyEnd : anyEnd.text = "00000000:13AD".toList := by
  decide +kernel

theorem state_listen {state : UInt8} : hex 2 state.toNat = "0A".toList ↔ state = 10 := by
  have hlisten : hex 2 (10 : UInt8).toNat = "0A".toList := by decide +kernel
  rw [← hlisten]
  constructor
  · exact fun h => UInt8.toNat_inj.mp (hex_inj state.toNat_lt (10 : UInt8).toNat_lt h)
  · rintro rfl
    rfl

theorem adbServerTrusted_iff (table : Table) (allowed : List UInt32) :
    adbServerTrusted (some table.text) allowed = true ↔
      ∃ e ∈ table.entries, (e.here = adbEnd ∨ e.here = anyEnd) ∧ e.state = 10 ∧
        e.uid ∈ allowed := by
  simp only [adbServerTrusted, Option.map_some, Option.any_some, procTcp_text, List.any_map,
    List.any_eq_true, Function.comp_apply, Bool.and_eq_true, Bool.or_eq_true, decide_eq_true_eq]
  simp only [Entry.row, ← text_adbEnd, ← text_anyEnd, End.text_inj, state_listen, and_assoc]

theorem adbPeerTrusted_iff (ip : Ipv4Addr) (port : UInt16) (table : Table)
    (allowed : List UInt32) :
    adbPeerTrusted (some (.v4 ip port)) (some table.text) allowed = true ↔
      ∃ e ∈ table.entries, e.here = adbEnd ∧ e.there = ⟨ip, port⟩ ∧ e.uid ∈ allowed := by
  have hours : endText ip port = End.text ⟨ip, port⟩ := rfl
  simp only [adbPeerTrusted, Option.map_some, Option.any_some, procTcp_text, List.any_map,
    List.any_eq_true, Function.comp_apply, Bool.and_eq_true, decide_eq_true_eq]
  simp only [Entry.row, ← text_adbEnd, hours, End.text_inj, and_assoc]

/-- A table of one line, less the columns behind the uid. -/
example : adbPeerTrusted (some (.v4 ⟨127, 0, 0, 1⟩ 54000)) (some (unlines
    ["  sl  local_address rem_address   st tx_queue rx_queue tr tm->when retrnsmt   uid".toList,
      "   1: 0100007F:13AD 0100007F:D2F0 01 00000000:00000000 00:00000000 00000000  1000 ".toList]))
    [0, 1000] = true := by
  decide +kernel

/-- The uids that an adb server may run as. -/
theorem mem_allowedAdbUids {euid uid : UInt32} {user : Option UInt32} :
    uid ∈ allowedAdbUids euid user ↔ uid = 0 ∨ uid = euid ∨ user = some uid := by
  simp [allowedAdbUids, eq_comm]

/-- Over every table that the kernel writes, a connection is trusted if and only
if the other end of it, at the port of adb, belongs to root, to the daemon's own
user or to the one that it was told of; and a server is taken for one if and
only if one of these listens there. -/
theorem trust_law (table : Table) (euid : UInt32) (user : Option UInt32) :
    (∀ address, adbPeerTrusted address (some table.text) (allowedAdbUids euid user) = true ↔
      ∃ ip port, address = some (.v4 ip port) ∧ ∃ e ∈ table.entries, e.here = adbEnd ∧
        e.there = ⟨ip, port⟩ ∧ (e.uid = 0 ∨ e.uid = euid ∨ user = some e.uid)) ∧
    (adbServerTrusted (some table.text) (allowedAdbUids euid user) = true ↔
      ∃ e ∈ table.entries, (e.here = adbEnd ∨ e.here = anyEnd) ∧ e.state = 10 ∧
        (e.uid = 0 ∨ e.uid = euid ∨ user = some e.uid)) := by
  refine ⟨fun address => ?_, ?_⟩
  · constructor
    · intro htrusted
      cases address with
      | none => cases htrusted
      | some address =>
          cases address with
          | v6 ip port scope => cases htrusted
          | v4 ip port =>
              obtain ⟨e, he, hhere, hthere, huid⟩ :=
                (adbPeerTrusted_iff ip port table _).mp htrusted
              exact ⟨ip, port, rfl, e, he, hhere, hthere, mem_allowedAdbUids.mp huid⟩
    · rintro ⟨ip, port, rfl, e, he, hhere, hthere, huid⟩
      exact (adbPeerTrusted_iff ip port table _).mpr
        ⟨e, he, hhere, hthere, mem_allowedAdbUids.mpr huid⟩
  · simp only [adbServerTrusted_iff, mem_allowedAdbUids]

end Passkey.Daemon.Adb

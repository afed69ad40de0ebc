import Passkey.Words

/-!
Internet addresses as the standard library writes and reads them. A reader takes
what it can from the front of a text and leaves the rest; what was written is
read back, whatever follows that could not be part of it.
-/

namespace Passkey.Net

open Text

/-! ### Addresses -/

structure Ipv4Addr where
  a : UInt8
  b : UInt8
  c : UInt8
  d : UInt8
  deriving DecidableEq

@[ext] structure Ipv6Addr where
  segments : List UInt16
  eight : segments.length = 8
  deriving DecidableEq

inductive IpAddr where
  | v4 (ip : Ipv4Addr)
  | v6 (ip : Ipv6Addr)
  deriving DecidableEq

/-- A text has no flow information, and an address that is read has the flow 0. -/
inductive SocketAddr where
  | v4 (ip : Ipv4Addr) (port : UInt16)
  | v6 (ip : Ipv6Addr) (port : UInt16) (scope : UInt32)
  deriving DecidableEq

def SocketAddr.new : IpAddr → UInt16 → SocketAddr
  | .v4 ip, port => .v4 ip port
  | .v6 ip, port => .v6 ip port 0

def SocketAddr.ip : SocketAddr → IpAddr
  | .v4 ip _ => .v4 ip
  | .v6 ip _ _ => .v6 ip

def SocketAddr.port : SocketAddr → UInt16
  | .v4 _ port => port
  | .v6 _ port _ => port

/-! ### Kinds of addresses -/

def Ipv4Addr.isPrivate (ip : Ipv4Addr) : Bool :=
  ip.a = 10 || (ip.a = 172 && 16 ≤ ip.b && ip.b ≤ 31) || (ip.a = 192 && ip.b = 168)

def Ipv4Addr.isLinkLocal (ip : Ipv4Addr) : Bool :=
  ip.a = 169 && ip.b = 254

def Ipv4Addr.isLoopback (ip : Ipv4Addr) : Bool :=
  ip.a = 127

def Ipv6Addr.isUniqueLocal (ip : Ipv6Addr) : Bool :=
  ip.segments.headD 0 &&& 0xfe00 = 0xfc00

def Ipv6Addr.isUnicastLinkLocal (ip : Ipv6Addr) : Bool :=
  ip.segments.headD 0 &&& 0xffc0 = 0xfe80

def Ipv6Addr.isLoopback (ip : Ipv6Addr) : Bool :=
  ip.segments = [0, 0, 0, 0, 0, 0, 0, 1]

/-! ### Writing -/

def Ipv4Addr.display (ip : Ipv4Addr) : Text :=
  decimal ip.a.toNat ++ '.' :: (decimal ip.b.toNat ++ '.' ::
    (decimal ip.c.toNat ++ '.' :: decimal ip.d.toNat))

/-- A segment in hexadecimal, without leading zeros. -/
def hexSegment (segment : UInt16) : Text :=
  Nat.toDigits 16 segment.toNat

def fmtSubslice : List UInt16 → Text
  | [] => []
  | first :: tail => hexSegment first ++ tail.flatMap fun segment => ':' :: hexSegment segment

structure Span where
  start : Nat := 0
  len : Nat := 0

/-- The longest span of zeros so far, and the one that ends here. -/
structure Zeroes where
  longest : Span := {}
  current : Span := {}

/-- The segment with the number `i`. -/
def Zeroes.next (z : Zeroes) (i : Nat) (segment : UInt16) : Zeroes :=
  if segment = 0 then
    let current : Span := ⟨if z.current.len = 0 then i else z.current.start, z.current.len + 1⟩
    ⟨if current.len > z.longest.len then current else z.longest, current⟩
  else ⟨z.longest, {}⟩

def zeroesFrom (z : Zeroes) : Nat → List UInt16 → Zeroes
  | _, [] => z
  | i, segment :: rest => zeroesFrom (z.next i segment) (i + 1) rest

/-- The first of the longest spans of zeros. -/
def zeroes (segments : List UInt16) : Span :=
  (zeroesFrom {} 0 segments).longest

/-- `to_ipv4_mapped`. -/
def toIpv4Mapped : List UInt16 → Option Ipv4Addr
  | [0, 0, 0, 0, 0, 0xffff, ab, cd] =>
      some ⟨(ab >>> 8).toUInt8, ab.toUInt8, (cd >>> 8).toUInt8, cd.toUInt8⟩
  | _ => none

/-- The part around the longest span of zeros, if that has two of them. -/
def compressed (segments : List UInt16) : Text :=
  let span := zeroes segments
  if span.len > 1 then
    fmtSubslice (segments.take span.start) ++ ':' :: ':' ::
      fmtSubslice (segments.drop (span.start + span.len))
  else fmtSubslice segments

def Ipv6Addr.display (ip : Ipv6Addr) : Text :=
  match toIpv4Mapped ip.segments with
  | some mapped => "::ffff:".toList ++ mapped.display
  | none => compressed ip.segments

def SocketAddr.display : SocketAddr → Text
  | .v4 ip port => ip.display ++ ':' :: decimal port.toNat
  | .v6 ip port scope =>
      if scope = 0 then '[' :: (ip.display ++ ']' :: ':' :: decimal port.toNat)
      else '[' :: (ip.display ++ '%' :: (decimal scope.toNat ++ ']' :: ':' :: decimal port.toNat))

/-! ### Reading -/

/-- `char::to_digit`. -/
def toDigit (radix : Nat) (c : Char) : Option Nat :=
  let value :=
    if '0' ≤ c ∧ c ≤ '9' then some (c.toNat - '0'.toNat)
    else if 'a' ≤ c ∧ c ≤ 'z' then some (c.toNat - 'a'.toNat + 10)
    else if 'A' ≤ c ∧ c ≤ 'Z' then some (c.toNat - 'A'.toNat + 10)
    else none
  value.filter (· < radix)

def isDigit (radix : Nat) (c : Char) : Bool :=
  (toDigit radix c).isSome

def digitsValue (radix : Nat) (digits : Text) : Nat :=
  digits.foldl (fun value c => value * radix + (toDigit radix c).getD 0) 0

def readGivenChar (c : Char) : Text → Option Text
  | first :: rest => if first = c then some rest else none
  | [] => none

/-- A number of a type with so many values, in all the digits that come. -/
def readNumber (radix values : Nat) (maxDigits : Option Nat) (allowZero : Bool) (text : Text) :
    Option (Nat × Text) :=
  let digits := text.takeWhile (isDigit radix)
  if digits = [] || maxDigits.any (· < digits.length) ||
      (!allowZero && digits.head? = some '0' && 1 < digits.length) ||
      values ≤ digitsValue radix digits then none
  else some (digitsValue radix digits, text.dropWhile (isDigit radix))

/-- Every item but the first comes behind a separator. -/
def readSeparator {α : Type} (separator : Char) (first : Bool) (inner : Text → Option α)
    (text : Text) : Option α :=
  if first then inner text else (readGivenChar separator text).bind inner

def readOctet (text : Text) : Option (UInt8 × Text) :=
  (readNumber 10 (2 ^ 8) (some 3) false text).map fun n => (UInt8.ofNat n.1, n.2)

def readGroup (text : Text) : Option (UInt16 × Text) :=
  (readNumber 16 (2 ^ 16) (some 4) true text).map fun n => (UInt16.ofNat n.1, n.2)

def readIpv4 (text : Text) : Option (Ipv4Addr × Text) := do
  let a ← readSeparator '.' true readOctet text
  let b ← readSeparator '.' false readOctet a.2
  let c ← readSeparator '.' false readOctet b.2
  let d ← readSeparator '.' false readOctet c.2
  return (⟨a.1, b.1, c.1, d.1⟩, d.2)

/-- The groups that were read, and whether an IPv4 address gave the last two. -/
structure Groups where
  groups : List UInt16 := []
  ipv4 : Bool := false
  rest : Text

/-- Up to so many groups. An IPv4 address may end them where two are left. -/
def readGroups (first : Bool) : Nat → Text → Groups
  | 0, text => {rest := text}
  | limit + 1, text =>
      match if 0 < limit then readSeparator ':' first readIpv4 text else none with
      | some (ip, rest) =>
          ⟨[UInt16.ofNat (ip.a.toNat * 256 + ip.b.toNat),
            UInt16.ofNat (ip.c.toNat * 256 + ip.d.toNat)], true, rest⟩
      | none =>
          match readSeparator ':' first readGroup text with
          | some (group, rest) =>
              let more := readGroups false limit rest
              {more with groups := group :: more.groups}
          | none => {rest := text}

/-- Eight segments that are zero where neither part says otherwise. -/
def Ipv6Addr.ofParts (head tail : List UInt16) : Ipv6Addr where
  segments := (head ++ List.replicate (8 - tail.length - head.length) 0 ++ tail).takeD 8 0
  eight := List.takeD_length ..

def readIpv6 (text : Text) : Option (Ipv6Addr × Text) :=
  let head := readGroups true 8 text
  if head.groups.length = 8 then some (.ofParts head.groups [], head.rest)
  else if head.ipv4 then none
  else do
    let rest ← readGivenChar ':' head.rest
    let rest ← readGivenChar ':' rest
    let tail := readGroups true (8 - (head.groups.length + 1)) rest
    return (.ofParts head.groups tail.groups, tail.rest)

def readIpAddr (text : Text) : Option (IpAddr × Text) :=
  ((readIpv4 text).map fun ip => (.v4 ip.1, ip.2)).or
    ((readIpv6 text).map fun ip => (.v6 ip.1, ip.2))

def readPort (text : Text) : Option (UInt16 × Text) :=
  ((readGivenChar ':' text).bind (readNumber 10 (2 ^ 16) none true)).map
    fun n => (UInt16.ofNat n.1, n.2)

def readScopeId (text : Text) : Option (UInt32 × Text) :=
  ((readGivenChar '%' text).bind (readNumber 10 (2 ^ 32) none true)).map
    fun n => (UInt32.ofNat n.1, n.2)

def readSocketAddrV4 (text : Text) : Option (SocketAddr × Text) := do
  let ip ← readIpv4 text
  let port ← readPort ip.2
  return (.v4 ip.1 port.1, port.2)

def readSocketAddrV6 (text : Text) : Option (SocketAddr × Text) := do
  let rest ← readGivenChar '[' text
  let ip ← readIpv6 rest
  let scope := (readScopeId ip.2).getD (0, ip.2)
  let rest ← readGivenChar ']' scope.2
  let port ← readPort rest
  return (.v6 ip.1 port.1 scope.1, port.2)

/-- All of the text must be read. -/
def parseWith {α : Type} (reader : Text → Option (α × Text)) (text : Text) : Option α :=
  (reader text).bind fun value => if value.2 = [] then some value.1 else none

/-- `str::parse::<IpAddr>`. -/
def parseIpAddr : Text → Option IpAddr :=
  parseWith readIpAddr

/-- `str::parse::<SocketAddr>`. -/
def parseSocketAddr : Text → Option SocketAddr :=
  parseWith fun text => (readSocketAddrV4 text).or (readSocketAddrV6 text)

/-! ### Numbers -/

theorem toDigit_digitChar {radix d : Nat} (hradix : radix ≤ 16) (hd : d < radix) :
    toDigit radix d.digitChar = some d := by
  have hall : ∀ radix ≤ 16, ∀ d < radix, toDigit radix d.digitChar = some d := by
    decide +kernel
  exact hall radix hradix d hd

theorem digitsValue_append (radix : Nat) (digits : Text) (c : Char) :
    digitsValue radix (digits ++ [c])
      = digitsValue radix digits * radix + (toDigit radix c).getD 0 := by
  simp [digitsValue]

section Numeral

variable {radix : Nat} (hbase : 1 < radix) (hradix : radix ≤ 16)

include hbase hradix

/-- The digits of a number are digits, and its own. -/
theorem toDigits_spec (n : Nat) : (∀ c ∈ Nat.toDigits radix n, isDigit radix c = true) ∧
    digitsValue radix (Nat.toDigits radix n) = n := by
  induction n using Nat.strong_induction_on with
  | _ n ih =>
      rw [Nat.toDigits_eq_if hbase]
      split
      · rename_i hlt
        have hdigit := toDigit_digitChar hradix hlt
        constructor
        · intro c hc
          obtain rfl := List.mem_singleton.mp hc
          rw [isDigit, hdigit]
          rfl
        · simp [digitsValue, hdigit]
      · rename_i hle
        have hlt : n / radix < n := Nat.div_lt_self (by omega) hbase
        have hdigit := toDigit_digitChar hradix (Nat.mod_lt n (by omega : 0 < radix))
        obtain ⟨hall, hvalue⟩ := ih (n / radix) hlt
        constructor
        · intro c hc
          rcases List.mem_append.mp hc with hc | hc
          · exact hall c hc
          · obtain rfl := List.mem_singleton.mp hc
            rw [isDigit, hdigit]
            rfl
        · rw [digitsValue_append, hvalue, hdigit, Option.getD_some]
          exact Nat.div_add_mod' n radix

end Numeral

/-- What comes next is no character of the kind. -/
def Stops (p : Char → Bool) (rest : Text) : Prop :=
  ∀ c ∈ rest.head?, p c = false

theorem takeWhile_stops {p : Char → Bool} {front rest : Text} (hfront : ∀ c ∈ front, p c = true)
    (hrest : Stops p rest) : (front ++ rest).takeWhile p = front ∧
      (front ++ rest).dropWhile p = rest := by
  rw [List.takeWhile_append_of_pos hfront, List.dropWhile_append_of_pos hfront]
  cases rest with
  | nil => simp
  | cons c rest =>
      have hc := hrest c rfl
      simp [hc]

/-- A number that was written is read, and no more than it. -/
theorem readNumber_toDigits {radix values n : Nat} {maxDigits : Option Nat} {allowZero : Bool}
    {rest : Text} (hbase : 1 < radix) (hradix : radix ≤ 16) (hn : n < values)
    (hlength : ∀ m ∈ maxDigits, (Nat.toDigits radix n).length ≤ m)
    (hzero : allowZero = true ∨ (Nat.toDigits radix n).head? ≠ some '0' ∨
      (Nat.toDigits radix n).length ≤ 1)
    (hrest : Stops (isDigit radix) rest) :
    readNumber radix values maxDigits allowZero (Nat.toDigits radix n ++ rest)
      = some (n, rest) := by
  obtain ⟨hdigits, hvalue⟩ := toDigits_spec hbase hradix n
  obtain ⟨htake, hdrop⟩ := takeWhile_stops hdigits hrest
  unfold readNumber
  dsimp only
  rw [htake, hdrop, hvalue, if_neg]
  simp only [Bool.or_eq_true, Bool.and_eq_true, decide_eq_true_eq, Option.any_eq_true, not_or,
    Bool.not_eq_true', not_and, not_lt, not_le]
  refine ⟨⟨⟨Nat.toDigits_ne_nil, ?_⟩, ?_⟩, hn⟩
  · rintro ⟨m, hm, hlong⟩
    exact absurd hlong (Nat.not_lt.mpr (hlength m hm))
  · rintro ⟨hallow, hhead⟩
    rcases hzero with hallowed | hnonzero | hshort
    · rw [hallowed] at hallow
      cases hallow
    · exact absurd hhead hnonzero
    · exact hshort

/-! ### IPv4 -/

theorem readOctet_decimal (octet : UInt8) {rest : Text} (hrest : Stops (isDigit 10) rest) :
    readOctet (decimal octet.toNat ++ rest) = some (octet, rest) := by
  have hsmall : ∀ n < 256, (Nat.toDigits 10 n).length ≤ 3 ∧
      ((Nat.toDigits 10 n).head? ≠ some '0' ∨ (Nat.toDigits 10 n).length ≤ 1) := by
    decide +kernel
  obtain ⟨hlength, hzero⟩ := hsmall octet.toNat octet.toNat_lt
  have hnumber : readNumber 10 (2 ^ 8) (some 3) false (Nat.toDigits 10 octet.toNat ++ rest)
      = some (octet.toNat, rest) := by
    apply readNumber_toDigits (by decide) (by decide) octet.toNat_lt
    · intro m hm
      cases hm
      exact hlength
    · exact .inr hzero
    · exact hrest
  rw [readOctet, decimal, hnumber, Option.map_some, UInt8.ofNat_toNat]

theorem readSeparator_cons {α : Type} (c : Char) (inner : Text → Option α) (text : Text) :
    readSeparator c false inner (c :: text) = inner text := by
  simp [readSeparator, readGivenChar]

theorem stops_dot (rest : Text) : Stops (isDigit 10) ('.' :: rest) := by
  rintro c hc
  cases hc
  rfl

theorem readIpv4_display (ip : Ipv4Addr) {rest : Text} (hrest : Stops (isDigit 10) rest) :
    readIpv4 (ip.display ++ rest) = some (ip, rest) := by
  have hfirst {α : Type} (inner : Text → Option α) (text : Text) :
      readSeparator '.' true inner text = inner text := rfl
  unfold readIpv4 Ipv4Addr.display
  simp only [List.append_assoc, List.cons_append, hfirst, Option.bind_eq_bind]
  rw [readOctet_decimal ip.a (stops_dot _), Option.bind_some, readSeparator_cons,
    readOctet_decimal ip.b (stops_dot _), Option.bind_some, readSeparator_cons,
    readOctet_decimal ip.c (stops_dot _), Option.bind_some, readSeparator_cons,
    readOctet_decimal ip.d hrest, Option.bind_some]
  rfl

/-- An IPv4 address has a dot behind its first digits. -/
theorem readIpv4_eq_none {text : Text} (h : (text.dropWhile (isDigit 10)).head? ≠ some '.') :
    readIpv4 text = none := by
  cases hoctet : readOctet text with
  | none => simp [readIpv4, readSeparator, hoctet]
  | some a =>
      have hrest : a.2 = text.dropWhile (isDigit 10) := by
        obtain ⟨n, hn, rfl⟩ := Option.map_eq_some_iff.mp hoctet
        unfold readNumber at hn
        dsimp only at hn
        obtain ⟨-, heq⟩ := Option.ite_none_left_eq_some.mp hn
        rw [← Option.some.inj heq]
      have hdot : readGivenChar '.' a.2 = none := by
        rw [hrest]
        cases hdrop : text.dropWhile (isDigit 10) with
        | nil => rfl
        | cons c more =>
            rw [hdrop, List.head?_cons] at h
            exact if_neg fun heq => h (congrArg some heq)
      simp [readIpv4, readSeparator, hoctet, hdot]

/-! ### IPv6 -/

theorem readGroup_hexSegment (segment : UInt16) {rest : Text} (hrest : Stops (isDigit 16) rest) :
    readGroup (hexSegment segment ++ rest) = some (segment, rest) := by
  have hlength : (Nat.toDigits 16 segment.toNat).length ≤ 4 :=
    (Nat.length_toDigits_le_iff (by decide) (by decide)).mpr segment.toNat_lt
  have hnumber : readNumber 16 (2 ^ 16) (some 4) true (Nat.toDigits 16 segment.toNat ++ rest)
      = some (segment.toNat, rest) := by
    apply readNumber_toDigits (by decide) (by decide) segment.toNat_lt
    · intro m hm
      cases hm
      exact hlength
    · exact .inl rfl
    · exact hrest
  rw [readGroup, hexSegment, hnumber, Option.map_some, UInt16.ofNat_toNat]

theorem readGroup_eq_none {text : Text} (h : Stops (isDigit 16) text) : readGroup text = none := by
  have htake : text.takeWhile (isDigit 16) = [] := by
    have hnil : ∀ c ∈ ([] : Text), isDigit 16 c = true := by simp
    exact (takeWhile_stops hnil h).1
  simp [readGroup, readNumber, htake]

theorem isDigit_mono {c : Char} (h : isDigit 16 c = false) : isDigit 10 c = false := by
  have hten : ∀ value : Option Nat, (value.filter (· < 16)).isSome = false →
      (value.filter (· < 10)).isSome = false := by
    intro value hvalue
    cases value with
    | none => rfl
    | some v =>
        have hlarge : ¬ v < 16 := by
          intro hlt
          simp [hlt] at hvalue
        simp [show ¬ v < 10 by omega]
  exact hten _ h

theorem Stops.mono {rest : Text} (h : Stops (isDigit 16) rest) : Stops (isDigit 10) rest :=
  fun c hc => isDigit_mono (h c hc)

/-- What may come behind a group: no digit, and no dot. -/
structure Follows (rest : Text) : Prop where
  digit : Stops (isDigit 16) rest
  dot : rest.head? ≠ some '.'

/-- What may come behind an address: where it is a colon, no group comes then. -/
structure Ends (rest : Text) : Prop extends Follows rest where
  colon : ∀ more, rest = ':' :: more → Follows more

theorem follows_cons {c : Char} (hdigit : isDigit 16 c = false) (hdot : c ≠ '.') (rest : Text) :
    Follows (c :: rest) where
  digit := by
    intro first hfirst
    cases hfirst
    exact hdigit
  dot := by simpa using hdot

theorem ends_cons {c : Char} (hdigit : isDigit 16 c = false) (hdot : c ≠ '.') (hcolon : c ≠ ':')
    (rest : Text) : Ends (c :: rest) where
  toFollows := follows_cons hdigit hdot rest
  colon := by
    intro more hmore
    exact absurd (List.cons.inj hmore).1 hcolon

theorem follows_nil : Follows [] where
  digit := by simp [Stops]
  dot := by simp

theorem ends_gap (rest : Text) : Ends (':' :: ':' :: rest) where
  toFollows := follows_cons rfl (by decide) _
  colon := by
    rintro more hmore
    cases hmore
    exact follows_cons rfl (by decide) rest

theorem dropWhile_head {p : Char → Bool} {front rest : Text} (hfront : '.' ∉ front)
    (hrest : Stops p rest) (hdot : rest.head? ≠ some '.') :
    ((front ++ rest).dropWhile p).head? ≠ some '.' := by
  induction front with
  | nil =>
      have hnil : ∀ c ∈ ([] : Text), p c = true := by simp
      rw [(takeWhile_stops hnil hrest).2]
      exact hdot
  | cons c front ih =>
      obtain ⟨hc, hmore⟩ := not_or.mp (mt List.mem_cons.mpr hfront)
      rw [List.cons_append, List.dropWhile_cons]
      split
      · exact ih hmore
      · simpa using fun heq : c = '.' => hc heq.symm

theorem Follows.readIpv4 {rest : Text} (h : Follows rest) : readIpv4 rest = none :=
  readIpv4_eq_none (@dropWhile_head _ [] _ (by simp) h.digit.mono h.dot)

/-- A group is no IPv4 address. -/
theorem readIpv4_hexSegment (segment : UInt16) {rest : Text} (h : Follows rest) :
    readIpv4 (hexSegment segment ++ rest) = none := by
  apply readIpv4_eq_none
  apply dropWhile_head _ h.digit.mono h.dot
  intro hmem
  have hdigit := (toDigits_spec (by decide) (by decide) segment.toNat).1 '.' hmem
  cases hdigit

theorem readGroups_end {first : Bool} {text : Text}
    (hip : readSeparator ':' first readIpv4 text = none)
    (hgroup : readSeparator ':' first readGroup text = none) (limit : Nat) :
    readGroups first limit text = {rest := text} := by
  cases limit with
  | zero => rfl
  | succ limit => simp [readGroups, hip, hgroup]

/-- One group, in front of what else there is. -/
theorem readGroups_group {first : Bool} {text rest : Text} {segment : UInt16}
    (htext : ∀ {α : Type} (inner : Text → Option α),
      readSeparator ':' first inner text = inner (hexSegment segment ++ rest))
    (hrest : Follows rest) (limit : Nat) :
    readGroups first (limit + 1) text =
      {readGroups false limit rest with
        groups := segment :: (readGroups false limit rest).groups} := by
  have hgroup := readGroup_hexSegment segment hrest.digit
  simp [readGroups, htext, readIpv4_hexSegment segment hrest, hgroup]

/-- The groups behind the first one. -/
def fmtTail (segments : List UInt16) : Text :=
  segments.flatMap fun segment => ':' :: hexSegment segment

theorem follows_fmtTail (segments : List UInt16) {rest : Text} (hrest : Follows rest) :
    Follows (fmtTail segments ++ rest) := by
  cases segments with
  | nil => exact hrest
  | cons segment segments => exact follows_cons rfl (by decide) _

theorem readGroups_fmtTail {segments : List UInt16} {rest : Text} (hrest : Ends rest) {limit : Nat}
    (hlimit : segments.length ≤ limit) :
    readGroups false limit (fmtTail segments ++ rest) = ⟨segments, false, rest⟩ := by
  induction segments generalizing limit with
  | nil =>
      have hnone {α : Type} {inner : Text → Option α} (hinner : ∀ more, Follows more →
          inner more = none) : readSeparator ':' false inner rest = none := by
        cases rest with
        | nil => rfl
        | cons c more =>
            by_cases hc : c = ':'
            · subst hc
              rw [readSeparator_cons]
              exact hinner more (hrest.colon more rfl)
            · simp [readSeparator, readGivenChar, hc]
      apply readGroups_end
      · exact hnone fun more hmore => hmore.readIpv4
      · exact hnone fun more hmore => readGroup_eq_none hmore.digit
  | cons segment segments ih =>
      cases limit with
      | zero => cases hlimit
      | succ limit =>
          have hmore := follows_fmtTail segments hrest.toFollows
          have hgroups := ih (Nat.le_of_succ_le_succ hlimit)
          have htext : fmtTail (segment :: segments) ++ rest
              = ':' :: (hexSegment segment ++ (fmtTail segments ++ rest)) := by
            simp [fmtTail]
          rw [htext, readGroups_group (readSeparator_cons ':' · _) hmore, hgroups]

theorem readGroups_fmtSubslice {segments : List UInt16} {rest : Text} (hrest : Ends rest)
    {limit : Nat} (hlimit : segments.length ≤ limit) :
    readGroups true limit (fmtSubslice segments ++ rest) = ⟨segments, false, rest⟩ := by
  cases segments with
  | nil =>
      apply readGroups_end
      · exact hrest.toFollows.readIpv4
      · exact readGroup_eq_none hrest.digit
  | cons segment segments =>
      cases limit with
      | zero => cases hlimit
      | succ limit =>
          have hmore := follows_fmtTail segments hrest.toFollows
          have hgroups := readGroups_fmtTail hrest (Nat.le_of_succ_le_succ hlimit)
          have htext : fmtSubslice (segment :: segments) ++ rest
              = hexSegment segment ++ (fmtTail segments ++ rest) :=
            List.append_assoc ..
          rw [htext, readGroups_group (fun _ => rfl) hmore, hgroups]

/-- A span of zeros of a list. -/
def Span.In (span : Span) (segments : List UInt16) : Prop :=
  ∃ before after, before.length = span.start ∧
    segments = before ++ List.replicate span.len 0 ++ after

structure Zeroes.Of (z : Zeroes) (segments : List UInt16) : Prop where
  longest : z.longest.In segments
  current : ∃ before, (0 < z.current.len → before.length = z.current.start) ∧
    segments = before ++ List.replicate z.current.len 0

theorem Span.In.append {span : Span} {segments : List UInt16} (h : span.In segments)
    (segment : UInt16) : span.In (segments ++ [segment]) := by
  obtain ⟨before, after, hstart, rfl⟩ := h
  exact ⟨before, after ++ [segment], hstart, List.append_assoc ..⟩

theorem Zeroes.Of.next {z : Zeroes} {segments : List UInt16} (h : z.Of segments)
    (segment : UInt16) : (z.next segments.length segment).Of (segments ++ [segment]) := by
  obtain ⟨before, hbefore, hcurrent⟩ := h.current
  unfold Zeroes.next
  split
  · rename_i hzero
    subst hzero
    have hstart : before.length
        = if z.current.len = 0 then segments.length else z.current.start := by
      split
      · rename_i hlen
        simp [hcurrent, hlen]
      · rename_i hlen
        exact hbefore (Nat.pos_of_ne_zero hlen)
    have hsegments : segments ++ [0] = before ++ List.replicate (z.current.len + 1) 0 := by
      rw [List.replicate_succ', ← List.append_assoc, ← hcurrent]
    constructor
    · dsimp only
      split
      · exact ⟨before, [], hstart, by simpa using hsegments⟩
      · exact h.longest.append 0
    · exact ⟨before, fun _ => hstart, hsegments⟩
  · constructor
    · exact h.longest.append segment
    · exact ⟨segments ++ [segment], fun hpos => absurd hpos (Nat.lt_irrefl 0), by simp⟩

theorem zeroesFrom_in {z : Zeroes} {seen segments : List UInt16} (h : z.Of seen) :
    (zeroesFrom z seen.length segments).longest.In (seen ++ segments) := by
  induction segments generalizing z seen with
  | nil => simpa [zeroesFrom] using h.longest
  | cons segment rest ih =>
      have hnext := ih (h.next segment)
      rw [List.length_append, List.length_singleton, List.append_assoc] at hnext
      exact hnext

/-- What is found is a span of zeros. -/
theorem zeroes_in (segments : List UInt16) : (zeroes segments).In segments := by
  have hstart : Zeroes.Of {} [] := ⟨⟨[], [], rfl, rfl⟩, [], fun _ => rfl, rfl⟩
  exact zeroesFrom_in hstart

theorem ofParts_eq {ip : Ipv6Addr} {head tail : List UInt16} {len : Nat}
    (h : ip.segments = head ++ List.replicate len 0 ++ tail) : .ofParts head tail = ip := by
  have hlength := congrArg List.length h
  rw [ip.eight, List.length_append, List.length_append, List.length_replicate] at hlength
  have hgap : 8 - tail.length - head.length = len := by omega
  apply Ipv6Addr.ext
  calc (Ipv6Addr.ofParts head tail).segments
      = (head ++ List.replicate (8 - tail.length - head.length) 0 ++ tail).takeD 8 0 := rfl
    _ = ip.segments.takeD 8 0 := by rw [hgap, ← h]
    _ = ip.segments := by
        rw [List.takeD_eq_take _ ip.eight.ge, ← ip.eight, List.take_length]

/-- What is before a span and what is behind it. -/
theorem Span.In.parts {span : Span} {segments : List UInt16} (h : span.In segments) :
    segments = segments.take span.start ++ List.replicate span.len 0 ++
        segments.drop (span.start + span.len) ∧
      span.start + span.len ≤ segments.length := by
  obtain ⟨before, after, hstart, rfl⟩ := h
  have htake : (before ++ List.replicate span.len 0 ++ after).take span.start = before := by
    rw [List.append_assoc]
    exact List.take_left' hstart
  have hdrop : (before ++ List.replicate span.len 0 ++ after).drop (span.start + span.len)
      = after := by
    apply List.drop_left'
    rw [List.length_append, List.length_replicate, hstart]
  constructor
  · rw [htake, hdrop]
  · rw [List.length_append, List.length_append, List.length_replicate]
    omega

/-- An address written without an IPv4 address in it. -/
theorem readIpv6_compressed (ip : Ipv6Addr) {rest : Text} (hrest : Ends rest) :
    readIpv6 (compressed ip.segments ++ rest) = some (ip, rest) := by
  unfold compressed
  dsimp only
  obtain ⟨hparts, hbound⟩ := (zeroes_in ip.segments).parts
  rw [ip.eight] at hbound
  generalize zeroes ip.segments = span at hparts hbound ⊢
  split
  · rename_i hspan
    have hbefore : (ip.segments.take span.start).length = span.start := by
      rw [List.length_take, ip.eight]
      omega
    have hafter : (ip.segments.drop (span.start + span.len)).length
        = 8 - (span.start + span.len) := by
      rw [List.length_drop, ip.eight]
    have hip := ofParts_eq hparts
    generalize ip.segments.take span.start = before at hbefore hip ⊢
    generalize ip.segments.drop (span.start + span.len) = after at hafter hip ⊢
    have hhead := readGroups_fmtSubslice (ends_gap (fmtSubslice after ++ rest))
      (show before.length ≤ 8 by omega)
    have hfits : after.length ≤ 8 - (before.length + 1) := by omega
    have htail := readGroups_fmtSubslice hrest hfits
    rw [List.append_assoc, List.cons_append, List.cons_append]
    unfold readIpv6
    dsimp only
    rw [hhead, if_neg (by dsimp only; omega), if_neg (by simp)]
    simp only [readGivenChar, if_true, Option.bind_eq_bind, Option.bind_some, htail, hip]
    rfl
  · have hhead := readGroups_fmtSubslice hrest (show ip.segments.length ≤ 8 from ip.eight.le)
    have hip : .ofParts ip.segments [] = ip := @ofParts_eq ip ip.segments [] 0 (by simp)
    unfold readIpv6
    dsimp only
    rw [hhead, if_pos ip.eight, hip]

theorem toIpv4Mapped_eq {segments : List UInt16} {mapped : Ipv4Addr}
    (h : toIpv4Mapped segments = some mapped) :
    segments = [0, 0, 0, 0, 0, 0xffff, UInt16.ofNat (mapped.a.toNat * 256 + mapped.b.toNat),
      UInt16.ofNat (mapped.c.toNat * 256 + mapped.d.toNat)] := by
  have hhalves (segment : UInt16) :
      UInt16.ofNat ((segment >>> 8).toUInt8.toNat * 256 + segment.toUInt8.toNat) = segment := by
    have hlt := segment.toNat_lt
    have hhigh : (segment >>> 8).toNat = segment.toNat / 256 := by
      rw [UInt16.toNat_shiftRight, Nat.shiftRight_eq_div_pow]
      rfl
    apply UInt16.toNat_inj.mp
    rw [UInt16.toNat_ofNat', UInt16.toNat_toUInt8, UInt16.toNat_toUInt8, hhigh]
    omega
  unfold toIpv4Mapped at h
  split at h
  · rename_i ab cd
    cases h
    rw [hhalves ab, hhalves cd]
  · cases h

/-- An IPv4 address after its fixed segments. -/
theorem readIpv6_mapped (mapped : Ipv4Addr) {rest : Text} (hrest : Ends rest) :
    readIpv6 ("::ffff:".toList ++ mapped.display ++ rest) = some (.ofParts [] [0xffff,
      UInt16.ofNat (mapped.a.toNat * 256 + mapped.b.toNat),
      UInt16.ofNat (mapped.c.toNat * 256 + mapped.d.toNat)], rest) := by
  have htext : "::ffff:".toList ++ mapped.display ++ rest
      = ':' :: ':' :: (hexSegment 0xffff ++ ':' :: (mapped.display ++ rest)) := by
    rw [List.append_assoc]
    rfl
  have hhead : readGroups true 8
      (':' :: ':' :: (hexSegment 0xffff ++ ':' :: (mapped.display ++ rest)))
      = {rest := ':' :: ':' :: (hexSegment 0xffff ++ ':' :: (mapped.display ++ rest))} :=
    @readGroups_fmtSubslice [] _ (ends_gap _) 8 (Nat.zero_le 8)
  have hlast : readGroups false 6 (':' :: (mapped.display ++ rest)) =
      ⟨[UInt16.ofNat (mapped.a.toNat * 256 + mapped.b.toNat),
        UInt16.ofNat (mapped.c.toNat * 256 + mapped.d.toNat)], true, rest⟩ := by
    simp only [readGroups, readSeparator_cons, readIpv4_display mapped hrest.digit.mono]
    rfl
  have hcolon : Follows (':' :: (mapped.display ++ rest)) := follows_cons rfl (by decide) _
  have htail : readGroups true 7 (hexSegment 0xffff ++ ':' :: (mapped.display ++ rest)) =
      {readGroups false 6 (':' :: (mapped.display ++ rest)) with
        groups := 0xffff :: (readGroups false 6 (':' :: (mapped.display ++ rest))).groups} :=
    readGroups_group (fun _ => rfl) hcolon 6
  rw [htext]
  unfold readIpv6
  dsimp only
  rw [hhead, if_neg (by simp), if_neg (by simp)]
  simp only [readGivenChar, if_true, Option.bind_eq_bind, Option.bind_some, List.length_nil,
    Nat.zero_add, Nat.reduceSub, htail, hlast]
  rfl

theorem readIpv6_display (ip : Ipv6Addr) {rest : Text} (hrest : Ends rest) :
    readIpv6 (ip.display ++ rest) = some (ip, rest) := by
  unfold Ipv6Addr.display
  split
  · rename_i mapped hmapped
    have hsegments := toIpv4Mapped_eq hmapped
    rw [readIpv6_mapped mapped hrest, @ofParts_eq ip [] _ 5 hsegments]
  · exact readIpv6_compressed ip hrest

/-! ### Socket addresses -/

theorem readNumber_decimal {n values : Nat} (hn : n < values) {rest : Text}
    (hrest : Stops (isDigit 10) rest) :
    readNumber 10 values none true (decimal n ++ rest) = some (n, rest) := by
  apply readNumber_toDigits (by decide) (by decide) hn
  · simp
  · exact .inl rfl
  · exact hrest

theorem readPort_decimal (port : UInt16) :
    readPort (':' :: decimal port.toNat) = some (port, []) := by
  have hnumber : readNumber 10 (2 ^ 16) none true (decimal port.toNat ++ [])
      = some (port.toNat, []) :=
    readNumber_decimal port.toNat_lt follows_nil.digit.mono
  rw [List.append_nil] at hnumber
  simp only [readPort, readGivenChar, if_true, Option.bind_some]
  rw [hnumber, Option.map_some, UInt16.ofNat_toNat]

theorem readScopeId_decimal (scope : UInt32) {rest : Text} (hrest : Stops (isDigit 10) rest) :
    readScopeId ('%' :: (decimal scope.toNat ++ rest)) = some (scope, rest) := by
  simp only [readScopeId, readGivenChar, if_true, Option.bind_some]
  rw [readNumber_decimal scope.toNat_lt hrest, Option.map_some, UInt32.ofNat_toNat]

theorem parseWith_eq {α : Type} {reader : Text → Option (α × Text)} {text : Text} {value : α}
    (h : reader text = some (value, [])) : parseWith reader text = some value := by
  rw [parseWith, h, Option.bind_some, if_pos rfl]

theorem readSocketAddrV4_display (ip : Ipv4Addr) (port : UInt16) :
    readSocketAddrV4 (SocketAddr.v4 ip port).display = some (.v4 ip port, []) := by
  have hcolon : Follows (':' :: decimal port.toNat) := follows_cons rfl (by decide) _
  have hip := readIpv4_display ip hcolon.digit.mono
  simp [SocketAddr.display, readSocketAddrV4, hip, readPort_decimal]

theorem readSocketAddrV6_display (ip : Ipv6Addr) (port : UInt16) (scope : UInt32) :
    readSocketAddrV6 (SocketAddr.v6 ip port scope).display = some (.v6 ip port scope, []) := by
  have hport : Ends (']' :: ':' :: decimal port.toNat) :=
    ends_cons rfl (by decide) (by decide) _
  by_cases hscope : scope = 0
  · subst hscope
    have hdisplay : (SocketAddr.v6 ip port 0).display
        = '[' :: (ip.display ++ ']' :: ':' :: decimal port.toNat) := by
      simp [SocketAddr.display]
    have hnone : readScopeId (']' :: ':' :: decimal port.toNat) = none := by
      simp [readScopeId, readGivenChar]
    have hip := readIpv6_display ip hport
    rw [hdisplay]
    simp [readSocketAddrV6, readGivenChar, hip, hnone, readPort_decimal]
  · have hdisplay : (SocketAddr.v6 ip port scope).display
        = '[' :: (ip.display ++ '%' :: (decimal scope.toNat ++ ']' :: ':' :: decimal port.toNat)) :=
      if_neg hscope
    have hpercent : Ends ('%' :: (decimal scope.toNat ++ ']' :: ':' :: decimal port.toNat)) :=
      ends_cons rfl (by decide) (by decide) _
    have hip := readIpv6_display ip hpercent
    have hread := readScopeId_decimal scope hport.digit.mono
    rw [hdisplay]
    simp [readSocketAddrV6, readGivenChar, hip, hread, readPort_decimal]

/-- An address is read back as it was written. -/
theorem parseSocketAddr_display (address : SocketAddr) :
    parseSocketAddr address.display = some address := by
  apply parseWith_eq
  cases address with
  | v4 ip port =>
      rw [readSocketAddrV4_display]
      rfl
  | v6 ip port scope =>
      have hbracket (text : Text) : readSocketAddrV4 ('[' :: text) = none := by
        have hfollows : Follows ('[' :: text) := follows_cons rfl (by decide) _
        rw [readSocketAddrV4, hfollows.readIpv4]
        rfl
      have hnone : readSocketAddrV4 (SocketAddr.v6 ip port scope).display = none := by
        unfold SocketAddr.display
        dsimp only
        split
        · exact hbracket _
        · exact hbracket _
      rw [hnone, readSocketAddrV6_display]
      rfl

example : (parseSocketAddr "[FE80::0:1%3]:080".toList).map SocketAddr.display
    = some "[fe80::1%3]:80".toList :=
  rfl

/-! ### The text of an address -/

/-- The characters of an address. -/
def inAddress (c : Char) : Bool :=
  isDigit 16 c || c ∈ ".:[]%".toList

theorem inAddress_toDigits {radix : Nat} (hbase : 1 < radix) (hradix : radix = 10 ∨ radix = 16)
    (n : Nat) : ∀ c ∈ Nat.toDigits radix n, inAddress c = true := by
  intro c hc
  have hsixteen : isDigit 16 c = true := by
    rcases hradix with rfl | rfl
    · have hten := (toDigits_spec hbase (by decide) n).1 c hc
      by_contra hnot
      rw [isDigit_mono (Bool.eq_false_of_not_eq_true hnot)] at hten
      cases hten
    · exact (toDigits_spec hbase (by decide) n).1 c hc
  rw [inAddress, hsixteen]
  rfl

/-- What is written for an address: so many of its characters at most. -/
structure Written (limit : Nat) (text : Text) : Prop where
  chars : ∀ c ∈ text, inAddress c = true
  length : text.length ≤ limit

theorem Written.append {m n : Nat} {front rest : Text} (hfront : Written m front)
    (hrest : Written n rest) : Written (m + n) (front ++ rest) where
  chars := by
    intro c hc
    rcases List.mem_append.mp hc with hc | hc
    · exact hfront.chars c hc
    · exact hrest.chars c hc
  length := by
    rw [List.length_append]
    exact Nat.add_le_add hfront.length hrest.length

theorem Written.cons {n : Nat} {c : Char} {rest : Text} (hc : inAddress c = true)
    (hrest : Written n rest) : Written (n + 1) (c :: rest) where
  chars := by
    intro first hfirst
    rcases List.mem_cons.mp hfirst with rfl | hmem
    · exact hc
    · exact hrest.chars first hmem
  length := Nat.succ_le_succ hrest.length

theorem Written.mono {m n : Nat} {text : Text} (h : Written m text) (hle : m ≤ n) :
    Written n text :=
  ⟨h.chars, h.length.trans hle⟩

theorem written_decimal {n k : Nat} (hk : 0 < k) (hn : n < 10 ^ k) : Written k (decimal n) where
  chars := inAddress_toDigits (by decide) (.inl rfl) n
  length := (Nat.length_toDigits_le_iff (by decide) hk).mpr hn

theorem written_hexSegment (segment : UInt16) : Written 4 (hexSegment segment) where
  chars := inAddress_toDigits (by decide) (.inr rfl) segment.toNat
  length := (Nat.length_toDigits_le_iff (by decide) (by decide)).mpr segment.toNat_lt

theorem Ipv4Addr.written (ip : Ipv4Addr) : Written 15 ip.display := by
  have hoctet (octet : UInt8) : Written 3 (decimal octet.toNat) := by
    apply written_decimal (by decide)
    have hlt := octet.toNat_lt
    omega
  exact (hoctet ip.a).append (((hoctet ip.b).append (((hoctet ip.c).append
    ((hoctet ip.d).cons rfl)).cons rfl)).cons rfl)

theorem written_fmtTail (segments : List UInt16) :
    Written (5 * segments.length) (fmtTail segments) := by
  induction segments with
  | nil => exact ⟨by simp [fmtTail], by simp [fmtTail]⟩
  | cons segment segments ih =>
      have hboth := ((written_hexSegment segment).cons (c := ':') rfl).append ih
      apply hboth.mono
      rw [List.length_cons]
      omega

theorem written_fmtSubslice (segments : List UInt16) :
    Written (5 * segments.length) (fmtSubslice segments) := by
  cases segments with
  | nil => exact ⟨by simp [fmtSubslice], by simp [fmtSubslice]⟩
  | cons segment segments =>
      have hboth := (written_hexSegment segment).append (written_fmtTail segments)
      apply hboth.mono
      rw [List.length_cons]
      omega

theorem Ipv6Addr.written (ip : Ipv6Addr) : Written 40 ip.display := by
  unfold Ipv6Addr.display
  split
  · rename_i mapped hmapped
    have hnil : Written 0 [] := ⟨by simp, Nat.le_refl 0⟩
    have hfront : Written 7 "::ffff:".toList :=
      (((written_hexSegment 0xffff).append (hnil.cons rfl)).cons rfl).cons rfl
    exact (hfront.append mapped.written).mono (by decide)
  · obtain ⟨-, hbound⟩ := (zeroes_in ip.segments).parts
    rw [ip.eight] at hbound
    unfold compressed
    dsimp only
    split
    · rename_i hspan
      have hfront := written_fmtSubslice (ip.segments.take (zeroes ip.segments).start)
      have hrest := written_fmtSubslice
        (ip.segments.drop ((zeroes ip.segments).start + (zeroes ip.segments).len))
      rw [List.length_take, ip.eight] at hfront
      rw [List.length_drop, ip.eight] at hrest
      apply (hfront.append ((hrest.cons rfl).cons rfl)).mono
      omega
    · have hall := written_fmtSubslice ip.segments
      rw [ip.eight] at hall
      exact hall

theorem SocketAddr.written (address : SocketAddr) : Written 59 address.display := by
  have hport (port : UInt16) : Written 5 (decimal port.toNat) := by
    apply written_decimal (by decide)
    have hlt := port.toNat_lt
    omega
  have hend (port : UInt16) : Written 7 (']' :: ':' :: decimal port.toNat) :=
    ((hport port).cons rfl).cons rfl
  cases address with
  | v4 ip port => exact (ip.written.append ((hport port).cons rfl)).mono (by decide)
  | v6 ip port scope =>
      have hscope : Written 10 (decimal scope.toNat) := by
        apply written_decimal (by decide)
        have hlt := scope.toNat_lt
        omega
      unfold SocketAddr.display
      dsimp only
      split
      · exact ((ip.written.append (hend port)).cons rfl).mono (by decide)
      · exact ((ip.written.append ((hscope.append (hend port)).cons rfl)).cons rfl).mono (by decide)

/-- An address is ASCII, and in one line. -/
theorem ascii_of_inAddress {c : Char} (h : inAddress c = true) :
    0x20 < c.toNat ∧ c.toNat < 0x7F := by
  have hle {a b : Char} : a ≤ b ↔ a.toNat ≤ b.toNat := UInt32.le_iff_toNat_le
  have hbounds : '0'.toNat = 48 ∧ '9'.toNat = 57 ∧ 'a'.toNat = 97 ∧ 'z'.toNat = 122 ∧
    'A'.toNat = 65 ∧ 'Z'.toNat = 90 := ⟨rfl, rfl, rfl, rfl, rfl, rfl⟩
  rcases Bool.or_eq_true_iff.mp h with hdigit | hmark
  · unfold isDigit toDigit at hdigit
    simp only [hle] at hdigit
    split at hdigit
    · omega
    · split at hdigit
      · omega
      · split at hdigit
        · omega
        · cases hdigit
  · have hmem : c ∈ ['.', ':', '[', ']', '%'] := of_decide_eq_true hmark
    simp only [List.mem_cons, List.not_mem_nil, or_false] at hmem
    rcases hmem with rfl | rfl | rfl | rfl | rfl <;> decide

end Passkey.Net

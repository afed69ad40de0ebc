import Mathlib

/-!
Bytes, and text as the list of its Unicode scalar values, with the few
operations of the standard library that both programs use on them.
-/

namespace Passkey

abbrev Bytes := List UInt8

abbrev Text := List Char

namespace Text

instance (line : Text) (ls : List Text) : Decidable (line ∈ ls) :=
  inferInstance

/-- A line without its terminator, from the characters before the line feed
in reverse: one carriage return directly before the line feed belongs to it. -/
def endLine : Text → Text
  | '\r' :: rest => rest.reverse
  | reversed => reversed.reverse

/-- The characters read since the last line feed are kept in reverse. -/
def linesFrom : Text → Text → List Text
  | [], [] => []
  | [], reversed => [reversed.reverse]
  | '\n' :: rest, reversed => endLine reversed :: linesFrom rest []
  | c :: rest, reversed => linesFrom rest (c :: reversed)

/-- `str::lines`: the terminator of the last line is optional, and a carriage
return that no line feed follows is part of its line. -/
def lines (text : Text) : List Text :=
  linesFrom text []

/-- A line less the carriage return that would belong to its terminator. -/
def chomp (line : Text) : Text :=
  endLine line.reverse

/-- Each line with a line feed after it. -/
def unlines (ls : List Text) : Text :=
  ls.flatMap (· ++ ['\n'])

def contains (text needle : Text) : Bool :=
  decide (needle <:+: text)

/-- The White_Space property, as `char::is_whitespace` reads it. -/
def isWhitespace (c : Char) : Bool :=
  (0x09 ≤ c.toNat && c.toNat ≤ 0x0D) || c.toNat == 0x20 || c.toNat == 0x85
    || c.toNat == 0xA0 || c.toNat == 0x1680 || (0x2000 ≤ c.toNat && c.toNat ≤ 0x200A)
    || c.toNat == 0x2028 || c.toNat == 0x2029 || c.toNat == 0x202F || c.toNat == 0x205F
    || c.toNat == 0x3000

def trimStart (text : Text) : Text :=
  text.dropWhile isWhitespace

/-! ### Lines read back -/

theorem linesFrom_append {line : Text} (rest reversed : Text) (hline : '\n' ∉ line) :
    linesFrom (line ++ '\n' :: rest) reversed
      = endLine (line.reverse ++ reversed) :: linesFrom rest [] := by
  induction line generalizing reversed with
  | nil => rfl
  | cons c line ih =>
      obtain ⟨hc, hrest⟩ := not_or.mp (mt List.mem_cons.mpr hline)
      rw [List.cons_append, linesFrom, ih _ hrest, List.reverse_cons, List.append_assoc]
      · rfl
      · exact fun h => hc h.symm

theorem lines_append {line : Text} (rest : Text) (hline : '\n' ∉ line) :
    lines (line ++ '\n' :: rest) = chomp line :: lines rest := by
  rw [lines, linesFrom_append rest [] hline, List.append_nil]
  rfl

/-- Lines that were written out are read back, each less a final carriage return. -/
theorem lines_unlines {ls : List Text} (hlines : ∀ line ∈ ls, '\n' ∉ line) :
    lines (unlines ls) = ls.map chomp := by
  induction ls with
  | nil => rfl
  | cons line rest ih =>
      have hrest := ih fun l hl => hlines l (List.mem_cons_of_mem _ hl)
      rw [unlines, List.flatMap_cons, List.append_assoc, List.singleton_append,
        lines_append _ (hlines line List.mem_cons_self), List.map_cons]
      exact congrArg _ hrest

theorem chomp_concat (line : Text) : chomp (line ++ ['\r']) = line := by
  simp [chomp, endLine]

theorem chomp_eq {line : Text} (hend : line.getLast? ≠ some '\r') : chomp line = line := by
  rcases List.eq_nil_or_concat line with rfl | ⟨front, c, rfl⟩
  · rfl
  · have hc : c ≠ '\r' := by simpa using hend
    rw [List.concat_eq_append, chomp, List.reverse_append, List.reverse_singleton,
      List.singleton_append, endLine]
    · simp
    · exact fun _ h => hc (List.cons.inj h).1

theorem map_chomp {ls : List Text} (hends : ∀ line ∈ ls, line.getLast? ≠ some '\r') :
    ls.map chomp = ls :=
  (List.map_congr_left fun line hline => chomp_eq (hends line hline)).trans (List.map_id' ls)

theorem mem_of_mem_endLine {c : Char} {reversed : Text} (h : c ∈ endLine reversed) :
    c ∈ reversed := by
  unfold endLine at h
  split at h
  · exact List.mem_cons_of_mem _ (List.mem_reverse.mp h)
  · exact List.mem_reverse.mp h

theorem notMem_linesFrom {text reversed line : Text} (hreversed : '\n' ∉ reversed)
    (hline : line ∈ linesFrom text reversed) : '\n' ∉ line := by
  induction text, reversed using linesFrom.induct with
  | case1 => simp [linesFrom] at hline
  | case2 reversed hne =>
      rw [linesFrom] at hline
      · simpa [List.mem_singleton.mp hline] using hreversed
      · exact hne
  | case3 rest reversed ih =>
      rw [linesFrom, List.mem_cons] at hline
      rcases hline with rfl | hline
      · exact fun h => hreversed (mem_of_mem_endLine h)
      · exact ih (by simp) hline
  | case4 c rest reversed hc ih =>
      rw [linesFrom] at hline
      · exact ih (by simpa using ⟨fun h => hc h.symm, hreversed⟩) hline
      · exact hc

/-- A line holds no line feed. -/
theorem notMem_lines {text line : Text} (hline : line ∈ lines text) : '\n' ∉ line :=
  notMem_linesFrom (by simp) hline

end Text

/-! ### UTF-8 -/

namespace Utf8

def isContinuation (x : UInt8) : Bool :=
  0x80 ≤ x && x ≤ 0xBF

/-- The bounds of the second byte after a lead byte of three or four bytes. -/
def secondByte (lead x : UInt8) : Bool :=
  if lead = 0xE0 then 0xA0 ≤ x && x ≤ 0xBF
  else if lead = 0xED then 0x80 ≤ x && x ≤ 0x9F
  else if lead = 0xF0 then 0x90 ≤ x && x ≤ 0xBF
  else if lead = 0xF4 then 0x80 ≤ x && x ≤ 0x8F
  else isContinuation x

def low6 (x : UInt8) : Nat :=
  x.toNat % 64

end Utf8

end Passkey

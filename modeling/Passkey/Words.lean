import Passkey.Text

/-!
Fields of a text and numbers in it, as the standard library splits and parses
them.
-/

namespace Passkey.Text

/-- `str::split_whitespace`. -/
def splitWhitespace (text : Text) : List Text :=
  (text.splitOnP isWhitespace).filter (· ≠ [])

/-- `str::split_once`. -/
def splitOnce (separator : Char) (text : Text) : Option (Text × Text) :=
  match text.dropWhile (· != separator) with
  | [] => none
  | _ :: rest => some (text.takeWhile (· != separator), rest)

/-- The digits of a numeral, which a plus sign may come before. -/
def unsigned : Text → Text
  | '+' :: digits => digits
  | digits => digits

/-- `str::parse` to an unsigned type with this many values. -/
def parseUnsigned (values : Nat) (text : Text) : Option Nat :=
  let digits := unsigned text
  if digits ≠ [] ∧ (digits.all Char.isDigit) = true ∧ Nat.ofDigitChars 10 digits 0 < values then
    some (Nat.ofDigitChars 10 digits 0)
  else none

/-- A number as it is written. -/
def decimal (n : Nat) : Text :=
  Nat.toDigits 10 n

example : parseUnsigned (2 ^ 32) "4294967295".toList = some 4294967295 := by decide +kernel

example : parseUnsigned (2 ^ 32) "-1".toList = none := by decide +kernel

/-! ### Fields -/

/-- A piece of a text that is split has nothing that it is split at. -/
theorem not_of_mem_splitOnP {p : Char → Bool} {text field : Text} (h : field ∈ text.splitOnP p) :
    ∀ c ∈ field, p c = false := by
  induction text generalizing field with
  | nil =>
      rw [List.splitOnP_nil, List.mem_singleton] at h
      simp [h]
  | cons a rest ih =>
      rw [List.splitOnP_cons_eq_if_modifyHead] at h
      split at h
      · rcases List.mem_cons.mp h with rfl | hrest
        · simp
        · exact ih hrest
      · rename_i ha
        obtain ⟨first, more, hsplit⟩ := List.exists_cons_of_ne_nil (List.splitOnP_ne_nil p rest)
        rw [hsplit, List.modifyHead_cons] at h
        rcases List.mem_cons.mp h with rfl | hmore
        · intro c hc
          rcases List.mem_cons.mp hc with rfl | hc
          · exact Bool.eq_false_of_not_eq_true ha
          · exact ih (hsplit ▸ List.mem_cons_self) c hc
        · exact ih (hsplit ▸ List.mem_cons_of_mem _ hmore)

theorem mem_splitWhitespace {text field : Text} (h : field ∈ splitWhitespace text) :
    field ≠ [] ∧ ∀ c ∈ field, isWhitespace c = false := by
  obtain ⟨hfield, hne⟩ := List.mem_filter.mp h
  exact ⟨of_decide_eq_true hne, not_of_mem_splitOnP hfield⟩

/-- A word with white space after it is the first field. -/
theorem splitWhitespace_append {word : Text} (hne : word ≠ [])
    (hword : ∀ c ∈ word, isWhitespace c = false) {space : Char} (hspace : isWhitespace space = true)
    (rest : Text) : splitWhitespace (word ++ space :: rest) = word :: splitWhitespace rest := by
  have hsplit := List.splitOnP_append_cons_of_forall_mem hword space hspace rest
  rw [splitWhitespace, hsplit]
  exact List.filter_cons_of_pos (decide_eq_true hne)

/-- What is in pieces that are put together is in one of them or between them. -/
theorem mem_intercalate {c separator : Char} {fields : List Text}
    (h : c ∈ [separator].intercalate fields) : c = separator ∨ ∃ field ∈ fields, c ∈ field := by
  induction fields with
  | nil => cases h
  | cons first rest ih =>
      cases rest with
      | nil => exact .inr ⟨first, List.mem_singleton_self _, by simpa using h⟩
      | cons second rest =>
          rw [List.intercalate_cons_cons, List.mem_append, List.mem_append,
            List.mem_singleton] at h
          rcases h with (hfirst | hseparator) | hrest
          · exact .inr ⟨first, List.mem_cons_self, hfirst⟩
          · exact .inl hseparator
          · refine (ih hrest).imp_right ?_
            rintro ⟨field, hfield, hc⟩
            exact ⟨field, List.mem_cons_of_mem _ hfield, hc⟩

theorem mem_intercalate_of_mem {c : Char} {field : Text} {fields : List Text} (separator : Char)
    (hfield : field ∈ fields) (hc : c ∈ field) : c ∈ [separator].intercalate fields := by
  induction fields with
  | nil => cases hfield
  | cons first rest ih =>
      cases rest with
      | nil =>
          obtain rfl := List.mem_singleton.mp hfield
          simpa using hc
      | cons second rest =>
          rw [List.intercalate_cons_cons, List.mem_append, List.mem_append]
          rcases List.mem_cons.mp hfield with rfl | hrest
          · exact .inl (.inl hc)
          · exact .inr (ih hrest)

/-- A piece of a text has nothing that the text has not. -/
theorem mem_of_mem_splitOn {c separator : Char} {text field : Text}
    (hfield : field ∈ text.splitOn separator) (hc : c ∈ field) : c ∈ text := by
  have hjoin : [separator].intercalate (text.splitOn separator) = text :=
    List.intercalate_splitOn separator
  exact hjoin ▸ mem_intercalate_of_mem separator hfield hc

theorem splitOnce_append {separator : Char} {field : Text} (h : separator ∉ field) (rest : Text) :
    splitOnce separator (field ++ separator :: rest) = some (field, rest) := by
  have hall : ∀ c ∈ field, (c != separator) = true := by
    intro c hc
    simpa using fun heq : c = separator => h (heq ▸ hc)
  rw [splitOnce, List.dropWhile_append_of_pos hall, List.takeWhile_append_of_pos hall]
  simp

/-- The first field is what comes before the separator. -/
theorem splitOnce_eq {separator : Char} {text : Text} (h : separator ∈ text) :
    ∃ rest, splitOnce separator text = some (text.takeWhile (· != separator), rest) := by
  unfold splitOnce
  split
  · rename_i hnone
    have hall := List.dropWhile_eq_nil_iff.mp hnone separator h
    simp at hall
  · exact ⟨_, rfl⟩

theorem notMem_takeWhile (separator : Char) (text : Text) :
    separator ∉ text.takeWhile (· != separator) := by
  intro hmem
  simpa using List.mem_takeWhile_imp hmem

/-! ### Numbers -/

theorem decimal_ne_nil (n : Nat) : decimal n ≠ [] :=
  Nat.toDigits_ne_nil

theorem isDigit_of_mem_decimal {n : Nat} {c : Char} (h : c ∈ decimal n) : c.isDigit = true :=
  Nat.isDigit_of_mem_toDigits (by decide) (by decide) h

theorem unsigned_digits {digits : Text} (h : ∀ c ∈ digits, c.isDigit = true) :
    unsigned digits = digits := by
  unfold unsigned
  split
  · have hplus := h '+' List.mem_cons_self
    cases hplus
  · rfl

/-- A number that was written is read back. -/
theorem parseUnsigned_decimal {values n : Nat} (h : n < values) :
    parseUnsigned values (decimal n) = some n := by
  have hdigits : unsigned (decimal n) = decimal n :=
    unsigned_digits fun c hc => isDigit_of_mem_decimal hc
  have hvalue : Nat.ofDigitChars 10 (decimal n) 0 = n :=
    Nat.ofDigitChars_toDigits (by decide) (by decide)
  unfold parseUnsigned
  dsimp only
  rw [hdigits, hvalue, if_pos]
  refine ⟨decimal_ne_nil n, ?_, h⟩
  exact List.all_eq_true.mpr fun c hc => isDigit_of_mem_decimal hc

/-- A number that the type has no room for is not read. -/
theorem parseUnsigned_decimal_large {values n : Nat} (h : values ≤ n) :
    parseUnsigned values (decimal n) = none := by
  have hdigits : unsigned (decimal n) = decimal n :=
    unsigned_digits fun c hc => isDigit_of_mem_decimal hc
  have hvalue : Nat.ofDigitChars 10 (decimal n) 0 = n :=
    Nat.ofDigitChars_toDigits (by decide) (by decide)
  unfold parseUnsigned
  dsimp only
  rw [hdigits, hvalue, if_neg]
  rintro ⟨-, -, hlt⟩
  exact absurd hlt (Nat.not_lt.mpr h)

theorem not_isWhitespace_of_isDigit {c : Char} (h : c.isDigit = true) : isWhitespace c = false := by
  have hrange : 48 ≤ c.toNat ∧ c.toNat ≤ 57 := by
    simp only [Char.isDigit, Bool.and_eq_true, decide_eq_true_eq, UInt32.le_iff_toNat_le,
      ge_iff_le] at h
    exact h
  simp only [isWhitespace, Bool.or_eq_false_iff, Bool.and_eq_false_iff, decide_eq_false_iff_not,
    beq_eq_false_iff_ne]
  omega

end Passkey.Text

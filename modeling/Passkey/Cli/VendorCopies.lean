import Passkey.Cli.ModuleLines

/-!
A service whose file is the vendor's. `pam_add` writes a copy that hides it, and
`pam_remove` takes the copy away again if what is left of it is the vendor's
text. What is left is put together from lines, so a terminator that `lines`
drops is not there to compare.
-/

namespace Passkey.Cli

open Text

/-- Any number of calls of `pam_add`, each with the line that is wanted then. -/
def adds (calls : List Text) (s : Service) : Service :=
  calls.foldl (fun s wanted => pamAdd wanted s) s

/-- The lines that `pam_remove` keeps. -/
def kept (text : Text) : List Text :=
  (lines text).filter fun line => !isOurs line

theorem withoutLines_eq (text : Text) :
    withoutLines text = if (lines text).any isOurs then some (joined (kept text)) else none :=
  rfl

/-! ### Carriage returns -/

/-- What lines become when they are written out and read back. -/
def wear (ls : List Text) : List Text :=
  (ls.filter fun line => !isOurs (chomp line)).map chomp

def returns (ls : List Text) : Nat :=
  (ls.map (List.count '\r')).sum

theorem count_chomp_le (line : Text) : (chomp line).count '\r' ≤ line.count '\r' := by
  by_cases hend : line.getLast? = some '\r'
  · obtain ⟨front, rfl⟩ := List.getLast?_eq_some_iff.mp hend
    rw [chomp_concat, List.count_append]
    omega
  · rw [chomp_eq hend]

theorem returns_chomp_le (ls : List Text) : returns (ls.map chomp) ≤ returns ls := by
  induction ls with
  | nil => exact Nat.le_refl 0
  | cons line rest ih =>
      have hline := count_chomp_le line
      simp only [returns, List.map_cons, List.sum_cons] at ih ⊢
      omega

theorem returns_filter_le (p : Text → Bool) (ls : List Text) :
    returns (ls.filter p) ≤ returns ls := by
  induction ls with
  | nil => exact Nat.le_refl 0
  | cons line rest ih =>
      simp only [returns, List.map_cons, List.sum_cons] at ih ⊢
      cases hp : p line with
      | true =>
          simp only [List.filter_cons, hp, if_true, List.map_cons, List.sum_cons]
          omega
      | false =>
          simp only [List.filter_cons, hp, Bool.false_eq_true, if_false]
          omega

theorem returns_wear_le (ls : List Text) : returns (wear ls) ≤ returns ls :=
  (returns_chomp_le _).trans (returns_filter_le _ ls)

/-- Lines that keep all their carriage returns end in none. -/
theorem ends_of_returns {ls : List Text} (h : returns ls ≤ returns (ls.map chomp)) :
    ∀ line ∈ ls, line.getLast? ≠ some '\r' := by
  induction ls with
  | nil => simp
  | cons first rest ih =>
      have hrest := returns_chomp_le rest
      have hfirst := count_chomp_le first
      simp only [returns, List.map_cons, List.sum_cons] at h ih hrest
      intro line hline hend
      rcases List.mem_cons.mp hline with rfl | hmem
      · obtain ⟨front, rfl⟩ := List.getLast?_eq_some_iff.mp hend
        rw [chomp_concat, List.count_append] at h
        simp only [List.count_singleton_self] at h
        omega
      · exact ih (by omega) line hmem hend

theorem wear_eq {ls : List Text} (hends : ∀ line ∈ ls, line.getLast? ≠ some '\r')
    (hours : ∀ line ∈ ls, isOurs line = false) : wear ls = ls := by
  have hall : ls.filter (fun line => !isOurs (chomp line)) = ls := by
    apply List.filter_eq_self.mpr
    intro line hline
    rw [chomp_eq (hends line hline), hours line hline]
    rfl
  rw [wear, hall, map_chomp hends]

theorem isOurs_chomp {line : Text} (hsingle : '\n' ∉ line) (h : isOurs line = true) :
    isOurs (chomp line) = true := by
  rw [isOurs_eq, Bool.or_eq_true, beq_iff_eq] at h
  rcases h with hloads | rfl
  · rw [isOurs_eq, loads_chomp hsingle, hloads]
    rfl
  · rw [chomp_mark, isOurs_mark]

/-! ### One call -/

section Written

variable {wanted text first : Text} {before rest : List Text}

/-- The other lines are written out once more, and the marks and lines that
load our module are ours as before. -/
theorem kept_written (hlines : lines text = before ++ first :: rest) (hwanted : Wanted wanted) :
    kept (joined (placed wanted before first rest)) = wear (kept text) := by
  have hsingle := placed_single hlines hwanted
  have hours : (placed wanted before first rest).filter (fun line => !isOurs (chomp line))
      = ((placed wanted before first rest).filter fun line => !isOurs line).filter
          fun line => !isOurs (chomp line) := by
    rw [List.filter_filter]
    apply List.filter_congr
    intro line hline
    cases hchomp : isOurs (chomp line) with
    | true => rfl
    | false =>
        have hline : isOurs line = false := by
          by_contra htrue
          have h := isOurs_chomp (hsingle line hline) (Bool.not_eq_false _ ▸ htrue)
          rw [hchomp] at h
          cases h
        rw [hline]
        rfl
  have hcomp : ((fun line => !isOurs line) ∘ chomp) = fun line => !isOurs (chomp line) := rfl
  rw [kept, lines_joined hsingle, List.filter_map, hcomp, hours, others_placed hwanted, ← hlines]
  rfl

theorem loads_written (hlines : lines text = before ++ first :: rest) (hwanted : Wanted wanted) :
    ∃ line ∈ lines (joined (placed wanted before first rest)), loads line = true := by
  have hmem : wanted ∈ placed wanted before first rest := by
    unfold placed
    split <;> simp
  refine ⟨chomp wanted, ?_, hwanted.chomp.loads⟩
  rw [lines_joined (placed_single hlines hwanted)]
  exact List.mem_map_of_mem hmem

end Written

/-! ### The copy after any number of calls -/

/-- A copy of the vendor's file with a line that loads our module. Its other
lines have no more carriage returns than the vendor's, and are the vendor's
where no line ends in one. -/
structure Copied (original : Text) (s : Service) : Prop where
  copied : s.copied = true
  vendor : s.vendor = some original
  etc : ∃ text, s.etc = some text ∧ (∃ line ∈ lines text, loads line = true) ∧
    returns (kept text) ≤ returns (lines original) ∧
    ((∀ line ∈ lines original, line.getLast? ≠ some '\r') → kept text = lines original)

section Copies

variable {wanted original : Text} {s : Service} {calls : List Text}

theorem decides_of_eligible {line : Text} (h : eligible line = true) : decides line = true := by
  simp [decides, h]

theorem decides_of_loads {line : Text} (h : loads line = true) : decides line = true := by
  simp [decides, h]

theorem kept_original (hours : ∀ line ∈ lines original, isOurs line = false) :
    kept original = lines original := by
  apply List.filter_eq_self.mpr
  intro line hline
  rw [hours line hline]
  rfl

/-- The first call writes the copy and its marker. -/
theorem copied_first (hetc : s.etc = none) (hvendor : s.vendor = some original)
    (hours : ∀ line ∈ lines original, isOurs line = false)
    (heligible : ∃ line ∈ lines original, eligible line = true) (hwanted : Wanted wanted) :
    Copied original (pamAdd wanted s) := by
  obtain ⟨line, hmem, hline⟩ := heligible
  obtain ⟨before, first, rest, hlines, hbefore, hfirst⟩ :=
    exists_decided ⟨line, hmem, decides_of_eligible hline⟩
  have hmissing : wanted ∉ lines original := by
    intro hpresent
    have hfalse := hours wanted hpresent
    rw [hwanted.ours] at hfalse
    cases hfalse
  have hadd : pamAdd wanted s = {s with
      etc := some (joined (placed wanted before first rest)), copied := true} := by
    simp [pamAdd, Service.source, hetc, hvendor, withLine_eq, hmissing,
      rewrite_eq hlines hbefore hfirst]
  have hkept : kept (joined (placed wanted before first rest)) = wear (lines original) := by
    rw [kept_written hlines hwanted, kept_original hours]
  rw [hadd]
  refine ⟨rfl, hvendor, _, rfl, loads_written hlines hwanted, ?_, ?_⟩
  · rw [hkept]
    exact returns_wear_le _
  · intro hends
    rw [hkept, wear_eq hends hours]

/-- A later call leaves the copy alone or writes it again. -/
theorem Copied.add (h : Copied original s) (hours : ∀ line ∈ lines original, isOurs line = false)
    (hwanted : Wanted wanted) : Copied original (pamAdd wanted s) := by
  obtain ⟨text, htext, ⟨line, hmem, hline⟩, hreturns, hsame⟩ := h.etc
  obtain ⟨before, first, rest, hlines, hbefore, hfirst⟩ :=
    exists_decided ⟨line, hmem, decides_of_loads hline⟩
  by_cases hpresent : wanted ∈ lines text
  · have hadd : pamAdd wanted s = s := by
      simp [pamAdd_eq htext, withLine_eq, hpresent]
    rw [hadd]
    exact h
  · have hadd : pamAdd wanted s = {s with
        etc := some (joined (placed wanted before first rest))} := by
      simp [pamAdd_eq htext, withLine_eq, hpresent, rewrite_eq hlines hbefore hfirst]
    rw [hadd]
    refine ⟨h.copied, h.vendor, _, rfl, loads_written hlines hwanted, ?_, ?_⟩
    · rw [kept_written hlines hwanted]
      exact (returns_wear_le _).trans hreturns
    · intro hends
      rw [kept_written hlines hwanted, hsame hends, wear_eq hends hours]

theorem Copied.adds (h : Copied original s) (hours : ∀ line ∈ lines original, isOurs line = false)
    (hcalls : ∀ wanted ∈ calls, Wanted wanted) : Copied original (adds calls s) := by
  induction calls generalizing s with
  | nil => exact h
  | cons wanted rest ih =>
      have hfirst := h.add hours (hcalls wanted List.mem_cons_self)
      exact ih hfirst fun line hline => hcalls line (List.mem_cons_of_mem _ hline)

/-! ### The removal -/

theorem ends_of_unlines (htext : unlines (lines original) = original) :
    ∀ line ∈ lines original, line.getLast? ≠ some '\r' := by
  have hchomp : (lines original).map chomp = lines original := by
    rw [← lines_unlines fun line hline => notMem_lines hline, htext]
  apply ends_of_returns
  rw [hchomp]

/-- What is left of the copy is the vendor's text only where that is lines that
end in a line feed alone. -/
theorem joined_kept_iff {text : Text} (hne : lines original ≠ [])
    (hempty : original ≠ ['\n']) (hreturns : returns (kept text) ≤ returns (lines original))
    (hsame : (∀ line ∈ lines original, line.getLast? ≠ some '\r') → kept text = lines original) :
    joined (kept text) = original ↔ unlines (lines original) = original := by
  constructor
  · intro hjoined
    have hkept : kept text ≠ [] := by
      intro hnil
      rw [hnil] at hjoined
      exact hempty hjoined.symm
    rw [joined_eq hkept] at hjoined
    have hsingle : ∀ line ∈ kept text, '\n' ∉ line := by
      intro line hline
      exact notMem_lines (List.mem_of_mem_filter hline)
    have hread : lines original = (kept text).map chomp := by
      rw [← hjoined, lines_unlines hsingle]
    rw [hread] at hreturns
    rw [hread, map_chomp (ends_of_returns hreturns), hjoined]
  · intro htext
    rw [hsame (ends_of_unlines htext), joined_eq hne, htext]

theorem pamRemove_copied (h : Copied original s) (hne : lines original ≠ [])
    (hempty : original ≠ ['\n']) :
    (pamRemove s).vendor = some original ∧ (pamRemove s).copied = false ∧
      ((pamRemove s).etc = none ↔ unlines (lines original) = original) := by
  obtain ⟨text, htext, ⟨line, hmem, hline⟩, hreturns, hsame⟩ := h.etc
  have hany : (lines text).any isOurs = true := by
    apply List.any_eq_true.mpr
    exact ⟨line, hmem, by simp [isOurs_eq, hline]⟩
  have hiff := joined_kept_iff hne hempty hreturns hsame
  rw [pamRemove_eq htext, withoutLines_eq, if_pos hany, Option.elim_some]
  by_cases hjoined : joined (kept text) = original
  · simp [h.copied, h.vendor, hjoined, hiff.mp hjoined]
  · have hother : ¬ original = joined (kept text) := fun heq => hjoined heq.symm
    simp [h.copied, h.vendor, hother, mt hiff.mpr hjoined]

end Copies

/-- After any number of calls of `pam_add` and then `pam_remove`, neither the
copy of the vendor's file nor its marker is left: exactly where no call was made
and there was no marker, or where each line of the vendor's text, the last one
too, ends in a line feed alone. -/
theorem copy_removed_iff {original : Text} {s : Service} {calls : List Text} (hetc : s.etc = none)
    (hvendor : s.vendor = some original) (hours : ∀ line ∈ lines original, isOurs line = false)
    (heligible : ∃ line ∈ lines original, eligible line = true)
    (hcalls : ∀ wanted ∈ calls, Wanted wanted) :
    pamRemove (adds calls s) = {etc := none, vendor := some original, copied := false} ↔
      (calls = [] ∧ s.copied = false) ∨ (calls ≠ [] ∧ unlines (lines original) = original) := by
  cases calls with
  | nil =>
      obtain ⟨etc, text, copied⟩ := s
      dsimp only at hetc hvendor
      subst hetc hvendor
      simp [adds, pamRemove]
  | cons wanted rest =>
      have hne : lines original ≠ [] := by
        obtain ⟨line, hline, -⟩ := heligible
        exact List.ne_nil_of_mem hline
      have hempty : original ≠ ['\n'] := by
        rintro rfl
        revert heligible
        decide
      have hfirst := copied_first hetc hvendor hours heligible (hcalls wanted List.mem_cons_self)
      have hcopied : Copied original (adds (wanted :: rest) s) :=
        hfirst.adds hours fun line hline => hcalls line (List.mem_cons_of_mem _ hline)
      obtain ⟨hkeeps, hmarker, hcopy⟩ := pamRemove_copied hcopied hne hempty
      rw [← hcopy]
      cases hremoved : pamRemove (adds (wanted :: rest) s) with
      | mk etc text copied =>
          rw [hremoved] at hkeeps hmarker
          dsimp only at hkeeps hmarker
          simp [hkeeps, hmarker]

/-- A vendor's file of whole lines, with two calls. -/
theorem loginFile_removed :
    pamRemove (adds [u2fLine, passkeyLine] {vendor := some loginFile})
      = {etc := none, vendor := some loginFile, copied := false} :=
  (copy_removed_iff rfl rfl (by decide +kernel)
    ⟨"auth include common".toList, by decide +kernel, by decide +kernel⟩
    (by simp [wanted_u2fLine, wanted_passkeyLine])).mpr (.inr ⟨by simp, by decide +kernel⟩)

/-- Without a line feed at its end, the vendor's file stays hidden by a copy. -/
theorem unended_hidden :
    (∀ line ∈ lines "auth include common".toList, isOurs line = false) ∧
    (∃ line ∈ lines "auth include common".toList, eligible line = true) ∧ Wanted u2fLine ∧
    (pamRemove (adds [u2fLine] {vendor := some "auth include common".toList})).etc
      = some "auth include common\n".toList :=
  ⟨by decide +kernel, ⟨"auth include common".toList, by decide +kernel, by decide +kernel⟩,
    wanted_u2fLine, by decide +kernel⟩

end Passkey.Cli

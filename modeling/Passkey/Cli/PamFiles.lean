import Passkey.Library.Runs
import Passkey.Text

/-!
The PAM service files that `pam_add` and `pam_remove` rewrite. The line that is
wanted (`pam_line`) may be another one at each call. Reading and writing the
files succeeds, and a call runs to its end before the next.
-/

namespace Passkey.Cli

open Library Text

def KEYS : Text :=
  "/etc/passkey/u2f_keys".toList

def MARK : Text :=
  "# passkey: fingerprint from your Android device (undo with: passkey uninstall)".toList

/-! ### Kinds of lines -/

def isAuth (line : Text) : Bool :=
  let entry := ((trimStart line).dropPrefix? ['-']).getD (trimStart line)
  entry == "auth".toList || "auth ".toList.isPrefixOf entry || "auth\t".toList.isPrefixOf entry

def guards : List Text :=
  ["pam_nologin.so".toList, "pam_securetty.so".toList, "pam_shells.so".toList,
    "pam_rootok.so".toList]

def isGuard (line : Text) : Bool :=
  (guards.any fun name => contains line name)
    || contains line "pam_faillock.so".toList && contains line "preauth".toList

def isOurs (line : Text) : Bool :=
  line == MARK
    || ((contains line "pam_passkey.so".toList || contains line "pam_u2f.so".toList)
      && contains line ("authfile=".toList ++ KEYS))

/-- Our line goes before the first of these. -/
def eligible (line : Text) : Bool :=
  isAuth line && !isGuard line

/-! ### The two calls -/

structure Service where
  /-- The text of /etc/pam.d. -/
  etc : Option Text := none
  /-- The text of /usr/lib/pam.d. -/
  vendor : Option Text := none
  /-- Whether /etc/passkey/copied has a file for the service. -/
  copied : Bool := false

/-- The file that the service is read from. -/
def Service.source (s : Service) : Option Text :=
  s.etc <|> s.vendor

/-- `slice::join` with a line feed, and one at the end. -/
def joined (ls : List Text) : Text :=
  ['\n'].intercalate ls ++ ['\n']

/-- One line in the loop of `pam_add`: the output so far, and whether our line
is in it. -/
def addLine (wanted : Text) (s : List Text × Bool) (line : Text) : List Text × Bool :=
  if line = MARK then (s.1 ++ [line], s.2)
  else if isOurs line then (if s.2 then s else (s.1 ++ [wanted], true))
  else if !s.2 && eligible line then
    -- A mark with no line of ours after it is kept once.
    ((if s.1.getLast? = some MARK then s.1.dropLast else s.1) ++ [MARK, wanted, line], true)
  else (s.1 ++ [line], s.2)

/-- The text that `pam_add` writes, if it writes one. -/
def withLine (wanted input : Text) : Option Text :=
  if wanted ∈ lines input then none
  else
    let s := (lines input).foldl (addLine wanted) ([], false)
    if s.2 then some (joined s.1) else none

def pamAdd (wanted : Text) (s : Service) : Service :=
  match s.source.bind (withLine wanted) with
  | none => s
  | some text => { s with etc := some text, copied := s.copied || s.etc.isNone }

/-- The text that `pam_remove` restores, if there is a line of ours. -/
def withoutLines (input : Text) : Option Text :=
  if (lines input).any isOurs then some (joined ((lines input).filter fun line => !isOurs line))
  else none

def pamRemove (s : Service) : Service :=
  match s.etc.bind withoutLines with
  | none => s
  | some text =>
      if s.copied && s.vendor == some text then { s with etc := none, copied := false }
      else { s with etc := some text, copied := false }

/-! ### Our line, alone and among others -/

/-- A single line, of ours, that is not the mark. -/
structure Wanted (line : Text) : Prop where
  single : '\n' ∉ line
  ours : isOurs line
  notMark : line ≠ MARK

theorem contains_chomp {line needle : Text} (hneedle : '\r' ∉ needle) (hne : needle ≠ [])
    (h : contains line needle) : contains (chomp line) needle := by
  by_cases hend : line.getLast? = some '\r'
  · obtain ⟨front, rfl⟩ := List.getLast?_eq_some_iff.mp hend
    rw [chomp_concat]
    rcases List.infix_concat_iff.mp (of_decide_eq_true h) with hsuffix | hinfix
    · obtain ⟨before, hbefore⟩ := hsuffix
      have hlast : needle.getLast? = some '\r' := by
        rw [← List.getLast?_append_of_ne_nil before hne, hbefore, List.getLast?_concat]
      exact absurd (List.mem_of_getLast? hlast) hneedle
    · exact decide_eq_true hinfix
  · rwa [chomp_eq hend]

/-- Read back, our line is still one of ours. -/
theorem Wanted.chomp {line : Text} (h : Wanted line) : Wanted (chomp line) := by
  have hparts : (contains line "pam_passkey.so".toList ∨ contains line "pam_u2f.so".toList)
      ∧ contains line ("authfile=".toList ++ KEYS) := by
    simpa [isOurs, h.notMark] using h.ours
  have hfile : contains (Text.chomp line) ("authfile=".toList ++ KEYS) :=
    contains_chomp (by decide) (by decide) hparts.2
  have hmodule : contains (Text.chomp line) "pam_passkey.so".toList
      ∨ contains (Text.chomp line) "pam_u2f.so".toList :=
    hparts.1.imp (contains_chomp (by decide) (by decide)) (contains_chomp (by decide) (by decide))
  refine ⟨fun hmem => h.single (List.mem_reverse.mp (mem_of_mem_endLine hmem)), ?_, fun hmark => ?_⟩
  · rw [isOurs, hfile, Bool.and_true, Bool.or_eq_true, Bool.or_eq_true]
    exact .inr hmodule
  · rw [hmark] at hfile
    exact absurd hfile (by decide +kernel)

theorem isOurs_mark : isOurs MARK := by
  simp [isOurs]

theorem ne_mark_of_not_ours {line : Text} (h : isOurs line = false) : line ≠ MARK := by
  rintro rfl
  rw [isOurs_mark] at h
  cases h

/-! ### The loop of `pam_add` -/

/-- Without a line of ours, lines are copied up to the first eligible one. -/
theorem addLine_before {wanted : Text} {ls : List Text} (output : List Text)
    (hours : ∀ line ∈ ls, isOurs line = false) (hnone : ∀ line ∈ ls, eligible line = false) :
    ls.foldl (addLine wanted) (output, false) = (output ++ ls, false) := by
  induction ls generalizing output with
  | nil => simp
  | cons line rest ih =>
      have hline := hours line List.mem_cons_self
      rw [List.foldl_cons, addLine, if_neg (ne_mark_of_not_ours hline), hline,
        hnone line List.mem_cons_self]
      simpa using ih (output ++ [line]) (fun l hl => hours l (List.mem_cons_of_mem _ hl))
        fun l hl => hnone l (List.mem_cons_of_mem _ hl)

/-- Once our line is in the output, the lines that are not ours are copied. -/
theorem addLine_after {wanted : Text} {ls : List Text} (output : List Text)
    (hours : ∀ line ∈ ls, isOurs line = false) :
    ls.foldl (addLine wanted) (output, true) = (output ++ ls, true) := by
  induction ls generalizing output with
  | nil => simp
  | cons line rest ih =>
      have hline := hours line List.mem_cons_self
      rw [List.foldl_cons, addLine, if_neg (ne_mark_of_not_ours hline), hline]
      simpa using ih (output ++ [line]) fun l hl => hours l (List.mem_cons_of_mem _ hl)

/-- The first eligible line gets the mark and our line before it. -/
theorem addLine_eligible {wanted line : Text} {output : List Text}
    (hline : isOurs line = false) (heligible : eligible line)
    (hlast : output.getLast? ≠ some MARK) :
    addLine wanted (output, false) line = (output ++ [MARK, wanted, line], true) := by
  rw [addLine, if_neg (ne_mark_of_not_ours hline), hline, heligible]
  simp [hlast]

/-- The mark stays, and the line of ours after it is replaced. -/
theorem addLine_ours {wanted ours : Text} (output : List Text) (hours : isOurs ours)
    (hmark : ours ≠ MARK) :
    [MARK, ours].foldl (addLine wanted) (output, false) = (output ++ [MARK, wanted], true) := by
  simp [addLine, hours, hmark]

/-! ### One call on the original file, and on one with our line -/

/-- The mark and our line at their place in the original lines. -/
def place (before : List Text) (wanted : Text) (after : List Text) : List Text :=
  before ++ [MARK, wanted] ++ after

theorem joined_eq {ls : List Text} (hne : ls ≠ []) : joined ls = unlines ls := by
  induction ls with
  | nil => exact absurd rfl hne
  | cons line rest ih =>
      cases rest with
      | nil => simp [joined, unlines]
      | cons next rest =>
          calc joined (line :: next :: rest)
              = line ++ ['\n'] ++ joined (next :: rest) := by
                simp [joined, List.intercalate_cons_cons]
            _ = unlines (line :: next :: rest) := by
                rw [ih (List.cons_ne_nil next rest)]
                rfl

section Place

variable {before after : List Text} {wanted ours : Text}

theorem filter_place (hwanted : isOurs wanted)
    (hours : ∀ line ∈ before ++ after, isOurs line = false) :
    (place before wanted after).filter (fun line => !isOurs line) = before ++ after := by
  have hkept {part : List Text} (hpart : part ⊆ before ++ after) :
      part.filter (fun line => !isOurs line) = part :=
    List.filter_eq_self.mpr fun line hline => by rw [hours line (hpart hline)]; rfl
  rw [place, List.filter_append, List.filter_append, hkept (List.subset_append_left _ _),
    hkept (List.subset_append_right _ _)]
  simp [isOurs_mark, hwanted]

/-- What the lines of the original file are known to be. -/
structure Original (ls : List Text) : Prop where
  ours : ∀ line ∈ ls, isOurs line = false
  single : ∀ line ∈ ls, '\n' ∉ line
  ends : ∀ line ∈ ls, line.getLast? ≠ some '\r'

theorem lines_place (h : Original (before ++ after)) (hwanted : '\n' ∉ wanted) :
    lines (joined (place before wanted after)) = place before (chomp wanted) after := by
  have hsingle : ∀ line ∈ place before wanted after, '\n' ∉ line := by
    intro line hline
    simp only [place, List.mem_append, List.mem_cons, List.not_mem_nil, or_false] at hline
    rcases hline with (hbefore | rfl | rfl) | hafter
    · exact h.single line (List.mem_append_left _ hbefore)
    · decide
    · exact hwanted
    · exact h.single line (List.mem_append_right _ hafter)
  have hbefore : before.map chomp = before :=
    map_chomp fun line hline => h.ends line (List.mem_append_left _ hline)
  have hafter : after.map chomp = after :=
    map_chomp fun line hline => h.ends line (List.mem_append_right _ hline)
  rw [joined_eq (by simp [place]), lines_unlines hsingle, place, List.map_append,
    List.map_append, hbefore, hafter]
  rfl

/-- A file without a line of ours gets the mark and the line that is wanted. -/
theorem withLine_original {input line : Text} {rest : List Text}
    (hlines : lines input = before ++ line :: rest)
    (hours : ∀ line ∈ lines input, isOurs line = false)
    (hnone : ∀ line ∈ before, eligible line = false) (heligible : eligible line)
    (hwanted : Wanted wanted) :
    withLine wanted input = some (joined (place before wanted (line :: rest))) := by
  have habsent : wanted ∉ lines input := fun hmem => by
    have hfalse := hours wanted hmem
    rw [hwanted.ours] at hfalse
    cases hfalse
  have hloop : (lines input).foldl (addLine wanted) ([], false)
      = (place before wanted (line :: rest), true) := by
    rw [hlines] at hours ⊢
    have hbefore : ∀ l ∈ before, isOurs l = false :=
      fun l hl => hours l (List.mem_append_left _ hl)
    have hlast : before.getLast? ≠ some MARK := fun hmark =>
      ne_mark_of_not_ours (hbefore MARK (List.mem_of_getLast? hmark)) rfl
    rw [List.foldl_append, addLine_before [] hbefore hnone, List.nil_append, List.foldl_cons,
      addLine_eligible (hours line (by simp)) heligible hlast,
      addLine_after _ fun l hl => hours l (by simp [hl])]
    simp [place]
  simp [withLine, habsent, hloop]

/-- Without an eligible line nothing is written. -/
theorem withLine_none {input : Text} (hours : ∀ line ∈ lines input, isOurs line = false)
    (hnone : ∀ line ∈ lines input, eligible line = false) : withLine wanted input = none := by
  rw [withLine, addLine_before [] hours hnone]
  simp

/-- A file with a line of ours gets the line that is wanted in its place, and is
left alone where it has that line. -/
theorem withLine_place (h : Original (before ++ after))
    (hnone : ∀ line ∈ before, eligible line = false) (hours : Wanted ours)
    (hwanted : Wanted wanted) :
    withLine wanted (joined (place before ours after))
      = if wanted = chomp ours then none else some (joined (place before wanted after)) := by
  have hourLine := hours.chomp
  have hmem : wanted ∈ place before (chomp ours) after ↔ wanted = chomp ours := by
    refine ⟨fun hmem => ?_, fun heq => by simp [place, heq]⟩
    have hrest : wanted ∉ before ++ after := fun hrest => by
      have hfalse := h.ours wanted hrest
      rw [hwanted.ours] at hfalse
      cases hfalse
    simpa [place, hwanted.notMark, not_or.mp (mt List.mem_append.mpr hrest)] using hmem
  have hloop : (place before (chomp ours) after).foldl (addLine wanted) ([], false)
      = (place before wanted after, true) := by
    have hbefore : ∀ line ∈ before, isOurs line = false :=
      fun line hline => h.ours line (List.mem_append_left _ hline)
    have hafter : ∀ line ∈ after, isOurs line = false :=
      fun line hline => h.ours line (List.mem_append_right _ hline)
    rw [place, List.foldl_append, List.foldl_append, addLine_before [] hbefore hnone,
      addLine_ours _ hourLine.ours hourLine.notMark, addLine_after _ hafter]
    simp [place]
  rw [withLine, lines_place h hours.single, hloop]
  simp only [hmem, if_true]

theorem withoutLines_place (h : Original (before ++ after)) (hne : before ++ after ≠ [])
    (hours : Wanted ours) :
    withoutLines (joined (place before ours after)) = some (unlines (before ++ after)) := by
  have hany : (place before (chomp ours) after).any isOurs :=
    List.any_eq_true.mpr ⟨MARK, by simp [place], isOurs_mark⟩
  rw [withoutLines, lines_place h hours.single, if_pos hany,
    filter_place hours.chomp.ours h.ours, joined_eq hne]

end Place

/-! ### Any number of calls -/

/-- One call of `pam_add` with the line that is wanted then. -/
def addCall : Next Service Text := fun s wanted => some (pamAdd wanted s)

/-- What calls of `pam_add` make of a service whose original text they find. -/
inductive Held (s : Service) (before after : List Text) : Service → Prop where
  | untouched : Held s before after s
  | placed (ours : Text) (hours : Wanted ours) :
      Held s before after { s with etc := some (joined (place before ours after)) }

theorem pamAdd_eq {wanted text : Text} {t : Service} (hetc : t.etc = some text) :
    pamAdd wanted t = (withLine wanted text).elim t fun text => { t with etc := some text } := by
  cases hwith : withLine wanted text <;> simp [pamAdd, Service.source, hetc, hwith]

theorem pamRemove_eq {text : Text} {t : Service} (hetc : t.etc = some text) :
    pamRemove t = (withoutLines text).elim t fun text =>
      if t.copied && t.vendor == some text then { t with etc := none, copied := false }
      else { t with etc := some text, copied := false } := by
  cases hwithout : withoutLines text <;> simp [pamRemove, hetc, hwithout]

section Runs

variable {original line : Text} {before rest : List Text} {s t : Service}

/-- A call leaves the service alone or writes our line at its place. -/
theorem Held.add {wanted : Text} (hetc : s.etc = some original)
    (hlines : lines original = before ++ line :: rest)
    (horiginal : Original (before ++ line :: rest))
    (hnone : ∀ line ∈ before, eligible line = false) (heligible : eligible line)
    (hwanted : Wanted wanted) (h : Held s before (line :: rest) t) :
    pamAdd wanted t = t ∨
      pamAdd wanted t = { s with etc := some (joined (place before wanted (line :: rest))) } := by
  cases h with
  | untouched =>
      have hours : ∀ line ∈ lines original, isOurs line = false := hlines ▸ horiginal.ours
      rw [pamAdd_eq hetc, withLine_original hlines hours hnone heligible hwanted]
      exact .inr rfl
  | placed ours hours =>
      rw [pamAdd_eq rfl, withLine_place horiginal hnone hours hwanted]
      split
      · exact .inl rfl
      · exact .inr rfl

theorem Held.run (hetc : s.etc = some original)
    (hlines : lines original = before ++ line :: rest)
    (horiginal : Original (before ++ line :: rest))
    (hnone : ∀ line ∈ before, eligible line = false) (heligible : eligible line)
    (hrun : Reach addCall (fun _ wanted => Wanted wanted) s t) :
    Held s before (line :: rest) t := by
  refine hrun.invariant .untouched fun t wanted u ht hwanted hcall => ?_
  cases hcall
  rcases ht.add hetc hlines horiginal hnone heligible hwanted with hsame | hplaced
  · rwa [hsame]
  · rw [hplaced]
    exact .placed wanted hwanted

/-- Without an eligible line no call writes. -/
theorem untouched_run (hetc : s.etc = some original)
    (hours : ∀ line ∈ lines original, isOurs line = false)
    (hnone : ∀ line ∈ lines original, eligible line = false)
    (hrun : Reach addCall (fun _ wanted => Wanted wanted) s t) : t = s := by
  refine hrun.invariant (I := (· = s)) rfl fun t wanted u ht _ hcall => ?_
  cases hcall
  rw [ht, pamAdd_eq hetc, withLine_none hours hnone]
  rfl

/-- Removal when nothing of ours is in the file. -/
theorem pamRemove_original (hetc : s.etc = some original)
    (hours : ∀ line ∈ lines original, isOurs line = false) : pamRemove s = s := by
  have hany : (lines original).any isOurs = false := by simpa using hours
  rw [pamRemove_eq hetc, withoutLines, hany]
  rfl

/-- The text that lines were read from, if it is those lines and line feeds. -/
theorem unlines_lines {ls : List Text} (htext : original = unlines ls)
    (hls : ∀ line ∈ ls, '\n' ∉ line ∧ line.getLast? ≠ some '\r') :
    unlines (lines original) = original := by
  rw [htext, lines_unlines fun line hline => (hls line hline).1,
    map_chomp fun line hline => (hls line hline).2]

/-- What a service is again after `pam_remove`: its original lines, and its
original text where that is lines that end with a line feed alone. The file is
still there unless it was a copy. -/
def Restored (s : Service) (original : Text) (t : Service) : Prop :=
  ∃ text, t.source = some text ∧ (s.copied = false → t.etc = some text) ∧
    lines text = lines original ∧
    ∀ ls, original = unlines ls → (∀ line ∈ ls, '\n' ∉ line ∧ line.getLast? ≠ some '\r') →
      text = original

theorem Restored.refl (hetc : s.etc = some original) : Restored s original s :=
  ⟨original, by simp [Service.source, hetc], fun _ => hetc, rfl, fun _ _ _ => rfl⟩

/-- Removal when our line may be at its place. -/
theorem Held.restored (hetc : s.etc = some original)
    (hlines : lines original = before ++ line :: rest)
    (horiginal : Original (before ++ line :: rest)) (ht : Held s before (line :: rest) t) :
    Restored s original (pamRemove t) := by
  cases ht with
  | untouched =>
      rw [pamRemove_original hetc (hlines ▸ horiginal.ours)]
      exact .refl hetc
  | placed ours hours =>
      have htext : lines (unlines (before ++ line :: rest)) = lines original := by
        rw [lines_unlines horiginal.single, map_chomp horiginal.ends, hlines]
      rw [pamRemove_eq rfl, withoutLines_place horiginal (by simp) hours, Option.elim_some]
      refine ⟨unlines (before ++ line :: rest), ?_, fun hcopied => ?_, htext, fun ls hls hends => ?_⟩
      · split
        · rename_i hvendor
          have hvendor : s.vendor = some (unlines (before ++ line :: rest)) := by
            simpa using (Bool.and_eq_true_iff.mp hvendor).2
          simp [Service.source, hvendor]
        · simp [Service.source]
      · simp [hcopied]
      · rw [← hlines, unlines_lines hls hends]

end Runs

/-- Calls of `pam_add`, with one wanted line after the other, and `pam_remove`
leave the lines there were. Each call of `pam_add` that changes the file leaves
the mark and its line directly before the first auth line that is not a guard. -/
theorem pamFiles_restored {original : Text} {s t : Service} (hetc : s.etc = some original)
    (hours : ∀ line ∈ lines original, isOurs line = false)
    (hends : (∀ line ∈ lines original, line.getLast? ≠ some '\r') ∨
      ∀ line ∈ lines original, eligible line = false)
    (hrun : Reach addCall (fun _ wanted => Wanted wanted) s t) :
    Restored s original (pamRemove t) ∧
    ∀ wanted, Wanted wanted →
      ((∀ line ∈ lines original, eligible line = false) →
        (pamAdd wanted t).etc = some original) ∧
      ((pamAdd wanted t).etc ≠ t.etc →
        ∃ before line rest, lines original = before ++ line :: rest ∧
          (∀ l ∈ before, eligible l = false) ∧ eligible line ∧
          (pamAdd wanted t).etc
            = some (unlines (before ++ [MARK, wanted] ++ line :: rest))) := by
  by_cases hnone : ∀ line ∈ lines original, eligible line = false
  · have hcall (wanted : Text) : pamAdd wanted t = s := by
      rw [untouched_run hetc hours hnone hrun, pamAdd_eq hetc, withLine_none hours hnone]
      rfl
    have ht := untouched_run hetc hours hnone hrun
    refine ⟨?_, fun wanted _ => ⟨fun _ => ?_, fun hchanged => ?_⟩⟩
    · rw [ht, pamRemove_original hetc hours]
      exact .refl hetc
    · rw [hcall, hetc]
    · rw [hcall, ht] at hchanged
      exact absurd rfl hchanged
  · have hends := hends.resolve_right hnone
    obtain ⟨first, hfirst⟩ : ∃ line, (lines original).find? eligible = some line := by
      simpa [← Option.isSome_iff_exists, List.find?_isSome] using hnone
    obtain ⟨heligible, before, rest, hlines, hbefore⟩ := List.find?_eq_some_iff_append.mp hfirst
    have hbefore : ∀ line ∈ before, eligible line = false := by simpa using hbefore
    have horiginal : Original (before ++ first :: rest) :=
      hlines ▸ ⟨hours, fun _ => notMem_lines, hends⟩
    have ht := Held.run hetc hlines horiginal hbefore heligible hrun
    refine ⟨ht.restored hetc hlines horiginal, fun wanted hwanted =>
      ⟨fun hall => absurd hall hnone, fun hchanged => ?_⟩⟩
    refine ⟨before, first, rest, hlines, hbefore, heligible, ?_⟩
    rcases ht.add hetc hlines horiginal hbefore heligible hwanted with hsame | hplaced
    · exact absurd (congrArg Service.etc hsame) hchanged
    · rw [hplaced, joined_eq (by simp [place])]
      rfl

def u2fLine : Text :=
  "-auth sufficient pam_u2f.so authfile=/etc/passkey/u2f_keys".toList

def passkeyLine : Text :=
  "-auth sufficient pam_passkey.so authfile=/etc/passkey/u2f_keys".toList

theorem wanted_u2fLine : Wanted u2fLine :=
  ⟨by decide, by decide +kernel, by decide +kernel⟩

theorem wanted_passkeyLine : Wanted passkeyLine :=
  ⟨by decide, by decide +kernel, by decide +kernel⟩

def loginFile : Text :=
  "auth required pam_nologin.so\nauth include common\n".toList

/-- Two calls with different lines, on a file with a guard before the auth line. -/
theorem loginFile_restored :
    (pamAdd passkeyLine (pamAdd u2fLine { etc := some loginFile })).etc
      = some ("auth required pam_nologin.so\n".toList ++ unlines [MARK, passkeyLine]
        ++ "auth include common\n".toList) ∧
    Restored { etc := some loginFile } loginFile
      (pamRemove (pamAdd passkeyLine (pamAdd u2fLine { etc := some loginFile }))) := by
  have hrun : Reach addCall (fun _ wanted => Wanted wanted) { etc := some loginFile }
      (pamAdd passkeyLine (pamAdd u2fLine { etc := some loginFile })) :=
    .tail (.tail .refl wanted_u2fLine rfl) wanted_passkeyLine rfl
  exact ⟨by decide +kernel,
    (pamFiles_restored rfl (by decide +kernel) (.inl (by decide +kernel)) hrun).1⟩

/-- A line that ends in a carriage return even without its terminator is not
restored: the rewritten file gives it a terminator of its own. -/
theorem carriageReturn_lost :
    (∀ line ∈ lines "auth x\r\r\n".toList, isOurs line = false) ∧ Wanted u2fLine ∧
    (pamRemove (pamAdd u2fLine { etc := some "auth x\r\r\n".toList })).etc.map lines
      = some ["auth x".toList] ∧
    lines "auth x\r\r\n".toList = ["auth x\r".toList] :=
  ⟨by decide +kernel, wanted_u2fLine, by decide +kernel, by decide⟩

end Passkey.Cli

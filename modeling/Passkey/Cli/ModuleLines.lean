import Passkey.Cli.PamFiles

/-!
What `pam_add` makes of a file with lines of earlier versions: lines that load
our module and marks, anywhere. The loop puts the wanted line in the place of
the first line that loads our module, or before the first auth line, and drops
the other lines that load it; marks stay.
-/

namespace Passkey.Cli

open Library Text

/-! ### The wanted line -/

/-- pam_u2f tells the user what to do. -/
def cue : Text :=
  " cue [cue_prompt=Confirm with your fingerprint on your device, ".toList ++
    "or reject there to type your password]".toList

/-- `pam_line`, for a service that waits for an empty password or not, and for
our own module or pam_u2f. -/
def pamLine (onEmpty passkey : Bool) (host : Text) : Text :=
  let mode := if onEmpty then "on-empty".toList else "parallel".toList
  let origin := "pam://".toList ++ host
  let u2f := "authfile=".toList ++ KEYS ++ " origin=".toList ++ origin ++ " appid=".toList ++
    origin ++ " userverification=1 nouserok".toList
  if passkey then
    "-auth      sufficient   pam_passkey.so mode=".toList ++ mode ++ " ".toList ++ u2f
  else
    "-auth      sufficient   pam_u2f.so ".toList ++ u2f ++ cue

theorem contains_of_eq {line before needle after : Text} (h : line = before ++ (needle ++ after)) :
    contains line needle = true :=
  decide_eq_true ⟨before, after, by rw [h, List.append_assoc]⟩

/-- A line with our module, then its options with our key file. -/
theorem wanted_of_parts {before module between after : Text} {c : Char}
    (hmodule : module = "pam_passkey.so".toList ∨ module = "pam_u2f.so".toList) (hc : c ≠ '#')
    (hsingle : '\n' ∉ c :: before ++ module ++ between ++ ("authfile=".toList ++ KEYS) ++ after) :
    Wanted (c :: before ++ module ++ between ++ ("authfile=".toList ++ KEYS) ++ after) := by
  refine ⟨hsingle, ?_, fun hmark => hc (List.cons.inj hmark).1⟩
  have hfile := @contains_of_eq _ (c :: before ++ module ++ between) ("authfile=".toList ++ KEYS)
    after (List.append_assoc ..)
  have hloads : contains (c :: before ++ module ++ between ++ ("authfile=".toList ++ KEYS) ++ after)
      module = true := by
    apply @contains_of_eq _ (c :: before) module (between ++ ("authfile=".toList ++ KEYS) ++ after)
    simp only [List.append_assoc]
  rw [isOurs, hfile, Bool.and_true]
  rcases hmodule with rfl | rfl
  · simp only [hloads, Bool.true_or, Bool.or_true]
  · simp only [hloads, Bool.or_true]

/-- For every host name that is one line, `pam_line` gives one line that loads
our module and does not end in a carriage return. -/
theorem wanted_pamLine (onEmpty passkey : Bool) {host : Text} (hhost : '\n' ∉ host) :
    Wanted (pamLine onEmpty passkey host) ∧
      (pamLine onEmpty passkey host).getLast? ≠ some '\r' := by
  have hmode : '\n' ∉ (if onEmpty then "on-empty".toList else "parallel".toList) := by
    cases onEmpty <;> decide
  cases passkey with
  | true =>
      have hline : pamLine onEmpty true host = '-' :: "auth      sufficient   ".toList
          ++ "pam_passkey.so".toList
          ++ (" mode=".toList ++ (if onEmpty then "on-empty".toList else "parallel".toList) ++ [' '])
          ++ ("authfile=".toList ++ KEYS)
          ++ (" origin=".toList ++ ("pam://".toList ++ host) ++ " appid=".toList
            ++ ("pam://".toList ++ host) ++ " userverification=1 nouserok".toList) := by
        have hfirst : "-auth      sufficient   pam_passkey.so mode=".toList
            = '-' :: "auth      sufficient   ".toList ++ "pam_passkey.so".toList
              ++ " mode=".toList := rfl
        have hblank : " ".toList = [' '] := rfl
        simp only [pamLine, if_true, hfirst, hblank, List.append_assoc]
      refine ⟨?_, ?_⟩
      · rw [hline]
        apply wanted_of_parts (.inl rfl) (by decide)
        simp only [List.mem_append, not_or]
        refine ⟨⟨⟨⟨?_, ?_⟩, ⟨?_, hmode⟩, ?_⟩, ?_, ?_⟩, ⟨⟨⟨?_, ?_, hhost⟩, ?_⟩, ?_, hhost⟩, ?_⟩
        all_goals decide
      · have hend : " userverification=1 nouserok".toList.getLast? = some 'k' := rfl
        rw [hline, ← List.append_assoc, List.getLast?_append, hend, Option.some_or]
        decide
  | false =>
      have hline : pamLine onEmpty false host = '-' :: "auth      sufficient   ".toList
          ++ "pam_u2f.so".toList ++ [' '] ++ ("authfile=".toList ++ KEYS)
          ++ ((" origin=".toList ++ ("pam://".toList ++ host) ++ " appid=".toList
            ++ ("pam://".toList ++ host) ++ " userverification=1 nouserok".toList)
            ++ cue) := by
        have hfirst : "-auth      sufficient   pam_u2f.so ".toList
            = '-' :: "auth      sufficient   ".toList ++ "pam_u2f.so".toList ++ [' '] := rfl
        simp only [pamLine, Bool.false_eq_true, if_false, hfirst, List.append_assoc]
      refine ⟨?_, ?_⟩
      · rw [hline]
        apply wanted_of_parts (.inr rfl) (by decide)
        simp only [List.mem_append, not_or]
        refine ⟨⟨⟨⟨?_, ?_⟩, ?_⟩, ?_, ?_⟩, ⟨⟨⟨⟨?_, ?_, hhost⟩, ?_⟩, ?_, hhost⟩, ?_⟩, ?_⟩
        all_goals decide
      · have hend : cue.getLast? = some ']' := rfl
        rw [hline, ← List.append_assoc, List.getLast?_append, hend, Option.some_or]
        decide

/-! ### Lines that load our module -/

/-- A line of ours that is not the mark. -/
def loads (line : Text) : Bool :=
  isOurs line && line != MARK

/-- Our line goes to the place of the first of these, or before it. -/
def decides (line : Text) : Bool :=
  loads line || eligible line

theorem Wanted.loads {line : Text} (h : Wanted line) : loads line = true := by
  simp [Cli.loads, h.ours, h.notMark]

theorem isOurs_eq (line : Text) : isOurs line = (loads line || line == MARK) := by
  by_cases hmark : line = MARK
  · subst hmark
    simp [isOurs]
  · have hbeq : (line == MARK) = false := beq_eq_false_iff_ne.mpr hmark
    rw [loads, bne, hbeq, Bool.not_false, Bool.and_true, Bool.or_false]

theorem loads_mark : loads MARK = false := by
  simp [loads]

theorem contains_of_chomp {line needle : Text} (h : contains (chomp line) needle = true) :
    contains line needle = true := by
  have hpart : needle <:+: chomp line := of_decide_eq_true h
  by_cases hend : line.getLast? = some '\r'
  · obtain ⟨front, rfl⟩ := List.getLast?_eq_some_iff.mp hend
    rw [chomp_concat] at hpart
    exact decide_eq_true (hpart.trans (List.prefix_append front ['\r']).isInfix)
  · rw [chomp_eq hend] at hpart
    exact decide_eq_true hpart

theorem chomp_mark : chomp MARK = MARK := by
  apply chomp_eq
  decide

/-- A line that loads our module without its carriage return does so with it. -/
theorem loads_of_chomp {line : Text} (h : loads (chomp line) = true) : loads line = true := by
  have hmark : line ≠ MARK := by
    rintro rfl
    rw [chomp_mark, loads_mark] at h
    cases h
  simp only [loads, isOurs, Bool.and_eq_true, Bool.or_eq_true, beq_iff_eq, bne_iff_ne] at h ⊢
  obtain ⟨hours | ⟨hmodule, hfile⟩, hnot⟩ := h
  · exact absurd hours hnot
  · refine ⟨.inr ⟨?_, contains_of_chomp hfile⟩, hmark⟩
    exact hmodule.imp contains_of_chomp contains_of_chomp

theorem loads_chomp {line : Text} (hsingle : '\n' ∉ line) : loads (chomp line) = loads line := by
  apply Bool.eq_iff_iff.mpr
  constructor
  · exact loads_of_chomp
  · intro h
    simp only [loads, Bool.and_eq_true, bne_iff_ne] at h
    have hwanted : Wanted line := ⟨hsingle, h.1, h.2⟩
    exact hwanted.chomp.loads

/-! ### The loop -/

/-- Up to the first line that decides, every line is copied. -/
theorem foldl_undecided {wanted : Text} {ls : List Text} (output : List Text)
    (h : ∀ line ∈ ls, decides line = false) :
    ls.foldl (addLine wanted) (output, false) = (output ++ ls, false) := by
  induction ls generalizing output with
  | nil => simp
  | cons line rest ih =>
      have hline := h line List.mem_cons_self
      rw [decides, Bool.or_eq_false_iff] at hline
      have hpushed : addLine wanted (output, false) line = (output ++ [line], false) := by
        rw [addLine]
        by_cases hmark : line = MARK
        · rw [if_pos hmark]
        · have hours : isOurs line = false := by simp [isOurs_eq, hline.1, hmark]
          simp [hmark, hours, hline.2]
      rw [List.foldl_cons, hpushed, ih _ fun l hl => h l (List.mem_cons_of_mem _ hl)]
      simp

/-- Behind our line, the lines that load our module are dropped. -/
theorem foldl_decided (wanted : Text) (output ls : List Text) :
    ls.foldl (addLine wanted) (output, true)
      = (output ++ ls.filter fun line => !loads line, true) := by
  induction ls generalizing output with
  | nil => simp
  | cons line rest ih =>
      rw [List.foldl_cons]
      by_cases hmark : line = MARK
      · rw [addLine, if_pos hmark, ih, List.filter_cons, hmark, loads_mark]
        simp
      · rw [addLine, if_neg hmark, List.filter_cons]
        cases hloads : loads line with
        | true =>
            have hours : isOurs line = true := by simp [isOurs_eq, hloads]
            simp [hours, ih]
        | false =>
            have hours : isOurs line = false := by simp [isOurs_eq, hloads, hmark]
            simp [hours, ih]

theorem exists_decided {ls : List Text} (h : ∃ line ∈ ls, decides line = true) :
    ∃ before first rest, ls = before ++ first :: rest ∧
      (∀ line ∈ before, decides line = false) ∧ decides first = true := by
  obtain ⟨first, hfound⟩ : ∃ line, ls.find? decides = some line := by
    rw [← Option.isSome_iff_exists, List.find?_isSome]
    exact h
  obtain ⟨hfirst, before, rest, hls, hnone⟩ := List.find?_eq_some_iff_append.mp hfound
  exact ⟨before, first, rest, hls, by simpa using hnone, hfirst⟩

/-- The lines after the loop, for a first line that decides. -/
def placed (wanted : Text) (before : List Text) (first : Text) (rest : List Text) : List Text :=
  let others := rest.filter fun line => !loads line
  if loads first then before ++ wanted :: others
  else
    (if before.getLast? = some MARK then before.dropLast else before) ++
      MARK :: wanted :: first :: others

section Decided

variable {wanted text first : Text} {before rest : List Text}

theorem loop_eq (hbefore : ∀ line ∈ before, decides line = false) (hfirst : decides first = true) :
    (before ++ first :: rest).foldl (addLine wanted) ([], false)
      = (placed wanted before first rest, true) := by
  have hmark : first ≠ MARK := by
    rintro rfl
    revert hfirst
    decide +kernel
  rw [List.foldl_append, foldl_undecided [] hbefore, List.nil_append, List.foldl_cons, addLine,
    if_neg hmark, placed]
  cases hloads : loads first with
  | true =>
      have hours : isOurs first = true := by simp [isOurs_eq, hloads]
      simp [hours, foldl_decided]
  | false =>
      have hours : isOurs first = false := by simp [isOurs_eq, hloads, hmark]
      have heligible : eligible first = true := by simpa [decides, hloads] using hfirst
      simp [hours, heligible, foldl_decided]

theorem placed_ne_nil : placed wanted before first rest ≠ [] := by
  unfold placed
  split <;> simp

/-- The lines that are not ours are all there, in their order. -/
theorem others_placed (hwanted : Wanted wanted) :
    (placed wanted before first rest).filter (fun line => !isOurs line)
      = (before ++ first :: rest).filter fun line => !isOurs line := by
  have hours : (rest.filter fun line => !loads line).filter (fun line => !isOurs line)
      = rest.filter fun line => !isOurs line := by
    rw [List.filter_filter]
    apply List.filter_congr
    intro line _
    rw [isOurs_eq]
    cases loads line <;> simp
  have hwantedOurs : isOurs wanted = true := hwanted.ours
  unfold placed
  split
  · rename_i hloads
    have hfirst : isOurs first = true := by simp [isOurs_eq, hloads]
    simp [hwantedOurs, hfirst, hours]
  · have hpopped : (if before.getLast? = some MARK then before.dropLast else before).filter
        (fun line => !isOurs line) = before.filter fun line => !isOurs line := by
      split
      · rename_i hlast
        obtain ⟨front, rfl⟩ := List.getLast?_eq_some_iff.mp hlast
        simp [isOurs_mark]
      · rfl
    simp [hpopped, hwantedOurs, isOurs_mark, List.filter_cons, hours]

/-- Of the lines that load our module there is the wanted one alone. -/
theorem loads_placed (hwanted : Wanted wanted)
    (hbefore : ∀ line ∈ before, decides line = false) :
    (placed wanted before first rest).filter loads = [wanted] := by
  have hnone {ls : List Text} (hls : ∀ line ∈ ls, decides line = false) : ls.filter loads = [] := by
    apply List.filter_eq_nil_iff.mpr
    intro line hline hloads
    have hfalse := hls line hline
    simp [decides, hloads] at hfalse
  have hrest : (rest.filter fun line => !loads line).filter loads = [] := by
    apply List.filter_eq_nil_iff.mpr
    intro line hline hloads
    simp [List.mem_filter, hloads] at hline
  unfold placed
  split
  · simp [hnone hbefore, hwanted.loads, hrest]
  · rename_i hloads
    have hpopped : (if before.getLast? = some MARK then before.dropLast else before).filter loads
        = [] := by
      split
      · exact hnone fun line hline => hbefore line (List.mem_of_mem_dropLast hline)
      · exact hnone hbefore
    simp [hpopped, hwanted.loads, loads_mark, hloads, hrest]

/-! ### Marks -/

/-- How many lines read as the mark once they were written out. -/
def marks (ls : List Text) : Nat :=
  ls.countP fun line => chomp line == MARK

theorem eq_of_chomp_mark {line : Text} (h : chomp line = MARK) :
    line = MARK ∨ line = MARK ++ ['\r'] := by
  by_cases hend : line.getLast? = some '\r'
  · obtain ⟨front, rfl⟩ := List.getLast?_eq_some_iff.mp hend
    rw [chomp_concat] at h
    exact .inr (h ▸ rfl)
  · rw [chomp_eq hend] at h
    exact .inl h

/-- A mark, with or without a carriage return, decides nothing. -/
theorem decides_of_chomp_mark {line : Text} (h : chomp line = MARK) : decides line = false := by
  rcases eq_of_chomp_mark h with rfl | rfl
  · decide +kernel
  · decide +kernel

theorem marks_append (ls ls' : List Text) : marks (ls ++ ls') = marks ls + marks ls' :=
  List.countP_append ..

theorem marks_cons_of_decides {line : Text} (h : decides line = true) (ls : List Text) :
    marks (line :: ls) = marks ls := by
  have hnot : ¬ chomp line = MARK := by
    intro hmark
    rw [decides_of_chomp_mark hmark] at h
    cases h
  simp [marks, hnot]

theorem marks_others (ls : List Text) : marks (ls.filter fun line => !loads line) = marks ls := by
  unfold marks
  rw [List.countP_filter]
  apply List.countP_congr
  intro line _
  by_cases hmark : chomp line = MARK
  · have hloads : loads line = false := by
      have hdecides := decides_of_chomp_mark hmark
      rw [decides, Bool.or_eq_false_iff] at hdecides
      exact hdecides.1
    simp [hmark, hloads]
  · simp [hmark]

/-- Our line gets a mark of its own before an auth line, unless there is one. -/
theorem marks_placed (hwanted : Wanted wanted) (hfirst : decides first = true) :
    marks (placed wanted before first rest)
      = if loads first then marks (before ++ rest)
        else if before.getLast? = some MARK then marks (before ++ rest)
        else marks (before ++ rest) + 1 := by
  have hline : decides wanted = true := by simp [decides, hwanted.loads]
  have hmark (ls : List Text) : marks (MARK :: ls) = marks ls + 1 := by
    simp [marks, chomp_mark]
  unfold placed
  split
  · rw [marks_append, marks_cons_of_decides hline, marks_others, marks_append]
  · rw [marks_append, hmark, marks_cons_of_decides hline, marks_cons_of_decides hfirst,
      marks_others, marks_append]
    split
    · rename_i hlast
      obtain ⟨front, rfl⟩ := List.getLast?_eq_some_iff.mp hlast
      have hend : marks [MARK] = 1 := hmark []
      rw [List.dropLast_concat, marks_append, hend]
      omega
    · omega

/-! ### The rewritten file -/

/-- What the loop would write, without the look for the wanted line before it. -/
def rewrite (wanted input : Text) : Option Text :=
  let s := (lines input).foldl (addLine wanted) ([], false)
  if s.2 then some (joined s.1) else none

theorem withLine_eq (wanted input : Text) :
    withLine wanted input = if wanted ∈ lines input then none else rewrite wanted input :=
  rfl

/-- What a call of `pam_add` is to leave: one line that loads our module, which
is the wanted one, at most one mark, and nothing for a second call to change.
Where the call leaves the file alone because it has the wanted line, the loop
would write the same text. -/
structure Normal (wanted : Text) (s : Service) : Prop where
  once : ∃ text, (pamAdd wanted s).source = some text ∧
    (lines text).filter loads = [wanted] ∧ (lines text).count MARK ≤ 1
  again : pamAdd wanted (pamAdd wanted s) = pamAdd wanted s
  early : ∀ text, s.source = some text → wanted ∈ lines text → rewrite wanted text = some text

/-- The first line that loads our module or is an auth line for ours decides.
If it loads our module, there is at most one mark; and if the wanted line is in
the file it is that line, no other line loads our module, and every line ends
in a line feed alone. If it is an auth line, the wanted line does not follow,
and there is no mark or only the one directly before it. -/
def Tidy (wanted text : Text) : Prop :=
  let before := (lines text).takeWhile fun line => !decides line
  match (lines text).dropWhile fun line => !decides line with
  | [] => False
  | first :: rest =>
      if loads first then
        marks (before ++ rest) ≤ 1 ∧
          (wanted ∈ lines text →
            first = wanted ∧ (∀ line ∈ rest, loads line = false) ∧ unlines (lines text) = text)
      else
        wanted ∉ rest ∧
          (marks (before ++ rest) = 0 ∨ before.getLast? = some MARK ∧ marks (before ++ rest) = 1)

instance (wanted text : Text) : Decidable (Tidy wanted text) := by
  unfold Tidy
  dsimp only
  split <;> infer_instance

theorem lines_joined (hsingle : ∀ line ∈ placed wanted before first rest, '\n' ∉ line) :
    lines (joined (placed wanted before first rest))
      = (placed wanted before first rest).map chomp := by
  rw [joined_eq placed_ne_nil, lines_unlines hsingle]

theorem placed_single {text : Text} (hlines : lines text = before ++ first :: rest)
    (hwanted : Wanted wanted) : ∀ line ∈ placed wanted before first rest, '\n' ∉ line := by
  have htext : ∀ line ∈ before ++ first :: rest, '\n' ∉ line := by
    intro line hline
    exact notMem_lines (hlines ▸ hline)
  have hsub : placed wanted before first rest ⊆ MARK :: wanted :: (before ++ first :: rest) := by
    unfold placed
    intro line hline
    split at hline
    · simp only [List.mem_append, List.mem_cons, List.mem_filter] at hline ⊢
      tauto
    · split at hline
      · simp only [List.mem_append, List.mem_cons, List.mem_filter] at hline ⊢
        rcases hline with hpopped | hline
        · exact .inr (.inr (.inl (List.mem_of_mem_dropLast hpopped)))
        · tauto
      · simp only [List.mem_append, List.mem_cons, List.mem_filter] at hline ⊢
        tauto
  intro line hline
  rcases List.mem_cons.mp (hsub hline) with rfl | hline
  · decide
  · rcases List.mem_cons.mp hline with rfl | hline
    · exact hwanted.single
    · exact htext line hline

/-- A written file that had not got the wanted line. -/
theorem written_once (hlines : lines text = before ++ first :: rest) (hwanted : Wanted wanted)
    (hend : wanted.getLast? ≠ some '\r') (hbefore : ∀ line ∈ before, decides line = false) :
    (lines (joined (placed wanted before first rest))).filter loads = [wanted] ∧
      (lines (joined (placed wanted before first rest))).count MARK
        = marks (placed wanted before first rest) := by
  have hread := lines_joined (placed_single hlines hwanted)
  have hloads : ((placed wanted before first rest).map chomp).filter loads
      = ((placed wanted before first rest).filter loads).map chomp := by
    rw [List.filter_map]
    apply congrArg
    apply List.filter_congr
    intro line hline
    exact loads_chomp (placed_single hlines hwanted line hline)
  constructor
  · rw [hread, hloads, loads_placed hwanted hbefore, List.map_singleton, chomp_eq hend]
  · rw [hread, List.count, List.countP_map]
    rfl

theorem rewrite_eq {text : Text} (hlines : lines text = before ++ first :: rest)
    (hbefore : ∀ line ∈ before, decides line = false) (hfirst : decides first = true) :
    rewrite wanted text = some (joined (placed wanted before first rest)) := by
  simp [rewrite, hlines, loop_eq hbefore hfirst]

theorem tidy_iff {text : Text} (hlines : lines text = before ++ first :: rest)
    (hbefore : ∀ line ∈ before, decides line = false) (hfirst : decides first = true) :
    Tidy wanted text ↔ if loads first then
        marks (before ++ rest) ≤ 1 ∧
          (wanted ∈ lines text →
            first = wanted ∧ (∀ line ∈ rest, loads line = false) ∧ unlines (lines text) = text)
      else
        wanted ∉ rest ∧
          (marks (before ++ rest) = 0 ∨
            before.getLast? = some MARK ∧ marks (before ++ rest) = 1) := by
  have hall : ∀ line ∈ before, (!decides line) = true := by
    intro line hline
    rw [hbefore line hline]
    rfl
  have htake : (lines text).takeWhile (fun line => !decides line) = before := by
    rw [hlines, List.takeWhile_append_of_pos hall]
    simp [hfirst]
  have hdrop : (lines text).dropWhile (fun line => !decides line) = first :: rest := by
    rw [hlines, List.dropWhile_append_of_pos hall]
    simp [hfirst]
  unfold Tidy
  rw [htake, hdrop]

/-- Where the wanted line is missing, the file is written. -/
theorem normal_of_missing {s : Service} {text : Text} (hsource : s.source = some text)
    (hlines : lines text = before ++ first :: rest) (hwanted : Wanted wanted)
    (hend : wanted.getLast? ≠ some '\r') (hbefore : ∀ line ∈ before, decides line = false)
    (hfirst : decides first = true) (hmissing : wanted ∉ lines text) :
    Normal wanted s ↔ marks (placed wanted before first rest) ≤ 1 := by
  have hadd : pamAdd wanted s = {s with
      etc := some (joined (placed wanted before first rest)), copied := s.copied || s.etc.isNone} := by
    simp [pamAdd, hsource, withLine_eq, hmissing, rewrite_eq hlines hbefore hfirst]
  have hwritten : (pamAdd wanted s).source = some (joined (placed wanted before first rest)) := by
    simp [hadd, Service.source]
  obtain ⟨honce, hcount⟩ := written_once hlines hwanted hend hbefore
  have hagain : pamAdd wanted (pamAdd wanted s) = pamAdd wanted s := by
    have hmem : wanted ∈ lines (joined (placed wanted before first rest)) := by
      have hfound := List.mem_singleton_self wanted
      rw [← honce] at hfound
      exact List.mem_of_mem_filter hfound
    have hnone : withLine wanted (joined (placed wanted before first rest)) = none := by
      rw [withLine_eq, if_pos hmem]
    rw [pamAdd, hwritten, Option.bind_some, hnone]
  constructor
  · rintro ⟨⟨text', htext', -, hmarks⟩, -, -⟩
    rw [hwritten, Option.some.injEq] at htext'
    rw [← hcount, htext']
    exact hmarks
  · intro hmarks
    refine ⟨⟨_, hwritten, honce, hcount ▸ hmarks⟩, hagain, ?_⟩
    intro text' htext' hpresent
    rw [hsource, Option.some.injEq] at htext'
    exact absurd (htext' ▸ hpresent) hmissing

/-- Where it is there, the file is left alone. -/
theorem normal_of_present {s : Service} {text : Text} (hsource : s.source = some text)
    (hlines : lines text = before ++ first :: rest)
    (hbefore : ∀ line ∈ before, decides line = false) (hfirst : decides first = true)
    (hpresent : wanted ∈ lines text) :
    Normal wanted s ↔ (lines text).filter loads = [wanted] ∧ (lines text).count MARK ≤ 1 ∧
      joined (placed wanted before first rest) = text := by
  have hadd : pamAdd wanted s = s := by
    have hnone : withLine wanted text = none := by rw [withLine_eq, if_pos hpresent]
    rw [pamAdd, hsource, Option.bind_some, hnone]
  have hrewrite := @rewrite_eq wanted first before rest text hlines hbefore hfirst
  constructor
  · rintro ⟨⟨text', htext', honce, hmarks⟩, -, hearly⟩
    rw [hadd, hsource, Option.some.injEq] at htext'
    subst htext'
    have hsame := hearly text hsource hpresent
    rw [hrewrite, Option.some.injEq] at hsame
    exact ⟨honce, hmarks, hsame⟩
  · rintro ⟨honce, hmarks, hsame⟩
    have hkept : (pamAdd wanted s).source = some text := by rw [hadd, hsource]
    refine ⟨⟨text, hkept, honce, hmarks⟩, by rw [hadd, hadd], ?_⟩
    intro text' htext' _
    rw [hsource, Option.some.injEq] at htext'
    rw [← htext', hrewrite, hsame]

theorem marks_of_unlines {text : Text} (h : unlines (lines text) = text) :
    marks (lines text) = (lines text).count MARK := by
  have hchomp : (lines text).map chomp = lines text := by
    rw [← lines_unlines fun line hline => notMem_lines hline, h]
  calc marks (lines text)
      = ((lines text).map chomp).count MARK := by
        rw [List.count, List.countP_map]
        rfl
    _ = (lines text).count MARK := by rw [hchomp]

/-- The one line that loads our module is the first that decides. -/
theorem present_of_loads {text : Text} (hlines : lines text = before ++ first :: rest)
    (hbefore : ∀ line ∈ before, decides line = false) (hfirst : decides first = true)
    (hloads : loads first = true) :
    ((lines text).filter loads = [wanted] ∧ (lines text).count MARK ≤ 1 ∧
        joined (placed wanted before first rest) = text) ↔
      marks (before ++ rest) ≤ 1 ∧ first = wanted ∧ (∀ line ∈ rest, loads line = false) ∧
        unlines (lines text) = text := by
  have hnone : before.filter loads = [] := by
    apply List.filter_eq_nil_iff.mpr
    intro line hline h
    have hfalse := hbefore line hline
    simp [decides, h] at hfalse
  have hfilter : (lines text).filter loads = first :: rest.filter loads := by
    rw [hlines, List.filter_append, hnone, List.nil_append, List.filter_cons_of_pos hloads]
  have hrest : rest.filter loads = [] ↔ ∀ line ∈ rest, loads line = false := by
    simp [List.filter_eq_nil_iff]
  have hsame (hothers : ∀ line ∈ rest, loads line = false) (heq : first = wanted) :
      joined (placed wanted before first rest) = unlines (lines text) := by
    have hkept : rest.filter (fun line => !loads line) = rest := by
      apply List.filter_eq_self.mpr
      intro line hline
      rw [hothers line hline]
      rfl
    rw [joined_eq placed_ne_nil, placed, if_pos hloads, hkept, hlines, heq]
  have hmarks (htext : unlines (lines text) = text) :
      (lines text).count MARK = marks (before ++ rest) := by
    rw [← marks_of_unlines htext, hlines, marks_append, marks_cons_of_decides hfirst, marks_append]
  rw [hfilter, List.cons_eq_cons, hrest]
  constructor
  · rintro ⟨⟨heq, hothers⟩, hcount, htext⟩
    rw [hsame hothers heq] at htext
    exact ⟨hmarks htext ▸ hcount, heq, hothers, htext⟩
  · rintro ⟨hcount, heq, hothers, htext⟩
    exact ⟨⟨heq, hothers⟩, hmarks htext ▸ hcount, (hsame hothers heq).trans htext⟩

/-- A wanted line behind the auth line that decides would be moved. -/
theorem moved_of_eligible {text : Text} (hlines : lines text = before ++ first :: rest)
    (hwanted : Wanted wanted) (hfirst : decides first = true) (hloads : loads first = false) :
    joined (placed wanted before first rest) ≠ text := by
  intro htext
  have hread := lines_joined (placed_single hlines hwanted)
  rw [htext, hlines, placed, hloads, if_neg Bool.false_ne_true] at hread
  by_cases hlast : before.getLast? = some MARK
  · obtain ⟨front, rfl⟩ := List.getLast?_eq_some_iff.mp hlast
    rw [if_pos hlast, List.dropLast_concat, List.map_append, List.map_cons, List.map_cons,
      List.append_assoc, List.singleton_append] at hread
    obtain ⟨-, htail⟩ := List.append_inj hread (List.length_map ..).symm
    have heq : first = chomp wanted := (List.cons.inj (List.cons.inj htail).2).1
    rw [heq, hwanted.chomp.loads] at hloads
    cases hloads
  · rw [if_neg hlast, List.map_append, List.map_cons] at hread
    obtain ⟨-, htail⟩ := List.append_inj hread (List.length_map ..).symm
    have heq : first = chomp MARK := (List.cons.inj htail).1
    rw [heq, decides_of_chomp_mark (chomp_mark ▸ chomp_mark)] at hfirst
    cases hfirst

end Decided

/-- A call of `pam_add` leaves what it is to leave exactly where the file was
tidy before. -/
theorem normal_iff_tidy {wanted text : Text} {s : Service} (hsource : s.source = some text)
    (hwanted : Wanted wanted) (hend : wanted.getLast? ≠ some '\r')
    (hdecides : ∃ line ∈ lines text, decides line = true) :
    Normal wanted s ↔ Tidy wanted text := by
  obtain ⟨before, first, rest, hlines, hbefore, hfirst⟩ := exists_decided hdecides
  rw [tidy_iff hlines hbefore hfirst]
  by_cases hpresent : wanted ∈ lines text
  · rw [normal_of_present hsource hlines hbefore hfirst hpresent]
    cases hloads : loads first with
    | true =>
        rw [present_of_loads hlines hbefore hfirst hloads]
        simp [hpresent]
    | false =>
        have hbehind : wanted ∈ rest := by
          rw [hlines, List.mem_append, List.mem_cons] at hpresent
          rcases hpresent with hahead | rfl | hrest
          · have hfalse := hbefore wanted hahead
            simp [decides, hwanted.loads] at hfalse
          · rw [hwanted.loads] at hloads
            cases hloads
          · exact hrest
        have hmoved := moved_of_eligible hlines hwanted hfirst hloads
        simp [hmoved, hbehind]
  · rw [normal_of_missing hsource hlines hwanted hend hbefore hfirst hpresent,
      marks_placed hwanted hfirst]
    cases hloads : loads first with
    | true => simp [hpresent]
    | false =>
        have habsent : wanted ∉ rest := by
          intro hrest
          apply hpresent
          rw [hlines]
          exact List.mem_append_right _ (List.mem_cons_of_mem _ hrest)
        by_cases hlast : before.getLast? = some MARK
        · simp only [Bool.false_eq_true, if_false, hlast, if_true, habsent, not_false_eq_true,
            true_and]
          omega
        · simp [hlast, habsent]

/-- A line of an earlier version behind its mark is replaced. -/
theorem stale_replaced :
    Normal u2fLine {etc := some (unlines [MARK, passkeyLine, "auth include common".toList])} :=
  (normal_iff_tidy rfl wanted_u2fLine (by decide)
    ⟨passkeyLine, by decide +kernel, by decide +kernel⟩).mpr (by decide +kernel)

/-- The wanted line is there and the file is left alone with a second line that
loads our module. A mark behind the auth line is left beside the new one. -/
theorem stale_left :
    Wanted u2fLine ∧
    (∃ line ∈ lines (unlines [MARK, u2fLine, passkeyLine]), decides line = true) ∧
    ¬ Normal u2fLine {etc := some (unlines [MARK, u2fLine, passkeyLine])} ∧
    ¬ Normal u2fLine {etc := some (unlines ["auth include common".toList, MARK, passkeyLine])} := by
  refine ⟨wanted_u2fLine, ⟨u2fLine, by decide +kernel, by decide +kernel⟩, ?_, ?_⟩
  · rintro ⟨⟨text, htext, honce, -⟩, -, -⟩
    have hleft : (pamAdd u2fLine {etc := some (unlines [MARK, u2fLine, passkeyLine])}).source.map
        (fun text => (lines text).filter loads) = some [u2fLine, passkeyLine] := by
      decide +kernel
    rw [htext, Option.map_some, honce, Option.some.injEq] at hleft
    cases congrArg List.length hleft
  · rintro ⟨⟨text, htext, -, hmarks⟩, -, -⟩
    have hleft : (pamAdd u2fLine
        {etc := some (unlines ["auth include common".toList, MARK, passkeyLine])}).source.map
          (fun text => (lines text).count MARK) = some 2 := by
      decide +kernel
    rw [htext, Option.map_some, Option.some.injEq] at hleft
    omega

end Passkey.Cli

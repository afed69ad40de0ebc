import Passkey.Cli.Registrations
import Passkey.Library.Edits

/-!
Two privileged processes that change the registration files at the same time.
`root_store` and `root_remove` both read the key file and then the names file,
and replace the one and then the other; nothing keeps a second process from
doing so in between.
-/

namespace Passkey.Cli

open Library Library.Edits

/-- What a privileged process was started for. -/
inductive Command where
  | store (user input : Text)
  | remove (user handle : Text)

def Command.run : Command → Files → Except String Files
  | .store user input => rootStore user input
  | .remove user handle => rootRemove user handle

/-- A command that fails has replaced no file. -/
def Command.after (c : Command) (f : Files) : Files :=
  match c.run f with
  | .ok g => g
  | .error _ => f

/-- The two files as the cells that a command edits. -/
def Command.edit (c : Command) : Edit (Option Text) (Option Text) String := fun keys names =>
  (c.run ⟨keys, names⟩).map fun f => (f.keys, f.names)

/-- The commands of the two processes. -/
def edits (c d : Command) (process : Bool) : Edit (Option Text) (Option Text) String :=
  if process then d.edit else c.edit

abbrev Processes := Edits.State (Option Text) (Option Text)

def Processes.start (f : Files) : Processes :=
  Edits.start (f.keys, f.names)

def files (s : Processes) : Files :=
  ⟨s.cells.1, s.cells.2⟩

theorem Command.after_edit (c : Command) (f : Files) :
    c.edit.after (f.keys, f.names) = ((c.after f).keys, (c.after f).names) := by
  unfold Edit.after Command.edit Command.after
  cases hrun : c.run f with
  | ok g => simp [Except.map]
  | error e => simp [Except.map]

/-- Where no process reads a file between the other's reading and replacing of
it, the files come out as if one command had run after the other. -/
theorem processes_serial {c d : Command} {f : Files} {s : Processes}
    (h : Reach (Edits.next (edits c d)) Apart (Processes.start f) s)
    (hended : ∀ process, s.progress process = .ended) :
    files s = d.after (c.after f) ∨ files s = c.after (d.after f) := by
  have hafter (first second : Command)
      (hcells : s.cells = second.edit.after (first.edit.after (f.keys, f.names))) :
      files s = second.after (first.after f) := by
    rw [first.after_edit, second.after_edit] at hcells
    rw [files, hcells]
  rcases serial h hended with hcd | hdc
  · exact .inl (hafter c d hcd)
  · exact .inr (hafter d c hdc)

/-- A lost phone is registered. -/
def lostFiles : Files where
  keys := some "me:AQ==,k\n".toList
  names := some "me\tAQ==\tLost\n".toList

def removeLost : Command := .remove "me".toList "AQ==".toList

def storeNew : Command := .store "me".toList ":Ag==,k\nNew\n".toList

/-- The lost phone is removed, and the new one is stored once the key file has
been replaced. -/
theorem removed_and_stored : ∃ s, Reach (Edits.next (edits removeLost storeNew)) Apart
      (Processes.start lostFiles) s ∧
    (∀ process, s.progress process = .ended) ∧
    (files s = storeNew.after (removeLost.after lostFiles) ∨
      files s = removeLost.after (storeNew.after lostFiles)) := by
  have hreplay : ((replay (Edits.next (edits removeLost storeNew)) Apart
      (Processes.start lostFiles)
      [false, false, false, true, false, true, true, true]).any fun s =>
        decide (∀ process, s.progress process = .ended)) = true := by decide +kernel
  obtain ⟨s, hrun, hfacts⟩ := (Option.any_eq_true ..).mp hreplay
  have hended := of_decide_eq_true hfacts
  have hreach := reach_of_replay hrun
  exact ⟨s, hreach, hended, processes_serial hreach hended⟩

/-- The new phone is stored by a process that had read the files before the lost
one was removed: the removed credential is back, as in no order of the two. -/
theorem removed_returns : ∃ s, Reach (Edits.next (edits removeLost storeNew)) always
      (Processes.start lostFiles) s ∧
    (∀ process, s.progress process = .ended) ∧
    "AQ==".toList ∈ handlesFor (files s) "me".toList ∧
    files s ≠ storeNew.after (removeLost.after lostFiles) ∧
    files s ≠ removeLost.after (storeNew.after lostFiles) := by
  have hreplay : ((replay (Edits.next (edits removeLost storeNew)) always
      (Processes.start lostFiles)
      [true, true, false, false, false, false, true, true]).any fun s =>
        decide ((∀ process, s.progress process = .ended) ∧
          "AQ==".toList ∈ handlesFor (files s) "me".toList ∧
          (files s).keys ≠ (storeNew.after (removeLost.after lostFiles)).keys ∧
          (files s).keys ≠ (removeLost.after (storeNew.after lostFiles)).keys)) = true := by
    decide +kernel
  obtain ⟨s, hrun, hfacts⟩ := (Option.any_eq_true ..).mp hreplay
  obtain ⟨hended, hback, hfirst, hsecond⟩ := of_decide_eq_true hfacts
  exact ⟨s, reach_of_replay hrun, hended, hback, fun h => hfirst (congrArg Files.keys h),
    fun h => hsecond (congrArg Files.keys h)⟩

end Passkey.Cli

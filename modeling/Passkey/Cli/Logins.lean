import Passkey.Cli.ModuleLines
import Passkey.Cli.Registrations
import Passkey.Pam.Helper
import Passkey.Pam.Returns
import Passkey.Words

/-!
A login from the line in the service file to the signature: the arguments that
Linux-PAM makes of the line, the loop that waits for a helper, the helper that
reads the registered keys, and the device that signs for one of them.
-/

namespace Passkey.Cli

open Library Pam Text

/-! ### The arguments in our line -/

def origin (host : Text) : Text :=
  "pam://".toList ++ host

theorem origin_eq (host : Text) : origin host = "pam://".toList ++ host := by
  delta origin
  rfl

/-- What follows the name of the module. -/
def lineArgs (onEmpty : Bool) (host : Text) : List Text :=
  [if onEmpty then "mode=on-empty".toList else "mode=parallel".toList,
    "authfile=".toList ++ KEYS, "origin=".toList ++ origin host, "appid=".toList ++ origin host,
    "userverification=1".toList, "nouserok".toList]

/-- A word that white space does not break. -/
def unbroken (word : Text) : Bool :=
  !word.isEmpty && word.all fun c => !isWhitespace c

theorem unbroken_iff {word : Text} :
    unbroken word = true ↔ word ≠ [] ∧ ∀ c ∈ word, isWhitespace c = false := by
  simp [unbroken]

theorem unbroken_append {word more : Text} (h : unbroken word = true)
    (hmore : ∀ c ∈ more, isWhitespace c = false) : unbroken (word ++ more) = true := by
  obtain ⟨hne, hword⟩ := unbroken_iff.mp h
  refine unbroken_iff.mpr ⟨by simp [hne], fun c hc => ?_⟩
  rcases List.mem_append.mp hc with hc | hc
  · exact hword c hc
  · exact hmore c hc

theorem splitWhitespace_word {word : Text} (h : unbroken word = true) (rest : Text) :
    splitWhitespace (word ++ ' ' :: rest) = word :: splitWhitespace rest :=
  splitWhitespace_append (unbroken_iff.mp h).1 (unbroken_iff.mp h).2 rfl rest

/-- Blanks before the first field do not matter. -/
theorem splitWhitespace_blanks (n : Nat) (rest : Text) :
    splitWhitespace (List.replicate n ' ' ++ rest) = splitWhitespace rest := by
  induction n with
  | zero => rfl
  | succ n ih =>
      rw [List.replicate_succ, List.cons_append, splitWhitespace,
        List.splitOnP_cons_eq_if_modifyHead, if_pos (by decide)]
      exact ih

theorem splitWhitespace_spaced {words : List Text} (h : ∀ word ∈ words, unbroken word = true) :
    splitWhitespace ([' '].intercalate words) = words := by
  induction words with
  | nil => rfl
  | cons word rest ih =>
      have hword := h word List.mem_cons_self
      have hrest := ih fun other hother => h other (List.mem_cons_of_mem _ hother)
      cases rest with
      | nil =>
          obtain ⟨hne, hplain⟩ := unbroken_iff.mp hword
          rw [List.intercalate_singleton, splitWhitespace, List.splitOnP_eq_singleton hplain]
          simp [hne]
      | cons next more =>
          rw [List.intercalate_cons_cons, List.append_assoc, List.singleton_append,
            splitWhitespace_word hword, hrest]

/-- The words of our line, up to where the host name comes in. -/
def words : List Text :=
  ["-auth".toList, "sufficient".toList, "pam_passkey.so".toList, "mode=on-empty".toList,
    "mode=parallel".toList, "authfile=".toList ++ KEYS, "origin=pam://".toList,
    "appid=pam://".toList, "userverification=1".toList, "nouserok".toList]

theorem unbroken_words : words.all unbroken = true := by
  rfl

theorem unbroken_of_mem {word : Text} (h : word ∈ words) : unbroken word = true :=
  List.all_eq_true.mp unbroken_words word h

theorem unbroken_lineArgs (onEmpty : Bool) {host : Text}
    (hhost : ∀ c ∈ host, isWhitespace c = false) :
    ∀ word ∈ lineArgs onEmpty host, unbroken word = true := by
  have hmode :
      unbroken (if onEmpty then "mode=on-empty".toList else "mode=parallel".toList) = true := by
    cases onEmpty <;> exact unbroken_of_mem (by simp [words])
  have horigin : unbroken ("origin=pam://".toList ++ host) = true :=
    unbroken_append (unbroken_of_mem (by simp [words])) hhost
  have happid : unbroken ("appid=pam://".toList ++ host) = true :=
    unbroken_append (unbroken_of_mem (by simp [words])) hhost
  simp only [lineArgs, List.forall_mem_cons, List.not_mem_nil, false_implies, implies_true,
    and_true]
  exact ⟨hmode, unbroken_of_mem (by simp [words]), horigin, happid,
    unbroken_of_mem (by simp [words]), unbroken_of_mem (by simp [words])⟩

theorem args_pamLine (onEmpty : Bool) {host : Text} (hhost : ∀ c ∈ host, isWhitespace c = false) :
    splitWhitespace (pamLine onEmpty true host) = "-auth".toList :: "sufficient".toList ::
      "pam_passkey.so".toList :: lineArgs onEmpty host := by
  have hline : pamLine onEmpty true host = "-auth".toList ++ ' ' :: (List.replicate 5 ' ' ++
      ("sufficient".toList ++ ' ' :: (List.replicate 2 ' ' ++
        ("pam_passkey.so".toList ++ ' ' :: [' '].intercalate (lineArgs onEmpty host))))) := by
    have hfirst : "-auth      sufficient   pam_passkey.so mode=".toList = "-auth".toList ++ ' ' ::
        (List.replicate 5 ' ' ++ ("sufficient".toList ++ ' ' :: (List.replicate 2 ' ' ++
          ("pam_passkey.so".toList ++ ' ' :: "mode=".toList)))) := rfl
    have horigin : " origin=".toList = ' ' :: "origin=".toList := rfl
    have happid : " appid=".toList = ' ' :: "appid=".toList := rfl
    have hlast : " userverification=1 nouserok".toList =
        ' ' :: ("userverification=1".toList ++ ' ' :: "nouserok".toList) := rfl
    have hmode : (if onEmpty then "mode=on-empty".toList else "mode=parallel".toList) =
        "mode=".toList ++ (if onEmpty then "on-empty".toList else "parallel".toList) := by
      cases onEmpty <;> rfl
    have hblank : " ".toList = [' '] := rfl
    simp only [pamLine, if_true, lineArgs, origin_eq, hfirst, horigin, happid, hlast, hmode, hblank,
      List.intercalate_cons_cons, List.intercalate_singleton, List.append_assoc, List.cons_append,
      List.nil_append]
  rw [hline, splitWhitespace_word (unbroken_of_mem (by simp [words])), splitWhitespace_blanks,
    splitWhitespace_word (unbroken_of_mem (by simp [words])), splitWhitespace_blanks,
    splitWhitespace_word (unbroken_of_mem (by simp [words])),
    splitWhitespace_spaced (unbroken_lineArgs onEmpty hhost)]

theorem readArgs_lineArgs (onEmpty : Bool) (host : Text) :
    readArgs (lineArgs onEmpty host) =
      ⟨onEmpty, helperPath, some KEYS, (lineArgs onEmpty host).tail⟩ := by
  cases onEmpty <;> rfl

theorem readOptions_lineArgs (onEmpty : Bool) (host : Text) :
    readOptions (lineArgs onEmpty host).tail = ⟨some KEYS, some (origin host), true⟩ := by
  rfl

/-! ### The helpers of a call -/

/-- What `Ask::start` passes to the helper after its command. -/
def helperArgs (call : Pam.Call) : List Text :=
  match call.proceed, call.getUser.2 with
  | some o, some user => user :: o.options
  | _, _ => []

/-- A helper writes what `pam-auth` does: `y`, where it succeeds. -/
def Runs (world : Nat → World) (call : Pam.Call) (_ : Pam.State) (e : Pam.Event) : Prop :=
  ∀ helper byte, e = .helperWrites helper byte →
    byte = yes ∧ Pam.run (world helper) (helperArgs call) = .ok ()

/-- The call comes from our line, for a user. Linux-PAM breaks the line at white
space and hands over what stands after the name of the module. -/
structure Configured (call : Pam.Call) (onEmpty : Bool) (host : Text) (u : User) : Prop where
  spaceless : ∀ c ∈ host, isWhitespace c = false
  argv : call.argv = (splitWhitespace (pamLine onEmpty true host)).drop 3
  argc : call.argc = call.argv.length
  user : call.getUser.2 = some u.text

/-- The two files after some run of `root_store` and `root_remove` from empty
ones, with the registrations of each user. -/
def Registered (f : Files) (listed : User → List Registration) : Prop :=
  ∃ f₀, readOptional f₀.keys = [] ∧ readOptional f₀.names = [] ∧
    Reach (watch command observeCommand) (fun x call => call.Valid x.1) (f₀, fun _ => [])
      (f, listed)

theorem Registered.credentials {f : Files} {listed : User → List Registration}
    (h : Registered f listed) (u : User) :
    credentials (readOptional f.keys) u.text = (listed u).map Registration.credential := by
  obtain ⟨f₀, hkeys, hnames, hrun⟩ := h
  have hstart : Represents f₀ [] := {
    keys := hkeys
    proper := .nil
    handles := fun _ => List.nodup_nil
    names := ⟨[], hnames, fun _ => rfl⟩ }
  obtain ⟨m, hm, hvalues⟩ : ∃ m, Represents f m ∧ ∀ u, m.values u = listed u := by
    apply hrun.invariant (I := fun x => ∃ m, Represents x.1 m ∧ ∀ u, m.values u = x.2 u)
    · exact ⟨[], hstart, fun _ => rfl⟩
    · intro x call y hx hvalid hcall
      obtain ⟨hnext, hlisted⟩ := watch_eq hcall
      rw [← Option.some.inj hnext, hlisted]
      exact Call.represents hvalid hx
  rw [← hvalues u]
  exact credentials_eq hm u

theorem proceed_options {call : Pam.Call} {o : Options} (h : call.proceed = some o) :
    o = readArgs (call.argv.take call.argc.toNat) := by
  unfold Call.proceed at h
  split at h
  · cases h
  · dsimp only at h
    split at h
    · cases h
    · cases h
    · split at h
      · cases h
      · split at h
        · cases h
        · exact (Option.some.inj h).symm

theorem helperArgs_configured {call : Pam.Call} {onEmpty : Bool} {host : Text} {u : User}
    (h : Configured call onEmpty host u) :
    helperArgs call = [] ∨ helperArgs call = u.text :: (lineArgs onEmpty host).tail := by
  have hargs : readArgs (call.argv.take call.argc.toNat) =
      ⟨onEmpty, helperPath, some KEYS, (lineArgs onEmpty host).tail⟩ := by
    rw [h.argc, Int.toNat_natCast, List.take_length, h.argv, args_pamLine onEmpty h.spaceless]
    exact readArgs_lineArgs onEmpty host
  unfold helperArgs
  rw [h.user]
  cases hproceed : call.proceed with
  | none => exact .inl rfl
  | some o =>
      refine .inr ?_
      rw [proceed_options hproceed, hargs]

/-! ### From the login to the signature -/

/-- What a byte in a helper's pipe says. -/
def Vouched (world : Nat → World) (call : Pam.Call) (s : Pam.State) : Prop :=
  ∀ helper byte, .wrote helper byte ∈ s.seen →
    Pam.run (world helper) (helperArgs call) = .ok ()

theorem vouched_authenticate (world : Nat → World) (call : Pam.Call) (entry : Pam.Entry) :
    Vouched world call (Pam.authenticate call entry) := by
  intro helper byte hmem
  unfold Pam.authenticate at hmem
  split at hmem
  · simp [Pam.State.idle] at hmem
  · split at hmem
    · simp [Pam.State.idle] at hmem
    · revert hmem
      cases entry.started <;> simp [Pam.State.startAsk, Pam.State.idle]

theorem vouched_step {world : Nat → World} {call : Pam.Call} {s t : Pam.State} {e : Pam.Event}
    (h : Vouched world call s) (hruns : Runs world call s e) (hnext : Pam.next s e = some t) :
    Vouched world call t := by
  intro helper byte hmem
  rcases (turned_of_next hnext).wrote hmem with hold | rfl
  · exact h helper byte hold
  · exact (hruns helper byte rfl).2

/-- A login that succeeds without a password has a helper that succeeded. -/
theorem ran_of_success {call : Pam.Call} {entry : Pam.Entry} {world : Nat → World} {s : Pam.State}
    (hrun : Reach Pam.next (Runs world call) (Pam.authenticate call entry) s)
    (hsuccess : s.pc = .returned pamSuccess) : ∃ helper, .started helper ∈ s.seen ∧
      .read helper yes ∈ s.seen ∧ Pam.run (world helper) (helperArgs call) = .ok () := by
  have happroved : Approved s.seen :=
    (inv_reachable call entry hrun.weaken).sound.approved
      ((inv_reachable call entry hrun.weaken).code _ hsuccess).symm
  obtain ⟨helper, before, after, hseen, hstarted, hwrote⟩ := happroved
  have hmem {x : Seen} (hx : x ∈ before) : x ∈ s.seen := hseen ▸ List.mem_append_left _ hx
  have hvouched : Vouched world call s :=
    hrun.invariant (vouched_authenticate world call entry)
      fun _ _ _ ht hok hnext => vouched_step ht hok hnext
  exact ⟨helper, hmem hstarted, by simp [hseen], hvouched helper yes (hmem hwrote)⟩

/-- A helper of our line that succeeds has a signature with a registered key. -/
theorem signed_of_run {call : Pam.Call} {onEmpty : Bool} {host : Text} {u : User}
    (hconfigured : Configured call onEmpty host u) {w : World} {f : Files}
    {listed : User → List Registration} (hregistered : Registered f listed)
    (hread : w.readToString KEYS = .ok (readOptional f.keys))
    (hok : Pam.run w (helperArgs call) = .ok ()) :
    ∃ e ∈ listed u, ∃ request statement, Signed w (origin host) true
      ((listed u).map Registration.credential) e.credential request statement := by
  rcases helperArgs_configured hconfigured with hnone | hargs
  · rw [hnone] at hok
    cases hok
  · rw [hargs] at hok
    obtain ⟨authfile, given, text, hauthfile, hgiven, htext, credential, request, statement,
      hsigned⟩ := run_ok hok
    rw [readOptions_lineArgs] at hauthfile hgiven hsigned
    obtain rfl := Option.some.inj hauthfile
    obtain rfl := Option.some.inj hgiven
    obtain rfl := Except.ok.inj (hread.symm.trans htext)
    rw [hregistered.credentials u] at hsigned
    obtain ⟨e, he, rfl⟩ := List.mem_map.mp hsigned.registered
    exact ⟨e, he, request, statement, hsigned⟩

/-- Where the service has our line and the files hold what was registered, a
login that succeeds without a password has a signature by a device: of a
request for this host's origin that names the user's registered handles and no
other, and asks for presence and verification, with the key that was registered
with the handle it names. -/
theorem login_law {call : Pam.Call} {entry : Pam.Entry} {world : Nat → World} {s : Pam.State}
    {onEmpty : Bool} {host : Text} {u : User} {listed : Nat → User → List Registration}
    (hconfigured : Configured call onEmpty host u)
    (hfiles : ∀ helper, ∃ f, Registered f (listed helper) ∧
      (world helper).readToString KEYS = .ok (readOptional f.keys))
    (hrun : Reach Pam.next (Runs world call) (Pam.authenticate call entry) s)
    (hsuccess : s.pc = .returned pamSuccess) :
    ∃ helper, .started helper ∈ s.seen ∧ .read helper yes ∈ s.seen ∧
      ∃ e ∈ listed helper u, ∃ request statement,
        Signed (world helper) (origin host) true ((listed helper u).map Registration.credential)
          e.credential request statement := by
  obtain ⟨helper, hstarted, happroved, hok⟩ := ran_of_success hrun hsuccess
  obtain ⟨f, hregistered, hread⟩ := hfiles helper
  exact ⟨helper, hstarted, happroved, signed_of_run hconfigured hregistered hread hok⟩

/-! ### A login -/

def myKeys : Files :=
  Call.run {} (.store me phone (stdin phone))

theorem myKeys_registered : Registered myKeys (Function.update (fun _ => []) me [phone]) := by
  have hvalid : Call.Valid {} (.store me phone (stdin phone)) := ⟨⟨[], by decide⟩, by decide⟩
  exact ⟨{}, rfl, rfl, Reach.refl.tail hvalid rfl⟩

/-- A device that signs whatever it is asked, with the registered key. -/
def signingWorld (_ : Nat) : World where
  readToString _ := .ok (readOptional myKeys.keys)
  list := true
  manifest := (FIDO_OK, [⟨[], VENDOR, PRODUCT⟩])
  device := true
  devOpen _ := FIDO_OK
  random _ := some (List.replicate 32 7)
  assertion _ := true
  setRp _ := FIDO_OK
  setClientdataHash _ := FIDO_OK
  allowCred _ := FIDO_OK
  getAssert _ := (FIDO_OK, [⟨some phone.id, [], []⟩])
  pk := true
  pkFromPtr _ := FIDO_OK
  verify _ _ key := if key = phone.point then FIDO_OK else -1
  write := true

def myCall : Pam.Call where
  handleNull := false
  argc := 6
  argvNull := false
  argv := lineArgs false "pc".toList
  getUser := (pamSuccess, some me.text)
  uevents := some [some "HID_ID=0003:00001209:00007AB1".toList]
  readToString _ := myKeys.keys
  isExecutable _ := true

theorem signingWorld_runs (helper : Nat) :
    Pam.run (signingWorld helper) (helperArgs myCall) = .ok () := by
  rfl

theorem myCall_configured : Configured myCall false "pc".toList me := by
  have hspaceless : ∀ c ∈ "pc".toList, isWhitespace c = false := by
    intro c hc
    obtain rfl | rfl : c = 'p' ∨ c = 'c' := by simpa using hc
    all_goals rfl
  exact {
    spaceless := hspaceless
    argv := by rw [args_pamLine false hspaceless]; rfl
    argc := rfl
    user := rfl }

def myEvents : List Pam.Event :=
  [.receive 0 false 0, .poll .notReady 0, .helperWrites 0 yes, .receive 0 false 0,
    .poll .ready 0, .settle, .leave]

theorem myCall_signed : ∃ s : Pam.State, s.pc = .returned pamSuccess ∧
    ∃ helper, .started helper ∈ s.seen ∧ .read helper yes ∈ s.seen ∧ ∃ request statement,
      Signed (signingWorld helper) (origin "pc".toList) true [phone.credential] phone.credential
        request statement := by
  obtain ⟨s, hreplay, hpc⟩ : ∃ s : Pam.State,
      replay Pam.next always (Pam.authenticate myCall ⟨true, 0, ⟨0, none⟩⟩) myEvents = some s ∧
        s.pc = .returned pamSuccess := ⟨_, rfl, rfl⟩
  have hruns : ∀ s, ∀ e ∈ myEvents, Runs signingWorld myCall s e := by
    rintro s e he helper byte rfl
    have hbyte : byte = yes := (by simpa [myEvents] using he : helper = 0 ∧ byte = yes).2
    exact ⟨hbyte, signingWorld_runs helper⟩
  have hrun := reach_of_replay_of_forall hruns hreplay
  obtain ⟨helper, hstarted, hread, e, he, request, statement, hsigned⟩ :=
    login_law myCall_configured (fun _ => ⟨myKeys, myKeys_registered, rfl⟩) hrun hpc
  obtain rfl : e = phone := by simpa using he
  refine ⟨s, hpc, helper, hstarted, hread, request, statement, ?_⟩
  simpa using hsigned

end Passkey.Cli

import Passkey.Cli.Logins
import Passkey.Phone.Touches

/-!
From a login back to a finger. What is assumed is what the signature scheme and
libfido2 are for: who verifies a signature knows that a phone made it, and what
it was made over. The rest follows from the two ends: the helper accepts no
other signature, and a phone makes none with a flag set without a touch.
-/

namespace Passkey.Network

open Library Cli Pam
open Phone (Outcome Sha256)
open Phone.PromptActivity (Touch TouchedFor TouchedBefore touched)

/-- The app of a phone, with the touches so far. -/
abbrev Handset := Phone.PromptActivity.State × List Touch

/-- The phone signed this in a call of `handle`. -/
def SignedBy (x : Handset) (id ad hash : Bytes) (i : Nat) (asked : Phone.Call) : Prop :=
  ∃ o : Outcome, x.1.service.session.history[i]? = some (asked, o) ∧
    .signed id ad hash ∈ o.effects

/-- A signature that checks out with the key was made by a phone that has the
key, over what is checked beside it: the relying party and the presence that
the request asked for. -/
def Authentic {ι : Type} (sha : Sha256) (phones : ι → Handset) (w : World)
    (credential : Credential) : Prop :=
  ∀ request statement, statement.id = some credential.id →
    w.verify request statement credential.key = FIDO_OK →
    (∃ p i asked, SignedBy (phones p) credential.id statement.authData request.hash i asked) ∧
      statement.authData.take 32 = sha.digest request.rp ∧
      (request.up = some true → ∃ flags, statement.authData[32]? = some flags ∧ flags &&& 1 ≠ 0)

/-- A login without a password comes from a finger: on a phone that has a key
registered for the user, a touch on the sheet of a prompt approved the request,
or the sign-in that it continues, that signed this login's challenge, for a
site whose digest is the one of this host's origin. -/
theorem login_touched {ι : Type} {sha : Sha256} {phones : ι → Handset} {call : Pam.Call}
    {entry : Pam.Entry} {world : Nat → World} {s : Pam.State} {onEmpty : Bool} {host : Text}
    {u : User} {listed : Nat → User → List Registration}
    (hconfigured : Configured call onEmpty host u)
    (hfiles : ∀ helper, ∃ f, Registered f (listed helper) ∧
      (world helper).readToString KEYS = .ok (readOptional f.keys))
    (hphones : ∀ p, ∃ store keys unlockFirst,
      Reach (watch (Phone.PromptActivity.next sha) touched) always
        (Phone.PromptActivity.start store keys unlockFirst, []) (phones p))
    (hauthentic : ∀ helper, ∀ e ∈ listed helper u, Authentic sha phones (world helper) e.credential)
    (hrun : Reach Pam.next (Runs world call) (Pam.authenticate call entry) s)
    (hsuccess : s.pc = .returned pamSuccess) :
    ∃ helper, .started helper ∈ s.seen ∧ .read helper yes ∈ s.seen ∧
      ∃ e ∈ listed helper u, ∃ hash, (world helper).random 1 = some hash ∧
      ∃ p i asked ad, SignedBy (phones p) e.id ad hash i asked ∧
      ∃ rpId, sha.digest rpId = sha.digest (origin host) ∧
        (TouchedFor (phones p) i asked ∨ TouchedBefore (phones p) i asked rpId) := by
  obtain ⟨helper, hstarted, happroved, hok⟩ := ran_of_success hrun hsuccess
  obtain ⟨f, hregistered, hread⟩ := hfiles helper
  obtain ⟨e, he, request, statement, hsigned⟩ :=
    signed_of_run hconfigured hregistered hread hok
  obtain ⟨⟨p, i, asked, hby⟩, hsite, hpresent⟩ :=
    hauthentic helper e he request statement hsigned.named hsigned.verified
  obtain ⟨flags, hflags, hup⟩ := hpresent hsigned.up
  refine ⟨helper, hstarted, happroved, e, he, request.hash, hsigned.fresh, p, i, asked,
    statement.authData, hby, ?_⟩
  obtain ⟨o, hcall, hmem⟩ := hby
  obtain ⟨store, keys, unlockFirst, hphone⟩ := hphones p
  rcases Phone.PromptActivity.touched_of_signed hphone hcall hmem with hzero | ⟨rpId, hhash, htouch⟩
  · obtain rfl := Option.some.inj (hflags.symm.trans hzero)
    exact absurd rfl hup
  · refine ⟨rpId, ?_, htouch⟩
    rw [← hhash, hsite, hsigned.rp]

/-! ### A touch and its login -/

def challenge : Bytes :=
  List.replicate 32 7

/-- getAssertion for this host and the registered handle, as the helper asks. -/
def askedFor : Bytes :=
  [0x02, 0xA4, 0x01, 0x68, 0x70, 0x61, 0x6D, 0x3A, 0x2F, 0x2F, 0x70, 0x63, 0x02, 0x58, 0x20] ++
    challenge ++ [0x03, 0x81, 0xA2, 0x62, 0x69, 0x64, 0x42, 0x01, 0x02, 0x64, 0x74, 0x79, 0x70,
      0x65, 0x6A, 0x70, 0x75, 0x62, 0x6C, 0x69, 0x63, 0x2D, 0x6B, 0x65, 0x79,
      0x05, 0xA2, 0x62, 0x75, 0x70, 0xF5, 0x62, 0x75, 0x76, 0xF5]

def registeredStore : Phone.Store :=
  [(phone.id, {rp := some (origin "pc".toList), uid := some [7], t := some 1})]

def fingerEvents : List Phone.PromptActivity.Event :=
  [.service (.receive 0 (frame (Phone.KeyService.REQ :: [0, 0, 0, 1] ++ askedFor))),
    .service (.serve 0 true), .service (.execute 0), .service (.enter 0), .service (.confirm 0),
    .create 1, .focus 0 true, .succeeded 0, .service (.awaitAnswer 0 false),
    .service (.finish 0 (Phone.approving 0))]

def signedData : Bytes :=
  Phone.authData Phone.zeroDigest (origin "pc".toList) 5 1

def signsChallenge (x : Handset) : Bool :=
  x.1.service.session.history.any fun y => y.2.effects.any fun
    | .signed id ad hash => id = phone.id && ad = signedData && hash = challenge
    | _ => false

/-- The helper's device passes on what the phone signed. -/
def touchedWorld (helper : Nat) : World :=
  {signingWorld helper with
    random := fun _ => some challenge
    getAssert := fun _ => (FIDO_OK, [⟨some phone.id, signedData, [3]⟩])
    verify := fun request statement key =>
      if key = phone.point ∧ statement.authData = signedData ∧ request.hash = challenge then FIDO_OK
      else -1}

theorem signedBy_of_signsChallenge {x : Handset} (h : signsChallenge x = true) :
    ∃ i asked, SignedBy x phone.id signedData challenge i asked := by
  obtain ⟨⟨asked, o⟩, hmem, hany⟩ := List.any_eq_true.mp h
  obtain ⟨i, hi⟩ := List.mem_iff_getElem?.mp hmem
  obtain ⟨e, he, hsame⟩ := List.any_eq_true.mp hany
  cases e with
  | confirm => cases hsame
  | created => cases hsame
  | signed id ad hash =>
      simp only [Bool.and_eq_true, decide_eq_true_eq] at hsame
      obtain ⟨⟨rfl, rfl⟩, rfl⟩ := hsame
      exact ⟨i, asked, o, hi, he⟩

theorem touchedWorld_authentic {x : Handset} (h : signsChallenge x = true) (helper : Nat) :
    Authentic Phone.zeroDigest (fun _ : Unit => x) (touchedWorld helper) phone.credential := by
  intro request statement _ hverified
  have hsame : phone.credential.key = phone.point ∧ statement.authData = signedData ∧
      request.hash = challenge := by
    by_contra hnot
    change (if _ then _ else _) = _ at hverified
    rw [if_neg hnot] at hverified
    cases hverified
  obtain ⟨-, hdata, hhash⟩ := hsame
  obtain ⟨i, asked, hsigned⟩ := signedBy_of_signsChallenge h
  rw [hdata, hhash]
  exact ⟨⟨(), i, asked, hsigned⟩, rfl, fun _ => ⟨5, rfl, by decide⟩⟩

theorem login_touched_once : ∃ s : Pam.State, ∃ x : Handset, s.pc = .returned pamSuccess ∧
    ∃ i asked ad, SignedBy x phone.id ad challenge i asked ∧
      ∃ rpId, TouchedFor x i asked ∨ TouchedBefore x i asked rpId := by
  have hfinger : ((replay (watch (Phone.PromptActivity.next Phone.zeroDigest) touched) always
      (Phone.PromptActivity.start registeredStore [phone.id] false, []) fingerEvents).any
        signsChallenge) = true := by
    decide +kernel
  obtain ⟨x, hreplay, hsigns⟩ := (Option.any_eq_true ..).mp hfinger
  obtain ⟨s, hlogin, hpc⟩ : ∃ s : Pam.State,
      replay Pam.next always (Pam.authenticate myCall ⟨true, 0, ⟨0, none⟩⟩) myEvents = some s ∧
        s.pc = .returned pamSuccess := ⟨_, rfl, rfl⟩
  have hruns : ∀ s, ∀ e ∈ myEvents, Runs touchedWorld myCall s e := by
    rintro s e he helper byte rfl
    have hbyte : byte = yes := (by simpa [myEvents] using he : helper = 0 ∧ byte = yes).2
    exact ⟨hbyte, rfl⟩
  have hphones : ∀ _ : Unit, ∃ store keys unlockFirst,
      Reach (watch (Phone.PromptActivity.next Phone.zeroDigest) touched) always
        (Phone.PromptActivity.start store keys unlockFirst, []) x :=
    fun _ => ⟨_, _, _, reach_of_replay hreplay⟩
  have hauthentic : ∀ helper, ∀ e ∈ Function.update (fun _ => []) me [phone] me,
      Authentic Phone.zeroDigest (fun _ : Unit => x) (touchedWorld helper) e.credential := by
    intro helper e he
    obtain rfl : e = phone := by simpa using he
    exact touchedWorld_authentic hsigns helper
  obtain ⟨helper, -, -, e, he, hash, hhash, -, i, asked, ad, hby, rpId, -, htouch⟩ :=
    login_touched myCall_configured (fun _ => ⟨myKeys, myKeys_registered, rfl⟩) hphones hauthentic
      (reach_of_replay_of_forall hruns hlogin) hpc
  obtain rfl : e = phone := by simpa using he
  obtain rfl := Option.some.inj hhash
  exact ⟨s, x, hpc, i, asked, ad, hby, rpId, htouch⟩

end Passkey.Network

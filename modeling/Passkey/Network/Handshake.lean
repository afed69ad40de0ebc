import Passkey.Cli.Registrations
import Passkey.Daemon.Probes
import Passkey.Library.Progress
import Passkey.Network.Pairing
import Passkey.Phone.KeyService
import Passkey.Phone.WifiTransport

/-!
How a computer and a phone meet over Wi-Fi. The computer looks at the pin of
the certificate, then shows its secret; the phone greets it and both go on with
frames. TLS carries the bytes of each in order and in pieces of any size. At
the address may be the phone or anybody else.
-/

namespace Passkey.Network.Wifi

open Library

/-- `MAGIC` of the computer. -/
def MAGIC : Bytes :=
  "PASSKEY-WIFI-1\n".toList.map fun c => UInt8.ofNat c.toNat

/-! ### The two parties -/

inductive Failure where
  | io
  | permissionDenied (message : String)
  | invalidData (message : String)

/-- Where `connect` is. `write_all` and `read_exact` go on until all is written
or read. -/
inductive Connecting where
  | handshaking
  | sending (rest : Bytes)
  | acking (got : Bytes)
  | sizing (got : Bytes)
  | naming (size : Nat) (got : Bytes)
  | linked (label : Text)
  | failed (e : Failure)

/-- Where the phone's thread of the connection is. -/
inductive Accepting where
  | handshaking
  | reading (got : Bytes)
  | greeting (rest : Bytes)
  | serving
  | closed

def Accepting.isServing : Accepting → Bool
  | .serving => true
  | _ => false

inductive Server where
  | phone
  | other (certificate : Option Bytes)
  deriving DecidableEq

structure Meeting where
  peer : Peer
  /-- The digest of the phone's certificate. -/
  digest : Key
  /-- The phone's secret when it compares. -/
  secret : Key
  /-- `Build.MODEL`. -/
  model : Text
  server : Server

structure State where
  client : Connecting := .handshaking
  phone : Accepting := .handshaking
  /-- What the computer wrote, and of this what the phone read. -/
  sent : Bytes := []
  read : Bytes := []
  up : Bytes := []
  /-- What the phone wrote, and of this what the computer read. -/
  answered : Bytes := []
  heard : Bytes := []
  down : Bytes := []
  /-- What the link and `serve` wrote. -/
  talked : Bytes := []
  said : Bytes := []

/-! ### The computer -/

def Meeting.certificate (n : Meeting) : Option Bytes :=
  match n.server with
  | .phone => some n.digest.val
  | .other certificate => certificate

/-- The digest of the certificate is compared before anything is sent. -/
def Peer.check (peer : Peer) : Option Bytes → Connecting
  | none => .failed (.invalidData "missing phone certificate")
  | some digest =>
      if digest = peer.pin then .sending (MAGIC ++ peer.secret)
      else .failed (.permissionDenied "phone certificate does not match the pairing code")

namespace Connecting

/-- How many bytes the field has that is being read. -/
def need : Connecting → Nat
  | .acking _ => 5
  | .sizing _ => 2
  | .naming size _ => size
  | _ => 0

def got : Connecting → Bytes
  | .acking got | .sizing got | .naming _ got => got
  | _ => []

def keep (got : Bytes) : Connecting → Connecting
  | .acking _ => .acking got
  | .sizing _ => .sizing got
  | .naming size _ => .naming size got
  | c => c

def ack : Bytes := [0, 0, 0, 1, 0x22]

/-- The name of the link. -/
def display (label : Text) : Text :=
  label.filter (fun c => !Cli.isControl c) ++ " (Wi-Fi)".toList

/-- What follows when the field is whole. -/
def finish (got : Bytes) : Connecting → Connecting
  | .acking _ =>
      if got = ack then .sizing []
      else .failed (.invalidData "phone rejected Wi-Fi authentication")
  | .sizing _ =>
      let size := ofBigEndian got
      if 1 ≤ size && size ≤ 256 then .naming size []
      else .failed (.invalidData "invalid phone name length")
  | .naming _ _ =>
      match Daemon.Cbor.fromUtf8 got with
      | some label => .linked (display label)
      | none => .failed (.invalidData "invalid phone name")
  | c => c

def receive (c : Connecting) (bytes : Bytes) : Connecting :=
  let got := c.got ++ bytes
  if got.length < c.need then c.keep got else c.finish got

/-- `connect` has not returned. -/
def running : Connecting → Bool
  | .linked _ | .failed _ => false
  | _ => true

end Connecting

/-! ### The phone -/

def label (model : Text) : Bytes :=
  let label := Utf8.bytes model
  if label.length = 0 || label.length > 256 then Utf8.bytes "Android phone".toList else label

def greeting (model : Text) : Bytes :=
  bigEndian 4 1 ++ [Phone.KeyService.PONG] ++ bigEndian 2 (label model).length ++ label model

/-- What the computer has to show. -/
def Meeting.expected (n : Meeting) : Bytes :=
  Phone.WifiTransport.MAGIC ++ n.secret

def Meeting.verify (n : Meeting) (got : Bytes) : Accepting :=
  let size := Phone.WifiTransport.MAGIC.length
  if got.take size = Phone.WifiTransport.MAGIC ∧ got.drop size = n.secret then
    .greeting (greeting n.model)
  else .closed

inductive Event where
  /-- The computer: `connect`, and the link it returns. -/
  | handshake (ok : Bool)
  | send (k : Nat)
  | receive (k : Nat)
  | fail
  | talk (bytes : Bytes)
  | hear (k : Nat)
  /-- The phone: its thread, and `serve`. -/
  | accept (ok : Bool)
  | read (k : Nat)
  | write (k : Nat)
  | say (bytes : Bytes)
  | listen (k : Nat)
  | close
  /-- Somebody else. -/
  | inject (bytes : Bytes)

namespace State

def send (s : State) (k : Nat) : Option State :=
  match s.client with
  | .sending rest =>
      if 0 < k ∧ k ≤ rest.length then
        some {s with
          client := if k = rest.length then .acking [] else .sending (rest.drop k)
          sent := s.sent ++ rest.take k
          up := s.up ++ rest.take k}
      else none
  | _ => none

def hear (s : State) (k : Nat) : State :=
  {s with heard := s.heard ++ s.down.take k, down := s.down.drop k}

def listen (s : State) (k : Nat) : State :=
  {s with read := s.read ++ s.up.take k, up := s.up.drop k}

def receive (s : State) (k : Nat) : Option State :=
  if 0 < k ∧ s.client.got.length + k ≤ s.client.need ∧ k ≤ s.down.length then
    some {s.hear k with client := s.client.receive (s.down.take k)}
  else none

def talk (s : State) (bytes : Bytes) : Option State :=
  match s.client with
  | .linked _ =>
      some {s with sent := s.sent ++ bytes, up := s.up ++ bytes, talked := s.talked ++ bytes}
  | _ => none

def readFully (n : Meeting) (s : State) (k : Nat) : Option State :=
  match s.phone with
  | .reading got =>
      if 0 < k ∧ got.length + k ≤ n.expected.length ∧ k ≤ s.up.length then
        let got := got ++ s.up.take k
        some {s.listen k with
          phone := if got.length < n.expected.length then .reading got else n.verify got}
      else none
  | _ => none

def write (s : State) (k : Nat) : Option State :=
  match s.phone with
  | .greeting rest =>
      if 0 < k ∧ k ≤ rest.length then
        some {s with
          phone := if k = rest.length then .serving else .greeting (rest.drop k)
          answered := s.answered ++ rest.take k
          down := s.down ++ rest.take k}
      else none
  | _ => none

def say (s : State) (bytes : Bytes) : Option State :=
  match s.phone with
  | .serving =>
      some {s with
        answered := s.answered ++ bytes
        down := s.down ++ bytes
        said := s.said ++ bytes}
  | _ => none

def handshake (n : Meeting) (s : State) (ok : Bool) : Option State :=
  match s.client with
  | .handshaking =>
      some {s with client := if ok then n.peer.check n.certificate else .failed .io}
  | _ => none

def accept (s : State) (ok : Bool) : Option State :=
  match s.phone with
  | .handshaking => some {s with phone := if ok then .reading [] else .closed}
  | _ => none

end State

def next (n : Meeting) : Next State Event := fun s e =>
  match e with
  | .handshake ok => s.handshake n ok
  | .send k => s.send k
  | .receive k => s.receive k
  | .fail => if s.client.running then some {s with client := .failed .io} else none
  | .talk bytes => s.talk bytes
  | .hear k => if s.client.running then none else some (s.hear k)
  | .accept ok => if n.server = .phone then s.accept ok else none
  | .read k => if n.server = .phone then s.readFully n k else none
  | .write k => if n.server = .phone then s.write k else none
  | .say bytes => if n.server = .phone then s.say bytes else none
  | .listen k =>
      if n.server = .phone ∧ s.phone.isServing then some (s.listen k) else none
  | .close => if n.server = .phone then some {s with phone := .closed} else none
  | .inject bytes =>
      if n.server = .phone then none
      else some {s with answered := s.answered ++ bytes, down := s.down ++ bytes}

/-! ### The invariant -/

/-- What the computer shows. -/
def Meeting.hello (n : Meeting) : Bytes :=
  MAGIC ++ n.peer.secret

/-- The certificate has the pin. -/
def Meeting.Pinned (n : Meeting) : Prop :=
  n.certificate = some n.peer.pin.val

/-- What the computer has sent and heard, at each place of `connect`. -/
inductive Shown (n : Meeting) (sent heard talked : Bytes) : Connecting → Prop where
  | handshaking (hsent : sent = []) (hheard : heard = []) : Shown n sent heard talked .handshaking
  | sending {rest : Bytes} (hpin : n.Pinned) (hsent : sent ++ rest = n.hello) (hrest : rest ≠ [])
      (hheard : heard = []) : Shown n sent heard talked (.sending rest)
  | acking {got : Bytes} (hpin : n.Pinned) (hsent : sent = n.hello) (hheard : heard = got)
      (hgot : got.length < 5) : Shown n sent heard talked (.acking got)
  | sizing {got : Bytes} (hpin : n.Pinned) (hsent : sent = n.hello)
      (hheard : heard = Connecting.ack ++ got) (hgot : got.length < 2) :
      Shown n sent heard talked (.sizing got)
  | naming {size : Nat} {got length : Bytes} (hpin : n.Pinned) (hsent : sent = n.hello)
      (hheard : heard = Connecting.ack ++ length ++ got) (hlength : length.length = 2)
      (hsize : ofBigEndian length = size) (hgot : got.length < size) :
      Shown n sent heard talked (.naming size got)
  | linked {name length later : Bytes} {label : Text} (hpin : n.Pinned)
      (hsent : sent = n.hello ++ talked)
      (hheard : heard = Connecting.ack ++ length ++ name ++ later) (hlength : length.length = 2)
      (hsize : ofBigEndian length = name.length)
      (hlabel : Daemon.Cbor.fromUtf8 name = some label) :
      Shown n sent heard talked (.linked (Connecting.display label))
  | failed {e : Failure} (hsent : sent <+: n.hello) (hpin : sent ≠ [] → n.Pinned) :
      Shown n sent heard talked (.failed e)

/-- What the phone has read and written, at each place of its thread. -/
inductive Greeted (n : Meeting) (read answered said : Bytes) : Accepting → Prop where
  | handshaking (hread : read = []) (hanswered : answered = []) (hsaid : said = []) :
      Greeted n read answered said .handshaking
  | reading {got : Bytes} (hread : read = got) (hgot : got.length < n.expected.length)
      (hanswered : answered = []) (hsaid : said = []) : Greeted n read answered said (.reading got)
  | greeting {rest : Bytes} (hread : read = n.expected)
      (hanswered : answered ++ rest = greeting n.model) (hrest : rest ≠ []) (hsaid : said = []) :
      Greeted n read answered said (.greeting rest)
  | serving (hread : n.expected <+: read) (hanswered : answered = greeting n.model ++ said) :
      Greeted n read answered said .serving
  | closed (hread : answered ≠ [] → n.expected <+: read)
      (hanswered : answered <+: greeting n.model ∧ said = [] ∨
        answered = greeting n.model ++ said) : Greeted n read answered said .closed

structure Inv (n : Meeting) (s : State) : Prop where
  up : s.read ++ s.up = s.sent
  down : s.heard ++ s.down = s.answered
  client : Shown n s.sent s.heard s.talked s.client
  /-- The link writes once there is one. -/
  talked : (∀ label, s.client ≠ .linked label) → s.talked = []
  phone : n.server = .phone → Greeted n s.read s.answered s.said s.phone

theorem inv_start (n : Meeting) : Inv n {} :=
  ⟨rfl, rfl, .handshaking rfl rfl, fun _ => rfl, fun _ => .handshaking rfl rfl rfl⟩

theorem length_key (key : Key) : key.val.length = 32 :=
  key.2

theorem key_ne_nil (key : Key) : key.val ≠ [] := by
  intro hnil
  have hlength := length_key key
  rw [hnil] at hlength
  cases hlength

section Client

variable {n : Meeting} {sent heard talked : Bytes}

theorem shown_check (peer : Peer) (h : n.peer = peer) :
    Shown n [] [] talked (peer.check n.certificate) := by
  subst h
  unfold Peer.check
  split
  · exact .failed List.nil_prefix fun h => absurd rfl h
  · rename_i digest hcertificate
    split
    · rename_i hdigest
      refine .sending (hcertificate.trans (congrArg some hdigest)) rfl ?_ rfl
      exact List.append_ne_nil_of_right_ne_nil _ (key_ne_nil n.peer.secret)
    · exact .failed List.nil_prefix fun h => absurd rfl h

/-- A field that is whole. -/
theorem Shown.finish {c : Connecting} (h : Shown n sent heard [] c) {bytes : Bytes}
    (hbytes : 0 < bytes.length) (hlength : c.got.length + bytes.length = c.need) :
    Shown n sent (heard ++ bytes) [] (c.finish (c.got ++ bytes)) := by
  cases h with
  | @acking got hpin hsent hheard hgot =>
      unfold Connecting.finish
      dsimp only
      split
      · rename_i hack
        exact .sizing hpin hsent (by rw [hheard, ← hack, List.append_nil]; rfl) (by simp)
      · exact .failed (hsent ▸ List.prefix_rfl) fun _ => hpin
  | @sizing got hpin hsent hheard hgot =>
      unfold Connecting.finish
      dsimp only
      split
      · rename_i hsize
        simp only [Bool.and_eq_true, decide_eq_true_eq] at hsize
        refine .naming hpin hsent ?_ ?_ rfl hsize.1
        · rw [hheard, List.append_nil, List.append_assoc]
          rfl
        · rw [List.length_append]
          exact hlength
      · exact .failed (hsent ▸ List.prefix_rfl) fun _ => hpin
  | @naming size got length hpin hsent hheard hfield hsize hgot =>
      unfold Connecting.finish
      dsimp only
      split
      · rename_i label hlabel
        refine @Shown.linked n _ _ _ (got ++ bytes) length [] label hpin
          (by rw [hsent, List.append_nil]) ?_ hfield ?_ hlabel
        · rw [hheard, List.append_nil, List.append_assoc]
        · rw [hsize, List.length_append]
          exact hlength.symm
      · exact .failed (hsent ▸ List.prefix_rfl) fun _ => hpin
  | handshaking | sending | linked | failed =>
      simp only [Connecting.need] at hlength
      omega

/-- A field that is not whole yet. -/
theorem Shown.keep {c : Connecting} (h : Shown n sent heard talked c) {bytes : Bytes}
    (hlength : c.got.length + bytes.length < c.need) :
    Shown n sent (heard ++ bytes) talked (c.keep (c.got ++ bytes)) := by
  have hgot : (c.got ++ bytes).length < c.need := by
    rwa [List.length_append]
  cases h with
  | acking hpin hsent hheard _ => exact .acking hpin hsent (congrArg (· ++ bytes) hheard) hgot
  | sizing hpin hsent hheard _ =>
      refine .sizing hpin hsent ?_ hgot
      rw [hheard, List.append_assoc]
      rfl
  | naming hpin hsent hheard hfield hsize _ =>
      refine .naming hpin hsent ?_ hfield hsize hgot
      rw [hheard, List.append_assoc]
      rfl
  | handshaking | sending | linked | failed =>
      simp only [Connecting.need, Nat.not_lt_zero] at hlength

theorem Shown.receive {c : Connecting} (h : Shown n sent heard [] c) {bytes : Bytes}
    (hbytes : 0 < bytes.length) (hlength : c.got.length + bytes.length ≤ c.need) :
    Shown n sent (heard ++ bytes) [] (c.receive bytes) := by
  unfold Connecting.receive
  dsimp only
  split
  · rename_i hshort
    exact h.keep (by rwa [List.length_append] at hshort)
  · rename_i hwhole
    rw [List.length_append] at hwhole
    exact h.finish hbytes (by omega)

/-- What is sent at any time before the link. -/
theorem Shown.sent_prefix {c : Connecting} (h : Shown n sent heard talked c)
    (hrunning : c.running = true) : sent <+: n.hello ∧ (sent ≠ [] → n.Pinned) := by
  cases h with
  | handshaking hsent => exact ⟨hsent ▸ List.nil_prefix, fun h => absurd hsent h⟩
  | sending hpin hsent => exact ⟨⟨_, hsent⟩, fun _ => hpin⟩
  | acking hpin hsent | sizing hpin hsent | naming hpin hsent =>
      exact ⟨hsent ▸ List.prefix_rfl, fun _ => hpin⟩
  | linked | failed => cases hrunning

end Client

section Phone

variable {n : Meeting} {taken answered said : Bytes}

/-- The phone goes on only if it read what it expects. -/
theorem verify_cases (n : Meeting) (got : Bytes) :
    got = n.expected ∧ n.verify got = .greeting (greeting n.model) ∨
      got ≠ n.expected ∧ n.verify got = .closed := by
  unfold Meeting.verify
  dsimp only
  split
  · rename_i hequal
    refine .inl ⟨?_, rfl⟩
    exact (List.take_append_drop _ got).symm.trans (congrArg₂ _ hequal.1 hequal.2)
  · rename_i hother
    refine .inr ⟨?_, rfl⟩
    rintro rfl
    exact hother ⟨List.take_left, List.drop_left⟩

theorem greeting_ne_nil (model : Text) : greeting model ≠ [] := by
  simp [greeting]

theorem Greeted.read {got : Bytes} (h : Greeted n taken answered said (.reading got))
    (bytes : Bytes) :
    Greeted n (taken ++ bytes) answered said
      (if (got ++ bytes).length < n.expected.length then .reading (got ++ bytes)
        else n.verify (got ++ bytes)) := by
  cases h with
  | reading hread hgot hanswered hsaid =>
      have hmore : taken ++ bytes = got ++ bytes := congrArg (· ++ bytes) hread
      split
      · rename_i hshort
        exact .reading hmore hshort hanswered hsaid
      · rcases verify_cases n (got ++ bytes) with ⟨hequal, hverify⟩ | ⟨-, hverify⟩
        · rw [hverify]
          exact .greeting (hmore.trans hequal) (by rw [hanswered]; rfl) (greeting_ne_nil _) hsaid
        · rw [hverify]
          exact .closed (fun h => absurd hanswered h) (.inl ⟨hanswered ▸ List.nil_prefix, hsaid⟩)

theorem Greeted.write {rest : Bytes} (h : Greeted n taken answered said (.greeting rest)) {k : Nat}
    (hk : k ≤ rest.length) :
    Greeted n taken (answered ++ rest.take k) said
      (if k = rest.length then .serving else .greeting (rest.drop k)) := by
  cases h with
  | greeting hread hanswered hrest hsaid =>
      split
      · rename_i hwhole
        refine .serving (hread ▸ List.prefix_rfl) ?_
        rw [hwhole, List.take_length, hanswered, hsaid, List.append_nil]
      · rename_i hshort
        refine .greeting hread ?_ ?_ hsaid
        · rw [List.append_assoc, List.take_append_drop, hanswered]
        · intro hnil
          have hlength := congrArg List.length hnil
          simp only [List.length_drop, List.length_nil] at hlength
          omega

/-- What holds wherever the phone's thread is. -/
theorem Greeted.close {c : Accepting} (h : Greeted n taken answered said c) :
    (answered ≠ [] → n.expected <+: taken) ∧
      (answered <+: Wifi.greeting n.model ∧ said = [] ∨
        answered = Wifi.greeting n.model ++ said) := by
  cases h with
  | handshaking hread hanswered hsaid =>
      exact ⟨fun h => absurd hanswered h, .inl ⟨hanswered ▸ List.nil_prefix, hsaid⟩⟩
  | reading hread hgot hanswered hsaid =>
      exact ⟨fun h => absurd hanswered h, .inl ⟨hanswered ▸ List.nil_prefix, hsaid⟩⟩
  | greeting hread hanswered hrest hsaid =>
      exact ⟨fun _ => hread ▸ List.prefix_rfl, .inl ⟨⟨_, hanswered⟩, hsaid⟩⟩
  | serving hread hanswered => exact ⟨fun _ => hread, .inr hanswered⟩
  | closed hread hanswered => exact ⟨hread, hanswered⟩

end Phone

/-! ### The steps -/

theorem hear_down {s : State} (h : s.heard ++ s.down = s.answered) (k : Nat) :
    (s.hear k).heard ++ (s.hear k).down = s.answered := by
  change s.heard ++ s.down.take k ++ s.down.drop k = _
  rw [List.append_assoc, List.take_append_drop, h]

theorem listen_up {s : State} (h : s.read ++ s.up = s.sent) (k : Nat) :
    (s.listen k).read ++ (s.listen k).up = s.sent := by
  change s.read ++ s.up.take k ++ s.up.drop k = _
  rw [List.append_assoc, List.take_append_drop, h]

/-- A step of the computer that the phone does not see yet. -/
theorem Inv.ofClient {n : Meeting} {s : State} (h : Inv n s) {c : Connecting}
    (hrunning : s.client.running = true) (hc : Shown n s.sent s.heard s.talked c) :
    Inv n {s with client := c} := by
  refine ⟨h.up, h.down, hc, fun _ => h.talked fun label hlabel => ?_, h.phone⟩
  rw [hlabel] at hrunning
  cases hrunning

theorem Inv.unlinked {n : Meeting} {s : State} (h : Inv n s) (hrunning : s.client.running = true) :
    s.talked = [] := by
  refine h.talked fun label hlabel => ?_
  rw [hlabel] at hrunning
  cases hrunning

theorem Inv.send {n : Meeting} {s t : State} {k : Nat} (h : Inv n s) (hsend : s.send k = some t) :
    Inv n t := by
  unfold State.send at hsend
  split at hsend
  · rename_i rest hclient
    obtain ⟨⟨hpositive, hk⟩, heq⟩ := Option.ite_none_right_eq_some.mp hsend
    cases heq
    have hshown := h.client
    rw [hclient] at hshown
    refine ⟨?_, h.down, ?_, fun _ => h.unlinked (by rw [hclient]; rfl), h.phone⟩
    · rw [← List.append_assoc, h.up]
    · cases hshown with
      | sending hpin hsent hrest hheard =>
          split
          · rename_i hwhole
            rw [hwhole, List.take_length]
            exact .acking hpin hsent hheard (by simp)
          · rename_i hshort
            refine .sending hpin ?_ ?_ hheard
            · rw [List.append_assoc, List.take_append_drop, hsent]
            · intro hnil
              have hlength := congrArg List.length hnil
              simp only [List.length_drop, List.length_nil] at hlength
              omega
  · cases hsend

theorem Inv.receive {n : Meeting} {s t : State} {k : Nat} (h : Inv n s)
    (hreceive : s.receive k = some t) : Inv n t := by
  obtain ⟨⟨hpositive, hneed, hk⟩, heq⟩ := Option.ite_none_right_eq_some.mp hreceive
  cases heq
  have hrunning : s.client.running = true := by
    cases hclient : s.client with
    | linked label | failed e =>
        rw [hclient] at hneed
        simp only [Connecting.need] at hneed
        omega
    | _ => rfl
  have hlength : (s.down.take k).length = k := by
    rw [List.length_take]
    omega
  have htalked := h.unlinked hrunning
  have hshown := h.client
  rw [htalked] at hshown
  refine ⟨h.up, hear_down h.down k, ?_, fun _ => htalked, h.phone⟩
  change Shown n s.sent (s.heard ++ s.down.take k) s.talked _
  rw [htalked]
  exact hshown.receive (by omega) (by omega)

theorem Shown.heard {n : Meeting} {sent heard talked : Bytes} {c : Connecting}
    (h : Shown n sent heard talked c) (hrunning : c.running = false) (more : Bytes) :
    Shown n sent (heard ++ more) talked c := by
  cases h with
  | @linked name length later label hpin hsent hheard hlength hsize hlabel =>
      refine @Shown.linked n _ _ _ name length (later ++ more) label hpin hsent ?_ hlength hsize
        hlabel
      rw [hheard, List.append_assoc]
  | failed hsent hpin => exact .failed hsent hpin
  | handshaking | sending | acking | sizing | naming => cases hrunning

theorem Shown.talk {n : Meeting} {sent heard talked : Bytes} {label : Text}
    (h : Shown n sent heard talked (.linked label)) (bytes : Bytes) :
    Shown n (sent ++ bytes) heard (talked ++ bytes) (.linked label) := by
  cases h with
  | linked hpin hsent hheard hlength hsize hlabel =>
      refine .linked hpin ?_ hheard hlength hsize hlabel
      rw [hsent, List.append_assoc]

theorem Greeted.say {n : Meeting} {taken answered said : Bytes}
    (h : Greeted n taken answered said .serving) (bytes : Bytes) :
    Greeted n taken (answered ++ bytes) (said ++ bytes) .serving := by
  cases h with
  | serving hread hanswered =>
      refine .serving hread ?_
      rw [hanswered, List.append_assoc]

theorem Greeted.listen {n : Meeting} {taken answered said : Bytes}
    (h : Greeted n taken answered said .serving) (bytes : Bytes) :
    Greeted n (taken ++ bytes) answered said .serving := by
  cases h with
  | serving hread hanswered => exact .serving (hread.trans (List.prefix_append ..)) hanswered

theorem Inv.next {n : Meeting} {s t : State} {e : Event} (h : Inv n s)
    (hnext : next n s e = some t) : Inv n t := by
  cases e with
  | handshake ok =>
      simp only [Wifi.next, State.handshake] at hnext
      split at hnext
      · rename_i hclient
        cases hnext
        have hshown := h.client
        have htalked := h.unlinked (by rw [hclient]; rfl)
        rw [hclient] at hshown
        refine h.ofClient (by rw [hclient]; rfl) ?_
        cases hshown with
        | handshaking hsent hheard =>
            rw [hsent, hheard]
            split
            · exact shown_check n.peer rfl
            · exact .failed List.nil_prefix fun h => absurd rfl h
      · cases hnext
  | send k => exact h.send hnext
  | receive k => exact h.receive hnext
  | fail =>
      obtain ⟨hrunning, heq⟩ := Option.ite_none_right_eq_some.mp hnext
      cases heq
      obtain ⟨hsent, hpin⟩ := h.client.sent_prefix hrunning
      exact h.ofClient hrunning (.failed hsent hpin)
  | talk bytes =>
      simp only [Wifi.next, State.talk] at hnext
      split at hnext
      · rename_i label hclient
        cases hnext
        have hshown := h.client
        rw [hclient] at hshown
        refine ⟨?_, h.down, hclient ▸ hshown.talk bytes, fun hne => absurd hclient (hne label),
          h.phone⟩
        rw [← List.append_assoc, h.up]
      · cases hnext
  | hear k =>
      obtain ⟨hlinked, heq⟩ := Option.ite_none_left_eq_some.mp hnext
      cases heq
      exact ⟨h.up, hear_down h.down k, h.client.heard (Bool.eq_false_iff.mpr hlinked) _, h.talked,
        h.phone⟩
  | accept ok =>
      obtain ⟨hphone, heq⟩ := Option.ite_none_right_eq_some.mp hnext
      unfold State.accept at heq
      split at heq
      · rename_i hplace
        cases heq
        have hgreeted := h.phone hphone
        rw [hplace] at hgreeted
        refine ⟨h.up, h.down, h.client, h.talked, fun _ => ?_⟩
        cases hgreeted with
        | handshaking hread hanswered hsaid =>
            split
            · refine .reading hread ?_ hanswered hsaid
              have hsecret := length_key n.secret
              rw [Meeting.expected, List.length_append, List.length_nil]
              omega
            · exact .closed (fun h => absurd hanswered h)
                (.inl ⟨hanswered ▸ List.nil_prefix, hsaid⟩)
      · cases heq
  | read k =>
      obtain ⟨hphone, heq⟩ := Option.ite_none_right_eq_some.mp hnext
      unfold State.readFully at heq
      split at heq
      · rename_i got hplace
        obtain ⟨-, heq⟩ := Option.ite_none_right_eq_some.mp heq
        cases heq
        have hgreeted := h.phone hphone
        rw [hplace] at hgreeted
        exact ⟨listen_up h.up k, h.down, h.client, h.talked, fun _ => hgreeted.read _⟩
      · cases heq
  | write k =>
      obtain ⟨hphone, heq⟩ := Option.ite_none_right_eq_some.mp hnext
      unfold State.write at heq
      split at heq
      · rename_i rest hplace
        obtain ⟨⟨-, hk⟩, heq⟩ := Option.ite_none_right_eq_some.mp heq
        cases heq
        have hgreeted := h.phone hphone
        rw [hplace] at hgreeted
        refine ⟨h.up, ?_, h.client, h.talked, fun _ => hgreeted.write hk⟩
        rw [← List.append_assoc, h.down]
      · cases heq
  | say bytes =>
      obtain ⟨hphone, heq⟩ := Option.ite_none_right_eq_some.mp hnext
      unfold State.say at heq
      split at heq
      · rename_i hplace
        cases heq
        have hgreeted := h.phone hphone
        rw [hplace] at hgreeted
        refine ⟨h.up, ?_, h.client, h.talked, fun _ => hplace ▸ hgreeted.say bytes⟩
        rw [← List.append_assoc, h.down]
      · cases heq
  | listen k =>
      obtain ⟨⟨hphone, hserving⟩, heq⟩ := Option.ite_none_right_eq_some.mp hnext
      cases heq
      have hgreeted := h.phone hphone
      refine ⟨listen_up h.up k, h.down, h.client, h.talked, fun _ => ?_⟩
      unfold Accepting.isServing at hserving
      split at hserving
      · rename_i hplace
        rw [hplace] at hgreeted
        exact hplace ▸ hgreeted.listen _
      · cases hserving
  | close =>
      obtain ⟨hphone, heq⟩ := Option.ite_none_right_eq_some.mp hnext
      cases heq
      have hclose := (h.phone hphone).close
      exact ⟨h.up, h.down, h.client, h.talked, fun _ => .closed hclose.1 hclose.2⟩
  | inject bytes =>
      obtain ⟨hother, heq⟩ := Option.ite_none_left_eq_some.mp hnext
      cases heq
      refine ⟨h.up, ?_, h.client, h.talked, fun hphone => absurd hphone hother⟩
      rw [← List.append_assoc, h.down]

theorem inv_reachable {n : Meeting} {s : State} (h : Reach (next n) always {} s) : Inv n s :=
  h.invariant (inv_start n) fun _ _ _ ht _ hnext => ht.next hnext

/-! ### What the phone says -/

/-- The name that the phone gives itself. -/
def name (model : Text) : Text :=
  if (Utf8.bytes model).length = 0 || (Utf8.bytes model).length > 256 then "Android phone".toList
  else model

theorem label_eq (model : Text) : label model = Utf8.bytes (name model) := by
  unfold label name
  dsimp only
  split <;> rfl

theorem length_label (model : Text) :
    1 ≤ (label model).length ∧ (label model).length ≤ 256 := by
  unfold label
  dsimp only
  split
  · have hlength : (Utf8.bytes "Android phone".toList).length = 13 :=
      Utf8.length_bytes (Cli.forall_of_all (by decide))
    omega
  · rename_i hfits
    simp only [Bool.or_eq_true, decide_eq_true_eq, not_or, Nat.not_lt] at hfits
    omega

theorem fromUtf8_label (model : Text) :
    Daemon.Cbor.fromUtf8 (label model) = some (name model) := by
  rw [label_eq]
  exact Daemon.Cbor.fromUtf8_utf8 (name model)

theorem greeting_eq (model : Text) :
    greeting model = Connecting.ack ++ bigEndian 2 (label model).length ++ label model :=
  rfl

theorem ofBigEndian_label (model : Text) :
    ofBigEndian (bigEndian 2 (label model).length) = (label model).length :=
  ofBigEndian_bigEndian (by
    have hlength := length_label model
    omega)

/-- All that the computer hears of the phone. -/
theorem Inv.heard_prefix {n : Meeting} {s : State} (h : Inv n s) (hphone : n.server = .phone) :
    s.heard <+: greeting n.model ++ s.said := by
  have hheard : s.heard <+: s.answered := ⟨_, h.down⟩
  rcases (h.phone hphone).close.2 with ⟨hbegins, hsaid⟩ | hwhole
  · rw [hsaid, List.append_nil]
    exact hheard.trans hbegins
  · exact hwhole ▸ hheard

theorem eq_of_prefixes {l l' m : Bytes} (h : l <+: m) (h' : l' <+: m)
    (hlength : l.length = l'.length) : l = l' :=
  (List.prefix_of_prefix_length_le h h' hlength.le).eq_of_length hlength

/-- The fields that the computer reads are those that the phone wrote. -/
theorem heard_fields {model : Text} {said length bytes : Bytes} (hlength : length.length = 2)
    (h : Connecting.ack ++ length ++ bytes <+: greeting model ++ said) :
    length = bigEndian 2 (label model).length ∧ bytes <+: label model ++ said := by
  rw [greeting_eq, List.append_assoc, List.append_assoc, List.append_assoc,
    List.prefix_append_right_inj] at h
  have hfield : length = bigEndian 2 (label model).length :=
    eq_of_prefixes ((List.prefix_append ..).trans h) (List.prefix_append ..)
      (by rw [hlength, length_bigEndian])
  rw [hfield, List.prefix_append_right_inj] at h
  exact ⟨hfield, h⟩

/-- A field of the phone is never refused. -/
theorem Shown.accepted {n : Meeting} {sent heard said : Bytes} {c : Connecting} {bytes : Bytes}
    (h : Shown n sent heard [] c) (hbegins : heard ++ bytes <+: greeting n.model ++ said)
    (hrunning : c.running = true) (hbytes : 0 < bytes.length)
    (hneed : c.got.length + bytes.length ≤ c.need) (e : Failure) :
    c.receive bytes ≠ .failed e := by
  unfold Connecting.receive
  dsimp only
  split
  · cases h with
    | failed => cases hrunning
    | _ => simp [Connecting.keep]
  · rename_i hwhole
    rw [List.length_append] at hwhole
    cases h with
    | @acking got hpin hsent hheard hgot =>
        have hack : got ++ bytes = Connecting.ack := by
          refine eq_of_prefixes (hheard ▸ hbegins) ?_ ?_
          · rw [greeting_eq, List.append_assoc, List.append_assoc]
            exact List.prefix_append ..
          · rw [List.length_append]
            exact le_antisymm hneed (Nat.not_lt.mp hwhole)
        simp [Connecting.finish, Connecting.got, hack]
    | @sizing got hpin hsent hheard hgot =>
        have hlength : (got ++ bytes).length = 2 := by
          rw [List.length_append]
          exact le_antisymm hneed (Nat.not_lt.mp hwhole)
        rw [hheard, List.append_assoc, ← List.append_nil (got ++ bytes), ← List.append_assoc]
          at hbegins
        have hfield := (heard_fields hlength hbegins).1
        have hbounds := length_label n.model
        have hsize := ofBigEndian_label n.model
        simp [Connecting.finish, Connecting.got, hfield, hsize, hbounds]
    | @naming size got length hpin hsent hheard hfield hsize hgot =>
        rw [hheard, List.append_assoc] at hbegins
        obtain ⟨rfl, hname⟩ := heard_fields hfield hbegins
        rw [ofBigEndian_label] at hsize
        have hlabel : got ++ bytes = label n.model := by
          refine eq_of_prefixes hname (List.prefix_append ..) ?_
          rw [List.length_append, hsize]
          exact le_antisymm hneed (Nat.not_lt.mp hwhole)
        simp [Connecting.finish, Connecting.got, hlabel, fromUtf8_label]
    | handshaking | sending =>
        simp only [Connecting.need] at hneed
        omega
    | linked | failed => cases hrunning

/-! ### The law -/

structure HandshakeLaw (n : Meeting) (s : State) : Prop where
  /-- Who does not have the pin gets nothing from the computer, and no link. -/
  sealed : ¬ n.Pinned → s.sent = [] ∧ ∀ label, s.client ≠ .linked label
  offered : (∀ label, s.client ≠ .linked label) → s.sent <+: n.hello
  /-- The link begins where the frames of `serve` do. -/
  linked : n.server = .phone → ∀ label, s.client = .linked label →
    n.peer.pin = n.digest ∧ n.peer.secret = n.secret ∧
      label = Connecting.display (name n.model) ∧
      ∃ later, s.heard = greeting n.model ++ later ∧ later <+: s.said
  served : n.server = .phone → s.phone = .serving →
    n.peer.pin = n.digest ∧ n.peer.secret = n.secret ∧
      ∃ later, s.read = n.hello ++ later ∧ later <+: s.talked
  /-- With the phone it fails because of the pin, or as any connection may. -/
  failed : n.server = .phone → ∀ e, s.client = .failed e →
    (∃ message, e = .permissionDenied message) ∧ n.peer.pin ≠ n.digest ∨ e = .io
  /-- Otherwise the two can always go on until they are linked. -/
  meets : n.server = .phone → n.peer.pin = n.digest → n.peer.secret = n.secret →
    (∀ e, s.client ≠ .failed e) → s.phone ≠ .closed →
    ∃ t label, Reach (next n) always s t ∧ t.client = .linked label ∧ t.phone = .serving

section Law

variable {n : Meeting} {s : State}

/-- What was sent needed the pin. -/
theorem Inv.pinned (h : Inv n s) (hsent : s.sent ≠ []) : n.Pinned := by
  cases hclient : s.client with
  | linked label =>
      have hshown := h.client
      rw [hclient] at hshown
      cases hshown with
      | linked hpin => exact hpin
  | failed e =>
      have hshown := h.client
      rw [hclient] at hshown
      cases hshown with
      | failed _ hpin => exact hpin hsent
  | _ => exact (h.client.sent_prefix (by rw [hclient]; rfl)).2 hsent

theorem Inv.offered (h : Inv n s) : s.sent <+: n.hello ++ s.talked := by
  cases hclient : s.client with
  | linked label =>
      have hshown := h.client
      rw [hclient] at hshown
      cases hshown with
      | linked hpin hsent => exact hsent ▸ List.prefix_rfl
  | failed e =>
      have hshown := h.client
      rw [hclient] at hshown
      cases hshown with
      | failed hsent => exact hsent.trans (List.prefix_append ..)
  | _ =>
      have hsent := (h.client.sent_prefix (by rw [hclient]; rfl)).1
      exact hsent.trans (List.prefix_append ..)

theorem pin_of_pinned (hphone : n.server = .phone) : n.Pinned ↔ n.peer.pin = n.digest := by
  unfold Meeting.Pinned Meeting.certificate
  rw [hphone]
  change some n.digest.val = some n.peer.pin.val ↔ _
  rw [Option.some.injEq, Subtype.coe_inj]
  exact eq_comm

theorem length_expected (n : Meeting) : n.expected.length = n.hello.length := by
  rw [Meeting.expected, Meeting.hello, List.length_append, List.length_append, length_key,
    length_key]
  rfl

/-- Where the phone read what it expects, that is what the computer has. -/
theorem Inv.matched (h : Inv n s) (hphone : n.server = .phone) (hread : n.expected <+: s.read) :
    n.peer.pin = n.digest ∧ n.peer.secret = n.secret ∧
      ∃ later, s.read = n.hello ++ later ∧ later <+: s.talked := by
  have hsent : s.read <+: n.hello ++ s.talked :=
    List.IsPrefix.trans ⟨_, h.up⟩ h.offered
  have hequal : n.expected = n.hello :=
    eq_of_prefixes (hread.trans hsent) (List.prefix_append ..) (length_expected n)
  have hsecret : n.secret = n.peer.secret := Subtype.ext (List.append_cancel_left hequal)
  obtain ⟨later, hlater⟩ := hread
  refine ⟨(pin_of_pinned hphone).mp (h.pinned fun hnil => ?_), hsecret.symm, later, ?_, ?_⟩
  · have hup := h.up
    rw [hnil, List.append_eq_nil_iff] at hup
    rw [hup.1] at hlater
    exact key_ne_nil n.secret (List.append_eq_nil_iff.mp (List.append_eq_nil_iff.mp hlater).1).2
  · rw [← hlater, hequal]
  · rw [← hlater, hequal, List.prefix_append_right_inj] at hsent
    exact hsent

theorem Inv.linked (h : Inv n s) (hphone : n.server = .phone) {label : Text}
    (hlinked : s.client = .linked label) :
    n.peer.pin = n.digest ∧ n.peer.secret = n.secret ∧
      label = Connecting.display (name n.model) ∧
      ∃ later, s.heard = greeting n.model ++ later ∧ later <+: s.said := by
  have hshown := h.client
  have hbegins := h.heard_prefix hphone
  rw [hlinked] at hshown
  cases hshown with
  | @linked bytes length later label hpin hsent hheard hlength hsize hlabel =>
      rw [hheard, List.append_assoc] at hbegins
      obtain ⟨rfl, hname⟩ := heard_fields hlength hbegins
      rw [ofBigEndian_label] at hsize
      have hbytes : bytes = Wifi.label n.model :=
        eq_of_prefixes ((List.prefix_append ..).trans hname) (List.prefix_append ..) hsize.symm
      rw [hbytes, fromUtf8_label, Option.some.injEq] at hlabel
      have hanswered : s.answered ≠ [] := by
        intro hnil
        have hdown := h.down
        rw [hnil, List.append_eq_nil_iff, hheard] at hdown
        simp [Connecting.ack] at hdown
      obtain ⟨hpins, hsecret, -⟩ := h.matched hphone ((h.phone hphone).close.1 hanswered)
      refine ⟨hpins, hsecret, by rw [hlabel], later, ?_, ?_⟩
      · rw [hheard, hbytes, greeting_eq]
      · rw [hbytes, List.prefix_append_right_inj] at hname
        exact hname

/-- What the phone says never makes `connect` fail. -/
def Fair (n : Meeting) (s : State) : Prop :=
  n.server = .phone → ∀ e, s.client = .failed e →
    (∃ message, e = .permissionDenied message) ∧ n.peer.pin ≠ n.digest ∨ e = .io

theorem Fair.keep {t : State} (h : Fair n s) (hclient : t.client = s.client) : Fair n t :=
  fun hphone e he => h hphone e (hclient ▸ he)

theorem Fair.next {t : State} {e : Event} (h : Fair n s) (hinv : Inv n s)
    (hnext : next n s e = some t) : Fair n t := by
  cases e with
  | handshake ok =>
      simp only [Wifi.next, State.handshake] at hnext
      split at hnext
      · cases hnext
        intro hphone e he
        cases ok with
        | false => exact .inr (Connecting.failed.inj he).symm
        | true =>
            have hcertificate : n.certificate = some n.digest.val := by
              rw [Meeting.certificate, hphone]
            change n.peer.check n.certificate = .failed e at he
            rw [hcertificate] at he
            unfold Peer.check at he
            dsimp only at he
            split at he
            · cases he
            · rename_i hpin
              exact .inl ⟨⟨_, (Connecting.failed.inj he).symm⟩, fun heq => hpin (by rw [heq])⟩
      · cases hnext
  | send k =>
      simp only [Wifi.next, State.send] at hnext
      split at hnext
      · obtain ⟨-, heq⟩ := Option.ite_none_right_eq_some.mp hnext
        cases heq
        intro hphone e he
        change (if _ then _ else _) = _ at he
        split at he <;> cases he
      · cases hnext
  | receive k =>
      intro hphone e he
      have hinv' := hinv.next hnext
      obtain ⟨⟨hpositive, hneed, hk⟩, heq⟩ := Option.ite_none_right_eq_some.mp hnext
      cases heq
      have hlength : (s.down.take k).length = k := by
        rw [List.length_take]
        omega
      have hrunning : s.client.running = true := by
        cases hclient : s.client with
        | linked label | failed e =>
            rw [hclient] at hneed
            simp only [Connecting.need] at hneed
            omega
        | _ => rfl
      have hshown := hinv.client
      rw [hinv.unlinked hrunning] at hshown
      exact absurd he
        (hshown.accepted (hinv'.heard_prefix hphone) hrunning (by omega) (by omega) e)
  | fail =>
      obtain ⟨-, heq⟩ := Option.ite_none_right_eq_some.mp hnext
      cases heq
      exact fun _ e he => .inr (Connecting.failed.inj he).symm
  | talk bytes =>
      simp only [Wifi.next, State.talk] at hnext
      split at hnext
      · cases hnext
        exact h.keep rfl
      · cases hnext
  | hear k =>
      obtain ⟨-, heq⟩ := Option.ite_none_left_eq_some.mp hnext
      cases heq
      exact h.keep rfl
  | accept ok =>
      simp only [Wifi.next, State.accept, Option.ite_none_right_eq_some] at hnext
      obtain ⟨-, heq⟩ := hnext
      split at heq
      · cases heq
        exact h.keep rfl
      · cases heq
  | read k =>
      simp only [Wifi.next, State.readFully, Option.ite_none_right_eq_some] at hnext
      obtain ⟨-, heq⟩ := hnext
      split at heq
      · obtain ⟨-, heq⟩ := Option.ite_none_right_eq_some.mp heq
        cases heq
        exact h.keep rfl
      · cases heq
  | write k =>
      simp only [Wifi.next, State.write, Option.ite_none_right_eq_some] at hnext
      obtain ⟨-, heq⟩ := hnext
      split at heq
      · obtain ⟨-, heq⟩ := Option.ite_none_right_eq_some.mp heq
        cases heq
        exact h.keep rfl
      · cases heq
  | say bytes =>
      simp only [Wifi.next, State.say, Option.ite_none_right_eq_some] at hnext
      obtain ⟨-, heq⟩ := hnext
      split at heq
      · cases heq
        exact h.keep rfl
      · cases heq
  | listen k | close =>
      obtain ⟨-, heq⟩ := Option.ite_none_right_eq_some.mp hnext
      cases heq
      exact h.keep rfl
  | inject bytes =>
      obtain ⟨-, heq⟩ := Option.ite_none_left_eq_some.mp hnext
      cases heq
      exact h.keep rfl

end Law

/-! ### Both go on -/

/-- Neither side gave up. -/
structure Going (n : Meeting) (s : State) : Prop where
  inv : Inv n s
  client : ∀ e, s.client ≠ .failed e
  phone : s.phone ≠ .closed

def Connecting.pending : Connecting → Nat
  | .handshaking => 1
  | _ => 0

def Accepting.pending : Accepting → Nat
  | .handshaking => 1
  | _ => 0

/-- The handshakes and bytes that are missing. -/
def missing (n : Meeting) (s : State) : Nat :=
  s.client.pending + s.phone.pending + (n.hello.length - s.sent.length) +
    (n.hello.length - s.read.length) + ((greeting n.model).length - s.answered.length) +
    ((greeting n.model).length - s.heard.length)

/-- A step that brings the two closer to a link. -/
def Nearer (n : Meeting) (s : State) : Prop :=
  ∃ e t, always s e ∧ next n s e = some t ∧ Going n t ∧ missing n t < missing n s

section Progress

variable {n : Meeting} {s : State}

theorem nearer_handshake (h : Going n s) (hpin : n.Pinned) (hclient : s.client = .handshaking) :
    Nearer n s := by
  have hcheck : n.peer.check n.certificate = .sending n.hello := by
    rw [Meeting.Pinned] at hpin
    rw [hpin]
    exact if_pos rfl
  have hnext : next n s (.handshake true) = some {s with client := .sending n.hello} := by
    simp [next, State.handshake, hclient, hcheck]
  refine ⟨_, _, trivial, hnext, ⟨h.inv.next hnext, by simp, h.phone⟩, ?_⟩
  simp [missing, Connecting.pending, hclient]

theorem nearer_send (h : Going n s) {rest : Bytes} (hclient : s.client = .sending rest) :
    Nearer n s := by
  have hshown := h.inv.client
  rw [hclient] at hshown
  cases hshown with
  | sending hpin hsent hrest hheard =>
      have hpositive : 0 < rest.length := List.length_pos_iff.mpr hrest
      have hnext : next n s (.send rest.length) = some {s with
          client := .acking []
          sent := s.sent ++ rest
          up := s.up ++ rest} := by
        simp [next, State.send, hclient, hpositive]
      refine ⟨_, _, trivial, hnext, ⟨h.inv.next hnext, by simp, h.phone⟩, ?_⟩
      have hlength := congrArg List.length hsent
      rw [List.length_append] at hlength
      simp only [missing, Connecting.pending, hclient, List.length_append]
      omega

theorem nearer_accept (h : Going n s) (hphone : n.server = .phone)
    (hplace : s.phone = .handshaking) : Nearer n s := by
  have hnext : next n s (.accept true) = some {s with phone := .reading []} := by
    simp [next, State.accept, hphone, hplace]
  refine ⟨_, _, trivial, hnext, ⟨h.inv.next hnext, h.client, by simp⟩, ?_⟩
  simp only [missing, Accepting.pending, hplace]
  omega

theorem nearer_read (h : Going n s) (hphone : n.server = .phone)
    (hsecret : n.expected = n.hello) {got : Bytes} (hplace : s.phone = .reading got)
    (hsent : n.hello <+: s.sent) : Nearer n s := by
  have hgreeted := h.inv.phone hphone
  rw [hplace] at hgreeted
  cases hgreeted with
  | reading hread hgot hanswered hsaid =>
      have hup := h.inv.up
      have hlengths := congrArg List.length hup
      have hall := hsent.length_le
      rw [List.length_append, hread] at hlengths
      rw [hsecret] at hgot
      obtain ⟨k, hk⟩ : ∃ k, n.hello.length = got.length + k :=
        ⟨_, (Nat.add_sub_cancel' hgot.le).symm⟩
      have htaken : (s.up.take k).length = k := by
        rw [List.length_take]
        omega
      have hwhole : got ++ s.up.take k = n.expected := by
        rw [hsecret]
        refine eq_of_prefixes ?_ hsent (by rw [List.length_append, htaken, hk])
        rw [← hup, hread, List.prefix_append_right_inj]
        exact List.take_prefix ..
      have hnext : next n s (.read k) =
          some {s.listen k with phone := .greeting (greeting n.model)} := by
        have hverify : n.verify n.expected = .greeting (greeting n.model) :=
          (verify_cases n n.expected).resolve_right (fun h => h.1 rfl) |>.2
        have hbounds : 0 < k ∧ got.length + k ≤ n.expected.length ∧ k ≤ s.up.length := by
          rw [hsecret]
          omega
        simp [next, State.readFully, hphone, hplace, hbounds, hwhole, hverify]
      refine ⟨_, _, trivial, hnext, ⟨h.inv.next hnext, h.client, by simp⟩, ?_⟩
      simp only [missing, Accepting.pending, hplace, State.listen, List.length_append, htaken,
        hread]
      omega

theorem nearer_write (h : Going n s) (hphone : n.server = .phone) {rest : Bytes}
    (hplace : s.phone = .greeting rest) : Nearer n s := by
  have hgreeted := h.inv.phone hphone
  rw [hplace] at hgreeted
  cases hgreeted with
  | greeting hread hanswered hrest hsaid =>
      have hpositive : 0 < rest.length := List.length_pos_iff.mpr hrest
      have hnext : next n s (.write rest.length) = some {s with
          phone := .serving
          answered := s.answered ++ rest
          down := s.down ++ rest} := by
        simp [next, State.write, hphone, hplace, hpositive]
      refine ⟨_, _, trivial, hnext, ⟨h.inv.next hnext, h.client, by simp⟩, ?_⟩
      have hlength := congrArg List.length hanswered
      rw [List.length_append] at hlength
      simp only [missing, Accepting.pending, hplace, List.length_append]
      omega

/-- What is missing of the field being read has been written. -/
theorem Shown.written {sent heard talked said : Bytes} {c : Connecting}
    (h : Shown n sent heard talked c) (hbegins : heard <+: greeting n.model ++ said)
    (hneed : 0 < c.need) : c.got.length < c.need ∧
      heard.length + (c.need - c.got.length) ≤ (greeting n.model).length := by
  have hgreeting : (greeting n.model).length = 5 + 2 + (label n.model).length := by
    rw [greeting_eq, List.length_append, List.length_append, length_bigEndian]
    rfl
  have hlabel := length_label n.model
  have hack : Connecting.ack.length = 5 := rfl
  cases h with
  | @acking got hpin hsent hheard hgot =>
      refine ⟨hgot, ?_⟩
      simp only [Connecting.need, Connecting.got, hheard]
      omega
  | @sizing got hpin hsent hheard hgot =>
      refine ⟨hgot, ?_⟩
      simp only [Connecting.need, Connecting.got, hheard, List.length_append]
      omega
  | @naming size got length hpin hsent hheard hfield hsize hgot =>
      rw [hheard] at hbegins
      obtain ⟨rfl, -⟩ := heard_fields hfield hbegins
      rw [ofBigEndian_label] at hsize
      refine ⟨hgot, ?_⟩
      simp only [Connecting.need, Connecting.got, hheard, List.length_append, hfield]
      omega
  | handshaking | sending | linked | failed => cases hneed

theorem nearer_receive (h : Going n s) (hphone : n.server = .phone) (hplace : s.phone = .serving)
    (hneed : 0 < s.client.need) : Nearer n s := by
  have hgreeted := h.inv.phone hphone
  rw [hplace] at hgreeted
  have hbegins := h.inv.heard_prefix hphone
  obtain ⟨hgot, hwritten⟩ := h.inv.client.written hbegins hneed
  cases hgreeted with
  | serving hread hanswered =>
      have hlengths := congrArg List.length h.inv.down
      rw [List.length_append, hanswered, List.length_append] at hlengths
      obtain ⟨k, hk⟩ : ∃ k, s.client.need = s.client.got.length + k :=
        ⟨_, (Nat.add_sub_cancel' hgot.le).symm⟩
      have htaken : (s.down.take k).length = k := by
        rw [List.length_take]
        omega
      have hnext : next n s (.receive k) =
          some {s.hear k with client := s.client.receive (s.down.take k)} :=
        if_pos ⟨by omega, by omega, by omega⟩
      have hrunning : s.client.running = true := by
        cases hclient : s.client with
        | linked label | failed e =>
            rw [hclient] at hneed
            cases hneed
        | _ => rfl
      have hinv := h.inv.next hnext
      have hshown := h.inv.client
      rw [h.inv.unlinked hrunning] at hshown
      refine ⟨_, _, trivial, hnext, ⟨hinv, ?_, h.phone⟩, ?_⟩
      · exact hshown.accepted (hinv.heard_prefix hphone) hrunning (by omega) (by omega)
      · have hpending : (s.client.receive (s.down.take k)).pending = 0 := by
          cases hclient : s.client.receive (s.down.take k) with
          | handshaking =>
              have hshown' := hinv.client
              change Shown n s.sent (s.heard ++ s.down.take k) s.talked _ at hshown'
              rw [hclient] at hshown'
              cases hshown' with
              | handshaking _ hheard =>
                  rw [(List.append_eq_nil_iff.mp hheard).2] at htaken
                  simp only [List.length_nil] at htaken
                  omega
          | _ => rfl
        simp only [missing, hpending, State.hear, List.length_append, htaken]
        omega

theorem Shown.sent_all {sent heard talked : Bytes} {c : Connecting}
    (h : Shown n sent heard talked c) (hpending : c.pending = 0)
    (hsending : ∀ rest, c ≠ .sending rest) (hfailed : ∀ e, c ≠ .failed e) : n.hello <+: sent := by
  cases h with
  | handshaking => cases hpending
  | sending => exact absurd rfl (hsending _)
  | acking hpin hsent | sizing hpin hsent | naming hpin hsent => exact hsent ▸ List.prefix_rfl
  | linked hpin hsent => exact hsent ▸ List.prefix_append ..
  | failed => exact absurd rfl (hfailed _)

/-- The goal of both. -/
def Met (s : State) : Prop :=
  (∃ label, s.client = .linked label) ∧ s.phone = .serving

/-- Once the computer has sent all, the phone goes on, and then the computer. -/
theorem nearer_phone (h : Going n s) (hphone : n.server = .phone)
    (hsecret : n.expected = n.hello) (hpending : s.client.pending = 0)
    (hsending : ∀ rest, s.client ≠ .sending rest) (hmet : ¬ Met s) : Nearer n s := by
  have hsent := h.inv.client.sent_all hpending hsending h.client
  cases hplace : s.phone with
  | handshaking => exact nearer_accept h hphone hplace
  | reading got => exact nearer_read h hphone hsecret hplace hsent
  | greeting rest => exact nearer_write h hphone hplace
  | closed => exact absurd hplace h.phone
  | serving =>
      refine nearer_receive h hphone hplace ?_
      have hshown := h.inv.client
      cases hclient : s.client with
      | handshaking =>
          rw [hclient] at hpending
          cases hpending
      | sending rest => exact absurd hclient (hsending rest)
      | acking got => exact Nat.zero_lt_succ 4
      | sizing got => exact Nat.zero_lt_succ 1
      | naming size got =>
          rw [hclient] at hshown
          cases hshown with
          | naming _ _ _ _ _ hgot => exact Nat.zero_lt_of_lt hgot
      | linked label => exact absurd ⟨⟨label, hclient⟩, hplace⟩ hmet
      | failed e => exact absurd hclient (h.client e)

theorem nearer (h : Going n s) (hphone : n.server = .phone) (hpin : n.peer.pin = n.digest)
    (hsecret : n.peer.secret = n.secret) (hmet : ¬ Met s) : Nearer n s := by
  have hequal : n.expected = n.hello := by
    rw [Meeting.expected, Meeting.hello, hsecret]
    rfl
  cases hclient : s.client with
  | handshaking => exact nearer_handshake h ((pin_of_pinned hphone).mpr hpin) hclient
  | sending rest => exact nearer_send h hclient
  | _ => exact nearer_phone h hphone hequal (by rw [hclient]; rfl) (by simp [hclient]) hmet

end Progress

/-- Over every run: the secret is shown to the pin alone, a link means that both
have the same pin and secret and are at the start of the frames, and nothing
keeps two that have them from linking. -/
theorem handshake_law {n : Meeting} {s : State} (h : Reach (next n) always {} s) :
    HandshakeLaw n s := by
  have hinv := inv_reachable h
  constructor
  · intro hpin
    have hsent : s.sent = [] := by
      by_contra hne
      exact hpin (hinv.pinned hne)
    refine ⟨hsent, fun label hlinked => ?_⟩
    have hshown := hinv.client
    rw [hlinked] at hshown
    cases hshown with
    | linked hpinned => exact hpin hpinned
  · intro hunlinked
    have hoffered := hinv.offered
    rwa [hinv.talked hunlinked, List.append_nil] at hoffered
  · intro hphone label hlinked
    exact hinv.linked hphone hlinked
  · intro hphone hserving
    have hgreeted := hinv.phone hphone
    rw [hserving] at hgreeted
    cases hgreeted with
    | serving hread => exact hinv.matched hphone hread
  · have hfair : Fair n s :=
      h.invariant_with inv_reachable (fun _ e he => by cases he)
        fun _ _ _ ht hfair _ hnext => hfair.next ht hnext
    exact hfair
  · intro hphone hpin hsecret hclient hplace
    obtain ⟨t, hrun, -, ⟨label, hlinked⟩, hserving⟩ :=
      @Reach.progress _ _ (next n) always (Going n) Met (missing n)
        (fun u hu hmet => nearer hu hphone hpin hsecret hmet) s ⟨hinv, hclient, hplace⟩
    exact ⟨t, label, hrun, hlinked, hserving⟩

/-- A computer and a phone with an empty model name. -/
def namelessMeeting : Meeting where
  peer := ⟨.new (.v4 ⟨192, 168, 1, 10⟩) PORT, ⟨List.replicate 32 0x11, rfl⟩,
    ⟨List.replicate 32 0x42, rfl⟩⟩
  digest := ⟨List.replicate 32 0x11, rfl⟩
  secret := ⟨List.replicate 32 0x42, rfl⟩
  model := []
  server := .phone

def meetingEvents : List Event :=
  [.handshake true, .accept true, .send 20, .read 15, .send 27, .read 32, .write 20, .receive 5,
    .receive 1, .receive 1, .say [0, 0, 0, 1], .receive 13, .hear 4]

def linkedAs (label : Text) (s : State) : Bool :=
  match s.client with
  | .linked l => l = label
  | _ => false

theorem handshake_nameless : ∃ s, Reach (next namelessMeeting) always {} s ∧
    linkedAs "Android phone (Wi-Fi)".toList s = true ∧ HandshakeLaw namelessMeeting s := by
  have hrun : (replay (next namelessMeeting) always {} meetingEvents).any
      (linkedAs "Android phone (Wi-Fi)".toList) = true := by
    decide +kernel
  obtain ⟨s, hreplay, hlinked⟩ := (Option.any_eq_true ..).mp hrun
  have hreach := reach_of_replay hreplay
  exact ⟨s, hreach, hlinked, handshake_law hreach⟩

end Passkey.Network.Wifi

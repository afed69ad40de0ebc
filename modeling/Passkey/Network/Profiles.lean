import Passkey.Cli.Choices
import Passkey.Library.Runs
import Passkey.Network.Pairing

/-!
The Wi-Fi profiles and those who use them at the same time: processes that pair
a phone or forget one, and the daemon, which reads the profiles every few
seconds, closes the links of those that are gone and connects to the others.
A step is one call on the directory or one look at the daemon's links; between
two of them anything else can happen, and a process can be killed.
-/

namespace Passkey.Network.Wifi

open Net Text Library
open Cli (decimal_inj)

/-! ### Names of files -/

/-- What stands before the last dot and after it; a name that has its only dot
in front has no extension. -/
def rsplitAtDot (name : Text) : Option (Text × Text) :=
  let after := (name.reverse.takeWhile (· ≠ '.')).reverse
  let before := ((name.reverse.dropWhile (· ≠ '.')).drop 1).reverse
  if name = "..".toList ∨ '.' ∉ name ∨ before = [] then none else some (before, after)

/-- `Path::extension`. -/
def extension (name : Text) : Option Text :=
  (rsplitAtDot name).map (·.2)

/-- `Path::with_extension`. -/
def withExtension (name extension : Text) : Text :=
  (((rsplitAtDot name).map (·.1)).getD name) ++ '.' :: extension

def Peer.conf (peer : Peer) : Text :=
  peer.id ++ ".conf".toList

def Peer.temp (peer : Peer) (pid : Nat) : Text :=
  withExtension peer.conf (decimal pid ++ ".new".toList)

example : extension "a.7.new".toList = some "new".toList := by decide

def wifi : Text :=
  "wifi:".toList

/-- `wifi:{id}@{address}`. -/
def Peer.linkName (peer : Peer) : Text :=
  wifi ++ peer.id ++ "@".toList ++ peer.address.display

namespace Profiles

/-! ### The directory -/

/-- The profiles by name. Root made them, with mode 0600. -/
abbrev Directory := AList fun _ : Text => Text

def metadata (text : Text) : Metadata :=
  ⟨true, 0, 0o100600, (Utf8.bytes text).length⟩

/-- What `load_from` asks of a profile before it reads it. -/
def proper (m : Metadata) : Bool :=
  !(!m.isFile || m.uid ≠ 0 || m.mode &&& 0o077 ≠ 0 || m.len > 512)

/-- A `read_dir` in progress. A name that was there all the time will come; one
that came or went meanwhile may come. -/
structure Listing where
  sure : List Text
  more : List Text

namespace Listing

def of (d : Directory) : Listing :=
  ⟨d.keys, d.keys⟩

def appears (name : Text) (s : Listing) : Listing :=
  {s with more := name :: s.more}

def vanishes (name : Text) (s : Listing) : Listing :=
  {s with sure := s.sure.erase name}

def take (name : Text) (s : Listing) : Listing :=
  ⟨s.sure.erase name, s.more.erase name⟩

end Listing

/-! ### load_from -/

inductive LoadPc where
  | entries
  | stat (name : Text)
  | read (name : Text)

structure Load where
  listing : Listing
  peers : List Peer := []
  pc : LoadPc := .entries

/-- What the file system does next for a process: it gives an entry or the end
of the directory, writes some of the text, or does what is asked, or fails. -/
inductive Act where
  | entry (name : Text)
  | ends
  | writes (n : Nat)
  | goes
  | fails

def noSuchFile : String :=
  "No such file or directory (os error 2)"

def Load.next (l : Load) (d : Directory) : Act → Option (Load ⊕ Except String (List Peer))
  | .entry name => match l.pc with
      | .entries =>
          if name ∈ l.listing.more then
            let listing := l.listing.take name
            let pc := if extension name = some "conf".toList then .stat name else .entries
            some (.inl {l with listing, pc})
          else none
      | _ => none
  | .ends => match l.pc with
      | .entries => if l.listing.sure = [] then some (.inr (.ok l.peers)) else none
      | _ => none
  | .goes => match l.pc with
      | .entries => none
      | .stat name => match d.lookup name with
          | none => some (.inr (.error noSuchFile))
          | some text =>
              if proper (metadata text) then some (.inl {l with pc := .read name})
              else some (.inr (.error
                "Wi-Fi profiles must be root-owned regular files with mode 0600"))
      | .read name => match d.lookup name with
          | none => some (.inr (.error noSuchFile))
          | some text => match Peer.decode text with
              | .ok peer => some (.inl {l with peers := l.peers ++ [peer], pc := .entries})
              | .error e => some (.inr (.error e))
  | .fails => some (.inr (.error "Input/output error (os error 5)"))
  | .writes _ => none

/-! ### The parties -/

/-- Where `save` is. -/
inductive Saving where
  | prepare
  | create
  | write (rest : Text)
  | sync
  | rename
  | clean (ok : Bool)
  | done (ok : Bool)

structure Adder where
  pid : Nat
  peer : Peer
  pc : Saving := .prepare

def Adder.temp (a : Adder) : Text :=
  a.peer.temp a.pid

/-- Where `remove` is. -/
inductive Removing where
  | start
  | load (l : Load)
  | delete (todo : List Peer) (found : Bool)
  | done (ok : Bool)

structure Remover where
  address : SocketAddr
  pc : Removing := .start

abbrev LinkIndex := Nat

/-- Where `wifi_loop` is. -/
inductive Looping where
  | asleep
  | load (l : Load)
  | wanted (peers : List Peer)
  | close (peers : List Peer) (todo : List LinkIndex)
  | connect (peers : List Peer)
  | dial (peer : Peer) (rest : List Peer)

structure Link where
  name : Text
  alive : Bool := true

def Link.isWifi (link : Link) : Bool :=
  wifi.isPrefixOf link.name

structure Party where
  files : Directory := ∅
  adders : List Adder := []
  removers : List Remover := []
  loop : Looping := .asleep
  links : List Link := []

namespace Party

/-- The listings that are in progress see what happens to the directory. -/
def onListings (f : Listing → Listing) (s : Party) : Party :=
  {s with
    removers := s.removers.map fun r => match r.pc with
      | .load l => {r with pc := .load {l with listing := f l.listing}}
      | _ => r
    loop := match s.loop with
      | .load l => .load {l with listing := f l.listing}
      | other => other}

/-- A file is written, or renamed to this name. -/
def put (s : Party) (name text : Text) : Party :=
  let seen := if (s.files.lookup name).isSome then s else s.onListings (.appears name)
  {seen with files := s.files.insert name text}

def unlink (s : Party) (name : Text) : Party :=
  {s.onListings (.vanishes name) with files := s.files.erase name}

def setAdder (s : Party) (p : Nat) (a : Adder) (pc : Saving) : Party :=
  {s with adders := s.adders.set p {a with pc}}

def setRemover (s : Party) (p : Nat) (r : Remover) (pc : Removing) : Party :=
  {s with removers := s.removers.set p {r with pc}}

def live (s : Party) : List LinkIndex :=
  (List.range s.links.length).filter fun l => (s.links[l]?).any Link.alive

def hasLink (s : Party) (name : Text) : Bool :=
  s.links.any fun link => link.alive && link.name = name

def close (s : Party) (l : LinkIndex) : Party :=
  {s with links := s.links.modify l fun link => {link with alive := false}}

end Party

/-! ### What each party does -/

def Saving.running : Saving → Bool
  | .done _ => false
  | _ => true

/-- `save`, in the process of `root-wifi-add`. -/
def Party.save (s : Party) (p : Nat) (a : Adder) (act : Act) : Option Party :=
  match a.pc, act with
  | .prepare, .goes => some (s.setAdder p a .create)
  | .prepare, .fails => some (s.setAdder p a (.done false))
  | .create, .goes =>
      if (s.files.lookup a.temp).isSome then some (s.setAdder p a (.clean false))
      else some ((s.put a.temp []).setAdder p a (.write a.peer.encode))
  | .write rest, .writes n =>
      if 0 < n ∧ n ≤ rest.length then
        let written := match s.files.lookup a.temp with
          | some text => s.put a.temp (text ++ rest.take n)
          | none => s
        some (written.setAdder p a (if rest.drop n = [] then .sync else .write (rest.drop n)))
      else none
  | .sync, .goes => some (s.setAdder p a .rename)
  | .rename, .goes => match s.files.lookup a.temp with
      | some text => some (((s.unlink a.temp).put a.peer.conf text).setAdder p a (.clean true))
      | none => some (s.setAdder p a (.clean false))
  | .create, .fails | .write _, .fails | .sync, .fails | .rename, .fails =>
      some (s.setAdder p a (.clean false))
  | .clean ok, .goes => some ((s.unlink a.temp).setAdder p a (.done ok))
  | .clean ok, .fails => some (s.setAdder p a (.done ok))
  | _, _ => none

/-- `remove`, in the process of `root-wifi-remove`. -/
def Party.forget (s : Party) (p : Nat) (r : Remover) (act : Act) : Option Party :=
  match r.pc, act with
  | .start, .goes => some (s.setRemover p r (.load {listing := .of s.files}))
  | .start, .fails => some (s.setRemover p r (.done false))
  | .load l, act => match l.next s.files act with
      | some (.inl l) => some (s.setRemover p r (.load l))
      | some (.inr (.ok peers)) => some (s.setRemover p r (.delete peers false))
      | some (.inr (.error _)) => some (s.setRemover p r (.done false))
      | none => none
  | .delete [] found, .goes => some (s.setRemover p r (.done found))
  | .delete (peer :: rest) found, .goes =>
      if peer.address ≠ r.address then some (s.setRemover p r (.delete rest found))
      else if (s.files.lookup peer.conf).isSome then
        some ((s.unlink peer.conf).setRemover p r (.delete rest true))
      else some (s.setRemover p r (.done false))
  | .delete (peer :: _) _, .fails =>
      if peer.address = r.address then some (s.setRemover p r (.done false)) else none
  | _, _ => none

/-- `wifi_loop`, in the daemon. To dial is to connect, and to add the link. -/
def Party.wifiLoop (s : Party) (act : Act) : Option Party :=
  match s.loop, act with
  | .asleep, .goes => some {s with loop := .load {listing := .of s.files}}
  | .asleep, .fails => some s
  | .load l, act => match l.next s.files act with
      | some (.inl l) => some {s with loop := .load l}
      | some (.inr (.ok peers)) => some {s with loop := .wanted peers}
      | some (.inr (.error _)) => some {s with loop := .asleep}
      | none => none
  | .wanted peers, .goes => some {s with loop := .close peers s.live}
  | .close peers (l :: todo), .goes => match s.links[l]? with
      | some link =>
          let closed := if link.isWifi && !(peers.map Peer.linkName).contains link.name then
            s.close l else s
          some {closed with loop := .close peers todo}
      | none => none
  | .close peers [], .goes => some {s with loop := .connect peers}
  | .connect [], .goes => some {s with loop := .asleep}
  | .connect (peer :: rest), .goes =>
      if s.hasLink peer.linkName then some {s with loop := .connect rest}
      else some {s with loop := .dial peer rest}
  | .dial peer rest, .goes =>
      some {s with loop := .connect rest, links := s.links ++ [⟨peer.linkName, true⟩]}
  | .dial _ rest, .fails => some {s with loop := .connect rest}
  | _, _ => none

inductive Event where
  /-- `root-wifi-add` connected to the phone of this profile. -/
  | add (pid : Nat) (data : Text)
  | save (p : Nat) (act : Act)
  | kill (p : Nat)
  | remove (address : SocketAddr)
  | forget (p : Nat) (act : Act)
  | loop (act : Act)
  /-- Another transport adds a link. -/
  | link (name : Text)
  | drop (l : LinkIndex)

/-- No two processes that run have the same id. -/
def Party.free (s : Party) (pid : Nat) : Bool :=
  s.adders.all fun a => !a.pc.running || a.pid ≠ pid

def Party.next : Next Party Event := fun s e =>
  match e with
  | .add pid data => match rootWifiAdd data with
      | .ok peer => if s.free pid then some {s with adders := s.adders ++ [{pid, peer}]} else none
      | .error _ => none
  | .save p act => (s.adders[p]?).bind fun a => s.save p a act
  | .kill p => (s.adders[p]?).bind fun a =>
      if a.pc.running then some (s.setAdder p a (.done false)) else none
  | .remove address => some {s with removers := s.removers ++ [{address}]}
  | .forget p act => (s.removers[p]?).bind fun r => s.forget p r act
  | .loop act => s.wifiLoop act
  | .link name =>
      if wifi.isPrefixOf name then none else some {s with links := s.links ++ [⟨name, true⟩]}
  | .drop l => some (s.close l)

end Profiles

end Passkey.Network.Wifi

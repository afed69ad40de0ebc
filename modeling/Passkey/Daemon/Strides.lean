import Passkey.Daemon.Targets
import Passkey.Daemon.Withdrawals

/-!
One request worker among threads, links and a clock that do anything at all:
each of its steps sees a state of its own. What it asked, what it took and what
it withdrew account for each other at any time, so that `fan_out` loses no link
and counts none twice.
-/

namespace Passkey.Daemon

open Library

/-! ### A worker alone -/

/-- What a worker meets. A thread in `cancel` holds the lock of its pending
links or frees it, or the worker has its turn, in any state of the daemon. -/
inductive Surrounding where
  | lock (locked : Bool)
  | turn (s : State) (ok : Bool)

/-- A step that a worker took: where it was, what it saw and what it did. -/
structure Stride where
  before : Worker
  seen : State
  act : Act

/-- The worker of request `r`, with the steps that it has taken. -/
def works (r : RequestId) : Next (Worker × List Stride) Surrounding := fun x e =>
  match e with
  | .lock locked => some ({x.1 with locked := locked}, x.2)
  | .turn s ok => (x.1.turn s r ok).map fun (w, act) => (w, x.2 ++ [⟨x.1, s, act⟩])

/-- `handle_cbor` calls `fan_out` for these links. -/
def Worker.fanOut (w : Worker) (targets : List LinkId) : Worker :=
  {w with pending := [], wins := [], failures := [], pc := .send targets}

/-- `fan_out` has returned. -/
def Pc.returned : Pc → Bool
  | .judge => true
  | _ => false

def InFanOut (x : Worker × List Stride) (_ : Surrounding) : Prop :=
  x.1.pc.returned = false

instance (x : Worker × List Stride) (e : Surrounding) : Decidable (InFanOut x e) :=
  inferInstanceAs (Decidable (_ = _))

/-! ### What the steps say -/

/-- A device error that stands for a refusal. -/
def Denied (payload : Bytes) : Prop :=
  payload.head? = some OPERATION_DENIED

instance : DecidablePred Success := fun _ => inferInstanceAs (Decidable (_ = some 0))

instance : DecidablePred Denied := fun _ =>
  inferInstanceAs (Decidable (_ = some OPERATION_DENIED))

/-- The link that a REQ frame was written to, with success or not. -/
def Act.written : Act → Option LinkId
  | .write (.req ..) l _ => some l
  | _ => none

/-- The link that a REQ frame was sent to. -/
def Act.sentTo : Act → Option LinkId
  | .write (.req ..) l true => some l
  | _ => none

/-- The link that a CANCEL frame was written to. -/
def Act.withdrawnFrom : Act → Option LinkId
  | .write (.cancel ..) l _ => some l
  | _ => none

/-- A message taken from a link. -/
def Act.taken : Act → Option (LinkId × UInt32 × Bytes)
  | .take _ l response => some (l, response)
  | _ => none

/-- A report that is written to the device. -/
def Act.reported : Act → Option Bytes
  | .report bytes => some bytes
  | _ => none

/-- A message that counts for the request with this number. -/
def counted (number : UInt32) (a : LinkId × UInt32 × Bytes) : Option (LinkId × Bytes) :=
  if a.2.1 = number ∨ a.2 = closeMarker then some (a.1, a.2.2) else none

def Act.answer (number : UInt32) (act : Act) : Option (LinkId × Bytes) :=
  act.taken.bind (counted number)

def written (strides : List Stride) : List LinkId :=
  strides.filterMap fun x => x.act.written

def sentTo (strides : List Stride) : List LinkId :=
  strides.filterMap fun x => x.act.sentTo

def withdrawnFrom (strides : List Stride) : List LinkId :=
  strides.filterMap fun x => x.act.withdrawnFrom

def takes (strides : List Stride) : List (LinkId × UInt32 × Bytes) :=
  strides.filterMap fun x => x.act.taken

def answers (number : UInt32) (strides : List Stride) : List (LinkId × Bytes) :=
  strides.filterMap fun x => x.act.answer number

theorem answers_eq (number : UInt32) (strides : List Stride) :
    answers number strides = (takes strides).filterMap (counted number) := by
  rw [takes, List.filterMap_filterMap]
  rfl

/-- The error that an answer is counted as. -/
def complaint (payload : Bytes) : Bytes :=
  if payload = [] then [CTAP2_ERR_OTHER] else payload

/-- A response that ends a request which is not a probe. -/
def Ends (number : UInt32) (response : UInt32 × Bytes) : Prop :=
  response.1 = number ∧ (Success response.2 ∨ Denied response.2)

/-! ### What one response does -/

/-- What `fan_out` makes of a response from a link. -/
inductive Polled (w : Worker) (l : LinkId) (rest : List LinkId) :
    UInt32 × Bytes → Worker → Prop where
  | other {response : UInt32 × Bytes}
      (hother : ¬ (response.1 = w.number ∨ response = closeMarker)) :
      Polled w l rest response {w with pc := .sweep rest true}
  | lost {number : UInt32} (hmine : number = w.number ∨ (number, []) = closeMarker) :
      Polled w l rest (number, []) {w with
        pending := w.pending.filter (· ≠ l)
        failures := w.failures ++ [[CTAP2_ERR_OTHER]]
        pc := .sweep rest true}
  | win {payload : Bytes} (hsuccess : Success payload) :
      Polled w l rest (w.number, payload) {w with
        pending := w.pending.filter (· ≠ l)
        wins := w.wins ++ [(l, payload)]
        done := !w.probe
        pc := .sweep (if w.probe then rest else []) true}
  | failure {payload : Bytes} (hpayload : payload ≠ []) (hfailure : ¬ Success payload) :
      Polled w l rest (w.number, payload) {w with
        pending := w.pending.filter (· ≠ l)
        failures := w.failures ++ [payload]
        done := decide (Denied payload) && !w.probe
        pc := .sweep (if decide (Denied payload) && !w.probe then [] else rest) true}

theorem poll_polled (w : Worker) (l : LinkId) (rest : List LinkId) (heard : Bool)
    (response : UInt32 × Bytes) : Polled w l rest response (w.poll l rest heard (some response)) := by
  obtain ⟨number, payload⟩ := response
  unfold Worker.poll
  dsimp only
  split
  · rename_i hmarker
    obtain ⟨rfl, rfl⟩ := hmarker
    exact .lost (.inr rfl)
  · rename_i hmarker
    split
    · rename_i hnumber
      apply Polled.other
      rintro (hmine | hclose)
      · exact hnumber hmine
      · exact hmarker (Prod.mk.inj hclose)
    · rename_i hnumber
      obtain rfl := Decidable.not_not.mp hnumber
      cases payload with
      | nil => exact .lost (.inl rfl)
      | cons status more =>
          dsimp only
          split
          · rename_i hstatus
            exact .win (congrArg some hstatus)
          · rename_i hstatus
            have hdenied : decide (status = OPERATION_DENIED) = decide (Denied (status :: more)) := by
              simp [Denied]
            rw [hdenied]
            apply Polled.failure (List.cons_ne_nil _ _)
            intro hsuccess
            exact hstatus (Option.some.inj hsuccess)

/-! ### One more step -/

/-- An act on no link. -/
def Act.Silent : Act → Prop
  | .write .. => False
  | .take .. => False
  | _ => True

section Snoc

variable (strides : List Stride) (x : Stride)

theorem written_snoc : written (strides ++ [x]) = written strides ++ x.act.written.toList := by
  cases h : x.act.written <;> simp [written, h]

theorem sentTo_snoc : sentTo (strides ++ [x]) = sentTo strides ++ x.act.sentTo.toList := by
  cases h : x.act.sentTo <;> simp [sentTo, h]

theorem withdrawnFrom_snoc :
    withdrawnFrom (strides ++ [x]) = withdrawnFrom strides ++ x.act.withdrawnFrom.toList := by
  cases h : x.act.withdrawnFrom <;> simp [withdrawnFrom, h]

theorem takes_snoc : takes (strides ++ [x]) = takes strides ++ x.act.taken.toList := by
  cases h : x.act.taken <;> simp [takes, h]

theorem answers_snoc (number : UInt32) :
    answers number (strides ++ [x]) = answers number strides ++ (x.act.answer number).toList := by
  cases h : x.act.answer number <;> simp [answers, h]

end Snoc

/-! ### No link is lost -/

/-- The links that `fan_out` still has to ask. -/
def Worker.todo (w : Worker) : List LinkId :=
  match w.pc with
  | .send todo => todo
  | _ => []

/-- Every link that was asked answered once, was withdrawn from once or is still
outstanding. -/
structure Conserved (w : Worker) (strides : List Stride) : Prop where
  accounted : (sentTo strides).Perm
    (w.outstanding ++ ((answers w.number strides).map Prod.fst ++ withdrawnFrom strides))
  distinct : (w.outstanding ++ w.todo).Nodup
  sweeping : ∀ rest heard, w.pc = .sweep rest heard → rest.Sublist w.pending

theorem Act.Silent.silent {act : Act} (h : act.Silent) (number : UInt32) :
    act.written = none ∧ act.sentTo = none ∧ act.withdrawnFrom = none ∧ act.taken = none ∧
      act.answer number = none := by
  cases act with
  | write => exact h.elim
  | take => exact h.elim
  | _ => exact ⟨rfl, rfl, rfl, rfl, rfl⟩

/-- A step on no link leaves the account as it is. -/
theorem Conserved.account {w w' : Worker} {strides : List Stride} {x : Stride}
    (h : Conserved w strides) (hsilent : x.act.Silent) (hnumber : w'.number = w.number)
    (houtstanding : w'.outstanding = w.outstanding) : (sentTo (strides ++ [x])).Perm
      (w'.outstanding ++ ((answers w'.number (strides ++ [x])).map Prod.fst ++
        withdrawnFrom (strides ++ [x]))) := by
  obtain ⟨-, hsent, hwithdrawn, -, hanswer⟩ := hsilent.silent w.number
  rw [sentTo_snoc, withdrawnFrom_snoc, answers_snoc, hnumber, houtstanding, hsent, hwithdrawn,
    hanswer]
  simpa using h.accounted

/-- Such a step where nothing is left to send. -/
theorem Conserved.keep {w w' : Worker} {strides : List Stride} {x : Stride}
    (h : Conserved w strides) (hsilent : x.act.Silent) (hnumber : w'.number = w.number)
    (houtstanding : w'.outstanding = w.outstanding) (htodo : w'.todo = [])
    (hsweeping : ∀ rest heard, w'.pc = .sweep rest heard → rest.Sublist w'.pending) :
    Conserved w' (strides ++ [x]) where
  accounted := h.account hsilent hnumber houtstanding
  distinct := by
    rw [houtstanding, htodo, List.append_nil]
    exact (List.nodup_append.mp h.distinct).1
  sweeping := hsweeping

/-- A link is taken out of the pending ones when it answers. -/
theorem Conserved.answered {w w' : Worker} {strides : List Stride} {x : Stride} {l : LinkId}
    {rest rest' : List LinkId} {heard heard' : Bool} {payload : Bytes} (h : Conserved w strides)
    (hpc : w.pc = .sweep (l :: rest) heard) (hpc' : w'.pc = .sweep rest' heard')
    (hrest : rest'.Sublist rest) (hnumber : w'.number = w.number)
    (hpending : w'.pending = w.pending.filter (· ≠ l))
    (hanswer : x.act.answer w.number = some (l, payload)) (hsent : x.act.sentTo = none)
    (hwithdrawn : x.act.withdrawnFrom = none) : Conserved w' (strides ++ [x]) := by
  have hbefore : w.outstanding = w.pending := by rw [Worker.outstanding, hpc]
  have hafter : w'.outstanding = w.pending.filter (· ≠ l) := by
    rw [Worker.outstanding, hpc']
    exact hpending
  have hnodup : w.pending.Nodup := hbefore ▸ (List.nodup_append.mp h.distinct).1
  have hsub := h.sweeping _ _ hpc
  have hmem : l ∈ w.pending := hsub.subset List.mem_cons_self
  have hperm : w.pending.Perm (l :: w.pending.filter (· ≠ l)) := by
    have hfilter : w.pending.filter (· ≠ l) = w.pending.erase l := by
      rw [hnodup.erase_eq_filter]
      apply List.filter_congr
      intro k _
      by_cases heq : k = l <;> simp [heq]
    rw [hfilter]
    exact List.perm_cons_erase hmem
  refine ⟨?_, ?_, ?_⟩
  · have hcount := h.accounted
    rw [hbefore] at hcount
    rw [sentTo_snoc, withdrawnFrom_snoc, answers_snoc, hnumber, hafter, hsent, hwithdrawn, hanswer]
    simp only [Option.toList_none, Option.toList_some, List.append_nil, List.map_append,
      List.map_cons, List.map_nil]
    refine hcount.trans ((hperm.append_right _).trans ?_)
    have hmiddle := (@List.perm_middle _ l (w.pending.filter (· ≠ l) ++
      (answers w.number strides).map Prod.fst) (withdrawnFrom strides)).symm
    simpa using hmiddle
  · have htodo : w'.todo = [] := by rw [Worker.todo, hpc']
    rw [hafter, htodo, List.append_nil]
    exact hnodup.filter _
  · intro rest'' heard'' heq
    obtain ⟨rfl, rfl⟩ := Pc.sweep.inj (hpc'.symm.trans heq)
    have hnew : l ∉ rest := (List.nodup_cons.mp (hnodup.sublist hsub)).1
    have hkept : rest.filter (· ≠ l) = rest := by
      apply List.filter_eq_self.mpr
      intro k hk
      apply decide_eq_true
      intro heq
      exact hnew (heq ▸ hk)
    rw [hpending]
    refine hrest.trans ?_
    rw [← hkept]
    exact ((List.sublist_cons_self l rest).trans hsub).filter _

theorem Conserved.polled {w w' : Worker} {strides : List Stride} {x : Stride} {r : RequestId}
    {l : LinkId} {rest : List LinkId} {heard : Bool} {response : UInt32 × Bytes}
    (h : Conserved w strides) (hpc : w.pc = .sweep (l :: rest) heard)
    (hpolled : Polled w l rest response w') (hact : x.act = .take r l response) :
    Conserved w' (strides ++ [x]) := by
  have hmine (hconcerns : response.1 = w.number ∨ response = closeMarker) :
      x.act.answer w.number = some (l, response.2) := by
    rw [hact]
    exact if_pos hconcerns
  have hquiet : x.act.sentTo = none ∧ x.act.withdrawnFrom = none := by
    rw [hact]
    exact ⟨rfl, rfl⟩
  cases hpolled with
  | other hother =>
      refine ⟨?_, ?_, ?_⟩
      · have hanswer : x.act.answer w.number = none := by
          rw [hact]
          exact if_neg hother
        have hcount := h.accounted
        rw [Worker.outstanding, hpc] at hcount
        rw [sentTo_snoc, withdrawnFrom_snoc, answers_snoc, hquiet.1, hquiet.2, hanswer]
        simpa [Worker.outstanding] using hcount
      · have hdistinct := h.distinct
        rw [Worker.outstanding, Worker.todo, hpc] at hdistinct
        exact hdistinct
      · intro rest'' heard'' heq
        obtain ⟨rfl, rfl⟩ := Pc.sweep.inj heq
        exact (List.sublist_cons_self l rest).trans (h.sweeping _ _ hpc)
  | lost hconcerns =>
      exact h.answered hpc rfl (List.Sublist.refl rest) rfl rfl (hmine hconcerns) hquiet.1 hquiet.2
  | win =>
      refine h.answered hpc rfl ?_ rfl rfl (hmine (.inl rfl)) hquiet.1 hquiet.2
      split
      · exact List.Sublist.refl rest
      · exact List.nil_sublist rest
  | failure =>
      refine h.answered hpc rfl ?_ rfl rfl (hmine (.inl rfl)) hquiet.1 hquiet.2
      split
      · exact List.nil_sublist rest
      · exact List.Sublist.refl rest

/-- No step loses a link, if a round names each link once. -/
theorem Conserved.turn {s : State} {r : RequestId} {w w' : Worker} {act : Act}
    {strides : List Stride} (h : Conserved w strides) (hturn : Turn s r w w' act)
    (hrounds : w.pc = .round → ∀ targets ∈ w.rounds, targets.Nodup) :
    Conserved w' (strides ++ [⟨w, s, act⟩]) := by
  cases hturn with
  | @enter targets rest hpc hround =>
      refine ⟨h.account trivial rfl (by simp [Worker.outstanding, hpc]), ?_, by simp⟩
      apply hrounds hpc
      rw [hround]
      exact List.mem_cons_self
  | @send l rest ok hpc =>
      have hcount := h.accounted
      have hdistinct := h.distinct
      simp only [Worker.outstanding, Worker.todo, hpc] at hcount hdistinct
      cases ok with
      | true =>
          refine ⟨?_, by simpa [Worker.outstanding, Worker.todo] using hdistinct, by simp⟩
          rw [sentTo_snoc, withdrawnFrom_snoc, answers_snoc]
          have hmore := hcount.append_right [l]
          have hmove := (@List.perm_append_comm _ ((answers w.number strides).map Prod.fst ++
            withdrawnFrom strides) [l]).append_left w.pending
          rw [List.append_assoc] at hmore
          simpa [Worker.outstanding, Act.sentTo, Act.withdrawnFrom, Act.answer, Act.taken]
            using hmore.trans hmove
      | false =>
          refine ⟨?_, ?_, by simp⟩
          · rw [sentTo_snoc, withdrawnFrom_snoc, answers_snoc]
            simpa [Worker.outstanding, Act.sentTo, Act.withdrawnFrom, Act.answer, Act.taken] using hcount
          · exact hdistinct.sublist ((List.sublist_cons_self l rest).append_left _)
  | goOn hpc =>
      refine h.keep trivial rfl (by simp [Worker.outstanding, hpc]) rfl ?_
      intro rest heard heq
      obtain ⟨rfl, rfl⟩ := Pc.sweep.inj heq
      exact List.Sublist.refl _
  | @silence l rest heard hpc =>
      refine h.keep trivial rfl (by simp [Worker.outstanding, hpc]) rfl ?_
      intro rest' heard' heq
      obtain ⟨rfl, rfl⟩ := Pc.sweep.inj heq
      exact (List.sublist_cons_self l rest).trans (h.sweeping _ _ hpc)
  | take hpc => exact h.polled hpc (poll_polled ..) rfl
  | @swept heard hpc =>
      refine h.keep trivial rfl ?_ ?_ ?_
      · cases heard <;> simp [Worker.outstanding, hpc]
      · cases heard <;> rfl
      · cases heard <;> simp
  | @withdraw l rest ok hpc =>
      have hcount := h.accounted
      have hdistinct := h.distinct
      simp only [Worker.outstanding, Worker.todo, hpc, List.append_nil] at hcount hdistinct
      refine ⟨?_, ?_, by simp⟩
      · rw [sentTo_snoc, withdrawnFrom_snoc, answers_snoc]
        have hmove := @List.perm_append_comm _ [l] (rest ++
          ((answers w.number strides).map Prod.fst ++ withdrawnFrom strides))
        simpa [Worker.outstanding, Act.sentTo, Act.withdrawnFrom, Act.answer, Act.taken]
          using hcount.trans hmove
      · simpa [Worker.outstanding, Worker.todo] using (List.nodup_cons.mp hdistinct).2
  | judge hpc =>
      have hnone := (judge_outstanding w fun l => (s.link l).device).1
      have hpc' : (w.judge fun l => (s.link l).device).1.todo = [] ∧
          ∀ rest heard, (w.judge fun l => (s.link l).device).1.pc ≠ .sweep rest heard := by
        unfold Worker.judge
        repeat' split
        all_goals exact ⟨rfl, by simp⟩
      have hsilent : (w.judge fun l => (s.link l).device).2.Silent := by
        unfold Worker.judge
        repeat' split
        all_goals trivial
      refine h.keep hsilent (judge_request ..).number ?_ hpc'.1 fun rest heard heq => ?_
      · rw [hnone, Worker.outstanding, hpc]
      · exact absurd heq (hpc'.2 rest heard)
  | emptyRound hpc =>
      exact h.keep trivial rfl rfl (by simp [Worker.todo, hpc]) (by simp [hpc])
  | _ => exact h.keep trivial rfl (by simp [Worker.outstanding, *]) rfl (by simp [*])

end Passkey.Daemon

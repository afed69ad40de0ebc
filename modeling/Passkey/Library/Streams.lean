import Passkey.Library.Framing

/-!
Messages on a byte stream between two parties. The bytes arrive in order and
with any delay, so at every moment those that arrived and were not read yet,
followed by those under way, are the messages that the reader has still to get.
-/

namespace Passkey.Library

/-- The bytes of messages, each behind its length. -/
def stream (bodies : List (List UInt8)) : List UInt8 :=
  bodies.flatMap frame

theorem stream_append (bodies more : List (List UInt8)) :
    stream (bodies ++ more) = stream bodies ++ stream more :=
  List.flatMap_append

theorem stream_cons (body : List UInt8) (more : List (List UInt8)) :
    stream (body :: more) = frame body ++ stream more :=
  List.flatMap_cons

/-- A message has a byte, and its length fits into four bytes. -/
def Framed (body : List UInt8) : Prop :=
  0 < body.length ∧ body.length < 256 ^ 4

/-- A message taken from the first bytes of a stream is the first message of
the stream; the rest of the bytes belongs to the others. -/
theorem readFrame_stream {limit : Nat} {received later body rest : List UInt8}
    {bodies : List (List UInt8)} (hframed : ∀ b ∈ bodies, Framed b)
    (hstream : received ++ later = stream bodies)
    (hread : readFrame limit received = .message body rest) :
    ∃ more, bodies = body :: more ∧ rest ++ later = stream more := by
  simp only [readFrame] at hread
  split at hread
  · cases hread
  · rename_i hhead
    split at hread
    · cases hread
    · split at hread
      · cases hread
      · rename_i hlong
        cases bodies with
        | nil =>
            have hempty : received = [] := (List.append_eq_nil_iff.mp hstream).1
            rw [hempty] at hhead
            exact absurd (Nat.zero_lt_succ 3) hhead
        | cons first more =>
            have hfits := (hframed first List.mem_cons_self).2
            rw [stream_cons, frame, List.append_assoc, ← List.take_append_drop 4 received,
              List.append_assoc] at hstream
            obtain ⟨htake, hdrop⟩ := List.append_inj hstream (by simp; omega)
            rw [htake, ofBigEndian_bigEndian hfits] at hread hlong
            rw [← List.take_append_drop first.length (received.drop 4), List.append_assoc] at hdrop
            obtain ⟨hbody, hrest⟩ := List.append_inj hdrop (by simp; omega)
            rw [hbody, ← List.drop_drop] at hread
            cases hread
            exact ⟨more, rfl, hrest⟩

/-- How a stream stands: `sent` are the bytes of all messages but for `missing`,
the end of the last one where this was cut off; the first `arrived` of them have
arrived, and the reader took the messages `done` and has the bytes `received`
left. -/
structure Conveys (sent missing received : List UInt8) (arrived : Nat)
    (done pending : List (List UInt8)) : Prop where
  whole : sent ++ missing = stream (done ++ pending)
  rest : received ++ (sent.drop arrived ++ missing) = stream pending
  framed : ∀ b ∈ pending, Framed b
  bound : arrived ≤ sent.length

namespace Conveys

variable {sent missing received : List UInt8} {arrived : Nat} {done pending : List (List UInt8)}

theorem start : Conveys [] [] [] 0 [] [] :=
  ⟨rfl, rfl, by simp, Nat.le_refl 0⟩

/-- After messages that are all there, the first bytes of another one. -/
theorem write (h : Conveys sent [] received arrived done pending) {body part : List UInt8}
    (hbody : Framed body) (hpart : part ++ missing = frame body) :
    Conveys (sent ++ part) missing received arrived done (pending ++ [body]) where
  whole := by
    have hwhole := h.whole
    rw [List.append_nil] at hwhole
    rw [List.append_assoc, hpart, hwhole, ← List.append_assoc, stream_append _ [body], stream,
      stream, List.flatMap_singleton]
  rest := by
    have hrest := h.rest
    rw [List.append_nil] at hrest
    rw [List.drop_append_of_le_length h.bound, List.append_assoc, hpart, ← List.append_assoc,
      hrest, stream_append, stream, stream, List.flatMap_singleton]
  framed b hb := by
    rcases List.mem_append.mp hb with hold | hnew
    · exact h.framed b hold
    · exact List.mem_singleton.mp hnew ▸ hbody
  bound := by
    have hle := h.bound
    rw [List.length_append]
    omega

theorem arrive (h : Conveys sent missing received arrived done pending) (n : Nat) :
    Conveys sent missing (received ++ (sent.drop arrived).take n)
      (arrived + ((sent.drop arrived).take n).length) done pending where
  whole := h.whole
  rest := by
    have hcount : sent.drop (arrived + ((sent.drop arrived).take n).length)
        = (sent.drop arrived).drop n := by
      rw [← List.drop_drop, List.length_take]
      rcases Nat.le_total n (sent.drop arrived).length with hle | hle
      · rw [Nat.min_eq_left hle]
      · rw [Nat.min_eq_right hle, List.drop_length, List.drop_of_length_le hle]
    rw [hcount, List.append_assoc, ← List.append_assoc (List.take _ _), List.take_append_drop]
    exact h.rest
  framed := h.framed
  bound := by
    have hle := h.bound
    rw [List.length_take, List.length_drop]
    omega

theorem read (h : Conveys sent missing received arrived done pending) {limit : Nat}
    {body rest : List UInt8} (hread : readFrame limit received = .message body rest) :
    ∃ more, pending = body :: more ∧
      Conveys sent missing rest arrived (done ++ [body]) more := by
  obtain ⟨more, rfl, hrest⟩ := readFrame_stream h.framed h.rest hread
  refine ⟨more, rfl, ?_, hrest, fun b hb => h.framed b (List.mem_cons_of_mem _ hb), h.bound⟩
  rw [h.whole, List.append_assoc, List.singleton_append]

end Conveys

end Passkey.Library

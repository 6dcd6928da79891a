import MinHttp.Bytes
import MinHttp.Lib.Cut
import MinHttp.Lib.Lines

/-! Util.hpp: reading a line from a socket, and cutting a string at a separator. -/
namespace MinHttp

open Lib.Lines (next? Plain)
open Lib.Numerals (signed)

/-- The receiving side of a connection. The peer closes after `incoming`;
`fails` tells which of the `recv` calls, counted from 0, return -1. -/
structure Sock where
  incoming : Bytes
  calls : Nat
  fails : Nat → Bool

def Sock.new (incoming : Bytes) (fails : Nat → Bool) : Sock := ⟨incoming, 0, fails⟩

/-- No call on this socket fails. -/
def Sock.Sound (s : Sock) : Prop := ∀ i, s.fails i = false

theorem Sock.new_sound (s : Bytes) : (Sock.new s fun _ => false).Sound := fun _ => rfl

inductive Recv
  | byte (ch : Byte)
  | closed
  | failed
  deriving DecidableEq, Repr

/-- `recv(sock, &ch, 1, 0)` -/
def recv (s : Sock) : Recv × Sock :=
  if s.fails s.calls then (.failed, { s with calls := s.calls + 1 })
  else match s.incoming with
    | [] => (.closed, { s with calls := s.calls + 1 })
    | ch :: rest => (.byte ch, { s with incoming := rest, calls := s.calls + 1 })

/-- `recv(sock, &ch, 1, MSG_PEEK)` -/
def recvPeek (s : Sock) : Recv × Sock :=
  if s.fails s.calls then (.failed, { s with calls := s.calls + 1 })
  else match s.incoming with
    | [] => (.closed, { s with calls := s.calls + 1 })
    | ch :: _ => (.byte ch, { s with calls := s.calls + 1 })

theorem recv_byte_incoming {s t : Sock} {ch : Byte} (h : recv s = (.byte ch, t)) :
    s.incoming = ch :: t.incoming := by
  unfold recv at h
  split at h
  · cases h
  · split at h
    · cases h
    · rename_i heq
      cases h
      exact heq

theorem recv_byte_length {s t : Sock} {ch : Byte} (h : recv s = (.byte ch, t)) :
    t.incoming.length < s.incoming.length := by
  rw [recv_byte_incoming h]
  exact Nat.lt_succ_self _

theorem recv_other_incoming {s t : Sock} {r : Recv} (h : recv s = (r, t))
    (hr : ∀ ch, r ≠ .byte ch) : t.incoming = s.incoming := by
  unfold recv at h
  split at h
  · cases h
    rfl
  · split at h
    · cases h
      rfl
    · cases h
      exact absurd rfl (hr _)

theorem recv_frame (s : Sock) :
    (recv s).2.fails = s.fails ∧ (recv s).2.calls = s.calls + 1 ∧
      (recv s).2.incoming.length ≤ s.incoming.length := by
  unfold recv
  split
  · exact ⟨rfl, rfl, Nat.le_refl _⟩
  · split
    · exact ⟨rfl, rfl, Nat.le_refl _⟩
    · rename_i heq
      exact ⟨rfl, rfl, by simp [heq]⟩

theorem recvPeek_frame (s : Sock) :
    (recvPeek s).2.fails = s.fails ∧ (recvPeek s).2.calls = s.calls + 1 ∧
      (recvPeek s).2.incoming = s.incoming := by
  unfold recvPeek
  split
  · exact ⟨rfl, rfl, rfl⟩
  · split <;> exact ⟨rfl, rfl, rfl⟩

/-- What `ReadInLine` does after a CR. Either way `ch` is LF then: it was
peeked, or it is assigned. The results of these two calls are not looked at. -/
def afterCR (s : Sock) : Sock :=
  let (peeked, s) := recvPeek s
  if peeked = .byte LF then (recv s).2 else s

theorem afterCR_frame (s : Sock) :
    (afterCR s).fails = s.fails ∧ (afterCR s).calls ≤ s.calls + 2 ∧
      (afterCR s).incoming.length ≤ s.incoming.length := by
  obtain ⟨hf, hc, hi⟩ := recvPeek_frame s
  obtain ⟨hf', hc', hi'⟩ := recv_frame (recvPeek s).2
  simp only [afterCR]
  split
  · exact ⟨hf'.trans hf, by omega, hi ▸ hi'⟩
  · exact ⟨hf, by omega, by rw [hi]⟩

structure LineRead where
  ret : Int
  out : Bytes
  sock : Sock

/-- `Util::ReadInLine`. The length is returned as an `int`. -/
def readInLine (sock : Sock) (out : Bytes) : LineRead :=
  match _h : recv sock with
  | (.byte ch, s) =>
    if ch = CR then ⟨signed 32 (out ++ [LF]).length, out ++ [LF], afterCR s⟩
    else if ch = LF then ⟨signed 32 (out ++ [LF]).length, out ++ [LF], s⟩
    else readInLine s (out ++ [ch])
  | (.closed, s) => ⟨0, out, s⟩
  | (.failed, s) => ⟨-1, out, s⟩
termination_by sock.incoming.length
decreasing_by exact recv_byte_length _h

/-- `target.find(sep)` -/
def find (target sep : Bytes) : Option Nat := (target.dropInfix? sep).map fun p => p.1.length

/-- `Util::CutString`: the two outputs keep their values when `sep` is absent. -/
def cutString (target sub1 sub2 sep : Bytes) : Bool × Bytes × Bytes :=
  match find target sep with
  | some pos => (true, target.take pos, target.drop (pos + sep.length))
  | none => (false, sub1, sub2)

theorem readInLine_cons {s : Sock} (hs : s.fails s.calls = false) {ch : Byte} {rest out : Bytes}
    (hin : s.incoming = ch :: rest) :
    readInLine s out =
      if ch = CR then ⟨signed 32 (out ++ [LF]).length, out ++ [LF],
        afterCR { s with incoming := rest, calls := s.calls + 1 }⟩
      else if ch = LF then ⟨signed 32 (out ++ [LF]).length, out ++ [LF],
        { s with incoming := rest, calls := s.calls + 1 }⟩
      else readInLine { s with incoming := rest, calls := s.calls + 1 } (out ++ [ch]) := by
  have hr : recv s = (.byte ch, { s with incoming := rest, calls := s.calls + 1 }) := by
    simp [recv, hs, hin]
  rw [readInLine]
  split <;> simp_all

theorem readInLine_nil {s : Sock} (hs : s.fails s.calls = false) {out : Bytes}
    (hin : s.incoming = []) :
    readInLine s out = ⟨0, out, { s with calls := s.calls + 1 }⟩ := by
  have hr : recv s = (.closed, { s with calls := s.calls + 1 }) := by simp [recv, hs, hin]
  rw [readInLine]
  split <;> simp_all

theorem readInLine_failed {s : Sock} (hs : s.fails s.calls = true) (out : Bytes) :
    readInLine s out = ⟨-1, out, { s with calls := s.calls + 1 }⟩ := by
  have hr : recv s = (.failed, { s with calls := s.calls + 1 }) := by simp [recv, hs]
  rw [readInLine]
  split <;> simp_all

/-- Calls made so far, and three for every byte still to come: what bounds a
whole exchange, since a line ends at the latest three calls after it began
without taking a byte. -/
def Sock.work (s : Sock) : Nat := s.calls + 3 * s.incoming.length

/-- Every way a call of `ReadInLine` can end: a whole line was appended to
`out`, or the call ended early and returned no positive value. -/
theorem readInLine_cases (s : Sock) (out : Bytes) :
    (readInLine s out).sock.fails = s.fails ∧
    ((∃ text, Plain CR LF text ∧ (readInLine s out).out = out ++ (text ++ [LF]) ∧
        (readInLine s out).ret = signed 32 (out ++ (text ++ [LF])).length ∧
        (readInLine s out).sock.incoming.length < s.incoming.length ∧
        (readInLine s out).sock.work ≤ s.work) ∨
      ((readInLine s out).ret ≤ 0 ∧ (readInLine s out).sock.work ≤ s.work + 1)) := by
  induction hin : s.incoming generalizing s out with
  | nil =>
    cases hf : s.fails s.calls with
    | true =>
      rw [readInLine_failed hf]
      exact ⟨rfl, Or.inr ⟨by simp, by simp only [Sock.work]; omega⟩⟩
    | false =>
      rw [readInLine_nil hf hin]
      exact ⟨rfl, Or.inr ⟨by simp, by simp only [Sock.work]; omega⟩⟩
  | cons ch rest ih =>
    cases hf : s.fails s.calls with
    | true =>
      rw [readInLine_failed hf]
      exact ⟨rfl, Or.inr ⟨by simp, by simp only [Sock.work]; omega⟩⟩
    | false =>
      rw [readInLine_cons hf hin]
      have hw : s.work = s.calls + 3 * (rest.length + 1) := by simp [Sock.work, hin]
      by_cases hcr : ch = CR
      · obtain ⟨hfs, hcalls, hlen⟩ :=
          afterCR_frame { s with incoming := rest, calls := s.calls + 1 }
        simp only at hfs hcalls hlen
        simp only [if_pos hcr]
        refine ⟨hfs, Or.inl ⟨[], by simp [Plain], by simp, by simp, ?_, ?_⟩⟩
        · simp only [List.length_cons]
          omega
        · rw [hw, Sock.work]
          omega
      · by_cases hlf : ch = LF
        · simp only [if_neg hcr, if_pos hlf]
          refine ⟨trivial, Or.inl ⟨[], by simp [Plain], by simp, by simp, by simp, ?_⟩⟩
          rw [hw, Sock.work]
          simp only
          omega
        · simp only [if_neg hcr, if_neg hlf]
          obtain ⟨hfs, h⟩ :=
            ih { s with incoming := rest, calls := s.calls + 1 } (out ++ [ch]) rfl
          refine ⟨hfs, ?_⟩
          simp only [Sock.work] at h hw ⊢
          rcases h with ⟨text, hp, hout, hret, hlen, hwork⟩ | ⟨hret, hwork⟩
          · refine Or.inl ⟨ch :: text, hp.cons hcr hlf, by simpa using hout,
              by simpa using hret, ?_, by omega⟩
            simp only [List.length_cons]
            omega
          · exact Or.inr ⟨hret, by omega⟩

theorem readInLine_progress {s : Sock} {out : Bytes} (h : 0 < (readInLine s out).ret) :
    (readInLine s out).sock.incoming.length < s.incoming.length := by
  rcases (readInLine_cases s out).2 with ⟨_, _, _, _, hlen, _⟩ | ⟨hret, _⟩
  · exact hlen
  · omega

/-- What `ReadInLine` makes of a stream whose calls all succeed: the next
terminated line, or the end of the stream. -/
theorem readInLine_sound {s : Sock} (hs : s.Sound) (out : Bytes) :
    match next? CR LF s.incoming with
    | some (text, rest) =>
      (readInLine s out).out = out ++ (text ++ [LF]) ∧
        (readInLine s out).ret = signed 32 (out ++ (text ++ [LF])).length ∧
        (readInLine s out).sock.incoming = rest
    | none => (readInLine s out).ret = 0 ∧ (readInLine s out).sock.incoming = [] := by
  induction hin : s.incoming generalizing s out with
  | nil =>
    rw [readInLine_nil (hs _) hin]
    exact ⟨rfl, hin⟩
  | cons ch rest ih =>
    rw [readInLine_cons (hs _) hin]
    by_cases hcr : ch = CR
    · simp only [next?, hcr, CR_ne_LF, if_false, if_pos, List.nil_append, afterCR, recvPeek,
        recv, hs _]
      cases rest with
      | nil => simp
      | cons c rest =>
        have hf : ∀ i, s.fails i = false := hs
        by_cases hc : c = LF <;> simp [hc, hf]
    · by_cases hlf : ch = LF
      · simp [next?, hlf, Ne.symm CR_ne_LF]
      · simp only [if_neg hcr, if_neg hlf]
        have h := ih (s := { s with incoming := rest, calls := s.calls + 1 }) hs (out ++ [ch]) rfl
        rw [Lib.Lines.next?_cons_plain hcr hlf]
        cases hn : next? CR LF rest with
        | none => simpa [hn] using h
        | some p => simpa [hn] using h

end MinHttp

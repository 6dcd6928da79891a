import MinHttp.Util

/-! `ReadInLine` called again and again, until it returns 0, on a stream that
ends and whose calls all succeed. -/
namespace MinHttp

open Lib.Lines (next? normalise Ending Plain)
open Lib.Numerals (signed)

theorem Sock.Sound.readInLine {s : Sock} (hs : s.Sound) (out : Bytes) :
    (readInLine s out).sock.Sound := by
  intro i
  rw [(readInLine_cases s out).1]
  exact hs i

/-- At the end of the stream everything left has gone into `out`. -/
theorem readInLine_end {s : Sock} (hs : s.Sound) (hn : next? CR LF s.incoming = none)
    (out : Bytes) : (readInLine s out).out = out ++ s.incoming := by
  induction hin : s.incoming generalizing s out with
  | nil => rw [readInLine_nil (hs _) hin, List.append_nil]
  | cons ch rest ih =>
    rw [hin] at hn
    obtain ⟨hcr, hlf⟩ := Lib.Lines.next?_none hn
    have hch : ch ≠ CR ∧ ch ≠ LF :=
      ⟨fun h => hcr (h ▸ List.mem_cons_self), fun h => hlf (h ▸ List.mem_cons_self)⟩
    rw [Lib.Lines.next?_cons_plain hch.1 hch.2, Option.map_eq_none_iff] at hn
    rw [readInLine_cons (hs _) hin, if_neg hch.1, if_neg hch.2]
    have htail := ih (s := { s with incoming := rest, calls := s.calls + 1 }) hs hn (out ++ [ch]) rfl
    rw [htail, List.append_assoc, List.singleton_append]

theorem readInLine_ret_lt (s : Sock) (out : Bytes) : (readInLine s out).ret < 2 ^ 31 := by
  obtain ⟨-, ⟨text, -, -, hret, -⟩ | ⟨hret, -⟩⟩ := readInLine_cases s out
  · rw [hret]
    exact (Lib.Numerals.signed32_bounds _).2
  · omega

theorem readInLine_again {s : Sock} (hs : s.Sound) (hret : (readInLine s []).ret ≠ 0) :
    (readInLine s []).sock.incoming.length < s.incoming.length := by
  have h := readInLine_sound hs []
  cases hn : next? CR LF s.incoming with
  | none =>
    rw [hn] at h
    exact absurd h.1 hret
  | some p =>
    rw [hn] at h
    rw [h.2.2]
    have hlen := Lib.Lines.next?_length hn
    omega

/-- What was unread at a call, and what the call made of it. -/
structure LineCall where
  before : Bytes
  read : LineRead

/-- The calls with an empty `out`: those before the first that returns 0, and
that one. -/
def readAllLines (s : Sock) (hs : s.Sound) : List LineCall × LineCall :=
  let call : LineCall := ⟨s.incoming, readInLine s []⟩
  if _h : (readInLine s []).ret = 0 then ([], call)
  else
    let later := readAllLines (readInLine s []).sock (hs.readInLine [])
    (call :: later.1, later.2)
termination_by s.incoming.length
decreasing_by exact readInLine_again hs _h

/-- The line and its own terminator leave the stream. -/
def LineCall.Consumes (c : LineCall) : Prop :=
  ∃ (text : Bytes) (e : Ending), Plain CR LF text ∧ c.read.out = text ++ [LF] ∧
    c.before = text ++ (e.symbols CR LF ++ c.read.sock.incoming) ∧
    (e = .cr → c.read.sock.incoming.head? ≠ some LF)

/-- The lines of the stream with one newline for all, and its tail. -/
structure UniversalNewlines (s : Bytes) (calls : List LineCall × LineCall) : Prop where
  lines : calls.1.map (·.read.out) = ((normalise CR LF s).splitOn LF).dropLast.map (· ++ [LF])
  lengths : ∀ c ∈ calls.1, c.read.ret = c.read.out.length
  consumes : ∀ c ∈ calls.1, c.Consumes
  tail : ((normalise CR LF s).splitOn LF).getLast? = some calls.2.read.out
  last : calls.2.read.ret = 0
  consumed : calls.2.read.sock.incoming = []

theorem readAllLines_last {s : Sock} (hs : s.Sound) (hret : (readInLine s []).ret = 0) :
    readAllLines s hs = ([], ⟨s.incoming, readInLine s []⟩) := by
  rw [readAllLines, dif_pos hret]

theorem readAllLines_cons {s : Sock} (hs : s.Sound) (hret : (readInLine s []).ret ≠ 0) :
    readAllLines s hs =
      (⟨s.incoming, readInLine s []⟩ ::
          (readAllLines (readInLine s []).sock (hs.readInLine [])).1,
        (readAllLines (readInLine s []).sock (hs.readInLine [])).2) := by
  rw [readAllLines, dif_neg hret]

theorem readAllLines_ret {s : Sock} (hs : s.Sound) :
    ∀ c ∈ (readAllLines s hs).1, c.read.ret < 2 ^ 31 := by
  induction hn : s.incoming.length using Nat.strongRecOn generalizing s with
  | ind n ih =>
    intro c hc
    by_cases hret : (readInLine s []).ret = 0
    · rw [readAllLines_last hs hret] at hc
      cases hc
    · rw [readAllLines_cons hs hret] at hc
      rcases List.mem_cons.mp hc with rfl | hc
      · exact readInLine_ret_lt s []
      · exact ih _ (hn ▸ readInLine_again hs hret) (hs.readInLine []) rfl c hc

/-- One more line in front of those that follow it. -/
theorem UniversalNewlines.cons {s rest text : Bytes} {calls : List LineCall × LineCall}
    {c : LineCall} (h : UniversalNewlines rest calls)
    (hn : next? CR LF s = some (text, rest)) (hout : c.read.out = text ++ [LF])
    (hret : c.read.ret = c.read.out.length) (hbefore : c.before = s)
    (hrest : c.read.sock.incoming = rest) : UniversalNewlines s (c :: calls.1, calls.2) := by
  have hsplit := Lib.Lines.splitOn_normalise CR_ne_LF s
  simp only [hn] at hsplit
  have hne : (normalise CR LF rest).splitOn LF ≠ [] := List.splitOn_ne_nil LF _
  obtain ⟨e, hs, hp, he⟩ := Lib.Lines.next?_sound hn
  constructor
  · rw [List.map_cons, hsplit, List.dropLast_cons_of_ne_nil hne, List.map_cons, hout, h.lines]
  · intro d hd
    rcases List.mem_cons.mp hd with rfl | hd
    · exact hret
    · exact h.lengths d hd
  · intro d hd
    rcases List.mem_cons.mp hd with rfl | hd
    · refine ⟨text, e, hp, hout, ?_, ?_⟩
      · rw [hbefore, hrest]
        exact hs
      · rw [hrest]
        exact he
    · exact h.consumes d hd
  · rw [hsplit, List.getLast?_cons_of_ne_nil hne]
    exact h.tail
  · exact h.last
  · exact h.consumed

theorem readAllLines_universal {s : Sock} (hs : s.Sound)
    (hfit : ∀ line ∈ ((normalise CR LF s.incoming).splitOn LF).dropLast,
      line.length + 1 < 2 ^ 31) : UniversalNewlines s.incoming (readAllLines s hs) := by
  induction hlen : s.incoming.length using Nat.strongRecOn generalizing s with
  | ind n ih =>
    have h := readInLine_sound hs []
    have hsplit := Lib.Lines.splitOn_normalise CR_ne_LF s.incoming
    cases hn : next? CR LF s.incoming with
    | none =>
      rw [hn] at h hsplit
      have hout := readInLine_end hs hn []
      rw [readAllLines_last hs h.1]
      constructor
      · rw [hsplit]
        rfl
      · exact fun c hc => absurd hc List.not_mem_nil
      · exact fun c hc => absurd hc List.not_mem_nil
      · rw [hsplit, hout]
        rfl
      · exact h.1
      · exact h.2
    | some p =>
      obtain ⟨text, rest⟩ := p
      simp only [hn, List.nil_append] at h hsplit
      obtain ⟨hout, hret, hrest⟩ := h
      have hne : (normalise CR LF rest).splitOn LF ≠ [] := List.splitOn_ne_nil LF _
      rw [hsplit, List.dropLast_cons_of_ne_nil hne, List.forall_mem_cons] at hfit
      have hlength : (readInLine s []).ret = (text ++ [LF]).length := by
        rw [hret, Lib.Numerals.signed32_natCast_of_lt]
        rw [List.length_append, List.length_singleton]
        exact hfit.1
      have hnonzero : (readInLine s []).ret ≠ 0 := by
        rw [hlength, List.length_append, List.length_singleton]
        omega
      have hlater := ih _ (hlen ▸ readInLine_again hs hnonzero) (hs.readInLine [])
        (by rw [hrest]; exact hfit.2) rfl
      rw [hrest] at hlater
      rw [readAllLines_cons hs hnonzero]
      apply hlater.cons hn hout _ rfl hrest
      rw [hout]
      exact hlength

/-- A length returned as it is was never cut off. -/
theorem UniversalNewlines.short {s : Sock} {hs : s.Sound}
    (h : UniversalNewlines s.incoming (readAllLines s hs)) :
    ∀ line ∈ ((normalise CR LF s.incoming).splitOn LF).dropLast, line.length + 1 < 2 ^ 31 := by
  intro line hline
  have hmem : line ++ [LF] ∈ (readAllLines s hs).1.map (·.read.out) := by
    rw [h.lines]
    exact List.mem_map_of_mem hline
  obtain ⟨c, hc, hout⟩ := List.mem_map.mp hmem
  have hret := h.lengths c hc
  have hlt := readAllLines_ret hs c hc
  rw [hout, List.length_append, List.length_singleton] at hret
  omega

/-- **Lines are split at all newlines alike** exactly when every line is short
enough for its length to be an `int`. -/
theorem readAllLines_universal_iff (stream : Bytes) :
    UniversalNewlines stream
        (readAllLines (.new stream fun _ => false) (Sock.new_sound stream)) ↔
      ∀ line ∈ ((normalise CR LF stream).splitOn LF).dropLast, line.length + 1 < 2 ^ 31 := by
  constructor
  · intro h
    exact UniversalNewlines.short (s := .new stream fun _ => false) h
  · intro hshort
    exact readAllLines_universal (Sock.new_sound stream) hshort

theorem readAllLines_long {text : Bytes} (hp : Plain CR LF text) (hlen : 2 ^ 31 ≤ text.length + 1) :
    ¬ UniversalNewlines (text ++ [LF])
      (readAllLines (.new (text ++ [LF]) fun _ => false) (Sock.new_sound _)) := by
  intro h
  have hn : next? CR LF (text ++ [LF]) = some (text, []) :=
    Lib.Lines.next?_line (e := .lf) CR_ne_LF hp nofun
  have hsplit := Lib.Lines.splitOn_normalise CR_ne_LF (text ++ [LF])
  rw [hn] at hsplit
  have hmem : text ∈ ((normalise CR LF (text ++ [LF])).splitOn LF).dropLast := by
    rw [hsplit]
    exact List.mem_cons_self
  have hshort := UniversalNewlines.short (s := .new (text ++ [LF]) fun _ => false) h text hmem
  omega

/-- A line of `2 ^ 31` bytes, its newline counted. -/
theorem readAllLines_negative :
    ¬ UniversalNewlines (List.replicate (2 ^ 31 - 1) 97 ++ [LF])
      (readAllLines (.new (List.replicate (2 ^ 31 - 1) 97 ++ [LF]) fun _ => false)
        (Sock.new_sound _)) := by
  apply readAllLines_long
  · constructor <;> intro hmem <;> exact absurd (List.eq_of_mem_replicate hmem) (by decide)
  · rw [List.length_replicate]
    omega

end MinHttp

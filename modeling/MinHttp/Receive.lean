import MinHttp.Request

/-! What the receiving functions do: to any socket, and to one whose calls
succeed, where the stream alone decides. -/
namespace MinHttp

open Lib.Lines (next? block? Plain)
open Lib.Numerals (signed unsigned)

/-- The length of the line, its newline counted, is still positive as an `int`. -/
def Fits (text : Bytes) : Prop := 0 < signed 32 (text ++ [LF]).length

instance (text : Bytes) : Decidable (Fits text) := inferInstanceAs (Decidable (_ < _))

theorem fits_of_length {text : Bytes} (h : text.length + 1 < 2 ^ 31) : Fits text := by
  unfold Fits
  rw [Lib.Numerals.signed32_of_mem] <;> simp <;> omega

theorem getRequestLine_eq (ep : EndPoint) :
    getRequestLine ep =
      { ep with
        sock := (readInLine ep.sock ep.request.reqLine).sock
        request := { ep.request with reqLine := (getRequestLine ep).request.reqLine }
        stop := ep.stop || decide ((readInLine ep.sock ep.request.reqLine).ret ≤ 0) } := by
  by_cases h : 0 < (readInLine ep.sock ep.request.reqLine).ret
  · simp [getRequestLine, h]
  · simp [getRequestLine, h, Int.not_lt.mp h]

theorem getRequestLine_sound (ep : EndPoint) (hs : ep.sock.Sound)
    (hline : ep.request.reqLine = []) {text rest : Bytes}
    (hn : next? CR LF ep.sock.incoming = some (text, rest)) (hfit : Fits text) :
    getRequestLine ep =
        { ep with
          sock := (readInLine ep.sock []).sock
          request := { ep.request with reqLine := text } } ∧
      (readInLine ep.sock []).sock.incoming = rest := by
  have h := readInLine_sound hs []
  rw [hn] at h
  obtain ⟨hout, hret, hrest⟩ := h
  have hpos : 0 < (readInLine ep.sock []).ret := by
    rw [hret]
    exact hfit
  simp [getRequestLine, hline, hpos, hout, hrest]

/-- Nothing that follows clears `stop` once the request line is not there. -/
theorem getRequestLine_stop {ep : EndPoint} (hs : ep.sock.Sound)
    (hline : ep.request.reqLine = [])
    (hn : ∀ text rest, next? CR LF ep.sock.incoming = some (text, rest) → ¬ Fits text) :
    (getRequestLine ep).stop = true := by
  have h := readInLine_sound hs []
  rw [getRequestLine_eq, hline]
  cases hnext : next? CR LF ep.sock.incoming with
  | none =>
    rw [hnext] at h
    simp [h.1]
  | some p =>
    obtain ⟨text, rest⟩ := p
    rw [hnext] at h
    have hret : (readInLine ep.sock []).ret ≤ 0 := by
      rw [h.2.1]
      exact Int.not_lt.mp (hn text rest hnext)
    simp [hret]

theorem requestHeadLoop_stop {line : Bytes} {ep : EndPoint} (hline : line ≠ [LF])
    (hret : (readInLine ep.sock []).ret ≤ 0) :
    requestHeadLoop line ep =
      { ep with sock := (readInLine ep.sock []).sock, stop := true } := by
  rw [requestHeadLoop, if_neg hline, dif_pos hret]

theorem requestHeadLoop_blank {line : Bytes} {ep : EndPoint} (hline : line ≠ [LF])
    (hret : 0 < (readInLine ep.sock []).ret) (hout : (readInLine ep.sock []).out = [LF]) :
    requestHeadLoop line ep =
      { ep with
        sock := (readInLine ep.sock []).sock
        request := { ep.request with blank := [LF] } } := by
  rw [requestHeadLoop, if_neg hline, dif_neg (by omega), if_pos hout, hout]

/-- One header line is read and kept without its newline. -/
def EndPoint.withHead (ep : EndPoint) (sock : Sock) (text : Bytes) : EndPoint :=
  { ep with sock := sock, request := { ep.request with reqHead := ep.request.reqHead ++ [text] } }

theorem requestHeadLoop_line {line text : Bytes} {ep : EndPoint} (hline : line ≠ [LF])
    (hret : 0 < (readInLine ep.sock []).ret)
    (hout : (readInLine ep.sock []).out = text ++ [LF]) (htext : text ≠ []) :
    requestHeadLoop line ep =
      requestHeadLoop text (ep.withHead (readInLine ep.sock []).sock text) := by
  rw [requestHeadLoop, if_neg hline, dif_neg (by omega), if_neg (by simpa [hout] using htext)]
  simp [hout, EndPoint.withHead]

theorem Plain_ne_newline {text : Bytes} (h : Plain CR LF text) : text ≠ [LF] := by
  rintro rfl
  exact h.2 (by simp)

/-- Whatever the calls return, reading the head only fills in the header
lines and the blank line, and either reaches the blank line or sets `stop`. -/
theorem requestHeadLoop_frame {line : Bytes} (ep : EndPoint) (hline : line ≠ [LF]) :
    requestHeadLoop line ep =
        { ep with
          sock := (requestHeadLoop line ep).sock
          request := { ep.request with
            reqHead := (requestHeadLoop line ep).request.reqHead
            blank := (requestHeadLoop line ep).request.blank }
          stop := (requestHeadLoop line ep).stop } ∧
      (requestHeadLoop line ep).sock.fails = ep.sock.fails ∧
      (ep.stop = true → (requestHeadLoop line ep).stop = true) ∧
      ((requestHeadLoop line ep).stop = true →
        (requestHeadLoop line ep).sock.work ≤ ep.sock.work + 1) ∧
      ((requestHeadLoop line ep).stop = false →
        (requestHeadLoop line ep).request.blank = [LF] ∧
          (requestHeadLoop line ep).sock.work ≤ ep.sock.work) := by
  induction hn : ep.sock.incoming.length using Nat.strongRecOn generalizing ep line with
  | ind n ih =>
    obtain ⟨hfails, h⟩ := readInLine_cases ep.sock []
    by_cases hret : 0 < (readInLine ep.sock []).ret
    · obtain ⟨text, hp, hout, -, hlen, hwork⟩ | ⟨hret', -⟩ := h
      · by_cases ht : text = []
        · subst ht
          rw [requestHeadLoop_blank hline hret (by simpa using hout)]
          exact ⟨rfl, hfails, id, fun _ => by simp only; omega, fun _ => ⟨rfl, hwork⟩⟩
        · rw [requestHeadLoop_line hline hret (by simpa using hout) ht]
          obtain ⟨heq, hf, hstop, hw, hb⟩ :=
            ih _ (hn ▸ hlen) (ep.withHead (readInLine ep.sock []).sock text)
              (Plain_ne_newline hp) rfl
          refine ⟨heq, hf.trans hfails, hstop, fun h => ?_, fun h => ⟨(hb h).1, ?_⟩⟩
          · exact (hw h).trans (Nat.succ_le_succ hwork)
          · exact (hb h).2.trans hwork
      · omega
    · rw [requestHeadLoop_stop hline (by omega)]
      refine ⟨rfl, hfails, fun _ => rfl, fun _ => ?_, fun h => by cases h⟩
      obtain ⟨_, _, _, _, _, hwork⟩ | ⟨_, hwork⟩ := h
      · simp only; omega
      · exact hwork

/-- On a sound socket the head is the block of lines up to the first empty
one, if the stream has it and its lines fit. -/
theorem requestHeadLoop_sound {line : Bytes} {ep : EndPoint} (hs : ep.sock.Sound)
    (hline : line ≠ [LF]) :
    match block? CR LF ep.sock.incoming with
    | some (texts, rest) =>
      ((∀ t ∈ texts, Fits t) →
        (requestHeadLoop line ep).stop = ep.stop ∧
          (requestHeadLoop line ep).request.reqHead = ep.request.reqHead ++ texts ∧
          (requestHeadLoop line ep).sock.incoming = rest) ∧
      ((∃ t ∈ texts, ¬ Fits t) → (requestHeadLoop line ep).stop = true)
    | none => (requestHeadLoop line ep).stop = true := by
  induction hn : ep.sock.incoming.length using Nat.strongRecOn generalizing ep line with
  | ind n ih =>
    have h := readInLine_sound hs []
    cases hnext : next? CR LF ep.sock.incoming with
    | none =>
      rw [hnext] at h
      rw [Lib.Lines.block?_none hnext, requestHeadLoop_stop hline (by omega)]
    | some p =>
      obtain ⟨text, rest⟩ := p
      rw [hnext] at h
      simp only [List.nil_append] at h
      obtain ⟨hout, hret, hrest⟩ := h
      by_cases ht : text = []
      · subst ht
        have hpos : 0 < (readInLine ep.sock []).ret := by
          rw [hret]
          decide
        rw [Lib.Lines.block?_empty hnext, requestHeadLoop_blank hline hpos (by simpa using hout)]
        simp [hrest]
      · rw [Lib.Lines.block?_line hnext ht]
        by_cases hfit : Fits text
        · have hpos : 0 < (readInLine ep.sock []).ret := by
            rw [hret]
            exact hfit
          have hp : Plain CR LF text := by
            obtain ⟨_, _, hp, _⟩ := Lib.Lines.next?_sound hnext
            exact hp
          rw [requestHeadLoop_line hline hpos hout ht]
          have hlen := Lib.Lines.next?_length hnext
          have hs' : (ep.withHead (readInLine ep.sock []).sock text).sock.Sound := by
            intro i
            rw [EndPoint.withHead, (readInLine_cases ep.sock []).1]
            exact hs i
          have hstep := ih rest.length (by omega) hs' (Plain_ne_newline hp)
            (by simp [EndPoint.withHead, hrest])
          simp only [EndPoint.withHead, hrest] at hstep ⊢
          cases hb : block? CR LF rest with
          | none => simpa [hb] using hstep
          | some q =>
            obtain ⟨texts, tail⟩ := q
            rw [hb] at hstep
            simpa [hfit] using hstep
        · have hnpos : (readInLine ep.sock []).ret ≤ 0 := by
            rw [hret]
            simpa [Fits] using hfit
          rw [requestHeadLoop_stop hline hnpos]
          cases block? CR LF rest with
          | none => rfl
          | some q => exact ⟨fun h => absurd (h text List.mem_cons_self) hfit, fun _ => rfl⟩

/-- The next `n` calls of `recv` give a byte each. -/
def Sock.Delivers (s : Sock) (n : Nat) : Prop :=
  n ≤ s.incoming.length ∧ ∀ i < n, s.fails (s.calls + i) = false

theorem Sock.delivers_zero (s : Sock) : s.Delivers 0 :=
  ⟨Nat.zero_le _, fun i hi => absurd hi (Nat.not_lt_zero i)⟩

/-- One call, and then the others. -/
theorem Sock.delivers_succ (s : Sock) (n : Nat) :
    s.Delivers (n + 1) ↔ ∃ ch t, recv s = (.byte ch, t) ∧ t.Delivers n := by
  constructor
  · rintro ⟨hlen, hfails⟩
    have hnow : s.fails s.calls = false := hfails 0 (Nat.succ_pos n)
    cases hin : s.incoming with
    | nil =>
      rw [hin] at hlen
      exact absurd hlen (Nat.not_succ_le_zero n)
    | cons ch rest =>
      refine ⟨ch, { s with incoming := rest, calls := s.calls + 1 }, ?_, ?_, fun i hi => ?_⟩
      · simp only [recv, hnow, Bool.false_eq_true, if_false, hin]
      · rw [hin] at hlen
        exact Nat.le_of_succ_le_succ hlen
      · have hlater := hfails (i + 1) (Nat.succ_lt_succ hi)
        rwa [Nat.add_comm i 1, ← Nat.add_assoc] at hlater
  · rintro ⟨ch, t, hr, hlen, hfails⟩
    unfold recv at hr
    split at hr
    · cases hr
    · rename_i hnow
      split at hr
      · cases hr
      · rename_i ch' rest hin
        cases hr
        refine ⟨?_, fun i hi => ?_⟩
        · rw [hin]
          exact Nat.succ_le_succ hlen
        · cases i with
          | zero => simpa using hnow
          | succ i =>
            have hlater := hfails i (Nat.lt_of_succ_lt_succ hi)
            rwa [Nat.add_assoc, Nat.add_comm 1 i] at hlater

/-- The loop takes as many bytes as the counter is away from zero, or the
calls give out before and `stop` is set. -/
theorem bodyLoop_delivers (s : Sock) {c : Int} (hlo : -2 ^ 31 ≤ c) (hhi : c < 2 ^ 31)
    (body : Bytes) :
    (s.Delivers (unsigned 32 c) →
      (bodyLoop s c body).stop = false ∧
        (bodyLoop s c body).body = body ++ s.incoming.take (unsigned 32 c) ∧
        (bodyLoop s c body).sock.incoming = s.incoming.drop (unsigned 32 c)) ∧
    (¬ s.Delivers (unsigned 32 c) → (bodyLoop s c body).stop = true) := by
  induction hk : unsigned 32 c generalizing s c body with
  | zero =>
    obtain rfl := Lib.Numerals.eq_zero_of_unsigned32 hlo hhi hk
    refine ⟨fun _ => ?_, fun hnot => absurd s.delivers_zero hnot⟩
    rw [bodyLoop, if_pos rfl]
    exact ⟨rfl, (List.append_nil _).symm, rfl⟩
  | succ k ih =>
    have hc : c ≠ 0 := by
      rintro rfl
      cases hk
    have hb := Lib.Numerals.signed32_bounds (c - 1)
    have hpred : unsigned 32 (signed 32 (c - 1)) = k := by
      have hstep := Lib.Numerals.unsigned32_pred hc hlo hhi
      omega
    rw [Sock.delivers_succ, bodyLoop, if_neg hc]
    split
    · rename_i ch t hr
      have hin := recv_byte_incoming hr
      obtain ⟨hgood, hbad⟩ := ih t hb.1 hb.2 (body ++ [ch]) hpred
      constructor
      · rintro ⟨ch', t', hr', hd⟩
        cases hr.symm.trans hr'
        obtain ⟨hstop, hbody, hrest⟩ := hgood hd
        refine ⟨hstop, ?_, ?_⟩
        · rw [hbody, hin, List.take_succ_cons, List.append_assoc, List.singleton_append]
        · rw [hrest, hin, List.drop_succ_cons]
      · intro hnot
        apply hbad
        intro hd
        exact hnot ⟨ch, t, hr, hd⟩
    · rename_i t hr
      constructor
      · rintro ⟨ch', t', hr', -⟩
        cases hr.symm.trans hr'
      · intro _
        rfl
    · rename_i t hr
      constructor
      · rintro ⟨ch', t', hr', -⟩
        cases hr.symm.trans hr'
      · intro _
        rfl

theorem bodyLoop_sound {s : Sock} (hs : s.Sound) {c : Int} (hlo : -2 ^ 31 ≤ c)
    (hhi : c < 2 ^ 31) (body : Bytes) :
    (unsigned 32 c ≤ s.incoming.length →
      (bodyLoop s c body).stop = false ∧
        (bodyLoop s c body).body = body ++ s.incoming.take (unsigned 32 c) ∧
        (bodyLoop s c body).sock.incoming = s.incoming.drop (unsigned 32 c)) ∧
    (s.incoming.length < unsigned 32 c → (bodyLoop s c body).stop = true) := by
  obtain ⟨hgood, hbad⟩ := bodyLoop_delivers s hlo hhi body
  constructor
  · intro hlen
    exact hgood ⟨hlen, fun i _ => hs (s.calls + i)⟩
  · intro hlen
    apply hbad
    intro hd
    exact Nat.not_le.mpr hlen hd.1

/-- A loop that is to take more than there is takes all there is. -/
theorem bodyLoop_short {s : Sock} (hs : s.Sound) {c : Int} (hlo : -2 ^ 31 ≤ c) (hhi : c < 2 ^ 31)
    (hshort : s.incoming.length < unsigned 32 c) (body : Bytes) :
    (bodyLoop s c body).body = body ++ s.incoming ∧ (bodyLoop s c body).sock.incoming = [] := by
  induction hin : s.incoming generalizing s c body with
  | nil =>
    have hc := Lib.Numerals.ne_zero_of_lt_unsigned32 hshort
    have hr : recv s = (.closed, { s with calls := s.calls + 1 }) := by
      simp [recv, hs s.calls, hin]
    rw [bodyLoop, if_neg hc]
    split <;> rename_i heq <;> cases hr.symm.trans heq
    exact ⟨(List.append_nil _).symm, hin⟩
  | cons ch rest ih =>
    have hc := Lib.Numerals.ne_zero_of_lt_unsigned32 hshort
    have hr : recv s = (.byte ch, { s with incoming := rest, calls := s.calls + 1 }) := by
      simp [recv, hs s.calls, hin]
    have hpred := Lib.Numerals.unsigned32_pred hc hlo hhi
    have hb := Lib.Numerals.signed32_bounds (c - 1)
    rw [bodyLoop, if_neg hc]
    split <;> rename_i heq <;> cases hr.symm.trans heq
    rw [hin, List.length_cons] at hshort
    obtain ⟨hbody, hrest⟩ := @ih { s with incoming := rest, calls := s.calls + 1 } hs _ hb.1 hb.2
      (by simp only; omega) (body ++ [ch]) rfl
    refine ⟨?_, hrest⟩
    rw [hbody, List.append_assoc, List.singleton_append]

/-- The loop takes as much of its length as there is. -/
theorem bodyLoop_takes {s : Sock} (hs : s.Sound) {c : Int} (hlo : -2 ^ 31 ≤ c) (hhi : c < 2 ^ 31) :
    (bodyLoop s c []).stop = decide (s.incoming.length < unsigned 32 c) ∧
      (bodyLoop s c []).body = s.incoming.take (unsigned 32 c) ∧
      (bodyLoop s c []).sock.incoming = s.incoming.drop (unsigned 32 c) := by
  obtain ⟨hgood, hbad⟩ := bodyLoop_sound hs hlo hhi []
  by_cases hn : unsigned 32 c ≤ s.incoming.length
  · obtain ⟨hstop, hbody, hrest⟩ := hgood hn
    exact ⟨by simpa [hstop] using hn, hbody, hrest⟩
  · have hshort := Nat.lt_of_not_le hn
    obtain ⟨hbody, hrest⟩ := bodyLoop_short hs hlo hhi hshort []
    refine ⟨by simpa [hbad hshort] using hshort, ?_, ?_⟩
    · rw [hbody, List.take_of_length_le hshort.le, List.nil_append]
    · rw [hrest, List.drop_of_length_le hshort.le]

/-- Whatever the calls return, a loop that ends without `stop` has read as
many bytes as its counter said. -/
theorem bodyLoop_length {s : Sock} {c : Int} (hlo : -2 ^ 31 ≤ c) (hhi : c < 2 ^ 31)
    {body : Bytes} (hstop : (bodyLoop s c body).stop = false) :
    (bodyLoop s c body).body.length = body.length + unsigned 32 c := by
  obtain ⟨hgood, hbad⟩ := bodyLoop_delivers s hlo hhi body
  by_cases hd : s.Delivers (unsigned 32 c)
  · rw [(hgood hd).2.1, List.length_append, List.length_take, Nat.min_eq_left hd.1]
  · rw [hbad hd] at hstop
    cases hstop

theorem bodyLoop_work (s : Sock) (c : Int) (body : Bytes) :
    (bodyLoop s c body).sock.work ≤ s.work + 1 := by
  induction hn : s.incoming.length using Nat.strongRecOn generalizing s c body with
  | ind n ih =>
    obtain ⟨-, hcalls, hlen⟩ := recv_frame s
    rw [bodyLoop]
    split
    · exact Nat.le_succ _
    · split
      · rename_i ch t hr
        have hlt := recv_byte_length hr
        have hwork := ih _ (hn ▸ hlt) t (signed 32 (c - 1)) (body ++ [ch]) rfl
        rw [hr] at hcalls
        simp only at hcalls
        simp only [Sock.work] at hwork ⊢
        omega
      all_goals
        rename_i hr
        rw [hr] at hcalls hlen
        simp only [Sock.work] at hcalls hlen ⊢
        omega

end MinHttp

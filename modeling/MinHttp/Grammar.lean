import MinHttp.Accept
import MinHttp.Send

/-! Which streams `RecvHttpRequest` accepts, and what it has read when it
does, for every value its caller may see `GetRequestLine` yield. -/
namespace MinHttp

open Lib.Lines (next? block? Line Ending render Separated Plain)
open Lib.Numerals (signed unsigned)

theorem getRequestLine_work (ep : EndPoint) :
    (getRequestLine ep).sock.work ≤ ep.sock.work + 1 ∧
      ((getRequestLine ep).stop = false → (getRequestLine ep).sock.work ≤ ep.sock.work) := by
  rw [getRequestLine_eq]
  obtain ⟨-, ⟨text, -, -, -, -, hwork⟩ | ⟨hret, hwork⟩⟩ :=
    readInLine_cases ep.sock ep.request.reqLine
  · exact ⟨by simp only; omega, fun _ => hwork⟩
  · exact ⟨hwork, fun h => by simp [hret] at h⟩

theorem recvHttpRequestBody_work (ep : EndPoint) :
    (recvHttpRequestBody ep).sock.work ≤ ep.sock.work + 1 := by
  by_cases hm : ep.request.method = methodPost
  · cases hv : ep.request.headKv.lookup contentLengthKey with
    | none =>
      rw [recvHttpRequestBody_none _ (fun _ => hv)]
      omega
    | some v =>
      rw [recvHttpRequestBody_announced _ hm hv]
      exact bodyLoop_work ep.sock (atoi v) _
  · rw [recvHttpRequestBody_none _ (fun h => absurd h hm)]
    omega

/-- No more `recv` calls than three for each byte of the stream, and two. -/
theorem recvHttpRequest_calls (flowsOff : EndPoint → Bool) (sock : Sock) (size : Int) :
    (recvHttpRequest flowsOff (.new sock size)).sock.work ≤ sock.work + 2 := by
  have hline := getRequestLine_work (.new sock size)
  have hhead := requestHeadLoop_frame (getRequestLine (.new sock size)) nil_ne_newline
  obtain ⟨-, -, hkeep, hstop, hgo⟩ := hhead
  simp only [show (EndPoint.new sock size).sock = sock from rfl] at hline
  unfold recvHttpRequest
  simp only
  split
  · omega
  · split
    · rename_i h
      exact (hstop h).trans (Nat.succ_le_succ hline.1)
    · rename_i h
      rw [Bool.not_eq_true] at h
      have hw := (hgo h).2
      have hns : (getRequestLine (.new sock size)).stop = false := by
        by_contra hs
        rw [Bool.not_eq_false] at hs
        rw [getRequestHead, hkeep hs] at h
        cases h
      have hbody := recvHttpRequestBody_work (parseHttpRequestHead (parseHttpRequestLine
        (getRequestHead (getRequestLine (.new sock size)))))
      have hparse : (parseHttpRequestHead (parseHttpRequestLine
          (getRequestHead (getRequestLine (.new sock size))))).sock =
          (getRequestHead (getRequestLine (.new sock size))).sock := rfl
      rw [hparse] at hbody
      have := hline.2 hns
      simp only [getRequestHead] at *
      omega

/-- With the value `stop`, the receiver stops where the five functions do. -/
theorem recvHttpRequest_isStop (ep : EndPoint) :
    (recvHttpRequest EndPoint.isStop ep).stop = (receiveAll ep).stop := by
  have hkeep := (requestHeadLoop_frame (getRequestLine ep) nil_ne_newline).2.2.1
  unfold recvHttpRequest EndPoint.isStop
  simp only
  split
  · rename_i h
    rw [h, receiveAll_stop (hkeep h)]
  · split
    · rename_i h
      rw [h, receiveAll_stop h]
    · rfl

/-- The stream, split into lines, has a first line, an empty line after it,
and after that empty line as many bytes as a POST announces. -/
def InGrammar (s : Bytes) : Prop :=
  ∃ (first : Line Byte) (headers : List (Line Byte)) (blank : Ending) (rest : Bytes),
    s = render CR LF (first :: (headers ++ [.blank blank])) rest ∧
    Separated CR LF (first :: (headers ++ [.blank blank])) rest ∧
    (∀ h ∈ headers, h.text ≠ []) ∧
    ∀ v, announced (upperMethod first.text) (headers.map Line.text) = some v →
      0 ≤ atoi v ∧ (atoi v).toNat ≤ rest.length

/-- On a stream shorter than 2^31 bytes a negative length is never met. -/
theorem parse_isSome_iff {s : Bytes} (hlen : s.length < 2 ^ 31) :
    (∃ p, parse? s = some p) ↔ InGrammar s := by
  constructor
  · rintro ⟨p, hp⟩
    simp only [parse?, Option.bind_eq_bind, Option.bind_eq_some_iff, Prod.exists] at hp
    obtain ⟨line, s₁, hl, head, rest, hh, hp⟩ := hp
    obtain ⟨e, hs, hplain, he⟩ := Lib.Lines.next?_sound hl
    obtain ⟨lines, e', rfl, hr, hsep, hne⟩ := Lib.Lines.block?_sound hh
    have hs₁ := Lib.Lines.next?_length hl
    have hrest : rest.length ≤ s₁.length := hr ▸ Lib.Lines.rest_length_le CR LF _ _
    refine ⟨⟨line, e⟩, lines, e', rest, ?_, ?_, hne, fun v hv => ?_⟩
    · rw [Lib.Lines.render_cons, ← hr]
      exact hs
    · rw [Lib.Lines.separated_cons, ← hr]
      exact ⟨hplain, he, hsep⟩
    · have hb := atoi_bounds v
      simp only at hv
      simp only [hv] at hp
      have hn : unsigned 32 (atoi v) ≤ rest.length := by
        by_contra hn
        simp [hn] at hp
      by_cases hneg : atoi v < 0
      · have := Lib.Numerals.unsigned32_of_neg hneg hb.1
        omega
      · rw [Lib.Numerals.unsigned32_of_nonneg (by omega) hb.2] at hn
        exact ⟨by omega, hn⟩
  · rintro ⟨first, headers, blank, rest, rfl, hsep, hne, hbody⟩
    rw [Lib.Lines.separated_cons] at hsep
    obtain ⟨hplain, he, hsep⟩ := hsep
    have hl := Lib.Lines.next?_line CR_ne_LF hplain he
    have hh := Lib.Lines.block?_render CR_ne_LF hsep hne
    simp only [parse?, Lib.Lines.render_cons, hl, hh, Option.bind_eq_bind, Option.bind_some]
    cases hann : announced (upperMethod first.text) (headers.map Line.text) with
    | none => exact ⟨_, rfl⟩
    | some v =>
      obtain ⟨hpos, hle⟩ := hbody v hann
      have hn : unsigned 32 (atoi v) ≤ rest.length := by
        rw [Lib.Numerals.unsigned32_of_nonneg hpos (atoi_bounds v).2]
        exact hle
      simp only [if_pos hn]
      exact ⟨_, rfl⟩

/-- A line of a short stream fits. -/
theorem parse_fits {s : Bytes} (hlen : s.length < 2 ^ 31) {p : Parsed} (hp : parse? s = some p) :
    p.Fits := by
  have hparts : ∃ s₁ rest, next? CR LF s = some (p.line, s₁) ∧
      block? CR LF s₁ = some (p.head, rest) := by
    simp only [parse?, Option.bind_eq_bind, Option.bind_eq_some_iff, Prod.exists] at hp
    obtain ⟨line, s₁, hl, head, rest, hh, hp⟩ := hp
    refine ⟨s₁, rest, ?_⟩
    split at hp
    · cases hp
      exact ⟨hl, hh⟩
    · split_ifs at hp
      cases hp
      exact ⟨hl, hh⟩
  obtain ⟨s₁, rest, hl, hh⟩ := hparts
  have hlt := Lib.Lines.next?_length hl
  refine ⟨fits_of_length (by omega), fun t ht => fits_of_length ?_⟩
  obtain ⟨lines, e, hhead, hr, -, -⟩ := Lib.Lines.block?_sound hh
  have : t.length < s₁.length := by
    rw [hhead] at ht
    obtain ⟨l, hl', rfl⟩ := List.mem_map.mp ht
    obtain ⟨a, b, rfl⟩ := List.append_of_mem hl'
    rw [hr, List.append_assoc, List.cons_append, Lib.Lines.render_append, Lib.Lines.render_cons]
    have := l.ending.symbols_length_pos CR LF
    simp only [render, List.length_append]
    omega
  omega

theorem receiveAll_stop_iff {s : Bytes} (hlen : s.length < 2 ^ 31) (size : Int) :
    (receiveAll (.new (.new s fun _ => false) size)).stop = false ↔ InGrammar s := by
  have h := receiveAll_sound (Sock.new_sound s) size
  rw [show (Sock.new s fun _ => false).incoming = s from rfl] at h
  rw [← parse_isSome_iff hlen]
  cases hp : parse? s with
  | none =>
    rw [hp] at h
    simp [h]
  | some p =>
    rw [hp] at h
    simp [(h.1 (parse_fits hlen hp)).1]

/-- **The receiver accepts the grammar**, stops after boundedly many calls,
and a rejected request is answered by nothing. -/
theorem accepts_iff_grammar (s : Bytes) (hlen : s.length < 2 ^ 31) (size : Int) (w : World)
    (o : Sender) (files : Int → Option Bytes) :
    let ep := recvHttpRequest EndPoint.isStop (.new (.new s fun _ => false) size)
    (ep.isStop = false ↔ InGrammar s) ∧
      ep.sock.calls ≤ 3 * s.length + 2 ∧
      (ep.isStop = true →
        (handlerRequest EndPoint.isStop w o files (.new s fun _ => false) size).sent = []) := by
  refine ⟨?_, ?_, fun h => ?_⟩
  · rw [EndPoint.isStop, recvHttpRequest_isStop, receiveAll_stop_iff hlen]
  · have h := recvHttpRequest_calls EndPoint.isStop (.new s fun _ => false) size
    simp only [Sock.work, Sock.new] at h ⊢
    omega
  · simp only [handlerRequest, h, if_true]

theorem accepts_iff_grammar_post :
    let s := str "post / HTTP/1.0\r\nContent-Length: 1\r\n\r\nx"
    let ep := recvHttpRequest EndPoint.isStop (.new (.new s fun _ => false) 0)
    (ep.isStop = false ↔ InGrammar s) ∧ ep.sock.calls ≤ 3 * s.length + 2 ∧
      (ep.isStop = true → (handlerRequest EndPoint.isStop
        ⟨fun _ => none, none, none, none, none, false, [], some 0, false⟩
        ⟨fun _ n => n, fun _ n => Int.le_refl n⟩ (fun _ => none)
        (.new s fun _ => false) 0).sent = []) :=
  accepts_iff_grammar _ (by decide) 0 _ _ _

end MinHttp

import MinHttp.Accept

/-! A request written on the wire is read back as it was written, as long as
the length of no line turns negative or zero in the `int` it is returned as. -/
namespace MinHttp

open Lib.Lines (Line Ending render Unambiguous)
open Lib.Numerals (signed unsigned decimal)

theorem fits_iff (text : Bytes) :
    Fits text ↔ 0 < (text.length + 1) % 2 ^ 32 ∧ (text.length + 1) % 2 ^ 32 < 2 ^ 31 := by
  have h := Int.bmod_def ((text ++ [LF]).length : Int) (2 ^ 32)
  unfold Fits signed
  rw [h]
  simp only [List.length_append, List.length_singleton]
  push_cast
  split <;> omega

theorem fits_blank (e : Ending) : Fits (Line.blank (α := Byte) e).text := by
  rw [fits_iff]
  simp [Line.blank]

theorem Message.headerLines_ne_nil (m : Message) : ∀ l ∈ m.headerLines, l.text ≠ [] := by
  intro l hl
  obtain ⟨h, -, rfl⟩ := List.mem_map.mp hl
  exact h.1.text_ne_nil

theorem Message.announced_eq (m : Message) :
    announced (MinHttp.upperMethod m.requestLine) (m.headerLines.map Line.text) =
      if m.upperMethod = methodPost then m.first? contentLengthKey else none := by
  rw [announced, m.headPairs_headerLines, MinHttp.upperMethod, m.tokens_requestLine]
  rfl

/-- What the request holds, as `parse?` gives it. -/
def Message.parsed (m : Message) (t : Bytes) : Parsed :=
  ⟨m.requestLine, m.headerLines.map Line.text, m.body, t⟩

theorem Message.parse_serialise (m : Message) (t : Bytes) (hf : m.Framed)
    (hu : Unambiguous CR LF m.lines (m.body ++ t)) :
    parse? (m.serialise t) = some (m.parsed t) := by
  have hsep := (Lib.Lines.separated_iff m.lines (m.body ++ t)).mpr ⟨m.lines_plain, hu⟩
  rw [Message.lines, Lib.Lines.separated_cons] at hsep
  obtain ⟨hp, he, hsep⟩ := hsep
  have hl : Lib.Lines.next? CR LF (m.serialise t) =
      some (m.requestLine, render CR LF (m.headerLines ++ [.blank m.blankEnding]) (m.body ++ t)) :=
    by
      rw [Message.serialise, Message.lines, Lib.Lines.render_cons]
      exact Lib.Lines.next?_line CR_ne_LF hp he
  have hh := Lib.Lines.block?_render CR_ne_LF hsep m.headerLines_ne_nil
  simp only [parse?, hl, hh, Option.bind_eq_bind, Option.bind_some, m.announced_eq]
  rcases hf with ⟨hm, hlen, hfirst⟩ | ⟨hbody, hnot⟩
  · have hn : unsigned 32 (atoi (decimal m.body.length)) = m.body.length := by
      rw [atoi_decimal hlen, unsigned]
      omega
    simp [hm, hfirst, hn, Message.parsed]
  · by_cases hm : m.upperMethod = methodPost
    · have hnone : m.first? contentLengthKey = none := by
        simpa [hm] using hnot
      simp [hm, hnone, hbody, Message.parsed]
    · simp [hm, hbody, Message.parsed]

theorem Message.parsed_fits (m : Message) (t : Bytes) :
    (m.parsed t).Fits ↔ ∀ l ∈ m.lines, Fits l.text := by
  simp only [Parsed.Fits, Message.parsed, Message.lines, List.forall_mem_cons,
    List.forall_mem_append, List.forall_mem_map, List.not_mem_nil, false_imp_iff, implies_true,
    and_true, fits_blank]

/-- The request object after the five functions have run on the request and
what follows it, and the bytes they have left unread. -/
def Message.RoundTrips (m : Message) (t : Bytes) (size : Int) : Prop :=
  let ep := receiveAll (.new (.new (m.serialise t) fun _ => false) size)
  ep.stop = false ∧ ep.request.method = m.upperMethod ∧ ep.request.uri = m.uri.text ∧
    ep.request.version = m.version.text ∧
    (∀ key, ep.request.headKv.lookup key = m.first? key) ∧
    ep.request.reqBody = m.body ∧ ep.sock.incoming = t

/-- The whole request object, when every line fits. -/
theorem Message.received (m : Message) (t : Bytes) (size : Int) (hf : m.Framed)
    (hu : Unambiguous CR LF m.lines (m.body ++ t)) (hfit : ∀ l ∈ m.lines, Fits l.text) :
    let ep := receiveAll (.new (.new (m.serialise t) fun _ => false) size)
    ep.stop = false ∧ ep.request = (m.parsed t).request size ∧ ep.sock.incoming = t := by
  have h := receiveAll_sound (Sock.new_sound (m.serialise t)) size
  rw [show (Sock.new (m.serialise t) fun _ => false).incoming = m.serialise t from rfl,
    m.parse_serialise t hf hu] at h
  exact h.1 ((m.parsed_fits t).mpr hfit)

theorem Message.roundTrips_of_fits (m : Message) (t : Bytes) (size : Int) (hf : m.Framed)
    (hu : Unambiguous CR LF m.lines (m.body ++ t)) (hfit : ∀ l ∈ m.lines, Fits l.text) :
    m.RoundTrips t size := by
  obtain ⟨hstop, hreq, hrest⟩ := m.received t size hf hu hfit
  refine ⟨hstop, ?_, ?_, ?_, fun key => ?_, ?_, hrest⟩
  · rw [hreq]
    simp [Parsed.request, Message.parsed, MinHttp.upperMethod, m.tokens_requestLine,
      Message.upperMethod]
  · rw [hreq]
    simp [Parsed.request, Message.parsed, m.tokens_requestLine]
  · rw [hreq]
    simp [Parsed.request, Message.parsed, m.tokens_requestLine]
  · rw [hreq]
    simp only [Parsed.request, Message.parsed]
    rw [lookup_headKv, m.headPairs_headerLines]
    rfl
  · rw [hreq]
    rfl

theorem Message.not_roundTrips (m : Message) (t : Bytes) (size : Int) (hf : m.Framed)
    (hu : Unambiguous CR LF m.lines (m.body ++ t)) (hfit : ¬ ∀ l ∈ m.lines, Fits l.text) :
    ¬ m.RoundTrips t size := by
  intro hr
  have h := receiveAll_sound (Sock.new_sound (m.serialise t)) size
  rw [show (Sock.new (m.serialise t) fun _ => false).incoming = m.serialise t from rfl,
    m.parse_serialise t hf hu] at h
  have hstop := h.2 (fun h' => hfit ((m.parsed_fits t).mp h'))
  rw [hr.1] at hstop
  cases hstop

/-- **The round trip**, for every request that can be read one way only. -/
theorem request_round_trip (m : Message) (t : Bytes) (size : Int) (hf : m.Framed)
    (hu : Unambiguous CR LF m.lines (m.body ++ t)) :
    m.RoundTrips t size ↔ ∀ l ∈ m.lines, Fits l.text := by
  constructor
  · intro hr
    by_contra hfit
    exact m.not_roundTrips t size hf hu hfit hr
  · exact m.roundTrips_of_fits t size hf hu

/-- A POST whose lines end in three ways and whose key occurs twice. -/
def samplePost : Message where
  method := ⟨str "post", by decide, noSpace_of_all (by decide)⟩
  uri := ⟨str "/exe_cgi", by decide, noSpace_of_all (by decide)⟩
  version := ⟨str "HTTP/1.0", by decide, noSpace_of_all (by decide)⟩
  lineEnding := .cr
  headers :=
    [(⟨str "Host", str "a: b", by decide, by decide, by decide⟩, .crlf),
     (⟨contentLengthKey, str "3", by decide, by decide, by decide⟩, .lf),
     (⟨contentLengthKey, str "9", by decide, by decide, by decide⟩, .cr)]
  blankEnding := .crlf
  body := [0, 10, 13]

theorem samplePost_fits : ∀ l ∈ samplePost.lines, Fits l.text := by
  intro l hl
  apply fits_of_length
  revert l hl
  decide

theorem request_round_trip_samplePost : samplePost.RoundTrips (str "GET ") 0 :=
  (request_round_trip samplePost (str "GET ") 0 (by decide) (by decide)).mpr samplePost_fits

/-- A GET without header lines. -/
def getMessage (uri : Word) : Message where
  method := ⟨methodGet, by decide, noSpace_of_all (by decide)⟩
  uri := uri
  version := ⟨str "HTTP/1.0", by decide, noSpace_of_all (by decide)⟩
  lineEnding := .crlf
  headers := []
  blankEnding := .crlf
  body := []

theorem getMessage_wellFormed (uri : Word) :
    (getMessage uri).Framed ∧
      Unambiguous CR LF (getMessage uri).lines ((getMessage uri).body ++ []) := by
  refine ⟨Or.inr ⟨rfl, fun h => ?_⟩, ?_⟩
  · exact absurd (show methodGet.map toupper = methodPost from h.1) (by decide)
  · simp [Message.lines, Message.headerLines, getMessage, Unambiguous, Line.blank]

theorem getMessage_line (uri : Word) :
    (getMessage uri).requestLine.length = uri.text.length + 13 := by
  simp only [Message.requestLine, getMessage, List.length_append, List.length_cons,
    show (str "HTTP/1.0").length = 8 by decide, show methodGet.length = 3 by decide]
  omega

/-- A GET request is received as it was sent. -/
theorem getMessage_received (uri : Word) (hlen : uri.text.length + 14 < 2 ^ 31) :
    let ep := recvHttpRequest (fun _ => false)
      (.new (.new ((getMessage uri).serialise []) fun _ => false) 0)
    ep.isStop = false ∧ ep.request.method = methodGet ∧ ep.request.uri = uri.text := by
  have hfit : ∀ l ∈ (getMessage uri).lines, Fits l.text := by
    intro l hl
    apply fits_of_length
    have hlines : (getMessage uri).lines =
        [⟨(getMessage uri).requestLine, .crlf⟩, ⟨[], .crlf⟩] := rfl
    rw [hlines] at hl
    rcases List.mem_pair.mp hl with rfl | rfl
    · rw [getMessage_line]
      exact hlen
    · decide
  obtain ⟨hf, hu⟩ := getMessage_wellFormed uri
  obtain ⟨hstop, hmethod, huri, -⟩ := (getMessage uri).roundTrips_of_fits [] 0 hf hu hfit
  have hep : recvHttpRequest (fun _ => false)
      (.new (.new ((getMessage uri).serialise []) fun _ => false) 0) = receiveAll _ :=
    recvHttpRequest_of_receiveAll rfl hstop
  rw [hep]
  exact ⟨hstop, hmethod, huri⟩

/-- A URI of `n` bytes. -/
def uriOfLength (n : Nat) (hn : n ≠ 0) : Word :=
  ⟨List.replicate n 97, by simp [hn], fun b hb => by
    rw [List.eq_of_mem_replicate hb]; decide⟩

theorem getMessage_lost (uri : Word) (hlo : 2 ^ 31 ≤ uri.text.length + 14)
    (hhi : uri.text.length + 14 ≤ 2 ^ 32) :
    (getMessage uri).Framed ∧
      Unambiguous CR LF (getMessage uri).lines ((getMessage uri).body ++ []) ∧
      ¬ (getMessage uri).RoundTrips [] 0 := by
  obtain ⟨hf, hu⟩ := getMessage_wellFormed uri
  refine ⟨hf, hu, Message.not_roundTrips _ [] 0 hf hu fun h => ?_⟩
  have hline := (fits_iff _).mp (h _ List.mem_cons_self)
  rw [getMessage_line] at hline
  omega

/-- A URI of 2^31 bytes makes the length of the request line negative. -/
theorem request_round_trip_longUri :
    (getMessage (uriOfLength (2 ^ 31) (by decide))).Framed ∧
      Unambiguous CR LF (getMessage (uriOfLength (2 ^ 31) (by decide))).lines
        ((getMessage (uriOfLength (2 ^ 31) (by decide))).body ++ []) ∧
      ¬ (getMessage (uriOfLength (2 ^ 31) (by decide))).RoundTrips [] 0 := by
  have hlen : (uriOfLength (2 ^ 31) (by decide)).text.length = 2 ^ 31 := List.length_replicate
  exact getMessage_lost _ (by omega) (by omega)

end MinHttp

import MinHttp.Heard

/-! What an accepted request has been read as, for every value that may be
seen where `GetRequestLine` ends without a `return`. -/
namespace MinHttp

open Lib.Lines (next? block?)
open Lib.Numerals (unsigned denoted)

/-- The head was read up to the blank line, and the fields are those of the
lines read; the body has the length that was announced, and the object says
so. -/
structure ParsedInFull (r : HttpRequest) : Prop where
  blank : r.blank = [LF]
  method : r.method = upperMethod r.reqLine
  uri : r.uri = (tokens r.reqLine).tail.headD []
  version : r.version = (tokens r.reqLine).tail.tail.headD []
  headKv : ∀ key, r.headKv.lookup key = (headPairs r.reqHead).lookup key
  body : ∀ v, announced r.method r.reqHead = some v →
    r.contentLength = denoted (cstr v) ∧ (r.reqBody.length : Int) = denoted (cstr v)

/-- The lines are those the stream holds, and the body is what follows. -/
def ReadFrom (s : Bytes) (r : HttpRequest) : Prop :=
  ∃ tail rest, next? CR LF s = some (r.reqLine, tail) ∧
    block? CR LF tail = some (r.reqHead, r.reqBody ++ rest)

def ReadInFull (sock : Sock) (r : HttpRequest) : Prop :=
  ParsedInFull r ∧ (sock.Sound → ReadFrom sock.incoming r)

/-- A request line was read, and its length is positive as an `int`. -/
def HasRequestLine (sock : Sock) : Prop := 0 < (readInLine sock []).ret

/-- The length that a request heard to its end announces is not negative, and
an `int` holds it. -/
def LengthFits (sock : Sock) : Prop :=
  ∀ l h, sock.Hears l h → ∀ v, announced (upperMethod l.text) h.texts = some v →
    0 ≤ denoted (cstr v) ∧ denoted (cstr v) < 2 ^ 31

/-- Reading the body leaves no field unparsed, and a length that fits is the
one announced. -/
theorem recvHttpRequestBody_parsed_iff (s : Sock) (size : Int) (line : Bytes) (head : List Bytes)
    (hstop : (recvHttpRequestBody (headRead s size line head)).stop = false) :
    ParsedInFull (recvHttpRequestBody (headRead s size line head)).request ↔
      ∀ v, announced (upperMethod line) head = some v →
        0 ≤ denoted (cstr v) ∧ denoted (cstr v) < 2 ^ 31 := by
  have hkv := headRead_lookup s size line head
  rw [recvHttpRequestBody_headRead] at hstop ⊢
  cases hann : announced (upperMethod line) head with
  | none =>
    refine iff_of_true ⟨rfl, rfl, rfl, rfl, hkv, fun v hv => ?_⟩ nofun
    cases hann.symm.trans hv
  | some v =>
    rw [hann] at hstop
    have hlength := (bodyLoop_length (atoi_bounds v).1 (atoi_bounds v).2 hstop).trans
      (Nat.zero_add _)
    have hcontent : (Parsed.request ⟨line, head, (bodyLoop s (atoi v) []).body, []⟩
        size).contentLength = atoi v := by
      simp only [Parsed.request, hann, Option.elim_some]
    constructor
    · intro h v' hv'
      cases hv'
      obtain ⟨hread, hbody⟩ := h.body v hann
      obtain ⟨-, hhi⟩ := (Lib.Numerals.atoi_eq_denoted_iff _).mp (hcontent.symm.trans hread)
      exact ⟨hbody ▸ Int.natCast_nonneg _, hhi⟩
    · intro h
      obtain ⟨hlo, hhi⟩ := h v rfl
      have hatoi : atoi v = denoted (cstr v) :=
        (Lib.Numerals.atoi_eq_denoted_iff _).mpr ⟨by omega, hhi⟩
      refine ⟨rfl, rfl, rfl, rfl, hkv, fun v' hv' => ?_⟩
      cases hann.symm.trans hv'
      refine ⟨hcontent.trans hatoi, ?_⟩
      rw [show (Parsed.request ⟨line, head, (bodyLoop s (atoi v) []).body, []⟩ size).reqBody =
        (bodyLoop s (atoi v) []).body from rfl, hlength, hatoi,
        Lib.Numerals.unsigned32_of_nonneg hlo hhi, Int.toNat_of_nonneg hlo]

theorem receiveAll_readFrom {sock : Sock} (hs : sock.Sound) (size : Int)
    (hstop : (receiveAll (.new sock size)).stop = false) :
    ReadFrom sock.incoming (receiveAll (.new sock size)).request := by
  have hsound := receiveAll_sound hs size
  cases hp : parse? sock.incoming with
  | none =>
    rw [hp, hstop] at hsound
    cases hsound
  | some p =>
    rw [hp] at hsound
    by_cases hfit : p.Fits
    · rw [(hsound.1 hfit).2.1]
      simp only [parse?, Option.bind_eq_bind, Option.bind_eq_some_iff, Prod.exists] at hp
      obtain ⟨line, tail, hl, head, rest, hh, hp⟩ := hp
      cases hann : announced (upperMethod line) head with
      | none =>
        simp only [hann, Option.some.injEq] at hp
        subst hp
        exact ⟨tail, rest, hl, hh⟩
      | some v =>
        simp only [hann, Option.ite_none_right_eq_some, Option.some.injEq] at hp
        obtain ⟨-, rfl⟩ := hp
        refine ⟨tail, rest.drop (unsigned 32 (atoi v)), hl, ?_⟩
        rw [hh]
        exact congrArg (fun body => some (head, body)) (List.take_append_drop _ rest).symm
    · have hgave := hsound.2 hfit
      rw [hstop] at hgave
      cases hgave

theorem getRequestLine_new_stop (sock : Sock) (size : Int) :
    (getRequestLine (.new sock size)).stop = false ↔ HasRequestLine sock := by
  rw [getRequestLine_eq]
  change (false || decide ((readInLine sock []).ret ≤ 0)) = false ↔ 0 < (readInLine sock []).ret
  rw [Bool.false_or, decide_eq_false_iff_not, not_le]

theorem getRequestLine_not_parsed (sock : Sock) (size : Int) :
    ¬ ParsedInFull (getRequestLine (.new sock size)).request := by
  intro h
  have hblank := h.blank
  rw [getRequestLine_eq] at hblank
  exact nil_ne_newline hblank

theorem receiveAll_readInFull_iff {sock : Sock} {l : HeardLine} {h : HeardHead}
    (hs : sock.Hears l h) (size : Int) :
    ReadInFull sock (receiveAll (.new sock size)).request ↔
      ∀ v, announced (upperMethod l.text) h.texts = some v →
        0 ≤ denoted (cstr v) ∧ denoted (cstr v) < 2 ^ 31 := by
  obtain ⟨-, hread, hstop⟩ := hs.receiveAll size
  have hparsed := recvHttpRequestBody_parsed_iff h.after size l.text h.texts (hread ▸ hstop)
  rw [← hread] at hparsed
  rw [ReadInFull, hparsed]
  exact and_iff_left fun hsound => receiveAll_readFrom hsound size hstop

/-- **An accepted request is a parsed one**, unless a request line was read
and either the missing return value is seen as true or the length announced
does not fit. -/
theorem accepted_readInFull_iff (flowsOff : EndPoint → Bool) (sock : Sock) (size : Int) :
    ((recvHttpRequest flowsOff (.new sock size)).isStop = false →
        ReadInFull sock (recvHttpRequest flowsOff (.new sock size)).request) ↔
      (HasRequestLine sock →
        flowsOff (getRequestLine (.new sock size)) = false ∧ LengthFits sock) := by
  by_cases h : flowsOff (getRequestLine (.new sock size)) = true
  · rw [recvHttpRequest_flowsOff h, EndPoint.isStop, getRequestLine_new_stop, h]
    constructor
    · intro himp hline
      exact absurd (himp hline).1 (getRequestLine_not_parsed sock size)
    · intro himp hline
      cases (himp hline).1
  · rw [Bool.not_eq_true] at h
    constructor
    · intro himp _
      refine ⟨h, fun l hd hs => ?_⟩
      obtain ⟨hgo, -, hstop⟩ := hs.receiveAll size
      have heq := recvHttpRequest_eq_receiveAll h hgo
      rw [EndPoint.isStop, heq] at himp
      exact (receiveAll_readInFull_iff hs size).mp (himp hstop)
    · intro hcond hstop
      have hline : HasRequestLine sock := by
        rw [← getRequestLine_new_stop sock size]
        by_contra hnone
        have hgave : (recvHttpRequest flowsOff (.new sock size)).stop = true :=
          recvHttpRequest_lineStop (by simpa using hnone)
        exact Bool.false_ne_true (hstop.symm.trans hgave)
      obtain ⟨l, hd, hs⟩ := recvHttpRequest_hears h hstop
      obtain ⟨hgo, -, -⟩ := hs.receiveAll size
      rw [recvHttpRequest_eq_receiveAll h hgo]
      exact (receiveAll_readInFull_iff hs size).mpr ((hcond hline).2 l hd hs)

/-- `GET / HTTP/1.0` and a blank line, with the missing value seen as true:
the request is accepted with its head unread. -/
theorem accepted_unread :
    let sock := Sock.new (str "GET / HTTP/1.0\r\n\r\n") fun _ => false
    let ep := recvHttpRequest (fun _ => true) (.new sock 0)
    ep.isStop = false ∧ ¬ ReadInFull sock ep.request := by
  intro sock ep
  have hep : ep = getRequestLine (.new sock 0) := recvHttpRequest_flowsOff rfl
  rw [hep]
  refine ⟨?_, fun h => getRequestLine_not_parsed sock 0 h.1⟩
  have hn : next? CR LF sock.incoming = some (str "GET / HTTP/1.0", [CR, LF]) := by decide
  rw [EndPoint.isStop, (getRequestLine_sound (.new sock 0) (fun _ => rfl) rfl hn
    (fits_of_length (by decide))).1]
  rfl

end MinHttp

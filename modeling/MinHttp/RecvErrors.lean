import MinHttp.ReadInFull

/-! Calls of `recv` that fail while a request is received. All but two kinds
end the request; the results of the two calls behind a CR are not looked at. -/
namespace MinHttp

open Lib.Numerals (unsigned)

/-- A whole request is heard. `off` tells that its caller sees a true value
behind the request line, and `lost` that a call behind a CR failed. -/
def HeardWhole (off : Bool) (s : Sock) (lost : Bool) : Prop :=
  ∃ l, s.lineHeard = some l ∧ Fits l.text ∧
    if off then lost = l.lost
    else ∃ h, headHeard l.after = some h ∧ (∀ t ∈ h.texts, Fits t) ∧ lost = (l.lost || h.lost) ∧
      ∀ v, announced (upperMethod l.text) h.texts = some v →
        h.after.Delivers (unsigned 32 (atoi v))

/-- The request is received that is heard behind its line. -/
theorem recvHttpRequest_goesOn_heard {flowsOff : EndPoint → Bool} {sock : Sock} {size : Int}
    {l : HeardLine} (hl : sock.lineHeard = some l) (hfit : Fits l.text)
    (hoff : flowsOff (getRequestLine (.new sock size)) = false) :
    let ep := recvHttpRequest flowsOff (.new sock size)
    (∀ lost, HeardWhole false sock lost →
      ep.stop = false ∧ (lost = true ↔ FailsIn sock.fails sock.calls ep.sock.calls)) ∧
    ((∀ lost, ¬ HeardWhole false sock lost) → ep.stop = true) := by
  have hfrom := Sock.lineHeard_from hl
  constructor
  · rintro lost ⟨l', hl', -, h, hh, hfits, hlost, hdelivers⟩
    cases hl.symm.trans hl'
    have hheadFrom := headHeard_from hh
    obtain ⟨hgo, hparsed, -⟩ := Sock.Hears.receiveAll ⟨hl, hfit, hh, hfits, hdelivers⟩ size
    obtain ⟨hstop, hcalls, hnone⟩ :=
      (recvHttpRequestBody_heard h.after size l.text h.texts).1 hdelivers
    rw [recvHttpRequest_eq_receiveAll hoff hgo, hparsed]
    refine ⟨hstop, ?_⟩
    have hsame : h.after.fails = sock.fails := hheadFrom.fails.trans hfrom.fails
    rw [hlost, Bool.or_eq_true, hfrom.lost, hheadFrom.lost, hfrom.fails,
      failsIn_append sock.fails (hfrom.calls.trans hheadFrom.calls) hcalls,
      failsIn_append sock.fails hfrom.calls hheadFrom.calls]
    rw [hsame] at hnone
    simp only [hnone, or_false]
  · intro hnone
    by_contra hstop
    obtain ⟨l', h, hs⟩ := recvHttpRequest_hears hoff (by simpa using hstop)
    exact hnone (l'.lost || h.lost)
      ⟨l', hs.line, hs.lineFits, h, hs.head, hs.headFits, rfl, hs.body⟩

/-- What is received is what is heard whole. -/
theorem recvHttpRequest_heard (flowsOff : EndPoint → Bool) (sock : Sock) (size : Int) :
    let ep := recvHttpRequest flowsOff (.new sock size)
    let off := flowsOff (getRequestLine (.new sock size))
    (∀ lost, HeardWhole off sock lost →
      ep.stop = false ∧ (lost = true ↔ FailsIn sock.fails sock.calls ep.sock.calls)) ∧
    ((∀ lost, ¬ HeardWhole off sock lost) → ep.stop = true) := by
  by_cases hline : ∃ l, sock.lineHeard = some l ∧ Fits l.text
  · obtain ⟨l, hl, hfit⟩ := hline
    dsimp only
    cases hoff : flowsOff (getRequestLine (.new sock size)) with
    | false => exact recvHttpRequest_goesOn_heard hl hfit hoff
    | true =>
      rw [recvHttpRequest_flowsOff hoff, getRequestLine_heard hl hfit size]
      constructor
      · rintro lost ⟨l', hl', -, hlost⟩
        cases hl.symm.trans hl'
        rw [if_pos rfl] at hlost
        rw [hlost]
        exact ⟨rfl, (Sock.lineHeard_from hl).lost⟩
      · intro hnone
        exact absurd ⟨l, hl, hfit, by rw [if_pos rfl]⟩ (hnone l.lost)
  · have hstop : (recvHttpRequest flowsOff (.new sock size)).stop = true :=
      recvHttpRequest_lineStop (getRequestLine_unheard size fun l hl hfit => hline ⟨l, hl, hfit⟩)
    refine ⟨?_, fun _ => hstop⟩
    rintro lost ⟨l, hl, hfit, -⟩
    exact absurd ⟨l, hl, hfit⟩ hline

/-- Every failing call among those made ends the request, and nothing is
built or sent. -/
def ErrorsEnd (flowsOff : EndPoint → Bool) (w : World) (o : Sender) (files : Int → Option Bytes)
    (sock : Sock) (size : Int) : Prop :=
  let ep := recvHttpRequest flowsOff (.new sock size)
  ∀ i, sock.calls ≤ i → i < ep.sock.calls → sock.fails i = true →
    ep.isStop = true ∧ handlerRequest flowsOff w o files sock size = ⟨ep, [], [.closeSock]⟩

theorem HeardWhole.missed {flowsOff : EndPoint → Bool} {sock : Sock} {size : Int}
    (hwhole : HeardWhole (flowsOff (getRequestLine (.new sock size))) sock true) (w : World)
    (o : Sender) (files : Int → Option Bytes) : ¬ ErrorsEnd flowsOff w o files sock size := by
  intro h
  obtain ⟨hgo, hlost⟩ := (recvHttpRequest_heard flowsOff sock size).1 true hwhole
  obtain ⟨i, hlo, hhi, hfails⟩ := hlost.mp rfl
  have hstop := (h i hlo hhi hfails).1
  rw [EndPoint.isStop, hgo] at hstop
  cases hstop

theorem errorsEnd_of_not_heardWhole {flowsOff : EndPoint → Bool} {sock : Sock} {size : Int}
    (hnot : ¬ HeardWhole (flowsOff (getRequestLine (.new sock size))) sock true) (w : World)
    (o : Sender) (files : Int → Option Bytes) : ErrorsEnd flowsOff w o files sock size := by
  intro i hlo hhi hfails
  obtain ⟨hheard, hunheard⟩ := recvHttpRequest_heard flowsOff sock size
  have hstop : (recvHttpRequest flowsOff (.new sock size)).isStop = true := by
    apply hunheard
    intro lost hwhole
    cases lost with
    | true => exact hnot hwhole
    | false => exact Bool.false_ne_true ((hheard false hwhole).2.mpr ⟨i, hlo, hhi, hfails⟩)
  refine ⟨hstop, ?_⟩
  rw [handlerRequest, if_pos hstop]

/-- **Errors end the request** unless one strikes a call behind a CR and the
request is heard whole all the same. -/
theorem recvHttpRequest_errorsEnd_iff (flowsOff : EndPoint → Bool) (w : World) (o : Sender)
    (files : Int → Option Bytes) (sock : Sock) (size : Int) :
    ErrorsEnd flowsOff w o files sock size ↔
      ¬ HeardWhole (flowsOff (getRequestLine (.new sock size))) sock true :=
  ⟨fun h hwhole => hwhole.missed w o files h,
    fun hnot => errorsEnd_of_not_heardWhole hnot w o files⟩

/-- No call behind a CR fails, in the request line and in the head. -/
structure NoneLost (sock : Sock) : Prop where
  line : ∀ l, sock.lineHeard = some l → l.lost = false
  head : ∀ l h, sock.lineHeard = some l → headHeard l.after = some h → h.lost = false

/-- Where no call behind a CR fails, every error ends the request. -/
theorem NoneLost.errorsEnd {sock : Sock} (hnone : NoneLost sock) (flowsOff : EndPoint → Bool)
    (w : World) (o : Sender) (files : Int → Option Bytes) (size : Int) :
    ErrorsEnd flowsOff w o files sock size := by
  apply errorsEnd_of_not_heardWhole
  rintro ⟨l, hl, -, hrest⟩
  have hline := hnone.line l hl
  split at hrest
  · rw [hline] at hrest
    cases hrest
  · obtain ⟨h, hh, -, hlost, -⟩ := hrest
    rw [hline, hnone.head l h hl hh] at hlost
    cases hlost

/-- The peek behind the request line fails: its LF is read as the blank line,
and the header line is left unread. -/
theorem recvHttpRequest_missesError :
    let sock := Sock.new (str "GET / HTTP/1.0\r\nA: b\r\n\r\n") fun i => i == 15
    ¬ ErrorsEnd EndPoint.isStop
      ⟨fun _ => none, none, none, none, none, false, [], some 0, false⟩
      ⟨fun _ n => n, fun _ n => Int.le_refl n⟩ (fun _ => none) sock 0 := by
  intro sock
  have hl : sock.lineHeard =
      some ⟨str "GET / HTTP/1.0", ⟨str "\nA: b\r\n\r\n", 16, sock.fails⟩, true⟩ := rfl
  have hfit : Fits (str "GET / HTTP/1.0") := fits_of_length (by decide)
  have hline := getRequestLine_heard hl hfit 0
  apply HeardWhole.missed
  rw [hline]
  refine ⟨_, hl, hfit, ⟨[], ⟨str "A: b\r\n\r\n", 17, sock.fails⟩, false⟩, ?_, nofun, rfl, nofun⟩
  rw [headHeard_some (l := ⟨[], ⟨str "A: b\r\n\r\n", 17, sock.fails⟩, false⟩) rfl, if_pos rfl]

end MinHttp

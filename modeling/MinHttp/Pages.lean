import MinHttp.Calculator
import MinHttp.Callers
import MinHttp.ReadBack

/-! A page that a program writes, from the request to its client: the exchange
brings the bytes to the server, and the client reads them back. -/
namespace MinHttp

open Lib.Runs
open Lib.Halting
open Lib.Numerals (denoted)

variable {κ : Type}

/-- What the calls of `ProcessCIG` return in an exchange in which none fails. -/
structure CgiRun.Of (c : CgiRun) (s : Exchange κ) : Prop where
  input : c.input.isSome
  output : c.output.isSome
  forked : c.forked
  received : c.received = s.respBody
  wait : ∃ status, s.child = .ended status ∧ c.wait = waitResult status

theorem CgiRun.Of.code {c : CgiRun} {s : Exchange κ} (h : c.Of s) (hs : s.Regular) {code : Int}
    (hp : s.parent = .returned code) : c.code = code := by
  obtain ⟨-, status, hended, rfl⟩ := hs.returned code hp
  obtain ⟨status', hended', hwait⟩ := h.wait
  cases hended.symm.trans hended'
  have hpipes : (c.input.isSome && c.output.isSome) = true := by rw [h.input, h.output]; rfl
  rw [CgiRun.code, if_pos hpipes, if_pos h.forked, hwait]

/-- An exchange succeeds when its code is OK. -/
theorem succeeds_iff_code (c : CgiRun) : c.succeeds = true ↔ c.code = OK := by
  have hcodes : serverError ≠ OK ∧ notFound ≠ OK := by decide
  unfold CgiRun.succeeds CgiRun.code
  cases c.input.isSome with
  | false => exact iff_of_false Bool.false_ne_true hcodes.1
  | true =>
    cases c.output.isSome with
    | false => exact iff_of_false Bool.false_ne_true hcodes.1
    | true =>
      cases c.forked with
      | false => exact iff_of_false Bool.false_ne_true hcodes.2
      | true =>
        cases c.wait with
        | failed => exact iff_of_true rfl rfl
        | exited status => by_cases hs : status = 0 <;> simp [waitCode, hs, OK, badRequset]
        | signaled => exact iff_of_false Bool.false_ne_true hcodes.1

section
variable {w : World} {r₀ r : HttpRequest} (hcgi : cgiRequest w r₀ = some r)
  (hfresh : r₀.cgi = false)
include hcgi hfresh

/-- A request that reaches a program is answered by it. -/
theorem answerOf_program (o : Sender) (content : Bytes → Bytes) :
    answerOf o content w r₀ =
      if w.cgi.code = OK then okAnswer r.path w.cgi.received (sendBodyLoop o 5 w.cgi.received 1)
      else pageAnswer content w w.cgi.code := by
  obtain ⟨hm, st, hres, hasks⟩ := cgiRequest_resource hcgi hfresh
  rw [answerOf, if_pos hm, hres]
  dsimp only
  rw [if_pos hasks]
  exact if_congr (succeeds_iff_code w.cgi) rfl rfl

theorem outcome_program (hpage : w.cgi.code ≠ OK → PageServed w) :
    (outcome w r₀).Fits w ∧ OpensFile w r₀ (outcome w r₀) := by
  obtain ⟨hm, st, hres, hasks⟩ := cgiRequest_resource hcgi hfresh
  rw [outcome, if_pos hm, hres]
  dsimp only
  rw [if_pos hasks]
  split
  · exact ⟨trivial, trivial⟩
  · rename_i hfails
    have hserved := hpage fun hcode => hfails ((succeeds_iff_code w.cgi).mpr hcode)
    exact ⟨hserved.fits, hserved.opens⟩

end

/-- The request that a connection brings to a program, with as much body as it
says. -/
structure Brings (flowsOff : EndPoint → Bool) (w : World) (sock : Sock) (size : Int)
    (r : HttpRequest) : Prop where
  goes : (recvHttpRequest flowsOff (.new sock size)).isStop = false
  reaches : cgiRequest w (recvHttpRequest flowsOff (.new sock size)).request = some r
  nul : NUL ∉ r.uri
  body : r.reqBody.length = r.contentLength

section
variable (o : Sender) {content : Bytes → Bytes} {w : World} {flowsOff : EndPoint → Bool}
  {sock : Sock} {size : Int} {r : HttpRequest}

theorem Brings.whole (h : Brings flowsOff w sock size r) : Whole r :=
  ⟨cgiRequest_prepared h.reaches, h.nul, h.body⟩

/-- What a client reads when the exchange comes to one end only. -/
theorem concludes_readAnswer {σ : CgiSetup} {P : Program κ} {code : Int} {body : Bytes}
    (hends : Concludes σ P code body) (ho : o.TakesHead) (hsized : w.Sized content)
    (hpage : code ≠ OK → PageServed w) (hr : Brings flowsOff w sock size r) {s : Exchange κ}
    (h : Reachable (ExchangeStep σ P) .initial s) (hfinal : Final (ExchangeStep σ P) s)
    (hran : w.cgi.Of s) :
    readAnswer (answered flowsOff o content w sock size) =
      some (if code = OK then okAnswer r.path body (sendBodyLoop o 5 body 1)
        else pageAnswer content w code) := by
  obtain ⟨hp, hbody⟩ := hends s h hfinal
  have hcode : w.cgi.code = code := hran.code (reachable_regular h) hp
  have hreceived : w.cgi.received = body := hran.received.trans hbody
  obtain ⟨hnew, hfresh, -⟩ := recvHttpRequest_frame flowsOff (.new sock size)
  obtain ⟨hfits, hopens⟩ := outcome_program hr.reaches hfresh (hcode ▸ hpage)
  rw [answered_eq, if_neg (by rw [hr.goes]; exact Bool.false_ne_true),
    respond_readAnswer o ho hsized hnew hfresh hfits hopens, answerOf_program hr.reaches hfresh,
    hcode, hreceived]

/-- The pieces in which the calculator's output is written make up its page. -/
def Cgi.Prints (writes : Bytes → List Bytes) : Prop :=
  ∀ q e, Cgi.calculatorMain q = some e → (writes q).flatten = e.out

/-- The page of exact results. -/
def Cgi.exactPage (f : Cgi.Fields) : Bytes :=
  Cgi.calculatorPage f (Cgi.exactResults (denoted (cstr f.value1)) (denoted (cstr f.value2)))

theorem Cgi.calculatorMain_encode {f : Cgi.Fields} (hf : f.Separable)
    (h : Cgi.Computable (denoted (cstr f.value1)) (denoted (cstr f.value2))) :
    Cgi.calculatorMain f.encode = some ⟨Cgi.exactPage f, Cgi.fieldLines f, 0⟩ := by
  have hx : atoi f.value1 = denoted (cstr f.value1) :=
    (Lib.Numerals.atoi_eq_denoted_iff _).mpr h.left
  have hy : atoi f.value2 = denoted (cstr f.value2) :=
    (Lib.Numerals.atoi_eq_denoted_iff _).mpr h.right
  rw [Cgi.exactPage]
  rw [← hx, ← hy] at h ⊢
  rw [Cgi.calculatorMain, Cgi.calculatorFields_encode hf, Cgi.compute_exact h]
  rfl

/-- **The calculator, from form to page**: a form that keeps its separators out
of its fields, with operands on which nothing is undefined, is answered with
the exact results under 200, as a GET or as a POST. -/
theorem calculator_readAnswer (ho : o.TakesHead) (hsized : w.Sized content)
    (hr : Brings flowsOff w sock size r) (inherited : Env) {cap : Nat} (hcap : 1 ≤ cap)
    {writes : Bytes → List Bytes} (hwrites : Cgi.Prints writes) {f : Cgi.Fields}
    (hf : f.Separable) (harg : argument r = f.encode)
    (hcomp : Cgi.Computable (denoted (cstr f.value1)) (denoted (cstr f.value2)))
    {s : Exchange (Caller (List Op))}
    (h : Reachable (CallerStep writes 0 r cap inherited) .initial s)
    (hfinal : Final (CallerStep writes 0 r cap inherited) s) (hran : w.cgi.Of s) :
    readAnswer (answered flowsOff o content w sock size) =
      some (okAnswer r.path (Cgi.exactPage f) (sendBodyLoop o 5 (Cgi.exactPage f) 1)) := by
  have hpage : (writes (argument r)).flatten = Cgi.exactPage f := by
    rw [harg]
    exact hwrites _ _ (Cgi.calculatorMain_encode hf hcomp)
  have hends : Concludes (cgiSetup r cap) (caller (childEnv inherited r) (answering writes 0)) OK
      (Cgi.exactPage f) := hpage ▸ callers_return inherited hr.whole hcap
  exact concludes_readAnswer o hends ho hsized (fun h => absurd rfl h) hr h hfinal hran

end

/-! The form `a=7&b=-2` in a GET, to a program that writes its page at once. -/

theorem concludes_ran {σ : CgiSetup} {P : Program κ} {body : Bytes} (hends : Concludes σ P OK body)
    {s : Exchange κ} (h : Reachable (ExchangeStep σ P) .initial s)
    (hfinal : Final (ExchangeStep σ P) s) :
    CgiRun.Of ⟨some (3, 4), some (5, 6), true, body, some 0, true⟩ s := by
  obtain ⟨hp, hbody⟩ := hends s h hfinal
  obtain ⟨-, status, hended, hcode⟩ := (reachable_regular h).returned OK hp
  obtain rfl := waitCode_ok hcode.symm
  exact ⟨rfl, rfl, rfl, hbody.symm, some 0, hended, rfl⟩

def formFields : Cgi.Fields := ⟨str "a", str "7", str "b", str "-2"⟩

def formMessage : Message :=
  getMessage ⟨str "/exe_cgi?a=7&b=-2", by decide, noSpace_of_all (by decide)⟩

def formSock : Sock := .new (formMessage.serialise []) fun _ => false

def formRequest : HttpRequest :=
  { (formMessage.parsed []).request 0 with
    path := str "./wwwroot/exe_cgi"
    queryString := formFields.encode
    cgi := true
    size := 9
    suffix := str "./wwwroot/exe_cgi" }

/-- The world at the end of an exchange that has brought these bytes. -/
def exeCgiRan (received : Bytes) : World :=
  { exeCgi with cgi := ⟨some (3, 4), some (5, 6), true, received, some 0, true⟩ }

theorem exeCgiRan_sized (received : Bytes) :
    (exeCgiRan received).Sized fun _ => str "#!/bin/sh" := by
  intro path st hst _
  rw [oneFile_stat hst]
  rfl

theorem formRequest_brings (received : Bytes) :
    Brings (fun _ => false) (exeCgiRan received) formSock 0 formRequest := by
  have hlines : ∀ l ∈ formMessage.lines, Fits l.text := by
    intro l hl
    apply fits_of_length
    revert l hl
    decide
  obtain ⟨hframed, hunambiguous⟩ := getMessage_wellFormed formMessage.uri
  obtain ⟨hstop, hrequest, -⟩ := formMessage.received [] 0 hframed hunambiguous hlines
  have hrecv : recvHttpRequest (fun _ => false) (.new formSock 0) = receiveAll (.new formSock 0) :=
    recvHttpRequest_of_receiveAll rfl hstop
  refine ⟨by rw [hrecv]; exact hstop, ?_, by decide, by decide⟩
  have hfound : cgiRequest exeCgi ((formMessage.parsed []).request 0) = some formRequest := by
    decide
  rw [hrecv, show (receiveAll (.new formSock 0)).request = _ from hrequest]
  exact hfound

def printPage (q : Bytes) : List Bytes := ((Cgi.calculatorMain q).map Cgi.Exit.out).toList

theorem formRequest_argument : argument formRequest = formFields.encode := by decide

theorem formRequest_runs (answer : Bytes → List Bytes) :
    ∃ s, Reachable (CallerStep answer 0 formRequest 2 fun _ => none) .initial s ∧
      Final (CallerStep answer 0 formRequest 2 fun _ => none) s :=
  (callerStep_ranked (fun _ => none) (formRequest_brings []).whole).exists_final
    ⟨initial_calls, initial_scripted⟩

theorem formRequest_concludes (answer : Bytes → List Bytes) :
    Concludes (cgiSetup formRequest 2)
      (caller (childEnv (fun _ => none) formRequest) (answering answer 0)) OK
      (answer formFields.encode).flatten := by
  rw [← formRequest_argument]
  exact callers_return (fun _ => none) (formRequest_brings []).whole (by decide)

theorem calculator_readAnswer_form : ∃ s : Exchange (Caller (List Op)),
    Final (CallerStep printPage 0 formRequest 2 fun _ => none) s ∧
      s.respBody = Cgi.exactPage formFields ∧
      readAnswer (answered (fun _ => false) .all (fun _ => str "#!/bin/sh")
          (exeCgiRan (Cgi.exactPage formFields)) formSock 0) =
        some (okAnswer (str "./wwwroot/exe_cgi") (Cgi.exactPage formFields)
          (sendBodyLoop .all 5 (Cgi.exactPage formFields) 1)) := by
  have hr := formRequest_brings (Cgi.exactPage formFields)
  have hprints : Cgi.Prints printPage := by
    intro q e he
    simp [printPage, he]
  have hcomp : Cgi.Computable (denoted (cstr formFields.value1))
      (denoted (cstr formFields.value2)) := by
    constructor <;> decide
  have hseparable : formFields.Separable := by
    constructor <;> decide
  have hends := formRequest_concludes printPage
  rw [hprints _ _ (Cgi.calculatorMain_encode hseparable hcomp)] at hends
  obtain ⟨s, h, hfinal⟩ := formRequest_runs printPage
  refine ⟨s, hfinal, (hends s h hfinal).2, ?_⟩
  exact calculator_readAnswer .all (fun _ _ _ => rfl) (exeCgiRan_sized _) hr (fun _ => none)
    (by decide) hprints hseparable formRequest_argument hcomp h hfinal
    (concludes_ran hends h hfinal)

end MinHttp

import MinHttp.Target
import MinHttp.Delivery
import MinHttp.Lib.Balance

/-! The descriptors that `HandlerRequest` opens and closes, with every call
free to succeed or fail. -/
namespace MinHttp

open Lib.Balance (Change Balanced Fresh after)

/-- What the calls made for one response return, each for itself: `stat` on
the path and on the page of a directory, `open`, the calls of `ProcessCIG`,
and `open` and `stat` on the error page (what `st` holds then, whether the
call succeeded or not). -/
structure CallResults where
  stat : Option Stat
  statPage : Option Stat
  openTarget : Option Nat
  cgi : CgiRun
  openPage : Option Nat
  pageStat : Stat

/-- What is behind `lookUp` meets only the later answers. -/
def CallResults.world (a : CallResults) : World where
  stat _ := some a.pageStat
  openTarget := a.openTarget
  openPage := a.openPage
  cgi := a.cgi

/-- Lines 408 to 432, the two calls of `stat` answered apart. -/
def lookUpOn (a : CallResults) (r : HttpRequest) : Option HttpRequest × List Sys :=
  match a.stat with
  | none => (none, [.stat (cstr r.path)])
  | some st =>
    let page := r.path ++ str "/" ++ defautlPage
    let isDir := sIsDir st.stMode
    let st := if isDir then a.statPage.getD st else st
    (some { r with
      path := if isDir then page else r.path
      cgi := r.cgi || executable st.stMode
      size := Lib.Numerals.signed 32 st.stSize },
      if isDir then [.stat (cstr r.path), .stat (cstr page)] else [.stat (cstr r.path)])

def buildHttpResponseOn (a : CallResults) (ep : EndPoint) : EndPoint × List Sys :=
  if ep.request.method ≠ methodPost ∧ ep.request.method ≠ methodGet then
    buildHttpResponseHelper a.world (ep.withCode badRequset)
  else
    let r := rootPath (splitUri ep.request)
    match lookUpOn a r with
    | (none, log) =>
      let (ep, log') := buildHttpResponseHelper a.world ({ ep with request := r }.withCode notFound)
      (ep, log ++ log')
    | (some r, log) =>
      let ep := { ep with request := setSuffix r }
      let (code, ep, served) :=
        if ep.request.cgi then processCIG a.world ep else processNonCIG a.world ep
      let (ep, log') := buildHttpResponseHelper a.world (ep.withCode code)
      (ep, log ++ served ++ log')

def handlerRequestOn (flowsOff : EndPoint → Bool) (a : CallResults) (o : Sender)
    (files : Int → Option Bytes) (sock : Sock) (size : Int) : Handled :=
  let ep := recvHttpRequest flowsOff (.new sock size)
  if ep.isStop then ⟨ep, [], [.closeSock]⟩
  else
    let (ep, log) := buildHttpResponseOn a ep
    let (sent, log') := sendHttpResquese o files ep
    ⟨ep, sent, log ++ log' ++ [.closeSock]⟩

/-- The answers of a file system. -/
def World.callResults (w : World) (r : HttpRequest) : CallResults :=
  let path := (rootPath (splitUri r)).path
  { stat := w.stat (cstr path)
    statPage := w.stat (cstr (indexPage path))
    openTarget := w.openRdonly (cstr (targetPath w path)) w.openTarget
    cgi := w.cgi
    openPage := w.openRdonly (cstr errorPage) w.openPage
    pageStat := (w.stat (cstr errorPage)).getD ⟨0, 0, by decide⟩ }

theorem buildHttpResponseOn_reject (a : CallResults) {ep : EndPoint}
    (hm : ¬ (ep.request.method = methodGet ∨ ep.request.method = methodPost)) :
    buildHttpResponseOn a ep = buildHttpResponseHelper a.world (ep.withCode badRequset) := by
  rw [buildHttpResponseOn, if_pos (by tauto)]

theorem buildHttpResponseOn_missing {a : CallResults} {ep : EndPoint}
    (hm : ep.request.method = methodGet ∨ ep.request.method = methodPost)
    (hl : (lookUpOn a (rootPath (splitUri ep.request))).1 = none) :
    buildHttpResponseOn a ep =
      let ended := buildHttpResponseHelper a.world
        ({ ep with request := rootPath (splitUri ep.request) }.withCode notFound)
      (ended.1, (lookUpOn a (rootPath (splitUri ep.request))).2 ++ ended.2) := by
  rw [buildHttpResponseOn, if_neg (by tauto)]
  dsimp only
  split
  case h_1 heq => rw [heq]
  case h_2 heq => simp [heq] at hl

theorem buildHttpResponseOn_found {a : CallResults} {ep : EndPoint} {r : HttpRequest}
    (hm : ep.request.method = methodGet ∨ ep.request.method = methodPost)
    (hl : (lookUpOn a (rootPath (splitUri ep.request))).1 = some r) :
    buildHttpResponseOn a ep =
      let served := serve a.world { ep with request := setSuffix r }
      let ended := buildHttpResponseHelper a.world (served.2.1.withCode served.1)
      (ended.1, (lookUpOn a (rootPath (splitUri ep.request))).2 ++ served.2.2 ++ ended.2) := by
  rw [buildHttpResponseOn, if_neg (by tauto)]
  dsimp only
  split
  case h_1 heq => simp [heq] at hl
  case h_2 r' log heq =>
    rw [heq] at hl ⊢
    obtain rfl : r' = r := by simpa using hl
    rfl

theorem lookUp_callResults (w : World) (r : HttpRequest) :
    lookUp w (rootPath (splitUri r)) = lookUpOn (w.callResults r) (rootPath (splitUri r)) := rfl

theorem openRdonly_world (a : CallResults) (path : Bytes) (answer : Option Nat) :
    a.world.openRdonly path answer = answer := if_pos rfl

theorem handlerError_callResults (w : World) (r : HttpRequest) (ep : EndPoint) :
    handlerError w errorPage ep = handlerError (w.callResults r).world errorPage ep := by
  unfold handlerError
  rw [openRdonly_world]
  rfl

theorem buildHttpResponseHelper_callResults (w : World) (r : HttpRequest) (ep : EndPoint) :
    buildHttpResponseHelper w ep = buildHttpResponseHelper (w.callResults r).world ep := by
  unfold buildHttpResponseHelper
  simp only [handlerError_callResults w r]

theorem serve_callResults {w : World} {r : HttpRequest} {ep : EndPoint}
    (hpath : ep.request.path = targetPath w (rootPath (splitUri r)).path) :
    serve w ep = serve (w.callResults r).world ep := by
  unfold serve processNonCIG
  rw [openRdonly_world, hpath]
  rfl

/-- Answered apart, the calls may still answer as a file system does. -/
theorem buildHttpResponse_callResults (w : World) (ep : EndPoint) :
    buildHttpResponse w ep = buildHttpResponseOn (w.callResults ep.request) ep := by
  by_cases hm : ep.request.method = methodGet ∨ ep.request.method = methodPost
  · cases hl : (lookUp w (rootPath (splitUri ep.request))).1 with
    | none =>
      rw [buildHttpResponse_missing hm hl,
        buildHttpResponseOn_missing hm (by rw [← lookUp_callResults]; exact hl), lookUp_callResults,
        buildHttpResponseHelper_callResults w ep.request]
    | some r =>
      have hpath : (setSuffix r).path = targetPath w (rootPath (splitUri ep.request)).path := by
        obtain ⟨st, hst, hp, -⟩ := lookUp_found hl
        rw [setSuffix_frame, targetPath, hst]
        exact hp
      rw [buildHttpResponse_found hm hl,
        buildHttpResponseOn_found hm (by rw [← lookUp_callResults]; exact hl), lookUp_callResults,
        serve_callResults (r := ep.request) hpath]
      dsimp only
      rw [buildHttpResponseHelper_callResults w ep.request]
  · rw [buildHttpResponse_reject w hm, buildHttpResponseOn_reject _ hm,
      buildHttpResponseHelper_callResults w ep.request]

/-! ## The descriptor table -/

/-- The descriptors a call opens and closes; `close(-1)` is refused. -/
def Sys.changes (sock : Nat) : Sys → List (Change Nat)
  | .openRdonly _ (some fd) => [.acquire fd]
  | .pipe (some (read, write)) => [.acquire read, .acquire write]
  | .close fd => if 0 ≤ fd then [.release fd.toNat] else []
  | .closeSock => [.release sock]
  | _ => []

def changes (sock : Nat) (log : List Sys) : List (Change Nat) := log.flatMap (Sys.changes sock)

/-- A program is run for the request. -/
def runsProgram (a : CallResults) (r : HttpRequest) : Prop :=
  (r.method = methodGet ∨ r.method = methodPost) ∧
    ∃ st, a.stat = some st ∧
      (asksProgram r || executable
        (if sIsDir st.stMode then a.statPage.getD st else st).stMode) = true

/-- `ProcessCIG` gives up with a pipe made. -/
def CgiRun.givesUp (c : CgiRun) : Bool := c.input.isSome && !(c.output.isSome && c.forked)

theorem changes_append (sock : Nat) (a b : List Sys) :
    changes sock (a ++ b) = changes sock a ++ changes sock b := List.flatMap_append

theorem lookUpOn_changes (sock : Nat) (a : CallResults) (r : HttpRequest) :
    changes sock (lookUpOn a r).2 = [] := by
  unfold lookUpOn
  cases a.stat with
  | none => rfl
  | some st => by_cases hd : sIsDir st.stMode = true <;> simp [hd, changes, Sys.changes]

/-- What is opened is closed. -/
theorem balanced_open (fd : Option Nat) (sock : Nat) (path : Bytes) :
    Balanced (changes sock [.openRdonly path fd, .close (fdInt fd)]) := by
  cases fd with
  | none => exact Lib.Balance.balanced_nil
  | some fd => exact Lib.Balance.balanced_of_perm (List.Perm.refl [fd])

/-! ## The answer -/

theorem handlerError_changes (a : CallResults) (sock : Nat) (ep : EndPoint) :
    changes sock (handlerError a.world errorPage ep).2 =
        changes sock [.openRdonly (cstr errorPage) a.openPage] ∧
      (handlerError a.world errorPage ep).1.request.cgi = false ∧
      (handlerError a.world errorPage ep).1.response.fd = fdInt a.openPage := by
  unfold handlerError
  rw [openRdonly_world]
  dsimp only
  split <;> exact ⟨rfl, rfl, rfl⟩

/-- `SendHttpResquese` closes the file, where it sends one. -/
def closesFile (ep : EndPoint) : List Sys :=
  if ep.request.cgi then [] else [.close ep.response.fd]

/-- The end of a response: the status line and the headers, and then the
sending. -/
def endChanges (a : CallResults) (sock : Nat) (ep : EndPoint) : List (Change Nat) :=
  changes sock (buildHttpResponseHelper a.world ep).2 ++
    changes sock (closesFile (buildHttpResponseHelper a.world ep).1)

/-- The error page is closed again, and nothing else was open. -/
theorem balanced_error (a : CallResults) (sock : Nat) {ep : EndPoint}
    (hcode : ep.response.statusCode ∈ [notFound, serverError, badRequset]) :
    Balanced (endChanges a sock ep) := by
  obtain ⟨hlog, hcgi, hfd⟩ := handlerError_changes a sock ep.addStatusLine
  unfold endChanges closesFile
  rw [buildHttpResponseHelper_page a.world hcode, hlog, hcgi, hfd, ← changes_append]
  exact balanced_open a.openPage sock (cstr errorPage)

theorem endChanges_ok (a : CallResults) (sock : Nat) {ep : EndPoint}
    (hcode : ep.response.statusCode = OK) :
    endChanges a sock ep = changes sock (closesFile ep) := by
  unfold endChanges
  rw [buildHttpResponseHelper_found a.world hcode]
  rfl

/-- From the call of `ProcessNonCIG` or `ProcessCIG` to the end. -/
def serveChanges (a : CallResults) (sock : Nat) (ep : EndPoint) : List (Change Nat) :=
  changes sock (serve a.world ep).2.2 ++
    endChanges a sock ((serve a.world ep).2.1.withCode (serve a.world ep).1)

theorem balanced_file (a : CallResults) (sock : Nat) {ep : EndPoint}
    (hcgi : ep.request.cgi = false) : Balanced (serveChanges a sock ep) := by
  have htarget : a.world.openTarget = a.openTarget := rfl
  unfold serveChanges
  rw [serve_file hcgi, processNonCIG, openRdonly_world, htarget]
  cases hopen : a.openTarget with
  | none =>
    have hcode : (if fdInt none ≥ 0 then OK else notFound) ∈
        [notFound, serverError, badRequset] := by decide
    exact Balanced.append (a := []) Lib.Balance.balanced_nil (balanced_error a sock hcode)
  | some fd =>
    have hcode : (if fdInt (some fd) ≥ 0 then OK else notFound) = OK :=
      if_pos (Int.natCast_nonneg fd)
    rw [endChanges_ok a sock hcode, ← changes_append]
    have hclose := balanced_open (some fd) sock (cstr ep.request.path)
    simpa [closesFile, EndPoint.withCode, hcgi] using hclose

/-- The end of a run that `ProcessCIG` answers with OK opens and closes
nothing. -/
theorem balanced_programEnd (a : CallResults) (sock : Nat) {ep : EndPoint}
    (hcgi : ep.request.cgi = true) :
    Balanced (endChanges a sock
      ((processCIG a.world ep).2.1.withCode (processCIG a.world ep).1)) := by
  obtain ⟨⟨body, heq⟩, -, hcode⟩ := processCIG_cases a.world ep
  cases hs : a.world.cgi.succeeds with
  | true =>
    rw [hs, if_pos rfl] at hcode
    rw [endChanges_ok a sock hcode, heq]
    simp only [closesFile, EndPoint.withCode, hcgi]
    exact Lib.Balance.balanced_nil
  | false =>
    rw [hs, if_neg (by decide)] at hcode
    exact balanced_error a sock hcode

/-- The pipes: closed after the exchange, and never where `ProcessCIG` gives
up with one made. -/
theorem processCIG_changes (a : CallResults) (sock : Nat) (ep : EndPoint) :
    if a.cgi.givesUp then
      ∃ l, l ≠ [] ∧ changes sock (processCIG a.world ep).2.2 = l.map Change.acquire
    else Balanced (changes sock (processCIG a.world ep).2.2) := by
  have hcgi : a.world.cgi = a.cgi := rfl
  unfold processCIG CgiRun.givesUp
  rw [hcgi]
  cases a.cgi.input with
  | none => exact Lib.Balance.balanced_nil
  | some input =>
    obtain ⟨input0, input1⟩ := input
    cases a.cgi.output with
    | none => exact ⟨[input0, input1], List.cons_ne_nil _ _, rfl⟩
    | some output =>
      obtain ⟨output0, output1⟩ := output
      cases a.cgi.forked with
      | false => exact ⟨[input0, input1, output0, output1], List.cons_ne_nil _ _, rfl⟩
      | true =>
        have hperm : [input0, input1, output0, output1].Perm
            [output0, input1, input0, output1] :=
          (List.reverse_perm [input0, input1, output0]).symm.append_right [output1]
        exact Lib.Balance.balanced_of_perm hperm

/-! ## The whole request -/

/-- A log that leaves descriptors open. -/
def Leaves (log : List (Change Nat)) : Prop :=
  ∃ l rest, l ≠ [] ∧ Balanced rest ∧ log = l.map Change.acquire ++ rest

/-- What is not given back is a pipe of a run that gave up. -/
theorem serveChanges_program (a : CallResults) (sock : Nat) {ep : EndPoint}
    (hcgi : ep.request.cgi = true) :
    if a.cgi.givesUp then Leaves (serveChanges a sock ep)
    else Balanced (serveChanges a sock ep) := by
  have hpipes := processCIG_changes a sock ep
  have hend := balanced_programEnd a sock hcgi
  unfold serveChanges
  rw [serve_program hcgi]
  cases hup : a.cgi.givesUp with
  | true =>
    rw [hup, if_pos rfl] at hpipes
    obtain ⟨l, hl, heq⟩ := hpipes
    rw [if_pos rfl, heq]
    exact ⟨l, _, hl, hend, rfl⟩
  | false =>
    rw [hup, if_neg (by decide)] at hpipes
    rw [if_neg (by decide)]
    exact hpipes.append hend

/-- Behind the socket's close the table is as before without it, or a pipe is
still there. -/
theorem after_close {table : Finset Nat} {sock : Nat} (hsock : sock ∈ table)
    {log : List (Change Nat)} (hfresh : Fresh table (log ++ [.release sock])) :
    (Balanced log → after table (log ++ [.release sock]) = table.erase sock) ∧
      (Leaves log → after table (log ++ [.release sock]) ≠ table.erase sock) := by
  obtain ⟨hlog, -⟩ := (Lib.Balance.fresh_append table _ _).mp hfresh
  rw [Lib.Balance.after_append]
  constructor
  · intro h
    rw [h table hlog]
    rfl
  · rintro ⟨l, rest, hl, hrest, rfl⟩ heq
    obtain ⟨fd, -, hnew, hheld⟩ := Lib.Balance.after_ne_of_acquired hl hrest hlog
    have hne : fd ≠ sock := by
      rintro rfl
      exact hnew hsock
    have hmem : fd ∈ table.erase sock := by
      rw [← heq]
      exact Finset.mem_erase.mpr ⟨hne, hheld⟩
    exact hnew (Finset.mem_of_mem_erase hmem)

theorem lookUpOn_found {a : CallResults} {r r' : HttpRequest} (h : (lookUpOn a r).1 = some r') :
    ∃ st, a.stat = some st ∧
      r'.cgi = (r.cgi || executable
        (if sIsDir st.stMode then a.statPage.getD st else st).stMode) := by
  unfold lookUpOn at h
  cases hst : a.stat with
  | none => simp [hst] at h
  | some st =>
    simp only [hst, Option.some.injEq] at h
    subst h
    exact ⟨st, rfl, rfl⟩

theorem lookUpOn_none {a : CallResults} {r : HttpRequest} (h : (lookUpOn a r).1 = none) :
    a.stat = none := by
  unfold lookUpOn at h
  cases hst : a.stat with
  | none => rfl
  | some st => simp [hst] at h

/-- A response opened and sent. -/
def responseChanges (a : CallResults) (sock : Nat) (ep : EndPoint) : List (Change Nat) :=
  changes sock (buildHttpResponseOn a ep).2 ++
    changes sock (closesFile (buildHttpResponseOn a ep).1)

theorem responseChanges_found {a : CallResults} {sock : Nat} {ep : EndPoint} {r : HttpRequest}
    (hm : ep.request.method = methodGet ∨ ep.request.method = methodPost)
    (hl : (lookUpOn a (rootPath (splitUri ep.request))).1 = some r) :
    responseChanges a sock ep = serveChanges a sock { ep with request := setSuffix r } := by
  unfold responseChanges serveChanges endChanges
  rw [buildHttpResponseOn_found hm hl]
  dsimp only
  rw [changes_append, changes_append, lookUpOn_changes, List.nil_append, List.append_assoc]

theorem setSuffix_cgi (r : HttpRequest) : (setSuffix r).cgi = r.cgi := by rw [setSuffix_frame]

theorem responseChanges_cases (a : CallResults) (sock : Nat) {ep : EndPoint}
    (hcgi : ep.request.cgi = false) :
    (¬ (runsProgram a ep.request ∧ a.cgi.givesUp = true) →
        Balanced (responseChanges a sock ep)) ∧
      (runsProgram a ep.request ∧ a.cgi.givesUp = true → Leaves (responseChanges a sock ep)) := by
  by_cases hm : ep.request.method = methodGet ∨ ep.request.method = methodPost
  · cases hl : (lookUpOn a (rootPath (splitUri ep.request))).1 with
    | none =>
      have hstat := lookUpOn_none hl
      constructor
      · intro _
        unfold responseChanges
        rw [buildHttpResponseOn_missing hm hl]
        dsimp only
        rw [changes_append, lookUpOn_changes, List.nil_append]
        exact balanced_error a sock (by simp [EndPoint.withCode])
      · rintro ⟨⟨-, st, hst, -⟩, -⟩
        rw [hstat] at hst
        cases hst
    | some r =>
      obtain ⟨st, hst, hrcgi⟩ := lookUpOn_found hl
      rw [rootPath_cgi, splitUri_cgi hm hcgi] at hrcgi
      have hruns : runsProgram a ep.request ↔ r.cgi = true := by
        unfold runsProgram
        rw [hrcgi, hst]
        simp [hm]
      rw [responseChanges_found hm hl, hruns]
      cases hr : r.cgi with
      | false =>
        constructor
        · intro _
          exact balanced_file a sock ((setSuffix_cgi r).trans hr)
        · rintro ⟨h, -⟩
          cases h
      | true =>
        have hprogram := @serveChanges_program a sock { ep with request := setSuffix r }
          ((setSuffix_cgi r).trans hr)
        cases hup : a.cgi.givesUp with
        | true =>
          rw [hup, if_pos rfl] at hprogram
          exact ⟨fun h => absurd ⟨rfl, rfl⟩ h, fun _ => hprogram⟩
        | false =>
          rw [hup, if_neg (by decide)] at hprogram
          exact ⟨fun _ => hprogram, fun h => absurd h.2 (by decide)⟩
  · constructor
    · intro _
      unfold responseChanges
      rw [buildHttpResponseOn_reject a hm]
      exact balanced_error a sock (by simp [EndPoint.withCode])
    · rintro ⟨⟨h, -⟩, -⟩
      exact absurd h hm

theorem handlerRequestOn_changes (flowsOff : EndPoint → Bool) (a : CallResults) (o : Sender)
    (files : Int → Option Bytes) (stream : Sock) (size : Int) (sock : Nat) :
    changes sock (handlerRequestOn flowsOff a o files stream size).log =
      if (recvHttpRequest flowsOff (.new stream size)).isStop = true then [.release sock]
      else responseChanges a sock (recvHttpRequest flowsOff (.new stream size)) ++
        [.release sock] := by
  unfold handlerRequestOn
  dsimp only
  split
  · rfl
  · rw [changes_append, changes_append]
    rfl

/-- **No descriptor is left open** exactly when no run of a program is given up
with a pipe made. -/
theorem handlerRequestOn_table_iff (flowsOff : EndPoint → Bool) (a : CallResults) (o : Sender)
    (files : Int → Option Bytes) (stream : Sock) (size : Int) {table : Finset Nat} {sock : Nat}
    (hsock : sock ∈ table)
    (hfresh : Fresh table (changes sock (handlerRequestOn flowsOff a o files stream size).log)) :
    after table (changes sock (handlerRequestOn flowsOff a o files stream size).log) =
        table.erase sock ↔
      ¬ ((recvHttpRequest flowsOff (.new stream size)).isStop = false ∧
        runsProgram a (recvHttpRequest flowsOff (.new stream size)).request ∧
        a.cgi.givesUp = true) := by
  have hcgi := (recvHttpRequest_frame flowsOff (.new stream size)).2.1
  rw [handlerRequestOn_changes] at hfresh ⊢
  cases hstop : (recvHttpRequest flowsOff (.new stream size)).isStop with
  | true =>
    rw [if_pos rfl]
    exact iff_of_true rfl (fun h => by cases h.1)
  | false =>
    rw [hstop, if_neg (by decide)] at hfresh
    rw [if_neg (by decide)]
    obtain ⟨hbalanced, hleaves⟩ := responseChanges_cases a sock hcgi
    obtain ⟨hrestored, hlost⟩ := after_close hsock hfresh
    constructor
    · intro h hup
      exact hlost (hleaves hup.2) h
    · intro h
      apply hrestored
      apply hbalanced
      intro hup
      exact h ⟨rfl, hup⟩

def programUri : Word := ⟨str "/a?b", by decide, noSpace_of_all (by decide)⟩

/-- A program to run, and an error page that does not open. -/
def programResults (c : CgiRun) : CallResults where
  stat := some ⟨0x81ED, 100, by decide⟩
  statPage := none
  openTarget := none
  cgi := c
  openPage := none
  pageStat := ⟨0, 0, by decide⟩

def programStream : Sock := Sock.new ((getMessage programUri).serialise []) fun _ => false

/-- Whatever is sent, and whatever the run of the program returns. -/
theorem programStream_changes (c : CgiRun) (o : Sender) : ∃ ep : EndPoint,
    ep.request.cgi = true ∧
      changes 9 (handlerRequestOn (fun _ => false) (programResults c) o (fun _ => none)
          programStream 0).log =
        serveChanges (programResults c) 9 ep ++ [.release 9] := by
  obtain ⟨hstop, hmethod, huri⟩ := getMessage_received programUri (by decide)
  have hcgi := (recvHttpRequest_frame (fun _ => false) (.new programStream 0)).2.1
  rw [handlerRequestOn_changes]
  change (recvHttpRequest (fun _ => false) (.new programStream 0)).isStop = false at hstop
  change (recvHttpRequest (fun _ => false) (.new programStream 0)).request.method = _ at hmethod
  change (recvHttpRequest (fun _ => false) (.new programStream 0)).request.uri = _ at huri
  generalize recvHttpRequest (fun _ => false) (.new programStream 0) = ep at hstop hmethod huri hcgi
  rw [hstop, if_neg (by decide)]
  obtain ⟨r, hl⟩ : ∃ r,
      (lookUpOn (programResults c) (rootPath (splitUri ep.request))).1 = some r := ⟨_, rfl⟩
  obtain ⟨st, -, hr⟩ := lookUpOn_found hl
  refine ⟨{ ep with request := setSuffix r }, ?_, ?_⟩
  · rw [rootPath_cgi, splitUri_cgi (Or.inl hmethod) hcgi, asksProgram, huri] at hr
    change (setSuffix r).cgi = true
    rw [setSuffix_cgi, hr, hmethod]
    rfl
  · rw [responseChanges_found (Or.inl hmethod) hl]

/-- A program that is run and ends with 0. -/
def forkedRun : CgiRun := ⟨some (3, 4), some (5, 6), true, [], some 0, true⟩

/-- A program that is not run, `fork` being refused. -/
def refusedRun : CgiRun := ⟨some (3, 4), some (5, 6), false, [], some 0, false⟩

theorem forkedRun_changes {ep : EndPoint} (hcgi : ep.request.cgi = true) :
    serveChanges (programResults forkedRun) 9 ep =
      [3, 4, 5, 6].map .acquire ++ [5, 4, 3, 6].map .release := by
  unfold serveChanges
  rw [serve_program hcgi, endChanges_ok _ _ rfl]
  have hnone : closesFile ((processCIG (programResults forkedRun).world ep).2.1.withCode
      (processCIG (programResults forkedRun).world ep).1) = [] := if_pos hcgi
  rw [hnone]
  rfl

theorem refusedRun_changes {ep : EndPoint} (hcgi : ep.request.cgi = true) :
    serveChanges (programResults refusedRun) 9 ep = [3, 4, 5, 6].map .acquire := by
  unfold serveChanges
  rw [serve_program hcgi]
  rfl

theorem handlerRequestOn_table_iff_forked :
    9 ∈ ({0, 1, 2, 9} : Finset Nat) ∧
      after {0, 1, 2, 9} (changes 9 (handlerRequestOn (fun _ => false) (programResults forkedRun)
        .all (fun _ => none) programStream 0).log) = Finset.erase {0, 1, 2, 9} 9 := by
  obtain ⟨ep, hcgi, hlog⟩ := programStream_changes forkedRun .all
  refine ⟨by decide, (handlerRequestOn_table_iff (fun _ => false) (programResults forkedRun) .all
    (fun _ => none) programStream 0 (by decide) ?_).mpr ?_⟩
  · rw [hlog, forkedRun_changes hcgi]
    decide
  · rintro ⟨-, -, h⟩
    exact absurd h (by decide)

/-- The two pipes stay open. -/
theorem handlerRequestOn_refused :
    Fresh {0, 1, 2, 9} (changes 9 (handlerRequestOn (fun _ => false) (programResults refusedRun)
        .all (fun _ => none) programStream 0).log) ∧
      after {0, 1, 2, 9} (changes 9 (handlerRequestOn (fun _ => false) (programResults refusedRun)
        .all (fun _ => none) programStream 0).log) = {0, 1, 2, 3, 4, 5, 6} ∧
      ({0, 1, 2, 3, 4, 5, 6} : Finset Nat) ≠ Finset.erase {0, 1, 2, 9} 9 := by
  obtain ⟨ep, hcgi, hlog⟩ := programStream_changes refusedRun .all
  rw [hlog, refusedRun_changes hcgi]
  exact ⟨by decide, by decide, by decide⟩

end MinHttp

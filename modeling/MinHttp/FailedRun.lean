import MinHttp.Target
import MinHttp.Delivery

/-! What is sent when the program that was run has failed: an answer that does
not depend on anything the program wrote, where `waitpid` tells of its end. -/
namespace MinHttp

open Lib.Numerals (signed unsigned)

/-- A child was made, and it ends with another status than 0 or by a signal.
What `waitpid` answers is another matter. -/
structure CgiRun.ChildFails (c : CgiRun) : Prop where
  input : c.input.isSome
  output : c.output.isSome
  forked : c.forked
  ended : c.ended ≠ some 0

/-- The same world with other bytes read from the child. -/
def World.receiving (w : World) (received : Bytes) : World :=
  { w with cgi := { w.cgi with received := received } }

/-- The descriptor on which the error page opens. -/
def World.page (w : World) : Option Nat := w.openRdonly (cstr errorPage) w.openPage

/-- The files open on descriptors after the calls of a log. -/
def openFiles (content : Bytes → Bytes) (log : List Sys) (fd : Int) : Option Bytes :=
  (fileOn log fd).map content

/-- What goes over the socket for a request. -/
def respond (o : Sender) (content : Bytes → Bytes) (w : World) (ep : EndPoint) : Bytes :=
  let (built, log) := buildHttpResponse w ep
  (sendHttpResquese o (openFiles content log) built).1

/-- What is known of the error page, if it opens. -/
def World.pageStat (w : World) : Option Stat := w.page.bind fun _ => w.stat (cstr errorPage)

/-- The headers of the error page, if it opens. -/
def pageHead (w : World) : List Bytes :=
  match w.pageStat with
  | some st =>
    [contentType ++ str "text/html" ++ lineEnd, contentLengthIs ++ toString st.stSize ++ lineEnd]
  | none => []

def pageSize (w : World) : Nat := (w.pageStat.map Stat.stSize).getD 0

/-- Status line, headers, blank line and page, sent piece by piece. -/
def sendPage (o : Sender) (code : Int) (head : List Bytes) (page : Option Bytes) (size : Int) :
    Bytes :=
  sendPiece o 0 (statusLineOf code) ++ sendHead o 1 head ++
    sendPiece o (1 + head.length) lineEnd ++ sendfile o (2 + head.length) page size

/-- The answer of an error: its status line, and the error page in full with
its headers, or nothing where that does not open. -/
def errorAnswer (o : Sender) (content : Bytes → Bytes) (w : World) (code : Int) : Bytes :=
  sendPage o code (pageHead w) (w.page.map fun _ => content (cstr errorPage)) (pageSize w)

/-- What the program wrote does not show: whatever the socket takes and the
files hold, the same is sent for any two outputs, the answer of an error, and
`cgi` is not set. -/
structure Unshown (w : World) (ep : EndPoint) : Prop where
  same : ∀ o content received received',
    respond o content (w.receiving received) ep = respond o content (w.receiving received') ep
  sent : ∃ code ∈ [notFound, serverError, badRequset], ∀ o content received,
    respond o content (w.receiving received) ep = errorAnswer o content w code
  cgi : ∀ received, (buildHttpResponse (w.receiving received) ep).1.request.cgi = false

/-- No file is open on the descriptor of an `open` that failed. -/
theorem fileOn_failed (log : List Sys) : fileOn log (-1) = none := by
  rw [fileOn, List.findSome?_eq_none_iff]
  intro call _
  cases call with
  | openRdonly path fd =>
    cases fd with
    | none => rfl
    | some n => exact if_neg (by omega)
  | _ => rfl

theorem fileOn_opened (log log' : List Sys) (path : Bytes) (fd : Nat)
    (h : fileOn log' fd = none) :
    fileOn (log ++ (.openRdonly path (some fd) :: log')) fd = some path := by
  rw [fileOn_append, ← List.singleton_append, fileOn_append, h]
  simp [fileOn]

section
variable (o : Sender) (content : Bytes → Bytes) {w : World} {ep : EndPoint} {code : Int}
  (hline : ep.response.statusLine = statusLineOf code) (hhead : ep.response.respHead = [])
  (hblank : ep.response.blank = lineEnd) (log : List Sys)
include hline hhead hblank

/-- An answer with the error page, as it is sent. -/
theorem handlerError_sent (hpage : w.page ≠ some 0) :
    let answered := handlerError w errorPage ep
    (sendHttpResquese o (openFiles content (log ++ answered.2)) answered.1).1 =
      sendPage o code (pageHead w) (w.page.map fun _ => content (cstr errorPage))
        (signed 32 (pageSize w)) := by
  unfold handlerError sendPage pageHead pageSize World.pageStat
  unfold World.page at hpage ⊢
  cases hopen : w.openRdonly (cstr errorPage) w.openPage with
  | none =>
    simp [sendHttpResquese, EndPoint.reply, Reply.send, fdInt, openFiles, fileOn_failed, hline,
      hhead, hblank, sendfile]
  | some fd =>
    obtain ⟨st, hst⟩ := openRdonly_stat hopen
    have hfile := fileOn_opened log [.stat (cstr errorPage)] (cstr errorPage) fd rfl
    have hpos : (fd : Int) > 0 := by
      rw [hopen] at hpage
      have hne : fd ≠ 0 := fun h => hpage (congrArg some h)
      omega
    simp only [fdInt, hpos, if_true, hst, Option.getD_some, Option.bind_some, Option.map_some]
    simp only [sendHttpResquese, EndPoint.reply, Reply.send, openFiles, hfile, hline, hhead,
      hblank, List.nil_append, Option.map_some, Bool.false_eq_true, if_false]

/-- A page on descriptor 0 is sent without headers, and as much of it as the
size of the file that was asked for. -/
theorem handlerError_sent_zero (hpage : w.page = some 0) :
    let answered := handlerError w errorPage ep
    (sendHttpResquese o (openFiles content (log ++ answered.2)) answered.1).1 =
      sendPage o code [] (some (content (cstr errorPage))) ep.request.size := by
  have hfile := fileOn_opened log [] (cstr errorPage) 0 rfl
  unfold handlerError sendPage
  rw [show w.openRdonly (cstr errorPage) w.openPage = some 0 from hpage]
  simp only [Nat.cast_zero] at hfile
  simp [sendHttpResquese, EndPoint.reply, Reply.send, fdInt, openFiles, hfile, hline, hhead,
    hblank]

end

/-- The error page is sent in full where `PageFits` has it. -/
theorem PageFits.signed {w : World} (h : PageFits w) : signed 32 (pageSize w) = pageSize w := by
  apply Lib.Numerals.signed32_natCast_of_lt
  unfold pageSize World.pageStat
  cases hpage : w.page with
  | none => exact Nat.two_pow_pos 31
  | some fd =>
    obtain ⟨st, hst⟩ := openRdonly_stat hpage
    rw [Option.bind_some, hst]
    exact (h fd hpage).2 st hst

theorem PageFits.page {w : World} (h : PageFits w) : w.page ≠ some 0 :=
  fun hpage => (h 0 hpage).1 rfl

/-! Where it does not fit, the socket takes all and the page is as long as its
`stat` says: then too little is sent. -/

theorem sendPage_length (code : Int) (head : List Bytes) (page : Option Bytes) (size : Int) :
    (sendPage .all code head page size).length =
      (statusLineOf code).length + (sendHead .all 1 head).length + 2 +
        (sendfile .all (2 + head.length) page size).length := by
  have hpiece (i : Nat) (piece : Bytes) : sendPiece .all i piece = piece := by
    simp [sendPiece, Sender.all]
  rw [sendPage, hpiece, hpiece]
  simp only [List.length_append]
  rfl

theorem sendfile_length (i : Nat) (file : Bytes) (size : Int) :
    (sendfile .all i (some file) size).length =
      if unsigned 64 size < 2 ^ 63 then min (unsigned 64 size) file.length else 0 := by
  unfold sendfile
  dsimp only [Sender.all]
  split
  · rw [List.length_take, Int.toNat_natCast, Nat.min_assoc, Nat.min_self]
  · rfl

theorem unsigned64_of_lt {n : Nat} (h : n < 2 ^ 63) : unsigned 64 (n : Int) = n := by
  unfold unsigned
  omega

/-- A count that passes through an `int` too small for it asks for less. -/
theorem sendfile_cut {n : Nat} (h : 2 ^ 31 ≤ n) :
    (if unsigned 64 (signed 32 (n : Int)) < 2 ^ 63 then min (unsigned 64 (signed 32 (n : Int))) n
      else 0) < n := by
  obtain ⟨hlo, hhi⟩ := Lib.Numerals.signed32_bounds (n : Int)
  unfold unsigned
  split <;> omega

theorem statusLineOf_length {code code' : Int} (h : code = badRequset ∨ code = serverError)
    (h' : code' ∈ [notFound, serverError, badRequset]) :
    (statusLineOf code).length ≤ (statusLineOf code').length := by
  have hall : ∀ c ∈ [badRequset, serverError], ∀ c' ∈ [notFound, serverError, badRequset],
      (statusLineOf c).length ≤ (statusLineOf c').length := by decide
  exact hall code (by simpa using h) code' h'

/-- What `ProcessCIG` makes of a child. -/
theorem processCIG_forked {w : World} (hinput : w.cgi.input.isSome) (houtput : w.cgi.output.isSome)
    (hforked : w.cgi.forked) (ep : EndPoint) :
    (processCIG w ep).1 = waitCode OK w.cgi.wait ∧
      (processCIG w ep).2.1 = { ep with response := { ep.response with
        respBody := ep.response.respBody ++ w.cgi.received } } := by
  obtain ⟨i, hi⟩ := Option.isSome_iff_exists.mp hinput
  obtain ⟨o, ho⟩ := Option.isSome_iff_exists.mp houtput
  simp only [processCIG, hi, ho, hforked, if_true]
  exact ⟨trivial, trivial⟩

theorem waitCode_failed {c : CgiRun} (h : c.ChildFails) (hwaited : c.waited = true) :
    waitCode OK c.wait = badRequset ∨ waitCode OK c.wait = serverError := by
  rw [CgiRun.wait, if_pos hwaited]
  cases hended : c.ended with
  | none => exact Or.inr rfl
  | some status => exact Or.inl (if_neg fun hs => h.ended (hended.trans (congrArg some hs)))

section
variable {w : World} {ep : EndPoint} {r : HttpRequest} (hnew : ep.response = .new)
  (hrun : cgiRequest w ep.request = some r) (hfails : w.cgi.ChildFails)
include hnew hrun hfails

/-- The end of a program that `waitpid` reports is answered by `HandlerError`. -/
theorem buildHttpResponse_failed (hwaited : w.cgi.waited = true) :
    ∃ ep' log, buildHttpResponse w ep =
        ((handlerError w errorPage ep').1, log ++ (handlerError w errorPage ep').2) ∧
      ep'.response.statusLine = statusLineOf (waitCode OK w.cgi.wait) ∧
      ep'.response.respHead = [] ∧ ep'.response.blank = lineEnd ∧ ep'.request.size = r.size := by
  obtain ⟨hcode, hrest⟩ :=
    processCIG_forked hfails.input hfails.output hfails.forked { ep with request := r }
  have herror : waitCode OK w.cgi.wait ∈ [notFound, serverError, badRequset] := by
    rcases waitCode_failed hfails hwaited with h | h <;> simp [h]
  rw [buildHttpResponse_program hrun]
  dsimp only at hcode hrest ⊢
  rw [hcode, hrest, buildHttpResponseHelper_error w (by rw [hnew]; rfl) herror]
  refine ⟨_, _, rfl, rfl, ?_, ?_, rfl⟩
  · simp only [EndPoint.withStatus, EndPoint.withCode, hnew]
    rfl
  · simp only [EndPoint.withStatus, EndPoint.withCode, hnew]
    rfl

theorem respond_failed_cgi (hwaited : w.cgi.waited = true) :
    (buildHttpResponse w ep).1.request.cgi = false := by
  obtain ⟨ep', log, hbuilt, -⟩ := buildHttpResponse_failed hnew hrun hfails hwaited
  rw [hbuilt, handlerError]
  dsimp only
  split <;> rfl

theorem respond_failed (o : Sender) (content : Bytes → Bytes) (hwaited : w.cgi.waited = true)
    (hpage : w.page ≠ some 0) :
    respond o content w ep = sendPage o (waitCode OK w.cgi.wait) (pageHead w)
      (w.page.map fun _ => content (cstr errorPage)) (signed 32 (pageSize w)) := by
  obtain ⟨ep', log, hbuilt, hline, hhead, hblank, -⟩ :=
    buildHttpResponse_failed hnew hrun hfails hwaited
  rw [respond, hbuilt]
  exact handlerError_sent o content hline hhead hblank log hpage

theorem respond_failed_zero (o : Sender) (content : Bytes → Bytes)
    (hwaited : w.cgi.waited = true) (hpage : w.page = some 0) :
    respond o content w ep = sendPage o (waitCode OK w.cgi.wait) []
      (some (content (cstr errorPage))) r.size := by
  obtain ⟨ep', log, hbuilt, hline, hhead, hblank, hsize⟩ :=
    buildHttpResponse_failed hnew hrun hfails hwaited
  rw [respond, hbuilt, ← hsize]
  exact handlerError_sent_zero o content hline hhead hblank log hpage

/-- An end that `waitpid` does not report is taken for a good one. -/
theorem buildHttpResponse_unwaited (hwaited : w.cgi.waited = false) :
    (buildHttpResponse w ep).1.response.statusCode = OK ∧
      (buildHttpResponse w ep).1.response.respBody = w.cgi.received ∧
      (buildHttpResponse w ep).1.request.cgi = true := by
  obtain ⟨-, -, -, -, hcgi⟩ := cgiRequest_eq_some hrun
  obtain ⟨hcode, hrest⟩ :=
    processCIG_forked hfails.input hfails.output hfails.forked { ep with request := r }
  have hok : waitCode OK w.cgi.wait = OK := by rw [CgiRun.wait, hwaited]; rfl
  rw [buildHttpResponse_program hrun]
  dsimp only at hcode hrest ⊢
  rw [hcode, hrest, hok, buildHttpResponseHelper_ok w (by rw [hnew]; rfl) rfl]
  refine ⟨rfl, ?_, hcgi⟩
  simp only [buildOkResponse, EndPoint.withStatus, EndPoint.withCode, hnew]
  rfl

/-- The answer of an error is sent only where the page fits. -/
theorem pageFits_of_sent (hwaited : w.cgi.waited = true) {code : Int}
    (hcode : code ∈ [notFound, serverError, badRequset])
    (hsent : ∀ content, respond .all content w ep = errorAnswer .all content w code) :
    PageFits w := by
  have hline := statusLineOf_length (waitCode_failed hfails hwaited) hcode
  intro fd (hfd : w.page = some fd)
  obtain ⟨st, hst⟩ := openRdonly_stat hfd
  have hstat : w.pageStat = some st := by rw [World.pageStat, hfd, Option.bind_some, hst]
  have hlength (content : Bytes → Bytes) := congrArg List.length (hsent content)
  have hne : fd ≠ 0 := by
    rintro rfl
    have hhead : 0 < (sendHead .all 1 (pageHead w)).length := by
      simp [pageHead, hstat, sendHead, sendPiece, Sender.all, lineEnd]
      omega
    have h := hlength fun _ => []
    rw [respond_failed_zero hnew hrun hfails .all _ hwaited hfd, errorAnswer, sendPage_length,
      sendPage_length, hfd, Option.map_some, sendfile_length, sendfile_length] at h
    simp only [sendHead, List.length_nil, Nat.min_zero, ite_self] at h
    omega
  refine ⟨hne, fun st' hst' => ?_⟩
  cases hst.symm.trans hst'
  by_contra hbig
  have hsize : pageSize w = st.stSize := by rw [pageSize, hstat]; rfl
  have hpage : w.page ≠ some 0 := fun h => hne (Option.some.inj (hfd.symm.trans h))
  have h := hlength fun _ => List.replicate st.stSize 0
  rw [respond_failed hnew hrun hfails .all _ hwaited hpage, errorAnswer, sendPage_length,
    sendPage_length, hfd, Option.map_some, sendfile_length, sendfile_length, hsize,
    List.length_replicate] at h
  have hcut := sendfile_cut (Nat.not_lt.mp hbig)
  rw [unsigned64_of_lt st.isOff, if_pos st.isOff, Nat.min_self] at h
  omega

end

/-- **When a failed program does not show**: what it wrote stays out of the
answer exactly where `waitpid` reports its end and the error page fits. -/
theorem received_unshown_iff (flowsOff : EndPoint → Bool) (sock : Sock) (size : Int) {w : World}
    (hrun : (cgiRequest w (recvHttpRequest flowsOff (.new sock size)).request).isSome)
    (hfails : w.cgi.ChildFails) :
    Unshown w (recvHttpRequest flowsOff (.new sock size)) ↔
      w.cgi.waited = true ∧ PageFits w := by
  have hnew := (recvHttpRequest_frame flowsOff (.new sock size)).1
  obtain ⟨r, hrun⟩ := Option.isSome_iff_exists.mp hrun
  constructor
  · intro h
    have hwaited : w.cgi.waited = true := by
      by_contra hwaited
      have hcgi := (buildHttpResponse_unwaited hnew hrun hfails (by simpa using hwaited)).2.2
      exact Bool.false_ne_true ((h.cgi w.cgi.received).symm.trans hcgi)
    obtain ⟨code, hcode, hsent⟩ := h.sent
    exact ⟨hwaited, pageFits_of_sent hnew hrun hfails hwaited hcode
      fun content => hsent .all content w.cgi.received⟩
  · rintro ⟨hwaited, hfits⟩
    have hfails' (received : Bytes) : (w.receiving received).cgi.ChildFails :=
      ⟨hfails.input, hfails.output, hfails.forked, hfails.ended⟩
    have hsent (o : Sender) (content : Bytes → Bytes) (received : Bytes) :
        respond o content (w.receiving received) (recvHttpRequest flowsOff (.new sock size)) =
          errorAnswer o content w (waitCode OK w.cgi.wait) := by
      have h := respond_failed (w := w.receiving received) hnew hrun (hfails' received) o content
        hwaited hfits.page
      rw [h, errorAnswer, ← hfits.signed]
      rfl
    refine ⟨fun o content _ _ => (hsent o content _).trans (hsent o content _).symm,
      ⟨_, ?_, hsent⟩, fun received => ?_⟩
    · rcases waitCode_failed hfails hwaited with h | h <;> simp [h]
    · exact respond_failed_cgi (w := w.receiving received) hnew hrun (hfails' received) hwaited

/-- A program at `/a` that writes a part of a page and exits with 3. -/
def halfWritten (waited : Bool) : World :=
  { oneFile (str "./wwwroot/a") ⟨0x81ED, 10, by decide⟩ with
    cgi := ⟨some (3, 4), some (5, 6), true, str "<html>", some 3, waited⟩ }

def halfWrittenUri : Word := ⟨str "/a", by decide, noSpace_of_all (by decide)⟩

def halfWrittenSock : Sock := .new ((getMessage halfWrittenUri).serialise []) fun _ => false

theorem halfWritten_reached (waited : Bool) :
    (cgiRequest (halfWritten waited)
      (recvHttpRequest (fun _ => false) (.new halfWrittenSock 0)).request).isSome := by
  obtain ⟨-, hmethod, huri⟩ := getMessage_received halfWrittenUri (by decide)
  change (recvHttpRequest (fun _ => false) (.new halfWrittenSock 0)).request.method = _ at hmethod
  change (recvHttpRequest (fun _ => false) (.new halfWrittenSock 0)).request.uri = _ at huri
  generalize recvHttpRequest (fun _ => false) (.new halfWrittenSock 0) = ep at hmethod huri ⊢
  have hpath : (rootPath (splitUri ep.request)).path = str "./wwwroot/a" := by
    rw [rootPath]
    dsimp only
    rw [splitUri_path (Or.inl hmethod), target, if_pos hmethod, huri]
    decide
  have hlooked : ∃ r, (lookUp (halfWritten waited) (rootPath (splitUri ep.request))).1 = some r ∧
      r.cgi = true := by
    unfold lookUp
    rw [hpath]
    refine ⟨_, rfl, ?_⟩
    change ((rootPath (splitUri ep.request)).cgi || executable 0x81ED) = true
    exact Bool.or_true _
  obtain ⟨r, hl, hcgi⟩ := hlooked
  rw [cgiRequest, if_pos (Or.inl hmethod), hl, Option.map_some, Option.filter_some, setSuffix_frame]
  exact Option.isSome_iff_exists.mpr ⟨_, if_pos hcgi⟩

theorem received_unshown_iff_halfWritten :
    Unshown (halfWritten true) (recvHttpRequest (fun _ => false) (.new halfWrittenSock 0)) ↔
      (halfWritten true).cgi.waited = true ∧ PageFits (halfWritten true) :=
  received_unshown_iff (fun _ => false) halfWrittenSock 0 (halfWritten_reached true)
    ⟨rfl, rfl, rfl, by decide⟩

/-- The same program where `waitpid` fails: its bytes are the answer. -/
theorem received_shown :
    let ep := recvHttpRequest (fun _ => false) (.new halfWrittenSock 0)
    let built := (buildHttpResponse (halfWritten false) ep).1
    (halfWritten false).cgi.ended = some 3 ∧ built.response.statusCode = OK ∧
      built.response.respBody = str "<html>" ∧ built.request.cgi = true ∧
      ¬ Unshown (halfWritten false) ep := by
  intro ep built
  have hnew : ep.response = .new := (recvHttpRequest_frame _ _).1
  obtain ⟨r, hrun⟩ := Option.isSome_iff_exists.mp (halfWritten_reached false)
  obtain ⟨hcode, hbody, hcgi⟩ := buildHttpResponse_unwaited (w := halfWritten false) hnew hrun
    ⟨rfl, rfl, rfl, by decide⟩ rfl
  exact ⟨rfl, hcode, hbody, hcgi,
    fun h => Bool.false_ne_true ((h.cgi (str "<html>")).symm.trans hcgi)⟩

end MinHttp

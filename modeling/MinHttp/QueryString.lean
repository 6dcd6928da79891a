import MinHttp.Confinement
import MinHttp.ContentType
import MinHttp.FailedRun

/-! Requests with and without a query string: whether they find the same
resource, and whether a page is answered in the same way. -/
namespace MinHttp

open Lib.Numerals (signed unsigned)

/-- The same calls of `stat`, and the same path opened or executed. -/
structure SameResource (w : World) (r r' : HttpRequest) : Prop where
  looked : (lookUp w (rootPath (splitUri r))).2 = (lookUp w (rootPath (splitUri r'))).2
  served : (servedRequest w r).map (fun s => cstr s.path) =
    (servedRequest w r').map fun s => cstr s.path

theorem rootPath_append (r : HttpRequest) :
    ∃ page, (page = [] ∨ page = defautlPage) ∧ (rootPath r).path = webRoot ++ (r.path ++ page) := by
  unfold rootPath
  dsimp only
  split
  · exact ⟨defautlPage, Or.inr rfl, List.append_assoc _ _ _⟩
  · exact ⟨[], Or.inl rfl, by rw [List.append_nil]⟩

theorem lookUp_log (w : World) (r : HttpRequest) :
    (lookUp w r).2 =
      if ∃ st, w.stat (cstr r.path) = some st ∧ sIsDir st.stMode = true then
        [.stat (cstr r.path), .stat (cstr (indexPage r.path))]
      else [.stat (cstr r.path)] := by
  unfold lookUp
  cases w.stat (cstr r.path) with
  | none => simp
  | some st => by_cases hd : sIsDir st.stMode = true <;> simp [hd, indexPage]

/-- Paths that are the same to the calls find the same. -/
theorem sameResource_of_cstr (w : World) {r r' : HttpRequest}
    (hm : r.method = methodGet ∨ r.method = methodPost)
    (hm' : r'.method = methodGet ∨ r'.method = methodPost)
    (hpath : cstr (rootPath (splitUri r)).path = cstr (rootPath (splitUri r')).path)
    (hpage : cstr (indexPage (rootPath (splitUri r)).path) =
      cstr (indexPage (rootPath (splitUri r')).path)) : SameResource w r r' := by
  constructor
  · rw [lookUp_log, lookUp_log, hpath, hpage]
  · rw [servedRequest, if_pos hm, servedRequest, if_pos hm']
    cases hl : (lookUp w (rootPath (splitUri r))).1 with
    | none =>
      cases hl' : (lookUp w (rootPath (splitUri r'))).1 with
      | none => rfl
      | some s' =>
        obtain ⟨st, hst, -⟩ := lookUp_found hl'
        rw [← hpath, lookUp_none hl] at hst
        cases hst
    | some s =>
      obtain ⟨st, hst, hs, -⟩ := lookUp_found hl
      cases hl' : (lookUp w (rootPath (splitUri r'))).1 with
      | none =>
        rw [hpath, lookUp_none hl'] at hst
        cases hst
      | some s' =>
        obtain ⟨st', hst', hs', -⟩ := lookUp_found hl'
        rw [← hpath, hst] at hst'
        cases hst'
        simp only [Option.map_some, Option.some.injEq]
        rw [setSuffix_frame, setSuffix_frame s']
        simp only
        rw [hs, hs']
        split
        · exact hpage
        · exact hpath

theorem SameResource.first {w : World} {r r' : HttpRequest} (h : SameResource w r r') :
    cstr (rootPath (splitUri r)).path = cstr (rootPath (splitUri r')).path := by
  have hlog := h.looked
  rw [lookUp_log, lookUp_log] at hlog
  split at hlog <;> split at hlog <;> simp_all

/-- What stands before the query string comes first in the path. -/
theorem rootPath_uri {r : HttpRequest} {p t : Bytes}
    (hm : r.method = methodGet ∨ r.method = methodPost) (htarget : target r = p ++ t) :
    ∃ page, (page = [] ∨ page = defautlPage) ∧
      (rootPath (splitUri r)).path = (webRoot ++ p) ++ (t ++ page) := by
  obtain ⟨page, hpage, hpath⟩ := rootPath_append (splitUri r)
  refine ⟨page, hpage, ?_⟩
  rw [hpath, splitUri_path hm, htarget]
  simp only [List.append_assoc]

/-- A query string begins where another path ends or goes on with the page. -/
theorem cstr_query_ne {p t t' page' : Bytes} (hp : NUL ∉ p)
    (hpage' : page' = [] ∨ page' = defautlPage) :
    cstr ((webRoot ++ p) ++ (63 :: t ++ t')) ≠ cstr ((webRoot ++ p) ++ page') := by
  have hroot : NUL ∉ webRoot ++ p := by
    rw [List.mem_append, not_or]
    exact ⟨by decide, hp⟩
  rw [cstr_append hroot, cstr_append hroot]
  intro h
  have hrest := List.append_cancel_left h
  rw [List.cons_append, cstr, List.takeWhile_cons_of_pos (by decide)] at hrest
  rcases hpage' with rfl | rfl
  · cases hrest
  · exact absurd (List.cons.inj hrest).1 (by decide)

theorem takeWhile_query {p : Bytes} (hp : 63 ∉ p) (q : Bytes) :
    (p ++ 63 :: q).takeWhile (· != 63) = p :=
  Lib.Cut.takeWhile_first hp q

theorem target_plain {r : HttpRequest} (hp : 63 ∉ r.uri) : target r = r.uri := by
  rw [target, Lib.Cut.takeWhile_absent hp, ite_self]

/-- The path of a GET, with a query string and without one. -/
theorem rootPath_get {r r' : HttpRequest} {p q : Bytes} (hm : r.method = methodGet)
    (hm' : r'.method = methodGet) (hp : 63 ∉ p) (huri : r.uri = p ++ 63 :: q)
    (huri' : r'.uri = p) : (rootPath (splitUri r)).path = (rootPath (splitUri r')).path := by
  apply rootPath_congr
  rw [splitUri_path (Or.inl hm), splitUri_path (Or.inl hm'), target, if_pos hm, huri,
    takeWhile_query hp, target_plain (huri' ▸ hp), huri']

/-- **A query string changes no path** of a GET, and of a POST only if the URI
holds no NUL before it. -/
theorem sameResource_iff (w : World) {r r' : HttpRequest} {p q : Bytes}
    (hm : r.method = methodGet ∨ r.method = methodPost) (hm' : r'.method = r.method)
    (hp : 63 ∉ p) (huri : r.uri = p ++ 63 :: q) (huri' : r'.uri = p) :
    SameResource w r r' ↔ r.method = methodGet ∨ NUL ∈ p := by
  have hms : r'.method = methodGet ∨ r'.method = methodPost := by rwa [hm']
  have htarget' : target r' = p := by rw [target_plain (huri' ▸ hp), huri']
  obtain ⟨page', hpage', hpath'⟩ := rootPath_uri (t := []) hms (by rw [htarget', List.append_nil])
  rw [List.nil_append] at hpath'
  constructor
  · intro h
    by_contra hnot
    obtain ⟨hget, hnul⟩ := not_or.mp hnot
    have htarget : target r = p ++ 63 :: q := by rw [target, if_neg hget, huri]
    obtain ⟨page, -, hpath⟩ := rootPath_uri hm htarget
    have hfirst := h.first
    rw [hpath, hpath'] at hfirst
    exact cstr_query_ne hnul hpage' hfirst
  · rintro (hget | hnul)
    · have hroot := rootPath_get hget (hm'.trans hget) hp huri huri'
      apply sameResource_of_cstr w hm hms
      · rw [hroot]
      · rw [hroot]
    · have htarget : ∃ t, target r = p ++ t := by
        unfold target
        split
        · exact ⟨[], by rw [huri, takeWhile_query hp, List.append_nil]⟩
        · exact ⟨_, huri⟩
      obtain ⟨t, htarget⟩ := htarget
      obtain ⟨page, -, hpath⟩ := rootPath_uri hm htarget
      have hmem : NUL ∈ webRoot ++ p := List.mem_append_right _ hnul
      apply sameResource_of_cstr w hm hms
      · rw [hpath, hpath', cstr_append_of_mem hmem, cstr_append_of_mem hmem]
      · rw [hpath, hpath', indexPage, indexPage]
        simp only [List.append_assoc]
        rw [← List.append_assoc webRoot, ← List.append_assoc webRoot, cstr_append_of_mem hmem,
          cstr_append_of_mem hmem]

theorem sameResource_iff_get :
    SameResource (oneFile (str "./wwwroot/a.html") ⟨0x81A4, 5, by decide⟩)
        (getRequest (str "/a.html?x=1")).request (getRequest (str "/a.html")).request ↔
      (getRequest (str "/a.html?x=1")).request.method = methodGet ∨ NUL ∈ str "/a.html" :=
  @sameResource_iff _ _ _ (str "/a.html") (str "x=1") (Or.inl rfl) rfl (by decide) rfl rfl

/-- A request as the receiver leaves it for the line `POST uri`. -/
def postRequest (uri : Bytes) : HttpRequest :=
  { HttpRequest.new 0 with method := methodPost, uri := uri }

/-- The query string of a POST becomes a part of a file name. -/
theorem sameResource_post :
    ¬ SameResource (oneFile (str "./wwwroot/a.html") ⟨0x81A4, 5, by decide⟩)
      (postRequest (str "/a.html?x=1")) (postRequest (str "/a.html")) := by
  intro h
  exact absurd h.first (by decide)

/-- What `sendfile` can send of a file with a count of this size. -/
def fileBody (file : Bytes) (size : Int) : Bytes :=
  if unsigned 64 size < 2 ^ 63 then file.take (unsigned 64 size) else []

/-- The body that `SendHttpResquese` is to send. -/
def bodyToSend (content : Bytes → Bytes) (built : EndPoint × List Sys) : Bytes :=
  if built.1.request.cgi then built.1.response.respBody
  else match openFiles content built.2 built.1.response.fd with
    | some file => fileBody file built.1.request.size
    | none => []

structure SameAnswer (content : Bytes → Bytes) (built built' : EndPoint × List Sys) : Prop where
  code : built.1.response.statusCode = built'.1.response.statusCode
  statusLine : built.1.response.statusLine = built'.1.response.statusLine
  heads : built.1.response.respHead = built'.1.response.respHead
  body : bodyToSend content built = bodyToSend content built'

def sIsReg (mode : UInt32) : Bool := mode &&& 0xF000 == 0x8000

/-- The target of a path is a regular file that can be read and not executed. -/
structure StaticTarget (w : World) (path target : Bytes) (st : Stat) : Prop where
  resource : w.resource path = some (target, st)
  exists_ : w.stat (cstr target) = some st
  regular : sIsReg st.stMode = true
  noExecute : executable st.stMode = false
  readable : w.openTarget.isSome

/-- The child of a file without an execute bit: `execl` fails, and `exit(1)`
comes next, unless a signal ends the child; `waitpid` may fail. -/
def CgiRun.NotExecuted (c : CgiRun) : Prop :=
  c.wait = .exited 1 ∨ c.wait = .signaled ∨ c.wait = .failed

/-- The child was made, `waitpid` failed for it, and what was read from it is
what would have been sent of the file. -/
structure Coincides (content : Bytes → Bytes) (w : World) (target : Bytes) (st : Stat) : Prop where
  input : w.cgi.input.isSome
  output : w.cgi.output.isSome
  forked : w.cgi.forked
  waitFailed : w.cgi.wait = .failed
  length : (w.cgi.received.length : Int) = signed 32 st.stSize
  received : w.cgi.received = fileBody (content (cstr target)) (signed 32 st.stSize)

def okHead (target : Bytes) (length : Int) : List Bytes :=
  [contentType ++ typeOf (lastComponent target) ++ lineEnd,
   contentLengthIs ++ toString length ++ lineEnd]

/-- The request at the call that serves a static target. -/
theorem StaticTarget.lookUp {w : World} {r : HttpRequest} {t : Bytes} {st : Stat}
    (h : StaticTarget w r.path t st) :
    ∃ s, (lookUp w r).1 = some s ∧ s.path = t ∧ s.cgi = r.cgi ∧ s.size = signed 32 st.stSize := by
  have hlooked := lookUp_resource (w := w) (r := r)
  cases hl : (MinHttp.lookUp w r).1 with
  | none =>
    rw [hl, h.resource] at hlooked
    cases hlooked
  | some s =>
    rw [hl, h.resource] at hlooked
    obtain ⟨st', heq, hcgi, hsize⟩ := hlooked
    cases heq
    rw [h.noExecute, Bool.or_false] at hcgi
    exact ⟨s, rfl, rfl, hcgi, hsize⟩

/-- A page asked for without a query string. -/
theorem buildHttpResponse_static (content : Bytes → Bytes) {w : World} {ep : EndPoint} {t : Bytes}
    {st : Stat} (hnew : ep.response = .new) (hcgi : ep.request.cgi = false)
    (hm : ep.request.method = methodGet) (huri : 63 ∉ ep.request.uri)
    (h : StaticTarget w (rootPath (splitUri ep.request)).path t st) :
    let built := buildHttpResponse w ep
    built.1.response.statusCode = OK ∧ built.1.response.statusLine = statusLineOf OK ∧
      built.1.response.respHead = okHead t (signed 32 st.stSize) ∧
      bodyToSend content built = fileBody (content (cstr t)) (signed 32 st.stSize) := by
  obtain ⟨s, hl, hpath, hscgi, hsize⟩ := h.lookUp
  have hasks : asksProgram ep.request = false := by
    have hne : methodGet ≠ methodPost := by decide
    simp [asksProgram, hm, hne, huri]
  rw [rootPath_cgi, splitUri_cgi (Or.inl hm) hcgi, hasks] at hscgi
  obtain ⟨fd, hfd⟩ := Option.isSome_iff_exists.mp h.readable
  have hopen : w.openRdonly (cstr t) w.openTarget = some fd := by
    rw [World.openRdonly, h.exists_, hfd]
    rfl
  obtain ⟨suffix, hsuffix, hdesc⟩ := setSuffix_described s
  rw [hpath] at hdesc
  have hserved : serve w { ep with request := setSuffix s } =
      (OK, { ep with
        request := { s with suffix := suffix }, response := { ep.response with fd := fd } },
        [.openRdonly (cstr t) (some fd)]) := by
    rw [hsuffix, serve_file (by exact hscgi), processNonCIG, hpath, hopen]
    rfl
  have hfile := fileOn_opened (MinHttp.lookUp w (rootPath (splitUri ep.request))).2 [] (cstr t) fd rfl
  rw [buildHttpResponse_found (Or.inl hm) hl]
  dsimp only
  rw [hserved, buildHttpResponseHelper_ok w (by rw [hnew]; rfl) rfl]
  refine ⟨rfl, rfl, ?_, ?_⟩
  · simp only [buildOkResponse, EndPoint.withStatus, EndPoint.withCode, hscgi, hsize, hdesc, hnew,
      okHead, HttpResponse.new, List.nil_append, Bool.false_eq_true, if_false]
  · simp only [bodyToSend, buildOkResponse, EndPoint.withStatus, EndPoint.withCode, hscgi, hsize,
      List.append_nil, openFiles, hfile, Option.map_some, Bool.false_eq_true, if_false]

/-- A page asked for with a query string is run as a program. -/
theorem buildHttpResponse_query (content : Bytes → Bytes) {w : World} {ep : EndPoint} {t : Bytes}
    {st : Stat} (hnew : ep.response = .new) (hm : ep.request.method = methodGet)
    (huri : 63 ∈ ep.request.uri)
    (h : StaticTarget w (rootPath (splitUri ep.request)).path t st) :
    let built := buildHttpResponse w ep
    (w.cgi.succeeds = true → built.1.response.statusCode = OK ∧
      built.1.response.statusLine = statusLineOf OK ∧
      built.1.response.respHead = okHead t w.cgi.received.length ∧
      bodyToSend content built = w.cgi.received) ∧
    (w.cgi.succeeds = false → built.1.response.statusCode ≠ OK) := by
  obtain ⟨s, hl, hpath, hscgi, -⟩ := h.lookUp
  rw [rootPath_cgi, splitUri_get hm, if_pos huri] at hscgi
  obtain ⟨suffix, hsuffix, hdesc⟩ := setSuffix_described s
  rw [hpath] at hdesc
  have hserved : serve w { ep with request := setSuffix s } =
      processCIG w { ep with request := { s with suffix := suffix } } := by
    rw [hsuffix, serve_program (by exact hscgi)]
  rw [buildHttpResponse_found (Or.inl hm) hl]
  dsimp only
  rw [hserved]
  obtain ⟨-, -, hcode⟩ := processCIG_cases w { ep with request := { s with suffix := suffix } }
  constructor
  · intro hsucceeds
    obtain ⟨hinput, houtput, hforked⟩ : w.cgi.input.isSome ∧ w.cgi.output.isSome ∧
        w.cgi.forked = true := by
      simp only [CgiRun.succeeds, Bool.and_eq_true] at hsucceeds
      exact ⟨hsucceeds.1.1.1, hsucceeds.1.1.2, hsucceeds.1.2⟩
    have hbody := (processCIG_forked hinput houtput hforked
      { ep with request := { s with suffix := suffix } }).2
    rw [if_pos hsucceeds] at hcode
    rw [hcode, hbody, buildHttpResponseHelper_ok w (by rw [hnew]; rfl) rfl]
    refine ⟨rfl, rfl, ?_, ?_⟩
    · simp only [buildOkResponse, EndPoint.withStatus, EndPoint.withCode, hscgi, hdesc, hnew,
        okHead, HttpResponse.new, List.nil_append, if_true]
    · simp only [bodyToSend, buildOkResponse, EndPoint.withStatus, EndPoint.withCode, hscgi, hnew]
      rfl
  · intro hfails
    rw [(buildHttpResponseHelper_answered w _).1]
    rw [if_neg (by rw [hfails]; decide)] at hcode
    intro hok
    rw [show ∀ (e : EndPoint) (c : Int), (e.withCode c).response.statusCode = c from fun _ _ => rfl]
      at hok
    rw [hok] at hcode
    exact absurd hcode (by decide)

/-- A file that was not executed is answered with OK only where `waitpid`
failed. -/
theorem CgiRun.succeeds_notExecuted {c : CgiRun} (h : c.NotExecuted) :
    c.succeeds = true ↔ c.input.isSome ∧ c.output.isSome ∧ c.forked ∧ c.wait = .failed := by
  simp only [CgiRun.succeeds, Bool.and_eq_true]
  rcases h with h | h | h <;> simp [h, and_assoc]

/-- **A query string breaks a static page**, unless the failure of the program
goes unseen and what it wrote is the page. -/
theorem query_sameAnswer_iff (content : Bytes → Bytes) {w : World} {ep ep' : EndPoint}
    {p q t : Bytes} {st : Stat} (hnew : ep.response = .new) (hnew' : ep'.response = .new)
    (hcgi : ep'.request.cgi = false) (hm : ep.request.method = methodGet)
    (hm' : ep'.request.method = methodGet) (hp : 63 ∉ p) (huri : ep.request.uri = p ++ 63 :: q)
    (huri' : ep'.request.uri = p)
    (htarget : StaticTarget w (rootPath (splitUri ep'.request)).path t st)
    (hexec : w.cgi.NotExecuted) :
    SameAnswer content (buildHttpResponse w ep) (buildHttpResponse w ep') ↔
      Coincides content w t st := by
  obtain ⟨hcode', hline', hheads', hbody'⟩ :=
    buildHttpResponse_static content hnew' hcgi hm' (huri' ▸ hp) htarget
  have hroot := rootPath_get hm hm' hp huri huri'
  obtain ⟨hgood, hbad⟩ := buildHttpResponse_query content hnew hm (by simp [huri])
    (hroot ▸ htarget)
  constructor
  · intro h
    have hsucceeds : w.cgi.succeeds = true := by
      by_contra hfails
      exact hbad (by simpa using hfails) (h.code.trans hcode')
    obtain ⟨-, -, hheads, hbody⟩ := hgood hsucceeds
    obtain ⟨hinput, houtput, hforked, hwait⟩ := (CgiRun.succeeds_notExecuted hexec).mp hsucceeds
    have hlength := h.heads
    rw [hheads, hheads'] at hlength
    refine ⟨hinput, houtput, hforked, hwait, ?_, ?_⟩
    · simp only [okHead, List.cons.injEq, true_and, and_true, List.append_cancel_left_eq,
        List.append_cancel_right_eq] at hlength
      exact (Lib.Numerals.decimalInt_eq_natCast hlength.symm).symm
    · rw [← hbody, h.body, hbody']
  · intro h
    have hsucceeds := (CgiRun.succeeds_notExecuted hexec).mpr
      ⟨h.input, h.output, h.forked, h.waitFailed⟩
    obtain ⟨hcode, hline, hheads, hbody⟩ := hgood hsucceeds
    refine ⟨hcode.trans hcode'.symm, hline.trans hline'.symm, ?_, ?_⟩
    · rw [hheads, hheads', h.length]
    · rw [hbody, hbody', h.received]

/-- The site as `GET /` finds it, with its page not executable. -/
def indexSite : World :=
  { oneFile (str "./wwwroot/index.html") ⟨0x81A4, 5, by decide⟩ with
    cgi := ⟨some (3, 4), some (5, 6), true, [], some 1, true⟩ }

theorem indexSite_static :
    StaticTarget indexSite (rootPath (splitUri (getRequest (str "/")).request)).path
      (str "./wwwroot/index.html") ⟨0x81A4, 5, by decide⟩ :=
  ⟨rfl, rfl, rfl, rfl, rfl⟩

theorem query_sameAnswer_iff_search :
    SameAnswer (fun _ => str "hello") (buildHttpResponse indexSite
        (getRequest (str "/?searchKeyword=x"))) (buildHttpResponse indexSite (getRequest (str "/"))) ↔
      Coincides (fun _ => str "hello") indexSite (str "./wwwroot/index.html")
        ⟨0x81A4, 5, by decide⟩ :=
  @query_sameAnswer_iff _ _ _ _ (str "/") (str "searchKeyword=x") _ _ rfl rfl rfl rfl rfl
    (by decide) rfl rfl indexSite_static (Or.inl rfl)

/-- The form on the site's own page asks for `/?searchKeyword=x`. -/
theorem query_breaksPage :
    ¬ SameAnswer (fun _ => str "hello") (buildHttpResponse indexSite
      (getRequest (str "/?searchKeyword=x"))) (buildHttpResponse indexSite (getRequest (str "/"))) := by
  intro h
  exact absurd h.code (by decide)

end MinHttp

import MinHttp.Delivery
import MinHttp.QueryString

/-! What a client reads back from the connection: the answer that the request
line and the file system call for. -/
namespace MinHttp

open Lib.Lines
open Lib.Numerals (signed unsigned decimal denoted)

/-! ## Reading a response -/

/-- A response as its client reads it. `rest` comes after the body. -/
structure Answer where
  statusLine : Bytes
  heads : List Bytes
  body : Bytes
  rest : Bytes
  deriving DecidableEq, Repr

def headLines (heads : List Bytes) : List (Line Byte) := heads.map fun text => ⟨text, .crlf⟩

def Answer.render (a : Answer) : Bytes :=
  Lib.Lines.render CR LF (⟨a.statusLine, .crlf⟩ :: (headLines a.heads ++ [.blank .crlf]))
    (a.body ++ a.rest)

/-- The number behind `Content-Length: `. -/
def announcedLength (heads : List Bytes) : Option Nat :=
  (heads.find? contentLengthIs.isPrefixOf).map fun head =>
    (denoted (head.drop contentLengthIs.length)).toNat

/-- Status line, headers, and as many bytes as they announce; without a length
the body goes on to the end. -/
def readAnswer (s : Bytes) : Option Answer :=
  (next? CR LF s).bind fun (statusLine, s) =>
    (block? CR LF s).bind fun (heads, s) =>
      match announcedLength heads with
      | none => some ⟨statusLine, heads, s, []⟩
      | some n => if n ≤ s.length then some ⟨statusLine, heads, s.take n, s.drop n⟩ else none

structure Answer.Readable (a : Answer) : Prop where
  statusLine : Plain CR LF a.statusLine
  heads : ∀ text ∈ a.heads, Plain CR LF text ∧ text ≠ []
  announced : announcedLength a.heads = some a.body.length ∨
    announcedLength a.heads = none ∧ a.rest = []

theorem headLines_separated {heads : List Bytes} (h : ∀ text ∈ heads, Plain CR LF text ∧ text ≠ [])
    (rest : Bytes) : Separated CR LF (headLines heads ++ [.blank .crlf]) rest := by
  have hcrlf : ∀ l ∈ headLines heads ++ [Line.blank .crlf], l.ending = .crlf := by
    intro l hl
    rcases List.mem_append.mp hl with hl | hl
    · obtain ⟨text, -, rfl⟩ := List.mem_map.mp hl
      rfl
    · rw [List.mem_singleton.mp hl]
      rfl
  rw [separated_iff]
  refine ⟨fun l hl => ?_, ?_⟩
  · rcases List.mem_append.mp hl with hl | hl
    · obtain ⟨text, htext, rfl⟩ := List.mem_map.mp hl
      exact (h text htext).1
    · rw [List.mem_singleton.mp hl]
      exact ⟨List.not_mem_nil, List.not_mem_nil⟩
  · generalize headLines heads ++ [Line.blank .crlf] = ls at hcrlf
    induction ls with
    | nil => trivial
    | cons l ls ih =>
      rw [List.forall_mem_cons] at hcrlf
      exact ⟨fun hcr => by simp [hcrlf.1] at hcr, ih hcrlf.2⟩

/-- A response is read back as it was written. -/
theorem readAnswer_render {a : Answer} (h : a.Readable) : readAnswer a.render = some a := by
  have hline : next? CR LF a.render =
      some (a.statusLine,
        render CR LF (headLines a.heads ++ [.blank .crlf]) (a.body ++ a.rest)) := by
    rw [Answer.render, render_cons]
    exact next?_line CR_ne_LF h.statusLine fun hcr => (by cases hcr)
  have hblock : block? CR LF (render CR LF (headLines a.heads ++ [.blank .crlf])
      (a.body ++ a.rest)) = some (a.heads, a.body ++ a.rest) := by
    rw [block?_render CR_ne_LF (headLines_separated h.heads _)]
    · rw [headLines, List.map_map]
      exact congrArg (fun texts => some (texts, a.body ++ a.rest)) (List.map_id a.heads)
    · intro l hl
      obtain ⟨text, htext, rfl⟩ := List.mem_map.mp hl
      exact (h.heads text htext).2
  rw [readAnswer, hline, Option.bind_some]
  dsimp only
  rw [hblock, Option.bind_some]
  dsimp only
  rcases h.announced with hlen | ⟨hlen, hrest⟩
  · simp only [hlen]
    rw [if_pos (by simp), List.take_left, List.drop_left]
  · simp only [hlen, hrest, List.append_nil]
    cases a
    cases hrest
    rfl

/-! ## The answer to a request -/

def statusText (code : Int) : Bytes :=
  httpVersion ++ str " " ++ toString code ++ str " " ++ code2Desc code

def headTexts (type : Bytes) (length : Nat) : List Bytes :=
  [contentType ++ type, contentLengthIs ++ decimal length]

def okAnswer (path body rest : Bytes) : Answer :=
  ⟨statusText OK, headTexts (typeOf (lastComponent path)) body.length, body, rest⟩

/-- The error page under a code; the status line alone where it does not open. -/
def pageAnswer (content : Bytes → Bytes) (w : World) (code : Int) : Answer :=
  match w.page with
  | some _ =>
    let page := content (cstr errorPage)
    ⟨statusText code, headTexts (str "text/html") page.length, page, []⟩
  | none => ⟨statusText code, [], [], []⟩

/-- The code that the end of an exchange is answered with. -/
def CgiRun.code (c : CgiRun) : Int :=
  if c.input.isSome && c.output.isSome then
    if c.forked then waitCode OK c.wait else notFound
  else serverError

/-- The answer that the method, the URI and the file system call for, with what
the loop over a program's output sends again after it. What a program writes
is what `w.cgi` says of the one run made for the request. -/
def answerOf (o : Sender) (content : Bytes → Bytes) (w : World) (r : HttpRequest) : Answer :=
  if r.method = methodGet ∨ r.method = methodPost then
    match w.resource (rootPath (splitUri r)).path with
    | none => pageAnswer content w notFound
    | some (path, st) =>
      if asksProgram r || executable st.stMode then
        if w.cgi.succeeds then
          okAnswer path w.cgi.received (sendBodyLoop o 5 w.cgi.received 1)
        else pageAnswer content w w.cgi.code
      else match w.openRdonly (cstr path) w.openTarget with
        | some _ => okAnswer path (content (cstr path)) []
        | none => pageAnswer content w notFound
  else pageAnswer content w badRequset

theorem statusText_plain (code : Int) : Plain CR LF (statusText code) := by
  obtain ⟨text, htext, hplain⟩ := statusLineOf_single code
  obtain rfl : statusText code = text := List.append_cancel_right htext
  exact hplain

theorem headTexts_plain {type : Bytes} (h : CR ∉ type ∧ LF ∉ type) (length : Nat) :
    ∀ text ∈ headTexts type length, Plain CR LF text ∧ text ≠ [] := by
  have hlength := decimal_plain length
  have hnames : Plain CR LF contentType ∧ Plain CR LF contentLengthIs := by decide
  intro text htext
  rcases List.mem_pair.mp htext with rfl | rfl
  · exact ⟨⟨by simp [hnames.1.1, h.1], by simp [hnames.1.2, h.2]⟩, List.cons_ne_nil _ _⟩
  · exact ⟨⟨by simp [hnames.2.1, hlength.1], by simp [hnames.2.2, hlength.2]⟩,
      List.cons_ne_nil _ _⟩

theorem typeOf_plain (component : Bytes) : CR ∉ typeOf component ∧ LF ∉ typeOf component := by
  unfold typeOf
  cases extension component with
  | none => decide
  | some ext => exact suffix2Desc_plain ext

theorem announcedLength_headTexts (type : Bytes) (length : Nat) :
    announcedLength (headTexts type length) = some length := by
  have hfind : (headTexts type length).find? contentLengthIs.isPrefixOf =
      some (contentLengthIs ++ decimal length) := by
    rw [headTexts, List.find?_cons_of_neg, List.find?_cons_of_pos]
    · simp
    · have hother : contentLengthIs.isPrefixOf (contentType ++ type) = false := rfl
      simp [hother]
  rw [announcedLength, hfind, Option.map_some, List.drop_left, Lib.Numerals.denoted_decimal]
  rfl

theorem okAnswer_readable (path body rest : Bytes) : (okAnswer path body rest).Readable :=
  ⟨statusText_plain OK, headTexts_plain (typeOf_plain _) _,
    Or.inl (announcedLength_headTexts _ _)⟩

theorem pageAnswer_readable (content : Bytes → Bytes) (w : World) (code : Int) :
    (pageAnswer content w code).Readable := by
  unfold pageAnswer
  cases w.page with
  | none => exact ⟨statusText_plain code, fun _ h => (by cases h), Or.inr ⟨rfl, rfl⟩⟩
  | some fd =>
    exact ⟨statusText_plain code, headTexts_plain (by decide) _,
      Or.inl (announcedLength_headTexts _ _)⟩

theorem answerOf_readable (o : Sender) (content : Bytes → Bytes) (w : World) (r : HttpRequest) :
    (answerOf o content w r).Readable := by
  unfold answerOf
  split
  · split
    · exact pageAnswer_readable _ _ _
    · split
      · split
        · exact okAnswer_readable _ _ _
        · exact pageAnswer_readable _ _ _
      · split
        · exact okAnswer_readable _ _ _
        · exact pageAnswer_readable _ _ _
  · exact pageAnswer_readable _ _ _

/-- The first calls, up to the first for the body, take all that they are given. -/
def Sender.TakesHead (o : Sender) : Prop := ∀ i ≤ 4, ∀ n, o.result i n = n

/-- The files are as long as their `stat` says. A directory has a size too, and
nothing to read. -/
def World.Sized (w : World) (content : Bytes → Bytes) : Prop :=
  ∀ path st, w.stat path = some st → sIsDir st.stMode = false →
    (content path).length = st.stSize

def PageIsFile (w : World) : Prop :=
  ∀ st, w.stat (cstr errorPage) = some st → sIsDir st.stMode = false

/-- What is opened to be sent is no directory. -/
def OpensFile (w : World) (r : HttpRequest) : Outcome → Prop
  | .file _ => ∀ path st, w.resource (rootPath (splitUri r)).path = some (path, st) →
      sIsDir st.stMode = false
  | .program => True
  | .errorPage => PageIsFile w

/-- The error page, where it opens, is a file and fits. -/
structure PageServed (w : World) : Prop where
  fits : PageFits w
  opens : PageIsFile w

/-- The response built will be sent as this answer. -/
structure Builds (o : Sender) (content : Bytes → Bytes) (built : EndPoint × List Sys)
    (a : Answer) : Prop where
  statusLine : built.1.response.statusLine = a.statusLine ++ lineEnd
  heads : built.1.response.respHead = a.heads.map (· ++ lineEnd)
  few : a.heads.length ≤ 2
  blank : built.1.response.blank = lineEnd
  body : bodyToSend content built = a.body
  rest : a.rest =
    if built.1.request.cgi then sendBodyLoop o (a.heads.length + 3) a.body 1 else []

theorem allTaken_of_le {o : Sender} (ho : o.TakesHead) {i : Nat} {ns : List Nat}
    (hi : i + ns.length ≤ 5) : AllTaken o i ns := by
  induction ns generalizing i with
  | nil => trivial
  | cons n ns ih =>
    rw [List.length_cons] at hi
    refine ⟨?_, ih (by omega)⟩
    rw [ho i (by omega) n, Int.toNat_natCast]

theorem sendBodyLoop_first {o : Sender} {i : Nat} {body : Bytes}
    (hi : o.result i body.length = body.length) :
    sendBodyLoop o i body 0 = body ++ sendBodyLoop o (i + 1) body 1 := by
  cases body with
  | nil =>
    rw [sendBodyLoop_end o i [] 0 (Nat.le_refl _),
      sendBodyLoop_end o (i + 1) [] 1 (Nat.zero_le _), List.append_nil]
  | cons b body =>
    have hfirst : o.result i ((b :: body).length - 0) = (b :: body).length := hi
    have hpos : 0 < o.result i ((b :: body).length - 0) := by
      rw [hfirst]
      exact Int.natCast_pos.mpr (Nat.succ_pos _)
    rw [sendBodyLoop_step o i _ 0 (List.length_pos_of_mem List.mem_cons_self) hpos, hfirst,
      Int.toNat_natCast, List.drop_zero, List.take_length]

theorem sendfile_whole {o : Sender} {i : Nat} (ho : ∀ n, o.result i n = n) (file : Bytes)
    (size : Int) : sendfile o i (some file) size = fileBody file size := by
  simp only [sendfile, fileBody, ho, Int.toNat_natCast, ← List.take_eq_take_min]

theorem Builds.sent {o : Sender} {content : Bytes → Bytes} {built : EndPoint × List Sys}
    {a : Answer} (h : Builds o content built a) (ho : o.TakesHead) :
    (sendHttpResquese o (openFiles content built.2) built.1).1 = a.render := by
  have hpieces : (built.1.reply (openFiles content built.2)).pieces =
      (a.statusLine ++ lineEnd) :: (a.heads.map (· ++ lineEnd) ++ [lineEnd]) := by
    rw [Reply.pieces, EndPoint.reply, h.statusLine, h.heads, h.blank]
  have hcount : (built.1.reply (openFiles content built.2)).pieces.length =
      a.heads.length + 2 := by
    rw [hpieces]
    simp
  have hfew := h.few
  have hflat : (built.1.reply (openFiles content built.2)).pieces.flatten ++ (a.body ++ a.rest) =
      a.render := by
    rw [hpieces, Answer.render, Lib.Lines.render]
    simp [headLines, Line.symbols, Line.blank, Ending.symbols, lineEnd, Function.comp_def]
  have hafter : (if built.1.request.cgi then
        sendBodyLoop o (a.heads.length + 2) built.1.response.respBody 0
      else sendfile o (a.heads.length + 2) (openFiles content built.2 built.1.response.fd)
        built.1.request.size) = a.body ++ a.rest := by
    have hbody := h.body
    have hrest := h.rest
    have hcall := ho (a.heads.length + 2) (by omega)
    unfold bodyToSend at hbody
    cases hcgi : built.1.request.cgi with
    | true =>
      rw [hcgi, if_pos rfl] at hbody hrest
      rw [if_pos rfl, hbody, sendBodyLoop_first (hcall _), hrest]
    | false =>
      rw [hcgi, if_neg Bool.false_ne_true] at hbody hrest
      rw [if_neg Bool.false_ne_true, hrest, List.append_nil, ← hbody]
      cases openFiles content built.2 built.1.response.fd with
      | none => rfl
      | some file => exact sendfile_whole hcall file _
  have htaken : AllTaken o 0
      ((built.1.reply (openFiles content built.2)).pieces.map List.length) :=
    allTaken_of_le ho (by rw [List.length_map, hcount]; omega)
  rw [sendHttpResquese, Reply.send_eq, sendHead_of_taken o 0 _ htaken, hcount, ← hflat, ← hafter]
  rfl

variable (o : Sender) {content : Bytes → Bytes} {w : World}

theorem fileBody_whole {file : Bytes} {size : Int} (hsize : size = signed 32 file.length)
    (hlt : file.length < 2 ^ 31) : fileBody file size = file := by
  have hcount : unsigned 64 size = file.length := by
    rw [hsize]
    exact (count_eq_iff (by omega)).mpr hlt
  rw [fileBody, hcount, if_pos (by omega), List.take_length]

theorem headTexts_lines (type : Bytes) (length : Nat) :
    (headTexts type length).map (· ++ lineEnd) =
      [contentType ++ type ++ lineEnd, contentLengthIs ++ toString length ++ lineEnd] := by
  rw [toString_natCast]
  rfl

/-- Nothing has been put into the response but what comes with it. -/
structure HttpResponse.Unwritten (r : HttpResponse) : Prop where
  statusLine : r.statusLine = []
  respHead : r.respHead = []
  blank : r.blank = lineEnd

/-- An error code, and the page that goes with it. -/
theorem error_builds (hfits : PageFits w) (hsized : w.Sized content)
    (hopens : PageIsFile w) {ep : EndPoint}
    (hnew : ep.response.Unwritten)
    (hcode : ep.response.statusCode ∈ [notFound, serverError, badRequset]) (log : List Sys) :
    let ended := buildHttpResponseHelper w ep
    Builds o content (ended.1, log ++ ended.2)
      (pageAnswer content w ep.response.statusCode) := by
  rw [buildHttpResponseHelper_error w hnew.statusLine hcode]
  unfold handlerError pageAnswer World.page
  cases hopen : w.openRdonly (cstr errorPage) w.openPage with
  | none =>
    refine ⟨rfl, hnew.respHead, Nat.zero_le _, hnew.blank, ?_, rfl⟩
    simp [bodyToSend, openFiles, fdInt, fileOn_failed]
  | some fd =>
    obtain ⟨hfd, hsmall⟩ := hfits fd hopen
    obtain ⟨st, hst⟩ := openRdonly_stat hopen
    have hlength := hsized _ _ hst (hopens st hst)
    have hlt := hsmall st hst
    have hpos : (fd : Int) > 0 := by omega
    have hfile := fileOn_opened log [.stat (cstr errorPage)] (cstr errorPage) fd rfl
    simp only [fdInt, hpos, if_true, hst, Option.getD_some]
    refine ⟨rfl, ?_, Nat.le_refl _, hnew.blank, ?_, rfl⟩
    · rw [headTexts_lines, hlength]
      exact congrArg (· ++ _) hnew.respHead
    · simp only [bodyToSend, openFiles, hfile, Option.map_some, Bool.false_eq_true, if_false]
      exact fileBody_whole (by rw [hlength]) (by rw [hlength]; exact hlt)

/-- OK, and the headers that go with a body. -/
theorem ok_builds {ep : EndPoint} (hnew : ep.response.Unwritten)
    (hcode : ep.response.statusCode = OK) {log : List Sys} {path body rest : Bytes}
    (htype : suffix2Desc ep.request.suffix = typeOf (lastComponent path))
    (hlength : (if ep.request.cgi then (ep.response.respBody.length : Int) else ep.request.size) =
      body.length)
    (hbody : bodyToSend content (ep, log) = body)
    (hrest : rest = if ep.request.cgi then sendBodyLoop o 5 body 1 else []) :
    let ended := buildHttpResponseHelper w ep
    Builds o content (ended.1, log ++ ended.2) (okAnswer path body rest) := by
  rw [buildHttpResponseHelper_ok w hnew.statusLine hcode]
  dsimp only
  rw [List.append_nil]
  refine ⟨?_, ?_, Nat.le_refl _, hnew.blank, hbody, hrest⟩
  · exact congrArg statusLineOf hcode
  · rw [okAnswer, headTexts_lines, ← hlength, ← htype]
    exact congrArg (· ++ _) hnew.respHead

theorem processCIG_code (w : World) (ep : EndPoint) : (processCIG w ep).1 = w.cgi.code := by
  unfold processCIG CgiRun.code
  cases w.cgi.input with
  | none => rfl
  | some i =>
    cases w.cgi.output with
    | none => rfl
    | some o => cases w.cgi.forked <;> rfl

theorem CgiRun.succeeds_child {c : CgiRun} (h : c.succeeds = true) :
    c.input.isSome ∧ c.output.isSome ∧ c.forked := by
  simp only [CgiRun.succeeds, Bool.and_eq_true] at h
  exact ⟨h.1.1.1, h.1.1.2, h.1.2⟩

theorem processCIG_builds (hsized : w.Sized content) {ep : EndPoint} (log : List Sys)
    {path : Bytes} (hnew : ep.response = .new) (hcgi : ep.request.cgi = true)
    (htype : suffix2Desc ep.request.suffix = typeOf (lastComponent path))
    (hfits : (if w.cgi.succeeds then Outcome.program else .errorPage).Fits w) {r : HttpRequest}
    (hopens : OpensFile w r (if w.cgi.succeeds then .program else .errorPage)) :
    let served := processCIG w ep
    let ended := buildHttpResponseHelper w (served.2.1.withCode served.1)
    Builds o content (ended.1, log ++ served.2.2 ++ ended.2)
      (if w.cgi.succeeds then
        okAnswer path w.cgi.received (sendBodyLoop o 5 w.cgi.received 1)
      else pageAnswer content w w.cgi.code) := by
  obtain ⟨⟨body, heq⟩, -, hcode⟩ := processCIG_cases w ep
  cases hs : w.cgi.succeeds with
  | true =>
    obtain ⟨hinput, houtput, hforked⟩ := CgiRun.succeeds_child hs
    have hbody := (processCIG_forked hinput houtput hforked ep).2
    rw [hs, if_pos rfl] at hcode
    dsimp only
    rw [hbody, hnew]
    refine ok_builds o ⟨rfl, rfl, rfl⟩ hcode htype ?_ ?_ ?_
    · exact if_pos hcgi
    · exact if_pos hcgi
    · exact (if_pos hcgi).symm
  | false =>
    rw [hs, if_neg Bool.false_ne_true] at hcode hfits hopens
    rw [if_neg Bool.false_ne_true, ← processCIG_code w ep]
    dsimp only
    rw [heq, hnew]
    exact error_builds o hfits hsized hopens ⟨rfl, rfl, rfl⟩ hcode _

theorem processNonCIG_builds (hsized : w.Sized content) {ep : EndPoint} (log : List Sys)
    {st : Stat} (hnew : ep.response = .new) (hcgi : ep.request.cgi = false)
    (htype : suffix2Desc ep.request.suffix = typeOf (lastComponent ep.request.path))
    (hsize : ep.request.size = signed 32 st.stSize)
    (hfits : (match w.openRdonly (cstr ep.request.path) w.openTarget with
      | some _ => Outcome.file st.stSize
      | none => .errorPage).Fits w) {r : HttpRequest}
    (hres : w.resource (rootPath (splitUri r)).path = some (ep.request.path, st))
    (hopens : OpensFile w r (match w.openRdonly (cstr ep.request.path) w.openTarget with
      | some _ => .file st.stSize
      | none => .errorPage)) :
    let served := processNonCIG w ep
    let ended := buildHttpResponseHelper w (served.2.1.withCode served.1)
    Builds o content (ended.1, log ++ served.2.2 ++ ended.2)
      (match w.openRdonly (cstr ep.request.path) w.openTarget with
        | some _ => okAnswer ep.request.path (content (cstr ep.request.path)) []
        | none => pageAnswer content w notFound) := by
  rw [processNonCIG, hnew]
  cases hopen : w.openRdonly (cstr ep.request.path) w.openTarget with
  | none =>
    rw [hopen] at hfits hopens
    exact error_builds o hfits hsized hopens ⟨rfl, rfl, rfl⟩ (show notFound ∈ _ by decide) _
  | some fd =>
    rw [hopen] at hfits hopens
    obtain ⟨st', hst'⟩ := openRdonly_stat hopen
    obtain rfl := resource_stat hres hst'
    have hlength := hsized _ _ hst' (hopens _ _ hres)
    have hlt : st'.stSize < 2 ^ 31 := hfits
    have hcode : (if fdInt (some fd) ≥ 0 then OK else notFound) = OK :=
      if_pos (Int.natCast_nonneg fd)
    have hno : ¬ ep.request.cgi = true := by simp [hcgi]
    have hfile := fileOn_opened log [] (cstr ep.request.path) fd rfl
    refine ok_builds o ⟨rfl, rfl, rfl⟩ hcode htype ?_ ?_ ?_
    · refine (if_neg hno).trans ?_
      rw [hlength]
      exact hsize.trans (Lib.Numerals.signed32_natCast_of_lt hlt)
    · simp only [bodyToSend, EndPoint.withCode, hcgi, openFiles, fdInt, hfile, Option.map_some,
        Bool.false_eq_true, if_false]
      exact fileBody_whole (by rw [hlength]; exact hsize) (by rw [hlength]; exact hlt)
    · exact (if_neg hno).symm

/-- A request is answered as the abstract answer says. -/
theorem buildHttpResponse_builds (hsized : w.Sized content) {ep : EndPoint}
    (hnew : ep.response = .new) (hcgi : ep.request.cgi = false)
    (hfits : (outcome w ep.request).Fits w)
    (hopens : OpensFile w ep.request (outcome w ep.request)) :
    Builds o content (buildHttpResponse w ep) (answerOf o content w ep.request) := by
  by_cases hm : ep.request.method = methodGet ∨ ep.request.method = methodPost
  · have hlooked := lookUp_resource (w := w) (r := rootPath (splitUri ep.request))
    rw [outcome, if_pos hm] at hfits hopens
    rw [answerOf, if_pos hm]
    cases hl : (lookUp w (rootPath (splitUri ep.request))).1 with
    | none =>
      rw [hl] at hlooked
      rw [hlooked] at hfits hopens
      rw [buildHttpResponse_missing hm hl, hlooked]
      have hunwritten : ({ ep with request := rootPath (splitUri ep.request) }.withCode
          notFound).response.Unwritten := by
        rw [EndPoint.withCode, hnew]
        exact ⟨rfl, rfl, rfl⟩
      exact error_builds o hfits hsized hopens hunwritten (show notFound ∈ _ by decide) _
    | some r =>
      rw [hl] at hlooked
      obtain ⟨st, hres, hrcgi, hsize⟩ := hlooked
      rw [rootPath_cgi, splitUri_cgi hm hcgi] at hrcgi
      rw [hres] at hfits hopens
      rw [buildHttpResponse_found hm hl, hres]
      dsimp only at hfits hopens ⊢
      rw [← hrcgi] at hfits hopens ⊢
      obtain ⟨suffix, hsuffix, htype⟩ := setSuffix_described r
      cases hr : r.cgi with
      | true =>
        rw [hr, if_pos rfl] at hfits hopens
        rw [if_pos rfl, hsuffix, serve_program (by exact hr)]
        exact processCIG_builds o hsized _ hnew hr htype hfits hopens
      | false =>
        rw [hr, if_neg Bool.false_ne_true] at hfits hopens
        rw [if_neg Bool.false_ne_true, hsuffix, serve_file (by exact hr)]
        exact processNonCIG_builds o hsized _ hnew hr htype hsize hfits hres hopens
  · rw [outcome, if_neg hm] at hfits hopens
    rw [answerOf, if_neg hm, buildHttpResponse_reject w hm]
    have hunwritten : (ep.withCode badRequset).response.Unwritten := by
      rw [EndPoint.withCode, hnew]
      exact ⟨rfl, rfl, rfl⟩
    exact error_builds o hfits hsized hopens hunwritten (show badRequset ∈ _ by decide) []

theorem respond_readAnswer (ho : o.TakesHead) (hsized : w.Sized content) {ep : EndPoint}
    (hnew : ep.response = .new) (hcgi : ep.request.cgi = false)
    (hfits : (outcome w ep.request).Fits w)
    (hopens : OpensFile w ep.request (outcome w ep.request)) :
    readAnswer (respond o content w ep) = some (answerOf o content w ep.request) := by
  have hsent : respond o content w ep = (answerOf o content w ep.request).render :=
    (buildHttpResponse_builds o hsized hnew hcgi hfits hopens).sent ho
  rw [hsent]
  exact readAnswer_render (answerOf_readable o content w ep.request)

/-! ## From the stream to the client -/

/-- What a connection is sent, with the files that are open as it is sent. -/
def answered (flowsOff : EndPoint → Bool) (o : Sender) (content : Bytes → Bytes) (w : World)
    (sock : Sock) (size : Int) : Bytes :=
  let built := buildHttpResponse w (recvHttpRequest flowsOff (.new sock size))
  (handlerRequest flowsOff w o (openFiles content built.2) sock size).sent

theorem answered_eq (flowsOff : EndPoint → Bool) (content : Bytes → Bytes) (w : World)
    (sock : Sock) (size : Int) :
    let ep := recvHttpRequest flowsOff (.new sock size)
    answered flowsOff o content w sock size =
      if ep.isStop then [] else respond o content w ep := by
  unfold answered handlerRequest respond
  dsimp only
  split <;> rfl

/-- **A client reads the answer that its request calls for**: the resource that
the URI names, under its type and as long as it is, or the error page under its
code. What is sent again of a program's output comes after the body. A request
given up is not answered. -/
theorem answered_readAnswer (flowsOff : EndPoint → Bool) (ho : o.TakesHead)
    (hsized : w.Sized content) (sock : Sock) (size : Int)
    (hfits : (outcome w (recvHttpRequest flowsOff (.new sock size)).request).Fits w)
    (hopens : OpensFile w (recvHttpRequest flowsOff (.new sock size)).request
      (outcome w (recvHttpRequest flowsOff (.new sock size)).request)) :
    let ep := recvHttpRequest flowsOff (.new sock size)
    readAnswer (answered flowsOff o content w sock size) =
      if ep.isStop then none else some (answerOf o content w ep.request) := by
  obtain ⟨hnew, hcgi, -⟩ := recvHttpRequest_frame flowsOff (.new sock size)
  have hread := respond_readAnswer o ho hsized hnew hcgi hfits hopens
  dsimp only
  rw [answered_eq]
  split
  · rfl
  · exact hread

/-- Everything fits where no file is as long as 2^31 bytes. -/
theorem outcome_fits (hsmall : ∀ path st, w.stat path = some st → st.stSize < 2 ^ 31)
    (hpage : w.openPage ≠ some 0) (r : HttpRequest) : (outcome w r).Fits w := by
  have herror : PageFits w := by
    intro fd hopen
    have hfd : w.openPage = some fd := by
      unfold World.openRdonly at hopen
      split at hopen
      · exact hopen
      · cases hopen
    exact ⟨fun h => hpage (h ▸ hfd), fun st hst => hsmall _ st hst⟩
  unfold outcome
  split
  · split
    · exact herror
    · rename_i path st hres
      split
      · split
        · trivial
        · exact herror
      · cases hopen : w.openRdonly (cstr path) w.openTarget with
        | none => exact herror
        | some fd =>
          obtain ⟨st', hst'⟩ := openRdonly_stat hopen
          obtain rfl := resource_stat hres hst'
          exact hsmall _ _ hst'
  · exact herror

/-- Nothing is sent from a directory where every directory can be searched:
its execute bits make it a program. -/
theorem outcome_opensFile
    (hsearch : ∀ path st, w.stat path = some st → sIsDir st.stMode = true →
      executable st.stMode = true)
    (hpage : PageIsFile w) (r : HttpRequest) : OpensFile w r (outcome w r) := by
  have hresource {path path' : Bytes} {st : Stat} (h : w.resource path = some (path', st)) :
      ∃ p, w.stat p = some st := by
    obtain ⟨st₀, hst₀, heq⟩ := Option.map_eq_some_iff.mp h
    split at heq
    · cases heq
      cases hst : w.stat (cstr (indexPage path)) with
      | none => exact ⟨_, hst₀⟩
      | some st => exact ⟨_, hst⟩
    · cases heq
      exact ⟨_, hst₀⟩
  unfold outcome
  split
  · split
    · exact hpage
    · rename_i path st hres
      split
      · split
        · trivial
        · exact hpage
      · rename_i hasks
        split
        · intro path' st' hres'
          cases hres.symm.trans hres'
          obtain ⟨p, hst⟩ := hresource hres
          by_contra hdir
          exact hasks (by rw [hsearch p st hst (by simpa using hdir), Bool.or_true])
        · exact hpage
  · exact hpage

theorem oneFile_stat {path p : Bytes} {st st' : Stat} (h : (oneFile path st).stat p = some st') :
    st' = st := by
  unfold oneFile at h
  dsimp only at h
  split at h
  · exact (Option.some.inj h).symm
  · cases h

/-- The same world with its root there. -/
def World.withRoot (w : World) : World :=
  { w with stat := fun path =>
      if path = webRoot then some ⟨0x41ED, 20480, by decide⟩ else w.stat path }

section
variable {path : Bytes} {st : Stat} (hw : w.stat = (oneFile path st).withRoot.stat)
include hw

theorem withRoot_stat {p : Bytes} {st' : Stat} (h : w.stat p = some st') :
    st' = st ∨ p = webRoot ∧ st'.stMode = 0x41ED ∧ st'.stSize = 20480 := by
  rw [hw, World.withRoot] at h
  dsimp only at h
  split at h
  · rename_i hp
    cases h
    exact Or.inr ⟨hp, rfl, rfl⟩
  · exact Or.inl (oneFile_stat h)

theorem withRoot_sized (hlength : ∀ p, (content p).length = st.stSize) : w.Sized content := by
  intro p st' hst hdir
  rcases withRoot_stat hw hst with rfl | ⟨-, hmode, -⟩
  · exact hlength p
  · rw [hmode] at hdir
    cases hdir

theorem withRoot_fits (hsmall : st.stSize < 2 ^ 31) (hpage : w.openPage ≠ some 0)
    (r : HttpRequest) : (outcome w r).Fits w := by
  refine outcome_fits (fun p st' hst => ?_) hpage r
  rcases withRoot_stat hw hst with rfl | ⟨-, -, hsize⟩
  · exact hsmall
  · rw [hsize]
    decide

theorem withRoot_opensFile (hfile : sIsDir st.stMode = false) (r : HttpRequest) :
    OpensFile w r (outcome w r) := by
  refine outcome_opensFile (fun p st' hst hdir => ?_) (fun st' hst => ?_) r
  · rcases withRoot_stat hw hst with rfl | ⟨-, hmode, -⟩
    · exact absurd (hfile.symm.trans hdir) Bool.false_ne_true
    · rw [hmode]
      decide
  · rcases withRoot_stat hw hst with rfl | ⟨hp, -, -⟩
    · exact hfile
    · exact absurd hp (by decide)

end

theorem answered_readAnswer_query :
    let sock := Sock.new (str "GET /?searchKeyword=x HTTP/1.0\n\n") fun _ => false
    let content := fun _ : Bytes => str "hello"
    let w := indexSite.withRoot
    let ep := recvHttpRequest (fun _ => false) (.new sock 0)
    readAnswer (answered (fun _ => false) .all content w sock 0) =
      if ep.isStop then none else some (answerOf .all content w ep.request) := by
  intro sock content w
  have hw : w.stat =
      (oneFile (str "./wwwroot/index.html") ⟨0x81A4, 5, by decide⟩).withRoot.stat := rfl
  apply answered_readAnswer
  · exact fun _ _ _ => rfl
  · exact withRoot_sized hw fun _ => rfl
  · exact withRoot_fits hw (by decide) (by decide) _
  · exact withRoot_opensFile hw rfl _

/-! ## From the message -/

/-- What `ProcessCIG` has of a request. -/
structure Given where
  bin : Bytes
  method : Bytes
  queryString : Bytes
  bodyText : Bytes
  contentLength : Int

def HttpRequest.given (r : HttpRequest) : Given :=
  ⟨cstr r.path, r.method, r.queryString, r.reqBody, r.contentLength⟩

/-- The same world, where the run made for a request is the one that goes with
what it is given. -/
def World.running (w : World) (runs : Given → CgiRun) (r : HttpRequest) : World :=
  match cgiRequest w r with
  | some r' => { w with cgi := runs r'.given }
  | none => w

theorem splitUri_path_congr {r r' : HttpRequest} (hmethod : r.method = r'.method)
    (huri : r.uri = r'.uri) (hm : r.method = methodGet ∨ r.method = methodPost) :
    (rootPath (splitUri r)).path = (rootPath (splitUri r')).path := by
  apply rootPath_congr
  rw [splitUri_path hm, splitUri_path (hmethod ▸ hm), target, target, hmethod, huri]

theorem cgiRequest_resource {r₀ r : HttpRequest} (hcgi : cgiRequest w r₀ = some r)
    (hfresh : r₀.cgi = false) :
    (r₀.method = methodGet ∨ r₀.method = methodPost) ∧
      ∃ st, w.resource (rootPath (splitUri r₀)).path = some (r.path, st) ∧
        (asksProgram r₀ || executable st.stMode) = true := by
  obtain ⟨hm, found, hl, rfl, hprogram⟩ := cgiRequest_eq_some hcgi
  have hlooked := lookUp_resource (w := w) (r := rootPath (splitUri r₀))
  rw [hl] at hlooked
  obtain ⟨st, hres, hasks, -⟩ := hlooked
  rw [rootPath_cgi, splitUri_cgi hm hfresh] at hasks
  rw [setSuffix_frame] at hprogram ⊢
  exact ⟨hm, st, hres, hasks ▸ hprogram⟩

theorem cgiRequest_of_resource {r₀ : HttpRequest} (hfresh : r₀.cgi = false)
    (hm : r₀.method = methodGet ∨ r₀.method = methodPost) {path : Bytes} {st : Stat}
    (hres : w.resource (rootPath (splitUri r₀)).path = some (path, st))
    (hprogram : (asksProgram r₀ || executable st.stMode) = true) :
    ∃ r, cgiRequest w r₀ = some r ∧ r.path = path := by
  have hlooked := lookUp_resource (w := w) (r := rootPath (splitUri r₀))
  cases hl : (lookUp w (rootPath (splitUri r₀))).1 with
  | none =>
    rw [hl] at hlooked
    cases hres.symm.trans hlooked
  | some found =>
    rw [hl] at hlooked
    obtain ⟨st', hres', hasks, -⟩ := hlooked
    cases hres.symm.trans hres'
    rw [rootPath_cgi, splitUri_cgi hm hfresh, hprogram] at hasks
    refine ⟨setSuffix found, ?_, by rw [setSuffix_frame]⟩
    rw [cgiRequest, if_pos hm, hl, Option.map_some, Option.filter_some, setSuffix_frame]
    exact if_pos hasks

/-- Two requests that agree in these fields. -/
structure HttpRequest.Alike (r r' : HttpRequest) : Prop where
  method : r.method = r'.method
  uri : r.uri = r'.uri
  reqBody : r.reqBody = r'.reqBody
  contentLength : r.contentLength = r'.contentLength
  queryString : r.queryString = r'.queryString
  cgi : r.cgi = false ∧ r'.cgi = false

theorem HttpRequest.Alike.symm {r r' : HttpRequest} (h : r.Alike r') : r'.Alike r :=
  ⟨h.method.symm, h.uri.symm, h.reqBody.symm, h.contentLength.symm, h.queryString.symm,
    h.cgi.symm⟩

theorem splitUri_queryString {r r' : HttpRequest} (h : r.Alike r')
    (hm : r.method = methodGet ∨ r.method = methodPost) :
    (splitUri r).queryString = (splitUri r').queryString := by
  rcases hm with hm | hm
  · rw [splitUri_get hm, splitUri_get (h.method ▸ hm), h.uri]
    split
    · rfl
    · exact h.queryString
  · rw [splitUri_post hm, splitUri_post (h.method ▸ hm)]
    exact h.queryString

/-- Requests that agree are given alike to the same program. -/
theorem HttpRequest.Alike.given {r r' a : HttpRequest} (h : r.Alike r')
    (ha : cgiRequest w r = some a) : ∃ b, cgiRequest w r' = some b ∧ a.given = b.given := by
  obtain ⟨hm, st, hres, hprogram⟩ := cgiRequest_resource ha h.cgi.1
  have hpath := splitUri_path_congr h.method h.uri hm
  rw [asksProgram, h.method, h.uri] at hprogram
  obtain ⟨b, hb, hsame⟩ :=
    cgiRequest_of_resource h.cgi.2 (h.method ▸ hm) (hpath ▸ hres) hprogram
  obtain ⟨hmethod, -, hbody, hlength, hquery⟩ := cgiRequest_frame ha
  obtain ⟨hmethod', -, hbody', hlength', hquery'⟩ := cgiRequest_frame hb
  refine ⟨b, hb, ?_⟩
  rw [HttpRequest.given, HttpRequest.given, hsame, hmethod, hmethod', hbody, hbody', hlength,
    hlength', hquery, hquery', h.method, h.reqBody, h.contentLength, splitUri_queryString h hm]

theorem HttpRequest.Alike.running {r r' : HttpRequest} (h : r.Alike r') (runs : Given → CgiRun) :
    w.running runs r = w.running runs r' := by
  unfold World.running
  cases ha : cgiRequest w r with
  | none =>
    cases hb : cgiRequest w r' with
    | none => rfl
    | some b =>
      obtain ⟨a, ha', -⟩ := h.symm.given hb
      cases ha.symm.trans ha'
  | some a =>
    obtain ⟨b, hb, hgiven⟩ := h.given ha
    rw [hb]
    dsimp only
    rw [hgiven]

end MinHttp

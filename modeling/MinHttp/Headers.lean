import MinHttp.Resource
import MinHttp.RoundTrip

/-! Whether the head of a response says what its body is. -/
namespace MinHttp

open Lib.Numerals (signed unsigned decimal)

/-- One line, ended by CRLF, with no other CR or LF. -/
def SingleLine (s : Bytes) : Prop := ∃ text, s = text ++ lineEnd ∧ CR ∉ text ∧ LF ∉ text

/-- The path last opened on a descriptor. -/
def fileOn (log : List Sys) (fd : Int) : Option Bytes :=
  log.reverse.findSome? fun
    | .openRdonly path (some n) => if (n : Int) = fd then some path else none
    | _ => none

/-- The length of the body that `SendHttpResquese` will send, if it will send
one. -/
def bodyLength (w : World) (log : List Sys) (ep : EndPoint) : Option Nat :=
  if ep.request.cgi then some ep.response.respBody.length
  else (fileOn log ep.response.fd).bind fun path => (w.stat path).map Stat.stSize

structure HeadAgrees (w : World) (log : List Sys) (ep : EndPoint) : Prop where
  statusLine : SingleLine ep.response.statusLine
  heads : ∀ h ∈ ep.response.respHead, SingleLine h
  announced : ∀ n, bodyLength w log ep = some n →
    (ep.response.respHead.filter contentType.isPrefixOf).length = 1 ∧
      ep.response.respHead.filter contentLengthIs.isPrefixOf =
        [contentLengthIs ++ decimal n ++ lineEnd] ∧
      (ep.request.cgi = false → unsigned 64 ep.request.size = n)

/-! ## What decides it -/

/-- The file a path stands for: a directory stands for the page in it, and
where that page is missing the directory's own `stat` is kept. -/
def World.resource (w : World) (path : Bytes) : Option (Bytes × Stat) :=
  (w.stat (cstr path)).map fun st =>
    if sIsDir st.stMode then (indexPage path, (w.stat (cstr (indexPage path))).getD st)
    else (path, st)

def asksProgram (r : HttpRequest) : Bool := r.method = methodPost || r.uri.contains 63

/-- The exchange came to an end that `ProcessCIG` answers with OK. -/
def CgiRun.succeeds (c : CgiRun) : Bool :=
  c.input.isSome && c.output.isSome && c.forked &&
    match c.wait with
    | .failed => true
    | .exited status => status = 0
    | .signaled => false

inductive Outcome
  | file (size : Nat)
  | program
  | errorPage
  deriving DecidableEq, Repr

def outcome (w : World) (r : HttpRequest) : Outcome :=
  if r.method = methodGet ∨ r.method = methodPost then
    match w.resource (rootPath (splitUri r)).path with
    | none => .errorPage
    | some (path, st) =>
      if asksProgram r || executable st.stMode then
        if w.cgi.succeeds then .program else .errorPage
      else match w.openRdonly (cstr path) w.openTarget with
        | some _ => .file st.stSize
        | none => .errorPage
  else .errorPage

/-- The error page, where it opens, is on a descriptor other than 0 and its
size is an `int`. -/
def PageFits (w : World) : Prop :=
  ∀ fd, w.openRdonly (cstr errorPage) w.openPage = some fd →
    fd ≠ 0 ∧ ∀ st, w.stat (cstr errorPage) = some st → st.stSize < 2 ^ 31

def Outcome.Fits (w : World) : Outcome → Prop
  | .file size => size < 2 ^ 31
  | .program => True
  | .errorPage => PageFits w

theorem singleLine_append {a b : Bytes} (ha : CR ∉ a ∧ LF ∉ a) (hb : CR ∉ b ∧ LF ∉ b) :
    SingleLine (a ++ b ++ lineEnd) :=
  ⟨a ++ b, rfl, by simp [ha.1, hb.1], by simp [ha.2, hb.2]⟩

theorem decimal_plain (n : Nat) : CR ∉ decimal n ∧ LF ∉ decimal n := by
  constructor <;> intro h <;>
    have := Lib.Numerals.not_isSpace_of_isDigit (Lib.Numerals.isDigit_of_mem_decimal h)
  · exact this.2.2.2.2.2 rfl
  · exact this.2.2.2.2.1 rfl

theorem toString_plain (x : Int) : CR ∉ toString x ∧ LF ∉ toString x := by
  have hd := decimal_plain x.natAbs
  unfold toString Lib.Numerals.decimalInt
  split
  · simp only [List.mem_cons, not_or]
    exact ⟨⟨by decide, hd.1⟩, by decide, hd.2⟩
  · exact hd

theorem suffix2Desc_plain (suffix : Bytes) :
    CR ∉ suffix2Desc suffix ∧ LF ∉ suffix2Desc suffix := by
  have htable : ∀ row ∈ suffix2descTable, CR ∉ row.2 ∧ LF ∉ row.2 := by decide
  unfold suffix2Desc
  cases h : suffix2descTable.lookup suffix with
  | none => decide
  | some desc =>
    obtain ⟨l, r, hl, -⟩ := List.lookup_eq_some_iff.mp h
    exact htable (suffix, desc) (by simp [hl])

theorem code2Desc_plain (code : Int) : CR ∉ code2Desc code ∧ LF ∉ code2Desc code := by
  unfold code2Desc
  split
  · decide
  · split <;> decide

/-- What `BuildHttpResponseHelper` writes as the status line. -/
def statusLineOf (code : Int) : Bytes :=
  httpVersion ++ str " " ++ toString code ++ str " " ++ code2Desc code ++ lineEnd

theorem statusLineOf_single (code : Int) : SingleLine (statusLineOf code) := by
  obtain ⟨hcr, hlf⟩ := toString_plain code
  refine singleLine_append ⟨?_, ?_⟩ (code2Desc_plain code)
  · simp only [List.mem_append, not_or]
    exact ⟨⟨by decide, hcr⟩, by decide⟩
  · simp only [List.mem_append, not_or]
    exact ⟨⟨by decide, hlf⟩, by decide⟩

theorem headAgrees_two {w : World} {log : List Sys} {ep : EndPoint} {desc length : Bytes}
    (hs : SingleLine ep.response.statusLine) (hd : CR ∉ desc ∧ LF ∉ desc)
    (hlen : CR ∉ length ∧ LF ∉ length)
    (hheads : ep.response.respHead =
      [contentType ++ desc ++ lineEnd, contentLengthIs ++ length ++ lineEnd]) :
    HeadAgrees w log ep ↔ ∀ n, bodyLength w log ep = some n →
      length = decimal n ∧ (ep.request.cgi = false → unsigned 64 ep.request.size = n) := by
  have htype : ep.response.respHead.filter contentType.isPrefixOf =
      [contentType ++ desc ++ lineEnd] := by
    have h1 : contentType.isPrefixOf (contentType ++ desc ++ lineEnd) = true := by simp
    have h2 : contentType.isPrefixOf (contentLengthIs ++ length ++ lineEnd) = false := rfl
    rw [hheads, List.filter_cons_of_pos h1, List.filter_cons_of_neg (by rw [h2]; decide),
      List.filter_nil]
  have hlength : ep.response.respHead.filter contentLengthIs.isPrefixOf =
      [contentLengthIs ++ length ++ lineEnd] := by
    have h1 : contentLengthIs.isPrefixOf (contentType ++ desc ++ lineEnd) = false := rfl
    have h2 : contentLengthIs.isPrefixOf (contentLengthIs ++ length ++ lineEnd) = true := by simp
    rw [hheads, List.filter_cons_of_neg (by rw [h1]; decide), List.filter_cons_of_pos h2,
      List.filter_nil]
  constructor
  · intro h n hn
    obtain ⟨-, hl, hsize⟩ := h.announced n hn
    rw [hlength] at hl
    exact ⟨by simpa using hl, hsize⟩
  · intro h
    refine ⟨hs, ?_, fun n hn => ?_⟩
    · rw [hheads]
      intro line hline
      rcases List.mem_pair.mp hline with rfl | rfl
      · exact singleLine_append (by decide) hd
      · exact singleLine_append (by decide) hlen
    · obtain ⟨rfl, hsize⟩ := h n hn
      exact ⟨by rw [htype, List.length_singleton], hlength, hsize⟩

theorem headAgrees_none {w : World} {log : List Sys} {ep : EndPoint}
    (hs : SingleLine ep.response.statusLine) (hheads : ep.response.respHead = []) :
    HeadAgrees w log ep ↔ bodyLength w log ep = none := by
  constructor
  · intro h
    by_contra hn
    obtain ⟨n, hn⟩ := Option.ne_none_iff_exists'.mp hn
    have := (h.announced n hn).1
    simp [hheads] at this
  · intro h
    exact ⟨hs, by simp [hheads], by simp [h]⟩

/-- An `int` that becomes the same count again was never cut off. -/
theorem count_eq_iff {n : Nat} (hn : n < 2 ^ 63) :
    unsigned 64 (signed 32 (n : Int)) = n ↔ n < 2 ^ 31 := by
  constructor
  · intro h
    obtain ⟨hlo, hhi⟩ := Lib.Numerals.signed32_bounds (n : Int)
    unfold unsigned at h
    omega
  · intro h
    rw [Lib.Numerals.signed32_natCast_of_lt h]
    unfold unsigned
    omega

theorem fileOn_append (a b : List Sys) (fd : Int) :
    fileOn (a ++ b) fd = (fileOn b fd).or (fileOn a fd) := by
  rw [fileOn, List.reverse_append, List.findSome?_append]
  rfl

theorem lookUp_fileOn (w : World) (r : HttpRequest) (fd : Int) :
    fileOn (lookUp w r).2 fd = none := by
  unfold lookUp
  cases w.stat (cstr r.path) with
  | none => rfl
  | some st => by_cases hd : sIsDir st.stMode = true <;> simp [hd, fileOn]

theorem openRdonly_stat {w : World} {path : Bytes} {answer : Option Nat} {fd : Nat}
    (h : w.openRdonly path answer = some fd) : ∃ st, w.stat path = some st := by
  unfold World.openRdonly at h
  split at h
  case isTrue hs => exact Option.isSome_iff_exists.mp hs
  case isFalse => cases h

/-- What is known of `ProcessCIG` without its exchange with the program. -/
theorem processCIG_cases (w : World) (ep : EndPoint) :
    (∃ body, (processCIG w ep).2.1 =
        { ep with response := { ep.response with respBody := body } }) ∧
      (∀ fd, fileOn (processCIG w ep).2.2 fd = none) ∧
      (if w.cgi.succeeds then (processCIG w ep).1 = OK
        else (processCIG w ep).1 ∈ [notFound, serverError, badRequset]) := by
  unfold processCIG CgiRun.succeeds
  cases w.cgi.input with
  | none => exact ⟨⟨_, rfl⟩, fun _ => rfl, by simp⟩
  | some i =>
    cases w.cgi.output with
    | none => exact ⟨⟨_, rfl⟩, fun _ => rfl, by simp⟩
    | some o =>
      cases w.cgi.forked with
      | false => exact ⟨⟨_, rfl⟩, fun _ => rfl, by simp [notFound]⟩
      | true =>
        refine ⟨⟨_, rfl⟩, fun _ => rfl, ?_⟩
        cases w.cgi.wait with
        | failed => simp [waitCode]
        | signaled => simp [waitCode]
        | exited status => by_cases h : status = 0 <;> simp [waitCode, h]

/-! ## The ends -/

def EndPoint.withStatus (ep : EndPoint) : EndPoint :=
  { ep with response := { ep.response with statusLine := statusLineOf ep.response.statusCode } }

theorem EndPoint.addStatusLine_fresh {ep : EndPoint} (hline : ep.response.statusLine = []) :
    ep.addStatusLine = ep.withStatus := by
  rw [EndPoint.addStatusLine, hline, List.nil_append]
  rfl

theorem buildHttpResponseHelper_ok (w : World) {ep : EndPoint}
    (hline : ep.response.statusLine = []) (hcode : ep.response.statusCode = OK) :
    buildHttpResponseHelper w ep = (buildOkResponse ep.withStatus, []) := by
  rw [buildHttpResponseHelper_found w hcode, EndPoint.addStatusLine_fresh hline]

theorem buildHttpResponseHelper_error (w : World) {ep : EndPoint}
    (hline : ep.response.statusLine = [])
    (hcode : ep.response.statusCode ∈ [notFound, serverError, badRequset]) :
    buildHttpResponseHelper w ep = handlerError w errorPage ep.withStatus := by
  rw [buildHttpResponseHelper_page w hcode, EndPoint.addStatusLine_fresh hline]

/-- An answer with the error page. -/
theorem headAgrees_error (w : World) {log : List Sys} {ep : EndPoint}
    (hlog : ∀ fd, fileOn log fd = none) (hline : SingleLine ep.response.statusLine)
    (hhead : ep.response.respHead = []) :
    HeadAgrees w (log ++ (handlerError w errorPage ep).2) (handlerError w errorPage ep).1 ↔
      PageFits w := by
  unfold PageFits handlerError
  cases hopen : w.openRdonly (cstr errorPage) w.openPage with
  | none =>
    refine Iff.trans (headAgrees_none (by exact hline) (by exact hhead)) ?_
    have hbody : fileOn (log ++ [.openRdonly (cstr errorPage) none]) (-1) = none := by
      rw [fileOn_append, hlog]
      rfl
    simp [bodyLength, fdInt, hbody]
  | some fd =>
    obtain ⟨st, hst⟩ := openRdonly_stat hopen
    have hfile (log' : List Sys) (h : fileOn log' fd = none) :
        fileOn (log ++ (.openRdonly (cstr errorPage) (some fd) :: log')) fd =
          some (cstr errorPage) := by
      rw [← List.singleton_append, fileOn_append, fileOn_append, h]
      simp [fileOn]
    by_cases hfd : fd = 0
    · subst hfd
      simp only [fdInt, Nat.cast_zero, gt_iff_lt, lt_self_iff_false, if_false]
      refine Iff.trans (headAgrees_none (by exact hline) (by exact hhead)) ?_
      have hbody := hfile [] rfl
      rw [Nat.cast_zero] at hbody
      simp [bodyLength, hbody, hst]
    · have hpos : (fd : Int) > 0 := by omega
      simp only [fdInt, hpos, if_true, hst, Option.getD_some]
      have hdesc : CR ∉ str "text/html" ∧ LF ∉ str "text/html" := by decide
      refine Iff.trans (headAgrees_two (by exact hline) hdesc (toString_plain st.stSize)
        (by simp [hhead])) ?_
      have hbody := hfile [.stat (cstr errorPage)] rfl
      simp only [bodyLength, hbody, Option.bind_some, hst, Option.map_some, Bool.false_eq_true,
        if_false, Option.some.injEq, forall_eq', toString_natCast, true_and, forall_const,
        count_eq_iff st.isOff]
      exact ⟨fun h => ⟨hfd, h⟩, fun h => h.2⟩

/-- An answer with a program's output. -/
theorem headAgrees_program (w : World) (log : List Sys) {ep : EndPoint}
    (hline : SingleLine ep.response.statusLine) (hhead : ep.response.respHead = [])
    (hcgi : ep.request.cgi = true) : HeadAgrees w log (buildOkResponse ep) := by
  refine (headAgrees_two (by exact hline) (suffix2Desc_plain ep.request.suffix)
    (toString_plain ep.response.respBody.length) (by simp [buildOkResponse, hhead, hcgi])).mpr ?_
  intro n hn
  have hn' : ep.response.respBody.length = n := by
    simpa [bodyLength, buildOkResponse, hcgi] using hn
  rw [toString_natCast, hn']
  exact ⟨rfl, fun h => by simp [buildOkResponse, hcgi] at h⟩

/-- An answer with a file. -/
theorem headAgrees_file (w : World) {log : List Sys} {ep : EndPoint} {path : Bytes} {st : Stat}
    (hline : SingleLine ep.response.statusLine) (hhead : ep.response.respHead = [])
    (hcgi : ep.request.cgi = false) (hfile : fileOn log ep.response.fd = some path)
    (hst : w.stat path = some st) (hsize : ep.request.size = signed 32 st.stSize) :
    HeadAgrees w log (buildOkResponse ep) ↔ st.stSize < 2 ^ 31 := by
  refine Iff.trans (headAgrees_two (by exact hline) (suffix2Desc_plain ep.request.suffix)
    (toString_plain ep.request.size) (by simp [buildOkResponse, hhead, hcgi])) ?_
  simp only [bodyLength, buildOkResponse, hcgi, Bool.false_eq_true, if_false, hfile,
    Option.bind_some, hst, Option.map_some, Option.some.injEq, forall_eq', forall_const, hsize,
    count_eq_iff st.isOff]
  refine ⟨fun h => h.2, fun h => ⟨?_, h⟩⟩
  rw [Lib.Numerals.signed32_natCast_of_lt h, toString_natCast]

/-! ## A whole response -/

theorem splitUri_cgi {r : HttpRequest} (hm : r.method = methodGet ∨ r.method = methodPost)
    (hcgi : r.cgi = false) : (splitUri r).cgi = asksProgram r := by
  rcases hm with hm | hm
  · have hne : methodGet ≠ methodPost := by decide
    rw [splitUri_get hm, asksProgram, hm]
    by_cases h : 63 ∈ r.uri <;> simp [h, hcgi, hne]
  · rw [splitUri_post hm, asksProgram, hm]
    simp

theorem rootPath_cgi (r : HttpRequest) : (rootPath r).cgi = r.cgi := rfl

/-- The request that a lookup leaves, through `resource`. -/
theorem lookUp_resource {w : World} {r : HttpRequest} :
    match (lookUp w r).1 with
    | none => w.resource r.path = none
    | some r' => ∃ st, w.resource r.path = some (r'.path, st) ∧
        r'.cgi = (r.cgi || executable st.stMode) ∧ r'.size = signed 32 st.stSize := by
  cases hl : (lookUp w r).1 with
  | none => simp [World.resource, lookUp_none hl]
  | some r' =>
    obtain ⟨st, hst, hpath, hcgi, hsize⟩ := lookUp_found hl
    refine ⟨_, ?_, hcgi, hsize⟩
    rw [World.resource, hst, Option.map_some, hpath]
    split <;> rfl

/-- A file that is there was looked at last. -/
theorem resource_stat {w : World} {path path' : Bytes} {st st' : Stat}
    (h : w.resource path = some (path', st)) (hst : w.stat (cstr path') = some st') :
    st' = st := by
  obtain ⟨st₀, hst₀, heq⟩ := Option.map_eq_some_iff.mp h
  split at heq
  · cases heq
    rw [hst, Option.getD_some]
  · cases heq
    exact Option.some.inj (hst.symm.trans hst₀)

theorem serve_program {w : World} {ep : EndPoint} (h : ep.request.cgi = true) :
    serve w ep = processCIG w ep := if_pos h

theorem serve_file {w : World} {ep : EndPoint} (h : ep.request.cgi = false) :
    serve w ep = processNonCIG w ep := if_neg (by simp [h])

/-- What serving the resource and answering it leaves, after the lookup. -/
theorem headAgrees_serve_program (w : World) {log : List Sys} {ep : EndPoint}
    (hlog : ∀ fd, fileOn log fd = none) (hline : ep.response.statusLine = [])
    (hhead : ep.response.respHead = []) (hcgi : ep.request.cgi = true) :
    HeadAgrees w
        (log ++ (serve w ep).2.2 ++
          (buildHttpResponseHelper w ((serve w ep).2.1.withCode (serve w ep).1)).2)
        (buildHttpResponseHelper w ((serve w ep).2.1.withCode (serve w ep).1)).1 ↔
      (if w.cgi.succeeds then Outcome.program else .errorPage).Fits w := by
  rw [serve_program hcgi]
  obtain ⟨⟨body, heq⟩, hfile, hcode⟩ := processCIG_cases w ep
  cases hs : w.cgi.succeeds with
  | true =>
    rw [hs, if_pos rfl] at hcode
    rw [heq, buildHttpResponseHelper_ok w (by exact hline) (by exact hcode)]
    refine iff_of_true ?_ trivial
    exact headAgrees_program w _ (statusLineOf_single _) hhead hcgi
  | false =>
    rw [hs, if_neg (by decide)] at hcode
    rw [heq, buildHttpResponseHelper_error w (by exact hline) (by exact hcode)]
    refine headAgrees_error w (fun fd => ?_) (statusLineOf_single _) (by exact hhead)
    rw [fileOn_append, hfile, hlog]
    rfl

theorem headAgrees_serve_file (w : World) {log : List Sys} {ep : EndPoint} {st : Stat}
    (hlog : ∀ fd, fileOn log fd = none) (hline : ep.response.statusLine = [])
    (hhead : ep.response.respHead = []) (hcgi : ep.request.cgi = false)
    (hst : ∀ st', w.stat (cstr ep.request.path) = some st' → st' = st)
    (hsize : ep.request.size = signed 32 st.stSize) :
    HeadAgrees w
        (log ++ (serve w ep).2.2 ++
          (buildHttpResponseHelper w ((serve w ep).2.1.withCode (serve w ep).1)).2)
        (buildHttpResponseHelper w ((serve w ep).2.1.withCode (serve w ep).1)).1 ↔
      (match w.openRdonly (cstr ep.request.path) w.openTarget with
        | some _ => Outcome.file st.stSize
        | none => .errorPage).Fits w := by
  rw [serve_file hcgi, processNonCIG]
  cases hopen : w.openRdonly (cstr ep.request.path) w.openTarget with
  | none =>
    have hcode : (if fdInt none ≥ 0 then OK else notFound) ∈
        [notFound, serverError, badRequset] := by decide
    rw [buildHttpResponseHelper_error w (by exact hline) (by exact hcode)]
    refine headAgrees_error w (fun fd => ?_) (statusLineOf_single _) (by exact hhead)
    rw [fileOn_append, hlog]
    rfl
  | some fd =>
    obtain ⟨st', hst'⟩ := openRdonly_stat hopen
    obtain rfl := hst st' hst'
    have hcode : (if fdInt (some fd) ≥ 0 then OK else notFound) = OK :=
      if_pos (Int.natCast_nonneg fd)
    simp only [hcode]
    rw [buildHttpResponseHelper_ok w (by exact hline) rfl]
    refine headAgrees_file w (statusLineOf_single _) (by exact hhead) hcgi ?_ hst' hsize
    simp [fileOn, fdInt, EndPoint.withStatus, EndPoint.withCode]

/-- **Head and body agree** exactly when the sizes that pass through an `int`
fit it and the error page is not opened on descriptor 0. -/
theorem buildHttpResponse_headAgrees_iff (w : World) {ep : EndPoint}
    (hnew : ep.response = .new) (hcgi : ep.request.cgi = false) :
    HeadAgrees w (buildHttpResponse w ep).2 (buildHttpResponse w ep).1 ↔
      (outcome w ep.request).Fits w := by
  have hline : ep.response.statusLine = [] := by rw [hnew]; rfl
  have hhead : ep.response.respHead = [] := by rw [hnew]; rfl
  by_cases hm : ep.request.method = methodGet ∨ ep.request.method = methodPost
  · have hlooked := lookUp_resource (w := w) (r := rootPath (splitUri ep.request))
    rw [outcome, if_pos hm]
    cases hl : (lookUp w (rootPath (splitUri ep.request))).1 with
    | none =>
      rw [hl] at hlooked
      rw [buildHttpResponse_missing hm hl, hlooked]
      dsimp only
      rw [buildHttpResponseHelper_error w (by exact hline) (by simp [EndPoint.withCode])]
      exact headAgrees_error w (lookUp_fileOn w _) (statusLineOf_single _) hhead
    | some r =>
      rw [hl] at hlooked
      obtain ⟨st, hres, hrcgi, hsize⟩ := hlooked
      rw [rootPath_cgi, splitUri_cgi hm hcgi] at hrcgi
      rw [buildHttpResponse_found hm hl, hres]
      dsimp only
      rw [← hrcgi]
      cases hr : r.cgi with
      | true =>
        exact headAgrees_serve_program w (lookUp_fileOn w _) hline hhead
          (by rw [setSuffix_frame]; exact hr)
      | false =>
        rw [setSuffix_frame]
        apply headAgrees_serve_file w (lookUp_fileOn w _)
        · exact hline
        · exact hhead
        · exact hr
        · intro st' hst'
          exact resource_stat hres hst'
        · exact hsize
  · rw [outcome, if_neg hm, buildHttpResponse_reject w hm,
      buildHttpResponseHelper_error w (by exact hline) (by simp [EndPoint.withCode])]
    exact headAgrees_error w (show ∀ fd, fileOn [] fd = none from fun _ => rfl)
      (statusLineOf_single _) hhead

/-- **Head and body agree**, for every request received. -/
theorem received_headAgrees_iff (flowsOff : EndPoint → Bool) (w : World) (sock : Sock)
    (size : Int) :
    let ep := recvHttpRequest flowsOff (.new sock size)
    HeadAgrees w (buildHttpResponse w ep).2 (buildHttpResponse w ep).1 ↔
      (outcome w ep.request).Fits w :=
  buildHttpResponse_headAgrees_iff w (recvHttpRequest_frame flowsOff _).1
    (recvHttpRequest_frame flowsOff _).2.1

def bigUri : Word := ⟨str "/big.jpg", by decide, noSpace_of_all (by decide)⟩

/-- A file of 2^31 bytes: the length announced is negative. -/
theorem received_head_tooBig :
    let sock := Sock.new ((getMessage bigUri).serialise []) fun _ => false
    let ep := recvHttpRequest (fun _ => false) (.new sock 0)
    let w := oneFile (str "./wwwroot/big.jpg") ⟨0x81A4, 2 ^ 31, by decide⟩
    ep.isStop = false ∧ ¬ HeadAgrees w (buildHttpResponse w ep).2 (buildHttpResponse w ep).1 := by
  intro sock ep w
  obtain ⟨hstop, hmethod, huri⟩ := getMessage_received bigUri (by decide)
  have hm : ep.request.method = methodGet := hmethod
  refine ⟨hstop, fun h => ?_⟩
  have hfits := (buildHttpResponse_headAgrees_iff w (recvHttpRequest_frame _ _).1
    (recvHttpRequest_frame _ _).2.1).mp h
  have hpath : (rootPath (splitUri ep.request)).path = str "./wwwroot/big.jpg" := by
    rw [rootPath]
    dsimp only
    rw [splitUri_path (Or.inl hm), target, if_pos hm, huri]
    decide
  have hasks : asksProgram ep.request = false := by
    rw [asksProgram, hm, huri]
    decide
  have hout : outcome w ep.request = .file (2 ^ 31) := by
    rw [outcome, if_pos (Or.inl hm), hpath, hasks]
    decide
  rw [hout] at hfits
  exact absurd hfits (by simp [Outcome.Fits])

end MinHttp

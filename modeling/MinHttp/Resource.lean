import MinHttp.Response

/-! From a request to the file or program that answers it: what each phase of
`BuildHttpResponse` makes of the request, and the ways it can end. -/
namespace MinHttp

/-- The part of the URI that names a resource. -/
def target (r : HttpRequest) : Bytes :=
  if r.method = methodGet then r.uri.takeWhile (· != 63) else r.uri

theorem cutString_query (uri sub1 sub2 : Bytes) (h : 63 ∈ uri) :
    cutString uri sub1 sub2 (str "?") =
      (true, uri.takeWhile (· != 63), (uri.dropWhile (· != 63)).tail) := by
  have hf : find uri (str "?") = some (uri.takeWhile (· != 63)).length := by
    rw [find, show str "?" = [63] from rfl, Lib.Cut.dropInfix?_singleton, if_pos h]
    rfl
  have hcut (p q : Bytes) (h : p ++ q = uri) :
      uri.take p.length = p ∧ uri.drop (p.length + (str "?").length) = q.tail := by
    subst h
    simp [List.drop_append, str]
  obtain ⟨htake, hdrop⟩ := hcut _ _ (List.takeWhile_append_dropWhile (p := (· != 63)))
  simp only [cutString, hf, htake, hdrop]

theorem splitUri_get {r : HttpRequest} (hm : r.method = methodGet) :
    splitUri r =
      if 63 ∈ r.uri then
        { r with
          path := r.uri.takeWhile (· != 63)
          queryString := (r.uri.dropWhile (· != 63)).tail
          cgi := true }
      else { r with path := r.uri } := by
  have hf : find r.uri (str "?") =
      if 63 ∈ r.uri then some (r.uri.takeWhile (· != 63)).length else none := by
    rw [find, show str "?" = [63] from rfl, Lib.Cut.dropInfix?_singleton]
    split <;> rfl
  rw [splitUri, if_pos hm, hf]
  by_cases h : 63 ∈ r.uri
  · simp only [if_pos h, cutString_query _ _ _ h]
  · simp only [if_neg h]

theorem splitUri_post {r : HttpRequest} (hm : r.method = methodPost) :
    splitUri r = { r with cgi := true, path := r.uri } := by
  rw [splitUri, if_neg (by rw [hm]; decide), if_pos hm]

theorem splitUri_path {r : HttpRequest} (hm : r.method = methodGet ∨ r.method = methodPost) :
    (splitUri r).path = target r := by
  rcases hm with hm | hm
  · rw [splitUri_get hm, target, if_pos hm]
    split
    case isTrue => rfl
    case isFalse h =>
      exact (Lib.Cut.takeWhile_absent h).symm
  · rw [splitUri_post hm, target, if_neg (by rw [hm]; decide)]

theorem rootPath_ne_nil (r : HttpRequest) : (rootPath r).path ≠ [] := by
  rw [rootPath]
  dsimp only
  split <;> simp [webRoot, str]

theorem rootPath_congr {r r' : HttpRequest} (h : r.path = r'.path) :
    (rootPath r).path = (rootPath r').path := by
  unfold rootPath
  rw [h]

def indexPage (path : Bytes) : Bytes := path ++ str "/" ++ defautlPage

/-- What a successful `lookUp` makes of the request. -/
theorem lookUp_found {w : World} {r r' : HttpRequest} (h : (lookUp w r).1 = some r') :
    ∃ st, w.stat (cstr r.path) = some st ∧
      r'.path = (if sIsDir st.stMode then indexPage r.path else r.path) ∧
      r'.cgi = (r.cgi || executable
        (if sIsDir st.stMode then (w.stat (cstr (indexPage r.path))).getD st else st).stMode) ∧
      r'.size = Lib.Numerals.signed 32
        (if sIsDir st.stMode then (w.stat (cstr (indexPage r.path))).getD st else st).stSize := by
  unfold lookUp at h
  cases hst : w.stat (cstr r.path) with
  | none => simp [hst] at h
  | some st =>
    simp only [hst, Option.some.injEq] at h
    subst h
    exact ⟨st, rfl, rfl, rfl, by rw [indexPage]⟩

theorem lookUp_none {w : World} {r : HttpRequest} (h : (lookUp w r).1 = none) :
    w.stat (cstr r.path) = none := by
  unfold lookUp at h
  cases hst : w.stat (cstr r.path) with
  | none => rfl
  | some st => simp [hst] at h

theorem setSuffix_frame (r : HttpRequest) :
    setSuffix r = { r with suffix := (setSuffix r).suffix } := by
  unfold setSuffix
  split <;> rfl

/-- The resource found, served as a program or as a file. -/
def serve (w : World) (ep : EndPoint) : Int × EndPoint × List Sys :=
  if ep.request.cgi then processCIG w ep else processNonCIG w ep

/-- The status line goes behind what is there. -/
def EndPoint.addStatusLine (ep : EndPoint) : EndPoint :=
  { ep with response := { ep.response with
    statusLine := ep.response.statusLine ++ (httpVersion ++ str " " ++
      toString ep.response.statusCode ++ str " " ++ code2Desc ep.response.statusCode ++ lineEnd) } }

/-- The headers of an OK, the error page of the three other codes, or nothing. -/
theorem buildHttpResponseHelper_cases (w : World) (ep : EndPoint) :
    (ep.response.statusCode = OK ∧
        buildHttpResponseHelper w ep = (buildOkResponse ep.addStatusLine, [])) ∨
      (ep.response.statusCode ∈ [notFound, serverError, badRequset] ∧
        buildHttpResponseHelper w ep = handlerError w errorPage ep.addStatusLine) ∨
      (ep.response.statusCode ∉ [OK, notFound, serverError, badRequset] ∧
        buildHttpResponseHelper w ep = (ep.addStatusLine, [])) := by
  unfold buildHttpResponseHelper
  dsimp only
  by_cases hok : ep.response.statusCode = OK
  · rw [if_pos hok]
    exact Or.inl ⟨hok, rfl⟩
  · rw [if_neg hok]
    refine Or.inr ?_
    by_cases hmissing : ep.response.statusCode = notFound
    · rw [if_pos hmissing]
      exact Or.inl ⟨by simp [hmissing], rfl⟩
    · rw [if_neg hmissing]
      by_cases hserver : ep.response.statusCode = serverError
      · rw [if_pos hserver]
        exact Or.inl ⟨by simp [hserver], rfl⟩
      · rw [if_neg hserver]
        by_cases hbad : ep.response.statusCode = badRequset
        · rw [if_pos hbad]
          exact Or.inl ⟨by simp [hbad], rfl⟩
        · rw [if_neg hbad]
          exact Or.inr ⟨by simp [hok, hmissing, hserver, hbad], rfl⟩

theorem buildHttpResponseHelper_found (w : World) {ep : EndPoint}
    (hcode : ep.response.statusCode = OK) :
    buildHttpResponseHelper w ep = (buildOkResponse ep.addStatusLine, []) := by
  rcases buildHttpResponseHelper_cases w ep with ⟨-, h⟩ | ⟨hother, -⟩ | ⟨hother, -⟩
  · exact h
  · rw [hcode] at hother
    exact absurd hother (by decide)
  · exact absurd (by simp [hcode]) hother

theorem buildHttpResponseHelper_page (w : World) {ep : EndPoint}
    (hcode : ep.response.statusCode ∈ [notFound, serverError, badRequset]) :
    buildHttpResponseHelper w ep = handlerError w errorPage ep.addStatusLine := by
  rcases buildHttpResponseHelper_cases w ep with ⟨hother, -⟩ | ⟨-, h⟩ | ⟨hother, -⟩
  · rw [hother] at hcode
    exact absurd hcode (by decide)
  · exact h
  · exact absurd (List.mem_cons_of_mem OK hcode) hother

theorem buildHttpResponse_reject (w : World) {ep : EndPoint}
    (hm : ¬ (ep.request.method = methodGet ∨ ep.request.method = methodPost)) :
    buildHttpResponse w ep = buildHttpResponseHelper w (ep.withCode badRequset) := by
  rw [buildHttpResponse, if_pos (by tauto)]

theorem buildHttpResponse_missing {w : World} {ep : EndPoint}
    (hm : ep.request.method = methodGet ∨ ep.request.method = methodPost)
    (hl : (lookUp w (rootPath (splitUri ep.request))).1 = none) :
    buildHttpResponse w ep =
      let ended := buildHttpResponseHelper w
        ({ ep with request := rootPath (splitUri ep.request) }.withCode notFound)
      (ended.1, (lookUp w (rootPath (splitUri ep.request))).2 ++ ended.2) := by
  rw [buildHttpResponse, if_neg (by tauto)]
  dsimp only
  split
  case h_1 heq => rw [heq]
  case h_2 heq => simp [heq] at hl

theorem buildHttpResponse_found {w : World} {ep : EndPoint} {r : HttpRequest}
    (hm : ep.request.method = methodGet ∨ ep.request.method = methodPost)
    (hl : (lookUp w (rootPath (splitUri ep.request))).1 = some r) :
    buildHttpResponse w ep =
      let served := serve w { ep with request := setSuffix r }
      let ended := buildHttpResponseHelper w (served.2.1.withCode served.1)
      (ended.1, (lookUp w (rootPath (splitUri ep.request))).2 ++ served.2.2 ++ ended.2) := by
  rw [buildHttpResponse, if_neg (by tauto)]
  dsimp only
  split
  case h_1 heq => simp [heq] at hl
  case h_2 r' log heq =>
    rw [heq] at hl ⊢
    obtain rfl : r' = r := by simpa using hl
    rfl

/-- The request at the call of `ProcessCIG`, if there is one. -/
def cgiRequest (w : World) (r : HttpRequest) : Option HttpRequest :=
  if r.method = methodGet ∨ r.method = methodPost then
    ((lookUp w (rootPath (splitUri r))).1.map setSuffix).filter (·.cgi)
  else none

theorem cgiRequest_eq_some {w : World} {r r' : HttpRequest} (h : cgiRequest w r = some r') :
    (r.method = methodGet ∨ r.method = methodPost) ∧
      ∃ r₀, (lookUp w (rootPath (splitUri r))).1 = some r₀ ∧ r' = setSuffix r₀ ∧
        r'.cgi = true := by
  unfold cgiRequest at h
  split at h
  case isFalse => cases h
  case isTrue hm =>
    obtain ⟨hmap, hcgi⟩ := Option.filter_eq_some_iff.mp h
    obtain ⟨r₀, hl, rfl⟩ := Option.map_eq_some_iff.mp hmap
    exact ⟨hm, r₀, hl, rfl, hcgi⟩

theorem buildHttpResponse_program {w : World} {ep : EndPoint} {r : HttpRequest}
    (h : cgiRequest w ep.request = some r) :
    buildHttpResponse w ep =
      let served := processCIG w { ep with request := r }
      let ended := buildHttpResponseHelper w (served.2.1.withCode served.1)
      (ended.1, (lookUp w (rootPath (splitUri ep.request))).2 ++ served.2.2 ++ ended.2) := by
  obtain ⟨hm, r₀, hl, rfl, hcgi⟩ := cgiRequest_eq_some h
  rw [buildHttpResponse_found hm hl, serve, if_pos hcgi]

/-- What the way to a program leaves of the request. -/
theorem cgiRequest_frame {w : World} {r r' : HttpRequest} (h : cgiRequest w r = some r') :
    r'.method = r.method ∧ r'.uri = r.uri ∧ r'.reqBody = r.reqBody ∧
      r'.contentLength = r.contentLength ∧ r'.queryString = (splitUri r).queryString := by
  obtain ⟨hm, r₀, hl, rfl, -⟩ := cgiRequest_eq_some h
  have hsplit : (splitUri r).method = r.method ∧ (splitUri r).uri = r.uri ∧
      (splitUri r).reqBody = r.reqBody ∧ (splitUri r).contentLength = r.contentLength := by
    rcases hm with hm | hm
    · rw [splitUri_get hm]
      split <;> exact ⟨rfl, rfl, rfl, rfl⟩
    · rw [splitUri_post hm]
      exact ⟨rfl, rfl, rfl, rfl⟩
  have hfound : ∃ path cgi size, r₀ =
      { rootPath (splitUri r) with path := path, cgi := cgi, size := size } := by
    unfold lookUp at hl
    split at hl
    · cases hl
    · cases hl
      exact ⟨_, _, _, rfl⟩
  obtain ⟨path, cgi, size, rfl⟩ := hfound
  rw [setSuffix_frame]
  exact ⟨hsplit.1, hsplit.2.1, hsplit.2.2.1, hsplit.2.2.2, rfl⟩

/-- A file system in which one file can be found, and no program runs. -/
def oneFile (path : Bytes) (st : Stat) : World where
  stat p := if p = path then some st else none
  openTarget := some 7
  openPage := some 7
  cgi := ⟨none, none, false, [], some 0, false⟩

end MinHttp

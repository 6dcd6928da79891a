import MinHttp.Target

/-! The Content-Type of a successful response: the code looks for the last dot
of the whole path, and finds what the last component says. -/
namespace MinHttp

open Lib.Cut (rtakeWhile_last rtakeWhile_absent exists_last)

def lastComponent (path : Bytes) : Bytes := path.rtakeWhile (· != 47)

/-- From the last dot on. -/
def extension (component : Bytes) : Option Bytes :=
  if 46 ∈ component then some (46 :: component.rtakeWhile (· != 46)) else none

def typeOf (component : Bytes) : Bytes :=
  match extension component with
  | some ext => (suffix2descTable.lookup ext).getD (str "text/html")
  | none => str "text/html"

theorem rfind_last {ch : Byte} {t : Bytes} (ht : ch ∉ t) (p : Bytes) :
    rfind (p ++ ch :: t) ch = some p.length := by
  have hidx : (p ++ ch :: t).reverse.idxOf? ch = some t.length := by
    rw [List.reverse_append, List.reverse_cons, List.append_assoc, List.idxOf?,
      List.findIdx?_append]
    have hnone : t.reverse.findIdx? (· == ch) = none := by
      rw [List.findIdx?_eq_none_iff]
      intro b hb
      simpa using fun he : b = ch => ht (he ▸ List.mem_reverse.mp hb)
    rw [hnone]
    simp [List.findIdx?_cons]
  rw [rfind, hidx, Option.map_some]
  simp

theorem rfind_absent {ch : Byte} {path : Bytes} (h : ch ∉ path) : rfind path ch = none := by
  rw [rfind, Option.map_eq_none_iff, List.idxOf?_eq_none_iff]
  simpa using h

theorem lastComponent_eq (dir : Bytes) {component : Bytes} (h : 47 ∉ component) :
    lastComponent (dir ++ 47 :: component) = component := rtakeWhile_last h dir

theorem extension_eq (stem : Bytes) {t : Bytes} (h : 46 ∉ t) :
    extension (stem ++ 46 :: t) = some (46 :: t) := by
  rw [extension, if_pos (by simp), rtakeWhile_last h]

theorem extension_none {component : Bytes} (h : 46 ∉ component) : extension component = none :=
  if_neg h

/-- No suffix of the table holds a slash. -/
theorem suffix2Desc_slash {suffix : Bytes} (h : 47 ∈ suffix) :
    suffix2Desc suffix = str "text/html" := by
  have htable : ∀ row ∈ suffix2descTable, 47 ∉ row.1 := by decide
  unfold suffix2Desc
  cases hl : suffix2descTable.lookup suffix with
  | none => rfl
  | some desc =>
    obtain ⟨l, r, hrow, -⟩ := List.lookup_eq_some_iff.mp hl
    exact absurd h (htable (suffix, desc) (by simp [hrow]))

/-- The suffix kept is described as the last component is. -/
theorem suffix2Desc_setSuffix (r : HttpRequest) :
    suffix2Desc (setSuffix r).suffix = typeOf (lastComponent r.path) := by
  by_cases hdot : 46 ∈ r.path
  · obtain ⟨p, t, hpath, ht⟩ := exists_last hdot
    have hsuffix : (setSuffix r).suffix = 46 :: t := by
      rw [setSuffix, hpath, rfind_last ht]
      simp
    rw [hsuffix, hpath]
    by_cases hslash : 47 ∈ t
    · obtain ⟨q, component, rfl, hcomponent⟩ := exists_last hslash
      have hdots : 46 ∉ component := fun h => ht (by simp [h])
      rw [suffix2Desc_slash (by simp), ← List.cons_append, ← List.append_assoc,
        lastComponent_eq _ hcomponent, typeOf, extension_none hdots]
    · have hstem : ∃ stem, lastComponent (p ++ 46 :: t) = stem ++ 46 :: t := by
        by_cases hp : 47 ∈ p
        · obtain ⟨dir, stem, rfl, hstem⟩ := exists_last hp
          refine ⟨stem, ?_⟩
          rw [List.append_assoc, List.cons_append]
          apply lastComponent_eq
          simp [hstem, hslash]
        · exact ⟨p, rtakeWhile_absent (by simp [hp, hslash])⟩
      obtain ⟨stem, hstem⟩ := hstem
      rw [hstem, typeOf, extension_eq stem ht]
      rfl
  · have hsuffix : (setSuffix r).suffix = str ".html" := by rw [setSuffix, rfind_absent hdot]
    have hcomponent : 46 ∉ lastComponent r.path := fun h =>
      hdot ((List.rtakeWhile_suffix _ _).subset h)
    rw [hsuffix, typeOf, extension_none hcomponent]
    rfl

theorem setSuffix_described (r : HttpRequest) :
    ∃ suffix, setSuffix r = { r with suffix := suffix } ∧
      suffix2Desc suffix = typeOf (lastComponent r.path) :=
  ⟨_, setSuffix_frame r, suffix2Desc_setSuffix r⟩

theorem serve_frame (w : World) (ep : EndPoint) :
    (serve w ep).2.1.request = ep.request ∧
      (serve w ep).2.1.response.respHead = ep.response.respHead := by
  unfold serve
  split
  · obtain ⟨⟨body, heq⟩, -⟩ := processCIG_cases w ep
    rw [heq]
    exact ⟨rfl, rfl⟩
  · exact ⟨rfl, rfl⟩

/-- An answer of 200 is that of a resource found and served. -/
theorem buildHttpResponse_ok {w : World} {ep : EndPoint}
    (hcode : (buildHttpResponse w ep).1.response.statusCode = OK) :
    (ep.request.method = methodGet ∨ ep.request.method = methodPost) ∧
      ∃ r, (lookUp w (rootPath (splitUri ep.request))).1 = some r ∧
        (buildHttpResponse w ep).1.request.path = r.path ∧
        ∃ length, (buildHttpResponse w ep).1.response.respHead = ep.response.respHead ++
          [contentType ++ suffix2Desc (setSuffix r).suffix ++ lineEnd,
           contentLengthIs ++ length ++ lineEnd] := by
  by_cases hm : ep.request.method = methodGet ∨ ep.request.method = methodPost
  · refine ⟨hm, ?_⟩
    cases hl : (lookUp w (rootPath (splitUri ep.request))).1 with
    | none =>
      rw [buildHttpResponse_missing hm hl] at hcode
      dsimp only at hcode
      rw [(buildHttpResponseHelper_answered w _).1] at hcode
      exact absurd hcode (by simp [EndPoint.withCode, notFound, OK])
    | some r =>
      obtain ⟨hrequest, hhead⟩ := serve_frame w { ep with request := setSuffix r }
      rw [buildHttpResponse_found hm hl] at hcode ⊢
      dsimp only at hcode hrequest hhead ⊢
      rw [(buildHttpResponseHelper_answered w _).1] at hcode
      rw [buildHttpResponseHelper_found w hcode]
      refine ⟨r, rfl, ?_, ?_⟩
      · refine (congrArg HttpRequest.path hrequest).trans ?_
        rw [setSuffix_frame]
      · simp only [buildOkResponse, EndPoint.addStatusLine, EndPoint.withCode, hrequest, hhead]
        exact ⟨_, rfl⟩
  · rw [buildHttpResponse_reject w hm, (buildHttpResponseHelper_answered w _).1] at hcode
    exact absurd hcode (by simp [EndPoint.withCode, badRequset, OK])

/-- The final path comes from the part of the URI that names a resource. -/
theorem lookUp_path_congr {w : World} {r r' s s' : HttpRequest} (hpath : r.path = r'.path)
    (hl : (lookUp w r).1 = some s) (hl' : (lookUp w r').1 = some s') : s.path = s'.path := by
  obtain ⟨st, hst, hs, -⟩ := lookUp_found hl
  obtain ⟨st', hst', hs', -⟩ := lookUp_found hl'
  rw [← hpath, hst] at hst'
  cases hst'
  rw [hs, hs', hpath]

/-- **The type is that of the last component** of the final path, and no
directory and no query string has a part in it. -/
theorem buildHttpResponse_contentType {w : World} {ep : EndPoint}
    (hcode : (buildHttpResponse w ep).1.response.statusCode = OK) :
    let path := (buildHttpResponse w ep).1.request.path
    (∃ length, (buildHttpResponse w ep).1.response.respHead = ep.response.respHead ++
      [contentType ++ typeOf (lastComponent path) ++ lineEnd,
       contentLengthIs ++ length ++ lineEnd]) ∧
    (∀ dir component, path = dir ++ 47 :: component → 47 ∉ component →
      lastComponent path = component) ∧
    ∀ ep' : EndPoint, target ep'.request = target ep.request →
      (buildHttpResponse w ep').1.response.statusCode = OK →
        (buildHttpResponse w ep').1.request.path = path := by
  obtain ⟨hm, r, hl, hpath, length, hhead⟩ := buildHttpResponse_ok hcode
  dsimp only
  refine ⟨⟨length, ?_⟩, fun dir component heq hslash => ?_, fun ep' htarget hcode' => ?_⟩
  · rw [hhead, hpath, suffix2Desc_setSuffix]
  · rw [heq]
    exact lastComponent_eq dir hslash
  · obtain ⟨hm', r', hl', hpath', -⟩ := buildHttpResponse_ok hcode'
    rw [hpath, hpath']
    refine lookUp_path_congr (rootPath_congr ?_) hl' hl
    rw [splitUri_path hm', splitUri_path hm, htarget]

/-- `/.d/prog`: a dotted directory, and a program without an extension. -/
theorem buildHttpResponse_contentType_dotted :
    let w := { oneFile (str "./wwwroot/.d/prog") ⟨0x81ED, 10, by decide⟩ with
      cgi := ⟨some (3, 4), some (5, 6), true, str "hi", some 0, true⟩ }
    let ep : EndPoint := ⟨.new [] fun _ => false,
      { HttpRequest.new 0 with method := methodGet, uri := str "/.d/prog?x.css" }, .new, false⟩
    let path := (buildHttpResponse w ep).1.request.path
    (∃ length, (buildHttpResponse w ep).1.response.respHead = ep.response.respHead ++
      [contentType ++ typeOf (lastComponent path) ++ lineEnd,
       contentLengthIs ++ length ++ lineEnd]) ∧
    (∀ dir component, path = dir ++ 47 :: component → 47 ∉ component →
      lastComponent path = component) ∧
    ∀ ep' : EndPoint, target ep'.request = target ep.request →
      (buildHttpResponse w ep').1.response.statusCode = OK →
        (buildHttpResponse w ep').1.request.path = path :=
  buildHttpResponse_contentType (by decide)

end MinHttp

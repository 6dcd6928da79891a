import MinHttp.Headers

/-! What is known of the file a request is served from, when `ProcessCIG` or
`ProcessNonCIG` is called. -/
namespace MinHttp

/-- The request at that call, if there is one. -/
def servedRequest (w : World) (r : HttpRequest) : Option HttpRequest :=
  if r.method = methodGet ∨ r.method = methodPost then
    (lookUp w (rootPath (splitUri r))).1.map setSuffix
  else none

/-- The path names a file that is there and is not a directory, of the size
kept. -/
def Described (w : World) (r : HttpRequest) : Prop :=
  ∃ st, w.stat (cstr r.path) = some st ∧ sIsDir st.stMode = false ∧ r.size = st.stSize

/-- The target of a path: a directory stands for the page in it. -/
def targetPath (w : World) (path : Bytes) : Bytes :=
  match w.stat (cstr path) with
  | some st => if sIsDir st.stMode then indexPage path else path
  | none => path

/-- The status line and the code are those of `code`. -/
def Answered (ep ep' : EndPoint) (code : Int) : Prop :=
  ep'.response.statusCode = code ∧
    ep'.response.statusLine = ep.response.statusLine ++ statusLineOf code

structure TargetKept (w : World) (ep : EndPoint) : Prop where
  described : ∀ r, servedRequest w ep.request = some r → Described w r
  missing : ep.request.method = methodGet ∨ ep.request.method = methodPost →
    w.stat (cstr (targetPath w (rootPath (splitUri ep.request)).path)) = none →
      Answered ep (buildHttpResponse w ep).1 notFound

/-- A file, of a size that is an `int`. -/
def Stat.IsFile (st : Stat) : Prop := sIsDir st.stMode = false ∧ st.stSize < 2 ^ 31

/-- Nothing is there, or a file, or a directory with a file for its page. -/
def Servable (w : World) (path : Bytes) : Prop :=
  ∀ st, w.stat (cstr path) = some st →
    if sIsDir st.stMode then
      ∃ page, w.stat (cstr (indexPage path)) = some page ∧ page.IsFile
    else st.stSize < 2 ^ 31

theorem servedRequest_eq_some {w : World} {r r' : HttpRequest} (h : servedRequest w r = some r') :
    (r.method = methodGet ∨ r.method = methodPost) ∧
      ∃ r₀, (lookUp w (rootPath (splitUri r))).1 = some r₀ ∧ r' = setSuffix r₀ := by
  unfold servedRequest at h
  split at h
  case isFalse => cases h
  case isTrue hm =>
    obtain ⟨r₀, hl, rfl⟩ := Option.map_eq_some_iff.mp h
    exact ⟨hm, r₀, hl, rfl⟩

/-- It is the request `serve` is called with. -/
theorem buildHttpResponse_served {w : World} {ep : EndPoint} {r : HttpRequest}
    (h : servedRequest w ep.request = some r) :
    buildHttpResponse w ep =
      let served := serve w { ep with request := r }
      let ended := buildHttpResponseHelper w (served.2.1.withCode served.1)
      (ended.1, (lookUp w (rootPath (splitUri ep.request))).2 ++ served.2.2 ++ ended.2) := by
  obtain ⟨hm, r₀, hl, rfl⟩ := servedRequest_eq_some h
  exact buildHttpResponse_found hm hl

theorem servedRequest_none {w : World} {r : HttpRequest}
    (hm : r.method = methodGet ∨ r.method = methodPost) (h : servedRequest w r = none) :
    (lookUp w (rootPath (splitUri r))).1 = none := by
  rw [servedRequest, if_pos hm] at h
  exact Option.map_eq_none_iff.mp h

theorem handlerError_answer (w : World) (page : Bytes) (ep : EndPoint) :
    (handlerError w page ep).1.response.statusCode = ep.response.statusCode ∧
      (handlerError w page ep).1.response.statusLine = ep.response.statusLine := by
  unfold handlerError
  dsimp only
  split <;> exact ⟨rfl, rfl⟩

theorem buildHttpResponseHelper_answered (w : World) (ep : EndPoint) :
    Answered ep (buildHttpResponseHelper w ep).1 ep.response.statusCode := by
  rcases buildHttpResponseHelper_cases w ep with ⟨-, h⟩ | ⟨-, h⟩ | ⟨-, h⟩
  · rw [h]
    exact ⟨rfl, rfl⟩
  · rw [h]
    exact handlerError_answer w errorPage ep.addStatusLine
  · rw [h]
    exact ⟨rfl, rfl⟩

/-- Where nothing is found the answer is 404. -/
theorem buildHttpResponse_notFound {w : World} {ep : EndPoint}
    (hm : ep.request.method = methodGet ∨ ep.request.method = methodPost)
    (h : servedRequest w ep.request = none) :
    Answered ep (buildHttpResponse w ep).1 notFound := by
  rw [buildHttpResponse_missing hm (servedRequest_none hm h)]
  exact buildHttpResponseHelper_answered w _

theorem signed32_eq_self_iff {n : Nat} :
    Lib.Numerals.signed 32 (n : Int) = n ↔ n < 2 ^ 31 := by
  constructor
  · intro h
    have hb := (Lib.Numerals.signed32_bounds (n : Int)).2
    omega
  · exact Lib.Numerals.signed32_natCast_of_lt

/-- What is served is described, where the path is servable. -/
theorem described_iff {w : World} {r r' : HttpRequest} (hl : (lookUp w r).1 = some r') :
    Described w (setSuffix r') ↔ Servable w r.path := by
  obtain ⟨st, hst, hpath, -, hsize⟩ := lookUp_found hl
  rw [setSuffix_frame]
  unfold Described Servable Stat.IsFile
  rw [hst, hpath, hsize]
  by_cases hd : sIsDir st.stMode = true
  · simp only [hd, if_true, Option.some.injEq, forall_eq']
    cases hpage : w.stat (cstr (indexPage r.path)) with
    | none => simp
    | some page => simp [signed32_eq_self_iff]
  · simp [hd, hst, signed32_eq_self_iff]

/-- Whatever is served, a target that is missing is one not described. -/
theorem not_described_of_missing {w : World} {r r' : HttpRequest}
    (hl : (lookUp w r).1 = some r') (hmiss : w.stat (cstr (targetPath w r.path)) = none) :
    ¬ Described w (setSuffix r') := by
  obtain ⟨st, hst, hpath, -, -⟩ := lookUp_found hl
  rw [targetPath, hst] at hmiss
  rw [setSuffix_frame]
  rintro ⟨st', hst', -⟩
  dsimp only at hst'
  rw [hpath, hmiss] at hst'
  cases hst'

/-- **The target is known**, when the request is served, exactly where the
path it names has nothing, a file, or a directory with a file for its page. -/
theorem buildHttpResponse_target_iff (w : World) (ep : EndPoint) :
    TargetKept w ep ↔
      (ep.request.method = methodGet ∨ ep.request.method = methodPost →
        Servable w (rootPath (splitUri ep.request)).path) := by
  constructor
  · intro h hm
    cases hs : servedRequest w ep.request with
    | none =>
      intro st hst
      rw [lookUp_none (servedRequest_none hm hs)] at hst
      cases hst
    | some r =>
      obtain ⟨-, r₀, hl, rfl⟩ := servedRequest_eq_some hs
      exact (described_iff hl).mp (h.described _ hs)
  · intro h
    constructor
    · intro r hs
      obtain ⟨hm, r₀, hl, rfl⟩ := servedRequest_eq_some hs
      exact (described_iff hl).mpr (h hm)
    · intro hm hmiss
      cases hs : servedRequest w ep.request with
      | none => exact buildHttpResponse_notFound hm hs
      | some r =>
        obtain ⟨-, r₀, hl, rfl⟩ := servedRequest_eq_some hs
        exact absurd ((described_iff hl).mpr (h hm)) (not_described_of_missing hl hmiss)

/-- A request for a directory, and a child that exits with 1. -/
def directoryRequest : EndPoint :=
  { EndPoint.new (Sock.new [] fun _ => false) 0 with
    request := { HttpRequest.new 0 with method := methodGet, uri := str "/pub" } }

def directoryWorld : World :=
  { oneFile (str "./wwwroot/pub") ⟨0x41ED, 4096, by decide⟩ with
    cgi := ⟨some (5, 6), some (7, 8), true, [], some 1, true⟩ }

/-- There is no page in the directory: it is run as a program, and the answer
is 400. -/
theorem buildHttpResponse_directory :
    ¬ TargetKept directoryWorld directoryRequest ∧
      directoryWorld.stat (cstr (targetPath directoryWorld (str "./wwwroot/pub"))) = none ∧
      (buildHttpResponse directoryWorld directoryRequest).1.response.statusCode = badRequset := by
  have hcode :
      (buildHttpResponse directoryWorld directoryRequest).1.response.statusCode = badRequset := by
    decide
  have hmiss :
      directoryWorld.stat (cstr (targetPath directoryWorld (str "./wwwroot/pub"))) = none := by
    decide
  refine ⟨fun h => ?_, hmiss, hcode⟩
  have hfound := (h.missing (Or.inl rfl) hmiss).1
  rw [hcode] at hfound
  exact absurd hfound (by decide)

end MinHttp

import MinHttp.Resource
import MinHttp.Lib.Lexical

/-! Which requests keep the server below its resource root. Path names are
resolved by text, which is exact where there are no symbolic links. -/
namespace MinHttp

open Lib.Lexical

/-- The path a call is handed. -/
def Sys.path? : Sys → Option Bytes
  | .stat path => some path
  | .openRdonly path _ => some path
  | .execl path => some path
  | _ => none

def paths (log : List Sys) : List Bytes := log.filterMap Sys.path?

/-- Where `WEB_ROOT` leads from the working directory. -/
def root (cwd : List Bytes) : List Bytes := cwd ++ [str "wwwroot"]

/-- The entry a path denotes is the resource root or below it. -/
def Below (cwd : List Bytes) (path : Bytes) : Prop := root cwd <+: locate 47 46 cwd path

/-- With each name cancelled by the `..` after it, what is left of the path
names again the part of the working directory that the other `..`s climb, and
then the resource root. -/
def StaysInside (cwd : List Bytes) (path : Bytes) : Prop :=
  let left := reduce (segments 47 46 (str "wwwroot" ++ path))
  cwd.drop (cwd.length - left.1) ++ [str "wwwroot"] <+: left.2

instance (cwd : List Bytes) (path : Bytes) : Decidable (StaysInside cwd path) :=
  inferInstanceAs (Decidable (_ <+: _))

theorem lookUp_paths (w : World) (r : HttpRequest) :
    cstr r.path ∈ paths (lookUp w r).2 ∧
      ∀ path ∈ paths (lookUp w r).2, path = cstr r.path ∨ path = cstr (indexPage r.path) := by
  unfold lookUp
  cases w.stat (cstr r.path) with
  | none => simp [paths, Sys.path?]
  | some st =>
    by_cases hd : sIsDir st.stMode = true <;> simp [hd, paths, Sys.path?, indexPage]

theorem processNonCIG_paths (w : World) (ep : EndPoint) :
    ∀ path ∈ paths (processNonCIG w ep).2.2, path = cstr ep.request.path := by
  simp [processNonCIG, paths, Sys.path?]

theorem processCIG_paths (w : World) (ep : EndPoint) :
    ∀ path ∈ paths (processCIG w ep).2.2, path = cstr ep.request.path := by
  unfold processCIG
  split
  · simp [paths, Sys.path?]
  · split
    · simp [paths, Sys.path?]
    · split <;> simp [paths, Sys.path?]

theorem serve_paths (w : World) (ep : EndPoint) :
    ∀ path ∈ paths (serve w ep).2.2, path = cstr ep.request.path := by
  unfold serve
  split
  · exact processCIG_paths w ep
  · exact processNonCIG_paths w ep

theorem handlerError_paths (w : World) (page : Bytes) (ep : EndPoint) :
    ∀ path ∈ paths (handlerError w page ep).2, path = cstr page := by
  unfold handlerError
  dsimp only
  split <;> simp [paths, Sys.path?]

theorem buildHttpResponseHelper_paths (w : World) (ep : EndPoint) :
    ∀ path ∈ paths (buildHttpResponseHelper w ep).2, path = cstr errorPage := by
  rcases buildHttpResponseHelper_cases w ep with ⟨-, h⟩ | ⟨-, h⟩ | ⟨-, h⟩
  · simp [h, paths]
  · rw [h]
    exact handlerError_paths w errorPage _
  · simp [h, paths]

theorem paths_append (a b : List Sys) : paths (a ++ b) = paths a ++ paths b :=
  List.filterMap_append

/-- Every path handed to the system is the resource's, the page's in it, or
the error page's, and the resource's is always looked up. -/
theorem buildHttpResponse_paths (w : World) {ep : EndPoint}
    (hm : ep.request.method = methodGet ∨ ep.request.method = methodPost) :
    cstr (rootPath (splitUri ep.request)).path ∈ paths (buildHttpResponse w ep).2 ∧
      ∀ path ∈ paths (buildHttpResponse w ep).2,
        path = cstr (rootPath (splitUri ep.request)).path ∨
        path = cstr (indexPage (rootPath (splitUri ep.request)).path) ∨
        path = cstr errorPage := by
  obtain ⟨hfirst, hlook⟩ := lookUp_paths w (rootPath (splitUri ep.request))
  cases hl : (lookUp w (rootPath (splitUri ep.request))).1 with
  | none =>
    rw [buildHttpResponse_missing hm hl]
    simp only [paths_append, List.mem_append]
    refine ⟨Or.inl hfirst, fun path hp => ?_⟩
    rcases hp with hp | hp
    · rcases hlook path hp with h | h <;> simp [h]
    · exact Or.inr (Or.inr (buildHttpResponseHelper_paths w _ path hp))
  | some r =>
    rw [buildHttpResponse_found hm hl]
    simp only [paths_append, List.mem_append]
    refine ⟨Or.inl (Or.inl hfirst), fun path hp => ?_⟩
    rcases hp with (hp | hp) | hp
    · rcases hlook path hp with h | h <;> simp [h]
    · obtain ⟨st, -, hpath, -⟩ := lookUp_found hl
      rw [serve_paths w _ path hp, setSuffix_frame, hpath]
      split <;> simp
    · exact Or.inr (Or.inr (buildHttpResponseHelper_paths w _ path hp))

theorem below_name {cwd : List Bytes} {path : Bytes} (hp : path ≠ []) :
    Below cwd (path ++ 47 :: defautlPage) ↔ Below cwd path := by
  rw [Below, locate_name 47 46 hp (by decide) (by decide) (by decide) (by decide),
    below_concat_down (by simp [root]; decide), Below, locate]

theorem below_indexPage {cwd : List Bytes} {path : Bytes} (hp : path ≠ []) :
    Below cwd (cstr (indexPage path)) ↔ Below cwd (cstr path) := by
  have heq : indexPage path = path ++ 47 :: defautlPage := by
    rw [indexPage, List.append_assoc]
    rfl
  rw [heq]
  by_cases hn : NUL ∈ path
  · rw [cstr_append_of_mem hn]
  · rw [cstr_append hn, cstr_eq_self hn, cstr_eq_self (by decide), below_name hp]

/-- The page added to a directory's name makes no difference either. -/
theorem below_rootPath (cwd : List Bytes) (r : HttpRequest) :
    Below cwd (cstr (rootPath r).path) ↔ Below cwd (webRoot ++ cstr r.path) := by
  have hw : NUL ∉ webRoot := by decide
  rw [← cstr_append hw, rootPath]
  dsimp only
  by_cases hl : (webRoot ++ r.path).getLast? = some 47
  · rw [if_pos hl]
    by_cases hn : NUL ∈ webRoot ++ r.path
    · rw [cstr_append_of_mem hn]
    · obtain ⟨q, hq⟩ := List.getLast?_eq_some_iff.mp hl
      have hq0 : q ≠ [] := by
        rintro rfl
        have := congrArg List.head? hq
        simp [webRoot, str] at this
      rw [cstr_append hn, cstr_eq_self hn, cstr_eq_self (by decide), hq, List.append_assoc,
        List.singleton_append, below_name hq0, Below, Below, locate_slash 47 46 hq0]
  · rw [if_neg hl]

theorem below_webRoot (cwd : List Bytes) (path : Bytes) :
    Below cwd (webRoot ++ path) ↔ StaysInside cwd path := by
  have hw : webRoot ++ path = [46] ++ 47 :: (str "wwwroot" ++ path) := rfl
  have hdot : segments (47 : Byte) 46 [46] = [] := by decide
  rw [Below, locate, hw, segments_append, hdot, List.nil_append, root, if_neg (by simp),
    below_iff_reduce]
  rfl

theorem below_errorPage (cwd : List Bytes) : Below cwd (cstr errorPage) := by
  rw [show cstr errorPage = webRoot ++ str "/404.html" from rfl, below_webRoot, StaysInside,
    show reduce (segments 47 46 (str "wwwroot" ++ str "/404.html")) =
      (0, [str "wwwroot", page404]) by decide]
  simp

/-- **Confinement**: everything a request makes the server look up, read or
execute is below the resource root exactly when its path is. -/
theorem buildHttpResponse_confined_iff (w : World) (cwd : List Bytes) (ep : EndPoint)
    (hm : ep.request.method = methodGet ∨ ep.request.method = methodPost) :
    (∀ path ∈ paths (buildHttpResponse w ep).2, Below cwd path) ↔
      StaysInside cwd (cstr (target ep.request)) := by
  obtain ⟨hfirst, hall⟩ := buildHttpResponse_paths w hm
  have hroot : Below cwd (cstr (rootPath (splitUri ep.request)).path) ↔
      StaysInside cwd (cstr (target ep.request)) := by
    rw [below_rootPath, below_webRoot, splitUri_path hm]
  rw [← hroot]
  constructor
  · intro h
    exact h _ hfirst
  · intro h path hp
    rcases hall path hp with rfl | rfl | rfl
    · exact h
    · exact (below_indexPage (rootPath_ne_nil _)).mpr h
    · exact below_errorPage cwd

/-- A request as the receiver leaves it for the line `GET uri`. -/
def getRequest (uri : Bytes) : EndPoint :=
  { EndPoint.new (.new [] fun _ => false) 0 with
    request := { HttpRequest.new 0 with method := methodGet, uri := uri } }

theorem buildHttpResponse_confined_climbsBack :
    StaysInside [str "srv"] (str "/css/../a.html") ∧
      ∀ path ∈ paths (buildHttpResponse (oneFile (str "./wwwroot/a.html") ⟨0x81A4, 5, by decide⟩)
        (getRequest (str "/css/../a.html?x=/../.."))).2, Below [str "srv"] path := by
  have hstays : StaysInside [str "srv"] (str "/css/../a.html") := by decide
  refine ⟨hstays, ?_⟩
  exact (buildHttpResponse_confined_iff _ [str "srv"] (getRequest (str "/css/../a.html?x=/../.."))
    (Or.inl rfl)).mpr hstays

/-- `GET /../main.cpp` reads the source beside the resource root. -/
theorem buildHttpResponse_leaves :
    Sys.openRdonly (str "./wwwroot/../main.cpp") (some 7) ∈
        (buildHttpResponse (oneFile (str "./wwwroot/../main.cpp") ⟨0x81A4, 5, by decide⟩)
          (getRequest (str "/../main.cpp"))).2 ∧
      locate 47 46 [str "srv"] (str "./wwwroot/../main.cpp") = [str "srv", str "main.cpp"] ∧
      ¬ ∀ path ∈ paths (buildHttpResponse
          (oneFile (str "./wwwroot/../main.cpp") ⟨0x81A4, 5, by decide⟩)
          (getRequest (str "/../main.cpp"))).2, Below [str "srv"] path := by
  have hm : (getRequest (str "/../main.cpp")).request.method = methodGet := rfl
  have hlook : (lookUp (oneFile (str "./wwwroot/../main.cpp") ⟨0x81A4, 5, by decide⟩)
      (rootPath (splitUri (getRequest (str "/../main.cpp")).request))).1 =
      some { HttpRequest.new 5 with
        method := methodGet
        uri := str "/../main.cpp"
        path := str "./wwwroot/../main.cpp" } := by
    rw [splitUri_get hm]
    decide
  have hmem : Sys.openRdonly (str "./wwwroot/../main.cpp") (some 7) ∈
      (buildHttpResponse (oneFile (str "./wwwroot/../main.cpp") ⟨0x81A4, 5, by decide⟩)
        (getRequest (str "/../main.cpp"))).2 := by
    rw [buildHttpResponse_found (Or.inl hm) hlook]
    simp only [List.mem_append]
    exact Or.inl (Or.inr (by decide))
  have hout : ¬ Below [str "srv"] (str "./wwwroot/../main.cpp") := by
    unfold Below
    decide
  refine ⟨hmem, by decide, fun h => hout (h _ ?_)⟩
  exact List.mem_filterMap.mpr ⟨_, hmem, rfl⟩

end MinHttp

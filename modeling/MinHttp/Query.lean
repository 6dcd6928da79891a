import MinHttp.Exchange
import MinHttp.Lib.Cut

/-! The environment that `ProcessCIG` gives to a program, and comm.hpp:
`GetQueryString`, as the first part of any program that calls it. -/
namespace MinHttp

open Lib.Numerals (signed)

abbrev Env := Bytes → Option Bytes

/-- `putenv`: the string is cut at its first NUL and then at its first `=`, and
without one it removes a variable. -/
def putenv (env : Env) (string : Bytes) : Env :=
  match (cstr string).dropInfix? (str "=") with
  | some (name, value) => fun n => if n = name then some value else env n
  | none => fun n => if n = cstr string then none else env n

/-- Lines 309 to 329, in the child. -/
def childEnv (inherited : Env) (r : HttpRequest) : Env :=
  let env := putenv inherited (str "METHOD=" ++ r.method)
  if methodGet = r.method then putenv env (str "QUERY_STRING=" ++ r.queryString)
  else if r.method = methodPost then
    putenv env (str "CONTENT_LENGTH=" ++ toString r.contentLength)
  else env

/-- The server decides the value, whatever it inherited itself. -/
def SetByServer (r : HttpRequest) (name : Bytes) : Prop :=
  ∃ value, ∀ inherited, childEnv inherited r name = some value

/-- A program around its call of `GetQueryString`: what it writes before, and
how it goes on with the result. -/
structure CgiMain (κ : Type) where
  start : κ
  before : κ → Option (Bytes × (Nat → κ))
  after : Bool → Bytes → κ
  act : κ → Act κ

/-- `looked` lists the names whose `getenv` has been dereferenced; one that is
not set ends the program by a signal. -/
inductive Caller (κ : Type)
  | before (bytes : Bytes) (wrote : Nat → κ)
  | loop (contentLength : Int) (c : Byte) (queryString : Bytes) (looked : List Bytes)
  | back (result : Bool) (queryString : Bytes) (looked : List Bytes) (k : κ)
  | crashed

def Act.map {κ κ' : Type} (f : κ → κ') : Act κ → Act κ'
  | .read asked got => .read asked fun bytes => f (got bytes)
  | .write bytes wrote => .write bytes fun n => f (wrote n)
  | .closeIn next => .closeIn (f next)
  | .closeOut next => .closeOut (f next)
  | .exit status => .exit status
  | .abort => .abort

theorem Act.map_all {κ κ' : Type} {f : κ → κ'} {p : κ' → Prop} (h : ∀ k, p (f k)) (act : Act κ) :
    (act.map f).All p := by
  cases act with
  | read asked got => exact fun bytes => h (got bytes)
  | write bytes wrote => exact fun n => h (wrote n)
  | closeIn next | closeOut next => exact h next
  | exit | abort => trivial

section
variable {κ : Type} (env : Env) (m : CgiMain κ)

/-- `while (content_length)`, at its test. -/
def whileContentLength (contentLength : Int) (c : Byte) (queryString : Bytes)
    (looked : List Bytes) : Caller κ :=
  if contentLength = 0 then .back true queryString looked (m.after true queryString)
  else .loop contentLength c queryString looked

/-- Up to the first call of `read`, on an empty `query_string`. -/
def getQueryString : Caller κ :=
  match env (str "METHOD") with
  | none => .crashed
  | some method =>
    if method = methodGet then
      match env (str "QUERY_STRING") with
      | none => .crashed
      | some query => .back true query [str "METHOD", str "QUERY_STRING"] (m.after true query)
    else if method = methodPost then
      match env (str "CONTENT_LENGTH") with
      | none => .crashed
      | some length =>
        whileContentLength m (atoi length) 0 [] [str "METHOD", str "CONTENT_LENGTH"]
    else .back false [] [str "METHOD"] (m.after false [])

/-- To the next write before the call, or into the call. -/
def comesTo (k : κ) : Caller κ :=
  match m.before k with
  | some (bytes, wrote) => .before bytes wrote
  | none => getQueryString env m

/-- The byte pushed is the last one that was read, whatever `read` returned. -/
def caller : Program (Caller κ) where
  start := comesTo env m m.start
  act
    | .before bytes wrote => .write bytes fun n => comesTo env m (wrote n)
    | .loop contentLength c queryString looked =>
      .read 1 fun got =>
        whileContentLength m (signed 32 (contentLength - 1)) (got.headD c)
          (queryString ++ [got.headD c]) looked
    | .back result queryString looked k => (m.act k).map (.back result queryString looked)
    | .crashed => .abort

end

/-- A variable set by a string without NUL and with the `=` behind its name. -/
theorem putenv_name (env : Env) (name : Bytes) {value : Bytes} (heq : 61 ∉ name)
    (hname : NUL ∉ name) (hvalue : NUL ∉ value) (n : Bytes) :
    putenv env (name ++ ([61] ++ value)) n = if n = name then some value else env n := by
  have hnul : NUL ∉ name ++ ([61] ++ value) := by
    simp only [List.mem_append, List.mem_singleton, not_or]
    exact ⟨hname, by decide, hvalue⟩
  rw [putenv, cstr_eq_self hnul, show str "=" = [61] from rfl, Lib.Cut.dropInfix?_single heq]

section
variable {r : HttpRequest} (inherited : Env)

theorem putenv_method (hm : NUL ∉ r.method) :
    putenv inherited (str "METHOD=" ++ r.method) (str "METHOD") = some r.method := by
  refine (putenv_name inherited (str "METHOD") ?_ ?_ hm _).trans (if_pos rfl) <;> decide

/-- The method is set first, and one more variable after it. -/
theorem putenv_two {name value : Bytes} (heq : 61 ∉ name) (hname : NUL ∉ name)
    (hvalue : NUL ∉ value) (hne : str "METHOD" ≠ name) (hm : NUL ∉ r.method) {env : Env}
    (henv : env =
      putenv (putenv inherited (str "METHOD=" ++ r.method)) (name ++ ([61] ++ value))) :
    env (str "METHOD") = some r.method ∧ env name = some value := by
  subst henv
  constructor
  · rw [putenv_name _ name heq hname hvalue, if_neg hne, putenv_method inherited hm]
  · rw [putenv_name _ name heq hname hvalue, if_pos rfl]

theorem childEnv_get (hm : r.method = methodGet) (hq : NUL ∉ r.queryString) :
    childEnv inherited r (str "METHOD") = some methodGet ∧
      childEnv inherited r (str "QUERY_STRING") = some r.queryString := by
  rw [← hm]
  apply putenv_two inherited (by decide) (by decide) hq (by decide) (by rw [hm]; decide)
  rw [childEnv, if_pos hm.symm]
  rfl

theorem childEnv_post (hm : r.method = methodPost) {n : Nat} (hn : r.contentLength = n) :
    childEnv inherited r (str "METHOD") = some methodPost ∧
      childEnv inherited r (str "CONTENT_LENGTH") = some (Lib.Numerals.decimal n) := by
  have hget : methodGet ≠ r.method := by
    rw [hm]
    decide
  rw [← hm]
  apply putenv_two inherited (by decide) (by decide) (NUL_notMem_decimal n) (by decide)
    (by rw [hm]; decide)
  rw [childEnv, if_neg hget, if_pos hm, hn, toString_natCast]
  rfl

theorem setByServer_get (hm : r.method = methodGet) (hq : NUL ∉ r.queryString) :
    ∀ name ∈ [str "METHOD", str "QUERY_STRING"], SetByServer r name := by
  intro name hname
  rcases List.mem_pair.mp hname with rfl | rfl
  · exact ⟨_, fun env => (childEnv_get env hm hq).1⟩
  · exact ⟨_, fun env => (childEnv_get env hm hq).2⟩

theorem setByServer_post (hm : r.method = methodPost) {n : Nat} (hn : r.contentLength = n) :
    ∀ name ∈ [str "METHOD", str "CONTENT_LENGTH"], SetByServer r name := by
  intro name hname
  rcases List.mem_pair.mp hname with rfl | rfl
  · exact ⟨_, fun env => (childEnv_post env hm hn).1⟩
  · exact ⟨_, fun env => (childEnv_post env hm hn).2⟩

variable {κ : Type} (m : CgiMain κ)

/-- A GET is answered from the environment alone. -/
theorem getQueryString_get (hm : r.method = methodGet) (hq : NUL ∉ r.queryString) :
    getQueryString (childEnv inherited r) m =
      .back true r.queryString [str "METHOD", str "QUERY_STRING"] (m.after true r.queryString) := by
  obtain ⟨hmethod, hquery⟩ := childEnv_get inherited hm hq
  simp only [getQueryString, hmethod, if_true, hquery]

theorem getQueryString_post (hm : r.method = methodPost) {n : Nat} (hn : r.contentLength = n)
    (hlt : n < 2 ^ 31) :
    getQueryString (childEnv inherited r) m =
      whileContentLength m n 0 [] [str "METHOD", str "CONTENT_LENGTH"] := by
  obtain ⟨hmethod, hlength⟩ := childEnv_post inherited hm hn
  have hne : methodPost ≠ methodGet := by decide
  simp only [getQueryString, hmethod, if_neg hne, if_true, hlength, atoi_decimal hlt]

end

end MinHttp

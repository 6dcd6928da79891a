import MinHttp.Exchange

/-! What an exchange leaves behind is what `processCIG` is given of it, and
when its OK means that the whole output is there. -/
namespace MinHttp

open Lib.Runs
open Lib (Pipe)

variable {κ : Type} {σ : CgiSetup} {P : Program κ}

/-- A step of an exchange in which calls may fail. -/
def AnyStep (σ : CgiSetup) (P : Program κ) (s t : Exchange κ) : Prop := ∃ e, FaultStep σ P e s t

/-- Before the read loop nothing is received, and a code comes from the call
that failed or from `waitpid`. -/
def Answers (s : Exchange κ) : Prop :=
  match s.parent with
  | .calling | .writing _ => s.respBody = []
  | .reading | .waiting => True
  | .returned code =>
    (code = serverError ∨ code = 404) ∧ s.respBody = [] ∨ ∃ r, code = waitCode OK r

theorem parentStep_answers {s t : Exchange κ} (h : ParentStep σ P s t) (hs : Answers s) :
    Answers t := by
  cases h with
  | fork pc =>
    have hbody : s.respBody = [] := by simpa only [Answers, pc] using hs
    by_cases hm : σ.method = methodPost <;> simp [Answers, hm, hbody]
  | write total n pc more accepted =>
    have hbody : s.respBody = [] := by simpa only [Answers, pc] using hs
    exact hbody
  | writeNothing | writeBroken | written | eof => trivial
  | read ch rest pc there => simp only [Answers, pc]
  | wait status pc ended => exact Or.inr ⟨_, rfl⟩

theorem anyStep_answers : Preserved (AnyStep σ P) Answers := by
  rintro s t ⟨e, h⟩ hs
  cases h with
  | none step =>
    cases step with
    | parent step => exact parentStep_answers step hs
    | child step =>
      obtain ⟨hp, hb⟩ := childStep_parent step
      rw [Answers, hp, hb]
      exact hs
  | killed => exact hs
  | pipe _ pc =>
    have hbody : s.respBody = [] := by simpa only [Answers, pc] using hs
    exact Or.inl ⟨Or.inl rfl, hbody⟩
  | fork _ pc =>
    have hbody : s.respBody = [] := by simpa only [Answers, pc] using hs
    exact Or.inl ⟨Or.inr rfl, hbody⟩
  | write | read => trivial
  | wait => exact Or.inr ⟨_, rfl⟩

/-- Every answer of `waitpid` is that of some child. -/
theorem exists_wait (received : Bytes) (r : WaitResult) :
    ∃ ended waited,
      (CgiRun.mk (some (3, 4)) (some (5, 6)) true received ended waited).wait = r := by
  cases r with
  | failed => exact ⟨none, false, rfl⟩
  | exited status => exact ⟨some status, true, rfl⟩
  | signaled => exact ⟨none, true, rfl⟩

/-- Every exchange that has returned is one that `processCIG` may be given,
with the same code and the same body. -/
theorem returned_processCIG {s : Exchange κ} {code : Int}
    (h : Reachable (AnyStep σ P) .initial s) (hc : s.parent = .returned code) :
    ∃ run : CgiRun, ∀ (w : World) (ep : EndPoint),
      (processCIG { w with cgi := run } ep).1 = code ∧
        (processCIG { w with cgi := run } ep).2.1 =
          { ep with response := { ep.response with
              respBody := ep.response.respBody ++ s.respBody } } := by
  have hs : Answers s := anyStep_answers.reachable h rfl
  rw [Answers, hc] at hs
  rcases hs with ⟨hcode, hbody⟩ | ⟨r, rfl⟩
  · rcases hcode with rfl | rfl
    · exact ⟨⟨none, none, false, [], some 0, false⟩, fun w ep => ⟨rfl, by simp [hbody, processCIG]⟩⟩
    · exact ⟨⟨some (3, 4), some (5, 6), false, [], some 0, false⟩,
        fun w ep => ⟨rfl, by simp [hbody, processCIG]⟩⟩
  · obtain ⟨ended, waited, hwait⟩ := exists_wait s.respBody r
    refine ⟨⟨some (3, 4), some (5, 6), true, s.respBody, ended, waited⟩, fun w ep => ⟨?_, rfl⟩⟩
    exact congrArg (waitCode OK) hwait

/-- The child has ended with another status than 0, or by a signal. -/
def Exchange.ChildFailed (s : Exchange κ) : Prop := ∃ status ≠ some 0, s.child = .ended status

/-- A failing call that changes nothing: a read where there is nothing more to
read or the child has failed anyway, and a `waitpid` for a child that has
ended well. -/
def Harmless : Fault → Exchange κ → Prop
  | .read, s => s.input.Ended ∨ s.ChildFailed
  | .wait, s => s.child = .ended (some 0)
  | _, _ => True

def HarmlessStep (σ : CgiSetup) (P : Program κ) (s t : Exchange κ) : Prop :=
  ∃ e, FaultStep σ P e s t ∧ Harmless e s

/-- What the parent knows where it is. -/
def Exchange.Known (s : Exchange κ) : Prop :=
  match s.parent with
  | .waiting => s.input.Ended ∨ s.ChildFailed
  | .returned code => code = OK → s.child = .ended (some 0) ∧ s.input.content = []
  | _ => True

structure Complete (s : Exchange κ) : Prop where
  order : s.written = s.respBody ++ s.input.content
  closed : ∀ status, s.child = .ended status → s.input.writer = false
  known : s.Known

theorem waitCode_ok {status : Option UInt8} (h : waitCode OK (waitResult status) = OK) :
    status = some 0 := by
  cases status with
  | none => cases h
  | some status =>
    by_cases hs : status = 0
    · rw [hs]
    · simp only [waitResult, waitCode, if_neg hs] at h
      cases h

theorem parentStep_complete {s t : Exchange κ} (h : ParentStep σ P s t) (hs : Complete s) :
    Complete t := by
  obtain ⟨order, closed, known⟩ := hs
  cases h with
  | fork pc =>
    refine ⟨order, fun _ hc => (by cases hc), ?_⟩
    by_cases hm : σ.method = methodPost <;> simp [Exchange.Known, hm]
  | write | writeNothing | writeBroken | written => exact ⟨order, closed, trivial⟩
  | read ch rest pc there =>
    refine ⟨?_, closed, by simp only [Exchange.Known, pc]⟩
    simp [order, there]
  | eof pc ended => exact ⟨order, closed, Or.inl ended⟩
  | wait status pc ended =>
    have hknown : s.input.Ended ∨ s.ChildFailed := by simpa only [Exchange.Known, pc] using known
    refine ⟨order, fun _ _ => closed status ended, fun hok => ?_⟩
    obtain rfl := waitCode_ok hok
    rcases hknown with hended | ⟨other, hne, hother⟩
    · exact ⟨ended, hended.empty⟩
    · cases ended.symm.trans hother
      exact absurd rfl hne

/-- The child's steps do not touch what the parent knows: nothing comes into a
pipe that has ended, and a parent that has returned OK has seen the child end. -/
theorem Exchange.Known.child {s t : Exchange κ} (h : s.Known) {k : κ} (hk : s.child = .running k)
    (hp : t.parent = s.parent) (hended : s.input.Ended → t.input.Ended) : t.Known := by
  unfold Exchange.Known at h ⊢
  rw [hp]
  cases hc : s.parent with
  | waiting =>
    rw [hc] at h
    rcases h with h | ⟨status, -, hs⟩
    · exact Or.inl (hended h)
    · cases hk.symm.trans hs
  | returned code =>
    rw [hc] at h
    intro hok
    cases hk.symm.trans (h hok).1
  | calling | writing | reading => trivial

theorem childStep_complete {s t : Exchange κ} (h : ChildStep σ P s t) (hs : Complete s) :
    Complete t := by
  obtain ⟨order, closed, known⟩ := hs
  cases h with
  | read k asked n got pc | readNone k asked got pc =>
    exact ⟨order, fun _ hc => (by cases hc), known.child pc rfl id⟩
  | write k bytes n wrote pc act open_ accepted =>
    refine ⟨by simp [order], fun _ hc => (by cases hc), known.child pc rfl fun hended => ?_⟩
    rw [hended.closed] at open_
    cases open_
  | writeNone k bytes wrote pc => exact ⟨order, fun _ hc => (by cases hc), known.child pc rfl id⟩
  | closeIn k next pc => exact ⟨order, fun _ hc => (by cases hc), known.child pc rfl id⟩
  | closeOut k next pc =>
    exact ⟨order, fun _ hc => (by cases hc), known.child pc rfl fun hended => ⟨hended.empty, rfl⟩⟩
  | exit k status pc | abort k pc =>
    exact ⟨order, fun _ _ => rfl, known.child pc rfl fun hended => ⟨hended.empty, rfl⟩⟩

theorem harmlessStep_complete : Preserved (HarmlessStep σ P) Complete := by
  rintro s t ⟨e, h, harmless⟩ hs
  obtain ⟨order, closed, known⟩ := hs
  cases h with
  | none step =>
    cases step with
    | parent step => exact parentStep_complete step ⟨order, closed, known⟩
    | child step => exact childStep_complete step ⟨order, closed, known⟩
  | killed _ k pc =>
    exact ⟨order, fun _ _ => rfl, known.child pc rfl fun hended => ⟨hended.empty, rfl⟩⟩
  | pipe | fork => exact ⟨order, closed, fun hok => by cases hok⟩
  | write => exact ⟨order, closed, trivial⟩
  | read => exact ⟨order, closed, harmless⟩
  | wait _ pc =>
    have hknown : s.input.Ended ∨ s.ChildFailed := by simpa only [Exchange.Known, pc] using known
    refine ⟨order, closed, fun _ => ⟨harmless, ?_⟩⟩
    rcases hknown with hended | ⟨status, hne, hs⟩
    · exact hended.empty
    · cases hs.symm.trans harmless
      exact absurd rfl hne

theorem initial_complete : Complete (Exchange.initial : Exchange κ) :=
  ⟨rfl, fun _ hc => (by cases hc), trivial⟩

/-- **OK means all of it**, in a run in which no read and no `waitpid`
fails that still had something to say. -/
theorem ok_complete {s : Exchange κ} (h : Reachable (HarmlessStep σ P) .initial s)
    (hok : s.parent = .returned OK) : s.child = .ended (some 0) ∧ s.respBody = s.written := by
  have hs := harmlessStep_complete.reachable h initial_complete
  have hknown := hs.known
  rw [Exchange.Known, hok] at hknown
  obtain ⟨hend, hempty⟩ := hknown rfl
  refine ⟨hend, ?_⟩
  rw [hs.order, hempty, List.append_nil]

/-- A GET without a body, over pipes of 64 KiB. -/
def getSetup : CgiSetup := ⟨methodGet, [], 0, 65536⟩

def hello : Program (List Op) := script [.write (str "hi")] 0

/-- The run up to the child's end: it writes two bytes and exits with 0. -/
def helloEnded : Exchange (List Op) where
  parent := .reading
  child := .ended (some 0)
  input := ⟨str "hi", true, false⟩
  output := ⟨[], false, true⟩
  respBody := []
  written := str "hi"

theorem helloEnded_reachable :
    Reachable (ExchangeStep getSetup hello) .initial helloEnded := by
  have start : Reachable (ExchangeStep getSetup hello) .initial .initial := Reachable.start
  have written := (start.next (.parent (.fork _ rfl))).next
    (.child (.write _ [.write (str "hi")] (str "hi") 2 _ rfl rfl rfl
      ⟨rfl, by decide, by decide, by decide⟩))
  exact written.next (.child (.exit _ [] 0 rfl rfl))

theorem ok_complete_hello :
    ∃ s, Reachable (HarmlessStep getSetup hello) .initial s ∧ s.parent = .returned OK ∧
      s.respBody = str "hi" ∧ s.child = .ended (some 0) ∧ s.respBody = s.written := by
  have harmless {s t : Exchange (List Op)} (h : ParentStep getSetup hello s t) :
      HarmlessStep getSetup hello s t := ⟨.none, .none (.parent h), trivial⟩
  have start : Reachable (HarmlessStep getSetup hello) .initial helloEnded :=
    helloEnded_reachable.mono fun _ _ h => ⟨.none, .none h, trivial⟩
  have read := (start.next (harmless (.read _ 104 [105] rfl rfl))).next
    (harmless (.read _ 105 [] rfl rfl))
  have returned := (read.next (harmless (.eof _ rfl ⟨rfl, rfl⟩))).next
    (harmless (.wait _ (some 0) rfl rfl))
  exact ⟨_, returned, rfl, rfl, ok_complete returned rfl⟩

/-- The first read fails, and the answer is OK with an empty body. -/
theorem ok_truncated :
    ∃ s, Reachable (AnyStep getSetup hello) .initial s ∧ s.parent = .returned OK ∧
      s.child = .ended (some 0) ∧ s.respBody = [] ∧ s.written = str "hi" ∧
      s.respBody ≠ s.written := by
  have start : Reachable (AnyStep getSetup hello) .initial helloEnded :=
    helloEnded_reachable.mono fun _ _ h => ⟨.none, .none h⟩
  have returned := (start.next ⟨.read, .read _ rfl⟩).next
    ⟨.none, .none (.parent (.wait _ (some 0) rfl rfl))⟩
  exact ⟨_, returned, rfl, rfl, rfl, rfl, by decide⟩

end MinHttp

import MinHttp.Callers
import MinHttp.Hangs

/-! The pool with the exchange that each of its workers is in, and what
programs that wait for the end of their input do to it. -/
namespace MinHttp

open Lib.Runs

variable {ω π τ κ : Type}

/-- The exchange of a worker that is in none is the one it would begin. -/
structure Programs (ω π τ κ : Type) where
  pool : Pool ω π τ
  exchange : ω → Exchange κ

def Programs.initial : Programs ω π τ κ := ⟨.initial, fun _ => .initial⟩

/-- A task of which `program` has something comes to its end when `ProcessCIG`
has returned, and any other whenever it likes. No exchange has a part in
another's pipes. -/
inductive ProgramsStep [DecidableEq ω] [DecidableEq π]
    (program : τ → Option (CgiSetup × Program κ)) :
    Programs ω π τ κ → Programs ω π τ κ → Prop
  | pool (s) (pool : Pool ω π τ) (step : PoolStep s.pool pool)
      (handling : ∀ w task, s.pool.worker w = .processOn task →
        pool.worker w = .processOn task) :
      ProgramsStep program s { s with pool := pool }
  | exchange (s) (w : ω) (task : τ) (σ : CgiSetup) (P : Program κ) (e : Exchange κ)
      (pc : s.pool.worker w = .processOn task) (reached : program task = some (σ, P))
      (step : ExchangeStep σ P (s.exchange w) e) :
      ProgramsStep program s { s with exchange := Function.update s.exchange w e }
  | processOn (s) (w : ω) (task : τ) (pool : Pool ω π τ) (pc : s.pool.worker w = .processOn task)
      (returned : ∀ σ P, program task = some (σ, P) →
        ∃ code, (s.exchange w).parent = .returned code)
      (step : WorkerStep w s.pool pool) :
      ProgramsStep program s ⟨pool, Function.update s.exchange w .initial⟩

/-- `ProcessCIG` does not return, however the two sides run. -/
def NeverReturns (σ : CgiSetup) (P : Program κ) : Prop :=
  ∀ s, Reachable (ExchangeStep σ P) .initial s → ∀ code, s.parent ≠ .returned code

theorem readsToEnd_neverReturns {σ : CgiSetup} {P : Program κ} {I : κ → Prop}
    (hP : ReadsToEnd P I) : NeverReturns σ P := by
  intro s h
  obtain ⟨hregular, hwaits⟩ := reachable_waits hP h
  exact waits_not_returned hregular hwaits

/-- Beside its place in the loop a worker has `init` out of a task, and in one
what `I` asks of it. -/
structure WorkerPc.Has {α : Type} (init : α) (I : τ → α → Prop) (pc : WorkerPc τ) (a : α) :
    Prop where
  idle : (∀ task, pc ≠ .processOn task) → a = init
  handles : ∀ task, pc = .processOn task → I task a

section
variable {α : Type} {init : α} {I : τ → α → Prop} {s t : Pool ω π τ} {a : ω → α}

/-- A task is taken up with `init`, -/
theorem poolStep_has [DecidableEq ω] [DecidableEq π] (hinit : ∀ task, I task init)
    (h : PoolStep s t)
    (handling : ∀ w task, s.worker w = .processOn task → t.worker w = .processOn task)
    (hs : ∀ w, (s.worker w).Has init I (a w)) (w : ω) : (t.worker w).Has init I (a w) := by
  refine ⟨fun hout => (hs w).idle fun task pc => hout task (handling w task pc), fun task hw => ?_⟩
  rcases poolStep_processOn h hw with pc | pc
  · exact (hs w).handles task pc
  · have hfresh : a w = init := (hs w).idle fun task' pc' => by cases pc.symm.trans pc'
    rw [hfresh]
    exact hinit task

variable [DecidableEq ω]

/-- goes on for its worker alone, -/
theorem has_update {w : ω} {task : τ} {b : α} (pc : s.worker w = .processOn task) (hb : I task b)
    (hs : ∀ v, (s.worker v).Has init I (a v)) (v : ω) :
    (s.worker v).Has init I (Function.update a w b v) := by
  by_cases hvw : v = w
  · subst v
    rw [Function.update_self]
    refine ⟨fun hout => absurd pc (hout task), fun task' pc' => ?_⟩
    cases pc.symm.trans pc'
    exact hb
  · rw [Function.update_of_ne hvw]
    exact hs v

/-- and leaves `init` behind. -/
theorem processOn_has {w : ω} {task : τ} (step : WorkerStep w s t)
    (pc : s.worker w = .processOn task) (hs : ∀ v, (s.worker v).Has init I (a v)) (v : ω) :
    (t.worker v).Has init I (Function.update a w init v) := by
  rw [processOn_worker step pc]
  by_cases hvw : v = w
  · subst v
    rw [Function.update_self, Function.update_self]
    exact ⟨fun _ => rfl, fun task' pc' => by cases pc'⟩
  · rw [Function.update_of_ne hvw, Function.update_of_ne hvw]
    exact hs v

end

/-- The exchange of each worker is one of its task's program. -/
structure Programs.Running (program : τ → Option (CgiSetup × Program κ))
    (s : Programs ω π τ κ) : Prop where
  idle : ∀ w, (∀ task, s.pool.worker w ≠ .processOn task) → s.exchange w = .initial
  runs : ∀ w task σ P, s.pool.worker w = .processOn task → program task = some (σ, P) →
    Reachable (ExchangeStep σ P) .initial (s.exchange w)

theorem initial_running (program : τ → Option (CgiSetup × Program κ)) :
    (Programs.initial : Programs ω π τ κ).Running program :=
  ⟨fun _ _ => rfl, fun _ _ _ _ h => (by cases h)⟩

section
variable [DecidableEq ω] [DecidableEq π] {program : τ → Option (CgiSetup × Program κ)}

omit [DecidableEq ω] [DecidableEq π] in
theorem Programs.running_iff {s : Programs ω π τ κ} : s.Running program ↔
    ∀ w, (s.pool.worker w).Has .initial
      (fun task e => ∀ σ P, program task = some (σ, P) → Reachable (ExchangeStep σ P) .initial e)
      (s.exchange w) := by
  constructor
  · exact fun h w => ⟨h.idle w, fun task pc σ P => h.runs w task σ P pc⟩
  · exact fun h => ⟨fun w => (h w).idle, fun w task σ P pc => (h w).handles task pc σ P⟩

theorem programsStep_running :
    Preserved (ProgramsStep (ω := ω) (π := π) program) (Programs.Running program) := by
  intro s t h hs
  have hhas := Programs.running_iff.mp hs
  refine Programs.running_iff.mpr fun v => ?_
  cases h with
  | pool pool step handling =>
    exact poolStep_has (fun _ _ _ _ => Reachable.start) step handling hhas v
  | exchange w task σ P e pc reached step =>
    refine has_update pc (fun σ' P' hprogram => ?_) hhas v
    cases reached.symm.trans hprogram
    exact (hs.runs w task σ P pc reached).next step
  | processOn w task pool pc returned step =>
    exact processOn_has step pc hhas v

variable {hangs : τ → Prop}

/-- Without its exchanges, this is a pool in which such requests hang. -/
theorem programsStep_hangs
    (hnever : ∀ task, hangs task → ∃ σ P, program task = some (σ, P) ∧ NeverReturns σ P)
    {s t : Programs ω π τ κ} (h : ProgramsStep program s t) (hs : s.Running program) :
    t.pool = s.pool ∨ HangStep hangs s.pool t.pool := by
  cases h with
  | pool pool step handling => exact Or.inr ⟨step, fun w task _ hw => handling w task hw⟩
  | exchange => exact Or.inl rfl
  | processOn w task pool pc returned step =>
    refine Or.inr ⟨.worker w step, fun v other hother hv => ?_⟩
    refine workerStep_handling step (fun hpc => ?_) hv
    cases pc.symm.trans hpc
    obtain ⟨σ, P, hprogram, hP⟩ := hnever task hother
    obtain ⟨code, hcode⟩ := returned σ P hprogram
    exact hP _ (hs.runs w task σ P pc hprogram) code hcode

theorem reachable_programs_hangs
    (hnever : ∀ task, hangs task → ∃ σ P, program task = some (σ, P) ∧ NeverReturns σ P)
    {s t : Programs ω π τ κ} (h : Reachable (ProgramsStep program) s t)
    (hs : s.Running program) : Reachable (HangStep hangs) s.pool t.pool :=
  h.project programsStep_running (fun _ _ => programsStep_hangs hnever) hs

/-- **As many requests for programs that wait for the end of their input as
there are workers stop the server**: none of them is ever done with, no more of
them are taken than there are workers, and after that many no request of any
kind is taken, whatever comes in. -/
theorem readsToEnd_stops [Fintype ω] (hangs : τ → Prop) [DecidablePred hangs]
    (hends : ∀ task, hangs task → ∃ σ P I, program task = some (σ, P) ∧ ReadsToEnd P I)
    {s : Programs ω π τ κ} (h : Reachable (ProgramsStep program) .initial s) :
    (∀ task ∈ s.pool.processed.map Prod.snd, ¬ hangs task) ∧
      (s.pool.popped.map Prod.snd).countP (hangs ·) ≤ Fintype.card ω ∧
      (Fintype.card ω ≤ (s.pool.popped.map Prod.snd).countP (hangs ·) →
        ∀ t, Reachable (ProgramsStep program) s t →
          t.pool.popped = s.pool.popped ∧ t.pool.processed = s.pool.processed) := by
  have hnever (task : τ) (htask : hangs task) :
      ∃ σ P, program task = some (σ, P) ∧ NeverReturns σ P := by
    obtain ⟨σ, P, I, hprogram, hP⟩ := hends task htask
    exact ⟨σ, P, hprogram, readsToEnd_neverReturns hP⟩
  have hpool : Reachable (HangStep hangs) .initial s.pool :=
    reachable_programs_hangs hnever h (initial_running program)
  obtain ⟨hmost, hstopped⟩ := reachable_hangStep_taken hpool
  refine ⟨reachable_hangStep_processed hpool, hmost, fun hmany t ht => ?_⟩
  have hrunning := programsStep_running.reachable h (initial_running program)
  exact reachable_stopped (reachable_programs_hangs hnever ht hrunning) (hstopped hmany)

end

/-- The first request, with the only worker yet to take the mutex. -/
theorem reachable_pushed (program : Nat → Option (CgiSetup × Program κ)) :
    ∃ s : Programs Unit Unit Nat κ, Reachable (ProgramsStep program) .initial s ∧
      s.pool.worker () = .lock ∧ s.pool.lock = none ∧ s.pool.taskQueue = [5] ∧
      s.pool.popped = [] ∧ s.pool.processed = [] := by
  have start : Reachable (ProgramsStep program) (.initial : Programs Unit Unit Nat κ) .initial :=
    Reachable.start
  have called := start.next (.pool _ _ (.producer () (.call _ 5 rfl)) fun _ _ h => (by cases h))
  have locked := called.next
    (.pool _ _ (.producer () (.lock _ 5 rfl rfl)) fun _ _ h => (by cases h))
  have pushed := locked.next (.pool _ _ (.producer () (.push _ 5 rfl)) fun _ _ h => (by cases h))
  have released := pushed.next (.pool _ _ (.producer () (.unLock _ rfl)) fun _ _ h => (by cases h))
  exact ⟨_, released, rfl, rfl, rfl, rfl, rfl⟩

/-- The only worker takes a request for `cat`. -/
theorem readsToEnd_stops_cat : ∃ s : Programs Unit Unit Nat (Option Bytes),
    s.pool.popped = [((), 5)] ∧
      ∀ t, Reachable (ProgramsStep fun _ => some (postSetup 1, cat)) s t →
        t.pool.popped = [((), 5)] ∧ t.pool.processed = [] := by
  obtain ⟨s, released, hw, hfree, hqueue, hpopped, hprocessed⟩ :=
    reachable_pushed fun _ : Nat => some (postSetup 1, cat)
  have hout (task : Nat) : s.pool.worker () ≠ .processOn task := by simp [hw]
  have taken := released.next (.pool _ _ (.worker () (.lock _ hw hfree))
    fun _ task h => absurd h (hout task))
  have tested := taken.next (.pool _ _ (.worker () (.testTask _ false rfl fun h => by
    cases hqueue.symm.trans h)) fun _ _ h => (by cases h))
  have popped := tested.next (.pool _ _ (.worker () (.popTask _ 5 [] rfl hqueue))
    fun _ _ h => (by cases h))
  obtain ⟨u, hu, htaken, hnone⟩ : ∃ u : Programs Unit Unit Nat (Option Bytes),
      Reachable (ProgramsStep fun _ => some (postSetup 1, cat)) .initial u ∧
        u.pool.popped = [((), 5)] ∧ u.pool.processed = [] :=
    ⟨_, popped, congrArg (· ++ [((), 5)]) hpopped, hprocessed⟩
  obtain ⟨-, -, hstop⟩ := readsToEnd_stops (fun _ => True)
    (fun _ _ => ⟨_, _, _, rfl, cat_readsToEnd⟩) hu
  rw [htaken, hnone] at hstop
  exact ⟨u, htaken, hstop (by decide)⟩

end MinHttp

import MinHttp.Lib.Dispatch

/-! ThreadPool.hpp: any number of workers in `ThreadRoutine` and of producers
in `PushTask`, around one mutex, one condition variable and the task queue.
A step is one call on the mutex, the condition variable or the queue. Taking
the front of an empty queue is undefined, so there a worker has no step. -/
namespace MinHttp

open Lib.Runs
open Lib.Dispatch (of)

/-- Where a thread is in `ThreadRoutine`. A worker in `ThreadWait` is `blocked`
until it is woken, and then waits for the mutex; `test` keeps whether the
worker comes from there. -/
inductive WorkerPc (τ : Type)
  | lock
  | test (woken : Bool)
  | wait
  | blocked
  | woken
  | popTask
  | unLock (task : τ)
  | processOn (task : τ)

/-- Where a thread is in `PushTask`. -/
inductive ProducerPc (τ : Type)
  | idle
  | lock (task : τ)
  | push (task : τ)
  | unLock
  | wakeup

/-- `pushed`, `popped` and `processed` are histories no thread reads. -/
structure Pool (ω π τ : Type) where
  lock : Option (ω ⊕ π)
  taskQueue : List τ
  worker : ω → WorkerPc τ
  producer : π → ProducerPc τ
  pushed : List τ
  popped : List (ω × τ)
  processed : List (ω × τ)

variable {ω π τ : Type}

def Pool.initial : Pool ω π τ := ⟨none, [], fun _ => .lock, fun _ => .idle, [], [], []⟩

/-- What a signal or a spurious wakeup does to a worker it reaches. -/
def WorkerPc.wake (reached : Bool) : WorkerPc τ → WorkerPc τ
  | .blocked => if reached then .woken else .blocked
  | pc => pc

section
variable [DecidableEq ω]

def Pool.setWorker (s : Pool ω π τ) (w : ω) (pc : WorkerPc τ) : Pool ω π τ :=
  { s with worker := Function.update s.worker w pc }

/-- One step of one worker. -/
inductive WorkerStep (w : ω) : Pool ω π τ → Pool ω π τ → Prop
  | lock (s) (pc : s.worker w = .lock) (free : s.lock = none) :
      WorkerStep w s { s.setWorker w (.test false) with lock := some (.inl w) }
  | testEmpty (s) (b : Bool) (pc : s.worker w = .test b) (empty : s.taskQueue = []) :
      WorkerStep w s (s.setWorker w .wait)
  | testTask (s) (b : Bool) (pc : s.worker w = .test b) (some : s.taskQueue ≠ []) :
      WorkerStep w s (s.setWorker w .popTask)
  | wait (s) (pc : s.worker w = .wait) :
      WorkerStep w s { s.setWorker w .blocked with lock := none }
  | spurious (s) (pc : s.worker w = .blocked) : WorkerStep w s (s.setWorker w .woken)
  | relock (s) (pc : s.worker w = .woken) (free : s.lock = none) :
      WorkerStep w s { s.setWorker w (.test true) with lock := some (.inl w) }
  | popTask (s) (task : τ) (rest : List τ) (pc : s.worker w = .popTask)
      (front : s.taskQueue = task :: rest) :
      WorkerStep w s { s.setWorker w (.unLock task) with
        taskQueue := rest, popped := s.popped ++ [(w, task)] }
  | unLock (s) (task : τ) (pc : s.worker w = .unLock task) :
      WorkerStep w s { s.setWorker w (.processOn task) with lock := none }
  | processOn (s) (task : τ) (pc : s.worker w = .processOn task) :
      WorkerStep w s { s.setWorker w .lock with processed := s.processed ++ [(w, task)] }

end

section
variable [DecidableEq π]

def Pool.setProducer (s : Pool ω π τ) (p : π) (pc : ProducerPc τ) : Pool ω π τ :=
  { s with producer := Function.update s.producer p pc }

/-- One step of one producer. A signal reaches at least one of the blocked
workers if there are any. -/
inductive ProducerStep (p : π) : Pool ω π τ → Pool ω π τ → Prop
  | call (s) (task : τ) (pc : s.producer p = .idle) :
      ProducerStep p s (s.setProducer p (.lock task))
  | lock (s) (task : τ) (pc : s.producer p = .lock task) (free : s.lock = none) :
      ProducerStep p s { s.setProducer p (.push task) with lock := some (.inr p) }
  | push (s) (task : τ) (pc : s.producer p = .push task) :
      ProducerStep p s { s.setProducer p .unLock with
        taskQueue := s.taskQueue ++ [task], pushed := s.pushed ++ [task] }
  | unLock (s) (pc : s.producer p = .unLock) :
      ProducerStep p s { s.setProducer p .wakeup with lock := none }
  | wakeup (s) (reached : ω → Bool) (pc : s.producer p = .wakeup)
      (one : (∃ w, s.worker w = .blocked) → ∃ w, s.worker w = .blocked ∧ reached w) :
      ProducerStep p s { s.setProducer p .idle with
        worker := fun w => (s.worker w).wake (reached w) }

end

/-- Any thread may take the next step. -/
inductive PoolStep [DecidableEq ω] [DecidableEq π] : Pool ω π τ → Pool ω π τ → Prop
  | worker {s t} (w : ω) (step : WorkerStep w s t) : PoolStep s t
  | producer {s t} (p : π) (step : ProducerStep p s t) : PoolStep s t

/-- The task in a worker's hands. -/
def WorkerPc.held : WorkerPc τ → Option τ
  | .unLock task => some task
  | .processOn task => some task
  | _ => none

@[simp] theorem WorkerPc.held_wake (b : Bool) (pc : WorkerPc τ) : (pc.wake b).held = pc.held := by
  cases pc <;> cases b <;> rfl

def Pool.dispatch (s : Pool ω π τ) : Lib.Dispatch.State ω τ where
  queue := s.taskQueue
  held w := (s.worker w).held
  submitted := s.pushed
  taken := s.popped
  finished := s.processed

section
variable [DecidableEq ω]

theorem held_setWorker (s : Pool ω π τ) (w : ω) (pc : WorkerPc τ) :
    (fun v => ((s.setWorker w pc).worker v).held) =
      Function.update (fun v => (s.worker v).held) w pc.held := by
  funext v
  by_cases hv : v = w
  · subst v
    simp [Pool.setWorker]
  · simp [Pool.setWorker, hv]

/-- A step that leaves the worker's hands alone is none of the dispatcher's. -/
theorem dispatch_setWorker {s : Pool ω π τ} {w : ω} {pc : WorkerPc τ} (l : Option (ω ⊕ π))
    (h : (s.worker w).held = pc.held) :
    Pool.dispatch { s.setWorker w pc with lock := l } = s.dispatch := by
  have hheld := held_setWorker s w pc
  rw [← h, Function.update_eq_self] at hheld
  rw [Pool.dispatch, hheld]
  rfl

/-- A worker takes a task, finishes one, or does nothing the dispatcher sees. -/
theorem workerStep_dispatch {w : ω} {s t : Pool ω π τ} (h : WorkerStep w s t) :
    t.dispatch = s.dispatch ∨ Lib.Dispatch.Step s.dispatch t.dispatch := by
  cases h with
  | lock pc free => exact Or.inl (dispatch_setWorker _ (by rw [pc]; rfl))
  | testEmpty b pc empty => exact Or.inl (dispatch_setWorker _ (by rw [pc]; rfl))
  | testTask b pc some => exact Or.inl (dispatch_setWorker _ (by rw [pc]; rfl))
  | wait pc => exact Or.inl (dispatch_setWorker _ (by rw [pc]; rfl))
  | spurious pc => exact Or.inl (dispatch_setWorker _ (by rw [pc]; rfl))
  | relock pc free => exact Or.inl (dispatch_setWorker _ (by rw [pc]; rfl))
  | unLock task pc => exact Or.inl (dispatch_setWorker _ (by rw [pc]; rfl))
  | popTask task rest pc front =>
    refine Or.inr ?_
    rw [Pool.dispatch, Pool.dispatch, held_setWorker]
    exact .take s.dispatch w task rest (show (s.worker w).held = none by rw [pc]; rfl) front
  | processOn task pc =>
    refine Or.inr ?_
    rw [Pool.dispatch, Pool.dispatch, held_setWorker]
    exact .finish s.dispatch w task (show (s.worker w).held = some task by rw [pc]; rfl)

end

theorem producerStep_dispatch [DecidableEq ω] [DecidableEq π] {p : π} {s t : Pool ω π τ}
    (h : ProducerStep p s t) :
    t.dispatch = s.dispatch ∨ Lib.Dispatch.Step s.dispatch t.dispatch := by
  cases h with
  | push task pc => exact Or.inr (.submit s.dispatch task)
  | call | lock | unLock => exact Or.inl rfl
  | wakeup reached pc one =>
    refine Or.inl ?_
    simp only [Pool.dispatch, WorkerPc.held_wake]
    rfl

section
variable [DecidableEq ω] [DecidableEq π]

/-- The pool follows the dispatcher, whatever the scheduler does. -/
theorem poolStep_simulates :
    Simulates (PoolStep (ω := ω) (π := π) (τ := τ)) Lib.Dispatch.Step
      fun s d => d = s.dispatch := by
  rintro s t _ h rfl
  refine ⟨t.dispatch, ?_, rfl⟩
  have hstep : t.dispatch = s.dispatch ∨ Lib.Dispatch.Step s.dispatch t.dispatch := by
    cases h with
    | worker w step => exact workerStep_dispatch step
    | producer p step => exact producerStep_dispatch step
  rcases hstep with heq | hstep
  · rw [heq]
    exact Reachable.start
  · exact Reachable.start.next hstep

theorem reachable_dispatch {s : Pool ω π τ} (h : Reachable PoolStep .initial s) :
    Lib.Dispatch.Valid s.dispatch := by
  obtain ⟨_, hd, rfl⟩ := poolStep_simulates.reachable h (show _ = _ from rfl)
  exact Lib.Dispatch.reachable_valid hd

end

/-- The thread is between taking the mutex and giving it back. -/
def WorkerPc.Holding : WorkerPc τ → Prop
  | .test _ | .wait | .popTask | .unLock _ => True
  | .lock | .blocked | .woken | .processOn _ => False

def ProducerPc.Holding : ProducerPc τ → Prop
  | .push _ | .unLock => True
  | .idle | .lock _ | .wakeup => False

def Pool.Holding (s : Pool ω π τ) : ω ⊕ π → Prop
  | .inl w => (s.worker w).Holding
  | .inr p => (s.producer p).Holding

/-- The mutex belongs to the thread that is in its critical section, and who
is about to pop has a task to pop. -/
structure Pool.Owned (s : Pool ω π τ) : Prop where
  owner : ∀ x, s.Holding x ↔ s.lock = some x
  popTask : ∀ w, s.worker w = .popTask → s.taskQueue ≠ []

theorem initial_owned : (Pool.initial : Pool ω π τ).Owned := by
  refine ⟨fun x => ?_, fun _ h => by cases h⟩
  cases x <;> exact ⟨False.elim, fun h => by cases h⟩

/-- What a step of thread `x` may do to the mutex: take it when it is free, or
give it back, so that it still belongs to who is in the critical section. -/
structure Pool.Passes (x : ω ⊕ π) (s t : Pool ω π τ) : Prop where
  others : ∀ y ≠ x, t.Holding y ↔ s.Holding y
  lock : ∀ y ≠ x, t.lock = some y ↔ s.lock = some y
  owner : t.Holding x ↔ t.lock = some x

theorem Pool.Passes.owned {x : ω ⊕ π} {s t : Pool ω π τ} (h : Pool.Passes x s t)
    (hs : ∀ y, s.Holding y ↔ s.lock = some y) (y : ω ⊕ π) : t.Holding y ↔ t.lock = some y := by
  by_cases hy : y = x
  · subst y
    exact h.owner
  · exact (h.others y hy).trans ((hs y).trans (h.lock y hy).symm)

theorem Pool.Owned.not_holding {s : Pool ω π τ} (h : s.Owned) (hfree : s.lock = none)
    (x : ω ⊕ π) : ¬ s.Holding x := by
  intro hx
  have howner := (h.owner x).mp hx
  rw [hfree] at howner
  cases howner

theorem Pool.Owned.alone {s : Pool ω π τ} (h : s.Owned) {x y : ω ⊕ π} (hx : s.Holding x)
    (hy : s.Holding y) : x = y :=
  Option.some.inj (((h.owner x).mp hx).symm.trans ((h.owner y).mp hy))

@[simp] theorem WorkerPc.holding_wake (b : Bool) (pc : WorkerPc τ) :
    (pc.wake b).Holding ↔ pc.Holding := by
  cases pc <;> cases b <;> rfl

@[simp] theorem WorkerPc.wake_eq_popTask (b : Bool) (pc : WorkerPc τ) :
    pc.wake b = .popTask ↔ pc = .popTask := by
  cases pc <;> cases b <;> simp [WorkerPc.wake]

theorem holding_setWorker_ne [DecidableEq ω] (s : Pool ω π τ) {w : ω} (pc : WorkerPc τ)
    {y : ω ⊕ π} (hy : y ≠ .inl w) : (s.setWorker w pc).Holding y ↔ s.Holding y := by
  cases y with
  | inr p => rfl
  | inl v =>
    have hv : v ≠ w := fun h => hy (h ▸ rfl)
    simp [Pool.Holding, Pool.setWorker, hv]

theorem holding_setProducer_ne [DecidableEq π] (s : Pool ω π τ) {p : π} (pc : ProducerPc τ)
    {y : ω ⊕ π} (hy : y ≠ .inr p) : (s.setProducer p pc).Holding y ↔ s.Holding y := by
  cases y with
  | inl w => rfl
  | inr v =>
    have hv : v ≠ p := fun h => hy (h ▸ rfl)
    simp [Pool.Holding, Pool.setProducer, hv]

theorem workerStep_passes [DecidableEq ω] {w : ω} {s t : Pool ω π τ} (h : WorkerStep w s t)
    (hs : s.Owned) : Pool.Passes (.inl w) s t := by
  have hown : (s.worker w).Holding ↔ s.lock = some (.inl w) := hs.owner (.inl w)
  refine ⟨fun y hy => ?_, fun y hy => ?_, ?_⟩
  · cases h <;> exact holding_setWorker_ne s _ hy
  · cases h <;> simp_all [Pool.setWorker, WorkerPc.Holding, eq_comm]
  · cases h <;> simp_all [Pool.Holding, Pool.setWorker, WorkerPc.Holding]

theorem producerStep_passes [DecidableEq π] {p : π} {s t : Pool ω π τ} (h : ProducerStep p s t)
    (hs : s.Owned) : Pool.Passes (.inr p) s t := by
  have hown : (s.producer p).Holding ↔ s.lock = some (.inr p) := hs.owner (.inr p)
  refine ⟨fun y hy => ?_, fun y hy => ?_, ?_⟩
  · cases h with
    | wakeup reached pc one =>
      rw [← holding_setProducer_ne s .idle hy]
      cases y with
      | inl w => exact WorkerPc.holding_wake _ _
      | inr _ => exact Iff.rfl
    | _ => exact holding_setProducer_ne s _ hy
  · cases h with
    | wakeup => exact Iff.rfl
    | _ => simp_all [Pool.setProducer, ProducerPc.Holding, eq_comm]
  · cases h with
    | wakeup reached pc one =>
      rw [pc] at hown
      simpa [Pool.Holding, Pool.setProducer, ProducerPc.Holding] using hown
    | _ => simp_all [Pool.Holding, Pool.setProducer, ProducerPc.Holding]

/-- Only the worker that holds the mutex shortens the queue, and it found a
task there. -/
theorem workerStep_popTask [DecidableEq ω] {w v : ω} {s t : Pool ω π τ} (h : WorkerStep w s t)
    (hs : s.Owned) (hv : t.worker v = .popTask) : t.taskQueue ≠ [] := by
  by_cases hvw : v = w
  · subst v
    cases h with
    | testTask b pc some => exact some
    | _ => simp [Pool.setWorker] at hv
  · have hpop : s.worker v = .popTask := by
      cases h <;> simpa [Pool.setWorker, hvw] using hv
    cases h with
    | popTask task rest pc front =>
      have hsame : (Sum.inl v : ω ⊕ π) = .inl w :=
        hs.alone (by simp [Pool.Holding, hpop, WorkerPc.Holding])
          (by simp [Pool.Holding, pc, WorkerPc.Holding])
      exact absurd (Sum.inl.inj hsame) hvw
    | _ => exact hs.popTask v hpop

theorem producerStep_popTask [DecidableEq π] {p : π} {w : ω} {s t : Pool ω π τ}
    (h : ProducerStep p s t) (hs : s.Owned) (hw : t.worker w = .popTask) :
    t.taskQueue ≠ [] := by
  cases h with
  | push task pc => simp
  | wakeup reached pc one => exact hs.popTask w ((WorkerPc.wake_eq_popTask _ _).mp hw)
  | _ => exact hs.popTask w hw

section
variable [DecidableEq ω] [DecidableEq π]

theorem poolStep_owned : Preserved (PoolStep (ω := ω) (π := π) (τ := τ)) Pool.Owned := by
  intro s t h hs
  cases h with
  | worker w step =>
    exact ⟨(workerStep_passes step hs).owned hs.owner, fun _ => workerStep_popTask step hs⟩
  | producer p step =>
    exact ⟨(producerStep_passes step hs).owned hs.owner, fun _ => producerStep_popTask step hs⟩

theorem reachable_owned {s : Pool ω π τ} (h : Reachable PoolStep .initial s) : s.Owned :=
  poolStep_owned.reachable h initial_owned

/-- **No task is lost, doubled or reordered**: the tasks pushed are the tasks
popped and then the queue; a worker has processed all it popped but the one it
holds; and it never pops an empty queue. -/
theorem reachable_tasks {s : Pool ω π τ} (h : Reachable PoolStep .initial s) :
    s.pushed = s.popped.map Prod.snd ++ s.taskQueue ∧
      (∀ w, of w s.popped = of w s.processed ++ (s.worker w).held.toList) ∧
      ∀ w, s.worker w = .popTask → s.taskQueue ≠ [] :=
  ⟨(reachable_dispatch h).order, (reachable_dispatch h).hands, (reachable_owned h).popTask⟩

end

/-- A task is pushed, and a worker takes it before the signal. -/
theorem reachable_tasks_onePopped :
    ∃ s : Pool Bool Unit Nat, s.popped = [(true, 5)] ∧ s.worker true = .unLock 5 ∧
      s.pushed = s.popped.map Prod.snd ++ s.taskQueue ∧
      (∀ w, of w s.popped = of w s.processed ++ (s.worker w).held.toList) ∧
      ∀ w, s.worker w = .popTask → s.taskQueue ≠ [] := by
  have start : Reachable PoolStep (.initial : Pool Bool Unit Nat) .initial := Reachable.start
  have pushed := ((start.next (.producer () (.call _ 5 rfl))).next
    (.producer () (.lock _ 5 rfl rfl))).next (.producer () (.push _ 5 rfl))
  have locked := (pushed.next (.producer () (.unLock _ rfl))).next
    (.worker true (.lock _ rfl rfl))
  have popped := (locked.next (.worker true (.testTask _ false rfl (List.cons_ne_nil 5 [])))).next
    (.worker true (.popTask _ 5 [] rfl rfl))
  exact ⟨_, rfl, rfl, reachable_tasks popped⟩

end MinHttp

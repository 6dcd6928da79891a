import MinHttp.Lib.Halting
import MinHttp.Wakeups
import MinHttp.Sockets

/-! Whether the pool gets through the tasks it has, once no more come in. -/
namespace MinHttp

open Lib.Runs
open Lib.Count (count sum_update)
open Lib.Halting

variable {ω π τ : Type}

section
variable [DecidableEq ω] [DecidableEq π]

/-- A step the threads owe, where `PushTask` is not called again. A task that is
being processed comes to its end. -/
inductive DrainStep : Pool ω π τ → Pool ω π τ → Prop
  | worker {s t} (w : ω) (awake : s.worker w ≠ .blocked) (step : WorkerStep w s t) : DrainStep s t
  | producer {s t} (p : π) (busy : s.producer p ≠ .idle) (step : ProducerStep p s t) :
      DrainStep s t

theorem DrainStep.poolStep {s t : Pool ω π τ} (h : DrainStep s t) : PoolStep s t := by
  cases h with
  | worker w awake step => exact .worker w step
  | producer p busy step => exact .producer p step

/-- A worker wakes without a signal, which it may do whenever it sleeps. -/
def WakeStep (s t : Pool ω π τ) : Prop := ∃ w, s.worker w = .blocked ∧ t = s.setWorker w .woken

omit [DecidableEq π] in
theorem WakeStep.workerStep {s t : Pool ω π τ} (h : WakeStep s t) :
    ∃ w, s.worker w = .blocked ∧ WorkerStep w s t := by
  obtain ⟨w, pc, rfl⟩ := h
  exact ⟨w, pc, .spurious s pc⟩

theorem WakeStep.poolStep {s t : Pool ω π τ} (h : WakeStep s t) : PoolStep s t := by
  obtain ⟨w, -, step⟩ := h.workerStep
  exact .worker w step

/-- These are the steps of the pool but for new calls of `PushTask`. -/
theorem drainOrWake_poolStep {s t : Pool ω π τ} (h : Either DrainStep WakeStep s t) :
    PoolStep s t := h.elim DrainStep.poolStep WakeStep.poolStep

end

/-! ## The task a worker is in -/

/-- It comes to one from the queue. -/
theorem workerStep_processOn [DecidableEq ω] {s t : Pool ω π τ} {v w : ω} {task : τ}
    (h : WorkerStep v s t) (hw : t.worker w = .processOn task) :
    s.worker w = .processOn task ∨ s.worker w = .unLock task := by
  by_cases hwv : w = v
  · subst w
    cases h with
    | unLock task' pc =>
      simp only [Pool.setWorker, Function.update_self, WorkerPc.processOn.injEq] at hw
      exact Or.inr (hw ▸ pc)
    | _ => simp [Pool.setWorker] at hw
  · refine Or.inl ?_
    cases h <;> simpa [Pool.setWorker, hwv] using hw

theorem producerStep_processOn [DecidableEq π] {s t : Pool ω π τ} {p : π} {w : ω} {task : τ}
    (h : ProducerStep p s t) (hw : t.worker w = .processOn task) :
    s.worker w = .processOn task := by
  cases h with
  | wakeup reached pc one =>
    have hwake : (s.worker w).wake (reached w) = .processOn task := hw
    cases hpc : s.worker w <;> cases hr : reached w <;> rw [hpc, hr] at hwake <;>
      first | exact hwake | cases hwake
  | _ => exact hw

theorem poolStep_processOn [DecidableEq ω] [DecidableEq π] {s t : Pool ω π τ} {w : ω} {task : τ}
    (h : PoolStep s t) (hw : t.worker w = .processOn task) :
    s.worker w = .processOn task ∨ s.worker w = .unLock task := by
  cases h with
  | worker v step => exact workerStep_processOn step hw
  | producer p step => exact Or.inl (producerStep_processOn step hw)

/-- Done with it, it goes back to the mutex. -/
theorem processOn_worker [DecidableEq ω] {s t : Pool ω π τ} {w : ω} {task : τ}
    (h : WorkerStep w s t) (pc : s.worker w = .processOn task) :
    t.worker = Function.update s.worker w .lock := by
  cases h with
  | processOn task' pc' => rfl
  | _ => simp_all

/-- And stays in it, but for its own last step. -/
theorem workerStep_handling [DecidableEq ω] {s t : Pool ω π τ} {v w : ω} {task : τ}
    (h : WorkerStep v s t) (hv : s.worker v ≠ .processOn task)
    (hw : s.worker w = .processOn task) : t.worker w = .processOn task := by
  have hne : w ≠ v := by
    rintro rfl
    exact hv hw
  cases h <;> simpa [Pool.setWorker, hne] using hw

theorem producerStep_handling [DecidableEq π] {s t : Pool ω π τ} {p : π} {w : ω} {task : τ}
    (h : ProducerStep p s t) (hw : s.worker w = .processOn task) :
    t.worker w = .processOn task := by
  cases h with
  | wakeup reached pc one =>
    change (s.worker w).wake (reached w) = _
    rw [hw]
    rfl
  | _ => exact hw

/-! ## How much is left to do -/

/-- A worker's steps until it sleeps, were the queue to stay as it is; one that
has popped a task has the way back to the mutex before it as well. -/
def WorkerPc.work : WorkerPc τ → Nat
  | .unLock _ => 5
  | .processOn _ => 4
  | .lock | .woken => 3
  | .test _ => 2
  | .wait | .popTask => 1
  | .blocked => 0

/-- A producer's steps; what it pushes costs five, and its signal may wake
every worker. -/
def ProducerPc.work (signal : Nat) : ProducerPc τ → Nat
  | .lock _ => signal + 9
  | .push _ => signal + 8
  | .unLock => signal + 2
  | .wakeup => signal + 1
  | .idle => 0

section
variable [Fintype ω] [Fintype π]

def Pool.signal (_ : Pool ω π τ) : Nat := 3 * Fintype.card ω

def Pool.work (s : Pool ω π τ) : Nat :=
  5 * s.taskQueue.length + ∑ w, (s.worker w).work + ∑ p, (s.producer p).work s.signal

/-- A worker that does less from here on, counting what it takes from the queue. -/
theorem work_worker [DecidableEq ω] {s t : Pool ω π τ} {w : ω} {pc : WorkerPc τ}
    (hworker : t.worker = Function.update s.worker w pc) (hproducer : t.producer = s.producer)
    (h : 5 * t.taskQueue.length + pc.work < 5 * s.taskQueue.length + (s.worker w).work) :
    t.work < s.work := by
  have hsum := sum_update (fun pc : WorkerPc τ => pc.work) s.worker w pc
  simp only [Pool.work, Pool.signal, hworker, hproducer]
  omega

theorem work_producer [DecidableEq π] {s t : Pool ω π τ} {p : π} {pc : ProducerPc τ}
    (hworker : t.worker = s.worker) (hproducer : t.producer = Function.update s.producer p pc)
    (h : 5 * t.taskQueue.length + pc.work s.signal <
      5 * s.taskQueue.length + (s.producer p).work s.signal) : t.work < s.work := by
  have hsum := sum_update (fun pc : ProducerPc τ => pc.work s.signal) s.producer p pc
  simp only [Pool.work, Pool.signal, hworker, hproducer] at hsum h ⊢
  omega

theorem workerStep_work [DecidableEq ω] {w : ω} {s t : Pool ω π τ} (h : WorkerStep w s t)
    (hawake : s.worker w ≠ .blocked) : t.work < s.work := by
  cases h with
  | spurious pc => exact absurd pc hawake
  | popTask task rest pc front =>
    refine work_worker rfl rfl ?_
    rw [pc, front, List.length_cons]
    simp only [WorkerPc.work]
    omega
  | lock pc | testEmpty b pc | testTask b pc | wait pc | relock pc | unLock task pc
  | processOn task pc =>
    refine work_worker rfl rfl ?_
    rw [pc]
    simp [Pool.setWorker, WorkerPc.work]

omit [Fintype π] in
/-- A signal makes each worker do three steps more at most. -/
theorem sum_work_wake (s : Pool ω π τ) (reached : ω → Bool) :
    ∑ w, ((s.worker w).wake (reached w)).work ≤ ∑ w, (s.worker w).work + s.signal := by
  have hone : ∀ w ∈ Finset.univ,
      ((s.worker w).wake (reached w)).work ≤ (s.worker w).work + 3 := by
    intro w _
    cases s.worker w <;> cases reached w <;> simp [WorkerPc.wake, WorkerPc.work]
  have hsum := Finset.sum_le_sum hone
  rw [Finset.sum_add_distrib, Finset.sum_const, Finset.card_univ] at hsum
  rw [Pool.signal, Nat.mul_comm]
  exact hsum

theorem producerStep_work [DecidableEq π] {p : π} {s t : Pool ω π τ} (h : ProducerStep p s t)
    (hbusy : s.producer p ≠ .idle) : t.work < s.work := by
  cases h with
  | call task pc => exact absurd pc hbusy
  | push task pc =>
    refine work_producer rfl rfl ?_
    rw [pc, List.length_append]
    simp only [ProducerPc.work, List.length_singleton]
    omega
  | lock task pc | unLock pc =>
    refine work_producer rfl rfl ?_
    rw [pc]
    simp [Pool.setProducer, ProducerPc.work]
  | wakeup reached pc one =>
    have hwoken := sum_work_wake s reached
    have hsum := sum_update (fun pc : ProducerPc τ => pc.work s.signal) s.producer p .idle
    rw [pc] at hsum
    simp only [ProducerPc.work, Pool.work, Pool.setProducer, Pool.signal] at hsum hwoken ⊢
    omega

theorem drainStep_work [DecidableEq ω] [DecidableEq π] {s t : Pool ω π τ} (h : DrainStep s t) :
    t.work < s.work := by
  cases h with
  | worker w awake step => exact workerStep_work step awake
  | producer p busy step => exact producerStep_work step busy

/-- Woken for nothing, a worker looks at the queue once more. -/
theorem wakeStep_work [DecidableEq ω] {s t : Pool ω π τ} (h : WakeStep s t) :
    t.work ≤ s.work + 3 := by
  obtain ⟨w, pc, rfl⟩ := h
  have hsum := sum_update (fun pc : WorkerPc τ => pc.work) s.worker w .woken
  rw [pc] at hsum
  simp only [WorkerPc.work, Pool.work, Pool.signal, Pool.setWorker] at hsum ⊢
  omega

theorem work_le (s : Pool ω π τ) :
    s.work ≤ 5 * (s.taskQueue.length + Fintype.card ω) +
      (3 * Fintype.card ω + 9) * Fintype.card π := by
  have hworkers : ∑ w, (s.worker w).work ≤ Fintype.card ω * 5 := by
    apply Finset.sum_le_card_nsmul
    intro w _
    cases s.worker w <;> simp [WorkerPc.work]
  have hproducers : ∑ p, (s.producer p).work s.signal ≤ Fintype.card π * (s.signal + 9) := by
    apply Finset.sum_le_card_nsmul
    intro p _
    cases s.producer p <;> simp [ProducerPc.work]
  rw [Nat.mul_comm] at hworkers hproducers
  have hwork : s.work = 5 * s.taskQueue.length + ∑ w, (s.worker w).work +
      ∑ p, (s.producer p).work s.signal := rfl
  rw [Nat.mul_add]
  exact hwork.trans_le (Nat.add_le_add (Nat.add_le_add_left hworkers _) hproducers)

end

/-! ## When nothing is left to do -/

/-- No task is anywhere, and every worker sleeps. -/
structure Pool.Quiet (s : Pool ω π τ) : Prop where
  lock : s.lock = none
  taskQueue : s.taskQueue = []
  workers : ∀ w, s.worker w = .blocked
  producers : ∀ p, s.producer p = .idle

theorem Pool.Quiet.tasks [Fintype ω] [Fintype π] {s : Pool ω π τ} (h : s.Quiet) :
    s.tasks = 0 := by
  simp [Pool.tasks, h.taskQueue, h.workers, h.producers, WorkerPc.held, ProducerPc.inHand]

/-- Whoever has the mutex goes on. -/
theorem workerStep_holding [DecidableEq ω] {s : Pool ω π τ} (hs : s.Owned) {w : ω}
    (h : (s.worker w).Holding) : ∃ t, WorkerStep w s t := by
  cases hpc : s.worker w with
  | test b =>
    by_cases hqueue : s.taskQueue = []
    · exact ⟨_, .testEmpty s b hpc hqueue⟩
    · exact ⟨_, .testTask s b hpc hqueue⟩
  | wait => exact ⟨_, .wait s hpc⟩
  | popTask =>
    obtain ⟨task, rest, hfront⟩ := List.exists_cons_of_ne_nil (hs.popTask w hpc)
    exact ⟨_, .popTask s task rest hpc hfront⟩
  | unLock task => exact ⟨_, .unLock s task hpc⟩
  | lock | blocked | woken | processOn task =>
    rw [hpc] at h
    exact h.elim

theorem producerStep_holding [DecidableEq π] {s : Pool ω π τ} {p : π}
    (h : (s.producer p).Holding) : ∃ t, ProducerStep p s t := by
  cases hpc : s.producer p with
  | push task => exact ⟨_, .push s task hpc⟩
  | unLock => exact ⟨_, .unLock s hpc⟩
  | idle | lock task | wakeup =>
    rw [hpc] at h
    exact h.elim

section
variable [DecidableEq ω] [DecidableEq π]

/-- All that the threads owe is to come to the end of a task. -/
structure Pool.Settled (s : Pool ω π τ) : Prop where
  worker : ∀ w t, WorkerStep w s t → s.worker w ≠ .blocked → ∃ task, s.worker w = .processOn task
  producer : ∀ p t, ProducerStep p s t → s.producer p = .idle

theorem settled_of_final {s : Pool ω π τ} (h : Final DrainStep s) : s.Settled := by
  refine ⟨fun w t step hawake => absurd (.worker w hawake step) (h t), fun p t step => ?_⟩
  by_contra hbusy
  exact h t (.producer p hbusy step)

/-- Nobody stops with the mutex in hand. -/
theorem settled_lock {s : Pool ω π τ} (hs : s.Owned) (h : s.Settled) : s.lock = none := by
  cases hlock : s.lock with
  | none => rfl
  | some x =>
    have hholds : s.Holding x := (hs.owner x).mpr hlock
    cases x with
    | inl w =>
      have hw : (s.worker w).Holding := hholds
      have hawake : s.worker w ≠ .blocked := by
        intro hblocked
        rw [hblocked] at hw
        exact hw
      obtain ⟨t, ht⟩ := workerStep_holding hs hw
      obtain ⟨task, hpc⟩ := h.worker w t ht hawake
      rw [hpc] at hw
      exact hw.elim
    | inr p =>
      have hp : (s.producer p).Holding := hholds
      obtain ⟨t, ht⟩ := producerStep_holding hp
      rw [h.producer p t ht] at hp
      exact hp.elim

theorem settled_worker {s : Pool ω π τ} (hs : s.Owned) (h : s.Settled) (w : ω) :
    s.worker w = .blocked ∨ ∃ task, s.worker w = .processOn task := by
  have hfree := settled_lock hs h
  have hout : ¬ (s.worker w).Holding := hs.not_holding hfree (.inl w)
  cases hpc : s.worker w with
  | blocked => exact Or.inl rfl
  | processOn task => exact Or.inr ⟨task, rfl⟩
  | lock => simpa [hpc] using h.worker w _ (.lock s hpc hfree)
  | woken => simpa [hpc] using h.worker w _ (.relock s hpc hfree)
  | test b | wait | popTask | unLock task =>
    rw [hpc] at hout
    exact absurd trivial hout

theorem settled_producer {s : Pool ω π τ} (hs : s.Owned) (h : s.Settled) (p : π) :
    s.producer p = .idle := by
  have hfree := settled_lock hs h
  have hout : ¬ (s.producer p).Holding := hs.not_holding hfree (.inr p)
  cases hpc : s.producer p with
  | idle => rfl
  | lock task => simpa [hpc] using h.producer p _ (.lock s task hpc hfree)
  | wakeup =>
    have hone : (∃ w, s.worker w = .blocked) → ∃ w, s.worker w = .blocked ∧ true := by
      rintro ⟨w, hw⟩
      exact ⟨w, hw, rfl⟩
    simpa [hpc] using h.producer p _ (.wakeup s (fun _ => true) hpc hone)
  | push task | unLock =>
    rw [hpc] at hout
    exact absurd trivial hout

variable [Fintype ω] [Fintype π]

/-- A sleeping worker's tasks would have a thread to see to them. -/
theorem settled_taskQueue {s : Pool ω π τ} (hs : s.Owned) (hc : s.Covered) (h : s.Settled)
    (hsleeps : s.Sleeps) : s.taskQueue = [] := by
  have hbound := hc.bound hsleeps
  have hawake : count WorkerPc.awake s.worker = 0 := by
    refine Finset.sum_eq_zero fun w _ => ?_
    rcases settled_worker hs h w with hw | ⟨task, hw⟩ <;> rw [hw] <;> rfl
  have hpending : count ProducerPc.pending s.producer = 0 := by
    refine Finset.sum_eq_zero fun p _ => ?_
    rw [settled_producer hs h p]
    rfl
  rw [hawake, hpending] at hbound
  exact List.length_eq_zero_iff.mp (Nat.le_zero.mp hbound)

/-- The threads stop only when there is nothing left. -/
theorem final_quiet [Nonempty ω] {s : Pool ω π τ} (hs : s.Owned) (hc : s.Covered)
    (h : Final DrainStep s) : s.Quiet := by
  have hsettled := settled_of_final h
  have hworkers (w : ω) : s.worker w = .blocked := by
    rcases settled_worker hs hsettled w with hw | ⟨task, hpc⟩
    · exact hw
    · exact absurd (.worker w (by simp [hpc]) (.processOn s task hpc)) (h _)
  obtain ⟨w⟩ := ‹Nonempty ω›
  exact ⟨settled_lock hs hsettled, settled_taskQueue hs hc hsettled ⟨w, hworkers w⟩, hworkers,
    settled_producer hs hsettled⟩

omit [DecidableEq ω] [DecidableEq π] in
theorem held_mem_tasks {s : Pool ω π τ} {w : ω} {task : τ}
    (h : (s.worker w).held = some task) : task ∈ s.tasks := by
  rw [Pool.tasks, Multiset.mem_add, Multiset.mem_add, Multiset.mem_sum]
  exact Or.inl (Or.inr ⟨w, Finset.mem_univ w, by simp [h]⟩)

/-- The steps that are owed bring no new task. -/
theorem drainStep_tasks_le {s t : Pool ω π τ} (h : DrainStep s t) : t.tasks ≤ s.tasks := by
  cases h with
  | producer p busy step => exact (producerStep_tasks step busy).le
  | worker w awake step =>
    by_cases hpc : ∃ task, s.worker w = .processOn task
    · obtain ⟨task, hpc⟩ := hpc
      rw [processOn_tasks step hpc]
      exact Multiset.le_cons_self _ _
    · exact (workerStep_tasks step fun task h => hpc ⟨task, h⟩).le

/-- What has been processed and what has not make up the same tasks. -/
theorem drainStep_tasks {s t : Pool ω π τ} (h : DrainStep s t) :
    (↑(t.processed.map Prod.snd) + t.tasks : Multiset τ) =
      ↑(s.processed.map Prod.snd) + s.tasks := by
  cases h with
  | worker w awake step =>
    by_cases hpc : ∃ task, s.worker w = .processOn task
    · obtain ⟨task, hpc⟩ := hpc
      have hprocessed : t.processed = s.processed ++ [(w, task)] := by
        cases step <;> simp_all
      rw [hprocessed, processOn_tasks step hpc, List.map_append, ← Multiset.coe_add, add_assoc]
      rfl
    · rw [workerStep_tasks step fun task h => hpc ⟨task, h⟩]
      have hprocessed : t.processed = s.processed := by
        cases step with
        | processOn task pc => exact absurd ⟨task, pc⟩ hpc
        | _ => rfl
      rw [hprocessed]
  | producer p busy step =>
    rw [producerStep_tasks step busy]
    cases step <;> rfl

omit [DecidableEq π] in
theorem wakeStep_tasks {s t : Pool ω π τ} (h : WakeStep s t) :
    t.tasks = s.tasks ∧ t.processed = s.processed := by
  obtain ⟨w, pc, step⟩ := h.workerStep
  refine ⟨workerStep_tasks step fun task hpc => ?_, ?_⟩
  · cases pc.symm.trans hpc
  · obtain ⟨v, -, rfl⟩ := h
    rfl

theorem reachable_drain_tasks {s t : Pool ω π τ} (h : Reachable (Either DrainStep WakeStep) s t) :
    (↑(t.processed.map Prod.snd) + t.tasks : Multiset τ) =
      ↑(s.processed.map Prod.snd) + s.tasks := by
  have hkept : Preserved (Either DrainStep WakeStep) fun u : Pool ω π τ =>
      (↑(u.processed.map Prod.snd) + u.tasks : Multiset τ) =
        ↑(s.processed.map Prod.snd) + s.tasks := by
    rintro u v (hstep | hwake) hu
    · exact (drainStep_tasks hstep).trans hu
    · obtain ⟨htasks, hprocessed⟩ := wakeStep_tasks hwake
      rwa [htasks, hprocessed]
  exact hkept.reachable h rfl

theorem drainStep_ranked :
    Ranked (DrainStep (ω := ω) (π := π) (τ := τ)) (fun s => s.Owned ∧ s.Covered) Pool.work :=
  ⟨fun _ _ h => poolStep_covered h.poolStep, fun _ _ h _ => drainStep_work h⟩

theorem wakeStep_raised :
    Raised (WakeStep (ω := ω) (π := π) (τ := τ)) (fun s => s.Owned ∧ s.Covered) Pool.work 3 :=
  ⟨fun _ _ h => poolStep_covered h.poolStep, fun _ _ h _ => wakeStep_work h⟩

/-- **The pool gets through its tasks**: once `PushTask` is not called again,
and if every task that is processed comes to its end, the threads take a
bounded number of steps in whatever order, with three more for each time that a
worker wakes without a signal; and where none of them owes a step every worker
sleeps, every task has been taken in the order it was pushed, and every task
the pool had has been processed once. -/
theorem reachable_drains [Nonempty ω] {s : Pool ω π τ} (h : Reachable PoolStep .initial s) :
    (∀ n k t, Mixed DrainStep WakeStep n k s t → n ≤ 5 * (s.taskQueue.length + Fintype.card ω) +
        (3 * Fintype.card ω + 9) * Fintype.card π + 3 * k) ∧
      (∃ t, Reachable DrainStep s t ∧ Final DrainStep t) ∧
      ∀ t, Reachable (Either DrainStep WakeStep) s t → Final DrainStep t →
        t.Quiet ∧ t.pushed = t.popped.map Prod.snd ∧
          (↑(t.processed.map Prod.snd) : Multiset τ) = ↑(s.processed.map Prod.snd) + s.tasks := by
  have hs := poolStep_covered.reachable h ⟨initial_owned, initial_covered⟩
  refine ⟨fun n k t hmixed => ?_, drainStep_ranked.exists_final hs, fun t ht hfinal => ?_⟩
  · exact (drainStep_ranked.mixed wakeStep_raised hs n k t hmixed).trans
      (Nat.add_le_add_right (work_le s) _)
  · have hreach := ht.mono fun _ _ => drainOrWake_poolStep
    obtain ⟨howned, hcovered⟩ := poolStep_covered.reachable hreach hs
    have hquiet := final_quiet howned hcovered hfinal
    have horder := (reachable_dispatch (h.trans hreach)).order
    have htasks := reachable_drain_tasks ht
    rw [hquiet.tasks, add_zero] at htasks
    refine ⟨hquiet, ?_, htasks⟩
    simpa [Pool.dispatch, hquiet.taskQueue] using horder

end

/-- A task pushed while the only worker sleeps is processed. -/
theorem reachable_drains_asleep : ∃ s t : Pool Unit Unit Nat,
    s.Sleeps ∧ s.taskQueue = [5] ∧ Reachable DrainStep s t ∧ t.Quiet ∧
      (↑(t.processed.map Prod.snd) : Multiset Nat) = ↑(s.processed.map Prod.snd) + s.tasks := by
  obtain ⟨s, hs, hw, hqueue, -⟩ := asleep_pushed
  obtain ⟨-, ⟨t, ht, hfinal⟩, hend⟩ := reachable_drains hs
  obtain ⟨hquiet, -, htasks⟩ := hend t (ht.mono fun _ _ => Or.inl) hfinal
  exact ⟨s, t, ⟨(), hw⟩, hqueue, ht, hquiet, htasks⟩

end MinHttp

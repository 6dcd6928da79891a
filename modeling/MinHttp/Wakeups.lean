import MinHttp.ThreadPool
import MinHttp.Lib.Count

/-! Whether a task can wait in the queue while the workers sleep. -/
namespace MinHttp

open Lib.Runs
open Lib.Count (count count_update count_le count_lt)

variable {ω π τ : Type}

/-- Woken, and the queue not looked at again. -/
def WorkerPc.isWoken : WorkerPc τ → Bool
  | .woken | .test true => true
  | _ => false

/-- Woken, or about to pop the task it has found. -/
def WorkerPc.awake : WorkerPc τ → Bool
  | .popTask => true
  | pc => pc.isWoken

/-- The lock is released, and the signal not sent. -/
def ProducerPc.signals : ProducerPc τ → Bool
  | .wakeup => true
  | _ => false

/-- The task is pushed, and the signal not sent. -/
def ProducerPc.pending : ProducerPc τ → Bool
  | .unLock => true
  | pc => pc.signals

def Pool.Sleeps (s : Pool ω π τ) : Prop := ∃ w, s.worker w = .blocked

/-- While a worker sleeps, every task in the queue has a thread that will see
to it: one that is awake, or a signal to come. -/
structure Pool.Covered [Fintype ω] [Fintype π] (s : Pool ω π τ) : Prop where
  bound : s.Sleeps →
    s.taskQueue.length ≤ count WorkerPc.awake s.worker + count ProducerPc.pending s.producer
  wait : ∀ w, s.worker w = .wait → s.taskQueue = []

theorem initial_covered [Fintype ω] [Fintype π] : (Pool.initial : Pool ω π τ).Covered :=
  ⟨fun _ => Nat.zero_le _, fun _ _ => rfl⟩

theorem WorkerPc.awake_wake (b : Bool) {pc : WorkerPc τ} (h : pc.awake = true) :
    (pc.wake b).awake = true := by
  cases pc <;> simp_all [WorkerPc.wake, WorkerPc.awake, WorkerPc.isWoken]

theorem WorkerPc.wake_eq_wait (b : Bool) (pc : WorkerPc τ) : pc.wake b = .wait ↔ pc = .wait := by
  cases pc <;> cases b <;> simp [WorkerPc.wake]

section
variable [DecidableEq ω]

theorem sleeps_setWorker {s : Pool ω π τ} {w : ω} {pc : WorkerPc τ} (hpc : pc ≠ .blocked)
    (h : (s.setWorker w pc).Sleeps) : s.Sleeps := by
  obtain ⟨v, hv⟩ := h
  by_cases hvw : v = w
  · subst v
    exact absurd (by simpa [Pool.setWorker] using hv) hpc
  · exact ⟨v, by simpa [Pool.setWorker, hvw] using hv⟩

/-- A worker that takes as much from the queue as it stops being awake. -/
theorem bound_setWorker [Fintype ω] [Fintype π] {s : Pool ω π τ} (hc : s.Covered) {w : ω}
    {pc : WorkerPc τ} (hpc : pc ≠ .blocked) {queue : List τ}
    (hqueue : queue.length + (s.worker w).awake.toNat ≤ s.taskQueue.length + pc.awake.toNat)
    (h : (s.setWorker w pc).Sleeps) :
    queue.length ≤
      count WorkerPc.awake (s.setWorker w pc).worker + count ProducerPc.pending s.producer := by
  have hbound := hc.bound (sleeps_setWorker hpc h)
  have hcount := count_update WorkerPc.awake s.worker w pc
  rw [Pool.setWorker]
  dsimp only
  omega

theorem workerStep_bound [Fintype ω] [Fintype π] {w : ω} {s t : Pool ω π τ}
    (h : WorkerStep w s t) (hc : s.Covered) (hsleeps : t.Sleeps) :
    t.taskQueue.length ≤
      count WorkerPc.awake t.worker + count ProducerPc.pending t.producer := by
  cases h with
  | lock pc free => exact bound_setWorker hc (by simp) (by rw [pc]; exact Nat.le_refl _) hsleeps
  | testEmpty b pc empty =>
    change s.taskQueue.length ≤ _
    rw [empty]
    exact Nat.zero_le _
  | testTask b pc some =>
    apply bound_setWorker hc (by simp) _ hsleeps
    rw [pc]
    apply Nat.add_le_add_left
    cases b with
    | false => exact Nat.zero_le _
    | true => exact Nat.le_refl _
  | wait pc =>
    change s.taskQueue.length ≤ _
    rw [hc.wait w pc]
    exact Nat.zero_le _
  | spurious pc => exact bound_setWorker hc (by simp) (by rw [pc]; exact Nat.le_succ _) hsleeps
  | relock pc free => exact bound_setWorker hc (by simp) (by rw [pc]; exact Nat.le_refl _) hsleeps
  | popTask task rest pc front =>
    apply bound_setWorker hc (by simp) _ hsleeps
    rw [pc, front]
    exact Nat.le_refl _
  | unLock task pc => exact bound_setWorker hc (by simp) (by rw [pc]; exact Nat.le_refl _) hsleeps
  | processOn task pc =>
    exact bound_setWorker hc (by simp) (by rw [pc]; exact Nat.le_refl _) hsleeps

/-- A worker that is about to wait has just found the queue empty. -/
theorem workerStep_wait [Fintype ω] [Fintype π] {w v : ω} {s t : Pool ω π τ}
    (h : WorkerStep w s t) (hc : s.Covered) (hv : t.worker v = .wait) : t.taskQueue = [] := by
  by_cases hvw : v = w
  · subst v
    cases h with
    | testEmpty b pc empty => exact empty
    | _ => simp [Pool.setWorker] at hv
  · have hwait : s.worker v = .wait := by
      cases h <;> simpa [Pool.setWorker, hvw] using hv
    have hempty := hc.wait v hwait
    cases h with
    | popTask task rest pc front =>
      rw [hempty] at front
      cases front
    | _ => exact hempty

theorem workerStep_covered [Fintype ω] [Fintype π] {w : ω} {s t : Pool ω π τ}
    (h : WorkerStep w s t) (hc : s.Covered) : t.Covered :=
  ⟨workerStep_bound h hc, fun _ => workerStep_wait h hc⟩

end

section
variable [DecidableEq π] [Fintype ω] [Fintype π]

/-- A producer that puts as much into the queue as it comes to owe signals. -/
theorem bound_setProducer {s : Pool ω π τ} (hc : s.Covered) {p : π} {pc : ProducerPc τ}
    {queue : List τ}
    (hqueue : queue.length + (s.producer p).pending.toNat ≤
      s.taskQueue.length + pc.pending.toNat)
    (h : s.Sleeps) :
    queue.length ≤
      count WorkerPc.awake s.worker + count ProducerPc.pending (s.setProducer p pc).producer := by
  have hbound := hc.bound h
  have hcount := count_update ProducerPc.pending s.producer p pc
  rw [Pool.setProducer]
  dsimp only
  omega

/-- A signal that reaches a sleeping worker makes one more awake; one that
reaches none leaves no worker asleep. -/
theorem bound_wakeup {s : Pool ω π τ} (hc : s.Covered) {p : π} (pc : s.producer p = .wakeup)
    {reached : ω → Bool}
    (one : (∃ w, s.worker w = .blocked) → ∃ w, s.worker w = .blocked ∧ reached w)
    (h : ∃ w, (s.worker w).wake (reached w) = .blocked) :
    s.taskQueue.length ≤ count WorkerPc.awake (fun w => (s.worker w).wake (reached w)) +
      count ProducerPc.pending (s.setProducer p .idle).producer := by
  have hsleeps : s.Sleeps := by
    obtain ⟨w, hw⟩ := h
    refine ⟨w, ?_⟩
    cases hpc : s.worker w <;> rw [hpc] at hw <;> simp [WorkerPc.wake] at hw ⊢
  obtain ⟨w, hw, hreached⟩ := one hsleeps
  have hmore := count_lt (p := WorkerPc.awake) (f := s.worker)
    (g := fun w => (s.worker w).wake (reached w)) (a := w)
    (fun v => WorkerPc.awake_wake _) (by rw [hw]; rfl) (by rw [hw, hreached]; rfl)
  have hbound := hc.bound hsleeps
  have hcount := count_update ProducerPc.pending s.producer p .idle
  rw [pc] at hcount
  simp only [ProducerPc.pending, ProducerPc.signals, Bool.toNat_true, Bool.toNat_false] at hcount
  rw [Pool.setProducer]
  dsimp only
  omega

theorem producerStep_bound {p : π} {s t : Pool ω π τ} (h : ProducerStep p s t) (hc : s.Covered)
    (hsleeps : t.Sleeps) :
    t.taskQueue.length ≤
      count WorkerPc.awake t.worker + count ProducerPc.pending t.producer := by
  cases h with
  | call task pc => exact bound_setProducer hc (by rw [pc]; exact Nat.le_refl _) hsleeps
  | lock task pc free => exact bound_setProducer hc (by rw [pc]; exact Nat.le_refl _) hsleeps
  | push task pc =>
    apply bound_setProducer hc _ hsleeps
    rw [pc, List.length_append]
    exact Nat.le_refl _
  | unLock pc => exact bound_setProducer hc (by rw [pc]; exact Nat.le_refl _) hsleeps
  | wakeup reached pc one => exact bound_wakeup hc pc one hsleeps

theorem producerStep_wait {p : π} {w : ω} {s t : Pool ω π τ} (h : ProducerStep p s t)
    (hs : s.Owned) (hc : s.Covered) (hw : t.worker w = .wait) : t.taskQueue = [] := by
  cases h with
  | push task pc =>
    have hwait : s.worker w = .wait := hw
    have hsame : (Sum.inl w : ω ⊕ π) = .inr p :=
      hs.alone (by simp [Pool.Holding, hwait, WorkerPc.Holding])
        (by simp [Pool.Holding, pc, ProducerPc.Holding])
    cases hsame
  | wakeup reached pc one => exact hc.wait w ((WorkerPc.wake_eq_wait _ _).mp hw)
  | _ => exact hc.wait w hw

end

section
variable [DecidableEq ω] [DecidableEq π] [Fintype ω] [Fintype π]

theorem poolStep_covered :
    Preserved (PoolStep (ω := ω) (π := π) (τ := τ)) fun s => s.Owned ∧ s.Covered := by
  rintro s t h ⟨hs, hc⟩
  refine ⟨poolStep_owned h hs, ?_⟩
  cases h with
  | worker w step => exact workerStep_covered step hc
  | producer p step => exact ⟨producerStep_bound step hc, fun _ => producerStep_wait step hs hc⟩

/-- **No wakeup is lost**: while a worker sleeps there are no more tasks in
the queue than threads that will see to one; with the mutex free these are the
workers woken and the signals to come. -/
theorem reachable_wakeups {s : Pool ω π τ} (h : Reachable PoolStep .initial s)
    (hsleeps : s.Sleeps) :
    s.taskQueue.length ≤
        count WorkerPc.awake s.worker + count ProducerPc.pending s.producer ∧
      (s.lock = none → s.taskQueue.length ≤
        count WorkerPc.isWoken s.worker + count ProducerPc.signals s.producer) ∧
      (s.taskQueue ≠ [] →
        (∃ w, (s.worker w).awake = true) ∨ ∃ p, (s.producer p).pending = true) := by
  obtain ⟨hs, hc⟩ := poolStep_covered.reachable h ⟨initial_owned, initial_covered⟩
  have hbound := hc.bound hsleeps
  refine ⟨hbound, ?_, ?_⟩
  · intro hfree
    have hworkers : count WorkerPc.awake s.worker ≤ count WorkerPc.isWoken s.worker := by
      apply count_le
      intro w hw
      have hout : ¬ (s.worker w).Holding := hs.not_holding hfree (.inl w)
      cases hpc : s.worker w <;> simp_all [WorkerPc.awake, WorkerPc.Holding]
    have hproducers : count ProducerPc.pending s.producer ≤
        count ProducerPc.signals s.producer := by
      apply count_le
      intro p hp
      have hout : ¬ (s.producer p).Holding := hs.not_holding hfree (.inr p)
      cases hpc : s.producer p <;> simp_all [ProducerPc.pending, ProducerPc.Holding]
    omega
  · intro hqueue
    have hlen := List.length_pos_iff.mpr hqueue
    by_cases hawake : 0 < count WorkerPc.awake s.worker
    · exact Or.inl (Lib.Count.count_pos_iff.mp hawake)
    · exact Or.inr (Lib.Count.count_pos_iff.mp (by omega))

end

/-- The only worker sleeps, and a task is pushed. -/
theorem asleep_pushed : ∃ s : Pool Unit Unit Nat,
    Reachable PoolStep .initial s ∧ s.worker () = .blocked ∧ s.taskQueue = [5] ∧
      s.producer () = .unLock := by
  have start : Reachable PoolStep (.initial : Pool Unit Unit Nat) .initial := Reachable.start
  have waits := (start.next (.worker () (.lock _ rfl rfl))).next
    (.worker () (.testEmpty _ false rfl rfl))
  have asleep := (waits.next (.worker () (.wait _ rfl))).next (.producer () (.call _ 5 rfl))
  have pushed := (asleep.next (.producer () (.lock _ 5 rfl rfl))).next
    (.producer () (.push _ 5 rfl))
  exact ⟨_, pushed, rfl, rfl, rfl⟩

theorem reachable_wakeups_asleep : ∃ s : Pool Unit Unit Nat,
    s.Sleeps ∧ s.taskQueue = [5] ∧
      s.taskQueue.length ≤
        count WorkerPc.awake s.worker + count ProducerPc.pending s.producer ∧
      (s.lock = none → s.taskQueue.length ≤
        count WorkerPc.isWoken s.worker + count ProducerPc.signals s.producer) ∧
      (s.taskQueue ≠ [] →
        (∃ w, (s.worker w).awake = true) ∨ ∃ p, (s.producer p).pending = true) := by
  obtain ⟨s, hs, hw, hqueue, -⟩ := asleep_pushed
  exact ⟨s, ⟨(), hw⟩, hqueue, reachable_wakeups hs ⟨(), hw⟩⟩

/-- Before the lock is released nobody is woken and no signal is due. -/
theorem reachable_unsignalled : ∃ s : Pool Unit Unit Nat,
    Reachable PoolStep .initial s ∧ s.Sleeps ∧
      ¬ s.taskQueue.length ≤
        count WorkerPc.isWoken s.worker + count ProducerPc.signals s.producer := by
  obtain ⟨s, hs, hw, hqueue, hp⟩ := asleep_pushed
  have hwoken : count WorkerPc.isWoken s.worker = 0 := by
    simp [count, hw, WorkerPc.isWoken]
  have hsignals : count ProducerPc.signals s.producer = 0 := by
    simp [count, hp, ProducerPc.signals]
  refine ⟨s, hs, ⟨(), hw⟩, ?_⟩
  rw [hqueue, hwoken, hsignals]
  decide

end MinHttp

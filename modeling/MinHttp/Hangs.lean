import MinHttp.Drain

/-! Tasks whose `ProcessOn` never returns: what the pool still gets through,
and how many it takes to stop it. -/
namespace MinHttp

open Lib.Runs
open Lib.Halting

variable {ω π τ : Type}

/-- A worker that has come to a task that hangs stays in it. -/
def Pool.Stays (hangs : τ → Prop) (s t : Pool ω π τ) : Prop :=
  ∀ w task, hangs task → s.worker w = .processOn task → t.worker w = .processOn task

/-- The pool where tasks may hang. -/
def HangStep [DecidableEq ω] [DecidableEq π] (hangs : τ → Prop) (s t : Pool ω π τ) : Prop :=
  PoolStep s t ∧ s.Stays hangs t

/-- The steps its threads owe, where `PushTask` is not called again. A task that
does not hang comes to its end. -/
def HangDrain [DecidableEq ω] [DecidableEq π] (hangs : τ → Prop) (s t : Pool ω π τ) : Prop :=
  DrainStep s t ∧ s.Stays hangs t

theorem WakeStep.stays [DecidableEq ω] {hangs : τ → Prop} {s t : Pool ω π τ} (h : WakeStep s t) :
    s.Stays hangs t := by
  obtain ⟨v, pc, step⟩ := h.workerStep
  intro w task _ hw
  refine workerStep_handling step (fun hv => ?_) hw
  cases pc.symm.trans hv

/-- Every worker has a task that hangs. -/
def Pool.Stopped (hangs : τ → Prop) (s : Pool ω π τ) : Prop :=
  ∀ w, ∃ task, hangs task ∧ (s.worker w).held = some task

variable {hangs : τ → Prop}

section
variable [DecidableEq ω] [DecidableEq π]

/-- The threads are at rest, but for the tasks that hang. -/
structure Pool.Rests (hangs : τ → Prop) (s : Pool ω π τ) : Prop where
  settled : s.Settled
  hangs : ∀ w task, s.worker w = .processOn task → hangs task

theorem rests_of_hangFinal {s : Pool ω π τ} (h : Final (HangDrain hangs) s) : s.Rests hangs := by
  refine ⟨⟨fun w t step hawake => ?_, fun p t step => ?_⟩, fun w task hpc => ?_⟩
  · by_contra hout
    exact h t ⟨.worker w hawake step,
      fun _ task _ hv => workerStep_handling step (fun hpc => hout ⟨task, hpc⟩) hv⟩
  · by_contra hbusy
    exact h t ⟨.producer p hbusy step, fun _ _ _ hw => producerStep_handling step hw⟩
  · by_contra hnot
    refine h _ ⟨.worker w (by simp [hpc]) (.processOn s task hpc), fun v other hother hv => ?_⟩
    refine workerStep_handling (.processOn s task hpc) (fun hsame => ?_) hv
    cases hpc.symm.trans hsame
    exact hnot hother

/-- Who does not sleep is in a task that hangs. -/
theorem Pool.Rests.stopped {s : Pool ω π τ} (h : s.Rests hangs) (hs : s.Owned)
    (hawake : ¬ s.Sleeps) : s.Stopped hangs := by
  intro w
  rcases settled_worker hs h.settled w with hw | ⟨task, hw⟩
  · exact absurd ⟨w, hw⟩ hawake
  · exact ⟨task, h.hangs w task hw, by rw [hw]; rfl⟩

variable [Fintype ω] [Fintype π]

/-- Once the calls of `PushTask` are over, a task is in the queue or with a worker. -/
theorem settled_tasks {s : Pool ω π τ} (hs : s.Owned) (h : s.Settled) :
    s.tasks = ↑s.taskQueue + ∑ w, ↑(s.worker w).held.toList := by
  have hproducers : ∑ p, (↑(s.producer p).inHand.toList : Multiset τ) = 0 := by
    refine Finset.sum_eq_zero fun p _ => ?_
    rw [settled_producer hs h p]
    rfl
  rw [Pool.tasks, hproducers, add_zero]

/-- With a worker asleep the tasks that are left are in the others' hands. -/
theorem settled_held {s : Pool ω π τ} (hs : s.Owned) (hc : s.Covered) (h : s.Settled)
    (hsleeps : s.Sleeps) {task : τ} (htask : task ∈ s.tasks) :
    ∃ w, s.worker w = .processOn task := by
  rw [settled_tasks hs h, settled_taskQueue hs hc h hsleeps, Multiset.coe_nil, zero_add] at htask
  obtain ⟨w, -, hw⟩ := Multiset.mem_sum.mp htask
  rcases settled_worker hs h w with hpc | ⟨other, hpc⟩
  · simp [hpc, WorkerPc.held] at hw
  · obtain rfl : task = other := by simpa [hpc, WorkerPc.held] using hw
    exact ⟨w, hpc⟩

theorem settled_card {s : Pool ω π τ} (hs : s.Owned) (hc : s.Covered) (h : s.Settled)
    (hsleeps : s.Sleeps) : s.tasks.card < Fintype.card ω := by
  rw [settled_tasks hs h, settled_taskQueue hs hc h hsleeps, Multiset.coe_nil, zero_add,
    Multiset.card_sum, ← Finset.card_univ, Finset.card_eq_sum_ones]
  obtain ⟨v, hv⟩ := hsleeps
  refine Finset.sum_lt_sum (fun w _ => ?_) ⟨v, Finset.mem_univ v, by simp [hv, WorkerPc.held]⟩
  cases (s.worker w).held <;> simp

omit [DecidableEq ω] [DecidableEq π] in
/-- As many tasks that hang as workers, or more. -/
theorem stopped_count [DecidablePred hangs] {s : Pool ω π τ} (h : s.Stopped hangs) :
    Fintype.card ω ≤ s.tasks.countP hangs := by
  have hworkers : Fintype.card ω =
      (∑ w, (↑(s.worker w).held.toList : Multiset τ)).countP hangs := by
    rw [← Multiset.coe_countPAddMonoidHom, map_sum, ← Finset.card_univ, Finset.card_eq_sum_ones]
    refine Finset.sum_congr rfl fun w _ => ?_
    obtain ⟨task, htask, hw⟩ := h w
    rw [hw, Option.toList_some, Multiset.coe_singleton, Multiset.coe_countPAddMonoidHom]
    exact (Multiset.countP_cons_of_pos 0 htask).symm
  rw [hworkers]
  exact Multiset.countP_le_of_le _ ((Multiset.le_add_left _ _).trans (Multiset.le_add_right _ _))

theorem Pool.Rests.sleeps_iff [DecidablePred hangs] {s : Pool ω π τ} (h : s.Rests hangs)
    (hs : s.Owned) (hc : s.Covered) : s.Sleeps ↔ s.tasks.countP hangs < Fintype.card ω := by
  refine ⟨fun hsleeps => ?_, fun hlt => ?_⟩
  · exact (Multiset.countP_le_card _ _).trans_lt (settled_card hs hc h.settled hsleeps)
  · by_contra hawake
    exact absurd (stopped_count (h.stopped hs hawake)) (Nat.not_le_of_lt hlt)

theorem hangDrain_hanging [DecidablePred hangs] {s t : Pool ω π τ} (h : HangDrain hangs s t) :
    t.tasks.filter hangs = s.tasks.filter hangs := by
  obtain ⟨hstep, hstays⟩ := h
  cases hstep with
  | producer p busy step => rw [producerStep_tasks step busy]
  | worker w awake step =>
    by_cases hpc : ∃ task, s.worker w = .processOn task
    · obtain ⟨task, hpc⟩ := hpc
      have hnot : ¬ hangs task := by
        intro htask
        have hsame := hstays w task htask hpc
        cases step <;> simp_all [Pool.setWorker]
      rw [processOn_tasks step hpc, Multiset.filter_cons_of_neg _ hnot]
    · rw [workerStep_tasks step fun task h => hpc ⟨task, h⟩]

theorem reachable_hanging [DecidablePred hangs] {s t : Pool ω π τ}
    (h : Reachable (Either (HangDrain hangs) WakeStep) s t) :
    t.tasks.filter hangs = s.tasks.filter hangs := by
  have hkept : Preserved (Either (HangDrain hangs) WakeStep) fun u : Pool ω π τ =>
      u.tasks.filter hangs = s.tasks.filter hangs := by
    rintro u v (hstep | hwake) hu
    · exact (hangDrain_hanging hstep).trans hu
    · rwa [(wakeStep_tasks hwake).1]
  exact hkept.reachable h rfl

theorem hangDrain_ranked :
    Ranked (HangDrain (ω := ω) (π := π) hangs) (fun s => s.Owned ∧ s.Covered) Pool.work :=
  drainStep_ranked.mono fun _ _ h => h.1

end

section
variable [DecidableEq ω] [DecidableEq π]

/-- A pool that is stopped takes no task, whatever is pushed. -/
theorem hangStep_stopped {s t : Pool ω π τ} (h : HangStep hangs s t) (hs : s.Stopped hangs) :
    t.Stopped hangs ∧ t.popped = s.popped ∧ t.processed = s.processed := by
  obtain ⟨hstep, hstays⟩ := h
  have hsame : (∀ w, (t.worker w).held = (s.worker w).held) ∧ t.popped = s.popped ∧
      t.processed = s.processed := by
    cases hstep with
    | producer p step => cases step <;> simp [Pool.setProducer]
    | worker w step =>
      obtain ⟨task, htask, hw⟩ := hs w
      cases step with
      | unLock task' pc =>
        have hdispatch :
            Pool.dispatch { s.setWorker w (.processOn task') with lock := none } = s.dispatch :=
          dispatch_setWorker none (by rw [pc]; rfl)
        exact ⟨congrFun (congrArg Lib.Dispatch.State.held hdispatch), rfl, rfl⟩
      | processOn task' pc =>
        rw [pc] at hw
        cases hw
        have hstill := hstays w task htask pc
        simp [Pool.setWorker] at hstill
      | _ => simp_all [WorkerPc.held]
  obtain ⟨hheld, hhistories⟩ := hsame
  exact ⟨fun w => by simpa only [hheld] using hs w, hhistories⟩

theorem reachable_stopped {s t : Pool ω π τ} (h : Reachable (HangStep hangs) s t)
    (hs : s.Stopped hangs) : t.popped = s.popped ∧ t.processed = s.processed := by
  have hkept : Preserved (HangStep hangs) fun u : Pool ω π τ =>
      u.Stopped hangs ∧ u.popped = s.popped ∧ u.processed = s.processed := by
    rintro u v hstep ⟨hu, hpopped, hprocessed⟩
    obtain ⟨hv, hpopped', hprocessed'⟩ := hangStep_stopped hstep hu
    exact ⟨hv, hpopped'.trans hpopped, hprocessed'.trans hprocessed⟩
  exact (hkept.reachable h ⟨hs, rfl, rfl⟩).2

/-- A task that hangs is not done. -/
theorem hangStep_processed {s t : Pool ω π τ} (h : HangStep hangs s t)
    (hs : ∀ task ∈ s.processed.map Prod.snd, ¬ hangs task) :
    ∀ task ∈ t.processed.map Prod.snd, ¬ hangs task := by
  obtain ⟨hstep, hstays⟩ := h
  cases hstep with
  | producer p step => cases step <;> exact hs
  | worker w step =>
    cases step with
    | processOn task pc =>
      have hnot : ¬ hangs task := by
        intro htask
        have hstill := hstays w task htask pc
        simp [Pool.setWorker] at hstill
      intro other hother
      rw [List.map_append, List.mem_append, List.map_singleton, List.mem_singleton] at hother
      exact hother.elim (hs other) fun hsame => hsame ▸ hnot
    | _ => exact hs

theorem reachable_hangStep_processed {s : Pool ω π τ}
    (h : Reachable (HangStep hangs) .initial s) :
    ∀ task ∈ s.processed.map Prod.snd, ¬ hangs task := by
  have hkept : Preserved (HangStep hangs) fun s : Pool ω π τ =>
      ∀ task ∈ s.processed.map Prod.snd, ¬ hangs task := fun _ _ => hangStep_processed
  exact hkept.reachable h fun _ hmem => (by cases hmem)

/-- No more tasks that hang are taken than there are workers, and none of any
kind after that many. -/
theorem reachable_hangStep_taken [Fintype ω] [DecidablePred hangs] {s : Pool ω π τ}
    (h : Reachable (HangStep hangs) .initial s) :
    (s.popped.map Prod.snd).countP (hangs ·) ≤ Fintype.card ω ∧
      (Fintype.card ω ≤ (s.popped.map Prod.snd).countP (hangs ·) → s.Stopped hangs) := by
  have hvalid := reachable_dispatch (h.mono fun _ _ hstep => hstep.1)
  have hnone : (s.processed.map Prod.snd).countP (hangs ·) = 0 := by
    rw [List.countP_eq_zero]
    intro task hmem htask
    exact reachable_hangStep_processed h task hmem (of_decide_eq_true htask)
  have htaken : (s.popped.map Prod.snd).countP (hangs ·) =
      ∑ w, (s.worker w).held.toList.countP (hangs ·) := by
    have hcount := hvalid.taken_count (hangs ·)
    rwa [show s.dispatch.finished = s.processed from rfl, hnone, Nat.zero_add] at hcount
  have hone (w : ω) : (s.worker w).held.toList.countP (hangs ·) ≤ 1 :=
    List.countP_le_length.trans (by cases (s.worker w).held <;> simp)
  rw [htaken, ← Finset.card_univ, Finset.card_eq_sum_ones]
  refine ⟨Finset.sum_le_sum fun w _ => hone w, fun hall w => ?_⟩
  have hsum := le_antisymm (Finset.sum_le_sum fun w _ => hone w) hall
  have hw := (Finset.sum_eq_sum_iff_of_le fun w _ => hone w).mp hsum w (Finset.mem_univ w)
  cases hheld : (s.worker w).held with
  | none => simp [hheld] at hw
  | some task => exact ⟨task, by simpa [hheld] using hw, rfl⟩

variable [Fintype ω] [Fintype π]

/-- Where the threads come to rest, with fewer tasks that hang than workers and
with as many. -/
theorem rests_outlasts [DecidablePred hangs] {s t : Pool ω π τ} (hs : s.Owned ∧ s.Covered)
    (ht : Reachable (Either (HangDrain hangs) WakeStep) s t) (hrests : t.Rests hangs) :
    (s.tasks.countP hangs < Fintype.card ω →
        t.tasks = s.tasks.filter hangs ∧ t.taskQueue = [] ∧
          (↑(t.processed.map Prod.snd) : Multiset τ) =
            ↑(s.processed.map Prod.snd) + s.tasks.filter (¬ hangs ·)) ∧
      (Fintype.card ω ≤ s.tasks.countP hangs → t.Stopped hangs) := by
  have hdrain : Reachable (Either DrainStep WakeStep) s t :=
    ht.mono fun _ _ hstep => hstep.mono And.left id
  obtain ⟨howned, hcovered⟩ :=
    poolStep_covered.reachable (hdrain.mono fun _ _ => drainOrWake_poolStep) hs
  have hhanging := reachable_hanging ht
  have hcount : t.tasks.countP hangs = s.tasks.countP hangs := by
    rw [Multiset.countP_eq_card_filter, hhanging, ← Multiset.countP_eq_card_filter]
  have hsleeps := hrests.sleeps_iff howned hcovered
  rw [hcount] at hsleeps
  refine ⟨fun hfew => ?_, fun hmany => ?_⟩
  · have hall : ∀ task ∈ t.tasks, hangs task := by
      intro task htask
      obtain ⟨w, hw⟩ := settled_held howned hcovered hrests.settled (hsleeps.mpr hfew) htask
      exact hrests.hangs w task hw
    have hleft : t.tasks = s.tasks.filter hangs :=
      (Multiset.filter_eq_self.mpr hall).symm.trans hhanging
    refine ⟨hleft, settled_taskQueue howned hcovered hrests.settled (hsleeps.mpr hfew), ?_⟩
    have htasks := reachable_drain_tasks hdrain
    refine add_right_cancel (htasks.trans ?_)
    rw [hleft, add_assoc, add_comm (s.tasks.filter _), Multiset.filter_add_not]
  · exact hrests.stopped howned fun hs => absurd (hsleeps.mp hs) (Nat.not_lt_of_le hmany)

/-- **As many tasks that hang as there are workers stop the pool, and fewer do
not.** Once `PushTask` is not called again, with fewer every other task is
processed, in a bounded number of steps and three more for each wakeup without
a signal, if every such task comes to its end; with as many, every worker comes
to one, and from there on no task is taken, whatever is pushed. -/
theorem reachable_outlasts (hangs : τ → Prop) [DecidablePred hangs] {s : Pool ω π τ}
    (h : Reachable PoolStep .initial s) :
    (∀ n k t, Mixed (HangDrain hangs) WakeStep n k s t →
        n ≤ 5 * (s.taskQueue.length + Fintype.card ω) +
          (3 * Fintype.card ω + 9) * Fintype.card π + 3 * k) ∧
      (∃ t, Reachable (HangDrain hangs) s t ∧ Final (HangDrain hangs) t) ∧
      ∀ t, Reachable (Either (HangDrain hangs) WakeStep) s t → Final (HangDrain hangs) t →
        (s.tasks.countP hangs < Fintype.card ω →
          t.tasks = s.tasks.filter hangs ∧ t.taskQueue = [] ∧
            (↑(t.processed.map Prod.snd) : Multiset τ) =
              ↑(s.processed.map Prod.snd) + s.tasks.filter (¬ hangs ·)) ∧
        (Fintype.card ω ≤ s.tasks.countP hangs →
          t.Stopped hangs ∧ ∀ u, Reachable (HangStep hangs) t u →
            u.popped = t.popped ∧ u.processed = t.processed) := by
  have hs := poolStep_covered.reachable h ⟨initial_owned, initial_covered⟩
  refine ⟨fun n k t hmixed => ?_, hangDrain_ranked.exists_final hs, fun t ht hfinal => ?_⟩
  · exact (hangDrain_ranked.mixed wakeStep_raised hs n k t hmixed).trans
      (Nat.add_le_add_right (work_le s) _)
  · obtain ⟨hfew, hmany⟩ := rests_outlasts hs ht (rests_of_hangFinal hfinal)
    exact ⟨hfew, fun h => ⟨hmany h, fun u hu => reachable_stopped hu (hmany h)⟩⟩

end

/-- The only worker takes a task that hangs. -/
theorem reachable_outlasts_one : ∃ s t : Pool Unit Unit Nat, s.taskQueue = [5] ∧
    Reachable (HangDrain (· = 5)) s t ∧ t.Stopped (· = 5) := by
  obtain ⟨s, hs, -, hqueue, -⟩ := asleep_pushed
  obtain ⟨-, ⟨t, ht, hfinal⟩, hend⟩ := reachable_outlasts (· = 5) hs
  have hcount : 0 < s.tasks.countP (· = 5) := by
    refine Multiset.countP_pos.mpr ⟨5, ?_, rfl⟩
    simp [Pool.tasks, hqueue]
  exact ⟨s, t, hqueue, ht, ((hend t (ht.mono fun _ _ => Or.inl) hfinal).2 hcount).1⟩

end MinHttp

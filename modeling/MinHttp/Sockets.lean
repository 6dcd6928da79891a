import MinHttp.ThreadPool
import MinHttp.Lib.Count

/-! HttpServer.hpp: `Loop` and the workers, and the connections whose
descriptors their tasks carry. -/
namespace MinHttp

open Lib.Runs
open Lib.Count (sum_update)

variable {ω π τ : Type}

/-! ## The tasks in the pool -/

/-- The task a call of `PushTask` has not pushed. -/
def ProducerPc.inHand : ProducerPc τ → Option τ
  | .lock task | .push task => some task
  | _ => none

/-- The tasks in the queue, held by a worker, and about to be pushed. -/
def Pool.tasks [Fintype ω] [Fintype π] (s : Pool ω π τ) : Multiset τ :=
  ↑s.taskQueue + ∑ w, ↑(s.worker w).held.toList + ∑ p, ↑(s.producer p).inHand.toList

section
variable [Fintype ω] [Fintype π]

theorem add_moved {q q' h h' x y : Multiset τ} (heq : h' + x = h + y) (rest : Multiset τ) :
    q' + h' + rest + (q + x) = q + h + rest + (q' + y) :=
  calc
    q' + h' + rest + (q + x) = q' + q + rest + (h' + x) := by ac_rfl
    _ = q' + q + rest + (h + y) := by rw [heq]
    _ = q + h + rest + (q' + y) := by ac_rfl

/-- A worker moves, and the queue with it. -/
theorem tasks_setWorker [DecidableEq ω] (s : Pool ω π τ) (w : ω) (pc : WorkerPc τ)
    (queue : List τ) :
    Pool.tasks { s.setWorker w pc with taskQueue := queue } +
        (↑s.taskQueue + ↑(s.worker w).held.toList) =
      s.tasks + (↑queue + ↑pc.held.toList) := by
  apply add_moved
  exact sum_update (fun pc : WorkerPc τ => (↑pc.held.toList : Multiset τ)) s.worker w pc

/-- A producer moves, and the queue with it. -/
theorem tasks_setProducer [DecidableEq π] (s : Pool ω π τ) (p : π) (pc : ProducerPc τ)
    (queue : List τ) :
    Pool.tasks { s.setProducer p pc with taskQueue := queue } +
        (↑s.taskQueue + ↑(s.producer p).inHand.toList) =
      s.tasks + (↑queue + ↑pc.inHand.toList) := by
  simp only [Pool.tasks, Pool.setProducer]
  rw [add_right_comm (queue : Multiset τ), add_right_comm (s.taskQueue : Multiset τ)]
  apply add_moved
  exact sum_update (fun pc : ProducerPc τ => (↑pc.inHand.toList : Multiset τ)) s.producer p pc

theorem coe_concat (queue : List τ) (task : τ) :
    ((queue ++ [task] : List τ) : Multiset τ) = ↑queue + ↑[task] := (Multiset.coe_add _ _).symm

/-- A worker that keeps what it holds. -/
theorem tasks_kept [DecidableEq ω] {s : Pool ω π τ} {w : ω} {pc : WorkerPc τ}
    (l : Option (ω ⊕ π)) (h : (s.worker w).held = pc.held) :
    Pool.tasks { s.setWorker w pc with lock := l } = s.tasks := by
  have hmove := tasks_setWorker s w pc s.taskQueue
  rw [h] at hmove
  exact add_right_cancel hmove

/-- A worker moves tasks about, until it has processed one. -/
theorem workerStep_tasks [DecidableEq ω] {w : ω} {s t : Pool ω π τ} (h : WorkerStep w s t)
    (hpc : ∀ task, s.worker w ≠ .processOn task) : t.tasks = s.tasks := by
  cases h with
  | lock pc free => exact tasks_kept _ (by rw [pc]; rfl)
  | testEmpty b pc empty => exact tasks_kept _ (by rw [pc]; rfl)
  | testTask b pc some => exact tasks_kept _ (by rw [pc]; rfl)
  | wait pc => exact tasks_kept _ (by rw [pc]; rfl)
  | spurious pc => exact tasks_kept _ (by rw [pc]; rfl)
  | relock pc free => exact tasks_kept _ (by rw [pc]; rfl)
  | unLock task pc => exact tasks_kept _ (by rw [pc]; rfl)
  | processOn task pc => exact absurd pc (hpc task)
  | popTask task rest pc front =>
    have hmove := tasks_setWorker s w (.unLock task) rest
    have hfront : (↑(task :: rest) : Multiset τ) = ↑rest + ↑[task] := by
      rw [← coe_concat]
      exact Multiset.coe_eq_coe.mpr (List.perm_append_singleton task rest).symm
    have hnone : (↑(WorkerPc.popTask : WorkerPc τ).held.toList : Multiset τ) = 0 := rfl
    rw [pc, front, hfront, hnone, add_zero] at hmove
    exact add_right_cancel hmove

/-- What it has processed is gone. -/
theorem processOn_tasks [DecidableEq ω] {w : ω} {s t : Pool ω π τ} (h : WorkerStep w s t)
    {task : τ} (hpc : s.worker w = .processOn task) : s.tasks = task ::ₘ t.tasks := by
  cases h with
  | processOn task' pc =>
    obtain rfl : task' = task := by
      rw [hpc] at pc
      cases pc
      rfl
    have hmove := tasks_setWorker s w .lock s.taskQueue
    rw [hpc, add_left_comm, add_left_comm s.tasks] at hmove
    have hsame := add_left_cancel hmove
    rw [← Multiset.singleton_add, add_comm]
    exact (hsame.trans (add_zero _)).symm
  | _ => simp_all

/-- A call of `PushTask` pushes what it was called with. -/
theorem producerStep_tasks [DecidableEq π] {p : π} {s t : Pool ω π τ} (h : ProducerStep p s t)
    (hpc : s.producer p ≠ .idle) : t.tasks = s.tasks := by
  cases h with
  | call task pc => exact absurd pc hpc
  | lock task pc free =>
    have hmove := tasks_setProducer s p (.push task) s.taskQueue
    rw [pc] at hmove
    exact add_right_cancel hmove
  | push task pc =>
    have hmove := tasks_setProducer s p .unLock (s.taskQueue ++ [task])
    have hnone : (↑(ProducerPc.unLock : ProducerPc τ).inHand.toList : Multiset τ) = 0 := rfl
    rw [pc, coe_concat, hnone, add_zero] at hmove
    exact add_right_cancel hmove
  | unLock pc =>
    have hmove := tasks_setProducer s p .wakeup s.taskQueue
    rw [pc] at hmove
    exact add_right_cancel hmove
  | wakeup reached pc one =>
    have hmove := tasks_setProducer s p .idle s.taskQueue
    rw [pc] at hmove
    rw [← add_right_cancel hmove]
    simp only [Pool.tasks, Pool.setProducer, WorkerPc.held_wake]

theorem call_tasks [DecidableEq π] {s : Pool ω π τ} {p : π} (hpc : s.producer p = .idle)
    (task : τ) : (s.setProducer p (.lock task)).tasks = task ::ₘ s.tasks := by
  have hmove := tasks_setProducer s p (.lock task) s.taskQueue
  rw [hpc, add_left_comm, add_left_comm s.tasks] at hmove
  have hsame := add_left_cancel hmove
  rw [← Multiset.singleton_add, add_comm]
  exact (add_zero _).symm.trans hsame

end

/-! ## The server -/

/-- `conn` has the open connections by descriptor, numbered in the order of
their `accept`; `accepted` and `closed` are histories no thread reads. -/
structure Server (ω : Type) where
  pool : Pool ω Unit Int
  conn : Int → Option Nat
  accepted : List Int
  closed : List Nat

def Server.initial : Server ω := ⟨.initial, fun _ => none, [], []⟩

/-- `close(sock)`: a number that no connection has is refused. -/
def Server.close (s : Server ω) (sock : Int) : Server ω :=
  { s with
    conn := Function.update s.conn sock none
    closed := s.closed ++ (s.conn sock).toList }

inductive Event
  | accept (sock : Int)
  | thread
  deriving DecidableEq, Repr

/-- `Loop` accepts and calls `PushTask`, with whatever `accept` returned; the
workers run, and one that has handled a request closes its socket. -/
inductive ServerStep [DecidableEq ω] : Server ω → Event → Server ω → Prop
  | accept (s) (sock : Int) (idle : s.pool.producer () = .idle) (nonneg : 0 ≤ sock)
      (unused : s.conn sock = none) :
      ServerStep s (.accept sock) { s with
        pool := s.pool.setProducer () (.lock sock)
        conn := Function.update s.conn sock (some s.accepted.length)
        accepted := s.accepted ++ [sock] }
  | acceptFails (s) (idle : s.pool.producer () = .idle) :
      ServerStep s (.accept (-1)) { s with pool := s.pool.setProducer () (.lock (-1)) }
  | pushTask (s) (pool) (busy : s.pool.producer () ≠ .idle)
      (step : ProducerStep () s.pool pool) : ServerStep s .thread { s with pool := pool }
  | worker (s) (w : ω) (pool) (pc : ∀ sock, s.pool.worker w ≠ .processOn sock)
      (step : WorkerStep w s.pool pool) : ServerStep s .thread { s with pool := pool }
  | handlerRequest (s) (w : ω) (sock : Int) (pool) (pc : s.pool.worker w = .processOn sock)
      (step : WorkerStep w s.pool pool) :
      ServerStep s .thread { s.close sock with pool := pool }

/-- The connections accepted and not closed. -/
def Server.openConns (s : Server ω) : List Nat :=
  (List.range s.accepted.length).filter fun n => n ∉ s.closed

/-- The tasks are the open connections, each once, and a connection that is
not open has been closed once. -/
structure Server.SocketsKept [Fintype ω] (s : Server ω) : Prop where
  distinct : s.pool.tasks.Nodup
  open_iff : ∀ sock, sock ∈ s.pool.tasks ↔ ∃ n, s.conn sock = some n
  accepted : ∀ sock n, s.conn sock = some n → s.accepted[n]? = some sock
  closedOnce : s.closed.Nodup
  closed_iff : ∀ n, n ∈ s.closed ↔ n < s.accepted.length ∧ ∀ sock, s.conn sock ≠ some n
  bound : s.pool.taskQueue.length ≤ s.openConns.length

/-- The server's steps are steps of its pool. -/
theorem serverStep_pool [DecidableEq ω] {e : Event} {s t : Server ω} (h : ServerStep s e t) :
    PoolStep s.pool t.pool := by
  cases h with
  | accept sock idle => exact .producer () (.call _ sock idle)
  | acceptFails idle => exact .producer () (.call _ (-1) idle)
  | pushTask pool busy step => exact .producer () step
  | worker w pool pc step => exact .worker w step
  | handlerRequest w sock pool pc step => exact .worker w step

/-- What a step of the server keeps. -/
structure Server.Balanced [Fintype ω] (s : Server ω) : Prop where
  distinct : s.pool.tasks.Nodup
  open_iff : ∀ sock, sock ∈ s.pool.tasks ↔ ∃ n, s.conn sock = some n
  accepted : ∀ sock n, s.conn sock = some n → s.accepted[n]? = some sock
  nonneg : ∀ sock n, s.conn sock = some n → 0 ≤ sock
  closedOnce : s.closed.Nodup
  closed_iff : ∀ n, n ∈ s.closed ↔ n < s.accepted.length ∧ ∀ sock, s.conn sock ≠ some n
  balance : s.pool.tasks.card + s.closed.length = s.accepted.length

section
variable [Fintype ω]

theorem initial_balanced : (Server.initial : Server ω).Balanced := by
  have htasks : (Server.initial : Server ω).pool.tasks = 0 := by
    simp [Server.initial, Pool.initial, Pool.tasks, WorkerPc.held, ProducerPc.inHand]
  constructor
  · rw [htasks]
    exact Multiset.nodup_zero
  · intro sock
    rw [htasks]
    simp [Server.initial]
  · intro sock n h
    cases h
  · intro sock n h
    cases h
  · exact List.nodup_nil
  · intro n
    simp [Server.initial]
  · rw [htasks]
    rfl

/-- The threads may move the tasks about. -/
theorem Server.Balanced.move {s : Server ω} (h : s.Balanced) {pool : Pool ω Unit Int}
    (htasks : pool.tasks = s.pool.tasks) : Server.Balanced { s with pool := pool } := by
  constructor
  · rw [htasks]
    exact h.distinct
  · intro sock
    rw [htasks]
    exact h.open_iff sock
  · exact h.accepted
  · exact h.nonneg
  · exact h.closedOnce
  · exact h.closed_iff
  · rw [htasks]
    exact h.balance

theorem Server.Balanced.numbered {s : Server ω} (h : s.Balanced) {sock : Int} {n : Nat}
    (hconn : s.conn sock = some n) : n < s.accepted.length :=
  (List.getElem?_eq_some_iff.mp (h.accepted sock n hconn)).1

/-- A new connection closes none. -/
theorem Server.Balanced.accept_closed {s : Server ω} (h : s.Balanced) {sock : Int}
    (hunused : s.conn sock = none) (n : Nat) :
    n ∈ s.closed ↔ n < s.accepted.length + 1 ∧
      ∀ sock', Function.update s.conn sock (some s.accepted.length) sock' ≠ some n := by
  rw [h.closed_iff]
  constructor
  · rintro ⟨hlt, hnone⟩
    refine ⟨Nat.lt_succ_of_lt hlt, fun sock' => ?_⟩
    by_cases hsock : sock' = sock
    · subst hsock
      simpa using (Nat.ne_of_lt hlt).symm
    · simpa [hsock] using hnone sock'
  · rintro ⟨hlt, hnone⟩
    have hne : n ≠ s.accepted.length := by
      intro heq
      exact hnone sock (by simp [heq])
    refine ⟨Nat.lt_of_le_of_ne (Nat.le_of_lt_succ hlt) hne, fun sock' => ?_⟩
    by_cases hsock : sock' = sock
    · rw [hsock, hunused]
      simp
    · simpa [hsock] using hnone sock'

/-- A connection on an unused descriptor becomes a task of its own. -/
theorem Server.Balanced.accept {s : Server ω} (h : s.Balanced) {sock : Int} (hpos : 0 ≤ sock)
    (hunused : s.conn sock = none) {pool : Pool ω Unit Int}
    (htasks : pool.tasks = sock ::ₘ s.pool.tasks) :
    Server.Balanced { s with
      pool := pool
      conn := Function.update s.conn sock (some s.accepted.length)
      accepted := s.accepted ++ [sock] } := by
  have hnew : sock ∉ s.pool.tasks := by
    rw [h.open_iff, hunused]
    simp
  constructor
  · rw [htasks]
    exact Multiset.nodup_cons.mpr ⟨hnew, h.distinct⟩
  · intro sock'
    rw [htasks, Multiset.mem_cons, h.open_iff]
    by_cases hsock : sock' = sock
    · simp [hsock]
    · simp [hsock]
  · intro sock' n hconn
    by_cases hsock : sock' = sock
    · subst hsock
      obtain rfl : s.accepted.length = n := by simpa using hconn
      exact List.getElem?_concat_length
    · have hold : s.conn sock' = some n := by simpa [hsock] using hconn
      rw [List.getElem?_append_left (h.numbered hold)]
      exact h.accepted sock' n hold
  · intro sock' n hconn
    by_cases hsock : sock' = sock
    · rw [hsock]
      exact hpos
    · exact h.nonneg sock' n (by simpa [hsock] using hconn)
  · exact h.closedOnce
  · intro n
    rw [List.length_append, List.length_singleton]
    exact h.accept_closed hunused n
  · rw [htasks, Multiset.card_cons, List.length_append, ← h.balance]
    simp
    omega

/-- One more is closed. -/
theorem Server.Balanced.close_closed {s : Server ω} (h : s.Balanced) {sock : Int} {n : Nat}
    (hn : s.conn sock = some n) (m : Nat) :
    m ∈ s.closed ++ [n] ↔ m < s.accepted.length ∧
      ∀ sock', Function.update s.conn sock none sock' ≠ some m := by
  rw [List.mem_append, h.closed_iff, List.mem_singleton]
  constructor
  · rintro (⟨hlt, hnone⟩ | rfl)
    · refine ⟨hlt, fun sock' => ?_⟩
      by_cases hsock : sock' = sock
      · simp [hsock]
      · simpa [hsock] using hnone sock'
    · refine ⟨h.numbered hn, fun sock' => ?_⟩
      by_cases hsock : sock' = sock
      · simp [hsock]
      · -- the number belongs to one descriptor
        have hother : s.conn sock' ≠ some m := by
          intro hm
          have hsame := (h.accepted sock' m hm).symm.trans (h.accepted sock m hn)
          exact hsock (Option.some.inj hsame)
        simpa [hsock] using hother
  · rintro ⟨hlt, hnone⟩
    by_cases hm : m = n
    · exact Or.inr hm
    · refine Or.inl ⟨hlt, fun sock' => ?_⟩
      by_cases hsock : sock' = sock
      · rw [hsock, hn]
        simpa using Ne.symm hm
      · simpa [hsock] using hnone sock'

/-- A connection is closed with the task that goes. -/
theorem Server.Balanced.close {s : Server ω} (h : s.Balanced) {sock : Int}
    {pool : Pool ω Unit Int} (htasks : s.pool.tasks = sock ::ₘ pool.tasks) :
    Server.Balanced { s.close sock with pool := pool } := by
  have hdistinct := h.distinct
  rw [htasks] at hdistinct
  obtain ⟨hgone, hrest⟩ := Multiset.nodup_cons.mp hdistinct
  obtain ⟨n, hn⟩ := (h.open_iff sock).mp (by simp [htasks])
  have hopen : n ∉ s.closed := by
    intro hmem
    exact ((h.closed_iff n).mp hmem).2 sock hn
  have hclosed : (s.close sock).closed = s.closed ++ [n] := by
    rw [Server.close, hn]
    rfl
  constructor
  · exact hrest
  · intro sock'
    by_cases hsock : sock' = sock
    · subst hsock
      simpa [Server.close] using hgone
    · simp [Server.close, hsock, ← h.open_iff, htasks]
  · intro sock' m hconn
    by_cases hsock : sock' = sock
    · simp [Server.close, hsock] at hconn
    · exact h.accepted sock' m (by simpa [Server.close, hsock] using hconn)
  · intro sock' m hconn
    by_cases hsock : sock' = sock
    · simp [Server.close, hsock] at hconn
    · exact h.nonneg sock' m (by simpa [Server.close, hsock] using hconn)
  · change (s.close sock).closed.Nodup
    rw [hclosed]
    exact List.Nodup.append h.closedOnce (List.nodup_singleton n) (by simpa using hopen)
  · intro m
    change m ∈ (s.close sock).closed ↔ _
    rw [hclosed]
    exact h.close_closed hn m
  · change pool.tasks.card + (s.close sock).closed.length = _
    have hbalance := h.balance
    rw [htasks, Multiset.card_cons] at hbalance
    rw [hclosed, List.length_append, List.length_singleton]
    change _ = s.accepted.length
    omega

/-- The connections that are open, by their number. -/
theorem Server.Balanced.openConns_length {s : Server ω} (h : s.Balanced) :
    s.openConns.length = s.pool.tasks.card := by
  have hclosed : ((List.range s.accepted.length).filter fun n => n ∈ s.closed).Perm s.closed := by
    apply (List.perm_ext_iff_of_nodup (List.nodup_range.filter _) h.closedOnce).mpr
    intro n
    rw [List.mem_filter, List.mem_range, decide_eq_true_iff]
    exact ⟨fun hn => hn.2, fun hn => ⟨((h.closed_iff n).mp hn).1, hn⟩⟩
  have hsplit := List.length_eq_length_filter_add (l := List.range s.accepted.length)
    fun n => n ∈ s.closed
  have hopen : s.openConns.length =
      ((List.range s.accepted.length).filter fun n => !(n ∈ s.closed)).length := by
    simp [Server.openConns]
  rw [List.length_range, hclosed.length_eq] at hsplit
  have hbalance := h.balance
  omega

theorem Server.Balanced.kept {s : Server ω} (h : s.Balanced) : s.SocketsKept := by
  refine ⟨h.distinct, h.open_iff, h.accepted, h.closedOnce, h.closed_iff, ?_⟩
  rw [h.openConns_length, Pool.tasks, Multiset.card_add, Multiset.card_add, Multiset.coe_card,
    Nat.add_assoc]
  exact Nat.le_add_right _ _

section
variable [DecidableEq ω]

/-- A step in which no `accept` fails. -/
def AcceptingStep (s t : Server ω) : Prop := ∃ e, ServerStep s e t ∧ e ≠ .accept (-1)

theorem acceptingStep_balanced : Preserved (AcceptingStep (ω := ω)) Server.Balanced := by
  rintro s t ⟨e, h, he⟩ hs
  cases h with
  | accept sock idle nonneg unused => exact hs.accept nonneg unused (call_tasks idle sock)
  | acceptFails idle => exact absurd rfl he
  | pushTask pool busy step => exact hs.move (producerStep_tasks step busy)
  | worker w pool pc step => exact hs.move (workerStep_tasks step pc)
  | handlerRequest w sock pool pc step => exact hs.close (processOn_tasks step pc)

theorem reachable_balanced {s : Server ω} (h : Reachable AcceptingStep .initial s) :
    s.Balanced := acceptingStep_balanced.reachable h initial_balanced

/-- **A socket is in one place** until it is closed, and is closed once, in
every run in which no `accept` fails. -/
theorem reachable_sockets {s : Server ω} (h : Reachable AcceptingStep .initial s) :
    s.SocketsKept := (reachable_balanced h).kept

/-- The first `accept` that fails brings in a task without a connection. -/
theorem acceptFails_unkept {s t : Server ω} (h : Reachable AcceptingStep .initial s)
    (hfail : ServerStep s (.accept (-1)) t) : ¬ t.SocketsKept := by
  intro hkept
  have hnone : ∀ n, s.conn (-1) ≠ some n := by
    intro n hn
    exact absurd ((reachable_balanced h).nonneg (-1) n hn) (by decide)
  cases hfail with
  | accept _ idle nonneg => exact absurd nonneg (by decide)
  | acceptFails idle =>
    have hmem : (-1 : Int) ∈ (s.pool.setProducer () (.lock (-1))).tasks := by
      rw [call_tasks idle]
      exact Multiset.mem_cons_self _ _
    obtain ⟨n, hn⟩ := (hkept.open_iff (-1)).mp hmem
    exact hnone n hn

end

end

/-- A connection accepted on descriptor 5, and its task popped. -/
theorem reachable_sockets_popped : ∃ s : Server Unit,
    s.accepted = [5] ∧ s.pool.worker () = .unLock 5 ∧ s.SocketsKept := by
  have start : Reachable AcceptingStep (.initial : Server Unit) .initial := Reachable.start
  have accepted := start.next ⟨_, .accept _ 5 rfl (by decide) rfl, by decide⟩
  have locked := accepted.next ⟨_, .pushTask _ _ (by simp [Pool.setProducer])
    (.lock _ 5 rfl rfl), by decide⟩
  have pushed := locked.next ⟨_, .pushTask _ _ (by simp [Pool.setProducer])
    (.push _ 5 rfl), by decide⟩
  have released := pushed.next ⟨_, .pushTask _ _ (by simp [Pool.setProducer])
    (.unLock _ rfl), by decide⟩
  have taken := released.next ⟨_, .worker _ () _ (by simp [Pool.setProducer, Server.initial,
    Pool.initial]) (.lock _ rfl rfl), by decide⟩
  have tested := taken.next ⟨_, .worker _ () _ (by simp [Pool.setWorker])
    (.testTask _ false rfl (List.cons_ne_nil 5 [])), by decide⟩
  have popped := tested.next ⟨_, .worker _ () _ (by simp [Pool.setWorker])
    (.popTask _ 5 [] rfl rfl), by decide⟩
  exact ⟨_, rfl, rfl, reachable_sockets popped⟩

/-- An `accept` that fails, on a server without a connection. -/
theorem reachable_sockets_none : ∃ s : Server Unit,
    Reachable (fun s t => ∃ e, ServerStep s e t) .initial s ∧ s.accepted = [] ∧
      s.pool.taskQueue = [-1] ∧ ¬ s.SocketsKept := by
  have start : Reachable (fun s t => ∃ e, ServerStep s e t) (.initial : Server Unit) .initial :=
    Reachable.start
  have failed := start.next ⟨_, .acceptFails _ rfl⟩
  have locked := failed.next ⟨_, .pushTask _ _ (by simp [Pool.setProducer])
    (.lock _ (-1) rfl rfl)⟩
  have pushed := locked.next ⟨_, .pushTask _ _ (by simp [Pool.setProducer])
    (.push _ (-1) rfl)⟩
  refine ⟨_, pushed, rfl, rfl, fun h => ?_⟩
  exact absurd h.bound (by decide)

end MinHttp

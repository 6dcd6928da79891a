import MinHttp.Drain

/-! The connections of a server whose `accept` may fail, and what becomes of
them once `Loop` accepts no more. -/
namespace MinHttp

open Lib.Runs
open Lib.Halting

variable {ω : Type}

/-- A step of the server, whatever happens in it. -/
def LoopStep [DecidableEq ω] (s t : Server ω) : Prop := ∃ e, ServerStep s e t

theorem close_unknown {s : Server ω} {sock : Int} (h : s.conn sock = none) :
    s.close sock = s := by
  rw [Server.close, h, Function.update_eq_self_iff.mpr h.symm]
  simp

section
variable [Fintype ω]

/-- The tasks that carry a descriptor. -/
def Pool.sockets {π : Type} [Fintype π] (s : Pool ω π Int) : Multiset Int :=
  s.tasks.filter (0 ≤ ·)

/-- The same connections, with the tasks that carry a descriptor all in the
queue and no others. -/
noncomputable def Server.connections (s : Server ω) : Server ω :=
  { s with pool := { Pool.initial with taskQueue := s.pool.sockets.toList } }

@[simp] theorem connections_tasks (s : Server ω) :
    s.connections.pool.tasks = s.pool.sockets := by
  simp [Server.connections, Pool.initial, Pool.tasks, WorkerPc.held, ProducerPc.inHand]

/-- The threads move the tasks about. -/
theorem connections_move {s : Server ω} (h : s.connections.Balanced) {pool : Pool ω Unit Int}
    (htasks : pool.sockets = s.pool.sockets) :
    (Server.connections { s with pool := pool }).Balanced :=
  h.move ((connections_tasks { s with pool := pool }).trans
    (htasks.trans (connections_tasks s).symm))

variable [DecidableEq ω]

theorem loopStep_connections :
    Preserved (LoopStep (ω := ω)) fun s => s.connections.Balanced := by
  rintro s t ⟨e, h⟩ hs
  cases h with
  | accept sock idle nonneg unused =>
    refine hs.accept nonneg unused ?_
    refine (connections_tasks _).trans ?_
    rw [connections_tasks, Pool.sockets, call_tasks idle]
    exact Multiset.filter_cons_of_pos _ nonneg
  | acceptFails idle =>
    apply connections_move hs
    rw [Pool.sockets, call_tasks idle]
    exact Multiset.filter_cons_of_neg _ (by decide)
  | pushTask pool busy step =>
    apply connections_move hs
    rw [Pool.sockets, producerStep_tasks step busy]
    rfl
  | worker w pool pc step =>
    apply connections_move hs
    rw [Pool.sockets, workerStep_tasks step pc]
    rfl
  | handlerRequest w sock pool pc step =>
    have htasks := processOn_tasks step pc
    by_cases hsock : 0 ≤ sock
    · refine hs.close ?_
      rw [connections_tasks, Pool.sockets, htasks, Multiset.filter_cons_of_pos _ hsock]
      exact congrArg (sock ::ₘ ·) (connections_tasks { s.close sock with pool := pool }).symm
    · have hunknown : s.conn sock = none := by
        rw [Option.eq_none_iff_forall_ne_some]
        intro n hn
        exact hsock (hs.nonneg sock n hn)
      rw [close_unknown hunknown]
      apply connections_move hs
      rw [Pool.sockets, Pool.sockets, htasks]
      exact (Multiset.filter_cons_of_neg _ hsock).symm

theorem reachable_connections {s : Server ω} (h : Reachable LoopStep .initial s) :
    s.connections.Balanced := by
  refine loopStep_connections.reachable h ?_
  refine initial_balanced.move ((connections_tasks _).trans ?_)
  simp [Pool.sockets, Server.initial, Pool.initial, Pool.tasks, WorkerPc.held, ProducerPc.inHand]

end

/-- The tasks that carry a descriptor are the open connections, each once, and
the others have been closed once. -/
structure Server.ConnectionsKept [Fintype ω] (s : Server ω) : Prop where
  distinct : s.pool.sockets.Nodup
  open_iff : ∀ sock, sock ∈ s.pool.sockets ↔ ∃ n, s.conn sock = some n
  accepted : ∀ sock n, s.conn sock = some n → s.accepted[n]? = some sock
  closedOnce : s.closed.Nodup
  closed_iff : ∀ n, n ∈ s.closed ↔ n < s.accepted.length ∧ ∀ sock, s.conn sock ≠ some n
  openConns : s.openConns.length = s.pool.sockets.card

/-- **A failed `accept` disturbs no connection**: its task has no descriptor,
and the others are handled and closed as if it were not there. -/
theorem reachable_connectionsKept [Fintype ω] [DecidableEq ω] {s : Server ω}
    (h : Reachable LoopStep .initial s) : s.ConnectionsKept := by
  have hs := reachable_connections h
  have hopen := hs.openConns_length
  obtain ⟨hdistinct, hopen_iff, haccepted, -, honce, hclosed, -⟩ := hs
  rw [connections_tasks] at hdistinct hopen
  simp only [connections_tasks] at hopen_iff
  exact ⟨hdistinct, hopen_iff, haccepted, honce, hclosed, hopen⟩

/-- A connection is accepted and pushed, and the next `accept` fails. -/
theorem accepted_failed : ∃ s : Server Unit, Reachable LoopStep .initial s ∧
    s.accepted = [5] ∧ s.pool.taskQueue = [5] ∧ s.pool.producer () = .lock (-1) := by
  have start : Reachable LoopStep (.initial : Server Unit) .initial := Reachable.start
  have accepted := start.next ⟨_, .accept _ 5 rfl (by decide) rfl⟩
  have locked := accepted.next ⟨_, .pushTask _ _ (by simp [Pool.setProducer])
    (.lock _ 5 rfl rfl)⟩
  have pushed := locked.next ⟨_, .pushTask _ _ (by simp [Pool.setProducer]) (.push _ 5 rfl)⟩
  have released := pushed.next ⟨_, .pushTask _ _ (by simp [Pool.setProducer]) (.unLock _ rfl)⟩
  have signalled := released.next ⟨_, .pushTask _ _ (by simp [Pool.setProducer])
    (.wakeup _ (fun _ => true) rfl fun hw => hw.imp fun _ hpc => ⟨hpc, rfl⟩)⟩
  exact ⟨_, signalled.next ⟨_, .acceptFails _ rfl⟩, rfl, rfl, rfl⟩

theorem reachable_connectionsKept_failed : ∃ s : Server Unit,
    s.accepted = [5] ∧ s.pool.producer () = .lock (-1) ∧ s.ConnectionsKept := by
  obtain ⟨s, hs, haccepted, -, hproducer⟩ := accepted_failed
  exact ⟨s, haccepted, hproducer, reachable_connectionsKept hs⟩

section
variable [DecidableEq ω]

/-- A step the threads owe, on the server. -/
def ServerDrain (s t : Server ω) : Prop := ServerStep s .thread t ∧ DrainStep s.pool t.pool

theorem serverDrain_accepted {s t : Server ω} (h : ServerDrain s t) : t.accepted = s.accepted := by
  cases h.1 <;> rfl

variable [Fintype ω]

theorem reachable_pool {s : Server ω} (h : Reachable LoopStep .initial s) :
    s.pool.Owned ∧ s.pool.Covered := by
  have hkept : Preserved LoopStep fun s : Server ω => s.pool.Owned ∧ s.pool.Covered := by
    rintro _ _ ⟨e, hstep⟩
    exact poolStep_covered (serverStep_pool hstep)
  exact hkept.reachable h ⟨initial_owned, initial_covered⟩

/-- A server with nothing to do has closed every connection it accepted. -/
theorem closed_of_quiet {s : Server ω} (h : Reachable LoopStep .initial s)
    (hquiet : s.pool.Quiet) :
    s.closed.Perm (List.range s.accepted.length) := by
  have hbalanced := reachable_connections h
  have hsockets : s.connections.pool.tasks = 0 := by
    rw [connections_tasks, Pool.sockets, hquiet.tasks]
    rfl
  have hconn : ∀ sock, s.conn sock = none := by
    intro sock
    rw [Option.eq_none_iff_forall_ne_some]
    intro n hn
    have hmem := (hbalanced.open_iff sock).mpr ⟨n, hn⟩
    rw [hsockets] at hmem
    exact absurd hmem (Multiset.notMem_zero sock)
  apply (List.perm_ext_iff_of_nodup hbalanced.closedOnce List.nodup_range).mpr
  intro n
  have hclosed : n ∈ s.closed ↔ n < s.accepted.length ∧ ∀ sock, s.conn sock ≠ some n :=
    hbalanced.closed_iff n
  refine hclosed.trans ?_
  rw [List.mem_range]
  simp [hconn]

end

end MinHttp

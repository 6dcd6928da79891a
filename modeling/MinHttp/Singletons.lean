import MinHttp.Lib.Once

/-! `GetInstance` of ThreadPool.hpp and of TcpServer.hpp, called by any number
of threads. -/
namespace MinHttp

open Lib.Runs
open Lib.Once (Init Pc State Step Exclusive SeesDone Single initial)

/-- The loop of `InitThreadPool`, at its test with `i`; the object counts the
threads it has started. -/
inductive InitThreadPool (num : Nat) : Nat → Nat → Option Nat → Nat → Prop
  | create (i workers : Nat) (more : i < num) :
      InitThreadPool num i workers (some (i + 1)) (workers + 1)
  | createFails (i workers : Nat) (more : i < num) : InitThreadPool num i workers none workers
  | done (i workers : Nat) (all : ¬ i < num) : InitThreadPool num i workers none workers

def threadPool (num : Nat) : Init Nat Nat where
  fresh := 0
  start := 0
  step := InitThreadPool num
  exits _ _ := False

/-- The threads started for the first `n` objects. -/
def workersStarted (object : Nat → Nat) : Nat → Nat
  | 0 => 0
  | n + 1 => workersStarted object n + object n

/-- `mymutex` is a local variable: each call locks its own. -/
abbrev PoolCalls (κ : Type) := State κ κ Nat Nat

structure PoolSingle {κ : Type} (num : Nat) (s : PoolCalls κ) : Prop where
  made : s.made ≤ 1
  workers : workersStarted s.object s.made ≤ num
  returned : ∀ j k p q, s.pc j = .returned p → s.pc k = .returned q → p = q

theorem threadPool_meets (num : Nat) :
    (threadPool num).Meets (fun i workers => workers = i ∧ i ≤ num) fun workers =>
      workers ≤ num := by
  constructor
  · exact ⟨rfl, Nat.zero_le num⟩
  · rintro a b x y ⟨rfl, -⟩ h
    cases h with
    | create more => exact ⟨rfl, more⟩
  · rintro a x y ⟨rfl, hle⟩ h
    cases h <;> exact hle

section
variable {κ : Type} {num : Nat}

theorem workers_le {s : PoolCalls κ} (h : Single (threadPool num)
    (fun i workers => workers = i ∧ i ≤ num) (fun workers => workers ≤ num) s) :
    workersStarted s.object s.made ≤ num := by
  rcases h.made with ⟨-, hmade⟩ | ⟨hset, hmade⟩
  · rw [hmade]
    exact Nat.zero_le num
  · have hobject : s.object 0 ≤ num := by
      by_cases hnobody : ∀ k, ¬ (s.pc k).Building
      · exact h.done hset hnobody
      · obtain ⟨k, hk⟩ := not_forall_not.mp hnobody
        cases hpc : s.pc k with
        | construct =>
          rw [h.construct k hpc] at hset
          cases hset
        | callInit =>
          rw [h.callInit k hpc]
          exact Nat.zero_le num
        | init o a =>
          obtain ⟨-, hworkers, hle⟩ := h.init k o a hpc
          rw [hworkers]
          exact hle
        | _ =>
          rw [hpc] at hk
          exact hk.elim
    rw [hmade, workersStarted, workersStarted, Nat.zero_add]
    exact hobject

/-- **One thread pool**, in every run in which no call finds no pool while
another is about to store one. -/
theorem reachable_threadPool [DecidableEq κ] {s : PoolCalls κ}
    (h : Reachable (Exclusive (threadPool num) id) (initial (threadPool num)) s) :
    PoolSingle num s := by
  have hsingle := Lib.Once.reachable_single (threadPool_meets num) h
  constructor
  · exact hsingle.made_le
  · exact workers_le hsingle
  · intro j k p q hp hq
    rw [(hsingle.returned j p hp).1, (hsingle.returned k q hq).1]

/-- Where a call does find no pool while another is about to store one, there
can be two. -/
theorem threadPool_exposes [DecidableEq κ] {s : PoolCalls κ} (hrun : s.exited = false) {j k : κ}
    (hj : s.pc j = .construct) (hk : s.pc k = .recheck) (hnull : s.pointer = none) :
    ∃ t, Reachable (Step (threadPool num) id) s t ∧ ¬ PoolSingle num t := by
  have hjk : j ≠ k := by
    rintro rfl
    rw [hk] at hj
    cases hj
  have found := Reachable.start.next
    (show Step (threadPool num) id s _ from ⟨hrun, k, .recheckNull s hk hnull⟩)
  have stored := found.next ⟨hrun, j, .construct _ (by simp [State.setPc, hjk, hj])⟩
  have stored' := stored.next ⟨hrun, k, .construct _ (by simp [State.setPc, hjk.symm])⟩
  refine ⟨_, stored', fun h => ?_⟩
  have hmade : s.made + 1 + 1 ≤ 1 := h.made
  omega

end

/-- A call that makes the pool, whose first thread cannot be started. -/
theorem reachable_threadPool_oneCall : ∃ s : PoolCalls Bool,
    s.pc false = .returned (some 0) ∧ PoolSingle 6 s := by
  have start : Reachable (Exclusive (threadPool 6) id) (initial (threadPool 6) : PoolCalls Bool)
      (initial (threadPool 6)) := Reachable.start
  have locked := (start.next ⟨rfl, false, .checkNull _ rfl rfl, fun h => nomatch h⟩).next
    ⟨rfl, false, .lock _ rfl rfl, fun h => nomatch h⟩
  have stored := (locked.next ⟨rfl, false, .recheckNull _ rfl rfl, by
    intro _ _ j h
    cases j <;> cases h⟩).next ⟨rfl, false, .construct _ rfl, fun h => nomatch h⟩
  have ended := (stored.next ⟨rfl, false, .callInit _ 0 rfl rfl, fun h => nomatch h⟩).next
    ⟨rfl, false, .initDone _ 0 0 0 rfl (.createFails 0 0 (by decide)), fun h => nomatch h⟩
  have returned := (ended.next ⟨rfl, false, .unlock _ rfl, fun h => nomatch h⟩).next
    ⟨rfl, false, .ret _ rfl, fun h => nomatch h⟩
  exact ⟨_, rfl, reachable_threadPool returned⟩

/-- Two calls that find no pool, each behind its own mutex. -/
theorem reachable_threadPool_twice : ∃ s : PoolCalls Bool,
    Reachable (Step (threadPool 6) id) (initial (threadPool 6)) s ∧ s.made = 2 ∧
      s.pc false = .returned (some 0) ∧ s.pc true = .returned (some 1) ∧ ¬ PoolSingle 6 s := by
  have hfails : InitThreadPool 6 0 0 none 0 := .createFails 0 0 (by decide)
  have start : Reachable (Step (threadPool 6) id) (initial (threadPool 6) : PoolCalls Bool)
      (initial (threadPool 6)) := Reachable.start
  have first := ((start.next ⟨rfl, false, .checkNull _ rfl rfl⟩).next
    ⟨rfl, false, .lock _ rfl rfl⟩).next ⟨rfl, false, .recheckNull _ rfl rfl⟩
  have second := ((first.next ⟨rfl, true, .checkNull _ rfl rfl⟩).next
    ⟨rfl, true, .lock _ rfl rfl⟩).next ⟨rfl, true, .recheckNull _ rfl rfl⟩
  have stored := (second.next ⟨rfl, false, .construct _ rfl⟩).next
    ⟨rfl, false, .callInit _ 0 rfl rfl⟩
  have ended := ((stored.next ⟨rfl, false, .initDone _ 0 0 0 rfl hfails⟩).next
    ⟨rfl, false, .unlock _ rfl⟩).next ⟨rfl, false, .ret _ rfl⟩
  have stored' := (ended.next ⟨rfl, true, .construct _ rfl⟩).next
    ⟨rfl, true, .callInit _ 1 rfl rfl⟩
  have ended' := ((stored'.next ⟨rfl, true, .initDone _ 1 0 0 rfl hfails⟩).next
    ⟨rfl, true, .unlock _ rfl⟩).next ⟨rfl, true, .ret _ rfl⟩
  refine ⟨_, ended', rfl, rfl, rfl, fun h => ?_⟩
  exact absurd h.made (by decide)

structure TcpServer where
  listensock : Int
  bound : Bool
  listening : Bool
  deriving DecidableEq, Repr

def TcpServer.getSock (t : TcpServer) : Int := t.listensock

/-- The three steps of `InitServer`. -/
inductive InitServer
  | socket
  | bind
  | listen
  deriving DecidableEq, Repr

inductive InitServerStep : InitServer → TcpServer → Option InitServer → TcpServer → Prop
  | socket (t : TcpServer) (sock : Int) (ok : 0 ≤ sock) :
      InitServerStep .socket t (some .bind) { t with listensock := sock }
  | bind (t : TcpServer) : InitServerStep .bind t (some .listen) { t with bound := true }
  | listen (t : TcpServer) : InitServerStep .listen t none { t with listening := true }

/-- Where one of the three calls fails the process exits. -/
def tcpServer : Init TcpServer InitServer where
  fresh := ⟨-1, false, false⟩
  start := .socket
  step := InitServerStep
  exits _ _ := True

/-- The socket has been created, bound and put in the listening state. -/
def TcpServer.Listens (t : TcpServer) : Prop :=
  0 ≤ t.getSock ∧ t.bound = true ∧ t.listening = true

/-- `lock` is static: every call locks the same. -/
abbrev ServerCalls (κ : Type) := State κ Unit TcpServer InitServer

def oneLock {κ : Type} (_ : κ) : Unit := ()

/-- One server at most, and one that listens wherever a pointer is returned. -/
structure ServerReady {κ : Type} (s : ServerCalls κ) : Prop where
  made : s.made ≤ 1
  returned : ∀ k p, s.pc k = .returned p → s.made = 1 ∧ ∃ o, p = some o ∧ (s.object o).Listens

/-- What the calls before the next one have done. -/
def InitServer.Begun : InitServer → TcpServer → Prop
  | .socket, t => t.listening = false
  | .bind, t => 0 ≤ t.getSock ∧ t.listening = false
  | .listen, t => 0 ≤ t.getSock ∧ t.bound = true ∧ t.listening = false

theorem tcpServer_meets : tcpServer.Meets InitServer.Begun TcpServer.Listens := by
  constructor
  · rfl
  · intro a b x y hbegun h
    cases h with
    | socket _ sock ok => exact ⟨ok, hbegun⟩
    | bind => exact ⟨hbegun.1, rfl, hbegun.2⟩
  · intro a x y hbegun h
    cases h with
    | listen => exact ⟨hbegun.1, hbegun.2.1, rfl⟩

theorem begun_not_listens (a : InitServer) (t : TcpServer) (h : a.Begun t) : ¬ t.Listens := by
  rintro ⟨-, -, hlistening⟩
  cases a <;> simp_all [InitServer.Begun]

section
variable {κ : Type} [DecidableEq κ]

/-- With the static mutex every run makes one server at most, and returns its
pointer only. -/
theorem reachable_oneServer {s : ServerCalls κ}
    (h : Reachable (Step tcpServer oneLock) (initial tcpServer) s) :
    s.made ≤ 1 ∧ ∀ k p, s.pc k = .returned p → p = some 0 := by
  have hsingle := Lib.Once.reachable_single_of_one (fun _ _ => rfl) tcpServer_meets h
  constructor
  · exact hsingle.made_le
  · intro k p hp
    exact (hsingle.returned k p hp).1

/-- **The server is seen ready**, in every run in which no first check finds a
server that does not listen yet. -/
theorem reachable_tcpServer {s : ServerCalls κ}
    (h : Reachable (SeesDone tcpServer oneLock TcpServer.Listens) (initial tcpServer) s) :
    ServerReady s := by
  obtain ⟨hsingle, hserved⟩ := Lib.Once.reachable_served (fun _ _ => rfl) tcpServer_meets
    begun_not_listens h
  constructor
  · exact hsingle.made_le
  · intro k p hp
    obtain ⟨rfl, hset⟩ := hsingle.returned k p hp
    exact ⟨hsingle.made_one hset, 0, rfl, hserved k (by rw [hp]; trivial)⟩

/-- Where a first check does find a server that does not listen yet, the call
can return it. -/
theorem tcpServer_exposes {s : ServerCalls κ} (hrun : s.exited = false) {k : κ} {o : Nat}
    (hk : s.pc k = .check) (hset : s.pointer = some o) (hnot : ¬ (s.object o).Listens) :
    ∃ t, Reachable (Step tcpServer oneLock) s t ∧ ¬ ServerReady t := by
  have found := Reachable.start.next
    (show Step tcpServer oneLock s _ from ⟨hrun, k, .checkSet s hk (by simp [hset])⟩)
  have returned := found.next ⟨hrun, k, .ret _ (by simp [State.setPc])⟩
  refine ⟨_, returned, fun h => ?_⟩
  obtain ⟨-, o', ho, hlistens⟩ := h.returned k s.pointer (by simp [State.setPc])
  obtain rfl : o = o' := Option.some.inj (hset.symm.trans ho)
  exact hnot hlistens

end

/-- A call that makes the server, on descriptor 3. -/
theorem reachable_tcpServer_oneCall : ∃ s : ServerCalls Bool,
    s.pc false = .returned (some 0) ∧ (s.object 0).getSock = 3 ∧ ServerReady s := by
  have hsocket : InitServerStep .socket ⟨-1, false, false⟩ (some .bind) ⟨3, false, false⟩ :=
    .socket ⟨-1, false, false⟩ 3 (by decide)
  have hbind : InitServerStep .bind ⟨3, false, false⟩ (some .listen) ⟨3, true, false⟩ := .bind _
  have hlisten : InitServerStep .listen ⟨3, true, false⟩ none ⟨3, true, true⟩ := .listen _
  have start : Reachable (SeesDone tcpServer oneLock TcpServer.Listens)
      (initial tcpServer : ServerCalls Bool) (initial tcpServer) := Reachable.start
  have locked := (start.next ⟨rfl, false, .checkNull _ rfl rfl, fun _ _ h => nomatch h⟩).next
    ⟨rfl, false, .lock _ rfl rfl, fun h => nomatch h⟩
  have stored := (locked.next ⟨rfl, false, .recheckNull _ rfl rfl, fun h => nomatch h⟩).next
    ⟨rfl, false, .construct _ rfl, fun h => nomatch h⟩
  have called := stored.next ⟨rfl, false, .callInit _ 0 rfl rfl, fun h => nomatch h⟩
  have created := called.next ⟨rfl, false, .init _ 0 .socket .bind ⟨3, false, false⟩ rfl (by exact hsocket),
    fun h => nomatch h⟩
  have bound := created.next ⟨rfl, false, .init _ 0 .bind .listen ⟨3, true, false⟩ rfl (by exact hbind),
    fun h => nomatch h⟩
  have ended := bound.next ⟨rfl, false, .initDone _ 0 .listen ⟨3, true, true⟩ rfl (by exact hlisten),
    fun h => nomatch h⟩
  have returned := (ended.next ⟨rfl, false, .unlock _ rfl, fun h => nomatch h⟩).next
    ⟨rfl, false, .ret _ rfl, fun h => nomatch h⟩
  exact ⟨_, rfl, rfl, reachable_tcpServer returned⟩

/-- The pointer is stored, and another call returns it before `Socket`. -/
theorem reachable_tcpServer_early : ∃ s : ServerCalls Bool,
    Reachable (Step tcpServer oneLock) (initial tcpServer) s ∧
      s.pc true = .returned (some 0) ∧ (s.object 0).getSock = -1 ∧ ¬ ServerReady s := by
  have start : Reachable (Step tcpServer oneLock) (initial tcpServer : ServerCalls Bool)
      (initial tcpServer) := Reachable.start
  have locked := (start.next ⟨rfl, false, .checkNull _ rfl rfl⟩).next
    ⟨rfl, false, .lock _ rfl rfl⟩
  have stored := (locked.next ⟨rfl, false, .recheckNull _ rfl rfl⟩).next
    ⟨rfl, false, .construct _ rfl⟩
  have returned := (stored.next ⟨rfl, true, .checkSet _ rfl (by simp)⟩).next
    ⟨rfl, true, .ret _ rfl⟩
  refine ⟨_, returned, rfl, rfl, fun h => ?_⟩
  obtain ⟨-, o, ho, hlistens⟩ := h.returned true (some 0) rfl
  cases ho
  exact absurd hlistens.1 (by decide)

end MinHttp

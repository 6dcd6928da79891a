import MinHttp.Closing
import MinHttp.Delivery
import MinHttp.HandOff

/-! The server with what it sends: any number of workers in `HandlerRequest` at
once, each call of `send` a step of its own. -/
namespace MinHttp

open Lib.Runs
open Lib.Halting

/-! ## The calls of one request -/

section
variable {β : Type} (o : Sender)

/-- The loop over `Resp_head`, call by call. -/
def sendHeadCalls (i : Nat) : List (List β) → List (List β)
  | [] => []
  | iter :: head => sendPiece o i iter :: sendHeadCalls (i + 1) head

/-- The loop over the body, call by call. -/
def sendBodyCalls (i : Nat) (body : List β) (total : Nat) : List (List β) :=
  if total < body.length then
    let sent := o.result i (body.length - total)
    let size := if sent > 0 then 1 else 0
    if size = 1 then
      (body.drop total).take sent.toNat :: sendBodyCalls (i + 1) body (total + 1)
    else []
  else []
termination_by body.length - total

/-- What each call of `SendHttpResquese` puts on the socket. -/
def Reply.calls (r : Reply β) : List (List β) :=
  sendPiece o 0 r.statusLine :: sendHeadCalls o 1 r.respHead ++
    sendPiece o (1 + r.respHead.length) r.blank ::
    if r.cgi then sendBodyCalls o (2 + r.respHead.length) r.respBody 0
    else [sendfile o (2 + r.respHead.length) r.file r.size]

theorem sendHeadCalls_flatten (i : Nat) (head : List (List β)) :
    (sendHeadCalls o i head).flatten = sendHead o i head := by
  induction head generalizing i with
  | nil => rfl
  | cons iter head ih => rw [sendHeadCalls, List.flatten_cons, ih, sendHead]

theorem sendBodyCalls_flatten (i : Nat) (body : List β) (total : Nat) :
    (sendBodyCalls o i body total).flatten = sendBodyLoop o i body total := by
  fun_induction sendBodyCalls o i body total with
  | case1 i total hlt sent size hsize ih =>
    rw [sendBodyLoop, if_pos hlt, List.flatten_cons, ih]
    exact (if_pos hsize).symm
  | case2 i total hlt sent size hsize =>
    rw [sendBodyLoop, if_pos hlt]
    exact (if_neg hsize).symm
  | case3 i total hlt => rw [sendBodyLoop, if_neg hlt, List.flatten_nil]

/-- The calls together send the response. -/
theorem Reply.calls_flatten (r : Reply β) : (r.calls o).flatten = r.send o := by
  rw [Reply.calls, Reply.send, List.flatten_append, List.flatten_cons, sendHeadCalls_flatten,
    List.flatten_cons, ← List.append_assoc]
  congr 1
  split
  · exact sendBodyCalls_flatten o _ _ _
  · exact List.append_nil _

end

/-- What decides the answer to one connection. -/
structure Client where
  flowsOff : EndPoint → Bool
  world : World
  sender : Sender
  files : Int → Option Bytes
  sock : Sock
  size : Int

/-- Alone with the server, a client gets this. -/
def Client.handled (c : Client) : Handled :=
  handlerRequest c.flowsOff c.world c.sender c.files c.sock c.size

/-- The same, call by call. -/
def Client.calls (c : Client) : List Bytes :=
  let ep := recvHttpRequest c.flowsOff (.new c.sock c.size)
  if ep.isStop then [] else ((buildHttpResponse c.world ep).1.reply c.files).calls c.sender

theorem Client.calls_flatten (c : Client) : c.calls.flatten = c.handled.sent := by
  rw [Client.calls, Client.handled, handlerRequest]
  dsimp only
  split
  · rfl
  · exact Reply.calls_flatten _ _

/-- The calls on each connection, and those on a descriptor that has none. -/
def answers (clients : Nat → Client) (astray : List Bytes) : Option Nat → List Bytes
  | some n => (clients n).calls
  | none => astray

/-! ## All requests at once -/

variable {ω : Type}

/-- The server with what its connections have been sent. `left` has the calls
that a worker in `HandlerRequest` has yet to make, once it has built its answer. -/
structure Serving (ω : Type) where
  server : Server ω
  left : ω → Option (List Bytes)
  sent : Nat → Bytes

def Serving.initial : Serving ω := ⟨.initial, fun _ => none, fun _ => []⟩

/-- `send(sock, ...)`, to whichever connection has the descriptor. -/
def Serving.sendTo (s : Serving ω) (sock : Int) (bytes : Bytes) : Nat → Bytes :=
  match s.server.conn sock with
  | some n => Function.update s.sent n (s.sent n ++ bytes)
  | none => s.sent

theorem sendTo_conn {s : Serving ω} {sock : Int} {n : Nat} (h : s.server.conn sock = some n)
    (bytes : Bytes) : s.sendTo sock bytes n = s.sent n ++ bytes := by
  rw [Serving.sendTo, h]
  exact Function.update_self _ _ _

theorem sendTo_other {s : Serving ω} {sock : Int} {n : Nat} (h : s.server.conn sock ≠ some n)
    (bytes : Bytes) : s.sendTo sock bytes n = s.sent n := by
  rw [Serving.sendTo]
  cases hm : s.server.conn sock with
  | none => rfl
  | some m =>
    have hne : n ≠ m := fun hnm => h (hnm ▸ hm)
    exact Function.update_of_ne hne _ _

/-- `answer` has the calls for each connection, and those on a descriptor that
no connection has. A request is received and its answer built in one step, for
the connection that has the descriptor then. No call is held up by its client:
every `HandlerRequest` can come to its end. -/
inductive ServingStep [DecidableEq ω] (answer : Option Nat → List Bytes) :
    Serving ω → Serving ω → Prop
  | server (s) (e : Event) (t : Server ω) (step : ServerStep s.server e t)
      (handling : ∀ w sock, s.server.pool.worker w = .processOn sock →
        t.pool.worker w = .processOn sock) :
      ServingStep answer s { s with server := t }
  | recv (s) (w : ω) (sock : Int) (pc : s.server.pool.worker w = .processOn sock)
      (fresh : s.left w = none) :
      ServingStep answer s { s with
        left := Function.update s.left w (some (answer (s.server.conn sock))) }
  | send (s) (w : ω) (sock : Int) (bytes : Bytes) (rest : List Bytes)
      (pc : s.server.pool.worker w = .processOn sock) (next : s.left w = some (bytes :: rest)) :
      ServingStep answer s { s with
        left := Function.update s.left w (some rest)
        sent := s.sendTo sock bytes }
  | close (s) (w : ω) (sock : Int) (pool : Pool ω Unit Int)
      (pc : s.server.pool.worker w = .processOn sock) (done : s.left w = some [])
      (step : WorkerStep w s.server.pool pool) :
      ServingStep answer s { s with
        server := { s.server.close sock with pool := pool }
        left := Function.update s.left w none }

/-- A connection has one descriptor. -/
theorem Server.Balanced.conn_alone [Fintype ω] {s : Server ω} (h : s.Balanced) {sock sock' : Int}
    {n : Nat} (hn : s.conn sock = some n) (hn' : s.conn sock' = some n) : sock = sock' :=
  Option.some.inj ((h.accepted sock n hn).symm.trans (h.accepted sock' n hn'))

/-- What a step outside `HandlerRequest` does to the connections. -/
structure Server.Unhandled (s t : Server ω) : Prop where
  closed : t.closed = s.closed
  accepted : s.accepted.length ≤ t.accepted.length
  conn : ∀ sock n, t.conn sock = some n → s.conn sock = some n ∨
    n = s.accepted.length ∧ 0 ≤ sock ∧ s.conn sock = none
  worker : ∀ w sock, t.pool.worker w = .processOn sock →
    s.pool.worker w = .processOn sock ∨ s.pool.worker w = .unLock sock

/-- No step but the last of `HandlerRequest` closes a connection. -/
theorem serverStep_unhandled [DecidableEq ω] {e : Event} {s t : Server ω} (h : ServerStep s e t)
    (hhandling : ∀ w sock, s.pool.worker w = .processOn sock →
      t.pool.worker w = .processOn sock) : s.Unhandled t := by
  cases h with
  | accept sock idle nonneg unused =>
    refine ⟨rfl, by simp, fun sock' n hn => ?_, fun w sock' hw => Or.inl hw⟩
    by_cases hsock : sock' = sock
    · subst hsock
      obtain rfl : s.accepted.length = n := by simpa using hn
      exact Or.inr ⟨rfl, nonneg, unused⟩
    · exact Or.inl (by simpa [hsock] using hn)
  | acceptFails idle =>
    exact ⟨rfl, Nat.le_refl _, fun _ _ hn => Or.inl hn, fun w sock' hw => Or.inl hw⟩
  | pushTask pool busy step =>
    exact ⟨rfl, Nat.le_refl _, fun _ _ hn => Or.inl hn,
      fun w sock' hw => Or.inl (producerStep_processOn step hw)⟩
  | worker w pool pc step =>
    exact ⟨rfl, Nat.le_refl _, fun _ _ hn => Or.inl hn,
      fun w sock' hw => workerStep_processOn step hw⟩
  | handlerRequest w sock pool pc step =>
    have hstill := hhandling w sock pc
    cases step with
    | processOn task pc' => simp [Pool.setWorker] at hstill
    | _ => simp_all

/-! ## What each connection has been sent -/

/-- What worker `w` has yet to send on connection `n`. -/
def Serving.toSend (answer : Option Nat → List Bytes) (s : Serving ω) (w : ω) (n : Nat) :
    List Bytes := (s.left w).getD (answer (some n))

/-- Nothing is sent before a worker has the connection, then its answer call by
call, and nothing after that. -/
structure Serving.Sequential (answer : Option Nat → List Bytes) (s : Serving ω) : Prop where
  idle : ∀ w, (∀ sock, s.server.pool.worker w ≠ .processOn sock) → s.left w = none
  waiting : ∀ sock n, s.server.conn sock = some n →
    (∀ w, s.server.pool.worker w ≠ .processOn sock) → s.sent n = []
  handling : ∀ w sock n, s.server.pool.worker w = .processOn sock → s.server.conn sock = some n →
    s.sent n ++ (s.toSend answer w n).flatten = (answer (some n)).flatten
  closed : ∀ n ∈ s.server.closed, s.sent n = (answer (some n)).flatten
  future : ∀ n, s.server.accepted.length ≤ n → s.sent n = []

theorem initial_sequential (answer : Option Nat → List Bytes) :
    (Serving.initial : Serving ω).Sequential answer :=
  ⟨fun _ _ => rfl, fun _ _ h => (by cases h), fun _ _ _ h => (by cases h),
    fun _ h => (by cases h), fun _ _ => rfl⟩

/-- A worker takes up a request, and will send what it answers. -/
theorem sequential_recv [DecidableEq ω] {answer : Option Nat → List Bytes} {s : Serving ω}
    (hs : s.Sequential answer) {w : ω} {sock : Int}
    (pc : s.server.pool.worker w = .processOn sock) (fresh : s.left w = none) :
    Serving.Sequential answer { s with
      left := Function.update s.left w (some (answer (s.server.conn sock))) } := by
  refine ⟨fun v hv => ?_, hs.waiting, fun v sock' n hv hn => ?_, hs.closed, hs.future⟩
  · have hne : v ≠ w := by
      rintro rfl
      exact hv sock pc
    simpa [hne] using hs.idle v hv
  · have hold := hs.handling v sock' n hv hn
    by_cases hvw : v = w
    · subst v
      cases pc.symm.trans hv
      rw [Serving.toSend, fresh, Option.getD_none] at hold
      rw [Serving.toSend]
      dsimp only
      rw [Function.update_self, hn, Option.getD_some]
      exact hold
    · simpa [Serving.toSend, hvw] using hold

/-- Without what it sends, the server takes its own steps. -/
theorem servingStep_server [DecidableEq ω] {answer : Option Nat → List Bytes} {s t : Serving ω}
    (h : ServingStep answer s t) :
    t.server = s.server ∨ LoopStep s.server t.server := by
  cases h with
  | server e t step handling => exact Or.inr ⟨e, step⟩
  | recv | send => exact Or.inl rfl
  | close w sock pool pc done step =>
    exact Or.inr ⟨.thread, .handlerRequest s.server w sock pool pc step⟩

theorem reachable_loop [DecidableEq ω] {answer : Option Nat → List Bytes} {s : Serving ω}
    (h : Reachable (ServingStep answer) .initial s) :
    Reachable LoopStep .initial s.server :=
  h.project (I := fun _ => True) (fun _ _ _ _ => trivial)
    (fun _ _ hstep _ => servingStep_server hstep) trivial

section
variable [Fintype ω]

/-- A worker that drops what it holds. -/
theorem tasks_dropped {π τ : Type} [Fintype π] [DecidableEq ω] {s : Pool ω π τ} {w : ω} {task : τ}
    (h : (s.worker w).held = some task) : s.tasks = task ::ₘ (s.setWorker w .lock).tasks := by
  have hmove := tasks_setWorker s w .lock s.taskQueue
  rw [h, add_left_comm, add_left_comm s.tasks] at hmove
  have hsame := add_left_cancel hmove
  rw [← Multiset.singleton_add, add_comm]
  exact (hsame.trans (add_zero _)).symm

/-- Two workers do not hold the same socket. -/
theorem held_alone [DecidableEq ω] {s : Pool ω Unit Int} (hs : s.sockets.Nodup) {sock : Int}
    (hsock : 0 ≤ sock) {v w : ω} (hv : (s.worker v).held = some sock)
    (hw : (s.worker w).held = some sock) : v = w := by
  by_contra hne
  have hsplit : s.sockets = sock ::ₘ (s.setWorker w .lock).sockets := by
    rw [Pool.sockets, tasks_dropped hw]
    exact Multiset.filter_cons_of_pos _ hsock
  have hmem : sock ∈ (s.setWorker w .lock).tasks := by
    apply held_mem_tasks (w := v)
    simpa [Pool.setWorker, Function.update_of_ne hne] using hv
  rw [hsplit, Multiset.nodup_cons] at hs
  exact hs.1 (Multiset.mem_filter.mpr ⟨hmem, hsock⟩)

variable {answer : Option Nat → List Bytes}

/-- The server moves on, and what it sends does not change. -/
theorem sequential_server {s : Serving ω} (hs : s.Sequential answer)
    (hb : s.server.connections.Balanced) {t : Server ω} (h : s.server.Unhandled t)
    (hhandling : ∀ w sock, s.server.pool.worker w = .processOn sock →
      t.pool.worker w = .processOn sock) [DecidableEq ω] :
    Serving.Sequential answer { s with server := t } := by
  have hsockets : s.server.pool.sockets.Nodup := by
    rw [← connections_tasks]
    exact hb.distinct
  refine ⟨fun w hw => ?_, fun sock n hn hw => ?_, fun w sock n hw hn => ?_, fun n hn => ?_,
    fun n hn => ?_⟩
  · exact hs.idle w fun sock hpc => hw sock (hhandling w sock hpc)
  · rcases h.conn sock n hn with hold | ⟨rfl, -, -⟩
    · exact hs.waiting sock n hold fun w hpc => hw w (hhandling w sock hpc)
    · exact hs.future _ (Nat.le_refl _)
  · have hheld : (s.server.pool.worker w).held = some sock := by
      rcases h.worker w sock hw with hpc | hpc <;> rw [hpc] <;> rfl
    rcases h.conn sock n hn with hold | ⟨-, hpos, hnone⟩
    · rcases h.worker w sock hw with hpc | hpc
      · exact hs.handling w sock n hpc hold
      · have hpos : 0 ≤ sock := hb.nonneg sock n hold
        have hempty : s.sent n = [] := by
          apply hs.waiting sock n hold
          intro v hv
          have hsame : v = w := held_alone hsockets hpos (by rw [hv]; rfl) hheld
          rw [hsame, hpc] at hv
          cases hv
        have hleft : s.left w = none := by
          apply hs.idle w
          intro sock' hpc'
          cases hpc.symm.trans hpc'
        rw [Serving.toSend]
        dsimp only
        rw [hempty, hleft, List.nil_append, Option.getD_none]
    · -- a task for the descriptor would have kept it from being reused
      have hmem : sock ∈ s.server.connections.pool.tasks := by
        rw [connections_tasks]
        exact Multiset.mem_filter.mpr ⟨held_mem_tasks hheld, hpos⟩
      obtain ⟨m, hm⟩ := (hb.open_iff sock).mp hmem
      cases hnone.symm.trans hm
  · exact hs.closed n (h.closed ▸ hn)
  · exact hs.future n (h.accepted.trans hn)

variable [DecidableEq ω]

/-- A call sends on the worker's own connection, and on no other. -/
theorem sequential_send {s : Serving ω} (hs : s.Sequential answer)
    (hb : s.server.connections.Balanced) {w : ω} {sock : Int} {bytes : Bytes} {rest : List Bytes}
    (pc : s.server.pool.worker w = .processOn sock) (next : s.left w = some (bytes :: rest)) :
    Serving.Sequential answer { s with
      left := Function.update s.left w (some rest)
      sent := s.sendTo sock bytes } := by
  have hsockets : s.server.pool.sockets.Nodup := by
    rw [← connections_tasks]
    exact hb.distinct
  refine ⟨fun v hv => ?_, fun sock' n hn hfree => ?_, fun v sock' n hv hn => ?_, fun n hn => ?_,
    fun n hn => ?_⟩
  · have hne : v ≠ w := by
      rintro rfl
      exact hv sock pc
    simpa [hne] using hs.idle v hv
  · have hne : s.server.conn sock ≠ some n := by
      intro hm
      rw [hb.conn_alone hn hm] at hfree
      exact hfree w pc
    exact (sendTo_other hne bytes).trans (hs.waiting sock' n hn hfree)
  · have hold := hs.handling v sock' n hv hn
    by_cases hvw : v = w
    · subst v
      cases pc.symm.trans hv
      rw [Serving.toSend, next, Option.getD_some, List.flatten_cons, ← List.append_assoc] at hold
      rw [Serving.toSend]
      dsimp only
      rw [sendTo_conn (s := s) hn, Function.update_self, Option.getD_some]
      exact hold
    · have hne : s.server.conn sock ≠ some n := by
        intro hm
        have hsock := hb.conn_alone hn hm
        have hpos : 0 ≤ sock := hb.nonneg sock n hm
        exact hvw (held_alone hsockets hpos (by rw [hv, hsock]; rfl) (by rw [pc]; rfl))
      rw [Serving.toSend]
      dsimp only
      rw [sendTo_other hne, Function.update_of_ne hvw]
      exact hold
  · have hne : s.server.conn sock ≠ some n := ((hb.closed_iff n).mp hn).2 sock
    exact (sendTo_other hne bytes).trans (hs.closed n hn)
  · have hne : s.server.conn sock ≠ some n := by
      intro hm
      exact absurd (hb.numbered hm) (Nat.not_lt.mpr hn)
    exact (sendTo_other hne bytes).trans (hs.future n hn)

/-- A worker closes a connection when it has sent all of its answer. -/
theorem sequential_close {s : Serving ω} (hs : s.Sequential answer)
    (hb : s.server.connections.Balanced) {w : ω} {sock : Int} {pool : Pool ω Unit Int}
    (pc : s.server.pool.worker w = .processOn sock) (done : s.left w = some [])
    (step : WorkerStep w s.server.pool pool) :
    Serving.Sequential answer { s with
      server := { s.server.close sock with pool := pool }
      left := Function.update s.left w none } := by
  have hsockets : s.server.pool.sockets.Nodup := by
    rw [← connections_tasks]
    exact hb.distinct
  have hworker := processOn_worker step pc
  have hconn {sock' : Int} {n : Nat} (hn : (s.server.close sock).conn sock' = some n) :
      sock' ≠ sock ∧ s.server.conn sock' = some n := by
    by_cases hsock : sock' = sock
    · simp [Server.close, hsock] at hn
    · exact ⟨hsock, by simpa [Server.close, hsock] using hn⟩
  refine ⟨fun v hv => ?_, fun sock' n hn hfree => ?_, fun v sock' n hv hn => ?_, fun n hn => ?_,
    hs.future⟩
  · by_cases hvw : v = w
    · simp [hvw]
    · have hv' : ∀ sock', s.server.pool.worker v ≠ .processOn sock' := by
        intro sock' hpc
        refine hv sock' ?_
        simp [hworker, hvw, hpc]
      simpa [hvw] using hs.idle v hv'
  · obtain ⟨hne, hn'⟩ := hconn hn
    apply hs.waiting sock' n hn'
    intro v hpc
    have hvw : v ≠ w := by
      rintro rfl
      cases pc.symm.trans hpc
      exact hne rfl
    refine hfree v ?_
    simp [hworker, hvw, hpc]
  · obtain ⟨-, hn'⟩ := hconn hn
    have hvw : v ≠ w := by
      rintro rfl
      simp [hworker] at hv
    have hv' : s.server.pool.worker v = .processOn sock' := by
      simpa [hworker, hvw] using hv
    simpa [Serving.toSend, hvw] using hs.handling v sock' n hv' hn'
  · have hn' : n ∈ s.server.closed ++ (s.server.conn sock).toList := hn
    rcases List.mem_append.mp hn' with hold | hnew
    · exact hs.closed n hold
    · have hm : s.server.conn sock = some n := by simpa using hnew
      have hall := hs.handling w sock n pc hm
      rw [Serving.toSend, done] at hall
      simpa using hall

theorem servingStep_sequential :
    Preserved (ServingStep answer) fun s : Serving ω =>
      s.server.connections.Balanced ∧ s.Sequential answer := by
  rintro s t h ⟨hb, hs⟩
  constructor
  · rcases servingStep_server h with hsame | hstep
    · rwa [hsame]
    · exact loopStep_connections hstep hb
  · cases h with
    | server e t step handling =>
      exact sequential_server hs hb (serverStep_unhandled step handling) handling
    | recv w sock pc fresh => exact sequential_recv hs pc fresh
    | send w sock bytes rest pc next => exact sequential_send hs hb pc next
    | close w sock pool pc done step => exact sequential_close hs hb pc done step

theorem reachable_sequential {s : Serving ω} (h : Reachable (ServingStep answer) .initial s) :
    s.server.connections.Balanced ∧ s.Sequential answer :=
  servingStep_sequential.reachable h
    ⟨reachable_connections Reachable.start, initial_sequential answer⟩

/-- **Each client is served as if it were alone**, however the workers take
turns, the descriptors are reused and `accept` fails: what it has been sent is
a beginning of what `HandlerRequest` sends it, nothing before it is accepted
and all of it once its connection is closed. -/
theorem reachable_alone (clients : Nat → Client) (astray : List Bytes) {s : Serving ω}
    (h : Reachable (ServingStep (answers clients astray)) .initial s) (n : Nat) :
    s.sent n <+: (clients n).handled.sent ∧
      (s.server.accepted.length ≤ n → s.sent n = []) ∧
      (n ∈ s.server.closed → s.sent n = (clients n).handled.sent) := by
  obtain ⟨hb, hs⟩ := reachable_sequential h
  have hall : (answers clients astray (some n)).flatten = (clients n).handled.sent :=
    (clients n).calls_flatten
  refine ⟨?_, hs.future n, fun hn => (hs.closed n hn).trans hall⟩
  rw [← hall]
  by_cases hfuture : s.server.accepted.length ≤ n
  · rw [hs.future n hfuture]
    exact List.nil_prefix
  · by_cases hclosed : n ∈ s.server.closed
    · rw [hs.closed n hclosed]
    · have hopen : ∃ sock, s.server.conn sock = some n := by
        by_contra hnone
        exact hclosed ((hb.closed_iff n).mpr
          ⟨Nat.lt_of_not_le hfuture, fun sock hn => hnone ⟨sock, hn⟩⟩)
      obtain ⟨sock, hn⟩ := hopen
      by_cases hw : ∃ w, s.server.pool.worker w = .processOn sock
      · obtain ⟨w, hw⟩ := hw
        exact ⟨_, hs.handling w sock n hw hn⟩
      · rw [hs.waiting sock n hn fun w hpc => hw ⟨w, hpc⟩]
        exact List.nil_prefix

end

/-! ## No more connections -/

section
variable [DecidableEq ω] {answer : Option Nat → List Bytes}

/-- A step the threads owe, where `Loop` accepts no more: one of
`HandlerRequest` or one that the pool owes. -/
def ServingDrain (answer : Option Nat → List Bytes) (s t : Serving ω) : Prop :=
  ServingStep answer s t ∧ (t.left = s.left → ServerDrain s.server t.server)

/-- A worker wakes without a signal. -/
def ServingWake (s t : Serving ω) : Prop :=
  ∃ pool, WakeStep s.server.pool pool ∧ t = { s with server := { s.server with pool := pool } }

theorem ServingWake.servingStep {s t : Serving ω} (h : ServingWake s t) :
    ServingStep answer s t := by
  obtain ⟨pool, hwake, rfl⟩ := h
  obtain ⟨w, pc, step⟩ := hwake.workerStep
  have hout (sock : Int) : s.server.pool.worker w ≠ .processOn sock := by simp [pc]
  exact .server s .thread _ (.worker s.server w pool hout step)
    fun v sock hv => workerStep_handling step (hout sock) hv

theorem servingDrainOrWake_servingStep {s t : Serving ω}
    (h : Either (ServingDrain answer) ServingWake s t) : ServingStep answer s t :=
  h.elim And.left ServingWake.servingStep

theorem servingDrain_server {s t : Serving ω} (h : ServingDrain answer s t) :
    t.server = s.server ∨ ServerDrain s.server t.server := by
  obtain ⟨hstep, hserver⟩ := h
  cases hstep with
  | server e u step handling => exact Or.inr (hserver rfl)
  | recv | send => exact Or.inl rfl
  | close w sock pool pc done step =>
    have hawake : s.server.pool.worker w ≠ .blocked := by simp [pc]
    exact Or.inr ⟨.handlerRequest s.server w sock pool pc step, .worker w hawake step⟩

theorem servingDrain_accepted {s t : Serving ω} (h : ServingDrain answer s t) :
    t.server.accepted = s.server.accepted := by
  rcases servingDrain_server h with hsame | hdrain
  · rw [hsame]
  · exact serverDrain_accepted hdrain

theorem reachable_servingDrain_accepted {s t : Serving ω}
    (h : Reachable (Either (ServingDrain answer) ServingWake) s t) :
    t.server.accepted = s.server.accepted := by
  have hsame : Preserved (Either (ServingDrain answer) ServingWake) fun u : Serving ω =>
      u.server.accepted = s.server.accepted := by
    rintro u v (hstep | ⟨pool, -, rfl⟩) hu
    · exact (servingDrain_accepted hstep).trans hu
    · exact hu
  exact hsame.reachable h rfl

/-- A worker in `HandlerRequest` can make its next call. -/
theorem servingDrain_call {s : Serving ω} {w : ω} {sock : Int}
    (pc : s.server.pool.worker w = .processOn sock) :
    ∃ server v sent, ServingDrain answer s ⟨server, Function.update s.left w v, sent⟩ := by
  cases hleft : s.left w with
  | none =>
    exact ⟨_, _, _, .recv s w sock pc hleft,
      fun hsame => absurd hsame (Function.update_ne_self_iff.mpr (by simp [hleft]))⟩
  | some calls =>
    cases calls with
    | nil =>
      exact ⟨_, _, _, .close s w sock _ pc hleft (.processOn _ sock pc),
        fun hsame => absurd hsame (Function.update_ne_self_iff.mpr (by simp [hleft]))⟩
    | cons bytes rest =>
      exact ⟨_, _, _, .send s w sock bytes rest pc hleft,
        fun hsame => absurd hsame (Function.update_ne_self_iff.mpr (by simp [hleft]))⟩

/-- Outside `HandlerRequest` the server goes on as its pool does. -/
theorem servingDrain_worker {s : Serving ω} {w : ω} {pool : Pool ω Unit Int}
    (hout : ∀ sock, s.server.pool.worker w ≠ .processOn sock)
    (hawake : s.server.pool.worker w ≠ .blocked) (step : WorkerStep w s.server.pool pool) :
    ServingDrain answer s { s with server := { s.server with pool := pool } } := by
  have hserver : ServerStep s.server .thread { s.server with pool := pool } :=
    .worker s.server w pool hout step
  refine ⟨.server s .thread _ hserver fun v sock hv => ?_,
    fun _ => ⟨hserver, .worker w hawake step⟩⟩
  exact workerStep_handling step (hout sock) hv

theorem servingDrain_producer {s : Serving ω} {p : Unit} {pool : Pool ω Unit Int}
    (hbusy : s.server.pool.producer p ≠ .idle) (step : ProducerStep p s.server.pool pool) :
    ServingDrain answer s { s with server := { s.server with pool := pool } } := by
  have hserver : ServerStep s.server .thread { s.server with pool := pool } :=
    .pushTask s.server pool hbusy step
  refine ⟨.server s .thread _ hserver fun w sock hw => ?_,
    fun _ => ⟨hserver, .producer p hbusy step⟩⟩
  exact producerStep_handling step hw

theorem servingDrain_final {s : Serving ω} (h : Final (ServingDrain answer) s) :
    Final DrainStep s.server.pool := by
  intro pool hstep
  cases hstep with
  | producer p busy step => exact h _ (servingDrain_producer busy step)
  | worker w awake step =>
    by_cases hpc : ∃ sock, s.server.pool.worker w = .processOn sock
    · obtain ⟨sock, hpc⟩ := hpc
      obtain ⟨_, _, _, hcall⟩ := servingDrain_call hpc
      exact h _ hcall
    · exact h _ (servingDrain_worker (fun sock h => hpc ⟨sock, h⟩) awake step)

end

section
variable {answer : Option Nat → List Bytes}

/-- The calls of a worker that has its answer, or as many as it may come to have. -/
def leftWork (most : Nat) : Option (List Bytes) → Nat
  | none => most + 2
  | some calls => calls.length + 1

theorem leftWork_none (most : Nat) : leftWork most none = most + 2 := rfl

theorem leftWork_some (most : Nat) (calls : List Bytes) :
    leftWork most (some calls) = calls.length + 1 := rfl

variable [Fintype ω]

def Serving.work (most : Nat) (s : Serving ω) : Nat :=
  s.server.pool.work * (most + 3) + ∑ w, leftWork most (s.left w)

/-- No answer to come has more calls. -/
structure Serving.AtMost (answer : Option Nat → List Bytes) (most : Nat) (s : Serving ω) :
    Prop where
  balanced : s.server.connections.Balanced
  astray : (answer none).length ≤ most
  accepted : ∀ n < s.server.accepted.length, (answer (some n)).length ≤ most

theorem Serving.AtMost.conn {most : Nat} {s : Serving ω} (h : s.AtMost answer most) (sock : Int) :
    (answer (s.server.conn sock)).length ≤ most := by
  cases hn : s.server.conn sock with
  | none => exact h.astray
  | some n => exact h.accepted n (h.balanced.numbered hn)

/-- As many calls as any answer has. -/
theorem exists_atMost {s : Serving ω} (h : s.server.connections.Balanced) :
    ∃ most, s.AtMost answer most := by
  refine ⟨(answer none).length +
    (Finset.range s.server.accepted.length).sup fun n => (answer (some n)).length, h,
    Nat.le_add_right _ _, fun n hn => ?_⟩
  have hmost := Finset.le_sup (f := fun n => (answer (some n)).length) (Finset.mem_range.mpr hn)
  exact hmost.trans (Nat.le_add_left _ _)

variable [DecidableEq ω]

theorem left_work (most : Nat) (left : ω → Option (List Bytes)) (w : ω)
    (v : Option (List Bytes)) :
    ∑ u, leftWork most (Function.update left w v u) + leftWork most (left w) =
      ∑ u, leftWork most (left u) + leftWork most v :=
  Lib.Count.sum_update (leftWork most) left w v

theorem servingDrain_work {most : Nat} {s t : Serving ω} (h : ServingDrain answer s t)
    (hs : s.AtMost answer most) : t.work most < s.work most := by
  obtain ⟨hstep, hserver⟩ := h
  cases hstep with
  | server e u step handling =>
    exact weighted_lt (drainStep_work (hserver rfl).2) (Nat.lt_add_of_pos_right (Nat.succ_pos _))
  | recv w sock pc fresh =>
    have hsum := left_work most s.left w (some (answer (s.server.conn sock)))
    have hlen := hs.conn sock
    rw [fresh, leftWork_none, leftWork_some] at hsum
    simp only [Serving.work]
    omega
  | send w sock bytes rest pc next =>
    have hsum := left_work most s.left w (some rest)
    rw [next, leftWork_some, leftWork_some, List.length_cons] at hsum
    simp only [Serving.work]
    omega
  | close w sock pool pc done step =>
    have hsum := left_work most s.left w none
    rw [done, leftWork_none, leftWork_some, List.length_nil] at hsum
    refine weighted_lt (workerStep_work step (by simp [pc])) ?_
    dsimp only
    omega

/-- Where no more is accepted, no answer to come gets longer. -/
theorem servingStep_atMost {most : Nat} {s t : Serving ω} (h : ServingStep answer s t)
    (haccepted : t.server.accepted = s.server.accepted) (hs : s.AtMost answer most) :
    t.AtMost answer most := by
  refine ⟨?_, hs.astray, haccepted ▸ hs.accepted⟩
  rcases servingStep_server h with hsame | hstep
  · rw [hsame]
    exact hs.balanced
  · exact loopStep_connections hstep hs.balanced

theorem servingDrain_ranked (most : Nat) :
    Ranked (ServingDrain answer) (Serving.AtMost (ω := ω) answer most) (Serving.work most) :=
  ⟨fun _ _ h => servingStep_atMost h.1 (servingDrain_accepted h), fun _ _ => servingDrain_work⟩

theorem servingWake_raised (most : Nat) :
    Raised ServingWake (Serving.AtMost (ω := ω) answer most) (Serving.work most)
      (3 * (most + 3)) := by
  refine ⟨fun s t h => servingStep_atMost h.servingStep ?_, fun s t h _ => ?_⟩
  · obtain ⟨pool, -, rfl⟩ := h
    rfl
  · obtain ⟨pool, hwake, rfl⟩ := h
    have hmul := Nat.mul_le_mul_right (most + 3) (wakeStep_work hwake)
    rw [Nat.add_mul] at hmul
    simp only [Serving.work]
    omega

/-- Where the threads have stopped every connection is closed, and has been sent
its answer. -/
theorem served_of_final [Nonempty ω] {s t : Serving ω}
    (h : Reachable (ServingStep answer) .initial s)
    (ht : Reachable (Either (ServingDrain answer) ServingWake) s t)
    (hfinal : Final (ServingDrain answer) t) :
    t.server.pool.Quiet ∧ t.server.closed.Perm (List.range s.server.accepted.length) ∧
      ∀ n < s.server.accepted.length, t.sent n = (answer (some n)).flatten := by
  have hreach : Reachable (ServingStep answer) .initial t :=
    h.trans (ht.mono fun _ _ => servingDrainOrWake_servingStep)
  have hloop := reachable_loop hreach
  obtain ⟨howned, hcovered⟩ := reachable_pool hloop
  have hquiet := final_quiet howned hcovered (servingDrain_final hfinal)
  have hclosed := closed_of_quiet hloop hquiet
  rw [reachable_servingDrain_accepted ht] at hclosed
  refine ⟨hquiet, hclosed, fun n hn => ?_⟩
  have hmem : n ∈ t.server.closed := hclosed.mem_iff.mpr (List.mem_range.mpr hn)
  exact (reachable_sequential hreach).2.closed n hmem

/-- **Every client is answered in full** if every `HandlerRequest` comes to its
end: when `Loop` accepts no more, the threads take a bounded number of steps,
and so many more for each wakeup without a signal, and where they stop every
connection that was ever accepted is closed and has been sent all that
`HandlerRequest` sends. -/
theorem clients_served [Nonempty ω] (clients : Nat → Client) (astray : List Bytes)
    {s : Serving ω} (h : Reachable (ServingStep (answers clients astray)) .initial s) :
    (∃ most more, ∀ n k t, Mixed (ServingDrain (answers clients astray)) ServingWake n k s t →
        n ≤ most + more * k) ∧
      (∃ t, Reachable (ServingDrain (answers clients astray)) s t ∧
        Final (ServingDrain (answers clients astray)) t) ∧
      ∀ t, Reachable (Either (ServingDrain (answers clients astray)) ServingWake) s t →
        Final (ServingDrain (answers clients astray)) t →
          t.server.pool.Quiet ∧ t.server.closed.Perm (List.range s.server.accepted.length) ∧
            ∀ n < s.server.accepted.length, t.sent n = (clients n).handled.sent := by
  obtain ⟨most, hmost⟩ : ∃ most, s.AtMost (answers clients astray) most :=
    exists_atMost (reachable_sequential h).1
  refine ⟨⟨_, _, (servingDrain_ranked most).mixed (servingWake_raised most) hmost⟩,
    (servingDrain_ranked most).exists_final hmost, fun t ht hfinal => ?_⟩
  obtain ⟨hquiet, hclosed, hsent⟩ := served_of_final h ht hfinal
  exact ⟨hquiet, hclosed, fun n hn => (hsent n hn).trans (clients n).calls_flatten⟩

end

/-! A POST on descriptor 5, after the first call of `send`. -/

def sampleClient : Client :=
  ⟨fun _ => false, exeCgi, .all, fun _ => none, .new (samplePost.serialise []) fun _ => false, 0⟩

theorem sampleClient_calls : ∃ bytes rest, sampleClient.calls = bytes :: rest := by
  obtain ⟨hstop, -, -⟩ := samplePost.received [] 0 (by decide) (by decide) samplePost_fits
  have hrecv : recvHttpRequest sampleClient.flowsOff (.new sampleClient.sock sampleClient.size) =
      receiveAll (.new sampleClient.sock sampleClient.size) :=
    recvHttpRequest_of_receiveAll rfl hstop
  have hgo : (recvHttpRequest sampleClient.flowsOff
      (.new sampleClient.sock sampleClient.size)).isStop = false :=
    (congrArg EndPoint.isStop hrecv).trans hstop
  have hcalls : sampleClient.calls =
      ((buildHttpResponse sampleClient.world (recvHttpRequest sampleClient.flowsOff
        (.new sampleClient.sock sampleClient.size))).1.reply sampleClient.files).calls
          sampleClient.sender := by
    rw [Client.calls]
    exact if_neg (by rw [hgo]; exact Bool.false_ne_true)
  exact ⟨_, _, hcalls⟩

abbrev SampleStep : Serving Unit → Serving Unit → Prop :=
  ServingStep (answers (fun _ => sampleClient) [])

theorem sample_sending : ∃ s : Serving Unit, Reachable SampleStep .initial s ∧
    s.server.accepted = [5] ∧ s.server.closed = [] ∧
      ∃ bytes rest, sampleClient.calls = bytes :: rest ∧ s.sent 0 = bytes := by
  obtain ⟨bytes, rest, hcalls⟩ := sampleClient_calls
  have start : Reachable SampleStep .initial .initial := Reachable.start
  have outside {s t : Server Unit} (h : ∀ sock, s.pool.worker () ≠ .processOn sock) (w : Unit)
      (sock : Int) (hw : s.pool.worker w = .processOn sock) :
      t.pool.worker w = .processOn sock := absurd hw (h sock)
  have accepted := start.next (.server _ _ _ (.accept _ 5 rfl (by decide) rfl)
    (outside fun _ h => (by cases h)))
  have locked := accepted.next (.server _ _ _ (.pushTask _ _ (by simp [Pool.setProducer])
    (.lock _ 5 rfl rfl)) (outside fun _ h => (by cases h)))
  have pushed := locked.next (.server _ _ _ (.pushTask _ _ (by simp [Pool.setProducer])
    (.push _ 5 rfl)) (outside fun _ h => (by cases h)))
  have released := pushed.next (.server _ _ _ (.pushTask _ _ (by simp [Pool.setProducer])
    (.unLock _ rfl)) (outside fun _ h => (by cases h)))
  have taken := released.next (.server _ _ _ (.worker _ () _ (fun _ h => (by cases h))
    (.lock _ rfl rfl)) (outside fun _ h => (by cases h)))
  have tested := taken.next (.server _ _ _ (.worker _ () _ (fun _ h => (by cases h))
    (.testTask _ false rfl (List.cons_ne_nil 5 []))) (outside fun _ h => (by cases h)))
  have popped := tested.next (.server _ _ _ (.worker _ () _ (fun _ h => (by cases h))
    (.popTask _ 5 [] rfl rfl)) (outside fun _ h => (by cases h)))
  have handed := popped.next (.server _ _ _ (.worker _ () _ (fun _ h => (by cases h))
    (.unLock _ 5 rfl)) (outside fun _ h => (by cases h)))
  have received := handed.next (.recv _ () 5 rfl rfl)
  have sent := received.next (.send _ () 5 bytes rest rfl (congrArg some hcalls))
  exact ⟨_, sent, rfl, rfl, bytes, rest, hcalls, rfl⟩

theorem reachable_alone_sample : ∃ s : Serving Unit,
    s.server.closed = [] ∧ (∃ bytes rest, sampleClient.calls = bytes :: rest ∧ s.sent 0 = bytes) ∧
      s.sent 0 <+: sampleClient.handled.sent := by
  obtain ⟨s, hs, -, hclosed, hsent⟩ := sample_sending
  exact ⟨s, hclosed, hsent, (reachable_alone (fun _ => sampleClient) [] hs 0).1⟩

theorem clients_served_sample : ∃ s t : Serving Unit,
    s.server.accepted = [5] ∧ s.server.closed = [] ∧
      Reachable (ServingDrain (answers (fun _ => sampleClient) [])) s t ∧
      t.server.closed.Perm [0] ∧ t.sent 0 = sampleClient.handled.sent := by
  obtain ⟨s, hs, haccepted, hclosed, -⟩ := sample_sending
  obtain ⟨-, ⟨t, ht, hfinal⟩, hend⟩ := clients_served (fun _ => sampleClient) [] hs
  obtain ⟨-, hall, hsent⟩ := hend t (ht.mono fun _ _ => Or.inl) hfinal
  rw [haccepted] at hall hsent
  exact ⟨s, t, haccepted, hclosed, ht, hall, hsent 0 Nat.one_pos⟩

end MinHttp

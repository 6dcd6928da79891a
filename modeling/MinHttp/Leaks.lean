import MinHttp.Descriptors
import MinHttp.Lib.Shares

/-! What any number of connections, handled at once, leave open in the one
descriptor table of the process. -/
namespace MinHttp

open Lib.Balance (Change Fresh after)
open Lib.Shares

/-- The ends of pipes that `ProcessCIG` leaves open where it gives up. -/
def CgiRun.leaks (c : CgiRun) : Nat :=
  if c.input.isSome then
    if c.output.isSome then
      if c.forked then 0 else 4
    else 2
  else 0

instance (a : CallResults) (r : HttpRequest) : Decidable (runsProgram a r) :=
  decidable_of_iff ((r.method = methodGet ∨ r.method = methodPost) ∧
    a.stat.any (fun st => asksProgram r || executable
      (if sIsDir st.stMode then a.statPage.getD st else st).stMode) = true) (by
    rw [Option.any_eq_true]
    rfl)

/-- What the response to a request leaves open. -/
def leaks (a : CallResults) (r : HttpRequest) : Nat := if runsProgram a r then a.cgi.leaks else 0

/-- A connection from its `accept` on. -/
structure Connection where
  flowsOff : EndPoint → Bool
  results : CallResults
  sender : Sender
  files : Int → Option Bytes
  stream : Sock
  size : Int
  sock : Nat

def Connection.log (c : Connection) : List (Change Nat) :=
  .acquire c.sock :: changes c.sock
    (handlerRequestOn c.flowsOff c.results c.sender c.files c.stream c.size).log

def Connection.leaks (c : Connection) : Nat :=
  let ep := recvHttpRequest c.flowsOff (.new c.stream c.size)
  if ep.isStop then 0 else MinHttp.leaks c.results ep.request

variable (a : CallResults) (sock : Nat)

theorem keeps_open (fd : Option Nat) (path : Bytes) :
    Keeps 0 (changes sock [.openRdonly path fd, .close (fdInt fd)]) := by
  cases fd with
  | none => exact keeps_nil
  | some fd => exact keeps_of_perm (List.Perm.refl [fd])

theorem keeps_error {ep : EndPoint}
    (hcode : ep.response.statusCode ∈ [notFound, serverError, badRequset]) :
    Keeps 0 (endChanges a sock ep) := by
  obtain ⟨hlog, hcgi, hfd⟩ := handlerError_changes a sock ep.addStatusLine
  unfold endChanges closesFile
  rw [buildHttpResponseHelper_page a.world hcode, hlog, hcgi, hfd, ← changes_append]
  exact keeps_open sock a.openPage (cstr errorPage)

theorem keeps_file {ep : EndPoint} (hcgi : ep.request.cgi = false) :
    Keeps 0 (serveChanges a sock ep) := by
  have htarget : a.world.openTarget = a.openTarget := rfl
  unfold serveChanges
  rw [serve_file hcgi, processNonCIG, openRdonly_world, htarget]
  cases hopen : a.openTarget with
  | none => exact keeps_nil.append (keeps_error a sock (show notFound ∈ _ by decide))
  | some fd =>
    have hcode : (if fdInt (some fd) ≥ 0 then OK else notFound) = OK :=
      if_pos (Int.natCast_nonneg fd)
    rw [endChanges_ok a sock hcode, ← changes_append]
    have hclose := keeps_open sock (some fd) (cstr ep.request.path)
    simpa [closesFile, EndPoint.withCode, hcgi] using hclose

theorem keeps_programEnd {ep : EndPoint} (hcgi : ep.request.cgi = true) :
    Keeps 0 (endChanges a sock
      ((processCIG a.world ep).2.1.withCode (processCIG a.world ep).1)) := by
  obtain ⟨⟨body, heq⟩, -, hcode⟩ := processCIG_cases a.world ep
  cases hs : a.world.cgi.succeeds with
  | true =>
    rw [hs, if_pos rfl] at hcode
    rw [endChanges_ok a sock hcode, heq]
    simp only [closesFile, EndPoint.withCode, hcgi]
    exact keeps_nil
  | false =>
    rw [hs, if_neg Bool.false_ne_true] at hcode
    exact keeps_error a sock hcode

/-- The pipes, closed after the exchange and not before. -/
theorem keeps_pipes (ep : EndPoint) :
    Keeps a.cgi.leaks (changes sock (processCIG a.world ep).2.2) := by
  have hcgi : a.world.cgi = a.cgi := rfl
  unfold processCIG CgiRun.leaks
  rw [hcgi]
  cases a.cgi.input with
  | none => exact keeps_nil
  | some input =>
    obtain ⟨input0, input1⟩ := input
    cases a.cgi.output with
    | none => exact keeps_acquire [input0, input1]
    | some output =>
      obtain ⟨output0, output1⟩ := output
      cases a.cgi.forked with
      | false => exact keeps_acquire [input0, input1, output0, output1]
      | true =>
        have hperm : [input0, input1, output0, output1].Perm
            [output0, input1, input0, output1] :=
          (List.reverse_perm [input0, input1, output0]).symm.append_right [output1]
        exact keeps_of_perm hperm

theorem keeps_response {ep : EndPoint} (hcgi : ep.request.cgi = false) :
    Keeps (leaks a ep.request) (responseChanges a sock ep) := by
  unfold leaks
  by_cases hm : ep.request.method = methodGet ∨ ep.request.method = methodPost
  · cases hl : (lookUpOn a (rootPath (splitUri ep.request))).1 with
    | none =>
      have hstat := lookUpOn_none hl
      have hruns : ¬ runsProgram a ep.request := by
        rintro ⟨-, st, hst, -⟩
        rw [hstat] at hst
        cases hst
      unfold responseChanges
      rw [if_neg hruns, buildHttpResponseOn_missing hm hl]
      dsimp only
      rw [changes_append, lookUpOn_changes, List.nil_append]
      exact keeps_error a sock (show notFound ∈ _ by decide)
    | some r =>
      obtain ⟨st, hst, hrcgi⟩ := lookUpOn_found hl
      rw [rootPath_cgi, splitUri_cgi hm hcgi] at hrcgi
      have hruns : runsProgram a ep.request ↔ r.cgi = true := by
        unfold runsProgram
        rw [hrcgi, hst]
        simp [hm]
      rw [responseChanges_found hm hl]
      cases hr : r.cgi with
      | false =>
        rw [if_neg fun h => Bool.false_ne_true (hr.symm.trans (hruns.mp h))]
        exact keeps_file a sock ((setSuffix_cgi r).trans hr)
      | true =>
        have hsuffix : (setSuffix r).cgi = true := (setSuffix_cgi r).trans hr
        rw [if_pos (hruns.mpr hr)]
        unfold serveChanges
        rw [serve_program (by exact hsuffix)]
        exact (keeps_pipes a sock _).append (keeps_programEnd a sock hsuffix)
  · unfold responseChanges
    rw [if_neg fun h => hm h.1, buildHttpResponseOn_reject a hm]
    exact keeps_error a sock (show badRequset ∈ _ by decide)

theorem Connection.keeps (c : Connection) : Keeps c.leaks c.log := by
  have hcgi := (recvHttpRequest_frame c.flowsOff (.new c.stream c.size)).2.1
  unfold Connection.leaks Connection.log
  rw [handlerRequestOn_changes]
  dsimp only
  split
  · exact keeps_nil.within c.sock
  · exact (keeps_response c.results c.sock hcgi).within c.sock

/-- **One table for all connections.** However the threads that handle them
take turns, no connection closes a descriptor that is not its own, and at the
end the table has grown by the pipes of the runs given up. -/
theorem connections_table {ι : Type} [Fintype ι] [DecidableEq ι] (conns : ι → Connection)
    {log : List (ι × Change Nat)} {table : Finset Nat}
    (hlog : ∀ i, projection i log <+: (conns i).log)
    (hfresh : Fresh table (log.map Prod.snd)) :
    (∀ i, Careful ∅ (projection i log)) ∧
      Shared (after table (log.map Prod.snd)) table (fun i => after ∅ (projection i log)) ∧
      ((∀ i, projection i log = (conns i).log) →
        (after table (log.map Prod.snd)).card = table.card + ∑ i, (conns i).leaks) := by
  have hcareful (i : ι) : Careful ∅ (projection i log) :=
    ((conns i).keeps.careful ∅).begins (hlog i)
  have hstart : Shared table table fun _ : ι => (∅ : Finset Nat) :=
    ⟨fun _ _ _ => Finset.disjoint_empty_left _, fun _ => Finset.disjoint_empty_right _, by simp⟩
  obtain ⟨hown, hshared⟩ := hstart.run hfresh hcareful
  refine ⟨hcareful, hshared, fun hdone => ?_⟩
  rw [hshared.card]
  congr 1
  refine Finset.sum_congr rfl fun i _ => ?_
  have hfreshOwn := hown i
  rw [hdone i] at hfreshOwn ⊢
  rw [(conns i).keeps.card ∅ hfreshOwn, Finset.card_empty, Nat.zero_add]

/-- A request whose program is run, and one for which `fork` is refused. -/
def twoConnections (forked : Bool) : Connection :=
  ⟨fun _ => false, programResults (if forked then forkedRun else refusedRun), .all,
    fun _ => none, programStream, 0, 9⟩

/-- The second is accepted on the descriptor that the first has given back. -/
def twoLogs : List (Bool × Change Nat) :=
  (Change.acquire 9 :: ([3, 4, 5, 6].map .acquire ++ [5, 4, 3, 6].map .release ++
    [.release 9])).map (true, ·) ++
  (Change.acquire 9 :: ([3, 4, 5, 6].map .acquire ++ [.release 9])).map (false, ·)

theorem connections_table_two :
    (after {0, 1, 2} (twoLogs.map Prod.snd)).card =
        ({0, 1, 2} : Finset Nat).card + ∑ i, (twoConnections i).leaks ∧
      after {0, 1, 2} (twoLogs.map Prod.snd) = {0, 1, 2, 3, 4, 5, 6} := by
  have hlog : ∀ i, projection i twoLogs = (twoConnections i).log := by
    intro i
    cases i with
    | true =>
      obtain ⟨ep, hcgi, hchanges⟩ := programStream_changes forkedRun .all
      have hrun : (twoConnections true).log = .acquire 9 :: changes 9
        (handlerRequestOn (fun _ => false) (programResults forkedRun) .all (fun _ => none)
          programStream 0).log := rfl
      rw [hrun, hchanges, forkedRun_changes hcgi]
      decide
    | false =>
      obtain ⟨ep, hcgi, hchanges⟩ := programStream_changes refusedRun .all
      have hrun : (twoConnections false).log = .acquire 9 :: changes 9
        (handlerRequestOn (fun _ => false) (programResults refusedRun) .all (fun _ => none)
          programStream 0).log := rfl
      rw [hrun, hchanges, refusedRun_changes hcgi]
      decide
  obtain ⟨-, -, hcard⟩ := @connections_table Bool _ _ twoConnections twoLogs {0, 1, 2}
    (fun i => (hlog i) ▸ List.prefix_refl _) (by decide)
  exact ⟨hcard hlog, by decide⟩

end MinHttp

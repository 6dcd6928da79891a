import MinHttp.Hangs
import MinHttp.Serving

/-! Clients that hold their worker up, and what becomes of the others. -/
namespace MinHttp

open Lib.Runs
open Lib.Halting

variable {ω : Type} {stalls : Nat → Prop}

/-- The worker on a connection that stalls makes no call that returns. -/
def Serving.HoldsUp (stalls : Nat → Prop) (s t : Serving ω) : Prop :=
  ∀ w sock n, stalls n → s.server.pool.worker w = .processOn sock →
    s.server.conn sock = some n → t.left w = s.left w

/-- The server where connections may stall. -/
def StallStep [DecidableEq ω] (stalls : Nat → Prop) (answer : Option Nat → List Bytes)
    (s t : Serving ω) : Prop := ServingStep answer s t ∧ s.HoldsUp stalls t

/-- The steps its threads owe, where `Loop` accepts no more. -/
def StallDrain [DecidableEq ω] (stalls : Nat → Prop) (answer : Option Nat → List Bytes)
    (s t : Serving ω) : Prop := ServingDrain answer s t ∧ s.HoldsUp stalls t

theorem stallDrainOrWake_stallStep [DecidableEq ω] {answer : Option Nat → List Bytes}
    {s t : Serving ω} (h : Either (StallDrain stalls answer) ServingWake s t) :
    StallStep stalls answer s t := by
  rcases h with hstep | hwake
  · exact ⟨hstep.1.1, hstep.2⟩
  · refine ⟨hwake.servingStep, fun w sock n _ _ _ => ?_⟩
    obtain ⟨pool, -, rfl⟩ := hwake
    rfl

/-- Every worker is held up. -/
def Serving.HeldUp (stalls : Nat → Prop) (s : Serving ω) : Prop :=
  ∀ w, ∃ sock n, s.server.pool.worker w = .processOn sock ∧ s.server.conn sock = some n ∧ stalls n

section
variable [DecidableEq ω] {answer : Option Nat → List Bytes}

/-- A call is in the way of nobody's but the worker's own. -/
theorem holdsUp_call {s : Serving ω} {w : ω} {sock : Int}
    (pc : s.server.pool.worker w = .processOn sock)
    (hgoes : ∀ n, stalls n → s.server.conn sock ≠ some n) {server : Server ω}
    {v : Option (List Bytes)} {sent : Nat → Bytes} :
    s.HoldsUp stalls ⟨server, Function.update s.left w v, sent⟩ := by
  intro u sock' n hn hpc hconn
  have hne : u ≠ w := by
    rintro rfl
    cases pc.symm.trans hpc
    exact hgoes n hn hconn
  exact Function.update_of_ne hne _ _

theorem stallFinal_settled {s : Serving ω} (h : Final (StallDrain stalls answer) s) :
    s.server.pool.Settled := by
  refine ⟨fun w pool step hawake => ?_, fun p pool step => ?_⟩
  · by_contra hout
    exact h _ ⟨servingDrain_worker (fun sock h => hout ⟨sock, h⟩) hawake step,
      fun _ _ _ _ _ _ => rfl⟩
  · by_contra hbusy
    exact h _ ⟨servingDrain_producer hbusy step, fun _ _ _ _ _ _ => rfl⟩

/-- A worker that is left in `HandlerRequest` is held up. -/
theorem stallFinal_stalls {s : Serving ω} (h : Final (StallDrain stalls answer) s) {w : ω}
    {sock : Int} (pc : s.server.pool.worker w = .processOn sock) :
    ∃ n, s.server.conn sock = some n ∧ stalls n := by
  by_contra hnone
  obtain ⟨_, _, _, hcall⟩ := servingDrain_call pc
  exact h _ ⟨hcall, holdsUp_call pc fun n hn hconn => hnone ⟨n, hconn, hn⟩⟩

theorem stallFinal_heldUp {s : Serving ω} (hs : s.server.pool.Owned)
    (h : Final (StallDrain stalls answer) s) (hawake : ¬ s.server.pool.Sleeps) :
    s.HeldUp stalls := by
  intro w
  rcases settled_worker hs (stallFinal_settled h) w with hw | ⟨sock, hw⟩
  · exact absurd ⟨w, hw⟩ hawake
  · obtain ⟨n, hconn, hn⟩ := stallFinal_stalls h hw
    exact ⟨sock, n, hw, hconn, hn⟩

theorem stallStep_closed {s t : Serving ω} (h : StallStep stalls answer s t) :
    ∃ news, t.server.closed = s.server.closed ++ news ∧ ∀ n ∈ news, ¬ stalls n := by
  obtain ⟨hstep, hholds⟩ := h
  cases hstep with
  | server e u step handling =>
    exact ⟨[], by simp [(serverStep_unhandled step handling).closed], by simp⟩
  | recv | send => exact ⟨[], by simp, by simp⟩
  | close w sock pool pc done step =>
    refine ⟨(s.server.conn sock).toList, rfl, fun n hn hstalls => ?_⟩
    have hconn : s.server.conn sock = some n := by simpa using hn
    have hsame := hholds w sock n hstalls pc hconn
    simp [done] at hsame

theorem reachable_stallStep_closed {s t : Serving ω} (h : Reachable (StallStep stalls answer) s t) :
    ∃ news, t.server.closed = s.server.closed ++ news ∧ ∀ n ∈ news, ¬ stalls n := by
  have hkept : Preserved (StallStep stalls answer) fun u : Serving ω =>
      ∃ news, u.server.closed = s.server.closed ++ news ∧ ∀ n ∈ news, ¬ stalls n := by
    rintro u v hstep ⟨news, hu, hnews⟩
    obtain ⟨more, hv, hmore⟩ := stallStep_closed hstep
    refine ⟨news ++ more, by rw [hv, hu, List.append_assoc], fun n hn => ?_⟩
    exact (List.mem_append.mp hn).elim (hnews n) (hmore n)
  exact hkept.reachable h ⟨[], by simp, by simp⟩

/-- As many connections stall as before, where no more are accepted. -/
theorem stalled_kept [DecidablePred stalls] {s t : Serving ω}
    (h : Reachable (Either (StallDrain stalls answer) ServingWake) s t) :
    t.server.openConns.countP (stalls ·) = s.server.openConns.countP (stalls ·) := by
  have haccepted := reachable_servingDrain_accepted (h.mono fun _ _ hstep => hstep.mono And.left id)
  obtain ⟨news, hclosed, hnews⟩ :=
    reachable_stallStep_closed (h.mono fun _ _ => stallDrainOrWake_stallStep)
  rw [Server.openConns, Server.openConns, haccepted, hclosed, List.countP_filter,
    List.countP_filter]
  refine List.countP_congr fun n _ => ?_
  have hnot (hn : stalls n) : n ∉ news := fun hmem => hnews n hmem hn
  simp only [List.mem_append, Bool.and_eq_true, decide_eq_true_eq]
  constructor
  · rintro ⟨hn, hopen⟩
    exact ⟨hn, fun hmem => hopen (Or.inl hmem)⟩
  · rintro ⟨hn, hopen⟩
    exact ⟨hn, fun hmem => hmem.elim hopen (hnot hn)⟩

/-- Nothing more is sent and no connection is closed, whoever connects. -/
theorem stallStep_heldUp {s t : Serving ω} (h : StallStep stalls answer s t)
    (hs : s.HeldUp stalls) :
    t.HeldUp stalls ∧ t.server.closed = s.server.closed ∧ t.sent = s.sent := by
  obtain ⟨hstep, hholds⟩ := h
  have hbusy {w : ω} {sock : Int} (pc : s.server.pool.worker w = .processOn sock) :
      t.left w = s.left w := by
    obtain ⟨sock', n, hpc, hconn, hn⟩ := hs w
    exact hholds w sock' n hn hpc hconn
  cases hstep with
  | recv w sock pc fresh => simpa [fresh] using hbusy pc
  | send w sock bytes rest pc next => simpa [next] using hbusy pc
  | close w sock pool pc done step => simpa [done] using hbusy pc
  | server e u step handling =>
    refine ⟨fun w => ?_, (serverStep_unhandled step handling).closed, rfl⟩
    obtain ⟨sock, n, hpc, hconn, hn⟩ := hs w
    refine ⟨sock, n, handling w sock hpc, ?_, hn⟩
    cases step with
    | accept sock' idle nonneg unused =>
      have hne : sock ≠ sock' := by
        rintro rfl
        cases unused.symm.trans hconn
      simpa [hne] using hconn
    | acceptFails | pushTask | worker => exact hconn
    | handlerRequest v sock' pool pc step =>
      have hstill := handling v sock' pc
      cases step <;> simp_all [Pool.setWorker]

theorem reachable_heldUp {s t : Serving ω} (h : Reachable (StallStep stalls answer) s t)
    (hs : s.HeldUp stalls) : t.server.closed = s.server.closed ∧ t.sent = s.sent := by
  have hkept : Preserved (StallStep stalls answer) fun u : Serving ω =>
      u.HeldUp stalls ∧ u.server.closed = s.server.closed ∧ u.sent = s.sent := by
    rintro u v hstep ⟨hu, hclosed, hsent⟩
    obtain ⟨hv, hclosed', hsent'⟩ := stallStep_heldUp hstep hu
    exact ⟨hv, hclosed'.trans hclosed, hsent'.trans hsent⟩
  exact (hkept.reachable h ⟨hs, rfl, rfl⟩).2

variable [Fintype ω]

/-- A connection that is left open with a worker asleep is one that stalls. -/
theorem stallFinal_open {s : Serving ω} (hb : s.server.connections.Balanced)
    (hs : s.server.pool.Owned) (hc : s.server.pool.Covered)
    (h : Final (StallDrain stalls answer) s) (hsleeps : s.server.pool.Sleeps) {sock : Int}
    {n : Nat} (hconn : s.server.conn sock = some n) : stalls n := by
  have hmem : sock ∈ s.server.pool.sockets := by
    rw [← connections_tasks]
    exact (hb.open_iff sock).mpr ⟨n, hconn⟩
  obtain ⟨w, hw⟩ :=
    settled_held hs hc (stallFinal_settled h) hsleeps (Multiset.mem_filter.mp hmem).1
  obtain ⟨m, hm, hstalls⟩ := stallFinal_stalls h hw
  cases hconn.symm.trans hm
  exact hstalls

variable [DecidablePred stalls]

/-- Every worker is on a connection of its own. -/
theorem heldUp_count {s : Serving ω} (hb : s.server.connections.Balanced)
    (h : s.HeldUp stalls) : Fintype.card ω ≤ s.server.openConns.countP (stalls ·) := by
  have hsockets : s.server.pool.sockets.Nodup := by
    rw [← connections_tasks]
    exact hb.distinct
  choose sock n hpc hconn hn using h
  have hmem (w : ω) : n w ∈ s.server.openConns.filter (stalls ·) := by
    have hopen : n w ∉ s.server.closed := fun hclosed =>
      ((hb.closed_iff (n w)).mp hclosed).2 (sock w) (hconn w)
    simp [Server.openConns, hn w, hopen, show n w < s.server.accepted.length from
      hb.numbered (hconn w)]
  have hinj : Set.InjOn n (Finset.univ : Finset ω) := by
    intro v _ w _ hvw
    have hsame : sock v = sock w := hb.conn_alone (hconn v) (hvw ▸ hconn w)
    have hpos : 0 ≤ sock v := hb.nonneg (sock v) (n v) (hconn v)
    exact held_alone hsockets hpos (by rw [hpc v]; rfl) (by rw [hpc w, hsame]; rfl)
  have hcard := Finset.card_le_card_of_injOn n
    (t := (s.server.openConns.filter (stalls ·)).toFinset)
    (fun w _ => List.mem_toFinset.mpr (hmem w)) hinj
  rw [List.countP_eq_length_filter]
  exact hcard.trans (List.toFinset_card_le _)

theorem stallFinal_sleeps_iff {s : Serving ω} (hb : s.server.connections.Balanced)
    (hs : s.server.pool.Owned) (hc : s.server.pool.Covered)
    (h : Final (StallDrain stalls answer) s) :
    s.server.pool.Sleeps ↔ s.server.openConns.countP (stalls ·) < Fintype.card ω := by
  refine ⟨fun hsleeps => ?_, fun hlt => ?_⟩
  · have hopen : s.server.openConns.length = s.server.pool.sockets.card := by
      rw [← connections_tasks]
      exact hb.openConns_length
    calc
      s.server.openConns.countP (stalls ·) ≤ s.server.openConns.length := List.countP_le_length
      _ = s.server.pool.sockets.card := hopen
      _ ≤ s.server.pool.tasks.card := Multiset.card_le_card (Multiset.filter_le _ _)
      _ < Fintype.card ω := settled_card hs hc (stallFinal_settled h) hsleeps
  · by_contra hawake
    exact absurd (heldUp_count hb (stallFinal_heldUp hs h hawake)) (Nat.not_le_of_lt hlt)

/-- **As many connections that stall as there are workers hold the server up,
and fewer do not.** Once `Loop` accepts no more, with fewer every other client
is answered in full, in a bounded number of steps and so many more for each
wakeup without a signal; with as many, every worker comes to be held up, and
from there on no client is sent anything, whoever connects. -/
theorem clients_outlast (stalls : Nat → Prop) [DecidablePred stalls] (clients : Nat → Client)
    (astray : List Bytes) {s : Serving ω}
    (h : Reachable (ServingStep (answers clients astray)) .initial s) :
    (∃ most more, ∀ n k t,
        Mixed (StallDrain stalls (answers clients astray)) ServingWake n k s t →
          n ≤ most + more * k) ∧
      (∃ t, Reachable (StallDrain stalls (answers clients astray)) s t ∧
        Final (StallDrain stalls (answers clients astray)) t) ∧
      ∀ t, Reachable (Either (StallDrain stalls (answers clients astray)) ServingWake) s t →
        Final (StallDrain stalls (answers clients astray)) t →
          (s.server.openConns.countP (stalls ·) < Fintype.card ω →
            ∀ n < s.server.accepted.length, ¬ stalls n →
              n ∈ t.server.closed ∧ t.sent n = (clients n).handled.sent) ∧
          (Fintype.card ω ≤ s.server.openConns.countP (stalls ·) →
            t.HeldUp stalls ∧ ∀ u, Reachable (StallStep stalls (answers clients astray)) t u →
              u.server.closed = t.server.closed ∧ u.sent = t.sent) := by
  obtain ⟨most, hmost⟩ : ∃ most, s.AtMost (answers clients astray) most :=
    exists_atMost (reachable_sequential h).1
  have hranked : Ranked (StallDrain stalls (answers clients astray))
      (Serving.AtMost (ω := ω) (answers clients astray) most) (Serving.work most) :=
    (servingDrain_ranked most).mono fun _ _ hstep => hstep.1
  refine ⟨⟨_, _, hranked.mixed (servingWake_raised most) hmost⟩, hranked.exists_final hmost,
    fun t ht hfinal => ?_⟩
  have hreach : Reachable (ServingStep (answers clients astray)) .initial t :=
    h.trans (ht.mono fun _ _ hstep => (stallDrainOrWake_stallStep hstep).1)
  obtain ⟨hb, hsequential⟩ := reachable_sequential hreach
  obtain ⟨howned, hcovered⟩ := reachable_pool (reachable_loop hreach)
  have hsleeps := stallFinal_sleeps_iff hb howned hcovered hfinal
  rw [stalled_kept ht] at hsleeps
  refine ⟨fun hfew n hn hgoes => ?_, fun hmany => ?_⟩
  · have hclosed : n ∈ t.server.closed := by
      rw [← reachable_servingDrain_accepted
        (ht.mono fun _ _ hstep => hstep.mono And.left id)] at hn
      refine (hb.closed_iff n).mpr ⟨hn, fun sock hconn => hgoes ?_⟩
      exact stallFinal_open hb howned hcovered hfinal (hsleeps.mpr hfew) hconn
    exact ⟨hclosed, (hsequential.closed n hclosed).trans (clients n).calls_flatten⟩
  · have hheld := stallFinal_heldUp howned hfinal fun hs =>
      absurd (hsleeps.mp hs) (Nat.not_lt_of_le hmany)
    exact ⟨hheld, fun u hu => reachable_heldUp hu hheld⟩

end

/-- One worker, and one client of which nothing comes. -/
theorem clients_outlast_one : ∃ s t : Serving Unit, s.server.accepted = [5] ∧
    Reachable (StallDrain (· = 0) (answers (fun _ => sampleClient) [])) s t ∧
      t.HeldUp (· = 0) := by
  have start : Reachable (ServingStep (answers (fun _ => sampleClient) []))
      (.initial : Serving Unit) .initial := Reachable.start
  have accepted := start.next (.server _ _ _ (.accept _ 5 rfl (by decide) rfl)
    fun _ _ h => (by cases h))
  obtain ⟨-, ⟨t, ht, hfinal⟩, hend⟩ :=
    clients_outlast (· = 0) (fun _ => sampleClient) [] accepted
  exact ⟨_, t, rfl, ht, ((hend t (ht.mono fun _ _ => Or.inl) hfinal).2 (by decide)).1⟩

end MinHttp

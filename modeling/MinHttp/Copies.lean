import MinHttp.Programs

/-! The pool with the exchange of each worker, where a child keeps copies of
the ends of other exchanges' pipes that were open when it was made: they hold
those exchanges up, but not for ever. -/
namespace MinHttp

open Lib.Runs
open Lib.Halting
open Lib (Pipe)

variable {κ : Type} {σ : CgiSetup} {P : Program κ}

/-! ## One exchange -/

/-- The ends of its pipes that the child of an exchange uses. -/
inductive ChildEnd
  | inputWrite
  | outputRead

/-- What the parent does not come to see, where another process has a copy of
the end it waits on. -/
inductive Hidden (σ : CgiSetup) (held : ChildEnd → Prop) : Exchange κ → Exchange κ → Prop
  | writeBroken (s) (total : Nat) (holds : held .outputRead) (pc : s.parent = .writing total)
      (more : total < σ.contentLength) (some : total < σ.body.length)
      (broken : s.output.reader = false) : Hidden σ held s { s with parent := .reading }
  | eof (s) (holds : held .inputWrite) (pc : s.parent = .reading) (ended : s.input.Ended) :
      Hidden σ held s { s with parent := .waiting }

/-- A step of an exchange of whose child's ends another process has copies.
While one can be read from, the parent fills the pipe also when its own child
reads no more. -/
inductive HeldStep (σ : CgiSetup) (P : Program κ) (held : ChildEnd → Prop) :
    Exchange κ → Exchange κ → Prop
  | own {s t} (step : ExchangeStep σ P s t) (seen : ¬ Hidden σ held s t) : HeldStep σ P held s t
  | write (s) (total n : Nat) (holds : held .outputRead) (pc : s.parent = .writing total)
      (more : total < σ.contentLength) (broken : s.output.reader = false) (pos : 0 < n)
      (le : n ≤ σ.body.length - total) (room : s.output.content.length + n ≤ σ.cap) :
      HeldStep σ P held s { s with
        parent := .writing (total + n)
        output := s.output.put ((σ.body.drop total).take n) }

/-- Until its child ends an exchange is where it could be alone. -/
structure Exchange.Apart (σ : CgiSetup) (P : Program κ) (s : Exchange κ) : Prop where
  alone : (∀ status, s.child ≠ .ended status) → Reachable (ExchangeStep σ P) .initial s
  regular : s.Regular
  kept : s.Open
  room : s.input.content.length ≤ σ.cap

theorem initial_apart : (Exchange.initial : Exchange κ).Apart σ P :=
  ⟨fun _ => Reachable.start, initial_regular, fun _ h => (by cases h), Nat.zero_le _⟩

theorem exchangeStep_room {s t : Exchange κ} (h : ExchangeStep σ P s t)
    (hs : s.input.content.length ≤ σ.cap) : t.input.content.length ≤ σ.cap := by
  cases h with
  | parent step =>
    cases step with
    | read ch rest pc there =>
      simp only [Pipe.drop_content, List.length_drop]
      omega
    | _ => exact hs
  | child step =>
    cases step with
    | write k bytes n wrote pc act open_ accepted =>
      have hroom := accepted.room
      have htake := List.length_take_le n bytes
      rw [Pipe.put_content, List.length_append]
      omega
    | _ => exact hs

/-- A child that has ended is not there again. -/
theorem exchangeStep_ended {s t : Exchange κ} (h : ExchangeStep σ P s t) (hs : s.Regular)
    {status : Option UInt8} (hc : s.child = .ended status) : t.child = .ended status := by
  cases h with
  | parent step =>
    cases step with
    | fork pc =>
      rw [hs.start pc] at hc
      cases hc
    | _ => exact hc
  | child step =>
    obtain ⟨k, hk⟩ := childStep_running step
    cases hc.symm.trans hk

/-- A parent that writes where nobody reads has seen its child end. -/
theorem Exchange.Apart.ended {s : Exchange κ} (hs : s.Apart σ P) {total : Nat}
    (pc : s.parent = .writing total) (broken : s.output.reader = false) :
    ∃ status, s.child = .ended status := by
  cases hc : s.child with
  | unborn => cases pc.symm.trans (hs.regular.unborn hc)
  | running k => cases broken.symm.trans (hs.kept k hc).2.1
  | ended status => exact ⟨status, rfl⟩

variable {held : ChildEnd → Prop}

theorem heldStep_apart (hP : P.KeepsOpen) {s t : Exchange κ} (h : HeldStep σ P held s t)
    (hs : s.Apart σ P) : t.Apart σ P := by
  cases h with
  | own step seen =>
    obtain ⟨hregular, hopen⟩ := exchangeStep_open hP step ⟨hs.regular, hs.kept⟩
    refine ⟨fun hc => (hs.alone fun status hended => ?_).next step, hregular, hopen,
      exchangeStep_room step hs.room⟩
    exact hc status (exchangeStep_ended step hs.regular hended)
  | write total n holds pc more broken pos le room =>
    obtain ⟨status, hc⟩ := hs.ended pc broken
    refine ⟨fun hnot => absurd hc (hnot status), ?_, fun k hk => (by cases hc.symm.trans hk),
      hs.room⟩
    exact ⟨fun hp => (by cases hp), fun hnone => (by cases hc.symm.trans hnone), hs.regular.ended,
      fun hp => (by cases hp), fun _ hp => (by cases hp), hs.regular.order⟩

/-- While its child runs it does so as it would alone, whoever has copies. -/
theorem Exchange.Apart.runs {s : Exchange κ} (hs : s.Apart σ P) {k : κ} (hk : s.child = .running k)
    (hlive : ¬ (ParentBlocked σ P s ∧ ChildBlocked σ P s)) (held : ChildEnd → Prop) :
    ∃ t, HeldStep σ P held s t := by
  by_contra hnone
  have hseen (t : Exchange κ) : ¬ Hidden σ held s t := by
    intro h
    obtain ⟨hinput, houtput⟩ := hs.kept k hk
    cases h with
    | writeBroken total holds pc more some broken => cases broken.symm.trans houtput.1
    | eof holds pc ended => cases ended.closed.symm.trans hinput.2
  refine hlive ⟨⟨(hs.regular.running hk).2, fun t step => ?_⟩, ⟨k, hk⟩, fun t step => ?_⟩
  · exact hnone ⟨t, .own (.parent step) (hseen t)⟩
  · exact hnone ⟨t, .own (.child step) (hseen t)⟩

/-- And without one it goes on once there are no copies. -/
theorem Exchange.Apart.goes {s : Exchange κ} (hs : s.Apart σ P) (hc : ∀ k, s.child ≠ .running k)
    (hp : ∀ code, s.parent ≠ .returned code) (hnone : ∀ e, ¬ held e) :
    ∃ t, HeldStep σ P held s t := by
  have hseen (t : Exchange κ) : ¬ Hidden σ held s t := by
    intro h
    cases h with
    | writeBroken total holds | eof holds => exact hnone _ holds
  cases hchild : s.child with
  | unborn => exact ⟨_, .own (.parent (.fork s (hs.regular.unborn hchild))) (hseen _)⟩
  | running k => exact absurd hchild (hc k)
  | ended status =>
    obtain ⟨t, step⟩ := parentStep_of_ended (P := P) hs.regular hchild hp
    exact ⟨t, .own (.parent step) (hseen t)⟩

/-- The parent's steps after the end of its child. -/
def Exchange.tail (σ : CgiSetup) (s : Exchange κ) : Nat :=
  s.parent.work σ + s.input.content.length

theorem heldStep_tail {s t : Exchange κ} (h : HeldStep σ P held s t) (hs : s.Regular)
    {status : Option UInt8} (hc : s.child = .ended status) : t.tail σ < s.tail σ := by
  cases h with
  | write total n holds pc more broken pos le room =>
    simp only [Exchange.tail, Parent.work, pc]
    omega
  | own step seen =>
    cases step with
    | child step =>
      obtain ⟨k, hk⟩ := childStep_running step
      cases hc.symm.trans hk
    | parent step =>
      cases step with
      | fork pc =>
        rw [hs.start pc] at hc
        cases hc
      | write total n pc more accepted =>
        cases accepted.open_.symm.trans (hs.ended status hc).2
      | writeNothing total pc | writeBroken total pc | written total pc =>
        simp only [Exchange.tail, Parent.work, pc]
        omega
      | read ch rest pc there => simp [Exchange.tail, there]
      | eof pc => simp [Exchange.tail, Parent.work, pc]
      | wait status pc => simp [Exchange.tail, Exchange.parentReturns, Parent.work, pc]

theorem tail_le {s : Exchange κ} (hs : s.Apart σ P) : s.tail σ ≤ σ.body.length + 4 + σ.cap := by
  have hroom := hs.room
  have hwork : s.parent.work σ ≤ σ.body.length + 4 := by
    cases s.parent <;> simp only [Parent.work] <;> omega
  exact Nat.add_le_add hwork hroom

/-- While the child runs, the rank of the exchange alone counts, and the most
that may be left after it. -/
def Exchange.apartWork (rank : Exchange κ → Nat) (σ : CgiSetup) (s : Exchange κ) : Nat :=
  match s.child with
  | .ended _ => s.tail σ
  | _ => rank s + (σ.body.length + 4 + σ.cap)

theorem apartWork_ended (rank : Exchange κ → Nat) {s : Exchange κ} {status : Option UInt8}
    (hc : s.child = .ended status) : s.apartWork rank σ = s.tail σ := by
  rw [Exchange.apartWork, hc]

theorem apartWork_alone (rank : Exchange κ → Nat) {s : Exchange κ}
    (hc : ∀ status, s.child ≠ .ended status) :
    s.apartWork rank σ = rank s + (σ.body.length + 4 + σ.cap) := by
  unfold Exchange.apartWork
  cases hchild : s.child with
  | ended status => exact absurd hchild (hc status)
  | unborn | running => rfl

theorem heldStep_work {rank : Exchange κ → Nat} (hP : P.KeepsOpen)
    (hrank : Ranked (ExchangeStep σ P) (Reachable (ExchangeStep σ P) .initial) rank)
    {s t : Exchange κ} (h : HeldStep σ P held s t) (hs : s.Apart σ P) :
    t.apartWork rank σ < s.apartWork rank σ := by
  have ht := heldStep_apart hP h hs
  by_cases hc : ∃ status, s.child = .ended status
  · obtain ⟨status, hc⟩ := hc
    have hended : t.child = .ended status := by
      cases h with
      | own step seen => exact exchangeStep_ended step hs.regular hc
      | write => exact hc
    rw [apartWork_ended rank hc, apartWork_ended rank hended]
    exact heldStep_tail h hs.regular hc
  · have halone : ∀ status, s.child ≠ .ended status := fun status h => hc ⟨status, h⟩
    cases h with
    | write total n holds pc more broken => exact absurd (hs.ended pc broken) hc
    | own step seen =>
      have hlower := hrank.lowers step (hs.alone halone)
      rw [apartWork_alone rank halone]
      by_cases hc' : ∃ status, t.child = .ended status
      · obtain ⟨status, hc'⟩ := hc'
        have hle := tail_le ht
        rw [apartWork_ended rank hc']
        omega
      · rw [apartWork_alone rank fun status h => hc' ⟨status, h⟩]
        omega

/-! ## The pool -/

variable {ω π τ : Type}

/-- `copies v w e`: the child of `v` has a copy of the end `e` of `w`'s pipes. -/
structure Sharing (ω π τ κ : Type) where
  pool : Pool ω π τ
  exchange : ω → Exchange κ
  copies : ω → ω → ChildEnd → Prop

def Sharing.initial : Sharing ω π τ κ := ⟨.initial, fun _ => .initial, fun _ _ _ => False⟩

/-- The end is open in the child of another worker, as long as that runs. -/
def Sharing.Held (s : Sharing ω π τ κ) (w : ω) (e : ChildEnd) : Prop :=
  ∃ v ≠ w, s.copies v w e ∧ ∃ k, (s.exchange v).child = .running k

/-- `fork` copies whatever ends of the others are open then; a child's copies
go with it, and the copies of an end with the pipe. -/
inductive SharingStep [DecidableEq ω] [DecidableEq π]
    (program : τ → Option (CgiSetup × Program κ)) :
    Sharing ω π τ κ → Sharing ω π τ κ → Prop
  | pool (s) (pool : Pool ω π τ) (step : PoolStep s.pool pool)
      (handling : ∀ w task, s.pool.worker w = .processOn task →
        pool.worker w = .processOn task) :
      SharingStep program s { s with pool := pool }
  | exchange (s) (w : ω) (task : τ) (σ : CgiSetup) (P : Program κ) (t : Exchange κ)
      (copies : ω → ω → ChildEnd → Prop) (pc : s.pool.worker w = .processOn task)
      (reached : program task = some (σ, P)) (step : HeldStep σ P (s.Held w) (s.exchange w) t)
      (copied : ∀ v u e, copies v u e → s.copies v u e ∨ v = w ∧ (s.exchange w).child = .unborn) :
      SharingStep program s { s with
        exchange := Function.update s.exchange w t
        copies := copies }
  | processOn (s) (w : ω) (task : τ) (pool : Pool ω π τ) (pc : s.pool.worker w = .processOn task)
      (returned : ∀ σ P, program task = some (σ, P) →
        ∃ code, (s.exchange w).parent = .returned code)
      (step : WorkerStep w s.pool pool) :
      SharingStep program s ⟨pool, Function.update s.exchange w .initial,
        fun v u e => v ≠ w ∧ u ≠ w ∧ s.copies v u e⟩

/-- A step the threads and the programs owe, where `PushTask` is not called
again. -/
def SharingDrain [DecidableEq ω] [DecidableEq π]
    (program : τ → Option (CgiSetup × Program κ)) (s t : Sharing ω π τ κ) : Prop :=
  SharingStep program s t ∧ (t.exchange = s.exchange → DrainStep s.pool t.pool)

/-- A worker wakes without a signal. -/
def SharingWake [DecidableEq ω] (s t : Sharing ω π τ κ) : Prop :=
  ∃ pool, WakeStep s.pool pool ∧ t = { s with pool := pool }

/-- Alone, every exchange has a bound on its steps and none comes to a stop
before `ProcessCIG` has returned, and the programs leave their standard input
and output open. -/
structure Returning (program : τ → Option (CgiSetup × Program κ)) : Prop where
  keepsOpen : ∀ task σ P, program task = some (σ, P) → P.KeepsOpen
  bounded : ∀ task σ P, program task = some (σ, P) →
    ∃ most, ∀ n e, Steps (ExchangeStep σ P) n .initial e → n ≤ most
  live : ∀ task σ P, program task = some (σ, P) → ∀ e,
    Reachable (ExchangeStep σ P) .initial e → ¬ (ParentBlocked σ P e ∧ ChildBlocked σ P e)

/-- The exchange of each worker is one of its task's program. -/
structure Sharing.Running (program : τ → Option (CgiSetup × Program κ))
    (s : Sharing ω π τ κ) : Prop where
  idle : ∀ w, (∀ task, s.pool.worker w = .processOn task → program task = none) →
    s.exchange w = .initial
  runs : ∀ w task σ P, s.pool.worker w = .processOn task → program task = some (σ, P) →
    (s.exchange w).Apart σ P

theorem initial_sharing (program : τ → Option (CgiSetup × Program κ)) :
    (Sharing.initial : Sharing ω π τ κ).Running program :=
  ⟨fun _ _ => rfl, fun _ _ _ _ h => (by cases h)⟩

theorem Sharing.Running.fresh {program : τ → Option (CgiSetup × Program κ)}
    {s : Sharing ω π τ κ} (hs : s.Running program) {w : ω} {task : τ}
    (hpc : s.pool.worker w = .unLock task) : s.exchange w = .initial := by
  apply hs.idle w
  intro task' hpc'
  cases hpc.symm.trans hpc'

section
variable [DecidableEq ω] [DecidableEq π] {program : τ → Option (CgiSetup × Program κ)}

omit [DecidableEq ω] [DecidableEq π] in
theorem Sharing.running_iff {s : Sharing ω π τ κ} : s.Running program ↔
    ∀ w, (s.pool.worker w).Has .initial
      (fun task e => (program task = none → e = .initial) ∧
        ∀ σ P, program task = some (σ, P) → e.Apart σ P) (s.exchange w) := by
  constructor
  · refine fun h w => ⟨fun hout => h.idle w fun task pc => absurd pc (hout task),
      fun task pc => ⟨fun hnone => h.idle w fun task' pc' => ?_, fun σ P => h.runs w task σ P pc⟩⟩
    cases pc.symm.trans pc'
    exact hnone
  · refine fun h => ⟨fun w hw => ?_, fun w task σ P pc => ((h w).handles task pc).2 σ P⟩
    by_cases hpc : ∃ task, s.pool.worker w = .processOn task
    · obtain ⟨task, pc⟩ := hpc
      exact ((h w).handles task pc).1 (hw task pc)
    · exact (h w).idle fun task pc => hpc ⟨task, pc⟩

theorem sharingStep_running (hP : Returning program) :
    Preserved (SharingStep (ω := ω) (π := π) program) (Sharing.Running program) := by
  intro s t h hs
  have hhas := Sharing.running_iff.mp hs
  refine Sharing.running_iff.mpr fun v => ?_
  cases h with
  | pool pool step handling =>
    exact poolStep_has (fun _ => ⟨fun _ => rfl, fun _ _ _ => initial_apart⟩) step handling hhas v
  | exchange w task σ P e copies pc reached step copied =>
    refine has_update pc ⟨fun hnone => ?_, fun σ' P' hprogram => ?_⟩ hhas v
    · cases reached.symm.trans hnone
    · cases reached.symm.trans hprogram
      exact heldStep_apart (hP.keepsOpen task σ P reached) step (hs.runs w task σ P pc reached)
  | processOn w task pool pc returned step =>
    exact processOn_has step pc hhas v

theorem sharingStep_pool {s t : Sharing ω π τ κ} (h : SharingStep program s t) :
    t.pool = s.pool ∨ PoolStep s.pool t.pool := by
  cases h with
  | pool pool step handling => exact Or.inr step
  | exchange => exact Or.inl rfl
  | processOn w task pool pc returned step => exact Or.inr (.worker w step)

theorem SharingWake.sharingStep {s t : Sharing ω π τ κ} (h : SharingWake s t) :
    SharingStep program s t := by
  obtain ⟨pool, hwake, rfl⟩ := h
  obtain ⟨w, pc, step⟩ := hwake.workerStep
  refine .pool s pool (.worker w step) fun v task hv => workerStep_handling step (fun hpc => ?_) hv
  cases pc.symm.trans hpc

theorem sharingDrainOrWake_sharingStep {s t : Sharing ω π τ κ}
    (h : Either (SharingDrain program) SharingWake s t) : SharingStep program s t :=
  h.elim And.left SharingWake.sharingStep

/-- Only the pool's own threads move it on. -/
theorem sharingDrain_pool {s t : Sharing ω π τ κ} (h : SharingDrain program s t) :
    t.pool = s.pool ∨ DrainStep s.pool t.pool := by
  obtain ⟨hstep, hpool⟩ := h
  cases hstep with
  | pool pool step handling => exact Or.inr (hpool rfl)
  | exchange => exact Or.inl rfl
  | processOn w task pool pc returned step => exact Or.inr (.worker w (by simp [pc]) step)

theorem sharingDrainOrWake_pool {s t : Sharing ω π τ κ}
    (h : Either (SharingDrain program) SharingWake s t) :
    t.pool = s.pool ∨ Either DrainStep WakeStep s.pool t.pool := by
  rcases h with hdrain | ⟨pool, hwake, rfl⟩
  · exact (sharingDrain_pool hdrain).imp_right Or.inl
  · exact Or.inr (Or.inr hwake)

/-- Every program's exchange is ranked. -/
theorem Returning.exists_rank (h : Returning program) :
    ∃ rank : τ → Exchange κ → Nat, ∀ task σ P, program task = some (σ, P) →
      Ranked (ExchangeStep σ P) (Reachable (ExchangeStep σ P) .initial) (rank task) := by
  have hone (task : τ) : ∃ rank : Exchange κ → Nat, ∀ σ P, program task = some (σ, P) →
      Ranked (ExchangeStep σ P) (Reachable (ExchangeStep σ P) .initial) rank := by
    cases hprogram : program task with
    | none => exact ⟨fun _ => 0, fun _ _ hsome => (by cases hsome)⟩
    | some setup =>
      obtain ⟨σ, P⟩ := setup
      obtain ⟨most, hmost⟩ := h.bounded task σ P hprogram
      obtain ⟨rank, hrank⟩ := exists_ranked hmost
      refine ⟨rank, fun σ' P' hsame => ?_⟩
      cases hsame
      exact hrank
  choose rank hrank using hone
  exact ⟨rank, hrank⟩

/-! ## Where the threads stop -/

/-- A step of an exchange is one that is owed. -/
theorem sharingDrain_exchange (hP : Returning program) {s : Sharing ω π τ κ}
    (hs : s.Running program) {w : ω} {task : τ} {σ : CgiSetup} {P : Program κ}
    (pc : s.pool.worker w = .processOn task) (hprogram : program task = some (σ, P))
    {e : Exchange κ} (step : HeldStep σ P (s.Held w) (s.exchange w) e) :
    ∃ t, SharingDrain program s t := by
  obtain ⟨rank, hrank⟩ := hP.exists_rank
  have hlower := heldStep_work (hP.keepsOpen task σ P hprogram) (hrank task σ P hprogram) step
    (hs.runs w task σ P pc hprogram)
  have hmoves : e ≠ s.exchange w := by
    rintro rfl
    exact Nat.lt_irrefl _ hlower
  exact ⟨_, .exchange s w task σ P e s.copies pc hprogram step fun _ _ _ h => Or.inl h,
    fun hsame => absurd hsame (Function.update_ne_self_iff.mpr hmoves)⟩

omit [DecidableEq ω] [DecidableEq π] in
/-- A child that runs is in the exchange of a task's program. -/
theorem Sharing.Running.child {s : Sharing ω π τ κ} (hs : s.Running program) {w : ω} {k : κ}
    (hk : (s.exchange w).child = .running k) :
    ∃ task σ P, s.pool.worker w = .processOn task ∧ program task = some (σ, P) := by
  by_contra hnone
  have hidle : s.exchange w = .initial := by
    apply hs.idle w
    intro task hpc
    cases hprogram : program task with
    | none => rfl
    | some setup => exact absurd ⟨task, setup.1, setup.2, hpc, hprogram⟩ hnone
  rw [hidle] at hk
  cases hk

/-- Where nothing is owed no child runs, -/
theorem sharingFinal_child (hP : Returning program) {s : Sharing ω π τ κ}
    (hs : s.Running program) (h : Final (SharingDrain program) s) (w : ω) (k : κ) :
    (s.exchange w).child ≠ .running k := by
  intro hk
  obtain ⟨task, σ, P, pc, hprogram⟩ := hs.child hk
  have hapart := hs.runs w task σ P pc hprogram
  have halone : Reachable (ExchangeStep σ P) .initial (s.exchange w) :=
    hapart.alone fun status hended => by cases hk.symm.trans hended
  obtain ⟨e, step⟩ := hapart.runs hk (hP.live task σ P hprogram _ halone) (s.Held w)
  obtain ⟨t, ht⟩ := sharingDrain_exchange hP hs pc hprogram step
  exact h t ht

/-- so that no end is held, and every `ProcessCIG` has returned. -/
theorem sharingFinal_returned (hP : Returning program) {s : Sharing ω π τ κ}
    (hs : s.Running program) (h : Final (SharingDrain program) s) {w : ω} {task : τ}
    {σ : CgiSetup} {P : Program κ} (pc : s.pool.worker w = .processOn task)
    (hprogram : program task = some (σ, P)) : ∃ code, (s.exchange w).parent = .returned code := by
  by_contra hnot
  have hnone (e : ChildEnd) : ¬ s.Held w e := by
    rintro ⟨v, -, -, k, hk⟩
    exact sharingFinal_child hP hs h v k hk
  obtain ⟨e, step⟩ := (hs.runs w task σ P pc hprogram).goes (sharingFinal_child hP hs h w)
    (fun code hp => hnot ⟨code, hp⟩) hnone
  obtain ⟨t, ht⟩ := sharingDrain_exchange hP hs pc hprogram step
  exact h t ht

theorem sharingFinal_pool (hP : Returning program) {s : Sharing ω π τ κ}
    (hs : s.Running program) (h : Final (SharingDrain program) s) : Final DrainStep s.pool := by
  intro pool hstep
  cases hstep with
  | producer p busy step =>
    exact h _ ⟨.pool s pool (.producer p step) fun v task hv => producerStep_handling step hv,
      fun _ => .producer p busy step⟩
  | worker w awake step =>
    by_cases hpc : ∃ task, s.pool.worker w = .processOn task
    · obtain ⟨task, hpc⟩ := hpc
      exact h _ ⟨.processOn s w task pool hpc
        (fun σ P hprogram => sharingFinal_returned hP hs h hpc hprogram) step,
        fun _ => .worker w awake step⟩
    · exact h _ ⟨.pool s pool (.worker w step) fun v task hv =>
        workerStep_handling step (fun hpc' => hpc ⟨task, hpc'⟩) hv, fun _ => .worker w awake step⟩

end

/-- What is left of a worker's exchange, or as much as the next may have. -/
def WorkerPc.left (work : τ → Exchange κ → Nat) (most : Nat) (e : Exchange κ) : WorkerPc τ → Nat
  | .processOn task => work task e
  | _ => most

section
variable [Fintype ω] [Fintype π] {program : τ → Option (CgiSetup × Program κ)}
  {rank : τ → Exchange κ → Nat} {most : Nat}

/-- The exchange of a task that has no program is not begun. -/
def taskWork (program : τ → Option (CgiSetup × Program κ)) (rank : τ → Exchange κ → Nat)
    (task : τ) (e : Exchange κ) : Nat :=
  (program task).elim 0 fun setup => e.apartWork (rank task) setup.1

theorem taskWork_some {task : τ} {σ : CgiSetup} {P : Program κ}
    (h : program task = some (σ, P)) (e : Exchange κ) :
    taskWork program rank task e = e.apartWork (rank task) σ := by
  rw [taskWork, h]
  rfl

def Sharing.work (work : τ → Exchange κ → Nat) (most : Nat) (s : Sharing ω π τ κ) : Nat :=
  s.pool.work * (most + 1) + ∑ w, (s.pool.worker w).left work most (s.exchange w)

/-- No exchange that is yet to begin has more to do. -/
structure Sharing.AtMost (program : τ → Option (CgiSetup × Program κ))
    (work : τ → Exchange κ → Nat) (most : Nat) (s : Sharing ω π τ κ) : Prop where
  running : s.Running program
  begins : ∀ task ∈ s.pool.tasks, work task .initial ≤ most

theorem exists_atMost_work {s : Sharing ω π τ κ} (hs : s.Running program)
    (work : τ → Exchange κ → Nat) : ∃ most, s.AtMost program work most := by
  refine ⟨(s.pool.tasks.map fun task => work task .initial).sup, hs, fun task htask => ?_⟩
  exact Multiset.le_sup (Multiset.mem_map_of_mem _ htask)

variable [DecidableEq ω] [DecidableEq π]

/-- A worker that takes up a task has its exchange before it. -/
theorem poolStep_left {work : τ → Exchange κ → Nat} {s : Sharing ω π τ κ}
    (hs : s.AtMost program work most) {pool : Pool ω π τ} (h : PoolStep s.pool pool)
    (hhandling : ∀ w task, s.pool.worker w = .processOn task →
      pool.worker w = .processOn task) (w : ω) :
    (pool.worker w).left work most (s.exchange w) ≤
      (s.pool.worker w).left work most (s.exchange w) := by
  cases hw : pool.worker w with
  | processOn task =>
    rcases poolStep_processOn h hw with hpc | hpc
    · rw [hpc]
    · rw [hpc, hs.running.fresh hpc]
      exact hs.begins task (held_mem_tasks (w := w) (by rw [hpc]; rfl))
  | _ =>
    have hout (task : τ) : s.pool.worker w ≠ .processOn task := fun hpc => by
      cases hw.symm.trans (hhandling w task hpc)
    cases hpc : s.pool.worker w <;> first | exact Nat.le_refl most | exact absurd hpc (hout _)

theorem sharingDrain_work (hP : Returning program)
    (hrank : ∀ task σ P, program task = some (σ, P) →
      Ranked (ExchangeStep σ P) (Reachable (ExchangeStep σ P) .initial) (rank task))
    {s t : Sharing ω π τ κ} (h : SharingDrain program s t)
    (hs : s.AtMost program (taskWork program rank) most) :
    t.work (taskWork program rank) most < s.work (taskWork program rank) most := by
  obtain ⟨hstep, hpool⟩ := h
  cases hstep with
  | pool pool step handling =>
    refine weighted_lt (drainStep_work (hpool rfl)) (Nat.lt_succ_of_le ?_)
    exact (Finset.sum_le_sum fun w _ => poolStep_left hs step handling w).trans
      (Nat.le_add_right _ most)
  | exchange w task σ P e copies pc reached step copied =>
    refine Nat.add_lt_add_left ?_ _
    have hlower := heldStep_work (hP.keepsOpen task σ P reached) (hrank task σ P reached) step
      (hs.running.runs w task σ P pc reached)
    have hsum := Lib.Count.sum_moved
      (f := fun v => (s.pool.worker v).left (taskWork program rank) most (s.exchange v))
      (g := fun v => (s.pool.worker v).left (taskWork program rank) most
        (Function.update s.exchange w e v)) w
      fun v hv => by rw [Function.update_of_ne hv]
    rw [Function.update_self, pc, WorkerPc.left, WorkerPc.left, taskWork_some reached,
      taskWork_some reached] at hsum
    dsimp only at hsum ⊢
    omega
  | processOn w task pool pc returned step =>
    have hworker := processOn_worker step pc
    have hmost : (pool.worker w).left (taskWork program rank) most
        (Function.update s.exchange w .initial w) = most := by
      rw [hworker, Function.update_self, Function.update_self]
      rfl
    have hsum := Lib.Count.sum_moved
      (f := fun v => (s.pool.worker v).left (taskWork program rank) most (s.exchange v))
      (g := fun v => (pool.worker v).left (taskWork program rank) most
        (Function.update s.exchange w .initial v)) w
      fun v hv => by rw [hworker, Function.update_of_ne hv, Function.update_of_ne hv]
    rw [hmost] at hsum
    exact weighted_lt (workerStep_work step (by simp [pc]))
      (Nat.lt_succ_of_le (Nat.le.intro hsum))

theorem sharingDrain_ranked (hP : Returning program)
    (hrank : ∀ task σ P, program task = some (σ, P) →
      Ranked (ExchangeStep σ P) (Reachable (ExchangeStep σ P) .initial) (rank task)) :
    Ranked (SharingDrain program)
      (Sharing.AtMost (ω := ω) (π := π) program (taskWork program rank) most)
      (Sharing.work (taskWork program rank) most) := by
  refine ⟨fun s t h hs => ⟨sharingStep_running hP h.1 hs.running, fun task htask => ?_⟩,
    fun s t h hs => sharingDrain_work hP hrank h hs⟩
  rcases sharingDrain_pool h with hsame | hdrain
  · exact hs.begins task (hsame ▸ htask)
  · exact hs.begins task (Multiset.mem_of_le (drainStep_tasks_le hdrain) htask)

theorem sharingWake_raised (hP : Returning program) (work : τ → Exchange κ → Nat) :
    Raised SharingWake (Sharing.AtMost (ω := ω) (π := π) program work most)
      (Sharing.work work most) (3 * (most + 1)) := by
  refine ⟨fun s t h hs => ⟨sharingStep_running hP h.sharingStep hs.running, fun task htask => ?_⟩,
    fun s t h hs => ?_⟩
  · obtain ⟨pool, hwake, rfl⟩ := h
    exact hs.begins task ((wakeStep_tasks hwake).1 ▸ htask)
  · obtain ⟨pool, hwake, rfl⟩ := h
    have hstays : s.pool.Stays (fun _ => True) pool := hwake.stays
    have hleft := Finset.sum_le_sum fun (v : ω) (_ : v ∈ Finset.univ) =>
      poolStep_left hs hwake.poolStep (fun u task hu => hstays u task trivial hu) v
    have hmul := Nat.mul_le_mul_right (most + 1) (wakeStep_work hwake)
    rw [Nat.add_mul] at hmul
    simp only [Sharing.work]
    omega

/-- **No request is held up for ever by another's child**: where every exchange
is bounded and does not stop alone, every run of the threads and the programs
comes to its end once `PushTask` is not called again, in a bounded number of
steps and so many more for each wakeup without a signal, and all requests have
been processed then, whichever copies the children have. -/
theorem copies_drain [Nonempty ω] (hP : Returning program) {s : Sharing ω π τ κ}
    (h : Reachable (SharingStep program) .initial s) :
    (∃ most more, ∀ n k t, Mixed (SharingDrain program) SharingWake n k s t →
        n ≤ most + more * k) ∧
      (∃ t, Reachable (SharingDrain program) s t ∧ Final (SharingDrain program) t) ∧
      ∀ t, Reachable (Either (SharingDrain program) SharingWake) s t →
        Final (SharingDrain program) t →
          t.pool.Quiet ∧ (↑(t.pool.processed.map Prod.snd) : Multiset τ) =
            ↑(s.pool.processed.map Prod.snd) + s.pool.tasks := by
  have hrunning := (sharingStep_running hP).reachable h (initial_sharing program)
  have hpool {u v : Sharing ω π τ κ} (huv : Reachable (SharingStep program) u v) :
      Reachable PoolStep u.pool v.pool :=
    huv.project (I := fun _ => True) (fun _ _ _ _ => trivial)
      (fun _ _ hstep _ => sharingStep_pool hstep) trivial
  obtain ⟨rank, hrank⟩ := hP.exists_rank
  obtain ⟨most, hmost⟩ := exists_atMost_work hrunning (taskWork program rank)
  have hranked : Ranked (SharingDrain program)
      (Sharing.AtMost (ω := ω) (π := π) program (taskWork program rank) most)
      (Sharing.work (taskWork program rank) most) := sharingDrain_ranked hP hrank
  refine ⟨⟨_, _, hranked.mixed (sharingWake_raised hP _) hmost⟩, hranked.exists_final hmost,
    fun t ht hfinal => ?_⟩
  have hreach := ht.mono fun _ _ => sharingDrainOrWake_sharingStep
  have hrunning' := (sharingStep_running hP).reachable hreach hrunning
  obtain ⟨howned, hcovered⟩ := poolStep_covered.reachable ((hpool h).trans (hpool hreach))
    ⟨initial_owned, initial_covered⟩
  have hquiet := final_quiet howned hcovered (sharingFinal_pool hP hrunning' hfinal)
  have hdrain : Reachable (Either DrainStep WakeStep) s.pool t.pool :=
    ht.project (I := fun _ => True) (fun _ _ _ _ => trivial)
      (fun _ _ hstep _ => sharingDrainOrWake_pool hstep) trivial
  have htasks := reachable_drain_tasks hdrain
  rw [hquiet.tasks, add_zero] at htasks
  exact ⟨hquiet, htasks⟩

end

/-! ## Programs that call `GetQueryString` -/

theorem Act.map_keepsOpen {κ κ' : Type} (f : κ → κ') {act : Act κ}
    (h : ∀ next, act ≠ .closeIn next ∧ act ≠ .closeOut next) (next : κ') :
    act.map f ≠ .closeIn next ∧ act.map f ≠ .closeOut next := by
  cases act with
  | closeIn k => exact absurd rfl (h k).1
  | closeOut k => exact absurd rfl (h k).2
  | read | write | exit | abort => exact ⟨fun h => (by cases h), fun h => (by cases h)⟩

theorem caller_keepsOpen (env : Env) {m : CgiMain κ}
    (hm : ∀ k next, m.act k ≠ .closeIn next ∧ m.act k ≠ .closeOut next) :
    (caller env m).KeepsOpen := by
  intro k next
  cases k with
  | back result q looked k => exact Act.map_keepsOpen _ (hm k) next
  | before | loop | crashed => exact ⟨fun h => (by cases h), fun h => (by cases h)⟩

/-- Programs that call `GetQueryString` and then write and exit. -/
theorem callers_returning (request : τ → Option HttpRequest)
    (hrequest : ∀ task r, request task = some r → Whole r) (inherited : Env) {cap : Nat}
    (hcap : 1 ≤ cap) (answer : HttpRequest → Bytes → List Bytes) (status : HttpRequest → UInt8) :
    Returning fun task => (request task).map fun r => (cgiSetup r cap,
      caller (childEnv inherited r) (answering (answer r) (status r))) := by
  refine ⟨fun task σ P hprogram => ?_, fun task σ P hprogram => ?_,
    fun task σ P hprogram e he hblocked => ?_⟩
  all_goals
    obtain ⟨r, hr, hsetup⟩ := Option.map_eq_some_iff.mp hprogram
    cases hsetup
    have hwhole := hrequest task r hr
  · have hwrites : (script [] (status r)).KeepsOpen := script_keepsOpen
    exact caller_keepsOpen _ hwrites
  · exact ⟨_, (callerStep_ranked inherited hwhole).bounded ⟨initial_calls, initial_scripted⟩⟩
  · obtain ⟨hs, hscript⟩ := callerStep_reachable inherited hwhole he
    exact callerOps_not_blocked hwhole hcap hscript
      (caller_blocked inherited hwhole hs hblocked.1 hblocked.2)

/-- What sends a body back, to every request. -/
def echoes (_ : Nat) : Option (CgiSetup × Program (Caller (List Op))) :=
  some (cgiSetup posted 2, caller (childEnv (fun _ => none) posted) (answering (fun q => [q]) 0))

/-- The children of two requests, the second of which has a copy of the write
end that the first one's parent waits on. -/
theorem sharing_held : ∃ s : Sharing Bool Unit Nat (Caller (List Op)),
    Reachable (SharingStep echoes) .initial s ∧ s.Held true .inputWrite ∧
      s.pool.processed = [] ∧ s.pool.tasks = {5, 6} := by
  have start : Reachable (SharingStep echoes) (.initial : Sharing Bool Unit Nat _) .initial :=
    Reachable.start
  have called := start.next (.pool _ _ (.producer () (.call _ 5 rfl)) fun _ _ h => (by cases h))
  have locked := called.next
    (.pool _ _ (.producer () (.lock _ 5 rfl rfl)) fun _ _ h => (by cases h))
  have pushed := locked.next (.pool _ _ (.producer () (.push _ 5 rfl)) fun _ _ h => (by cases h))
  have released := pushed.next (.pool _ _ (.producer () (.unLock _ rfl)) fun _ _ h => (by cases h))
  have signalled := released.next (.pool _ _ (.producer () (.wakeup _ (fun _ => true) rfl
    fun hw => hw.imp fun _ hpc => ⟨hpc, rfl⟩)) fun _ _ h => (by cases h))
  have called' := signalled.next
    (.pool _ _ (.producer () (.call _ 6 rfl)) fun _ _ h => (by cases h))
  have locked' := called'.next
    (.pool _ _ (.producer () (.lock _ 6 rfl rfl)) fun _ _ h => (by cases h))
  have pushed' := locked'.next (.pool _ _ (.producer () (.push _ 6 rfl)) fun _ _ h => (by cases h))
  have free := pushed'.next (.pool _ _ (.producer () (.unLock _ rfl)) fun _ _ h => (by cases h))
  have taken := free.next (.pool _ _ (.worker true (.lock _ rfl rfl)) fun _ _ h => (by cases h))
  have tested := taken.next (.pool _ _ (.worker true (.testTask _ false rfl
    (List.cons_ne_nil 5 [6]))) fun w _ h => (by cases w <;> cases h))
  have popped := tested.next (.pool _ _ (.worker true (.popTask _ 5 [6] rfl rfl))
    fun w _ h => (by cases w <;> cases h))
  have handed := popped.next (.pool _ _ (.worker true (.unLock _ 5 rfl))
    fun w _ h => (by cases w <;> cases h))
  have taken' := handed.next (.pool _ _ (.worker false (.lock _ rfl rfl))
    fun w _ h => (by cases w <;> cases h; rfl))
  have tested' := taken'.next (.pool _ _ (.worker false (.testTask _ false rfl
    (List.cons_ne_nil 6 []))) fun w _ h => (by cases w <;> cases h; rfl))
  have popped' := tested'.next (.pool _ _ (.worker false (.popTask _ 6 [] rfl rfl))
    fun w _ h => (by cases w <;> cases h; rfl))
  have handed' := popped'.next (.pool _ _ (.worker false (.unLock _ 6 rfl))
    fun w _ h => (by cases w <;> cases h; rfl))
  have forked := handed'.next (.exchange _ true 5 _ _ _ (fun _ _ _ => False) rfl rfl
    (.own (.parent (.fork _ rfl)) fun h => (by cases h)) fun _ _ _ h => h.elim)
  have forked' := forked.next (.exchange _ false 6 _ _ _ (fun v u _ => v = false ∧ u = true) rfl rfl
    (.own (.parent (.fork _ rfl)) fun h => (by cases h)) fun _ _ _ h => Or.inr ⟨h.1, rfl⟩)
  refine ⟨_, forked', ⟨false, by decide, ⟨rfl, rfl⟩, _, rfl⟩, rfl, ?_⟩
  simp [Pool.tasks, Pool.setWorker, WorkerPc.held, Pool.setProducer, ProducerPc.inHand]

/-- Both requests are answered in the end. -/
theorem copies_drain_echoes : ∃ s t : Sharing Bool Unit Nat (Caller (List Op)),
    s.Held true .inputWrite ∧ Reachable (SharingDrain echoes) s t ∧ t.pool.Quiet ∧
      (↑(t.pool.processed.map Prod.snd) : Multiset Nat) = {5, 6} := by
  have hwhole : Whole posted :=
    ⟨cgiRequest_prepared posted_received, by decide, by decide⟩
  have hreturning : Returning echoes :=
    callers_returning (fun _ : Nat => some posted)
      (fun _ _ hr => Option.some.inj hr ▸ hwhole) (fun _ => none) (by decide : 1 ≤ 2)
      (fun _ q => [q]) fun _ => 0
  obtain ⟨s, hs, hheld, hprocessed, htasks⟩ := sharing_held
  obtain ⟨-, ⟨t, ht, hfinal⟩, hend⟩ := copies_drain hreturning hs
  obtain ⟨hquiet, hall⟩ := hend t (ht.mono fun _ _ => Or.inl) hfinal
  rw [hprocessed, htasks] at hall
  exact ⟨s, t, hheld, ht, hquiet, hall⟩

end MinHttp

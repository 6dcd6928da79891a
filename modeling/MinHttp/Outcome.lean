import MinHttp.Lib.Halting
import MinHttp.Complete
import MinHttp.Deadlock

/-! How an exchange in which no call fails comes to its end, and with what. -/
namespace MinHttp

open Lib.Runs
open Lib.Halting
open Lib (Pipe)

variable {κ : Type} {σ : CgiSetup} {P : Program κ}

/-! ## What every run keeps -/

/-- What holds of any program while no call fails: a parent that waits has
read all there is, and one that has returned has seen the child end. -/
structure Exchange.Regular (s : Exchange κ) : Prop where
  start : s.parent = .calling → s = .initial
  unborn : s.child = .unborn → s.parent = .calling
  ended : ∀ status, s.child = .ended status → s.input.writer = false ∧ s.output.reader = false
  waiting : s.parent = .waiting → s.input.Ended
  returned : ∀ code, s.parent = .returned code → s.input.content = [] ∧
    ∃ status, s.child = .ended status ∧ code = waitCode OK (waitResult status)
  order : s.written = s.respBody ++ s.input.content

theorem initial_regular : (Exchange.initial : Exchange κ).Regular :=
  ⟨fun _ => rfl, fun _ => rfl, fun _ h => (by cases h), fun h => (by cases h),
    fun _ h => (by cases h), rfl⟩

theorem parentStep_regular {s t : Exchange κ} (h : ParentStep σ P s t) (hs : s.Regular) :
    t.Regular := by
  obtain ⟨start, unborn, ended, waiting, returned, order⟩ := hs
  have hborn (hne : s.parent ≠ .calling) (hc : s.child = .unborn) : False := hne (unborn hc)
  cases h with
  | fork pc =>
    obtain rfl := start pc
    by_cases hm : σ.method = methodPost <;> constructor <;> simp [hm, Exchange.initial, Pipe.new]
  | write total n pc | writeNothing total pc | writeBroken total pc | written total pc =>
    refine ⟨fun h => (by cases h), fun hc => (hborn (by simp [pc]) hc).elim, ended,
      fun h => (by cases h), fun _ h => (by cases h), order⟩
  | read ch rest pc there =>
    refine ⟨fun h => (by cases pc.symm.trans h), fun hc => (hborn (by simp [pc]) hc).elim, ended,
      fun h => (by cases pc.symm.trans h), fun _ h => (by cases pc.symm.trans h), ?_⟩
    simp [order, there]
  | eof pc hended =>
    exact ⟨fun h => (by cases h), fun hc => (hborn (by simp [pc]) hc).elim, ended,
      fun _ => hended, fun _ h => (by cases h), order⟩
  | wait status pc hended =>
    refine ⟨fun h => (by cases h), fun hc => (by cases hended.symm.trans hc), ended,
      fun h => (by cases h), fun code h => ⟨(waiting pc).empty, status, hended, ?_⟩, order⟩
    cases h
    rfl

/-- A running child has a parent that has called `fork` and not seen it end. -/
theorem Exchange.Regular.running {s : Exchange κ} (hs : s.Regular) {k : κ}
    (hk : s.child = .running k) : s.parent ≠ .calling ∧ ∀ code, s.parent ≠ .returned code := by
  constructor
  · intro hp
    rw [hs.start hp] at hk
    cases hk
  · intro code hp
    obtain ⟨-, status, hended, -⟩ := hs.returned code hp
    cases hk.symm.trans hended

/-- Nothing comes into a pipe that has ended. -/
theorem childStep_inputEnded {s t : Exchange κ} (h : ChildStep σ P s t) (hs : s.input.Ended) :
    t.input.Ended := by
  cases h with
  | write k bytes n wrote pc act open_ accepted =>
    rw [hs.closed] at open_
    cases open_
  | closeOut | exit | abort => exact ⟨hs.empty, rfl⟩
  | read | readNone | writeNone | closeIn => exact hs

theorem childStep_order {s t : Exchange κ} (h : ChildStep σ P s t)
    (hs : s.written = s.respBody ++ s.input.content) :
    t.written = t.respBody ++ t.input.content := by
  cases h with
  | write k bytes n wrote pc act open_ accepted => simp [hs]
  | _ => exact hs

/-- A child that has ended has closed its ends of the pipes. -/
theorem childStep_child {s t : Exchange κ} (h : ChildStep σ P s t) :
    t.child ≠ .unborn ∧
      ∀ status, t.child = .ended status → t.input.writer = false ∧ t.output.reader = false := by
  cases h with
  | exit | abort => exact ⟨fun hc => (by cases hc), fun _ _ => ⟨rfl, rfl⟩⟩
  | _ => exact ⟨fun hc => (by cases hc), fun _ hc => (by cases hc)⟩

theorem childStep_regular {s t : Exchange κ} (h : ChildStep σ P s t) (hs : s.Regular) :
    t.Regular := by
  obtain ⟨k, hk⟩ := childStep_running h
  obtain ⟨hcalling, hreturned⟩ := hs.running hk
  obtain ⟨hborn, hended⟩ := childStep_child h
  have hparent := (childStep_parent h).1
  refine ⟨fun hp => ?_, fun hc => absurd hc hborn, hended, fun hp => ?_, fun code hp => ?_,
    childStep_order h hs.order⟩
  · exact absurd (hparent.symm.trans hp) hcalling
  · exact childStep_inputEnded h (hs.waiting (hparent.symm.trans hp))
  · exact absurd (hparent.symm.trans hp) (hreturned code)

theorem exchangeStep_regular : Preserved (ExchangeStep σ P) Exchange.Regular := by
  intro s t h hs
  cases h with
  | parent step => exact parentStep_regular step hs
  | child step => exact childStep_regular step hs

theorem reachable_regular {s : Exchange κ} (h : Reachable (ExchangeStep σ P) .initial s) :
    s.Regular := exchangeStep_regular.reachable h initial_regular

/-- A program that leaves its standard input and output open. -/
def Program.KeepsOpen (P : Program κ) : Prop :=
  ∀ k next, P.act k ≠ .closeIn next ∧ P.act k ≠ .closeOut next

/-- While the child runs, neither pipe has lost an end. -/
def Exchange.Open (s : Exchange κ) : Prop :=
  ∀ k, s.child = .running k →
    (s.input.reader = true ∧ s.input.writer = true) ∧
      s.output.reader = true ∧ s.output.writer = true

theorem exchangeStep_open (hP : P.KeepsOpen) :
    Preserved (ExchangeStep σ P) fun s => s.Regular ∧ s.Open := by
  rintro s t h ⟨hs, hopen⟩
  refine ⟨exchangeStep_regular h hs, ?_⟩
  cases h with
  | parent step =>
    cases step with
    | fork pc =>
      obtain rfl := hs.start pc
      exact fun _ _ => ⟨⟨rfl, rfl⟩, rfl, rfl⟩
    | wait status pc ended => exact fun k hk => by cases ended.symm.trans hk
    | write | writeNothing | writeBroken | written | read | eof => exact hopen
  | child step =>
    cases step with
    | closeIn k next pc act => exact absurd act (hP k next).1
    | closeOut k next pc act => exact absurd act (hP k next).2
    | exit | abort => exact fun k hk => by cases hk
    | read k _ _ _ pc | readNone k _ _ pc | write k _ _ _ pc | writeNone k _ _ pc =>
      exact fun _ _ => hopen k pc

/-- A parent whose child has ended can always go on. -/
theorem parentStep_of_ended {s : Exchange κ} (hs : s.Regular) {status : Option UInt8}
    (hc : s.child = .ended status) (hp : ∀ code, s.parent ≠ .returned code) :
    ∃ t, ParentStep σ P s t := by
  obtain ⟨hwriter, hreader⟩ := hs.ended status hc
  cases hpc : s.parent with
  | calling => exact ⟨_, .fork s hpc⟩
  | writing total =>
    by_cases hmore : (total : Int) < σ.contentLength
    · by_cases hsome : total < σ.body.length
      · exact ⟨_, .writeBroken s total hpc hmore hsome hreader⟩
      · exact ⟨_, .writeNothing s total hpc hmore (Nat.le_of_not_lt hsome)⟩
    · exact ⟨_, .written s total hpc (Int.not_lt.mp hmore)⟩
  | reading =>
    cases hin : s.input.content with
    | nil => exact ⟨_, .eof s hpc ⟨hin, hwriter⟩⟩
    | cons ch rest => exact ⟨_, .read s ch rest hpc hin⟩
  | waiting => exact ⟨_, .wait s status hpc hc⟩
  | returned code => exact absurd hpc (hp code)

/-- A run stops with the parent's return or with both sides blocked. -/
theorem final_returned_or_blocked {s : Exchange κ} (hs : s.Regular)
    (h : Final (ExchangeStep σ P) s) :
    (∃ code, s.parent = .returned code) ∨ ParentBlocked σ P s ∧ ChildBlocked σ P s := by
  by_cases hp : ∃ code, s.parent = .returned code
  · exact Or.inl hp
  · have hout : ∀ code, s.parent ≠ .returned code := fun code hc => hp ⟨code, hc⟩
    refine Or.inr ⟨⟨hout, fun t ht => h t (.parent ht)⟩, ?_, fun t ht => h t (.child ht)⟩
    cases hc : s.child with
    | running k => exact ⟨k, rfl⟩
    | unborn => exact absurd (.parent (.fork s (hs.unborn hc))) (h _)
    | ended status =>
      obtain ⟨t, ht⟩ := parentStep_of_ended hs hc hout
      exact absurd (.parent ht) (h t)

/-! ## Scripts -/

/-- What a script writes. -/
def outputs : List Op → Bytes
  | [] => []
  | .read _ :: ops => outputs ops
  | .write bytes :: ops => bytes ++ outputs ops

theorem outputs_took (n : Nat) (bytes : Bytes) (ops : List Op) :
    bytes.take n ++ outputs (if n < bytes.length then .write (bytes.drop n) :: ops else ops) =
      bytes ++ outputs ops := by
  split
  · rw [outputs, ← List.append_assoc, List.take_append_drop]
  · rw [List.take_of_length_le (by omega)]

/-- A byte is written by one call and read by another, and a call that does
neither is a step too. -/
def opsWork : List Op → Nat
  | [] => 0
  | .read _ :: ops => opsWork ops + 1
  | .write bytes :: ops => opsWork ops + (2 * bytes.length + 1)

theorem opsWork_took {n : Nat} {bytes : Bytes} (hn : n ≤ bytes.length) (ops : List Op)
    (hpos : 0 < n ∨ bytes = []) :
    opsWork (if n < bytes.length then .write (bytes.drop n) :: ops else ops) + n <
      opsWork (.write bytes :: ops) := by
  split
  · rw [opsWork, opsWork, List.length_drop]
    rcases hpos with hpos | rfl
    · omega
    · simp_all
  · rw [opsWork]
    omega

variable {ops : List Op} {status : UInt8}

theorem script_keepsOpen : (script ops status).KeepsOpen := by
  intro rest next
  exact ⟨fun h => script_act h, fun h => script_act h⟩

/-- The parent's calls until it returns, what it reads not counted. -/
def Parent.work (σ : CgiSetup) : Parent → Nat
  | .calling => σ.body.length + 4
  | .writing total => σ.body.length - total + 3
  | .reading => 2
  | .waiting => 1
  | .returned _ => 0

def Child.work (ops : List Op) : Child (List Op) → Nat
  | .unborn => opsWork ops + 1
  | .running rest => opsWork rest + 1
  | .ended _ => 0

/-- What is in the pipe to the parent is read byte by byte. -/
def Exchange.work (σ : CgiSetup) (ops : List Op) (s : Exchange (List Op)) : Nat :=
  s.parent.work σ + s.child.work ops + s.input.content.length

theorem parentStep_work {s t : Exchange (List Op)} (h : ParentStep σ (script ops status) s t)
    (hs : s.Regular) : t.work σ ops < s.work σ ops := by
  cases h with
  | fork pc =>
    obtain rfl := hs.start pc
    by_cases hm : σ.method = methodPost <;>
      simp [Exchange.work, Exchange.initial, Parent.work, Child.work, script, hm]
  | write total n pc more accepted =>
    have hpos := accepted.pos
    have hle := accepted.le
    simp only [Exchange.work, Parent.work, pc]
    omega
  | writeNothing total pc | writeBroken total pc | written total pc =>
    simp only [Exchange.work, Parent.work, pc]
    omega
  | read ch rest pc there => simp [Exchange.work, there]
  | eof pc => simp [Exchange.work, Parent.work, pc]
  | wait status pc => simp [Exchange.work, Exchange.parentReturns, Parent.work, pc]

/-- What the child has written and has yet to write is what the script writes. -/
def Exchange.Writes (ops : List Op) (status : UInt8) (s : Exchange (List Op)) : Prop :=
  match s.child with
  | .unborn => s.written = []
  | .running rest => s.written ++ outputs rest = outputs ops
  | .ended how => how = some status ∧ s.written = outputs ops

/-- A call of a script brings it nearer to its end and loses no output. -/
theorem childStep_script {s t : Exchange (List Op)} (h : ChildStep σ (script ops status) s t)
    (hopen : s.Open) (hw : s.Writes ops status) :
    t.work σ ops < s.work σ ops ∧ t.Writes ops status := by
  cases h with
  | read rest n m got pc act open_ yields | readNone rest n got pc act none =>
    obtain ⟨rest', rfl, rfl⟩ := script_act act
    simp only [Exchange.Writes, pc, outputs] at hw
    refine ⟨?_, hw⟩
    simp [Exchange.work, pc, Child.work, opsWork]
  | write rest bytes n wrote pc act open_ accepted =>
    obtain ⟨rest', rfl, rfl⟩ := script_act act
    simp only [Exchange.Writes, pc, outputs] at hw
    have hlower := opsWork_took accepted.le rest' (Or.inl accepted.pos)
    have hlen : (bytes.take n).length = n := List.length_take_of_le accepted.le
    constructor
    · simp only [Exchange.work, pc, Child.work, Pipe.put_content, List.length_append, hlen]
      omega
    · simp only [Exchange.Writes]
      rw [List.append_assoc, outputs_took, hw]
  | writeNone rest bytes wrote pc act none =>
    obtain ⟨rest', rfl, rfl⟩ := script_act act
    obtain ⟨hinput, -⟩ := hopen _ pc
    have hnone : bytes = [] := by
      rcases none with hnone | hclosed | hclosed
      · exact hnone
      · cases hclosed.symm.trans hinput.2
      · cases hclosed.symm.trans hinput.1
    subst hnone
    simp only [Exchange.Writes, pc, outputs] at hw
    refine ⟨?_, hw⟩
    simp [Exchange.work, pc, Child.work, opsWork]
  | closeIn rest next pc act => exact (script_act act).elim
  | closeOut rest next pc act => exact (script_act act).elim
  | abort rest pc act => exact (script_act act).elim
  | exit rest how pc act =>
    have hrest : rest = [] := script_act act
    subst hrest
    have hhow : status = how := Act.exit.inj act
    simp only [Exchange.Writes, pc, outputs, List.append_nil] at hw
    refine ⟨?_, congrArg some hhow.symm, hw⟩
    simp [Exchange.work, Exchange.childEnds, pc, Child.work, Pipe.closeWriter]

theorem parentStep_writes {s t : Exchange (List Op)} (h : ParentStep σ (script ops status) s t)
    (hs : s.Regular) (hw : s.Writes ops status) : t.Writes ops status := by
  cases h with
  | fork pc =>
    obtain rfl := hs.start pc
    rfl
  | _ => exact hw

/-- What the steps of a script's exchange keep. -/
structure Exchange.Scripted (ops : List Op) (status : UInt8) (s : Exchange (List Op)) :
    Prop where
  regular : s.Regular
  kept : s.Open
  writes : s.Writes ops status

theorem script_ranked :
    Ranked (ExchangeStep σ (script ops status)) (Exchange.Scripted ops status)
      (Exchange.work σ ops) := by
  constructor
  · intro s t h hs
    obtain ⟨hregular, hopen⟩ := exchangeStep_open script_keepsOpen h ⟨hs.regular, hs.kept⟩
    refine ⟨hregular, hopen, ?_⟩
    cases h with
    | parent step => exact parentStep_writes step hs.regular hs.writes
    | child step => exact (childStep_script step hs.kept hs.writes).2
  · intro s t h hs
    cases h with
    | parent step => exact parentStep_work step hs.regular
    | child step => exact (childStep_script step hs.kept hs.writes).1

theorem initial_scripted : (Exchange.initial : Exchange (List Op)).Scripted ops status :=
  ⟨initial_regular, fun _ h => (by cases h), rfl⟩

theorem reachable_scripted {s : Exchange (List Op)}
    (h : Reachable (ExchangeStep σ (script ops status)) .initial s) : s.Scripted ops status :=
  script_ranked.keeps.reachable h initial_scripted

/-- A parent that returns has the whole output, and the code that goes with the
script's status. -/
theorem Exchange.Scripted.returned {s : Exchange (List Op)} (hs : s.Scripted ops status)
    {code : Int} (hp : s.parent = .returned code) :
    code = waitCode OK (.exited status) ∧ s.respBody = outputs ops := by
  obtain ⟨hempty, how, hended, rfl⟩ := hs.regular.returned code hp
  have hw := hs.writes
  rw [Exchange.Writes, hended] at hw
  obtain ⟨rfl, hwritten⟩ := hw
  refine ⟨rfl, ?_⟩
  rw [← hwritten, hs.regular.order, hempty, List.append_nil]

theorem script_steps_le {n : Nat} {s : Exchange (List Op)}
    (h : Steps (ExchangeStep σ (script ops status)) n .initial s) :
    n ≤ σ.body.length + opsWork ops + 5 := by
  have hbound := script_ranked.bounded initial_scripted n s h
  simp only [Exchange.work, Exchange.initial, Parent.work, Child.work, Pipe.new,
    List.length_nil] at hbound
  omega

/-- The answer to a request is the same however the two sides take turns. -/
def Concludes (σ : CgiSetup) (P : Program κ) (code : Int) (body : Bytes) : Prop :=
  ∀ s, Reachable (ExchangeStep σ P) .initial s → Final (ExchangeStep σ P) s →
    s.parent = .returned code ∧ s.respBody = body

/-- Unless both sides come to be blocked. -/
theorem script_answered
    (hlive : ∀ s, Reachable (ExchangeStep σ (script ops status)) .initial s →
      ¬ (ParentBlocked σ (script ops status) s ∧ ChildBlocked σ (script ops status) s)) :
    Concludes σ (script ops status) (waitCode OK (.exited status)) (outputs ops) := by
  intro s h hfinal
  have hs := reachable_scripted h
  rcases final_returned_or_blocked hs.regular hfinal with ⟨code, hp⟩ | hblocked
  · obtain ⟨rfl, hbody⟩ := hs.returned hp
    exact ⟨hp, hbody⟩
  · exact absurd hblocked (hlive s h)

theorem post_not_blocked (hm : σ.method = methodPost) (hlen : σ.contentLength = σ.body.length)
    (hcap : 1 ≤ σ.cap) (hasked : asked ops ≤ σ.body.length)
    (hfits : ∀ r, overflow σ.cap ops = some r → σ.body.length ≤ r + σ.cap)
    {s : Exchange (List Op)} (h : Reachable (ExchangeStep σ (script ops status)) .initial s) :
    ¬ (ParentBlocked σ (script ops status) s ∧ ChildBlocked σ (script ops status) s) := by
  rintro ⟨hparent, hchild⟩
  have hs : Flowing σ ops s := (exchangeStep_flowing hm hlen).reachable h rfl
  obtain ⟨rest, hc⟩ := hchild.1
  rw [Flowing, hc] at hs
  obtain ⟨consumed, hs⟩ := hs
  obtain ⟨r, hr, hlt⟩ := hs.overflow_of_blocked hc hlen hcap hasked hparent hchild
  have hbound := hfits r hr
  omega

theorem final_of_blocked {s : Exchange κ} (hparent : ParentBlocked σ P s)
    (hchild : ChildBlocked σ P s) : Final (ExchangeStep σ P) s := by
  intro t ht
  cases ht with
  | parent step => exact hparent.2 t step
  | child step => exact hchild.2 t step

/-- **A POST is answered**, within a bounded number of steps and always with
the same code and body, exactly when the body fits into what the program reads
before it writes more than a pipe holds. Where it does not fit, a run ends with
both sides blocked. -/
theorem script_answered_iff (σ : CgiSetup) (ops : List Op) (status : UInt8)
    (hm : σ.method = methodPost) (hlen : σ.contentLength = σ.body.length) (hcap : 1 ≤ σ.cap)
    (hasked : asked ops ≤ σ.body.length) :
    (∀ n s, Steps (ExchangeStep σ (script ops status)) n .initial s →
        n ≤ σ.body.length + opsWork ops + 5) ∧
      (∃ s, Reachable (ExchangeStep σ (script ops status)) .initial s ∧
        Final (ExchangeStep σ (script ops status)) s) ∧
      (Concludes σ (script ops status) (waitCode OK (.exited status)) (outputs ops) ↔
        ∀ r, overflow σ.cap ops = some r → σ.body.length ≤ r + σ.cap) ∧
      ((¬ ∀ r, overflow σ.cap ops = some r → σ.body.length ≤ r + σ.cap) →
        ∃ s, Reachable (ExchangeStep σ (script ops status)) .initial s ∧
          Final (ExchangeStep σ (script ops status)) s ∧
          ParentBlocked σ (script ops status) s ∧ ChildBlocked σ (script ops status) s) := by
  have hblocked : (¬ ∀ r, overflow σ.cap ops = some r → σ.body.length ≤ r + σ.cap) →
      ∃ s, Reachable (ExchangeStep σ (script ops status)) .initial s ∧
        Final (ExchangeStep σ (script ops status)) s ∧
        ParentBlocked σ (script ops status) s ∧ ChildBlocked σ (script ops status) s := by
    intro hnot
    obtain ⟨r, hr, hlt⟩ : ∃ r, overflow σ.cap ops = some r ∧ r + σ.cap < σ.body.length := by
      simpa using hnot
    obtain ⟨s, h, hparent, hchild⟩ :=
      reaches_blocked_of_overflow ops status hm hlen hcap hr hlt
    exact ⟨s, h, final_of_blocked hparent hchild, hparent, hchild⟩
  refine ⟨fun _ _ h => script_steps_le h, script_ranked.exists_final initial_scripted, ⟨?_, ?_⟩,
    hblocked⟩
  · intro hanswered
    by_contra hnot
    obtain ⟨s, h, hfinal, hparent, -⟩ := hblocked hnot
    exact hparent.1 _ (hanswered s h hfinal).1
  · intro hfits
    exact script_answered fun s h => post_not_blocked hm hlen hcap hasked hfits h

theorem script_answered_iff_echo :
    Concludes (postSetup 4) (script [.read 4, .write (str "aaaa")] 0) OK (str "aaaa") := by
  have hnone : overflow (postSetup 4).cap [.read 4, .write (str "aaaa")] = none := by decide
  obtain ⟨-, -, hanswered, -⟩ := script_answered_iff (postSetup 4)
    [.read 4, .write (str "aaaa")] 0 rfl rfl (by decide) (by decide)
  apply hanswered.mpr
  intro r hr
  cases hnone.symm.trans hr

/-! ## Programs that wait for the end of their input -/

/-- While it has not met the end of its input the program is in `I`, where it
reads at least a byte at a time or writes. -/
structure ReadsToEnd (P : Program κ) (I : κ → Prop) : Prop where
  start : I P.start
  act : ∀ k, I k →
    (∃ asked got, P.act k = .read asked got ∧ 0 < asked ∧ ∀ bytes ≠ [], I (got bytes)) ∨
      ∃ bytes wrote, P.act k = .write bytes wrote ∧ ∀ n, I (wrote n)

/-- The program is made or runs, and its input has not ended. -/
def Exchange.Waits (I : κ → Prop) (s : Exchange κ) : Prop :=
  match s.child with
  | .unborn => True
  | .running k => I k ∧ s.output.reader = true ∧ s.output.writer = true
  | .ended _ => False

theorem childStep_waits {I : κ → Prop} (hP : ReadsToEnd P I) {s t : Exchange κ}
    (h : ChildStep σ P s t) (hs : s.Waits I) : t.Waits I := by
  obtain ⟨k, hk⟩ := childStep_running h
  rw [Exchange.Waits, hk] at hs
  obtain ⟨hI, hreader, hwriter⟩ := hs
  rcases hP.act k hI with ⟨asked, got, hact, hasked, hgot⟩ | ⟨bytes, wrote, hact, hwrote⟩
  · obtain ⟨n, hyields, houtput, hc⟩ := childStep_read h hk hact hasked hreader hwriter
    have hsome : s.output.content.take n ≠ [] := by
      apply List.ne_nil_of_length_pos
      rw [List.length_take_of_le hyields.there]
      exact hyields.pos
    rw [Exchange.Waits, hc, houtput]
    exact ⟨hgot _ hsome, hreader, hwriter⟩
  · obtain ⟨houtput, n, hc⟩ := childStep_write h hk hact
    rw [Exchange.Waits, hc, houtput]
    exact ⟨hwrote n, hreader, hwriter⟩

theorem parentStep_waits {I : κ → Prop} (hP : ReadsToEnd P I) {s t : Exchange κ}
    (h : ParentStep σ P s t) (hs : s.Regular) (hw : s.Waits I) : t.Waits I := by
  cases h with
  | fork pc =>
    obtain rfl := hs.start pc
    exact ⟨hP.start, rfl, rfl⟩
  | wait status pc ended =>
    rw [Exchange.Waits, ended] at hw
    exact hw.elim
  | write | writeNothing | writeBroken | written | read | eof => exact hw

theorem reachable_waits {I : κ → Prop} (hP : ReadsToEnd P I) {s : Exchange κ}
    (h : Reachable (ExchangeStep σ P) .initial s) : s.Regular ∧ s.Waits I := by
  have hkept : Preserved (ExchangeStep σ P) fun s => s.Regular ∧ s.Waits I := by
    rintro u v hstep ⟨hu, hw⟩
    refine ⟨exchangeStep_regular hstep hu, ?_⟩
    cases hstep with
    | parent step => exact parentStep_waits hP step hu hw
    | child step => exact childStep_waits hP step hw
  exact hkept.reachable h ⟨initial_regular, trivial⟩

theorem waits_not_returned {I : κ → Prop} {s : Exchange κ} (hs : s.Regular) (hw : s.Waits I)
    (code : Int) : s.parent ≠ .returned code := by
  intro hp
  obtain ⟨-, status, hended, -⟩ := hs.returned code hp
  rw [Exchange.Waits, hended] at hw
  exact hw

/-- **A program that waits for the end of its input is never answered for**:
the parent keeps the other end open until it has seen the program end. -/
theorem readsToEnd_never_returned {I : κ → Prop} (hP : ReadsToEnd P I) {s : Exchange κ}
    (h : Reachable (ExchangeStep σ P) .initial s) (code : Int) : s.parent ≠ .returned code := by
  obtain ⟨hs, hw⟩ := reachable_waits hP h
  exact waits_not_returned hs hw code

/-- It copies its input to its output. -/
def cat : Program (Option Bytes) where
  start := none
  act
    | none => .read 4096 some
    | some [] => .exit 0
    | some bytes => .write bytes fun n => if n < bytes.length then some (bytes.drop n) else none

theorem cat_readsToEnd : ReadsToEnd cat (· ≠ some []) := by
  refine ⟨fun h => (by cases h), fun k hk => ?_⟩
  cases k with
  | none => exact Or.inl ⟨4096, some, rfl, by decide, fun bytes hb h => hb (Option.some.inj h)⟩
  | some bytes =>
    cases bytes with
    | nil => exact absurd rfl hk
    | cons ch rest =>
      refine Or.inr ⟨ch :: rest, _, rfl, fun n => ?_⟩
      split
      case isTrue hlt =>
        intro h
        have hlen := congrArg List.length (Option.some.inj h)
        rw [List.length_drop, List.length_nil] at hlen
        omega
      case isFalse => exact fun h => (by cases h)

/-- A POST to `cat` that has been written and sent back. -/
theorem readsToEnd_never_returned_cat :
    ∃ s, Reachable (ExchangeStep (postSetup 1) cat) .initial s ∧ s.parent = .reading ∧
      s.respBody = [97] ∧ s.child = .running none ∧ s.parent ≠ .returned OK := by
  have start : Reachable (ExchangeStep (postSetup 1) cat) .initial .initial := Reachable.start
  have wrote := (start.next (.parent (.fork _ rfl))).next
    (.parent (.write _ 0 1 rfl (by decide) ⟨rfl, by decide, by decide, by decide⟩))
  have read := wrote.next (.child (.read _ none 4096 1 some rfl rfl rfl
    ⟨by decide, by decide, by decide⟩))
  have copied := read.next (.child (.write _ (some [97]) [97] 1 _ rfl rfl rfl
    ⟨rfl, by decide, by decide, by decide⟩))
  have written := copied.next (.parent (.written _ 1 rfl (by decide)))
  have back := written.next (.parent (.read _ 97 [] rfl rfl))
  exact ⟨_, back, rfl, rfl, rfl, readsToEnd_never_returned cat_readsToEnd back OK⟩

end MinHttp

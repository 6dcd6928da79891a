import MinHttp.Response
import MinHttp.Lib.Pipe
import MinHttp.Lib.Runs

/-! `ProcessCIG` as an exchange: the parent writes the body, reads what the
program writes, and waits for its end; the program runs at the same time on
the other ends of the two pipes. A call that blocks is one that has no step
yet. A blocking write that goes through in several goes is several steps. -/
namespace MinHttp

open Lib.Runs
open Lib (Pipe)

/-- The next call of a program and how it goes on with the result. A call that
fails or meets the end of the stream gives no bytes or writes none. -/
inductive Act (κ : Type)
  | read (asked : Nat) (got : Bytes → κ)
  | write (bytes : Bytes) (wrote : Nat → κ)
  | closeIn (next : κ)
  | closeOut (next : κ)
  | exit (status : UInt8)
  | abort

structure Program (κ : Type) where
  start : κ
  act : κ → Act κ

/-- A child that has ended did so with a status, or by a signal. -/
inductive Child (κ : Type)
  | unborn
  | running (k : κ)
  | ended (status : Option UInt8)

/-- Where the parent is in `ProcessCIG`. -/
inductive Parent
  | calling
  | writing (total : Nat)
  | reading
  | waiting
  | returned (code : Int)
  deriving DecidableEq, Repr

/-- What the parent has in hand, and the capacity of a pipe. -/
structure CgiSetup where
  method : Bytes
  body : Bytes
  contentLength : Int
  cap : Nat

/-- `input` leads from the child to the parent and `output` back, named as in
the parent. `written` is a history of the child's output. -/
structure Exchange (κ : Type) where
  parent : Parent
  child : Child κ
  input : Pipe Byte
  output : Pipe Byte
  respBody : Bytes
  written : Bytes

variable {κ : Type}

def Exchange.initial : Exchange κ := ⟨.calling, .unborn, .new, .new, [], []⟩

/-- All its descriptors are closed with it. -/
def Exchange.childEnds (s : Exchange κ) (status : Option UInt8) : Exchange κ :=
  { s with
    child := .ended status
    input := s.input.closeWriter
    output := s.output.closeReader }

def Exchange.parentReturns (s : Exchange κ) (code : Int) : Exchange κ :=
  { s with
    parent := .returned code
    input := s.input.closeReader
    output := s.output.closeWriter }

/-- One call of the parent, with no call failing. `SIGPIPE` is ignored, so a
write without a reader only returns -1. -/
inductive ParentStep (σ : CgiSetup) (P : Program κ) : Exchange κ → Exchange κ → Prop
  | fork (s) (pc : s.parent = .calling) :
      ParentStep σ P s { s with
        child := .running P.start
        parent := if σ.method = methodPost then .writing 0 else .reading }
  | write (s) (total n : Nat) (pc : s.parent = .writing total) (more : total < σ.contentLength)
      (accepted : s.output.Accepts σ.cap n (σ.body.length - total)) :
      ParentStep σ P s { s with
        parent := .writing (total + n)
        output := s.output.put ((σ.body.drop total).take n) }
  | writeNothing (s) (total : Nat) (pc : s.parent = .writing total)
      (more : total < σ.contentLength) (none : σ.body.length ≤ total) :
      ParentStep σ P s { s with parent := .reading }
  | writeBroken (s) (total : Nat) (pc : s.parent = .writing total)
      (more : total < σ.contentLength) (some : total < σ.body.length)
      (broken : s.output.reader = false) :
      ParentStep σ P s { s with parent := .reading }
  | written (s) (total : Nat) (pc : s.parent = .writing total)
      (done : σ.contentLength ≤ total) :
      ParentStep σ P s { s with parent := .reading }
  | read (s) (ch : Byte) (rest : Bytes) (pc : s.parent = .reading)
      (there : s.input.content = ch :: rest) :
      ParentStep σ P s { s with input := s.input.drop 1, respBody := s.respBody ++ [ch] }
  | eof (s) (pc : s.parent = .reading) (ended : s.input.Ended) :
      ParentStep σ P s { s with parent := .waiting }
  | wait (s) (status : Option UInt8) (pc : s.parent = .waiting)
      (ended : s.child = .ended status) :
      ParentStep σ P s (s.parentReturns (waitCode OK (waitResult status)))

/-- One call of the child's program. -/
inductive ChildStep (σ : CgiSetup) (P : Program κ) : Exchange κ → Exchange κ → Prop
  | read (s) (k : κ) (asked n : Nat) (got : Bytes → κ) (pc : s.child = .running k)
      (act : P.act k = .read asked got) (open_ : s.output.reader = true)
      (yields : s.output.Yields n asked) :
      ChildStep σ P s { s with
        child := .running (got (s.output.content.take n))
        output := s.output.drop n }
  | readNone (s) (k : κ) (asked : Nat) (got : Bytes → κ) (pc : s.child = .running k)
      (act : P.act k = .read asked got)
      (none : asked = 0 ∨ s.output.reader = false ∨ s.output.Ended) :
      ChildStep σ P s { s with child := .running (got []) }
  | write (s) (k : κ) (bytes : Bytes) (n : Nat) (wrote : Nat → κ) (pc : s.child = .running k)
      (act : P.act k = .write bytes wrote) (open_ : s.input.writer = true)
      (accepted : s.input.Accepts σ.cap n bytes.length) :
      ChildStep σ P s { s with
        child := .running (wrote n)
        input := s.input.put (bytes.take n)
        written := s.written ++ bytes.take n }
  | writeNone (s) (k : κ) (bytes : Bytes) (wrote : Nat → κ) (pc : s.child = .running k)
      (act : P.act k = .write bytes wrote)
      (none : bytes = [] ∨ s.input.writer = false ∨ s.input.reader = false) :
      ChildStep σ P s { s with child := .running (wrote 0) }
  | closeIn (s) (k next : κ) (pc : s.child = .running k) (act : P.act k = .closeIn next) :
      ChildStep σ P s { s with child := .running next, output := s.output.closeReader }
  | closeOut (s) (k next : κ) (pc : s.child = .running k) (act : P.act k = .closeOut next) :
      ChildStep σ P s { s with child := .running next, input := s.input.closeWriter }
  | exit (s) (k : κ) (status : UInt8) (pc : s.child = .running k)
      (act : P.act k = .exit status) :
      ChildStep σ P s (s.childEnds (some status))
  | abort (s) (k : κ) (pc : s.child = .running k) (act : P.act k = .abort) :
      ChildStep σ P s (s.childEnds none)

/-- Either side may take the next step. -/
inductive ExchangeStep (σ : CgiSetup) (P : Program κ) : Exchange κ → Exchange κ → Prop
  | parent {s t} (step : ParentStep σ P s t) : ExchangeStep σ P s t
  | child {s t} (step : ChildStep σ P s t) : ExchangeStep σ P s t

theorem childStep_parent {σ : CgiSetup} {P : Program κ} {s t : Exchange κ}
    (h : ChildStep σ P s t) : t.parent = s.parent ∧ t.respBody = s.respBody := by
  cases h <;> exact ⟨rfl, rfl⟩

theorem childStep_running {σ : CgiSetup} {P : Program κ} {s t : Exchange κ}
    (h : ChildStep σ P s t) : ∃ k, s.child = .running k := by
  cases h <;> exact ⟨_, by assumption⟩

/-- A property of every way a call can go on. -/
def Act.All (p : κ → Prop) : Act κ → Prop
  | .read _ got => ∀ bytes, p (got bytes)
  | .write _ wrote => ∀ n, p (wrote n)
  | .closeIn next | .closeOut next => p next
  | .exit _ | .abort => True

/-- After a step of its own the child has gone on as its call says, or ended. -/
theorem childStep_next {σ : CgiSetup} {P : Program κ} {s t : Exchange κ} {k : κ} {p : κ → Prop}
    (h : ChildStep σ P s t) (hk : s.child = .running k) (hp : (P.act k).All p) :
    (∃ k', t.child = .running k' ∧ p k') ∨ ∃ status, t.child = .ended status := by
  cases h with
  | read k₀ asked n got pc act | readNone k₀ asked got pc act =>
    cases hk.symm.trans pc
    rw [act] at hp
    exact Or.inl ⟨_, rfl, hp _⟩
  | write k₀ bytes n wrote pc act | writeNone k₀ bytes wrote pc act =>
    cases hk.symm.trans pc
    rw [act] at hp
    exact Or.inl ⟨_, rfl, hp _⟩
  | closeIn k₀ next pc act | closeOut k₀ next pc act =>
    cases hk.symm.trans pc
    rw [act] at hp
    exact Or.inl ⟨_, rfl, hp⟩
  | exit | abort => exact Or.inr ⟨_, rfl⟩

/-- A child in a write call can only come out of it. -/
theorem childStep_write {σ : CgiSetup} {P : Program κ} {s t : Exchange κ} {k : κ} {bytes : Bytes}
    {wrote : Nat → κ} (h : ChildStep σ P s t) (hk : s.child = .running k)
    (hact : P.act k = .write bytes wrote) :
    t.output = s.output ∧ ∃ n, t.child = .running (wrote n) := by
  cases h with
  | write k₀ asked n wrote₀ pc act | writeNone k₀ asked wrote₀ pc act =>
    cases hk.symm.trans pc
    cases hact.symm.trans act
    exact ⟨rfl, _, rfl⟩
  | read k₀ asked n got pc act | readNone k₀ asked got pc act
  | closeIn k₀ next pc act | closeOut k₀ next pc act | exit k₀ status pc act | abort k₀ pc act =>
    cases hk.symm.trans pc
    cases hact.symm.trans act

/-- A child in a read call on an open pipe can only come out of it with bytes. -/
theorem childStep_read {σ : CgiSetup} {P : Program κ} {s t : Exchange κ} {k : κ} {asked : Nat}
    {got : Bytes → κ} (h : ChildStep σ P s t) (hk : s.child = .running k)
    (hact : P.act k = .read asked got) (hasked : 0 < asked) (hreader : s.output.reader = true)
    (hwriter : s.output.writer = true) :
    ∃ n, s.output.Yields n asked ∧ t.output = s.output.drop n ∧
      t.child = .running (got (s.output.content.take n)) := by
  cases h with
  | read k₀ asked₀ n got₀ pc act open_ yields =>
    cases hk.symm.trans pc
    cases hact.symm.trans act
    exact ⟨n, yields, rfl, rfl⟩
  | readNone k₀ asked₀ got₀ pc act none =>
    cases hk.symm.trans pc
    cases hact.symm.trans act
    rcases none with hzero | hclosed | hended
    · omega
    · cases hclosed.symm.trans hreader
    · cases hended.closed.symm.trans hwriter
  | write k₀ bytes n wrote pc act | writeNone k₀ bytes wrote pc act
  | closeIn k₀ next pc act | closeOut k₀ next pc act | exit k₀ status pc act | abort k₀ pc act =>
    cases hk.symm.trans pc
    cases hact.symm.trans act

/-- What can go wrong at a step. -/
inductive Fault
  | none
  | killed
  | pipe
  | fork
  | write
  | read
  | wait
  deriving DecidableEq, Repr

/-- Any call of the parent may fail, and a signal may end the child. -/
inductive FaultStep (σ : CgiSetup) (P : Program κ) : Fault → Exchange κ → Exchange κ → Prop
  | none {s t} (step : ExchangeStep σ P s t) : FaultStep σ P .none s t
  | killed (s) (k : κ) (pc : s.child = .running k) :
      FaultStep σ P .killed s (s.childEnds Option.none)
  | pipe (s) (pc : s.parent = .calling) :
      FaultStep σ P .pipe s { s with parent := .returned serverError }
  | fork (s) (pc : s.parent = .calling) :
      FaultStep σ P .fork s { s with parent := .returned 404 }
  | write (s) (total : Nat) (pc : s.parent = .writing total) (more : total < σ.contentLength) :
      FaultStep σ P .write s { s with parent := .reading }
  | read (s) (pc : s.parent = .reading) : FaultStep σ P .read s { s with parent := .waiting }
  | wait (s) (pc : s.parent = .waiting) :
      FaultStep σ P .wait s (s.parentReturns (waitCode OK .failed))

inductive Op
  | read (asked : Nat)
  | write (bytes : Bytes)
  deriving DecidableEq, Repr

/-- The calls in order, and then the exit. What a write call did not take is
written by the next. -/
def script (ops : List Op) (status : UInt8) : Program (List Op) where
  start := ops
  act
    | [] => .exit status
    | .read asked :: ops => .read asked fun _ => ops
    | .write bytes :: ops =>
      .write bytes fun n => if n < bytes.length then .write (bytes.drop n) :: ops else ops

/-- What a script does next is the head of what is left of it. -/
theorem script_act {ops rest : List Op} {status : UInt8} {act : Act (List Op)}
    (h : (script ops status).act rest = act) :
    match act with
    | .read n got => ∃ rest', rest = .read n :: rest' ∧ got = fun _ => rest'
    | .write bytes wrote => ∃ rest', rest = .write bytes :: rest' ∧
        wrote = fun n => if n < bytes.length then .write (bytes.drop n) :: rest' else rest'
    | .closeIn _ => False
    | .closeOut _ => False
    | .exit _ => rest = []
    | .abort => False := by
  subst h
  cases rest with
  | nil => rfl
  | cons op rest' =>
    cases op with
    | read n => exact ⟨rest', rfl, rfl⟩
    | write bytes => exact ⟨rest', rfl, rfl⟩

end MinHttp

import MinHttp.Bytes
import MinHttp.Lib.Table
import MinHttp.Lib.Runs

/-! The descriptors of the server and of the programs it runs, with any number
of requests handled at the same time, each by a thread of its own. -/
namespace MinHttp.Isolation

open Lib (Table)
open Lib.Runs

/-- What a request opens. The ends are named as in the parent: `input` leads
to it and `output` from it. -/
inductive End
  | client
  | inputRead
  | inputWrite
  | outputRead
  | outputWrite
  | page
  deriving DecidableEq, Repr

/-- The server has opened some before the first request: the standard streams
and the listening socket. -/
inductive Object
  | server (n : Nat)
  | request (r : Nat) (e : End)
  deriving DecidableEq, Repr

/-! ## The parent -/

/-- The next call of the thread that handles a request. -/
inductive Place
  | accept
  | pipeInput
  | pipeOutput
  | fork
  | closeOutput0
  | closeInput1
  | read
  | waitpid
  | closeInput0
  | closeOutput1
  | openPage
  | closePage
  | closeSock
  | done
  deriving DecidableEq, Repr

/-- The calls that open one descriptor. -/
def Place.opens : Place → Option (End × Place)
  | .accept => some (.client, .pipeInput)
  | .openPage => some (.page, .closePage)
  | _ => none

/-- The calls of `pipe`. -/
def Place.pipes : Place → Option (End × End × Place)
  | .pipeInput => some (.inputRead, .inputWrite, .pipeOutput)
  | .pipeOutput => some (.outputRead, .outputWrite, .fork)
  | _ => none

/-- The calls of `close`; the last one is that of `HandlerRequest`. -/
def Place.closes : Place → Option (End × Place)
  | .closeOutput0 => some (.outputRead, .closeInput1)
  | .closeInput1 => some (.inputWrite, .read)
  | .closeInput0 => some (.inputRead, .closeOutput1)
  | .closeOutput1 => some (.outputWrite, .openPage)
  | .closePage => some (.page, .closeSock)
  | .closeSock => some (.client, .done)
  | _ => none

/-- The steps that open and close nothing: no program is run for the request, a
call fails, or there is no page to send. The writing of the body is left out. -/
inductive Place.Moves : Place → Place → Prop
  | noProgram : Moves .pipeInput .openPage
  | pipeInputFails : Moves .pipeInput .openPage
  | pipeOutputFails : Moves .pipeOutput .openPage
  | forkFails : Moves .fork .openPage
  | waitpidFails : Moves .waitpid .closeInput0
  | noPage : Moves .openPage .closeSock

/-- `fd` has the variables `sock`, `input`, `output` and `response.fd`. -/
structure Handler where
  place : Place
  fd : End → Nat

/-! ## The child -/

inductive ChildPlace
  | closeOutput1
  | closeInput0
  | dup2Input1
  | dup2Output0
  | execl
  | running
  | ended
  deriving DecidableEq, Repr

def ChildPlace.closes : ChildPlace → Option (End × ChildPlace)
  | .closeOutput1 => some (.outputWrite, .closeInput0)
  | .closeInput0 => some (.inputRead, .dup2Input1)
  | _ => none

def ChildPlace.dups : ChildPlace → Option (End × Nat × ChildPlace)
  | .dup2Input1 => some (.inputWrite, 1, .dup2Output0)
  | .dup2Output0 => some (.outputRead, 0, .execl)
  | _ => none

structure Child where
  place : ChildPlace
  table : Table Object
  fd : End → Nat

/-! ## The system -/

/-- Requests are numbered by their `accept`; `input` has the bytes in their
input pipes. -/
structure System where
  table : Table Object
  handler : Nat → Handler
  child : Nat → Option Child
  input : Nat → Bytes

/-- The server with the descriptors in `opened`, and no request yet. -/
def initial (opened : Nat → Bool) : System where
  table := ⟨fun fd => if opened fd then some ⟨.server fd, false⟩ else none⟩
  handler _ := ⟨.accept, fun _ => 0⟩
  child _ := none
  input _ := []

def System.setHandler (s : System) (r : Nat) (place : Place) (fd : End → Nat) : System :=
  { s with handler := Function.update s.handler r ⟨place, fd⟩ }

def System.setChild (s : System) (r : Nat) (c : Child) : System :=
  { s with child := Function.update s.child r (some c) }

/-- No process can write to the input pipe of a request. -/
def System.NoWriter (s : System) (r : Nat) : Prop :=
  ¬ s.table.Holds (.request r .inputWrite) ∧
    ∀ k c, s.child k = some c → ¬ c.table.Holds (.request r .inputWrite)

/-- One step of the thread of a request. No descriptor is marked close-on-exec,
and `fork` copies the table. -/
inductive ThreadStep (r : Nat) : System → System → Prop
  | opens (s) (e : End) (next : Place) (n : Nat)
      (place : (s.handler r).place.opens = some (e, next)) (unused : s.table.object n = none) :
      ThreadStep r s { s.setHandler r next (Function.update (s.handler r).fd e n) with
        table := s.table.opens n (.request r e) false }
  | pipe (s) (e e' : End) (next : Place) (n n' : Nat)
      (place : (s.handler r).place.pipes = some (e, e', next))
      (unused : s.table.object n = none) (unused' : s.table.object n' = none) (distinct : n' ≠ n) :
      ThreadStep r s
        { s.setHandler r next (Function.update (Function.update (s.handler r).fd e n) e' n') with
          table := (s.table.opens n (.request r e) false).opens n' (.request r e') false }
  | close (s) (e : End) (next : Place) (place : (s.handler r).place.closes = some (e, next)) :
      ThreadStep r s { s.setHandler r next (s.handler r).fd with
        table := s.table.close ((s.handler r).fd e) }
  | move (s) (next : Place) (place : (s.handler r).place.Moves next) :
      ThreadStep r s (s.setHandler r next (s.handler r).fd)
  | fork (s) (place : (s.handler r).place = .fork) :
      ThreadStep r s ((s.setHandler r .closeOutput0 (s.handler r).fd).setChild r
        ⟨.closeOutput1, s.table, (s.handler r).fd⟩)
  | read (s) (ch : Byte) (rest : Bytes) (place : (s.handler r).place = .read)
      (there : s.input r = ch :: rest) :
      ThreadStep r s { s with input := Function.update s.input r rest }
  | eof (s) (place : (s.handler r).place = .read) (empty : s.input r = [])
      (closed : s.NoWriter r) : ThreadStep r s (s.setHandler r .waitpid (s.handler r).fd)
  | waitpid (s) (c : Child) (place : (s.handler r).place = .waitpid) (child : s.child r = some c)
      (ended : c.place = .ended) : ThreadStep r s (s.setHandler r .closeInput0 (s.handler r).fd)

/-- One step of the child of a request. It may end at any time, with all its
descriptors closed; the program may close some, and write to an input pipe. -/
inductive ChildStep (r : Nat) : System → System → Prop
  | close (s) (c : Child) (e : End) (next : ChildPlace) (child : s.child r = some c)
      (place : c.place.closes = some (e, next)) :
      ChildStep r s (s.setChild r { c with place := next, table := c.table.close (c.fd e) })
  | dup2 (s) (c : Child) (e : End) (n : Nat) (next : ChildPlace) (child : s.child r = some c)
      (place : c.place.dups = some (e, n, next)) :
      ChildStep r s (s.setChild r { c with place := next, table := c.table.dup2 (c.fd e) n })
  | execl (s) (c : Child) (child : s.child r = some c) (place : c.place = .execl) :
      ChildStep r s (s.setChild r { c with place := .running, table := c.table.exec })
  | closes (s) (c : Child) (n : Nat) (child : s.child r = some c) (place : c.place = .running) :
      ChildStep r s (s.setChild r { c with table := c.table.close n })
  | writes (s) (c : Child) (k : Nat) (bytes : Bytes) (child : s.child r = some c)
      (place : c.place = .running) (holds : c.table.Holds (.request k .inputWrite)) :
      ChildStep r s { s with input := Function.update s.input k (s.input k ++ bytes) }
  | ends (s) (c : Child) (child : s.child r = some c) :
      ChildStep r s (s.setChild r { c with place := .ended, table := .empty })

def Step (s t : System) : Prop := ∃ r, ThreadStep r s t ∨ ChildStep r s t

/-- From its `accept` to the close of its socket. -/
def System.InFlight (s : System) (r : Nat) : Prop :=
  (s.handler r).place ≠ .accept ∧ (s.handler r).place ≠ .done

/-- A program starts with no descriptor of another request in flight, only the
server and its own child hold the end that writes to it, and once the child
has ended the thread reads to the end of what it wrote. -/
structure Isolated (s : System) : Prop where
  exec : ∀ r c, s.child r = some c → c.place = .execl → ∀ k e, s.InFlight k →
    c.table.exec.Holds (.request k e) → k = r
  writeEnd : ∀ r c, s.child r = some c → ∀ k, c.table.Holds (.request k .inputWrite) → k = r
  eof : ∀ r c, (s.handler r).place = .read → s.child r = some c → c.place = .ended →
    ∃ t, Reachable (ThreadStep r) s t ∧ (t.handler r).place = .waitpid

/-- No other request has a descriptor open in the server. -/
def System.Alone (s : System) (r : Nat) : Prop :=
  ∀ k e, s.table.Holds (.request k e) → k = r

/-- A step in which a child is made only for a request that is alone. -/
def AloneStep (s t : System) : Prop :=
  Step s t ∧ ∀ r, s.child r = none → t.child r ≠ none → s.Alone r

/-- What a request has open and will close. -/
def Place.held : Place → List End
  | .accept | .done => []
  | .pipeInput | .openPage | .closeSock => [.client]
  | .pipeOutput => [.client, .inputRead, .inputWrite]
  | .fork | .closeOutput0 => [.client, .inputRead, .inputWrite, .outputRead, .outputWrite]
  | .closeInput1 => [.client, .inputRead, .inputWrite, .outputWrite]
  | .read | .waitpid | .closeInput0 => [.client, .inputRead, .outputWrite]
  | .closeOutput1 => [.client, .outputWrite]
  | .closePage => [.client, .page]

/-- What `ProcessCIG` leaves open when it gives up. -/
def Place.left : Place → List End
  | .openPage | .closePage | .closeSock | .done =>
    [.inputRead, .inputWrite, .outputRead, .outputWrite]
  | _ => []

def Place.may (p : Place) : List End := p.held ++ p.left

/-- The program of the request is not run yet. -/
def Place.unforked : Place → Bool
  | .accept | .pipeInput | .pipeOutput | .fork => true
  | _ => false

/-- The variables of a request stand for its descriptors, and for all of them. -/
structure Owns (t : Table Object) (r : Nat) (fd : End → Nat) (held may : List End) : Prop where
  held : ∀ e ∈ held, t.object (fd e) = some (.request r e)
  may : ∀ n e, t.object n = some (.request r e) → n = fd e ∧ e ∈ may

def System.Owned (s : System) : Prop :=
  ∀ r, Owns s.table r (s.handler r).fd (s.handler r).place.held (s.handler r).place.may

section
variable {t t' : Table Object} {r k n : Nat} {fd : End → Nat} {held may : List End} {e : End}

theorem Owns.mono (h : Owns t r fd held may) {held' may' : List End} (hheld : held' ⊆ held)
    (hmay : may ⊆ may') : Owns t r fd held' may' := by
  constructor
  · intro e he
    exact h.held e (hheld he)
  · intro n e hn
    obtain ⟨hfd, he⟩ := h.may n e hn
    exact ⟨hfd, hmay he⟩

/-- The other requests keep theirs. -/
theorem Owns.frame (h : Owns t k fd held may)
    (hother : ∀ n e, t'.object n = some (.request k e) ↔ t.object n = some (.request k e)) :
    Owns t' k fd held may := by
  constructor
  · intro e he
    exact (hother _ _).mpr (h.held e he)
  · intro n e hn
    exact h.may n e ((hother _ _).mp hn)

theorem Owns.opens (h : Owns t r fd held may) (hunused : t.object n = none) (hnew : e ∉ may) :
    Owns (t.opens n (.request r e) false) r (Function.update fd e n) (e :: held) (e :: may) := by
  have hmem : ∀ e' ∈ held, e' ≠ e := by
    rintro e' he' rfl
    exact hnew (h.may _ _ (h.held e' he')).2
  constructor
  · intro e' he'
    rcases List.mem_cons.mp he' with rfl | he'
    · rw [Function.update_self]
      exact t.object_opens_self _ n false
    · have hold := h.held e' he'
      have hne : fd e' ≠ n := by
        rintro rfl
        rw [hunused] at hold
        cases hold
      rw [Function.update_of_ne (hmem e' he'), Table.object_opens_of_ne _ _ hne]
      exact hold
  · intro m e' hm
    by_cases hmn : m = n
    · subst m
      rw [t.object_opens_self] at hm
      cases hm
      exact ⟨(Function.update_self e n fd).symm, List.mem_cons_self⟩
    · rw [Table.object_opens_of_ne _ _ hmn] at hm
      obtain ⟨hfd, he'⟩ := h.may m e' hm
      have hne : e' ≠ e := by
        rintro rfl
        exact hnew he'
      rw [Function.update_of_ne hne]
      exact ⟨hfd, List.mem_cons_of_mem e he'⟩

theorem Owns.close (h : Owns t r fd held may) (he : e ∈ held) :
    Owns (t.close (fd e)) r fd (held.filter (· ≠ e)) (may.filter (· ≠ e)) := by
  constructor
  · intro e' he'
    obtain ⟨hheld, hne⟩ := List.mem_filter.mp he'
    have hold := h.held e' hheld
    have hfd : fd e' ≠ fd e := by
      intro heq
      rw [heq, h.held e he] at hold
      cases hold
      exact absurd hne (by simp)
    rw [Table.object_close_of_ne _ hfd]
    exact hold
  · intro n e' hn
    obtain ⟨hne, hold⟩ := Table.object_of_close hn
    obtain ⟨hfd, hmay⟩ := h.may n e' hold
    refine ⟨hfd, List.mem_filter.mpr ⟨hmay, ?_⟩⟩
    have hend : e' ≠ e := by
      rintro rfl
      exact hne hfd
    simpa using hend

theorem opens_other (hunused : t.object n = none) (hk : k ≠ r) (m : Nat) (e' : End) :
    (t.opens n (.request r e) false).object m = some (.request k e') ↔
      t.object m = some (.request k e') := by
  by_cases hm : m = n
  · subst m
    rw [t.object_opens_self, hunused]
    simp [hk.symm]
  · rw [Table.object_opens_of_ne _ _ hm]

theorem close_other (hheld : t.object n = some (.request r e)) (hk : k ≠ r) (m : Nat) (e' : End) :
    (t.close n).object m = some (.request k e') ↔ t.object m = some (.request k e') := by
  by_cases hm : m = n
  · subst m
    rw [t.object_close_self, hheld]
    simp [hk.symm]
  · rw [Table.object_close_of_ne _ hm]

end

theorem opens_place {p next : Place} {e : End} (h : p.opens = some (e, next)) :
    e ∉ p.may ∧ next.held ⊆ e :: p.held ∧ e :: p.may ⊆ next.may ∧
      (next.unforked = true → p.unforked = true) := by
  cases p <;> cases h <;> decide

theorem pipes_place {p next : Place} {e e' : End} (h : p.pipes = some (e, e', next)) :
    e ∉ p.may ∧ e' ∉ e :: p.may ∧ next.held ⊆ e' :: e :: p.held ∧
      e' :: e :: p.may ⊆ next.may ∧ (next.unforked = true → p.unforked = true) := by
  cases p <;> cases h <;> decide

theorem closes_place {p next : Place} {e : End} (h : p.closes = some (e, next)) :
    e ∈ p.held ∧ next.held ⊆ p.held.filter (· ≠ e) ∧ p.may.filter (· ≠ e) ⊆ next.may ∧
      (next.unforked = true → p.unforked = true) := by
  cases p <;> cases h <;> decide

theorem moves_place {p next : Place} (h : p.Moves next) :
    next.held ⊆ p.held ∧ p.may ⊆ next.may ∧ (next.unforked = true → p.unforked = true) := by
  cases h <;> decide

theorem childCloses_place {p next : ChildPlace} {e : End} (h : p.closes = some (e, next)) :
    next ≠ .ended := by
  cases p <;> cases h <;> decide

theorem childDups_place {p next : ChildPlace} {e : End} {n : Nat}
    (h : p.dups = some (e, n, next)) : next ≠ .ended := by
  cases p <;> cases h <;> decide

section
variable {s t : System} {r : Nat}

/-- A thread changes its own descriptors, and no others. -/
theorem System.Owned.set (h : s.Owned) {table : Table Object} {place : Place} {fd : End → Nat}
    (hself : Owns table r fd place.held place.may)
    (hother : ∀ k, k ≠ r → ∀ n e, table.object n = some (.request k e) ↔
      s.table.object n = some (.request k e)) :
    System.Owned { s.setHandler r place fd with table := table } := by
  intro k
  by_cases hk : k = r
  · subst k
    simpa [System.setHandler] using hself
  · simpa [System.setHandler, hk] using (h k).frame (hother k hk)

theorem System.Owned.move (h : s.Owned) {place : Place}
    (hheld : place.held ⊆ (s.handler r).place.held)
    (hmay : (s.handler r).place.may ⊆ place.may) :
    System.Owned (s.setHandler r place (s.handler r).fd) :=
  h.set ((h r).mono hheld hmay) fun _ _ _ _ => Iff.rfl

theorem threadStep_owned (h : s.Owned) (hstep : ThreadStep r s t) : t.Owned := by
  cases hstep with
  | opens e next n place unused =>
    obtain ⟨hnew, hheld, hmay, -⟩ := opens_place place
    apply h.set
    · exact ((h r).opens unused hnew).mono hheld hmay
    · intro k hk
      exact opens_other unused hk
  | pipe e e' next n n' place unused unused' distinct =>
    obtain ⟨hnew, hnew', hheld, hmay, -⟩ := pipes_place place
    have hunused : (s.table.opens n (.request r e) false).object n' = none := by
      rw [Table.object_opens_of_ne _ _ distinct]
      exact unused'
    apply h.set
    · exact (((h r).opens unused hnew).opens hunused hnew').mono hheld hmay
    · intro k hk m e''
      rw [opens_other hunused hk, opens_other unused hk]
  | close e next place =>
    obtain ⟨he, hheld, hmay, -⟩ := closes_place place
    apply h.set
    · exact ((h r).close he).mono hheld hmay
    · intro k hk
      exact close_other ((h r).held e he) hk
  | move next place =>
    obtain ⟨hheld, hmay, -⟩ := moves_place place
    exact h.move hheld hmay
  | fork place => exact h.move (by rw [place]; decide) (by rw [place]; decide)
  | read ch rest place there => exact h
  | eof place empty closed => exact h.move (by rw [place]; decide) (by rw [place]; decide)
  | waitpid c place child ended => exact h.move (by rw [place]; decide) (by rw [place]; decide)

theorem childStep_owned (h : s.Owned) (hstep : ChildStep r s t) : t.Owned := by
  cases hstep <;> exact h

theorem step_owned : Preserved Step System.Owned := by
  rintro s t ⟨r, hstep | hstep⟩ h
  · exact threadStep_owned h hstep
  · exact childStep_owned h hstep

theorem initial_owned (opened : Nat → Bool) : (initial opened).Owned := by
  intro r
  constructor
  · intro e he
    cases he
  · intro n e hn
    cases hopened : opened n <;> simp [initial, Table.object, hopened] at hn

/-- In every run the variables of a request stand for its descriptors, and for
all of them. -/
theorem reachable_owned {opened : Nat → Bool} (h : Reachable Step (initial opened) s) :
    s.Owned :=
  step_owned.reachable h (initial_owned opened)

/-- A request in flight has its socket open. -/
theorem System.Owned.client (h : s.Owned) {k : Nat} (hk : s.InFlight k) :
    s.table.Holds (.request k .client) := by
  refine ⟨_, (h k).held .client ?_⟩
  obtain ⟨haccept, hdone⟩ := hk
  cases hp : (s.handler k).place with
  | accept => exact absurd hp haccept
  | done => exact absurd hp hdone
  | _ => decide

/-- So none other is in flight where a request is alone. -/
theorem System.Alone.inFlight (h : s.Alone r) (howned : s.Owned) {k : Nat} (hk : s.InFlight k) :
    k = r :=
  h k .client (howned.client hk)

/-! ## The children -/

/-- A child has the descriptors of its own request, and none when it has ended. -/
structure System.Kept (s : System) : Prop where
  own : ∀ r c, s.child r = some c → ∀ k e, c.table.Holds (.request k e) → k = r
  ended : ∀ r c, s.child r = some c → c.place = .ended → c.table = .empty
  unborn : ∀ r, (s.handler r).place.unforked = true → s.child r = none

theorem initial_kept (opened : Nat → Bool) : (initial opened).Kept where
  own _ _ h := by cases h
  ended _ _ h := by cases h
  unborn _ _ := rfl

/-- A thread moves, and makes no child. -/
theorem System.Kept.move (h : s.Kept) {place : Place} {fd : End → Nat}
    (hplace : place.unforked = true → (s.handler r).place.unforked = true)
    (table : Table Object) : System.Kept { s.setHandler r place fd with table := table } := by
  constructor
  · exact h.own
  · exact h.ended
  · intro k hk
    apply h.unborn
    by_cases hkr : k = r
    · subst k
      exact hplace (by simpa [System.setHandler] using hk)
    · simpa [System.setHandler, hkr] using hk

/-- A child has what it had, or less. -/
theorem System.Kept.setChild (h : s.Kept) {c c' : Child} (hchild : s.child r = some c)
    (hholds : ∀ o, c'.table.Holds o → c.table.Holds o)
    (hended : c'.place = .ended → c'.table = .empty) : (s.setChild r c').Kept := by
  constructor
  · intro k d hd
    by_cases hk : k = r
    · subst k
      obtain rfl : c' = d := by simpa [System.setChild] using hd
      intro j e he
      exact h.own r c hchild j e (hholds _ he)
    · exact h.own k d (by simpa [System.setChild, hk] using hd)
  · intro k d hd
    by_cases hk : k = r
    · subst k
      obtain rfl : c' = d := by simpa [System.setChild] using hd
      exact hended
    · exact h.ended k d (by simpa [System.setChild, hk] using hd)
  · intro k hk
    have hnone := h.unborn k hk
    have hkr : k ≠ r := by
      rintro rfl
      rw [hchild] at hnone
      cases hnone
    simpa [System.setChild, hkr] using hnone

/-- A child is made of a server with no descriptor of another request. -/
theorem System.Kept.fork (h : s.Kept) (halone : s.Alone r) {fd fd' : End → Nat} :
    ((s.setHandler r .closeOutput0 fd).setChild r ⟨.closeOutput1, s.table, fd'⟩).Kept := by
  constructor
  · intro k c hc
    by_cases hk : k = r
    · subst k
      obtain rfl : ⟨.closeOutput1, s.table, fd'⟩ = c := by simpa [System.setChild] using hc
      exact halone
    · exact h.own k c (by simpa [System.setChild, System.setHandler, hk] using hc)
  · intro k c hc hended
    by_cases hk : k = r
    · subst k
      obtain rfl : ⟨.closeOutput1, s.table, fd'⟩ = c := by simpa [System.setChild] using hc
      cases hended
    · exact h.ended k c (by simpa [System.setChild, System.setHandler, hk] using hc) hended
  · intro k hk
    have hkr : k ≠ r := by
      rintro rfl
      simp [System.setChild, System.setHandler, Place.unforked] at hk
    have hnone := h.unborn k (by simpa [System.setChild, System.setHandler, hkr] using hk)
    simpa [System.setChild, System.setHandler, hkr] using hnone

theorem threadStep_kept (h : s.Kept) (hstep : ThreadStep r s t)
    (halone : s.child r = none → t.child r ≠ none → s.Alone r) : t.Kept := by
  cases hstep with
  | opens e next n place unused =>
    obtain ⟨-, -, -, hunforked⟩ := opens_place place
    exact h.move hunforked _
  | pipe e e' next n n' place unused unused' distinct =>
    obtain ⟨-, -, -, -, hunforked⟩ := pipes_place place
    exact h.move hunforked _
  | close e next place =>
    obtain ⟨-, -, -, hunforked⟩ := closes_place place
    exact h.move hunforked _
  | move next place =>
    obtain ⟨-, -, hunforked⟩ := moves_place place
    exact h.move hunforked s.table
  | fork place =>
    apply h.fork
    apply halone
    · exact h.unborn r (by rw [place]; rfl)
    · simp [System.setChild]
  | read ch rest place there => exact ⟨h.own, h.ended, h.unborn⟩
  | eof place empty closed => exact h.move (fun hnext => by cases hnext) s.table
  | waitpid c place child ended => exact h.move (fun hnext => by cases hnext) s.table

theorem childStep_kept (h : s.Kept) (hstep : ChildStep r s t) : t.Kept := by
  cases hstep with
  | close c e next child place =>
    apply h.setChild child
    · intro o ho
      exact Table.holds_of_close ho
    · intro hended
      exact absurd hended (childCloses_place place)
  | dup2 c e n next child place =>
    apply h.setChild child
    · intro o ho
      exact Table.holds_of_dup2 ho
    · intro hended
      exact absurd hended (childDups_place place)
  | execl c child place =>
    apply h.setChild child
    · intro o ho
      exact Table.holds_of_exec ho
    · intro hended
      cases hended
  | closes c n child place =>
    apply h.setChild child
    · intro o ho
      exact Table.holds_of_close ho
    · intro hended
      rw [place] at hended
      cases hended
  | writes c k bytes child place holds => exact ⟨h.own, h.ended, h.unborn⟩
  | ends c child =>
    apply h.setChild child
    · intro o ho
      exact absurd ho Table.not_holds_empty
    · intro _
      rfl

theorem aloneStep_kept : Preserved AloneStep System.Kept := by
  rintro s t ⟨⟨r, hstep | hstep⟩, halone⟩ h
  · exact threadStep_kept h hstep (halone r)
  · exact childStep_kept h hstep

/-- Where nothing more can be written the loop reads to the end. -/
theorem readLoop_ends (hplace : (s.handler r).place = .read) (hclosed : s.NoWriter r) :
    ∃ t, Reachable (ThreadStep r) s t ∧ (t.handler r).place = .waitpid := by
  generalize hinput : s.input r = bytes
  induction bytes generalizing s with
  | nil =>
    refine ⟨_, Reachable.start.next (.eof s hplace hinput hclosed), ?_⟩
    simp [System.setHandler]
  | cons ch rest ih =>
    have hread := ThreadStep.read s ch rest hplace hinput
    obtain ⟨t, hreach, ht⟩ := @ih { s with input := Function.update s.input r rest } hplace hclosed
      (Function.update_self r rest s.input)
    exact ⟨t, (Reachable.start.next hread).trans hreach, ht⟩

/-- With its child ended and its own copy closed, no process has the end. -/
theorem System.Kept.noWriter (h : s.Kept) (howned : s.Owned)
    (hplace : (s.handler r).place = .read) {c : Child} (hchild : s.child r = some c)
    (hended : c.place = .ended) : s.NoWriter r := by
  constructor
  · rintro ⟨n, hn⟩
    have hmay := ((howned r).may n .inputWrite hn).2
    rw [hplace] at hmay
    revert hmay
    decide
  · intro k d hd hholds
    obtain rfl := h.own k d hd r .inputWrite hholds
    obtain rfl : c = d := Option.some.inj (hchild.symm.trans hd)
    rw [h.ended r c hchild hended] at hholds
    exact Table.not_holds_empty hholds

/-- **Requests are isolated**, in every run in which a child is made only while
no other request has a descriptor open. -/
theorem reachable_isolated {opened : Nat → Bool} (h : Reachable AloneStep (initial opened) s) :
    Isolated s := by
  have howned := reachable_owned (h.mono fun _ _ hs => hs.1)
  have hkept := aloneStep_kept.reachable h (initial_kept opened)
  constructor
  · intro r c hc _ k e _ hholds
    exact hkept.own r c hc k e (Table.holds_of_exec hholds)
  · intro r c hc k hholds
    exact hkept.own r c hc k .inputWrite hholds
  · intro r c hplace hc hended
    exact readLoop_ends hplace (hkept.noWriter howned hplace hc hended)

theorem childStep_made (hstep : ChildStep r s t) {k : Nat} (hnone : s.child k = none) :
    t.child k = none := by
  have hset : ∀ c c', s.child r = some c → (s.setChild r c').child k = none := by
    intro c c' hchild
    have hk : k ≠ r := by
      rintro rfl
      rw [hchild] at hnone
      cases hnone
    simpa [System.setChild, hk] using hnone
  cases hstep with
  | close c e next child place => exact hset c _ child
  | dup2 c e n next child place => exact hset c _ child
  | execl c child place => exact hset c _ child
  | closes c n child place => exact hset c _ child
  | writes c k' bytes child place holds => exact hnone
  | ends c child => exact hset c _ child

/-- Only `fork` makes a child, and a copy of the table for it. -/
theorem threadStep_made (hstep : ThreadStep r s t) {k : Nat} (hnone : s.child k = none)
    (hmade : t.child k ≠ none) :
    k = r ∧ (s.handler r).place = .fork ∧ ∃ c, t.child r = some c ∧ c.table = s.table := by
  cases hstep with
  | fork place =>
    have hk : k = r := by
      by_contra hk
      simp [System.setChild, System.setHandler, hk, hnone] at hmade
    exact ⟨hk, place, _, Function.update_self _ _ _, rfl⟩
  | _ => exact absurd hnone hmade

/-- A child made while another request has the write end of its input pipe
open has it too. -/
theorem fork_shares (hstep : ThreadStep r s t) (hnone : s.child r = none)
    (hmade : t.child r ≠ none) {k : Nat} (hk : k ≠ r)
    (hopen : s.table.Holds (.request k .inputWrite)) : ¬ Isolated t := by
  obtain ⟨-, -, c, hc, htable⟩ := threadStep_made hstep hnone hmade
  intro h
  rw [← htable] at hopen
  exact hk (h.writeEnd r c hc k hopen)

/-- What the server had open at its start stays, and nothing is marked. -/
structure System.Standing (opened : Nat → Bool) (s : System) : Prop where
  server : ∀ n, opened n = true → s.table.object n = some (.server n)
  unmarked : s.table.Unmarked

theorem threadStep_standing {opened : Nat → Bool} (h : s.Standing opened) (howned : s.Owned)
    (hstep : ThreadStep r s t) : t.Standing opened := by
  have hused : ∀ {n m}, s.table.object n = none → opened m = true → m ≠ n := by
    rintro n m hunused hm rfl
    rw [h.server m hm] at hunused
    cases hunused
  cases hstep with
  | opens e next n place unused =>
    constructor
    · intro m hm
      exact (Table.object_opens_of_ne _ _ (hused unused hm) _).trans (h.server m hm)
    · exact h.unmarked.opens _ _
  | pipe e e' next n n' place unused unused' distinct =>
    constructor
    · intro m hm
      have hopens := Table.object_opens_of_ne s.table (.request r e) (hused unused hm) false
      exact (Table.object_opens_of_ne _ _ (hused unused' hm) _).trans
        (hopens.trans (h.server m hm))
    · exact (h.unmarked.opens _ _).opens _ _
  | close e next place =>
    have hheld := (howned r).held e (closes_place place).1
    constructor
    · intro m hm
      have hne : m ≠ (s.handler r).fd e := by
        rintro rfl
        rw [h.server _ hm] at hheld
        cases hheld
      exact (Table.object_close_of_ne _ hne).trans (h.server m hm)
    · exact h.unmarked.close _
  | _ => exact ⟨h.server, h.unmarked⟩

theorem step_standing {opened : Nat → Bool} :
    Preserved Step fun s => s.Owned ∧ s.Standing opened := by
  rintro s t hstep ⟨howned, h⟩
  refine ⟨step_owned hstep howned, ?_⟩
  obtain ⟨r, hthread | hchild⟩ := hstep
  · exact threadStep_standing h howned hthread
  · cases hchild <;> exact ⟨h.server, h.unmarked⟩

theorem initial_standing (opened : Nat → Bool) : (initial opened).Standing opened := by
  constructor
  · intro n hn
    simp [initial, Table.object, hn]
  · intro n slot hn
    cases hopened : opened n with
    | false => simp [initial, hopened] at hn
    | true =>
      obtain rfl : ⟨.server n, false⟩ = slot := by simpa [initial, hopened] using hn
      rfl

theorem System.setChild_child (s : System) (r : Nat) (c : Child) :
    (s.setChild r c).child r = some c := by
  simp [System.setChild]

/-- A child, left to itself, comes to its `execl`. -/
theorem child_execl {fd : End → Nat} {table : Table Object}
    (hchild : s.child r = some ⟨.closeOutput1, table, fd⟩) :
    ∃ t, Reachable (ChildStep r) s t ∧ t.handler = s.handler ∧ t.child r = some
      ⟨.execl, (((table.close (fd .outputWrite)).close (fd .inputRead)).dup2
        (fd .inputWrite) 1).dup2 (fd .outputRead) 0, fd⟩ := by
  have closed := (Reachable.start.next
    (ChildStep.close s _ .outputWrite .closeInput0 hchild rfl)).next
    (.close _ _ .inputRead .dup2Input1 (s.setChild_child r _) rfl)
  have dupped := (closed.next
    (.dup2 _ _ .inputWrite 1 .dup2Output0 (System.setChild_child _ r _) rfl)).next
    (.dup2 _ _ .outputRead 0 .execl (System.setChild_child _ r _) rfl)
  exact ⟨_, dupped, rfl, System.setChild_child _ r _⟩

/-- **A child made while another request is in flight** can start its program
with the other's socket, where the server has its standard input and output. -/
theorem fork_exposes {opened : Nat → Bool} (h : Reachable Step (initial opened) s)
    (hstdin : opened 0 = true) (hstdout : opened 1 = true) (hstep : ThreadStep r s t)
    (hnone : s.child r = none) (hmade : t.child r ≠ none) {k : Nat} (hk : k ≠ r)
    (hflight : s.InFlight k) : ∃ u, Reachable Step t u ∧ ¬ Isolated u := by
  obtain ⟨howned, hstanding⟩ :=
    step_standing.reachable h ⟨initial_owned opened, initial_standing opened⟩
  obtain ⟨x, hx⟩ := howned.client hflight
  have hserver : ∀ n, opened n = true → x ≠ n := by
    rintro n hn rfl
    rw [hstanding.server x hn] at hx
    cases hx
  cases hstep with
  | fork place =>
    have hown : ∀ e, e ∈ Place.fork.held → x ≠ (s.handler r).fd e := by
      rintro e he rfl
      rw [(howned r).held e (by rw [place]; exact he)] at hx
      cases hx
      exact hk rfl
    obtain ⟨u, hreach, hhandler, hchild⟩ := child_execl (System.setChild_child
      (s.setHandler r .closeOutput0 (s.handler r).fd) r
      ⟨.closeOutput1, s.table, (s.handler r).fd⟩)
    refine ⟨u, hreach.mono fun _ _ hs => ⟨r, Or.inr hs⟩, fun hisolated => ?_⟩
    have hkept : u.InFlight k := by
      simpa [System.InFlight, hhandler, System.setChild, System.setHandler, hk] using hflight
    -- neither the closes nor the copies reach the other's socket
    refine hk (hisolated.exec r _ hchild rfl k .client hkept ⟨x, ?_⟩)
    have hunmarked := hstanding.unmarked
    rw [((((hunmarked.close _).close _).dup2 _ _).dup2 _ _).exec,
      Table.object_dup2_of_ne _ (hserver 0 hstdin), Table.object_dup2_of_ne _ (hserver 1 hstdout),
      Table.object_close_of_ne _ (hown .inputRead (by decide)),
      Table.object_close_of_ne _ (hown .outputWrite (by decide))]
    exact hx
  | _ => exact absurd hnone hmade

theorem AloneStep.child (hstep : ChildStep r s t) : AloneStep s t :=
  ⟨⟨r, Or.inr hstep⟩, fun _ hnone hmade => absurd (childStep_made hstep hnone) hmade⟩

theorem AloneStep.thread (hstep : ThreadStep r s t)
    (halone : (s.handler r).place = .fork → s.Alone r) : AloneStep s t := by
  refine ⟨⟨r, Or.inl hstep⟩, fun k hnone hmade => ?_⟩
  obtain ⟨rfl, hfork, -⟩ := threadStep_made hstep hnone hmade
  exact halone hfork

/-- A request is alone where no other one has come. -/
theorem System.Owned.alone (h : s.Owned) (hothers : ∀ k, k ≠ r → (s.handler k).place = .accept) :
    s.Alone r := by
  rintro k e ⟨n, hn⟩
  by_contra hk
  have hmay := ((h k).may n e hn).2
  rw [hothers k hk] at hmay
  cases hmay

end

/-- The standard streams, and the listening socket. -/
def standard (fd : Nat) : Bool := decide (fd < 4)

/-- One request, up to the start of its program. -/
theorem reachable_isolated_execl : ∃ s c, s.child 0 = some c ∧ c.place = .execl ∧
    c.table.object 0 = some (.request 0 .outputRead) ∧
    c.table.object 1 = some (.request 0 .inputWrite) ∧ Isolated s := by
  have start : Reachable AloneStep (initial standard) (initial standard) := Reachable.start
  have accepted := start.next (.thread (.opens (r := 0) _ .client .pipeInput 4 rfl rfl)
    (fun h => nomatch h))
  have piped := (accepted.next (.thread (.pipe (r := 0) _ .inputRead .inputWrite .pipeOutput 5 6
    rfl rfl rfl (by decide)) (fun h => nomatch h))).next
    (.thread (.pipe (r := 0) _ .outputRead .outputWrite .fork 7 8 rfl rfl rfl (by decide))
    (fun h => nomatch h))
  have forked := piped.next (.thread (.fork (r := 0) _ rfl) (fun _ => by
    apply (reachable_owned (piped.mono fun _ _ hs => hs.1)).alone
    intro k hk
    simp [System.setHandler, hk, initial]))
  have closed := (forked.next (.child (.close (r := 0) _ _ .outputWrite .closeInput0 rfl rfl))).next
    (.child (.close (r := 0) _ _ .inputRead .dup2Input1 rfl rfl))
  have dupped := (closed.next (.child (.dup2 (r := 0) _ _ .inputWrite 1 .dup2Output0 rfl rfl))).next
    (.child (.dup2 (r := 0) _ _ .outputRead 0 .execl rfl rfl))
  exact ⟨_, _, rfl, rfl, rfl, rfl, reachable_isolated dupped⟩

/-- Two requests with their pipes made, and then their children: the second
one's program starts with the first one's write end, and the first thread
waits in `read` although its own child has ended. -/
theorem reachable_shared : ∃ s c d, Reachable Step (initial standard) s ∧
    s.InFlight 0 ∧ s.child 1 = some d ∧ d.place = .execl ∧
    d.table.exec.Holds (.request 0 .client) ∧ d.table.exec.Holds (.request 0 .inputWrite) ∧
    (s.handler 0).place = .read ∧ s.child 0 = some c ∧ c.place = .ended ∧
    s.input 0 = [] ∧ ¬ s.NoWriter 0 ∧ ¬ Isolated s := by
  have thread : ∀ {s t : System} (r : Nat), Reachable Step (initial standard) s →
      ThreadStep r s t → Reachable Step (initial standard) t := by
    intro s t r h hstep
    exact h.next ⟨r, Or.inl hstep⟩
  have child : ∀ {s t : System} (r : Nat), Reachable Step (initial standard) s →
      ChildStep r s t → Reachable Step (initial standard) t := by
    intro s t r h hstep
    exact h.next ⟨r, Or.inr hstep⟩
  have accepted := thread 1 (thread 0 Reachable.start (.opens _ .client .pipeInput 4 rfl rfl))
    (.opens _ .client .pipeInput 5 rfl rfl)
  have piped := thread 0
    (thread 0 accepted (.pipe _ .inputRead .inputWrite .pipeOutput 6 7 rfl rfl rfl (by decide)))
    (.pipe _ .outputRead .outputWrite .fork 8 9 rfl rfl rfl (by decide))
  have piped' := thread 1
    (thread 1 piped (.pipe _ .inputRead .inputWrite .pipeOutput 10 11 rfl rfl rfl (by decide)))
    (.pipe _ .outputRead .outputWrite .fork 12 13 rfl rfl rfl (by decide))
  have forked := thread 0 (thread 1 piped' (.fork _ rfl)) (.fork _ rfl)
  have closed := thread 0 (thread 0 forked (.close _ .outputRead .closeInput1 rfl))
    (.close _ .inputWrite .read rfl)
  have ended := child 0 closed (.ends _ _ rfl)
  have closed' := child 1 (child 1 ended (.close _ _ .outputWrite .closeInput0 rfl rfl))
    (.close _ _ .inputRead .dup2Input1 rfl rfl)
  have dupped := child 1 (child 1 closed' (.dup2 _ _ .inputWrite 1 .dup2Output0 rfl rfl))
    (.dup2 _ _ .outputRead 0 .execl rfl rfl)
  refine ⟨_, _, _, dupped, ⟨by decide, by decide⟩, rfl, rfl, ⟨4, rfl⟩, ⟨7, rfl⟩, rfl, rfl, rfl, rfl,
    ?_, ?_⟩
  · intro h
    exact h.2 1 _ rfl ⟨7, rfl⟩
  · intro h
    exact absurd (h.writeEnd 1 _ rfl 0 ⟨7, rfl⟩) (by decide)

end MinHttp.Isolation

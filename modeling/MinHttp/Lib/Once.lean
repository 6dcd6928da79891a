import MinHttp.Lib.Runs
import Mathlib.Logic.Function.Basic

/-! An object made on first use: a pointer is checked, a mutex is taken, the
pointer is checked again, and the first call stores a new object and then
initialises it. Each call has a mutex, its own or a shared one. -/
namespace Lib.Once

open Lib.Runs

/-- How an object is initialised: from `start` by steps, of which one to `none`
is the last. At some places the whole process may exit. -/
structure Init (ι ρ : Type*) where
  fresh : ι
  start : ρ
  step : ρ → ι → Option ρ → ι → Prop
  exits : ρ → ι → Prop

/-- Where a call is. -/
inductive Pc (ρ : Type*)
  | check
  | lock
  | recheck
  | construct
  | callInit
  | init (object : Nat) (next : ρ)
  | unlock
  | read
  | returned (pointer : Option Nat)

/-- Objects are numbered in the order in which they are made. -/
structure State (κ μ ι ρ : Type*) where
  pointer : Option Nat
  made : Nat
  object : Nat → ι
  owner : μ → Option κ
  pc : κ → Pc ρ
  exited : Bool

variable {κ μ ι ρ : Type*} (I : Init ι ρ) (mutexOf : κ → μ)

def initial : State κ μ ι ρ := ⟨none, 0, fun _ => I.fresh, fun _ => none, fun _ => .check, false⟩

section
variable [DecidableEq κ]

def State.setPc (s : State κ μ ι ρ) (k : κ) (pc : Pc ρ) : State κ μ ι ρ :=
  { s with pc := Function.update s.pc k pc }

/-- One step of one call. -/
inductive Call [DecidableEq μ] (k : κ) : State κ μ ι ρ → State κ μ ι ρ → Prop
  | checkNull (s) (pc : s.pc k = .check) (null : s.pointer = none) : Call k s (s.setPc k .lock)
  | checkSet (s) (pc : s.pc k = .check) (set : s.pointer ≠ none) : Call k s (s.setPc k .read)
  | lock (s) (pc : s.pc k = .lock) (free : s.owner (mutexOf k) = none) :
      Call k s { s.setPc k .recheck with
        owner := Function.update s.owner (mutexOf k) (some k) }
  | recheckNull (s) (pc : s.pc k = .recheck) (null : s.pointer = none) :
      Call k s (s.setPc k .construct)
  | recheckSet (s) (pc : s.pc k = .recheck) (set : s.pointer ≠ none) :
      Call k s (s.setPc k .unlock)
  | construct (s) (pc : s.pc k = .construct) :
      Call k s { s.setPc k .callInit with
        pointer := some s.made
        made := s.made + 1
        object := Function.update s.object s.made I.fresh }
  | callInit (s) (o : Nat) (pc : s.pc k = .callInit) (set : s.pointer = some o) :
      Call k s (s.setPc k (.init o I.start))
  | init (s) (o : Nat) (a b : ρ) (x : ι) (pc : s.pc k = .init o a)
      (step : I.step a (s.object o) (some b) x) :
      Call k s { s.setPc k (.init o b) with object := Function.update s.object o x }
  | initDone (s) (o : Nat) (a : ρ) (x : ι) (pc : s.pc k = .init o a)
      (step : I.step a (s.object o) none x) :
      Call k s { s.setPc k .unlock with object := Function.update s.object o x }
  | exit (s) (o : Nat) (a : ρ) (pc : s.pc k = .init o a) (exits : I.exits a (s.object o)) :
      Call k s { s with exited := true }
  | unlock (s) (pc : s.pc k = .unlock) :
      Call k s { s.setPc k .read with owner := Function.update s.owner (mutexOf k) none }
  | ret (s) (pc : s.pc k = .read) : Call k s (s.setPc k (.returned s.pointer))

/-- Any call may take the next step, while the process runs. -/
def Step [DecidableEq μ] (s t : State κ μ ι ρ) : Prop :=
  s.exited = false ∧ ∃ k, Call I mutexOf k s t

/-- A step in which no call finds nothing while another is about to store. -/
def Exclusive [DecidableEq μ] (s t : State κ μ ι ρ) : Prop :=
  s.exited = false ∧ ∃ k, Call I mutexOf k s t ∧
    (s.pc k = .recheck → s.pointer = none → ∀ j, s.pc j ≠ .construct)

end

/-! ## One object -/

/-- Between the second check that has found nothing and the end of the
initialisation. -/
def Pc.Building : Pc ρ → Prop
  | .construct | .callInit | .init _ _ => True
  | _ => False

/-- Where a call has seen an object. -/
def Pc.Past : Pc ρ → Prop
  | .callInit | .init _ _ | .unlock | .read => True
  | _ => False

/-- What holds of an object between the steps of its initialisation, and
behind the last. -/
structure Init.Meets (Good : ρ → ι → Prop) (Done : ι → Prop) : Prop where
  start : Good I.start I.fresh
  step : ∀ a b x y, Good a x → I.step a x (some b) y → Good b y
  done : ∀ a x y, Good a x → I.step a x none y → Done y

/-- There is one object at most, and one call that builds it. -/
structure Single (Good : ρ → ι → Prop) (Done : ι → Prop) (s : State κ μ ι ρ) : Prop where
  made : s.pointer = none ∧ s.made = 0 ∨ s.pointer = some 0 ∧ s.made = 1
  construct : ∀ k, s.pc k = .construct → s.pointer = none
  builder : ∀ j k, (s.pc j).Building → (s.pc k).Building → j = k
  past : ∀ k, (s.pc k).Past → s.pointer = some 0
  returned : ∀ k p, s.pc k = .returned p → p = some 0 ∧ s.pointer = some 0
  callInit : ∀ k, s.pc k = .callInit → s.object 0 = I.fresh
  init : ∀ k o a, s.pc k = .init o a → o = 0 ∧ Good a (s.object 0)
  done : s.pointer = some 0 → (∀ k, ¬ (s.pc k).Building) → Done (s.object 0)

section
variable {I mutexOf} {Good : ρ → ι → Prop} {Done : ι → Prop}

theorem initial_single : Single I Good Done (initial I : State κ μ ι ρ) where
  made := Or.inl ⟨rfl, rfl⟩
  construct _ h := by cases h
  builder _ _ h := h.elim
  past _ h := h.elim
  returned _ _ h := by cases h
  callInit _ h := by cases h
  init _ _ _ h := by cases h
  done h := by cases h

section
variable {s : State κ μ ι ρ}

theorem Single.made_le (h : Single I Good Done s) : s.made ≤ 1 := by
  rcases h.made with ⟨-, hmade⟩ | ⟨-, hmade⟩
  · exact Nat.le_of_lt_succ (by simp [hmade])
  · exact Nat.le_of_eq hmade

theorem Single.made_one (h : Single I Good Done s) (hset : s.pointer = some 0) : s.made = 1 := by
  rcases h.made with ⟨hnone, -⟩ | ⟨-, hmade⟩
  · rw [hset] at hnone
    cases hnone
  · exact hmade

theorem Single.made_zero (h : Single I Good Done s) (hnone : s.pointer = none) : s.made = 0 := by
  rcases h.made with ⟨-, hmade⟩ | ⟨hset, -⟩
  · exact hmade
  · rw [hnone] at hset
    cases hset

theorem Single.pointer_zero (h : Single I Good Done s) (hset : s.pointer ≠ none) :
    s.pointer = some 0 := by
  rcases h.made with hmade | hmade
  · exact absurd hmade.1 hset
  · exact hmade.1

end

section
variable [DecidableEq κ] {s : State κ μ ι ρ} {k : κ}

/-- A call moves on, and neither starts nor ends building. -/
theorem Single.move (h : Single I Good Done s) {pc : Pc ρ} (hfrom : ¬ (s.pc k).Building)
    (hto : ¬ pc.Building) (hpast : pc.Past → s.pointer = some 0)
    (hreturned : ∀ p, pc = .returned p → p = some 0 ∧ s.pointer = some 0)
    (owner : μ → Option κ) : Single I Good Done { s.setPc k pc with owner := owner } := by
  have hbuilding : ∀ j, (Function.update s.pc k pc j).Building ↔ (s.pc j).Building := by
    intro j
    by_cases hj : j = k
    · subst j
      simp [hfrom, hto]
    · simp [hj]
  have hpc : ∀ j q, Function.update s.pc k pc j = q → q.Building → s.pc j = q := by
    intro j q hq hb
    by_cases hj : j = k
    · subst j
      rw [Function.update_self] at hq
      exact absurd (hq ▸ hb) hto
    · rwa [Function.update_of_ne hj] at hq
  constructor
  · exact h.made
  · intro j hj
    exact h.construct j (hpc j _ hj trivial)
  · intro i j hi hj
    exact h.builder i j ((hbuilding i).mp hi) ((hbuilding j).mp hj)
  · intro j hj
    by_cases hjk : j = k
    · subst j
      exact hpast (by simpa [State.setPc] using hj)
    · exact h.past j (by simpa [State.setPc, hjk] using hj)
  · intro j p hj
    by_cases hjk : j = k
    · subst j
      exact hreturned p (by simpa [State.setPc] using hj)
    · exact h.returned j p (by simpa [State.setPc, hjk] using hj)
  · intro j hj
    exact h.callInit j (hpc j _ hj trivial)
  · intro j o a hj
    exact h.init j o a (hpc j _ hj trivial)
  · intro hset hnone
    apply h.done hset
    intro j hj
    exact hnone j ((hbuilding j).mpr hj)

/-- The call that builds goes on building. -/
theorem Single.build (h : Single I Good Done s) (hk : (s.pc k).Building) {t : State κ μ ι ρ}
    (pc : Pc ρ) (hpc : t.pc = Function.update s.pc k pc) (hnew : pc.Building)
    (hstored : pc ≠ .construct) (hset : t.pointer = some 0) (hmade : t.made = 1)
    (hcall : pc = .callInit → t.object 0 = I.fresh)
    (hinit : ∀ o a, pc = .init o a → o = 0 ∧ Good a (t.object 0)) : Single I Good Done t := by
  have hother : ∀ j q, t.pc j = q → q.Building → j = k := by
    intro j q hq hb
    by_cases hj : j = k
    · exact hj
    · rw [hpc, Function.update_of_ne hj] at hq
      exact h.builder j k (hq ▸ hb) hk
  have hself : t.pc k = pc := by rw [hpc, Function.update_self]
  constructor
  · exact Or.inr ⟨hset, hmade⟩
  · intro j hj
    obtain rfl := hother j _ hj trivial
    exact absurd (hself.symm.trans hj) hstored
  · intro i j hi hj
    exact (hother i _ rfl hi).trans (hother j _ rfl hj).symm
  · intro _ _
    exact hset
  · intro j p hj
    have hjk : j ≠ k := by
      rintro rfl
      rw [hself] at hj
      rw [hj] at hnew
      exact hnew
    rw [hpc, Function.update_of_ne hjk] at hj
    exact ⟨(h.returned j p hj).1, hset⟩
  · intro j hj
    obtain rfl := hother j _ hj trivial
    exact hcall (hself.symm.trans hj)
  · intro j o a hj
    obtain rfl := hother j _ hj trivial
    exact hinit o a (hself.symm.trans hj)
  · intro _ hnone
    exact absurd (hself ▸ hnew) (hnone k)

/-- A call begins to build, and is the only one. -/
theorem Single.recheckNull (h : Single I Good Done s) (null : s.pointer = none)
    (hexcl : ∀ j, s.pc j ≠ .construct) : Single I Good Done (s.setPc k .construct) := by
  have hpast : ∀ j, ¬ (s.pc j).Past := by
    intro j hj
    rw [h.past j hj] at null
    cases null
  have hnobody : ∀ j, ¬ (s.pc j).Building := by
    intro j hj
    have hp := hpast j
    have hc := hexcl j
    cases hq : s.pc j <;> simp_all [Pc.Building, Pc.Past]
  have hother : ∀ j, (Function.update s.pc k .construct j).Building → j = k := by
    intro j hj
    by_cases hjk : j = k
    · exact hjk
    · rw [Function.update_of_ne hjk] at hj
      exact absurd hj (hnobody j)
  constructor
  · exact h.made
  · intro _ _
    exact null
  · intro i j hi hj
    exact (hother i hi).trans (hother j hj).symm
  · intro j hj
    by_cases hjk : j = k
    · subst j
      simp [State.setPc, Pc.Past] at hj
    · exact h.past j (by simpa [State.setPc, hjk] using hj)
  · intro j p hj
    by_cases hjk : j = k
    · subst j
      simp [State.setPc] at hj
    · exact h.returned j p (by simpa [State.setPc, hjk] using hj)
  · intro j hj
    by_cases hjk : j = k
    · subst j
      simp [State.setPc] at hj
    · exact h.callInit j (by simpa [State.setPc, hjk] using hj)
  · intro j o a hj
    by_cases hjk : j = k
    · subst j
      simp [State.setPc] at hj
    · exact h.init j o a (by simpa [State.setPc, hjk] using hj)
  · intro hset
    have hnone := null.symm.trans hset
    cases hnone

/-- The call that builds is done. -/
theorem Single.initDone (h : Single I Good Done s) (hk : (s.pc k).Building)
    (hset : s.pointer = some 0) {object : Nat → ι} (hdone : Done (object 0)) :
    Single I Good Done { s.setPc k .unlock with object := object } := by
  have hnobody : ∀ j, ¬ (Function.update s.pc k .unlock j).Building := by
    intro j hj
    by_cases hjk : j = k
    · subst j
      rw [Function.update_self] at hj
      exact hj
    · rw [Function.update_of_ne hjk] at hj
      exact hjk (h.builder j k hj hk)
  have hpc : ∀ j q, Function.update s.pc k .unlock j = q → ¬ q.Building := by
    rintro j _ rfl
    exact hnobody j
  constructor
  · exact h.made
  · intro j hj
    exact absurd trivial (hpc j _ hj)
  · intro i j hi
    exact absurd hi (hnobody i)
  · intro _ _
    exact hset
  · intro j p hj
    by_cases hjk : j = k
    · subst j
      simp [State.setPc] at hj
    · exact h.returned j p (by simpa [State.setPc, hjk] using hj)
  · intro j hj
    exact absurd trivial (hpc j _ hj)
  · intro j o a hj
    exact absurd trivial (hpc j _ hj)
  · intro _ _
    exact hdone

end

section
variable [DecidableEq κ] [DecidableEq μ] {s t : State κ μ ι ρ}

/-- A step of a call keeps one object, unless it finds nothing while another
is about to store. -/
theorem Single.call (hI : I.Meets Good Done) (h : Single I Good Done s) {k : κ}
    (hstep : Call I mutexOf k s t)
    (hexcl : s.pc k = .recheck → s.pointer = none → ∀ j, s.pc j ≠ .construct) :
    Single I Good Done t := by
  have hinit : ∀ {o a}, s.pc k = .init o a → o = 0 ∧ Good a (s.object 0) ∧
      s.pointer = some 0 ∧ s.made = 1 := by
    intro o a pc
    have hset : s.pointer = some 0 := h.past k (by rw [pc]; trivial)
    obtain ⟨ho, hgood⟩ := h.init k o a pc
    exact ⟨ho, hgood, hset, h.made_one hset⟩
  cases hstep with
  | checkNull pc null => exact h.move (by simp [pc, Pc.Building]) id False.elim (by simp) s.owner
  | checkSet pc set =>
    exact h.move (by simp [pc, Pc.Building]) id (fun _ => h.pointer_zero set) (by simp) s.owner
  | lock pc free => exact h.move (by simp [pc, Pc.Building]) id False.elim (by simp) _
  | recheckNull pc null => exact h.recheckNull null (hexcl pc null)
  | recheckSet pc set =>
    exact h.move (by simp [pc, Pc.Building]) id (fun _ => h.pointer_zero set) (by simp) s.owner
  | construct pc =>
    rw [h.made_zero (h.construct k pc)]
    refine h.build (by simp [pc, Pc.Building]) .callInit rfl trivial (by simp) rfl rfl ?_ (by simp)
    intro _
    exact Function.update_self 0 I.fresh s.object
  | callInit o pc set =>
    have hzero := h.past k (by simp [pc, Pc.Past])
    obtain rfl : o = 0 := Option.some.inj (set.symm.trans hzero)
    refine h.build (by simp [pc, Pc.Building]) (.init 0 I.start) rfl trivial (by simp) hzero
      (h.made_one hzero) (by simp) ?_
    intro o' a hpc
    cases hpc
    refine ⟨rfl, ?_⟩
    change Good I.start (s.object 0)
    rw [h.callInit k pc]
    exact hI.start
  | init o a b x pc step =>
    obtain ⟨rfl, hgood, hzero, hmade⟩ := hinit pc
    refine h.build (by simp [pc, Pc.Building]) (.init 0 b) rfl trivial (by simp) hzero hmade
      (by simp) ?_
    intro o' a' hpc
    cases hpc
    refine ⟨rfl, ?_⟩
    dsimp only
    rw [Function.update_self]
    exact hI.step a b _ x hgood step
  | initDone o a x pc step =>
    obtain ⟨rfl, hgood, hzero, -⟩ := hinit pc
    apply h.initDone (by simp [pc, Pc.Building]) hzero
    rw [Function.update_self]
    exact hI.done a _ x hgood step
  | exit o a pc exits =>
    exact ⟨h.made, h.construct, h.builder, h.past, h.returned, h.callInit, h.init, h.done⟩
  | unlock pc =>
    have hzero := h.past k (by simp [pc, Pc.Past])
    exact h.move (by simp [pc, Pc.Building]) id (fun _ => hzero) (by simp) _
  | ret pc =>
    have hzero := h.past k (by simp [pc, Pc.Past])
    apply h.move (by simp [pc, Pc.Building]) id (fun _ => hzero) _ s.owner
    intro p hp
    cases hp
    exact ⟨hzero, hzero⟩

theorem exclusive_single (hI : I.Meets Good Done) :
    Preserved (Exclusive I mutexOf) (Single I Good Done) := by
  rintro s t ⟨-, k, hstep, hexcl⟩ h
  exact h.call hI hstep hexcl

/-- One object, in every run in which no call finds nothing while another is
about to store. -/
theorem reachable_single (hI : I.Meets Good Done)
    (h : Reachable (Exclusive I mutexOf) (initial I) s) : Single I Good Done s :=
  (exclusive_single hI).reachable h initial_single

end

end

/-! ## One mutex -/

/-- A call has taken its mutex. -/
def Pc.Inside : Pc ρ → Prop
  | .recheck | .construct | .callInit | .init _ _ | .unlock => True
  | _ => False

def Locked (s : State κ μ ι ρ) : Prop := ∀ k, (s.pc k).Inside → s.owner (mutexOf k) = some k

section
variable {I mutexOf} {s t : State κ μ ι ρ}

/-- With one mutex only one call is inside. -/
theorem Locked.alone (h : Locked mutexOf s) (hone : ∀ j k, mutexOf j = mutexOf k) {j k : κ}
    (hj : (s.pc j).Inside) (hk : (s.pc k).Inside) : j = k := by
  have hown := h j hj
  rw [hone j k, h k hk] at hown
  exact (Option.some.inj hown).symm

/-- A call that is inside, or outside, stays so. -/
theorem Locked.move [DecidableEq κ] (h : Locked mutexOf s) {k : κ} {pc : Pc ρ}
    (hpc : pc.Inside → (s.pc k).Inside) (hown : t.owner = s.owner)
    (ht : t.pc = Function.update s.pc k pc) : Locked mutexOf t := by
  intro j hj
  rw [hown]
  apply h
  by_cases hjk : j = k
  · subst j
    rw [ht, Function.update_self] at hj
    exact hpc hj
  · rwa [ht, Function.update_of_ne hjk] at hj

variable [DecidableEq κ] [DecidableEq μ]

theorem Locked.call (h : Locked mutexOf s) {k : κ} (hstep : Call I mutexOf k s t) :
    Locked mutexOf t := by
  cases hstep with
  | lock pc free =>
    intro j hj
    by_cases hjk : j = k
    · subst j
      exact Function.update_self _ _ _
    · have hin : (s.pc j).Inside := by simpa [State.setPc, hjk] using hj
      have hown := h j hin
      have hne : mutexOf j ≠ mutexOf k := by
        intro heq
        rw [heq, free] at hown
        cases hown
      exact (Function.update_of_ne hne _ _).trans hown
  | unlock pc =>
    intro j hj
    have hjk : j ≠ k := by
      rintro rfl
      simp [State.setPc, Pc.Inside] at hj
    have hin : (s.pc j).Inside := by simpa [State.setPc, hjk] using hj
    have hown := h j hin
    have hne : mutexOf j ≠ mutexOf k := by
      intro heq
      have hself := h k (by simp [pc, Pc.Inside])
      rw [heq, hself] at hown
      exact hjk (Option.some.inj hown).symm
    exact (Function.update_of_ne hne _ _).trans hown
  | exit o a pc exits => exact h
  | checkNull pc null => exact h.move (by simp [Pc.Inside]) rfl rfl
  | checkSet pc set => exact h.move (by simp [Pc.Inside]) rfl rfl
  | recheckNull pc null => exact h.move (by simp [pc, Pc.Inside]) rfl rfl
  | recheckSet pc set => exact h.move (by simp [pc, Pc.Inside]) rfl rfl
  | construct pc => exact h.move (by simp [pc, Pc.Inside]) rfl rfl
  | callInit o pc set => exact h.move (by simp [pc, Pc.Inside]) rfl rfl
  | init o a b x pc step => exact h.move (by simp [pc, Pc.Inside]) rfl rfl
  | initDone o a x pc step => exact h.move (by simp [pc, Pc.Inside]) rfl rfl
  | ret pc => exact h.move (by simp [Pc.Inside]) rfl rfl

/-- With one mutex every step is exclusive. -/
theorem Locked.exclusive (h : Locked mutexOf s) (hone : ∀ j k, mutexOf j = mutexOf k)
    (hstep : Step I mutexOf s t) : Exclusive I mutexOf s t := by
  obtain ⟨hrun, k, hcall⟩ := hstep
  refine ⟨hrun, k, hcall, fun hk _ j hj => ?_⟩
  have hsame := h.alone hone (j := j) (k := k) (by simp [hj, Pc.Inside]) (by simp [hk, Pc.Inside])
  rw [hsame, hk] at hj
  cases hj

/-- With one mutex there is one object in every run. -/
theorem reachable_single_of_one {Good : ρ → ι → Prop} {Done : ι → Prop}
    (hone : ∀ j k, mutexOf j = mutexOf k) (hI : I.Meets Good Done)
    (h : Reachable (Step I mutexOf) (initial I) s) : Single I Good Done s := by
  have hpres : Preserved (Step I mutexOf) fun s : State κ μ ι ρ =>
      Single I Good Done s ∧ Locked mutexOf s := by
    rintro s t hstep ⟨hsingle, hlocked⟩
    refine ⟨exclusive_single hI (hlocked.exclusive hone hstep) hsingle, ?_⟩
    obtain ⟨-, k, hcall⟩ := hstep
    exact hlocked.call hcall
  have hlocked : Locked mutexOf (initial I : State κ μ ι ρ) := by
    intro k hk
    exact hk.elim
  exact (hpres.reachable h ⟨initial_single, hlocked⟩).1

end

/-! ## Ready objects -/

/-- A call is about to hand out what it has found, or has done so. -/
def Pc.Serves : Pc ρ → Prop
  | .unlock | .read | .returned _ => True
  | _ => False

/-- A step in which no first check finds an object that is not done. -/
def SeesDone [DecidableEq κ] [DecidableEq μ] (Done : ι → Prop) (s t : State κ μ ι ρ) : Prop :=
  s.exited = false ∧ ∃ k, Call I mutexOf k s t ∧
    (s.pc k = .check → ∀ o, s.pointer = some o → Done (s.object o))

def Served (Done : ι → Prop) (s : State κ μ ι ρ) : Prop :=
  ∀ k, (s.pc k).Serves → Done (s.object 0)

section
variable {I mutexOf} {Good : ρ → ι → Prop} {Done : ι → Prop} {s t : State κ μ ι ρ}

theorem Served.move [DecidableEq κ] (h : Served Done s) {k : κ} (pc : Pc ρ)
    (hk : pc.Serves → Done (s.object 0)) (hobject : t.object = s.object) (ht : t.pc = Function.update s.pc k pc) : Served Done t := by
  intro j hj
  rw [hobject]
  by_cases hjk : j = k
  · subst j
    rw [ht, Function.update_self] at hj
    exact hk hj
  · rw [ht, Function.update_of_ne hjk] at hj
    exact h j hj

theorem Single.serves (h : Single I Good Done s) {k : κ} (hk : (s.pc k).Serves) :
    s.pointer = some 0 := by
  cases hpc : s.pc k with
  | unlock | read => exact h.past k (by rw [hpc]; trivial)
  | returned p => exact (h.returned k p hpc).2
  | _ =>
    rw [hpc] at hk
    exact hk.elim

theorem Served.call [DecidableEq κ] [DecidableEq μ] (hsingle : Single I Good Done s)
    (hlocked : Locked mutexOf s) (hone : ∀ j k, mutexOf j = mutexOf k) (hI : I.Meets Good Done)
    (hunfinished : ∀ a x, Good a x → ¬ Done x) (h : Served Done s) {k : κ}
    (hstep : Call I mutexOf k s t)
    (hready : s.pc k = .check → ∀ o, s.pointer = some o → Done (s.object o)) :
    Served Done t := by
  cases hstep with
  | checkNull pc null => exact h.move .lock (by simp [Pc.Serves]) rfl rfl
  | checkSet pc set =>
    exact h.move .read (fun _ => hready pc 0 (hsingle.pointer_zero set)) rfl rfl
  | lock pc free => exact h.move .recheck (by simp [Pc.Serves]) rfl rfl
  | recheckNull pc null => exact h.move .construct (by simp [Pc.Serves]) rfl rfl
  | recheckSet pc set =>
    refine h.move .unlock (fun _ => hsingle.done (hsingle.pointer_zero set) ?_) rfl rfl
    -- who builds is inside, and so is the call that has just checked
    intro j hj
    have hin : (s.pc j).Inside := by
      cases hq : s.pc j <;> simp_all [Pc.Building, Pc.Inside]
    have hsame := hlocked.alone hone hin (k := k) (by simp [pc, Pc.Inside])
    rw [hsame, pc] at hj
    exact hj
  | construct pc =>
    intro j hj
    have hjk : j ≠ k := by
      rintro rfl
      simp [State.setPc, Pc.Serves] at hj
    have hserves : (s.pc j).Serves := by simpa [State.setPc, hjk] using hj
    have hnone := (hsingle.construct k pc).symm.trans (hsingle.serves hserves)
    cases hnone
  | callInit o pc set => exact h.move (.init o I.start) (by simp [Pc.Serves]) rfl rfl
  | init o a b x pc step =>
    intro j hj
    have hjk : j ≠ k := by
      rintro rfl
      simp [State.setPc, Pc.Serves] at hj
    have hserves : (s.pc j).Serves := by simpa [State.setPc, hjk] using hj
    exact absurd (h j hserves) (hunfinished a _ (hsingle.init k o a pc).2)
  | initDone o a x pc step =>
    intro j _
    obtain ⟨rfl, hgood⟩ := hsingle.init k o a pc
    change Done (Function.update s.object 0 x 0)
    rw [Function.update_self]
    exact hI.done a _ x hgood step
  | exit o a pc exits => exact h
  | unlock pc => exact h.move .read (fun _ => h k (by simp [pc, Pc.Serves])) rfl rfl
  | ret pc => exact h.move (.returned s.pointer) (fun _ => h k (by simp [pc, Pc.Serves])) rfl rfl

/-- With one mutex there is one object, and it is handed out done, in every run
in which no first check finds it before. -/
theorem reachable_served [DecidableEq κ] [DecidableEq μ] (hone : ∀ j k, mutexOf j = mutexOf k)
    (hI : I.Meets Good Done) (hunfinished : ∀ a x, Good a x → ¬ Done x)
    (h : Reachable (SeesDone I mutexOf Done) (initial I) s) :
    Single I Good Done s ∧ Served Done s := by
  have hpres : Preserved (SeesDone I mutexOf Done) fun s : State κ μ ι ρ =>
      Single I Good Done s ∧ Locked mutexOf s ∧ Served Done s := by
    rintro s t ⟨hrun, k, hcall, hready⟩ ⟨hsingle, hlocked, hserved⟩
    have hexcl := hlocked.exclusive hone ⟨hrun, k, hcall⟩
    exact ⟨exclusive_single hI hexcl hsingle, hlocked.call hcall,
      hserved.call hsingle hlocked hone hI hunfinished hcall hready⟩
  have hlocked : Locked mutexOf (initial I : State κ μ ι ρ) := by
    intro k hk
    exact hk.elim
  have hserved : Served Done (initial I : State κ μ ι ρ) := by
    intro k hk
    exact hk.elim
  obtain ⟨hsingle, -, hend⟩ := hpres.reachable h ⟨initial_single, hlocked, hserved⟩
  exact ⟨hsingle, hend⟩

end

end Lib.Once

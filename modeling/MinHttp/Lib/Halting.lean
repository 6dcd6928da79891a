import Mathlib.Order.Lattice.Nat
import MinHttp.Lib.Runs

/-! Runs that come to an end: a rank that every step lowers bounds the length
of a run, and a run that cannot go on has reached a final state. -/
namespace Lib.Halting

open Lib.Runs

variable {σ : Type*} {step : σ → σ → Prop} {I : σ → Prop} {rank : σ → Nat}

/-- A run of `n` steps. -/
inductive Steps (step : σ → σ → Prop) : Nat → σ → σ → Prop
  | refl (s : σ) : Steps step 0 s s
  | next {n : Nat} {s t u : σ} (run : Steps step n s t) (last : step t u) : Steps step (n + 1) s u

theorem Steps.reachable {n : Nat} {s t : σ} (h : Steps step n s t) : Reachable step s t := by
  induction h with
  | refl s => exact Reachable.start
  | next _ last ih => exact ih.next last

/-- A run under `f` is a run of the same length, if each step is a step. -/
theorem Steps.map {τ : Type*} {step' : τ → τ → Prop} {f : σ → τ} (hI : Preserved step I)
    (hf : ∀ ⦃s t⦄, step s t → I s → step' (f s) (f t)) {n : Nat} {s t : σ} (h : Steps step n s t)
    (hs : I s) : Steps step' n (f s) (f t) := by
  induction h with
  | refl s => exact .refl (f s)
  | next run last ih => exact .next (ih hs) (hf last (hI.reachable run.reachable hs))

/-- No step leaves a final state. -/
def Final (step : σ → σ → Prop) (s : σ) : Prop := ∀ t, ¬ step s t

/-- While `I` holds it keeps holding, and every step lowers the rank. -/
structure Ranked (step : σ → σ → Prop) (I : σ → Prop) (rank : σ → Nat) : Prop where
  keeps : Preserved step I
  lowers : ∀ ⦃s t⦄, step s t → I s → rank t < rank s

/-- Fewer steps lower the rank as well. -/
theorem Ranked.mono {step' : σ → σ → Prop} (h : Ranked step I rank)
    (hsub : ∀ s t, step' s t → step s t) : Ranked step' I rank :=
  ⟨fun _ _ hstep => h.keeps (hsub _ _ hstep), fun _ _ hstep => h.lowers (hsub _ _ hstep)⟩

/-- A run is no longer than the rank it starts from. -/
theorem Ranked.steps_le (h : Ranked step I rank) {n : Nat} {s t : σ} (hr : Steps step n s t)
    (hs : I s) : n + rank t ≤ rank s := by
  induction hr with
  | refl s => exact Nat.le_of_eq (Nat.zero_add _)
  | next run last ih =>
    have hbound := ih hs
    have hlower := h.lowers last (h.keeps.reachable run.reachable hs)
    omega

theorem Ranked.bounded (h : Ranked step I rank) {s : σ} (hs : I s) (n : Nat) (t : σ)
    (hr : Steps step n s t) : n ≤ rank s :=
  (Nat.le_add_right n (rank t)).trans (h.steps_le hr hs)

/-- A step of the one kind or of the other. -/
def Either (step other : σ → σ → Prop) (s t : σ) : Prop := step s t ∨ other s t

theorem Either.preserved {other : σ → σ → Prop} (h : Preserved step I)
    (h' : Preserved other I) : Preserved (Either step other) I :=
  fun _ _ hstep => hstep.elim (@h _ _) (@h' _ _)

theorem Either.mono {step' other' : σ → σ → Prop} {other : σ → σ → Prop} {s t : σ}
    (h : Either step other s t) (hstep : step s t → step' s t) (hother : other s t → other' s t) :
    Either step' other' s t := h.imp hstep hother

/-- A run of `n` steps, with `k` of another kind between them. -/
inductive Mixed (step other : σ → σ → Prop) : Nat → Nat → σ → σ → Prop
  | refl (s : σ) : Mixed step other 0 0 s s
  | step {n k : Nat} {s t u : σ} (run : Mixed step other n k s t) (last : step t u) :
      Mixed step other (n + 1) k s u
  | other {n k : Nat} {s t u : σ} (run : Mixed step other n k s t) (last : other t u) :
      Mixed step other n (k + 1) s u

theorem Mixed.reachable {other : σ → σ → Prop} {n k : Nat} {s t : σ}
    (h : Mixed step other n k s t) : Reachable (Either step other) s t := by
  induction h with
  | refl s => exact Reachable.start
  | step _ last ih => exact ih.next (Or.inl last)
  | other _ last ih => exact ih.next (Or.inr last)

/-- Each of the other steps keeps `I` as well, and gives back `c` steps at most. -/
structure Raised (other : σ → σ → Prop) (I : σ → Prop) (rank : σ → Nat) (c : Nat) : Prop where
  keeps : Preserved other I
  raises : ∀ ⦃s t⦄, other s t → I s → rank t ≤ rank s + c

/-- The other steps make a run longer by no more than they give back. -/
theorem Ranked.mixed_le {other : σ → σ → Prop} {c : Nat} (h : Ranked step I rank)
    (h' : Raised other I rank c) {n k : Nat} {s t : σ} (hr : Mixed step other n k s t)
    (hs : I s) : n + rank t ≤ rank s + c * k := by
  induction hr with
  | refl s => omega
  | step run last ih =>
    have hbound := ih hs
    have hlower := h.lowers last ((Either.preserved h.keeps h'.keeps).reachable run.reachable hs)
    omega
  | other run last ih =>
    have hbound := ih hs
    have hraise := h'.raises last ((Either.preserved h.keeps h'.keeps).reachable run.reachable hs)
    rw [Nat.mul_succ]
    omega

theorem Ranked.mixed {other : σ → σ → Prop} {c : Nat} (h : Ranked step I rank)
    (h' : Raised other I rank c) {s : σ} (hs : I s) (n k : Nat) (t : σ)
    (hr : Mixed step other n k s t) : n ≤ rank s + c * k :=
  (Nat.le_add_right n (rank t)).trans (h.mixed_le h' hr hs)

/-- Of two ranks the first, counted `k` times, makes up for less than `k` more of
the second. -/
theorem weighted_lt {k m m' n n' : Nat} (hm : m' < m) (hn : n' < n + k) :
    m' * k + n' < m * k + n := by
  have hmul := Nat.mul_le_mul_right k (Nat.succ_le_of_lt hm)
  rw [Nat.succ_mul] at hmul
  omega

/-- Any run can be continued to its end. -/
theorem Ranked.exists_final (h : Ranked step I rank) {s : σ} (hs : I s) :
    ∃ t, Reachable step s t ∧ Final step t := by
  generalize hk : rank s = k
  induction k using Nat.strongRecOn generalizing s with
  | ind k ih =>
    by_cases hmore : ∃ u, step s u
    · obtain ⟨u, hu⟩ := hmore
      have hlower := h.lowers hu hs
      obtain ⟨t, ht, hend⟩ := ih (rank u) (hk ▸ hlower) (h.keeps hu hs) rfl
      exact ⟨t, (Reachable.start.next hu).trans ht, hend⟩
    · exact ⟨s, Reachable.start, fun u hu => hmore ⟨u, hu⟩⟩

theorem exists_steps {s t : σ} (h : Reachable step s t) : ∃ n, Steps step n s t := by
  induction h with
  | refl => exact ⟨0, .refl s⟩
  | tail _ last ih =>
    obtain ⟨n, hn⟩ := ih
    exact ⟨n + 1, .next hn last⟩

/-- Where no run from a state is longer than a bound, the longest way to a state
ranks it. -/
theorem exists_ranked {s : σ} {most : Nat} (h : ∀ n t, Steps step n s t → n ≤ most) :
    ∃ rank : σ → Nat, Ranked step (Reachable step s) rank := by
  have hbounded (t : σ) : BddAbove {n | Steps step n s t} := ⟨most, fun n hn => h n t hn⟩
  refine ⟨fun t => most - sSup {n | Steps step n s t}, fun _ _ hstep ht => ht.next hstep, ?_⟩
  intro t u hstep ht
  have hlongest : Steps step (sSup {n | Steps step n s t}) s t :=
    Nat.sSup_mem (exists_steps ht) (hbounded t)
  have hlonger : sSup {n | Steps step n s t} + 1 ≤ sSup {n | Steps step n s u} :=
    le_csSup (hbounded u) (.next hlongest hstep)
  have hmost : sSup {n | Steps step n s t} + 1 ≤ most := h _ u (.next hlongest hstep)
  omega

end Lib.Halting

import Mathlib.Logic.Relation

/-! Runs of a transition relation: invariants are proved once per step, and
one system follows another by answering each of its steps. -/
namespace Lib.Runs

open Relation (ReflTransGen)

variable {σ τ : Type*}

/-- A predicate no step leaves. -/
def Preserved (step : σ → σ → Prop) (I : σ → Prop) : Prop :=
  ∀ ⦃s t⦄, step s t → I s → I t

/-- States reached from `start` by any number of steps. -/
def Reachable (step : σ → σ → Prop) (start : σ) : σ → Prop := ReflTransGen step start

theorem Reachable.start {step : σ → σ → Prop} {a : σ} : Reachable step a a := ReflTransGen.refl

theorem Reachable.next {step : σ → σ → Prop} {a s t : σ} (h : Reachable step a s)
    (hs : step s t) : Reachable step a t := ReflTransGen.tail h hs

theorem Reachable.trans {step : σ → σ → Prop} {a s t : σ} (h : Reachable step a s)
    (h' : Reachable step s t) : Reachable step a t := ReflTransGen.trans h h'

/-- An invariant of every step that holds at the start holds all along a run. -/
theorem Preserved.reachable {step : σ → σ → Prop} {I : σ → Prop} (hp : Preserved step I)
    {a s : σ} (h : Reachable step a s) (ha : I a) : I s := by
  induction h with
  | refl => exact ha
  | tail _ hs ih => exact hp hs ih

/-- A stronger relation reaches no more states. -/
theorem Reachable.mono {step step' : σ → σ → Prop} (hsub : ∀ s t, step s t → step' s t)
    {a s : σ} (h : Reachable step a s) : Reachable step' a s :=
  ReflTransGen.mono (fun s t => hsub s t) _ _ h

/-- `R` answers each concrete step by zero or more abstract ones. -/
def Simulates (step : σ → σ → Prop) (astep : τ → τ → Prop) (R : σ → τ → Prop) : Prop :=
  ∀ ⦃s t a⦄, step s t → R s a → ∃ b, Reachable astep a b ∧ R t b

/-- Every concrete run is matched by an abstract run ending in a related state. -/
theorem Simulates.reachable {step : σ → σ → Prop} {astep : τ → τ → Prop} {R : σ → τ → Prop}
    (hsim : Simulates step astep R) {s₀ s : σ} {a₀ : τ} (h : Reachable step s₀ s)
    (h₀ : R s₀ a₀) : ∃ a, Reachable astep a₀ a ∧ R s a := by
  induction h with
  | refl => exact ⟨a₀, Reachable.start, h₀⟩
  | tail _ hs ih =>
    obtain ⟨a, ha, hR⟩ := ih
    obtain ⟨b, hb, hR'⟩ := hsim hs hR
    exact ⟨b, ha.trans hb, hR'⟩

/-- A run seen through `f` is a run, if each step is a step there or is not seen. -/
theorem Reachable.project {step : σ → σ → Prop} {astep : τ → τ → Prop} {I : σ → Prop} {f : σ → τ}
    (hI : Preserved step I) (hf : ∀ ⦃s t⦄, step s t → I s → f t = f s ∨ astep (f s) (f t))
    {a s : σ} (h : Reachable step a s) (ha : I a) : Reachable astep (f a) (f s) := by
  induction h with
  | refl => exact Reachable.start
  | tail run last ih =>
    rcases hf last (hI.reachable run ha) with hsame | hstep
    · rwa [hsame]
    · exact ih.next hstep

end Lib.Runs

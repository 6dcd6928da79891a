import Mathlib.Algebra.BigOperators.Group.Finset.Piecewise
import Mathlib.Algebra.Order.BigOperators.Group.Finset
import Mathlib.Data.Fintype.BigOperators

/-! How many of finitely many agents are in a state of a kind, and how that
changes when one of them moves, or all do. -/
namespace Lib.Count

variable {α σ : Type*} [Fintype α]

/-- One agent moves, and what all of them have together changes by what it
has. -/
theorem sum_moved {M : Type*} [AddCommMonoid M] [DecidableEq α] {f g : α → M} (a : α)
    (h : ∀ b, b ≠ a → g b = f b) : ∑ b, g b + f a = ∑ b, f b + g a := by
  have hothers : ∑ b ∈ Finset.univ.erase a, g b = ∑ b ∈ Finset.univ.erase a, f b :=
    Finset.sum_congr rfl fun b hb => h b (Finset.ne_of_mem_erase hb)
  rw [← Finset.sum_erase_add _ g (Finset.mem_univ a), hothers,
    ← Finset.sum_erase_add _ f (Finset.mem_univ a), add_right_comm]

theorem sum_update {M : Type*} [AddCommMonoid M] [DecidableEq α] (g : σ → M) (f : α → σ) (a : α)
    (v : σ) : ∑ b, g (Function.update f a v b) + g (f a) = ∑ b, g (f b) + g v := by
  have hmoved := sum_moved (f := fun b => g (f b)) (g := fun b => g (Function.update f a v b)) a
    fun b hb => by rw [Function.update_of_ne hb]
  rwa [Function.update_self] at hmoved

def count (p : σ → Bool) (f : α → σ) : Nat := ∑ a, (p (f a)).toNat

theorem count_update [DecidableEq α] (p : σ → Bool) (f : α → σ) (a : α) (v : σ) :
    count p (Function.update f a v) + (p (f a)).toNat = count p f + (p v).toNat :=
  sum_update (fun x => (p x).toNat) f a v

/-- Where every agent of one kind becomes one of another. -/
theorem count_le {p q : σ → Bool} {f g : α → σ} (h : ∀ a, p (f a) = true → q (g a) = true) :
    count p f ≤ count q g := by
  apply Finset.sum_le_sum
  intro a _
  cases hf : p (f a) with
  | false => exact Nat.zero_le _
  | true => rw [h a hf]

theorem count_pos_iff {p : σ → Bool} {f : α → σ} : 0 < count p f ↔ ∃ a, p (f a) = true := by
  rw [Nat.pos_iff_ne_zero, count, ne_eq, Finset.sum_eq_zero_iff]
  simp

/-- Where one agent enters the kind and none leaves it, the count goes up. -/
theorem count_lt {p : σ → Bool} {f g : α → σ} (h : ∀ a, p (f a) = true → p (g a) = true)
    {a : α} (hf : p (f a) = false) (hg : p (g a) = true) : count p f < count p g := by
  apply Finset.sum_lt_sum
  · intro b _
    cases hb : p (f b) with
    | false => exact Nat.zero_le _
    | true => rw [h b hb]
  · refine ⟨a, Finset.mem_univ a, ?_⟩
    rw [hf, hg]
    exact Nat.one_pos

end Lib.Count

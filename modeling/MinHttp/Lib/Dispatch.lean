import MinHttp.Lib.Runs
import Mathlib.Algebra.BigOperators.Group.Finset.Basic
import Mathlib.Algebra.BigOperators.Group.Finset.Piecewise
import Mathlib.Data.Fintype.Basic
import Mathlib.Data.List.Basic
import Mathlib.Logic.Function.Basic

/-! A dispatcher: tasks come in at the back of a queue and leave it from the
front, each into the hands of one agent, which finishes it before it takes
another. The histories say who took and finished what. -/
namespace Lib.Dispatch

open Lib.Runs

variable {α τ : Type*}

structure State (α τ : Type*) where
  queue : List τ
  held : α → Option τ
  submitted : List τ
  taken : List (α × τ)
  finished : List (α × τ)

def initial : State α τ := ⟨[], fun _ => none, [], [], []⟩

section
variable [DecidableEq α]

inductive Step : State α τ → State α τ → Prop
  | submit (s : State α τ) (t : τ) :
      Step s { s with queue := s.queue ++ [t], submitted := s.submitted ++ [t] }
  | take (s : State α τ) (a : α) (t : τ) (rest : List τ) (free : s.held a = none)
      (next : s.queue = t :: rest) :
      Step s { s with
        queue := rest
        held := Function.update s.held a (some t)
        taken := s.taken ++ [(a, t)] }
  | finish (s : State α τ) (a : α) (t : τ) (busy : s.held a = some t) :
      Step s { s with
        held := Function.update s.held a none
        finished := s.finished ++ [(a, t)] }

/-- The tasks of one agent in a history. -/
def of (a : α) (history : List (α × τ)) : List τ :=
  (history.filter fun e => e.1 = a).map Prod.snd

theorem of_concat (a b : α) (t : τ) (history : List (α × τ)) :
    of a (history ++ [(b, t)]) = of a history ++ if b = a then [t] else [] := by
  by_cases h : b = a <;> simp [of, List.filter_append, h]

/-- Nothing is lost, doubled or passed over, and an agent has finished all it
took but what it holds. -/
structure Valid (s : State α τ) : Prop where
  order : s.submitted = s.taken.map Prod.snd ++ s.queue
  hands : ∀ a, of a s.taken = of a s.finished ++ (s.held a).toList

theorem initial_valid : Valid (initial : State α τ) := ⟨rfl, fun _ => rfl⟩

theorem step_valid : Preserved (Step (α := α) (τ := τ)) Valid := by
  intro s s' h valid
  obtain ⟨order, hands⟩ := valid
  cases h with
  | submit t => exact ⟨by simp [order], hands⟩
  | take a t rest free next =>
    refine ⟨by simp [order, next], fun b => ?_⟩
    have hb := hands b
    by_cases hab : b = a
    · subst b
      simpa [of_concat, free] using hb
    · simpa [of_concat, Ne.symm hab, hab] using hb
  | finish a t busy =>
    refine ⟨order, fun b => ?_⟩
    have hb := hands b
    by_cases hab : b = a
    · subst b
      simpa [of_concat, busy] using hb
    · simpa [of_concat, Ne.symm hab, hab] using hb

theorem reachable_valid {s : State α τ} (h : Reachable Step initial s) : Valid s :=
  step_valid.reachable h initial_valid

/-- The histories of the agents make up the whole. -/
theorem countP_of [Fintype α] (p : τ → Bool) (history : List (α × τ)) :
    ∑ a, (of a history).countP p = (history.map Prod.snd).countP p := by
  induction history with
  | nil => simp [of]
  | cons e history ih =>
    have hcons (a : α) : (of a (e :: history)).countP p =
        (of a history).countP p + if a = e.1 then (p e.2).toNat else 0 := by
      by_cases ha : a = e.1
      · subst a
        cases hp : p e.2 <;> simp [of, hp]
      · simp [of, ha, Ne.symm ha]
    rw [Finset.sum_congr rfl fun a _ => hcons a, Finset.sum_add_distrib, ih,
      Finset.sum_ite_eq' Finset.univ e.1, if_pos (Finset.mem_univ _)]
    cases hp : p e.2 <;> simp [hp]

/-- What has been taken and not finished is held. -/
theorem Valid.taken_count [Fintype α] {s : State α τ} (h : Valid s) (p : τ → Bool) :
    (s.taken.map Prod.snd).countP p =
      (s.finished.map Prod.snd).countP p + ∑ a, (s.held a).toList.countP p := by
  rw [← countP_of p s.taken, ← countP_of p s.finished, ← Finset.sum_add_distrib]
  refine Finset.sum_congr rfl fun a _ => ?_
  rw [h.hands a, List.countP_append]

end

end Lib.Dispatch

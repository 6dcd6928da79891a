import Mathlib.Data.Finset.Basic
import Mathlib.Data.Finset.Insert
import Mathlib.Data.Finset.SDiff
import Mathlib.Data.Finset.Dedup

/-! Logs of resources taken and given back. A log is balanced if it leaves
what was held as it found it, whenever each resource it takes is a free one. -/
namespace Lib.Balance

inductive Change (α : Type*)
  | acquire (a : α)
  | release (a : α)
  deriving DecidableEq, Repr

variable {α : Type*} [DecidableEq α]

def Change.apply (held : Finset α) : Change α → Finset α
  | .acquire a => insert a held
  | .release a => held.erase a

/-- What is held behind a log. -/
def after (held : Finset α) (log : List (Change α)) : Finset α := log.foldl Change.apply held

/-- Only what is not held is acquired. -/
def Fresh : Finset α → List (Change α) → Prop
  | _, [] => True
  | held, .acquire a :: log => a ∉ held ∧ Fresh (insert a held) log
  | held, .release a :: log => Fresh (held.erase a) log

instance decidableFresh : (held : Finset α) → (log : List (Change α)) → Decidable (Fresh held log)
  | _, [] => .isTrue trivial
  | held, .acquire a :: log =>
    haveI := decidableFresh (insert a held) log
    inferInstanceAs (Decidable (a ∉ held ∧ Fresh (insert a held) log))
  | held, .release a :: log => decidableFresh (held.erase a) log

def Balanced (log : List (Change α)) : Prop := ∀ held, Fresh held log → after held log = held

@[simp] theorem after_nil (held : Finset α) : after held [] = held := rfl

theorem after_append (held : Finset α) (a b : List (Change α)) :
    after held (a ++ b) = after (after held a) b := List.foldl_append

theorem fresh_append (held : Finset α) (a b : List (Change α)) :
    Fresh held (a ++ b) ↔ Fresh held a ∧ Fresh (after held a) b := by
  induction a generalizing held with
  | nil => simp [Fresh]
  | cons e a ih =>
    cases e with
    | acquire x =>
      rw [List.cons_append, Fresh, ih, Fresh, and_assoc]
      rfl
    | release x =>
      rw [List.cons_append, Fresh, ih, Fresh]
      rfl

theorem balanced_nil : Balanced ([] : List (Change α)) := fun _ _ => rfl

theorem Balanced.append {a b : List (Change α)} (ha : Balanced a) (hb : Balanced b) :
    Balanced (a ++ b) := by
  intro held h
  obtain ⟨hfa, hfb⟩ := (fresh_append held a b).mp h
  rw [after_append, hb _ hfb, ha held hfa]

theorem after_acquire (held : Finset α) (l : List α) :
    after held (l.map .acquire) = held ∪ l.toFinset := by
  induction l generalizing held with
  | nil => simp
  | cons a l ih =>
    rw [List.map_cons, after, List.foldl_cons, ← after, ih, Change.apply, List.toFinset_cons]
    ext x
    simp only [Finset.mem_union, Finset.mem_insert]
    tauto

theorem after_release (held : Finset α) (l : List α) :
    after held (l.map .release) = held \ l.toFinset := by
  induction l generalizing held with
  | nil => simp
  | cons a l ih =>
    rw [List.map_cons, after, List.foldl_cons, ← after, ih, Change.apply, List.toFinset_cons]
    ext x
    simp only [Finset.mem_sdiff, Finset.mem_erase, Finset.mem_insert, not_or]
    tauto

theorem fresh_acquire {held : Finset α} {l : List α} (h : Fresh held (l.map .acquire)) :
    ∀ a ∈ l, a ∉ held := by
  induction l generalizing held with
  | nil => simp
  | cons a l ih =>
    obtain ⟨ha, hl⟩ := h
    intro b hb
    rcases List.mem_cons.mp hb with rfl | hb
    · exact ha
    · intro hheld
      exact ih hl b hb (Finset.mem_insert_of_mem hheld)

/-- What is acquired and then released, in whatever order. -/
theorem balanced_of_perm {l l' : List α} (h : l.Perm l') :
    Balanced (l.map .acquire ++ l'.map .release) := by
  intro held hfresh
  have hnew := fresh_acquire ((fresh_append held _ _).mp hfresh).1
  rw [after_append, after_acquire, after_release, ← List.toFinset_eq_of_perm l l' h]
  ext x
  simp only [Finset.mem_sdiff, Finset.mem_union, List.mem_toFinset]
  constructor
  · tauto
  · intro hx
    exact ⟨Or.inl hx, fun hl => hnew x hl hx⟩

/-- What is acquired and not released is still held at the end. -/
theorem after_ne_of_acquired {held : Finset α} {l : List α} (hl : l ≠ []) {log : List (Change α)}
    (hlog : Balanced log) (h : Fresh held (l.map .acquire ++ log)) :
    ∃ a ∈ l, a ∉ held ∧ a ∈ after held (l.map .acquire ++ log) := by
  obtain ⟨hfresh, hrest⟩ := (fresh_append held _ _).mp h
  obtain ⟨a, ha⟩ := List.exists_mem_of_ne_nil l hl
  refine ⟨a, ha, fresh_acquire hfresh a ha, ?_⟩
  rw [after_append, hlog _ hrest, after_acquire]
  exact Finset.mem_union_right _ (List.mem_toFinset.mpr ha)

end Lib.Balance

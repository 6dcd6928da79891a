import Mathlib.Algebra.BigOperators.Group.Finset.Basic
import MinHttp.Lib.Balance

/-! One table with several owners. However their logs are interleaved, an owner
has what its own log leaves it, as long as each releases only what it has. -/
namespace Lib.Shares

open Lib.Balance

variable {ι α : Type*}

section
variable [DecidableEq ι] {i : ι} {e : Change α} {log : List (ι × Change α)} {own : ι → Finset α}

/-- The part of a common log that one owner has made. -/
def projection (i : ι) (log : List (ι × Change α)) : List (Change α) :=
  (log.filter fun e => e.1 = i).map Prod.snd

theorem projection_self : projection i ((i, e) :: log) = e :: projection i log := by
  simp [projection]

theorem projection_other {j : ι} (h : j ≠ i) : projection j ((i, e) :: log) = projection j log := by
  simp [projection, h.symm]

/-- What every owner goes on with after a change. -/
theorem forall_update {p : ι → Finset α → List (Change α) → Prop} {s : Finset α}
    (hi : p i s (projection i log))
    (h : ∀ j, j ≠ i → p j (own j) (projection j ((i, e) :: log))) (j : ι) :
    p j (Function.update own i s j) (projection j log) := by
  by_cases hj : j = i
  · subst hj
    rwa [Function.update_self]
  · rw [Function.update_of_ne hj, ← projection_other (e := e) hj]
    exact h j hj

end

variable [DecidableEq α]

/-- As long as it acquires what it does not have, it releases what it has. -/
def Careful : Finset α → List (Change α) → Prop
  | _, [] => True
  | own, .acquire a :: log => a ∉ own → Careful (insert a own) log
  | own, .release a :: log => a ∈ own ∧ Careful (own.erase a) log

/-- A log that leaves its owner with `n` more than it had. -/
structure Keeps (n : Nat) (log : List (Change α)) : Prop where
  careful : ∀ own, Careful own log
  subset : ∀ own, Fresh own log → own ⊆ after own log
  card : ∀ own, Fresh own log → (after own log).card = own.card + n

theorem careful_append (own : Finset α) (a b : List (Change α)) :
    Careful own (a ++ b) ↔ Careful own a ∧ (Fresh own a → Careful (after own a) b) := by
  induction a generalizing own with
  | nil => simp [Careful, Fresh]
  | cons e a ih =>
    cases e with
    | acquire x =>
      simp only [List.cons_append, Careful, ih, Fresh, and_imp]
      constructor
      · intro h
        exact ⟨fun hx => (h hx).1, fun hx => (h hx).2⟩
      · rintro ⟨ha, hb⟩ hx
        exact ⟨ha hx, hb hx⟩
    | release x =>
      simp only [List.cons_append, Careful, ih, Fresh, and_assoc]
      rfl

theorem Careful.begins {own : Finset α} {a b : List (Change α)} (h : Careful own b)
    (hab : a <+: b) : Careful own a := by
  obtain ⟨c, rfl⟩ := hab
  exact ((careful_append own a c).mp h).1

theorem keeps_nil : Keeps 0 ([] : List (Change α)) :=
  ⟨fun _ => trivial, fun own _ => Finset.Subset.refl own, fun _ _ => rfl⟩

theorem Keeps.append {m n : Nat} {a b : List (Change α)} (ha : Keeps m a) (hb : Keeps n b) :
    Keeps (m + n) (a ++ b) := by
  refine ⟨fun own => (careful_append own a b).mpr ⟨ha.careful own, fun _ => hb.careful _⟩,
    fun own h => ?_, fun own h => ?_⟩
  · obtain ⟨hfa, hfb⟩ := (fresh_append own a b).mp h
    rw [after_append]
    exact (ha.subset own hfa).trans (hb.subset _ hfb)
  · obtain ⟨hfa, hfb⟩ := (fresh_append own a b).mp h
    rw [after_append, hb.card _ hfb, ha.card own hfa, Nat.add_assoc]

theorem careful_acquire (own : Finset α) (l : List α) : Careful own (l.map .acquire) := by
  induction l generalizing own with
  | nil => trivial
  | cons a l ih => exact fun _ => ih _

theorem careful_release {own : Finset α} {l : List α} (hl : l.Nodup) (h : ∀ a ∈ l, a ∈ own) :
    Careful own (l.map .release) := by
  induction l generalizing own with
  | nil => trivial
  | cons a l ih =>
    rw [List.nodup_cons] at hl
    rw [List.forall_mem_cons] at h
    refine ⟨h.1, ih hl.2 fun b hb => Finset.mem_erase.mpr ⟨?_, h.2 b hb⟩⟩
    rintro rfl
    exact hl.1 hb

theorem nodup_of_fresh {own : Finset α} {l : List α} (h : Fresh own (l.map .acquire)) :
    l.Nodup := by
  induction l generalizing own with
  | nil => exact List.nodup_nil
  | cons a l ih =>
    refine List.nodup_cons.mpr ⟨fun ha => ?_, ih h.2⟩
    exact fresh_acquire h.2 a ha (Finset.mem_insert_self a own)

theorem keeps_acquire (l : List α) : Keeps l.length (l.map Change.acquire) := by
  refine ⟨fun own => careful_acquire own l, fun own _ => ?_, fun own h => ?_⟩
  · rw [after_acquire]
    exact Finset.subset_union_left
  · have hdisjoint : Disjoint own l.toFinset := by
      rw [Finset.disjoint_right]
      intro a ha
      exact fresh_acquire h a (List.mem_toFinset.mp ha)
    rw [after_acquire, Finset.card_union_of_disjoint hdisjoint,
      List.toFinset_card_of_nodup (nodup_of_fresh h)]

/-- What is acquired and then released, in whatever order. -/
theorem keeps_of_perm {l l' : List α} (h : l.Perm l') :
    Keeps 0 (l.map .acquire ++ l'.map .release) := by
  refine ⟨fun own => ?_, fun own hfresh => ?_, fun own hfresh => ?_⟩
  · refine (careful_append own _ _).mpr ⟨careful_acquire own l, fun hfresh => ?_⟩
    refine careful_release (h.nodup_iff.mp (nodup_of_fresh hfresh)) fun a ha => ?_
    rw [after_acquire]
    exact Finset.mem_union_right _ (List.mem_toFinset.mpr (h.mem_iff.mpr ha))
  · rw [balanced_of_perm h own hfresh]
  · rw [balanced_of_perm h own hfresh]
    rfl

/-- What is held around another log is in nobody's way. -/
theorem Keeps.within {n : Nat} {log : List (Change α)} (h : Keeps n log) (a : α) :
    Keeps n (.acquire a :: (log ++ [.release a])) := by
  have hlog (own : Finset α) (hfresh : Fresh (insert a own) log) :
      a ∈ after (insert a own) log := h.subset _ hfresh (Finset.mem_insert_self a own)
  have hafter (own : Finset α) : after own (.acquire a :: (log ++ [.release a])) =
      (after (insert a own) log).erase a :=
    (after_append (insert a own) log [.release a]).trans rfl
  refine ⟨fun own _ => ?_, fun own hfresh => ?_, fun own hfresh => ?_⟩
  · exact (careful_append _ _ _).mpr ⟨h.careful _, fun hfresh => ⟨hlog own hfresh, trivial⟩⟩
  · obtain ⟨ha, hrest⟩ := hfresh
    have hfirst := ((fresh_append _ _ _).mp hrest).1
    rw [hafter]
    intro b hb
    refine Finset.mem_erase.mpr ⟨?_, h.subset _ hfirst (Finset.mem_insert_of_mem hb)⟩
    rintro rfl
    exact ha hb
  · obtain ⟨ha, hrest⟩ := hfresh
    have hfirst := ((fresh_append _ _ _).mp hrest).1
    rw [hafter, Finset.card_erase_of_mem (hlog own hfirst), h.card _ hfirst,
      Finset.card_insert_of_notMem ha]
    omega

/-- Each has its own of what is held, and `base` is nobody's. -/
structure Shared (held base : Finset α) (own : ι → Finset α) : Prop where
  distinct : ∀ i j, i ≠ j → Disjoint (own i) (own j)
  apart : ∀ i, Disjoint base (own i)
  held : ∀ a, a ∈ held ↔ a ∈ base ∨ ∃ i, a ∈ own i

variable {held base : Finset α} {own : ι → Finset α}

theorem Shared.card [Fintype ι] (h : Shared held base own) :
    held.card = base.card + ∑ i, (own i).card := by
  classical
  have hheld : held = base ∪ Finset.univ.biUnion own := by
    ext a
    rw [h.held]
    simp
  have hapart : Disjoint base (Finset.univ.biUnion own) := by
    rw [Finset.disjoint_biUnion_right]
    exact fun i _ => h.apart i
  rw [hheld, Finset.card_union_of_disjoint hapart,
    Finset.card_biUnion fun i _ j _ hij => h.distinct i j hij]

variable [DecidableEq ι]

theorem Shared.acquire (h : Shared held base own) (i : ι) {a : α} (ha : a ∉ held) :
    Shared (insert a held) base (Function.update own i (insert a (own i))) := by
  have hbase : a ∉ base := fun hb => ha ((h.held a).mpr (Or.inl hb))
  have hown : ∀ j, a ∉ own j := fun j hj => ha ((h.held a).mpr (Or.inr ⟨j, hj⟩))
  refine ⟨fun j k hjk => ?_, fun j => ?_, fun b => ?_⟩
  · by_cases hj : j = i
    · subst hj
      rw [Function.update_self, Function.update_of_ne hjk.symm, Finset.disjoint_insert_left]
      exact ⟨hown k, h.distinct j k hjk⟩
    · rw [Function.update_of_ne hj]
      by_cases hk : k = i
      · subst hk
        rw [Function.update_self, Finset.disjoint_insert_right]
        exact ⟨hown j, h.distinct j k hjk⟩
      · rw [Function.update_of_ne hk]
        exact h.distinct j k hjk
  · by_cases hj : j = i
    · subst hj
      rw [Function.update_self, Finset.disjoint_insert_right]
      exact ⟨hbase, h.apart j⟩
    · rw [Function.update_of_ne hj]
      exact h.apart j
  · rw [Finset.mem_insert, h.held]
    constructor
    · rintro (rfl | hb | ⟨j, hj⟩)
      · exact Or.inr ⟨i, by simp⟩
      · exact Or.inl hb
      · refine Or.inr ⟨j, ?_⟩
        by_cases hji : j = i
        · subst hji
          simp [hj]
        · rwa [Function.update_of_ne hji]
    · rintro (hb | ⟨j, hj⟩)
      · exact Or.inr (Or.inl hb)
      · by_cases hji : j = i
        · subst hji
          rw [Function.update_self, Finset.mem_insert] at hj
          exact hj.imp id fun hj => Or.inr ⟨j, hj⟩
        · rw [Function.update_of_ne hji] at hj
          exact Or.inr (Or.inr ⟨j, hj⟩)

theorem Shared.release (h : Shared held base own) {i : ι} {a : α} (ha : a ∈ own i) :
    Shared (held.erase a) base (Function.update own i ((own i).erase a)) := by
  have hless : ∀ j, Function.update own i ((own i).erase a) j ⊆ own j := by
    intro j
    by_cases hj : j = i
    · subst hj
      rw [Function.update_self]
      exact Finset.erase_subset _ _
    · rw [Function.update_of_ne hj]
  refine ⟨fun j k hjk => (h.distinct j k hjk).mono (hless j) (hless k),
    fun j => (h.apart j).mono_right (hless j), fun b => ?_⟩
  rw [Finset.mem_erase, h.held]
  constructor
  · rintro ⟨hne, hb | ⟨j, hj⟩⟩
    · exact Or.inl hb
    · refine Or.inr ⟨j, ?_⟩
      by_cases hji : j = i
      · subst hji
        rw [Function.update_self]
        exact Finset.mem_erase.mpr ⟨hne, hj⟩
      · rwa [Function.update_of_ne hji]
  · rintro (hb | ⟨j, hj⟩)
    · refine ⟨?_, Or.inl hb⟩
      rintro rfl
      exact Finset.disjoint_left.mp (h.apart i) hb ha
    · refine ⟨?_, Or.inr ⟨j, hless j hj⟩⟩
      rintro rfl
      by_cases hji : j = i
      · subst hji
        rw [Function.update_self] at hj
        exact Finset.notMem_erase b _ hj
      · exact Finset.disjoint_left.mp (h.distinct j i hji) (hless j hj) ha

/-- One change, new to all if it acquires and its owner's if it releases. -/
theorem Shared.step (h : Shared held base own) {i : ι} {e : Change α} (hfresh : Fresh held [e])
    (hcareful : Careful (own i) [e]) :
    Fresh (own i) [e] ∧ Shared (e.apply held) base (Function.update own i (e.apply (own i))) := by
  cases e with
  | acquire a =>
    have hnew : a ∉ own i := fun hown => hfresh.1 ((h.held a).mpr (Or.inr ⟨i, hown⟩))
    exact ⟨⟨hnew, trivial⟩, h.acquire i hfresh.1⟩
  | release a => exact ⟨trivial, h.release hcareful.1⟩

/-- A common log in which each owner is careful: what it acquires is new to it,
and what it has at the end is what its own part of the log leaves it. -/
theorem Shared.run {log : List (ι × Change α)} (h : Shared held base own)
    (hfresh : Fresh held (log.map Prod.snd))
    (hcareful : ∀ i, Careful (own i) (projection i log)) :
    (∀ i, Fresh (own i) (projection i log)) ∧
      Shared (after held (log.map Prod.snd)) base fun i => after (own i) (projection i log) := by
  induction log generalizing held own with
  | nil => exact ⟨fun _ => trivial, h⟩
  | cons entry log ih =>
    obtain ⟨i, e⟩ := entry
    obtain ⟨hfirst, hrest⟩ := (fresh_append held [e] _).mp hfresh
    have hown := hcareful i
    rw [projection_self] at hown
    obtain ⟨hcare, hnext⟩ := (careful_append (own i) [e] _).mp hown
    obtain ⟨hnew, hstep⟩ := h.step hfirst hcare
    obtain ⟨hf, hs⟩ := ih hstep hrest
      (forall_update (p := fun _ => Careful) (e := e) (hnext hnew) fun j _ => hcareful j)
    have hsame (j : ι) : after (Function.update own i (e.apply (own i)) j) (projection j log) =
        after (own j) (projection j ((i, e) :: log)) := by
      refine forall_update (p := fun j s l => after s l = after (own j)
        (projection j ((i, e) :: log))) (e := e) ?_ (fun _ _ => rfl) j
      rw [projection_self]
      rfl
    refine ⟨fun j => ?_, (funext hsame) ▸ hs⟩
    have hfj := hf j
    by_cases hj : j = i
    · subst hj
      rw [Function.update_self] at hfj
      rw [projection_self]
      exact (fresh_append _ [e] _).mpr ⟨hnew, hfj⟩
    · rw [Function.update_of_ne hj] at hfj
      rwa [projection_other hj]

end Lib.Shares

import Mathlib.Data.List.Basic
import Mathlib.Data.List.DropRight
import Mathlib.Data.List.Infix
import Mathlib.Data.List.TakeWhile
import Mathlib.Data.Nat.Find

/-! Cutting a list at the first occurrence of a separator: `List.dropInfix?`
with lawful equality, and separators of one or two symbols. -/
namespace Lib.Cut

variable {α : Type*} [DecidableEq α]

theorem dropInfix?_eq_some {l i p s : List α} :
    l.dropInfix? i = some (p, s) ↔
      l = p ++ (i ++ s) ∧ ∀ p' s', l = p' ++ (i ++ s') → p.length ≤ p'.length := by
  rw [List.dropInfix?_eq_some_iff]
  simp only [beq_iff_eq, List.append_assoc]
  constructor
  · rintro ⟨⟨i', hl, rfl⟩, hmin⟩
    exact ⟨hl, fun p' s' h => hmin p' i' s' h rfl⟩
  · rintro ⟨hl, hmin⟩
    refine ⟨⟨i, hl, rfl⟩, ?_⟩
    rintro p' _ s' h rfl
    exact hmin p' s' h

theorem dropInfix?_eq_none {l i : List α} : l.dropInfix? i = none ↔ ¬ i <:+: l := by
  constructor
  · rintro h ⟨p, s, rfl⟩
    -- the shortest of the prefixes before an occurrence is the cut
    let P : Nat → Prop := fun n => ∃ p' s', p ++ i ++ s = p' ++ (i ++ s') ∧ p'.length = n
    have hP : ∃ n, P n := ⟨p.length, p, s, by simp, rfl⟩
    classical
    obtain ⟨p', s', hl, hlen⟩ := Nat.find_spec hP
    have hcut := dropInfix?_eq_some.mpr ⟨hl, fun q t hq => by
      rw [hlen]
      exact Nat.find_min' hP ⟨q, t, hq, rfl⟩⟩
    rw [h] at hcut
    cases hcut
  · intro h
    cases hd : l.dropInfix? i with
    | none => rfl
    | some c =>
      obtain ⟨p, s⟩ := c
      have hl := (dropInfix?_eq_some.mp hd).1
      exact absurd ⟨p, s, by simp [hl]⟩ h

/-- A one-symbol separator is found after any text without it. -/
theorem dropInfix?_single {a : α} {k : List α} (hk : a ∉ k) (v : List α) :
    (k ++ ([a] ++ v)).dropInfix? [a] = some (k, v) := by
  refine dropInfix?_eq_some.mpr ⟨rfl, fun p s h => ?_⟩
  by_contra hlt
  obtain ⟨t, rfl, ht⟩ | ⟨t, rfl, ht⟩ := List.append_eq_append_iff.mp h
  · simp at hlt
  · cases t with
    | nil => simp at hlt
    | cons c t =>
      have hc : a = c := by simpa using congrArg List.head? ht
      exact hk (by simp [hc])

theorem forall_bne {a : α} {k : List α} (hk : a ∉ k) : ∀ b ∈ k, (b != a) = true := by
  intro b hb
  simpa using fun he : b = a => hk (he ▸ hb)

theorem takeWhile_append_absent {a : α} {k : List α} (hk : a ∉ k) (v : List α) :
    (k ++ v).takeWhile (· != a) = k ++ v.takeWhile (· != a) :=
  List.takeWhile_append_of_pos (forall_bne hk)

theorem takeWhile_absent {a : α} {k : List α} (hk : a ∉ k) : k.takeWhile (· != a) = k :=
  List.takeWhile_eq_self_iff.mpr (forall_bne hk)

theorem dropWhile_absent {a : α} {k : List α} (hk : a ∉ k) : k.dropWhile (· != a) = [] :=
  List.dropWhile_eq_nil_iff.mpr (forall_bne hk)

/-- What stands before the first occurrence of a symbol. -/
theorem takeWhile_first {a : α} {k : List α} (hk : a ∉ k) (v : List α) :
    (k ++ a :: v).takeWhile (· != a) = k := by
  rw [takeWhile_append_absent hk, List.takeWhile_cons_of_neg (by simp), List.append_nil]

/-- What begins with the first occurrence of a symbol. -/
theorem dropWhile_first {a : α} {k : List α} (hk : a ∉ k) (v : List α) :
    (k ++ a :: v).dropWhile (· != a) = a :: v := by
  rw [List.dropWhile_append_of_pos (forall_bne hk), List.dropWhile_cons_of_neg (by simp)]

/-- One symbol cuts a text before and after its first occurrence. -/
theorem dropInfix?_singleton (a : α) (l : List α) :
    l.dropInfix? [a] =
      if a ∈ l then some (l.takeWhile (· != a), (l.dropWhile (· != a)).tail) else none := by
  split
  case isTrue h =>
    have hhead : (l.dropWhile (· != a)).head? = some a := by
      cases hd : l.dropWhile (· != a) with
      | nil =>
        have := List.dropWhile_eq_nil_iff.mp hd a h
        simp at this
      | cons b t =>
        have := List.head?_dropWhile_not (· != a) l
        rw [hd] at this
        simpa using this
    have hl : l = l.takeWhile (· != a) ++ ([a] ++ (l.dropWhile (· != a)).tail) := by
      rw [List.singleton_append, List.cons_head?_tail hhead, List.takeWhile_append_dropWhile]
    conv_lhs => rw [hl]
    exact dropInfix?_single (fun hmem => by simpa using List.mem_takeWhile_imp hmem) _
  case isFalse h =>
    rw [dropInfix?_eq_none, List.singleton_infix_iff]
    exact h

/-- A separator of two different symbols is found after any text without it:
it cannot start on the last symbol of the text. -/
theorem dropInfix?_pair {a b : α} (hab : a ≠ b) {k : List α} (hk : ¬ [a, b] <:+: k)
    (v : List α) : (k ++ ([a, b] ++ v)).dropInfix? [a, b] = some (k, v) := by
  refine dropInfix?_eq_some.mpr ⟨rfl, fun p s h => ?_⟩
  by_contra hlt
  obtain ⟨t, rfl, ht⟩ | ⟨t, rfl, ht⟩ := List.append_eq_append_iff.mp h
  · simp at hlt
  · match t, ht with
    | [], _ => simp at hlt
    | [c], ht =>
      simp only [List.cons_append, List.nil_append, List.cons.injEq] at ht
      exact hab ht.2.1.symm
    | c :: d :: t, ht =>
      simp only [List.cons_append, List.nil_append, List.cons.injEq] at ht
      obtain ⟨rfl, rfl, -⟩ := ht
      exact hk ⟨p, t, by simp⟩

omit [DecidableEq α] in
theorem exists_last {a : α} {l : List α} (h : a ∈ l) : ∃ p t, l = p ++ a :: t ∧ a ∉ t := by
  obtain ⟨t, p, hl, ht⟩ := List.eq_append_cons_of_mem (List.mem_reverse.mpr h)
  refine ⟨p.reverse, t.reverse, ?_, by simpa using ht⟩
  rw [← List.reverse_reverse l, hl]
  simp

theorem rtakeWhile_absent {a : α} {l : List α} (h : a ∉ l) : l.rtakeWhile (· != a) = l :=
  List.rtakeWhile_eq_self_iff.mpr (forall_bne h)

/-- What follows the last occurrence of a symbol. -/
theorem rtakeWhile_last {a : α} {t : List α} (ht : a ∉ t) (p : List α) :
    (p ++ a :: t).rtakeWhile (· != a) = t := by
  have hpos := forall_bne (mt List.mem_reverse.mp ht)
  simp only [List.rtakeWhile, List.reverse_append, List.reverse_cons, List.append_assoc,
    List.takeWhile_append_of_pos hpos]
  simp

end Lib.Cut

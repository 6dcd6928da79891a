import Mathlib.Data.List.Basic
import Mathlib.Data.List.Infix

/-! Path names resolved by text alone, as a kernel resolves them where there
are no symbolic links. A location lists the names from the root downwards. -/
namespace Lib.Lexical

inductive Seg (ν : Type*)
  | up
  | down (name : ν)
  deriving DecidableEq, Repr

section
variable {ν : Type*}

def go (loc : List ν) : Seg ν → List ν
  | .up => loc.dropLast
  | .down n => loc ++ [n]

/-- The root is its own parent, so `up` there stays. -/
def walk (loc : List ν) (segs : List (Seg ν)) : List ν := segs.foldl go loc

/-- Cancel a name with the `up` that follows it: what is left is a number of
`up`s and then names. -/
def cancel : Nat × List ν → Seg ν → Nat × List ν
  | (ups, names), .up => if names.isEmpty then (ups + 1, []) else (ups, names.dropLast)
  | (ups, names), .down n => (ups, names ++ [n])

def reduce (segs : List (Seg ν)) : Nat × List ν := segs.foldl cancel (0, [])

theorem walk_append (loc : List ν) (a b : List (Seg ν)) :
    walk loc (a ++ b) = walk (walk loc a) b := List.foldl_append

theorem reduce_concat (segs : List (Seg ν)) (s : Seg ν) :
    reduce (segs ++ [s]) = cancel (reduce segs) s := by
  simp [reduce]

/-- A walk climbs the leftover `up`s and then goes down the leftover names. -/
theorem walk_eq_reduce (loc : List ν) (segs : List (Seg ν)) :
    walk loc segs = loc.take (loc.length - (reduce segs).1) ++ (reduce segs).2 := by
  induction segs using List.reverseRecOn with
  | nil => simp [walk, reduce]
  | append_singleton segs s ih =>
    rw [walk_append, ih, reduce_concat]
    obtain ⟨ups, names⟩ := reduce segs
    cases s with
    | down n => simp [walk, go, cancel]
    | up =>
      by_cases hn : names = []
      · subst hn
        simp only [walk, List.foldl_cons, List.foldl_nil, go, List.append_nil, cancel,
          List.isEmpty_nil, if_true, List.dropLast_eq_take, List.length_take, List.take_take]
        congr 1
        omega
      · simp [walk, go, cancel, hn, List.dropLast_append_of_ne_nil hn]

/-- A walk ends below `loc ++ sub` exactly when the leftover names first name
again the part of `loc` that the leftover `up`s gave up, and then `sub`. -/
theorem below_iff_reduce (loc sub : List ν) (segs : List (Seg ν)) :
    loc ++ sub <+: walk loc segs ↔
      loc.drop (loc.length - (reduce segs).1) ++ sub <+: (reduce segs).2 := by
  rw [walk_eq_reduce]
  conv =>
    lhs
    rw [← List.take_append_drop (loc.length - (reduce segs).1) loc, List.append_assoc,
      List.take_append_drop]
  exact List.prefix_append_right_inj _

/-- A last name other than the root directory's own does not decide whether a
walk ends below it. -/
theorem below_concat_down {root loc : List ν} {name : ν} (h : root.getLast? ≠ some name)
    (segs : List (Seg ν)) :
    root <+: walk loc (segs ++ [.down name]) ↔ root <+: walk loc segs := by
  rw [walk_append, show walk (walk loc segs) [.down name] = walk loc segs ++ [name] from rfl,
    List.prefix_concat_iff]
  constructor
  · rintro (rfl | hp)
    · simp at h
    · exact hp
  · exact Or.inr

end

section
variable {α : Type*} [DecidableEq α] (slash dot : α)

/-- The components of a path that move: empty ones and `.` stay in place. -/
def segments (p : List α) : List (Seg (List α)) :=
  (p.splitOn slash).filterMap fun c =>
    if c = [] ∨ c = [dot] then none
    else if c = [dot, dot] then some .up
    else some (.down c)

/-- Where a path leads from the working directory. -/
def locate (cwd : List (List α)) (p : List α) : List (List α) :=
  walk (if p.head? = some slash then [] else cwd) (segments slash dot p)

theorem segments_append (p q : List α) :
    segments slash dot (p ++ slash :: q) = segments slash dot p ++ segments slash dot q := by
  simp [segments, List.splitOn_append_cons_self]

theorem segments_name {n : List α} (hs : slash ∉ n) (h0 : n ≠ []) (h1 : n ≠ [dot])
    (h2 : n ≠ [dot, dot]) : segments slash dot n = [.down n] := by
  simp [segments, List.splitOn_eq_singleton hs, h0, h1, h2]

/-- A name after a slash is one step further down. -/
theorem locate_name {cwd : List (List α)} {p n : List α} (hp : p ≠ []) (hs : slash ∉ n)
    (h0 : n ≠ []) (h1 : n ≠ [dot]) (h2 : n ≠ [dot, dot]) :
    locate slash dot cwd (p ++ slash :: n) =
      walk (if p.head? = some slash then [] else cwd) (segments slash dot p ++ [.down n]) := by
  rw [locate, segments_append, segments_name slash dot hs h0 h1 h2,
    List.head?_append_of_ne_nil _ hp]

theorem locate_slash {cwd : List (List α)} {p : List α} (hp : p ≠ []) :
    locate slash dot cwd (p ++ [slash]) = locate slash dot cwd p := by
  rw [locate, segments_append, List.head?_append_of_ne_nil _ hp, locate]
  simp [segments]

example : segments 0 1 [2, 0, 0, 1, 0, 1, 1, 0, 3] = [.down [2], .up, .down [3]] := by decide

end

end Lib.Lexical

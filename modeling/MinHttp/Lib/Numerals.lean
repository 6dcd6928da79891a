import Mathlib.Data.List.Basic
import Mathlib.Data.List.TakeWhile
import Mathlib.Tactic.Ring

/-! Machine integers as integers taken modulo a power of two, and decimal
numerals in ASCII: printing, and reading as C's `strtol` and `atoi` do. -/
namespace Lib.Numerals

/-- The value a two's complement integer of `w` bits keeps of `x`. -/
def signed (w : Nat) (x : Int) : Int := x.bmod (2 ^ w)

/-- The value an unsigned integer of `w` bits keeps of `x`. -/
def unsigned (w : Nat) (x : Int) : Nat := (x % 2 ^ w).toNat

theorem signed32_of_mem {x : Int} (hlo : -2 ^ 31 ≤ x) (hhi : x < 2 ^ 31) : signed 32 x = x := by
  unfold signed
  apply Int.bmod_eq_of_le <;> norm_num at * <;> omega

theorem signed32_bounds (x : Int) : -2 ^ 31 ≤ signed 32 x ∧ signed 32 x < 2 ^ 31 := by
  have hlt := Int.bmod_lt (x := x) (m := 2 ^ 32) (by decide)
  have hle := Int.le_bmod (x := x) (m := 2 ^ 32) (by decide)
  unfold signed
  norm_num at *
  omega

theorem signed32_natCast_of_lt {n : Nat} (h : n < 2 ^ 31) : signed 32 (n : Int) = n :=
  signed32_of_mem (by omega) (by omega)

theorem unsigned32_of_nonneg {x : Int} (h : 0 ≤ x) (hhi : x < 2 ^ 31) :
    unsigned 32 x = x.toNat := by
  unfold unsigned
  omega

theorem unsigned32_of_neg {x : Int} (h : x < 0) (hlo : -2 ^ 31 ≤ x) : 2 ^ 31 ≤ unsigned 32 x := by
  unfold unsigned
  omega

theorem eq_zero_of_unsigned32 {x : Int} (hlo : -2 ^ 31 ≤ x) (hhi : x < 2 ^ 31)
    (h : unsigned 32 x = 0) : x = 0 := by
  unfold unsigned at h
  omega

theorem ne_zero_of_lt_unsigned32 {x : Int} {n : Nat} (h : n < unsigned 32 x) : x ≠ 0 := by
  rintro rfl
  exact absurd h (Nat.not_lt_zero n)

/-- A counter taken down to zero, through the negative numbers if need be,
takes as many steps as its unsigned value says. -/
theorem unsigned32_pred {x : Int} (hx : x ≠ 0) (hlo : -2 ^ 31 ≤ x) (hhi : x < 2 ^ 31) :
    unsigned 32 x = unsigned 32 (signed 32 (x - 1)) + 1 := by
  have hsame : signed 32 (x - 1) % 2 ^ 32 = (x - 1) % 2 ^ 32 :=
    Int.bmod_emod (x := x - 1) (m := 2 ^ 32)
  unfold unsigned
  rw [hsame]
  omega

def isDigit (b : UInt8) : Bool := 48 ≤ b && b ≤ 57

/-- `isspace` of the C locale: blank, and the controls from TAB to CR. -/
def isSpace (b : UInt8) : Bool := b == 32 || (9 ≤ b && b ≤ 13)

/-- The number a string of digits denotes. -/
def digitsValue (ds : List UInt8) : Nat := ds.foldl (fun acc d => 10 * acc + (d.toNat - 48)) 0

def decimal (n : Nat) : List UInt8 := (Nat.toDigits 10 n).map fun c => c.toNat.toUInt8

/-- The numeral of an integer, with a minus sign when it is negative. -/
def decimalInt (x : Int) : List UInt8 :=
  if x < 0 then 45 :: decimal x.natAbs else decimal x.natAbs

theorem decimalInt_natCast (n : Nat) : decimalInt n = decimal n := by
  simp [decimalInt, show ¬ (n : Int) < 0 by omega]

theorem digitChar_byte {d : Nat} (hd : d < 10) :
    d.digitChar.toNat.toUInt8.toNat = 48 + d ∧ isDigit d.digitChar.toNat.toUInt8 = true := by
  revert d
  decide

theorem foldl_toDigits (n acc : Nat) :
    ((Nat.toDigits 10 n).map fun c => c.toNat.toUInt8).foldl
        (fun acc d => 10 * acc + (d.toNat - 48)) acc =
      10 ^ (Nat.toDigits 10 n).length * acc + n := by
  induction n using Nat.strongRecOn generalizing acc with
  | ind n ih =>
    by_cases hn : n < 10
    · rw [Nat.toDigits_of_lt_base hn]
      simp [(digitChar_byte hn).1]
    · rw [Nat.toDigits_of_base_le (by decide) (by omega)]
      have hd := (digitChar_byte (Nat.mod_lt n (by decide : 0 < 10))).1
      rw [List.map_append, List.foldl_append, ih (n / 10) (by omega)]
      simp only [List.map_cons, List.map_nil, List.foldl_cons, List.foldl_nil, hd,
        List.length_append, List.length_cons, List.length_nil, Nat.pow_succ]
      have := Nat.div_add_mod n 10
      ring_nf
      omega

theorem digitsValue_decimal (n : Nat) : digitsValue (decimal n) = n := by
  rw [digitsValue, decimal, foldl_toDigits, Nat.mul_zero, Nat.zero_add]

theorem isDigit_of_mem_decimal {n : Nat} {b : UInt8} (h : b ∈ decimal n) : isDigit b = true := by
  obtain ⟨c, hc, rfl⟩ := List.mem_map.mp h
  clear h
  induction n using Nat.strongRecOn with
  | ind n ih =>
    by_cases hn : n < 10
    · rw [Nat.toDigits_of_lt_base hn, List.mem_singleton] at hc
      subst hc
      exact (digitChar_byte hn).2
    · rw [Nat.toDigits_of_base_le (by decide) (by omega), List.mem_append] at hc
      rcases hc with hc | hc
      · exact ih (n / 10) (by omega) hc
      · rw [List.mem_singleton.mp hc]
        exact (digitChar_byte (Nat.mod_lt n (by decide))).2

theorem decimal_injective {m n : Nat} (h : decimal m = decimal n) : m = n := by
  rw [← digitsValue_decimal m, h, digitsValue_decimal]

theorem decimal_ne_nil (n : Nat) : decimal n ≠ [] := by
  simp [decimal, Nat.toDigits_ne_nil]

/-- The integer `strtol` reads: blanks, a sign, and then digits, with the
result kept within 64 bits. Without digits it is zero. -/
def strtol (s : List UInt8) : Int :=
  let s := s.dropWhile isSpace
  match s with
  | 45 :: ds => max (-2 ^ 63) (-(digitsValue (ds.takeWhile isDigit) : Int))
  | 43 :: ds => min (2 ^ 63 - 1) (digitsValue (ds.takeWhile isDigit))
  | ds => min (2 ^ 63 - 1) (digitsValue (ds.takeWhile isDigit))

/-- `atoi`: what a 32-bit `int` keeps of `strtol`. -/
def atoi (s : List UInt8) : Int := signed 32 (strtol s)

theorem not_isSpace_of_isDigit {b : UInt8} (h : isDigit b = true) :
    isSpace b = false ∧ b ≠ 45 ∧ b ≠ 43 ∧ b ≠ 0 ∧ b ≠ 10 ∧ b ≠ 13 := by
  simp only [isDigit, isSpace, Bool.and_eq_true, decide_eq_true_eq, UInt8.le_iff_toNat_le,
    ← UInt8.toNat_inj, Bool.or_eq_false_iff, Bool.and_eq_false_iff, beq_eq_false_iff_ne,
    decide_eq_false_iff_not, ne_eq] at h ⊢
  simp only [UInt8.reduceToNat] at h ⊢
  omega

theorem minus_notMem_decimal (n : Nat) : 45 ∉ decimal n :=
  fun h => (not_isSpace_of_isDigit (isDigit_of_mem_decimal h)).2.1 rfl

/-- The numeral of a natural number is no other integer's. -/
theorem decimalInt_eq_natCast {x : Int} {n : Nat} (h : decimalInt x = decimalInt n) : x = n := by
  rw [decimalInt_natCast, decimalInt] at h
  split at h
  · exact absurd (h ▸ List.mem_cons_self) (minus_notMem_decimal n)
  · have habs := decimal_injective h
    omega

theorem strtol_digits {ds : List UInt8} (hne : ds ≠ []) (hd : ∀ d ∈ ds, isDigit d = true) :
    strtol ds = min (2 ^ 63 - 1) (digitsValue ds : Int) := by
  obtain ⟨d, ds, rfl⟩ := List.exists_cons_of_ne_nil hne
  have hfirst := not_isSpace_of_isDigit (hd d List.mem_cons_self)
  have hdrop : (d :: ds).dropWhile isSpace = d :: ds := by simp [hfirst.1]
  have htake : (d :: ds).takeWhile isDigit = d :: ds :=
    List.takeWhile_eq_self_iff.mpr hd
  simp only [strtol, hdrop]
  split
  · rename_i heq
    exact absurd (List.cons.inj heq).1 hfirst.2.1
  · rename_i heq
    exact absurd (List.cons.inj heq).1 hfirst.2.2.1
  · rw [htake]

/-- A numeral that fits an `int` is read back as printed. -/
theorem atoi_decimal {n : Nat} (hn : n < 2 ^ 31) : atoi (decimal n) = n := by
  unfold atoi
  rw [strtol_digits (decimal_ne_nil n) (fun d hd => isDigit_of_mem_decimal hd),
    digitsValue_decimal, min_eq_right (by omega)]
  exact signed32_of_mem (by omega) (by omega)

theorem atoi_bounds (s : List UInt8) : -2 ^ 31 ≤ atoi s ∧ atoi s < 2 ^ 31 :=
  signed32_bounds _

/-- The integer that a numeral denotes, of any size. -/
def denoted (s : List UInt8) : Int :=
  match s.dropWhile isSpace with
  | 45 :: ds => -(digitsValue (ds.takeWhile isDigit) : Int)
  | 43 :: ds => digitsValue (ds.takeWhile isDigit)
  | ds => digitsValue (ds.takeWhile isDigit)

theorem strtol_eq (s : List UInt8) : strtol s = max (-2 ^ 63) (min (2 ^ 63 - 1) (denoted s)) := by
  unfold strtol denoted
  dsimp only
  split <;> omega

theorem denoted_decimal (n : Nat) : denoted (decimal n) = n := by
  have hdigits : ∀ d ∈ decimal n, isDigit d = true := fun d hd => isDigit_of_mem_decimal hd
  have hdrop : (decimal n).dropWhile isSpace = decimal n := by
    obtain ⟨d, ds, hds⟩ := List.exists_cons_of_ne_nil (decimal_ne_nil n)
    rw [hds] at hdigits ⊢
    simp [(not_isSpace_of_isDigit (hdigits d List.mem_cons_self)).1]
  rw [denoted, hdrop]
  split
  · rename_i heq
    exact absurd (heq ▸ List.mem_cons_self) (minus_notMem_decimal n)
  · rename_i heq
    exact absurd rfl (not_isSpace_of_isDigit (hdigits 43 (heq ▸ List.mem_cons_self))).2.2.1
  · rw [List.takeWhile_eq_self_iff.mpr hdigits, digitsValue_decimal]

/-- An `int` holds the integer or another one. -/
theorem atoi_eq_denoted_iff (s : List UInt8) :
    atoi s = denoted s ↔ -2 ^ 31 ≤ denoted s ∧ denoted s < 2 ^ 31 := by
  constructor
  · intro h
    rw [← h]
    exact atoi_bounds s
  · rintro ⟨hlo, hhi⟩
    rw [atoi, strtol_eq, min_eq_right (by omega), max_eq_right (by omega)]
    exact signed32_of_mem hlo hhi

end Lib.Numerals

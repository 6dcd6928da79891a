import MinHttp.Register

/-! cgi/cgi.cc: the two fields of a query string, which mysql_connect.cc takes
apart in the same way, and the four results computed from them. -/
namespace MinHttp.Cgi

open Lib.Numerals (denoted)

structure Fields where
  name1 : Bytes
  value1 : Bytes
  name2 : Bytes
  value2 : Bytes
  deriving DecidableEq, Repr

/-- cgi.cc, lines 10 to 20. -/
def calculatorFields (queryString : Bytes) : Fields :=
  let (str1, str2) := cutString queryString (str "&") [] []
  let (name1, value1) := cutString str1 (str "=") [] []
  let (name2, value2) := cutString str2 (str "=") [] []
  ⟨name1, value1, name2, value2⟩

/-- mysql_connect.cc, lines 35 to 46. -/
def registrationFields (queryString : Bytes) : Fields :=
  let (name, passwd) := cutString queryString (str "&") [] []
  let (name', sqlName) := cutString name (str "=") [] []
  let (passwd', sqlPasswd) := cutString passwd (str "=") [] []
  ⟨name', sqlName, passwd', sqlPasswd⟩

structure Results where
  sum : Int
  difference : Int
  product : Int
  quotient : Int
  deriving DecidableEq, Repr

/-- Lines 23 and 24, and again 27 and 28. -/
def fieldLines (f : Fields) : Bytes :=
  f.name1 ++ str " : " ++ f.value1 ++ [LF] ++ (f.name2 ++ str " : " ++ f.value2 ++ [LF])

def resultLine (f : Fields) (operator : Bytes) (result : Int) : Bytes :=
  str "<h3> " ++ f.value1 ++ operator ++ f.value2 ++ str " = " ++ toString result ++ str "</h3>"

/-- All that goes to `std::cout`. -/
def calculatorPage (f : Fields) (r : Results) : Bytes :=
  fieldLines f ++ str "<html>" ++ str "<head><meta charset=\"utf-8\"></head>" ++ str "<body>" ++
    resultLine f (str " + ") r.sum ++ resultLine f (str " - ") r.difference ++
    resultLine f (str " * ") r.product ++ resultLine f (str " / ") r.quotient ++
    str "</body>" ++ str "</html>"

def InInt (x : Int) : Prop := -2 ^ 31 ≤ x ∧ x < 2 ^ 31

instance (x : Int) : Decidable (InInt x) := inferInstanceAs (Decidable (_ ∧ _))

/-- The value of an expression of type `int`, where it is defined. -/
def int (x : Int) : Option Int := if InInt x then some x else none

def divide (x y : Int) : Option Int := if y = 0 then none else int (x.tdiv y)

/-- Lines 29 to 39. -/
def compute (f : Fields) : Option Results := do
  let x := atoi f.value1
  let y := atoi f.value2
  let sum ← int (x + y)
  let difference ← int (x - y)
  let product ← int (x * y)
  let quotient ← divide x y
  some ⟨sum, difference, product, quotient⟩

structure Exit where
  out : Bytes
  err : Bytes
  status : Int
  deriving DecidableEq, Repr

/-- `main` after `GetQueryString`, unless an operation is undefined. -/
def calculatorMain (queryString : Bytes) : Option Exit :=
  let f := calculatorFields queryString
  (compute f).map fun r => ⟨calculatorPage f r, fieldLines f, 0⟩

/-- The results for the integers that two value strings denote. -/
def exactResults (x y : Int) : Results := ⟨x + y, x - y, x * y, x.tdiv y⟩

/-- Both values are converted to the integers they denote, nothing is
undefined, and the exact results are printed. -/
def Exact (queryString : Bytes) : Prop :=
  let f := calculatorFields queryString
  let x := denoted (cstr f.value1)
  let y := denoted (cstr f.value2)
  atoi f.value1 = x ∧ atoi f.value2 = y ∧
    calculatorMain queryString =
      some ⟨calculatorPage f (exactResults x y), fieldLines f, 0⟩

/-- The operands and the first three results are values of type `int`, and the
divisor is not zero. -/
structure Computable (x y : Int) : Prop where
  left : InInt x
  right : InInt y
  sum : InInt (x + y)
  difference : InInt (x - y)
  product : InInt (x * y)
  divisor : y ≠ 0

/-- `name1=value1&name2=value2` -/
def Fields.encode (f : Fields) : Bytes :=
  f.name1 ++ str "=" ++ f.value1 ++ str "&" ++ f.name2 ++ str "=" ++ f.value2

/-- No separator stands before the place where it is looked for. -/
structure Fields.Separable (f : Fields) : Prop where
  name1 : 61 ∉ f.name1 ∧ 38 ∉ f.name1
  value1 : 38 ∉ f.value1
  name2 : 61 ∉ f.name2

/-- Nothing in the fields that is not in the query string, and nothing at all
where a separator is absent. -/
structure Fields.CutFrom (f : Fields) (queryString : Bytes) : Prop where
  name1 : f.name1 <:+: queryString
  value1 : f.value1 <:+: queryString
  name2 : f.name2 <:+: queryString
  value2 : f.value2 <:+: queryString
  noAmpersand : 38 ∉ queryString → f = ⟨[], [], [], []⟩
  noEquals1 : 61 ∉ queryString.takeWhile (· != 38) → f.name1 = [] ∧ f.value1 = []
  noEquals2 : 61 ∉ (queryString.dropWhile (· != 38)).tail → f.name2 = [] ∧ f.value2 = []

theorem cutString_found {b : Byte} {k : Bytes} (hk : b ∉ k) (v : Bytes) :
    cutString (k ++ ([b] ++ v)) [b] [] [] = (k, v) := by
  rw [cutString_byte, if_pos (by simp), List.singleton_append, Lib.Cut.takeWhile_first hk,
    Lib.Cut.dropWhile_first hk]
  rfl

theorem cutString_absent {b : Byte} {input : Bytes} (h : b ∉ input) :
    cutString input [b] [] [] = ([], []) := by
  rw [cutString_byte, if_neg h]

theorem cutString_infix (input : Bytes) (b : Byte) :
    (cutString input [b] [] []).1 <:+: input ∧ (cutString input [b] [] []).2 <:+: input := by
  rw [cutString_byte]
  split
  · refine ⟨(List.takeWhile_prefix _).isInfix, ?_⟩
    exact ((List.tail_suffix _).trans (List.dropWhile_suffix _)).isInfix
  · exact ⟨List.nil_infix, List.nil_infix⟩

theorem registrationFields_eq (queryString : Bytes) :
    registrationFields queryString = calculatorFields queryString := rfl

theorem calculatorFields_encode {f : Fields} (h : f.Separable) : calculatorFields f.encode = f := by
  have hand : 38 ∉ f.name1 ++ ([61] ++ f.value1) := by
    simp only [List.mem_append, List.mem_singleton, not_or]
    exact ⟨h.name1.2, by decide, h.value1⟩
  have hencode : f.encode =
      (f.name1 ++ ([61] ++ f.value1)) ++ ([38] ++ (f.name2 ++ ([61] ++ f.value2))) := by
    simp [Fields.encode, str]
  rw [calculatorFields, show str "&" = [38] from rfl, show str "=" = [61] from rfl, hencode,
    cutString_found hand]
  simp only [cutString_found h.name1.1, cutString_found h.name2]

theorem calculatorFields_cutFrom (queryString : Bytes) :
    (calculatorFields queryString).CutFrom queryString := by
  obtain ⟨hstr1, hstr2⟩ := cutString_infix queryString 38
  have h1 := cutString_infix (cutString queryString [38] [] []).1 61
  have h2 := cutString_infix (cutString queryString [38] [] []).2 61
  refine ⟨h1.1.trans hstr1, h1.2.trans hstr1, h2.1.trans hstr2, h2.2.trans hstr2, ?_, ?_, ?_⟩
  · intro hand
    rw [calculatorFields, show str "&" = [38] from rfl, cutString_absent hand]
    rfl
  · intro hequals
    have hpart : 61 ∉ (cutString queryString [38] [] []).1 := by
      rw [cutString_byte]
      split
      · exact hequals
      · exact List.not_mem_nil
    have hcut := cutString_absent hpart
    exact ⟨congrArg Prod.fst hcut, congrArg Prod.snd hcut⟩
  · intro hequals
    have hpart : 61 ∉ (cutString queryString [38] [] []).2 := by
      rw [cutString_byte]
      split
      · exact hequals
      · exact List.not_mem_nil
    have hcut := cutString_absent hpart
    exact ⟨congrArg Prod.fst hcut, congrArg Prod.snd hcut⟩

/-- **Two fields are taken apart** as they were put together, and of any other
query string no more is made than it holds. -/
theorem fields_decoded (f : Fields) (hf : f.Separable) (queryString : Bytes) :
    (calculatorFields f.encode = f ∧ registrationFields f.encode = f) ∧
      (calculatorFields queryString).CutFrom queryString ∧
      registrationFields queryString = calculatorFields queryString :=
  ⟨⟨calculatorFields_encode hf, calculatorFields_encode hf⟩,
    calculatorFields_cutFrom queryString, registrationFields_eq queryString⟩

/-- Separators in the values, and an `&` in the second name. -/
def sampleFields : Fields := ⟨str "a", str "x=y", str "b&c", str "p=q&r"⟩

theorem fields_decoded_sample :
    (calculatorFields sampleFields.encode = sampleFields ∧
        registrationFields sampleFields.encode = sampleFields) ∧
      (calculatorFields (str "a&b")).CutFrom (str "a&b") ∧
      registrationFields (str "a&b") = calculatorFields (str "a&b") :=
  fields_decoded sampleFields ⟨by decide, by decide, by decide⟩ (str "a&b")

theorem int_eq_some {x z : Int} : int x = some z ↔ InInt x ∧ x = z := by
  unfold int
  split
  case isTrue h => simp [h]
  case isFalse h => simp [h]

/-- A quotient fits when the product does: only the least `int` by -1 leaves
the range. -/
theorem inInt_tdiv {x y : Int} (h : Computable x y) : InInt (x.tdiv y) := by
  obtain ⟨hlo, hhi⟩ := h.left
  have hle := Int.natAbs_tdiv_le_natAbs x y
  by_cases hleast : x = -2 ^ 31
  · by_cases hone : y = 1
    · rw [hone, Int.tdiv_one]
      exact h.left
    · have hminus : y ≠ -1 := by
        rintro rfl
        have := h.product.2
        omega
      have hzero := h.divisor
      have hhalf : (x.tdiv y).natAbs ≤ x.natAbs / 2 := by
        rw [Int.natAbs_tdiv]
        exact Nat.div_le_div_left (by omega) (by decide)
      unfold InInt
      omega
  · unfold InInt
    omega

theorem divide_eq_some {x y : Int} (h : Computable x y) : divide x y = some (x.tdiv y) := by
  rw [divide, if_neg h.divisor, int_eq_some]
  exact ⟨inInt_tdiv h, rfl⟩

/-- Nothing is undefined exactly when the operands allow it. -/
theorem compute_isSome_iff (f : Fields) :
    (∃ r, compute f = some r) ↔ Computable (atoi f.value1) (atoi f.value2) := by
  simp only [compute, Option.bind_eq_bind, Option.bind_eq_some_iff, int_eq_some]
  constructor
  · rintro ⟨r, sum, ⟨hsum, -⟩, difference, ⟨hdifference, -⟩, product, ⟨hproduct, -⟩, q, hq, -⟩
    refine ⟨atoi_bounds _, atoi_bounds _, hsum, hdifference, hproduct, fun hzero => ?_⟩
    rw [divide, if_pos hzero] at hq
    cases hq
  · intro h
    exact ⟨_, _, ⟨h.sum, rfl⟩, _, ⟨h.difference, rfl⟩, _, ⟨h.product, rfl⟩, _,
      divide_eq_some h, rfl⟩

theorem compute_exact {f : Fields} (h : Computable (atoi f.value1) (atoi f.value2)) :
    compute f = some (exactResults (atoi f.value1) (atoi f.value2)) := by
  simp only [compute, Option.bind_eq_bind, Option.bind_eq_some_iff, int_eq_some]
  exact ⟨_, ⟨h.sum, rfl⟩, _, ⟨h.difference, rfl⟩, _, ⟨h.product, rfl⟩, _, divide_eq_some h, rfl⟩

/-- **The calculator is exact** on operands that fit an `int` with their sum,
difference and product, and with a divisor other than zero. -/
theorem calculator_exact_iff (queryString : Bytes) :
    Exact queryString ↔
      Computable (denoted (cstr (calculatorFields queryString).value1))
        (denoted (cstr (calculatorFields queryString).value2)) := by
  unfold Exact
  dsimp only
  generalize hf : calculatorFields queryString = f
  constructor
  · rintro ⟨hx, hy, hmain⟩
    rw [← hx, ← hy]
    apply (compute_isSome_iff f).mp
    rw [calculatorMain, hf, Option.map_eq_some_iff] at hmain
    obtain ⟨r, hr, -⟩ := hmain
    exact ⟨r, hr⟩
  · intro h
    have hx : atoi f.value1 = denoted (cstr f.value1) :=
      (Lib.Numerals.atoi_eq_denoted_iff _).mpr h.left
    have hy : atoi f.value2 = denoted (cstr f.value2) :=
      (Lib.Numerals.atoi_eq_denoted_iff _).mpr h.right
    refine ⟨hx, hy, ?_⟩
    rw [← hx, ← hy] at h ⊢
    rw [calculatorMain, hf, compute_exact h]
    rfl

/-- The second value is missing: a division by zero. -/
theorem calculator_divides : ¬ Exact (str "a=100&b") := by
  have hnone : calculatorMain (str "a=100&b") = none := by decide
  rintro ⟨-, -, hmain⟩
  rw [hnone] at hmain
  cases hmain

end MinHttp.Cgi

import MinHttp.Lib.Cut
import MinHttp.Lib.Numerals

/-! Byte strings and the constants of Protocol.hpp. -/
namespace MinHttp

abbrev Byte := UInt8

/-- `std::string`: any bytes, NUL among them. -/
abbrev Bytes := List UInt8

def str (s : String) : Bytes := s.toList.map fun c => c.toNat.toUInt8

def CR : Byte := 13
def LF : Byte := 10
def NUL : Byte := 0

def httpVersion : Bytes := str "HTTP/1.0"
def webRoot : Bytes := str "./wwwroot"
def defautlPage : Bytes := str "index.html"
def lineEnd : Bytes := [CR, LF]
def page404 : Bytes := str "404.html"
def sep : Bytes := str ": "

def OK : Int := 200
def badRequset : Int := 400
def notFound : Int := 404
def serverError : Int := 500

def methodGet : Bytes := str "GET"
def methodPost : Bytes := str "POST"

/-- What C code sees of a `c_str()`: the bytes before the first NUL. -/
def cstr (s : Bytes) : Bytes := s.takeWhile (· != NUL)

/-- `::toupper` in the C locale. -/
def toupper (b : Byte) : Byte := if 97 ≤ b && b ≤ 122 then b - 32 else b

/-- `std::to_string` -/
def toString (x : Int) : Bytes := Lib.Numerals.decimalInt x

/-- C's `atoi` on the characters of a string. -/
def atoi (s : Bytes) : Int := Lib.Numerals.atoi (cstr s)

theorem CR_ne_LF : CR ≠ LF := by decide

theorem cstr_eq_self {s : Bytes} (h : NUL ∉ s) : cstr s = s := Lib.Cut.takeWhile_absent h

theorem cstr_append {s t : Bytes} (h : NUL ∉ s) : cstr (s ++ t) = s ++ cstr t :=
  Lib.Cut.takeWhile_append_absent h t

/-- Nothing appended after a NUL is seen. -/
theorem cstr_append_of_mem {s t : Bytes} (h : NUL ∈ s) : cstr (s ++ t) = cstr s := by
  induction s with
  | nil => simp at h
  | cons b s ih =>
    by_cases hb : b = NUL
    · simp [cstr, hb]
    · have hs : NUL ∈ s := by simpa [Ne.symm hb] using h
      simpa [cstr, hb] using ih hs

theorem toString_natCast (n : Nat) : toString n = Lib.Numerals.decimal n :=
  Lib.Numerals.decimalInt_natCast n

theorem NUL_notMem_decimal (n : Nat) : NUL ∉ Lib.Numerals.decimal n := by
  intro h
  exact (Lib.Numerals.not_isSpace_of_isDigit
    (Lib.Numerals.isDigit_of_mem_decimal h)).2.2.2.1 rfl

theorem atoi_decimal {n : Nat} (hn : n < 2 ^ 31) : atoi (Lib.Numerals.decimal n) = n := by
  rw [atoi, cstr_eq_self (NUL_notMem_decimal n), Lib.Numerals.atoi_decimal hn]

theorem atoi_bounds (s : Bytes) : -2 ^ 31 ≤ atoi s ∧ atoi s < 2 ^ 31 :=
  Lib.Numerals.atoi_bounds _

end MinHttp

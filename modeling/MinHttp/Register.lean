import MinHttp.Util
import MinHttp.Lib.Literal

/-! cgi/comm.hpp and cgi/mysql_connect.cc: the registration program, from the
query string to the statement, the database and the page. -/
namespace MinHttp.Cgi

open Lib.Literal (Token Rules lex)

/-- comm.hpp: `CutString`, the outputs kept where `sep` is absent. -/
def cutString (input sep out1 out2 : Bytes) : Bytes × Bytes :=
  match find input sep with
  | some pos => (input.take pos, input.drop (pos + sep.length))
  | none => (out1, out2)

/-- `sql_name` and `sql_passwd`. -/
def sqlFields (queryString : Bytes) : Bytes × Bytes :=
  let (name, passwd) := cutString queryString (str "&") [] []
  let (_, sqlName) := cutString name (str "=") [] []
  let (_, sqlPasswd) := cutString passwd (str "=") [] []
  (sqlName, sqlPasswd)

def sqlOf (queryString : Bytes) : Bytes :=
  let (sqlName, sqlPasswd) := sqlFields queryString
  str "insert into user(name, password) values ('" ++ sqlName ++ str "','" ++ sqlPasswd ++
    str "')"

/-- What the calls on a connection return. -/
structure Mysql where
  realConnect : Bool
  query : Int
  deriving DecidableEq, Repr

/-- An `int` returned as a `bool`. -/
def toBool (x : Int) : Bool := x != 0

/-- The result, and the row inserted: the statement of a query that returned
0. -/
def insertSql (db : Mysql) (sql : Bytes) : Bool × Option Bytes :=
  if db.realConnect = false then (toBool 1, none)
  else (true, if db.query = 0 then some (cstr sql) else none)

/-- The characters between the tags in UTF-8. -/
def successPage : Bytes :=
  str "<html>" ++ str "<head><meta charset=\"utf-8\"></head>" ++ str "<body><h1>" ++
    [0xE6, 0xB3, 0xA8, 0xE5, 0x86, 0x8C, 0xE6, 0x88, 0x90, 0xE5, 0x8A, 0x9F] ++
    str "!</h1></body>"

/-- A run of the program: what `GetQueryString` left, and the database. -/
structure Registration where
  result : Bool
  queryString : Bytes
  db : Mysql
  deriving DecidableEq, Repr

/-- What `main` prints, and the row inserted. -/
def main (r : Registration) : Bytes × Option Bytes :=
  if r.result then
    let (ok, row) := insertSql r.db (sqlOf r.queryString)
    (if ok then successPage else [], row)
  else ([], none)

/-- The pages printed and the table left. -/
def runAll (table : List Bytes) : List Registration → List Bytes × List Bytes
  | [] => ([], table)
  | r :: rs =>
    let (page, row) := main r
    let (pages, table) := runAll (table ++ row.toList) rs
    (page :: pages, table)

/-- The escapes of a string literal. `\%` and `\_` are kept as they are. -/
def unescape (b : Byte) : Bytes :=
  if b = 48 then [0] else if b = 110 then [10] else if b = 116 then [9]
  else if b = 114 then [13] else if b = 98 then [8] else if b = 90 then [26]
  else if b = 37 ∨ b = 95 then [92, b] else [b]

def mysqlRules : Rules Byte where
  quote := 39
  escape := 92
  unescape := unescape
  shorter b := by
    unfold unescape
    split_ifs <;> simp

/-- One INSERT of two string literals. -/
def insertTokens (name passwd : Bytes) : List (Token Byte) :=
  (str "insert into user(name, password) values (").map .symbol ++
    [.literal name, .symbol 44, .literal passwd, .symbol 41]

/-- The statement that reaches the server is the INSERT of the two fields. -/
def KeepsData (queryString : Bytes) : Prop :=
  lex mysqlRules none (cstr (sqlOf queryString)) =
    some (insertTokens (sqlFields queryString).1 (sqlFields queryString).2)

/-- What follows the first `=`. -/
def valueOf (field : Bytes) : Bytes := (field.dropWhile (· != 61)).tail

/-- The value before the first `&`, where there is one. -/
def nameField (queryString : Bytes) : Bytes :=
  if 38 ∈ queryString then valueOf (queryString.takeWhile (· != 38)) else []

def passwdField (queryString : Bytes) : Bytes := valueOf (queryString.dropWhile (· != 38)).tail

/-- No NUL, no quote, and no backslash but in `\%` and `\_`. -/
def Inert (field : Bytes) : Prop :=
  NUL ∉ field ∧ 39 ∉ field ∧
    ∀ rest, 92 :: rest <:+ field → rest.head? = some 37 ∨ rest.head? = some 95

theorem cutString_byte (input : Bytes) (b : Byte) :
    cutString input [b] [] [] =
      if b ∈ input then (input.takeWhile (· != b), (input.dropWhile (· != b)).tail)
      else ([], []) := by
  rw [cutString, find, Lib.Cut.dropInfix?_singleton]
  by_cases h : b ∈ input
  · simp only [if_pos h, Option.map_some]
    have hcut (p q : Bytes) (h : p ++ q = input) :
        input.take p.length = p ∧ input.drop (p.length + [b].length) = q.tail := by
      subst h
      simp [List.drop_append]
    obtain ⟨htake, hdrop⟩ := hcut _ _ (List.takeWhile_append_dropWhile (p := (· != b)))
    rw [htake, hdrop]
  · simp only [if_neg h, Option.map_none]

theorem cutString_value (field : Bytes) : (cutString field (str "=") [] []).2 = valueOf field := by
  rw [show str "=" = [61] from rfl, cutString_byte]
  split
  · rfl
  · rename_i h
    rw [valueOf, Lib.Cut.dropWhile_absent h]
    rfl

theorem sqlFields_eq (queryString : Bytes) :
    sqlFields queryString = (nameField queryString, passwdField queryString) := by
  unfold sqlFields
  dsimp only
  rw [cutString_value, cutString_value, show str "&" = [38] from rfl, cutString_byte, nameField,
    passwdField]
  split
  · rfl
  · rename_i h
    rw [Lib.Cut.dropWhile_absent h]
    rfl

theorem unescape_keeps (b : Byte) : unescape b = [92, b] ↔ b = 37 ∨ b = 95 := by
  constructor
  · intro h
    by_contra hb
    have hlen := congrArg List.length h
    simp only [unescape, if_neg hb] at hlen
    split_ifs at hlen <;> cases hlen
  · rintro (rfl | rfl) <;> rfl

theorem inert_iff (field : Bytes) :
    Inert field ↔ NUL ∉ field ∧ Lib.Literal.Verbatim mysqlRules field := by
  rw [Lib.Literal.verbatim_iff mysqlRules (by decide) (by decide) (by decide)]
  simp only [Inert, mysqlRules, unescape_keeps]
  refine and_congr_right fun _ => and_congr_right fun _ => forall_congr' fun rest => ?_
  refine imp_congr_right fun _ => ?_
  constructor
  · rintro (h | h)
    · exact ⟨37, h, Or.inl rfl⟩
    · exact ⟨95, h, Or.inr rfl⟩
  · rintro ⟨b, h, rfl | rfl⟩
    · exact Or.inl h
    · exact Or.inr h

theorem insertTokens_separated (name passwd : Bytes) :
    Lib.Literal.Separated mysqlRules (insertTokens name passwd) := by
  apply Lib.Literal.separated_symbols
  · decide
  · simp [Lib.Literal.Separated, mysqlRules]

theorem insertTokens_render (queryString : Bytes) :
    Lib.Literal.render mysqlRules
        (insertTokens (nameField queryString) (passwdField queryString)) =
      sqlOf queryString := by
  rw [insertTokens, Lib.Literal.render_symbols, sqlOf, sqlFields_eq]
  simp [Lib.Literal.render, Token.text, mysqlRules, str]

theorem insertTokens_allVerbatim (name passwd : Bytes) :
    Lib.Literal.AllVerbatim mysqlRules (insertTokens name passwd) ↔
      Lib.Literal.Verbatim mysqlRules name ∧ Lib.Literal.Verbatim mysqlRules passwd := by
  simp [Lib.Literal.AllVerbatim, insertTokens]

theorem cstr_sqlOf (queryString : Bytes) :
    cstr (sqlOf queryString) = sqlOf queryString ↔
      NUL ∉ nameField queryString ∧ NUL ∉ passwdField queryString := by
  have hplain : NUL ∉ str "insert into user(name, password) values ('" ∧
      NUL ∉ str "','" ∧ NUL ∉ str "')" := by decide
  have hmem : NUL ∉ sqlOf queryString ↔
      NUL ∉ nameField queryString ∧ NUL ∉ passwdField queryString := by
    rw [sqlOf, sqlFields_eq]
    simp only [List.mem_append, not_or, hplain]
    tauto
  rw [← hmem]
  constructor
  · intro h hnul
    rw [← h] at hnul
    have hne := List.mem_takeWhile_imp hnul
    simp at hne
  · exact cstr_eq_self

/-- **The fields stay data** exactly when both denote themselves inside a
literal. -/
theorem keepsData_iff (queryString : Bytes) :
    KeepsData queryString ↔ Inert (nameField queryString) ∧ Inert (passwdField queryString) := by
  have hprefix : cstr (sqlOf queryString) <+: Lib.Literal.render mysqlRules
      (insertTokens (nameField queryString) (passwdField queryString)) := by
    rw [insertTokens_render]
    exact List.takeWhile_prefix _
  rw [KeepsData, sqlFields_eq,
    Lib.Literal.lex_prefix_iff mysqlRules (insertTokens_separated _ _) hprefix,
    insertTokens_render, cstr_sqlOf, insertTokens_allVerbatim, inert_iff, inert_iff]
  tauto

/-- A name that ends its row and begins another. -/
theorem keepsData_injected :
    lex mysqlRules none (cstr (sqlOf (str "name=a','b'),('c&passwd=d"))) =
        some (insertTokens (str "a") (str "b") ++
          [.symbol 44, .symbol 40, .literal (str "c"), .symbol 44, .literal (str "d"),
            .symbol 41]) ∧
      ¬ KeepsData (str "name=a','b'),('c&passwd=d") := by
  have hlex : lex mysqlRules none (cstr (sqlOf (str "name=a','b'),('c&passwd=d"))) =
      some (insertTokens (str "a") (str "b") ++
        [.symbol 44, .symbol 40, .literal (str "c"), .symbol 44, .literal (str "d"),
          .symbol 41]) := by
    decide +kernel
  refine ⟨hlex, fun h => ?_⟩
  rw [KeepsData, hlex] at h
  exact absurd h (by decide)

/-- The page printed says that the row is there. -/
def Registration.acknowledged (r : Registration) : Bool := (main r).1 = successPage

def Registration.stored (r : Registration) : Bool := (main r).2.isSome

/-- Each page printed stands for a row, and there are as many new rows as
pages. -/
structure Honest (table : List Bytes) (rs : List Registration) : Prop where
  each : ∀ r ∈ rs, r.acknowledged = true ↔ r.stored = true
  total : (runAll table rs).2.length = table.length + (runAll table rs).1.count successPage

/-- The row is inserted, if there is one to insert. -/
def Registration.succeeds (r : Registration) : Prop :=
  r.result = true → r.db.realConnect = true ∧ r.db.query = 0

theorem acknowledged_eq (r : Registration) : r.acknowledged = r.result := by
  have hpage : successPage ≠ [] := by decide
  unfold Registration.acknowledged main insertSql
  cases r.result with
  | false => simp [hpage.symm]
  | true => cases r.db.realConnect <;> simp [toBool]

theorem stored_iff (r : Registration) :
    r.stored = true ↔ r.result = true ∧ r.db.realConnect = true ∧ r.db.query = 0 := by
  unfold Registration.stored main insertSql
  cases r.result with
  | false => simp
  | true => cases r.db.realConnect <;> by_cases h : r.db.query = 0 <;> simp [h]

theorem acknowledged_iff_stored (r : Registration) :
    (r.acknowledged = true ↔ r.stored = true) ↔ r.succeeds := by
  rw [acknowledged_eq, stored_iff, Registration.succeeds]
  tauto

/-- The pages are those of the registrations, in order. -/
theorem runAll_pages (table : List Bytes) (rs : List Registration) :
    (runAll table rs).1.count successPage = rs.countP Registration.acknowledged := by
  induction rs generalizing table with
  | nil => rfl
  | cons r rs ih =>
    rw [runAll, List.count_cons, ih, List.countP_cons]
    simp [Registration.acknowledged]

theorem runAll_rows (table : List Bytes) (rs : List Registration) :
    (runAll table rs).2.length = table.length + rs.countP Registration.stored := by
  induction rs generalizing table with
  | nil => rfl
  | cons r rs ih =>
    rw [runAll, ih, List.length_append, List.countP_cons, Registration.stored]
    cases (main r).2 with
    | none => simp
    | some row =>
      simp
      omega

/-- **What is acknowledged is stored**, over a run, exactly when every
registration of it finds the database and has its query accepted. -/
theorem runAll_honest_iff (table : List Bytes) (rs : List Registration) :
    Honest table rs ↔ ∀ r ∈ rs, r.succeeds := by
  constructor
  · intro h r hr
    exact (acknowledged_iff_stored r).mp (h.each r hr)
  · intro h
    have heach : ∀ r ∈ rs, r.acknowledged = true ↔ r.stored = true := by
      intro r hr
      exact (acknowledged_iff_stored r).mpr (h r hr)
    refine ⟨heach, ?_⟩
    rw [runAll_pages, runAll_rows, List.countP_congr heach]

/-- The database is not there: a page, and no row. -/
theorem runAll_dishonest :
    (runAll [] [⟨true, str "name=tom&passwd=111111", false, 0⟩]) = ([successPage], []) ∧
      ¬ Honest [] [⟨true, str "name=tom&passwd=111111", false, 0⟩] := by
  refine ⟨by decide, fun h => ?_⟩
  exact absurd h.total (by decide)

end MinHttp.Cgi

import MinHttp.Query

/-! comm.hpp: `GetQueryString` as a function of the environment and of a
standard input whose reads may come to nothing. -/
namespace MinHttp.Cgi

open Lib.Numerals (signed unsigned)

/-- What a call `read(0, &c, 1)` returns. -/
inductive ReadResult
  | one
  | zero
  | minusOne
  deriving DecidableEq, Repr

/-- The bytes before the end of standard input and the results of its calls,
counted from 0. Where no byte is left, none is read. -/
structure Stdin where
  incoming : Bytes
  calls : Nat
  results : Nat → ReadResult

/-- The byte stored in `c`, if one is. -/
def read0 (s : Stdin) : Option Byte × Stdin :=
  if s.results s.calls = .one then
    (s.incoming.head?, { s with incoming := s.incoming.tail, calls := s.calls + 1 })
  else (none, { s with calls := s.calls + 1 })

/-- The loop of `GetQueryString`, with so many iterations left. -/
def readLoop : Nat → Byte → Bytes → Stdin → Bytes × Stdin
  | 0, _, queryString, s => (queryString, s)
  | n + 1, c, queryString, s =>
    let (got, s) := read0 s
    let c := got.getD c
    readLoop n c (queryString ++ [c]) s

/-- The result, `query_string` and what is left of standard input. A `getenv`
that finds nothing ends the program. -/
def getQueryString (env : Env) (s : Stdin) : Option (Bool × Bytes × Stdin) :=
  match env (str "METHOD") with
  | none => none
  | some method =>
    if method = methodGet then (env (str "QUERY_STRING")).map fun query => (true, query, s)
    else if method = methodPost then
      (env (str "CONTENT_LENGTH")).map fun length =>
        (true, readLoop (unsigned 32 (atoi length)) 0 [] s)
    else some (false, [], s)

/-- The bytes read between two states of standard input. -/
def Stdin.taken (s after : Stdin) : Bytes :=
  s.incoming.take (s.incoming.length - after.incoming.length)

/-- The next `n` calls read a byte each. -/
def Stdin.Delivers (s : Stdin) (n : Nat) : Prop :=
  n ≤ s.incoming.length ∧ ∀ i < n, s.results (s.calls + i) = .one

/-- The query string is made of bytes read, and of all `n` where they are
there. -/
structure Genuine (s : Stdin) (n : Nat) (queryString : Bytes) (after : Stdin) : Prop where
  bytes : queryString <+: s.taken after
  length : queryString.length ≤ n
  all : s.Delivers n → queryString = s.incoming.take n

theorem read0_one {s : Stdin} {ch : Byte} {rest : Bytes} (hr : s.results s.calls = .one)
    (hin : s.incoming = ch :: rest) :
    read0 s = (some ch, { s with incoming := rest, calls := s.calls + 1 }) := by
  simp [read0, hr, hin]

/-- One call takes a byte or nothing. -/
theorem read0_cases (s : Stdin) :
    (read0 s).2.incoming = s.incoming ∨
      ∃ ch rest, s.results s.calls = .one ∧ s.incoming = ch :: rest := by
  unfold read0
  split
  case isTrue hone =>
    cases hin : s.incoming with
    | nil => exact Or.inl rfl
    | cons ch rest => exact Or.inr ⟨ch, rest, hone, rfl⟩
  case isFalse => exact Or.inl rfl

theorem Stdin.delivers_succ (s : Stdin) (n : Nat) :
    s.Delivers (n + 1) ↔ ∃ ch rest, s.results s.calls = .one ∧ s.incoming = ch :: rest ∧
      Stdin.Delivers { s with incoming := rest, calls := s.calls + 1 } n := by
  constructor
  · rintro ⟨hlen, hres⟩
    cases hin : s.incoming with
    | nil =>
      rw [hin] at hlen
      exact absurd hlen (Nat.not_succ_le_zero n)
    | cons ch rest =>
      rw [hin] at hlen
      refine ⟨ch, rest, hres 0 (Nat.succ_pos n), rfl, Nat.le_of_succ_le_succ hlen, fun i hi => ?_⟩
      have hlater := hres (i + 1) (Nat.succ_lt_succ hi)
      rwa [Nat.add_comm i 1, ← Nat.add_assoc] at hlater
  · rintro ⟨ch, rest, hnow, hin, hlen, hres⟩
    refine ⟨?_, fun i hi => ?_⟩
    · rw [hin]
      exact Nat.succ_le_succ hlen
    · cases i with
      | zero => exact hnow
      | succ i =>
        have hlater := hres i (Nat.lt_of_succ_lt_succ hi)
        rwa [Nat.add_assoc, Nat.add_comm 1 i] at hlater

theorem readLoop_succ (n : Nat) (c : Byte) (queryString : Bytes) (s : Stdin) :
    readLoop (n + 1) c queryString s =
      readLoop n ((read0 s).1.getD c) (queryString ++ [(read0 s).1.getD c]) (read0 s).2 := rfl

/-- A byte is pushed in every iteration. -/
theorem readLoop_length (n : Nat) (c : Byte) (queryString : Bytes) (s : Stdin) :
    (readLoop n c queryString s).1.length = queryString.length + n := by
  induction n generalizing c queryString s with
  | zero => rfl
  | succ n ih =>
    rw [readLoop_succ, ih, List.length_append, List.length_singleton, Nat.add_assoc, Nat.add_comm 1]

/-- What is taken is at most a byte an iteration, and as many as that only if
every call delivers. -/
theorem readLoop_taken (n : Nat) (c : Byte) (queryString : Bytes) (s : Stdin) :
    let after := (readLoop n c queryString s).2
    after.incoming.length ≤ s.incoming.length ∧
      s.incoming.length ≤ after.incoming.length + n ∧
      (s.incoming.length = after.incoming.length + n → s.Delivers n) := by
  induction n generalizing c queryString s with
  | zero =>
    refine ⟨Nat.le_refl _, Nat.le_refl _, fun _ => ⟨Nat.zero_le _, fun i hi => ?_⟩⟩
    exact absurd hi (Nat.not_lt_zero i)
  | succ n ih =>
    have hlater := ih ((read0 s).1.getD c) (queryString ++ [(read0 s).1.getD c]) (read0 s).2
    rw [readLoop_succ]
    dsimp only at hlater ⊢
    obtain ⟨hmono, hle, hall⟩ := hlater
    rcases read0_cases s with hin | ⟨ch, rest, hone, hin⟩
    · rw [hin] at hle hmono
      exact ⟨hmono, by omega, fun h => absurd h (by omega)⟩
    · rw [read0_one hone hin] at hmono hle hall ⊢
      rw [hin, List.length_cons]
      refine ⟨Nat.le_succ_of_le hmono, Nat.succ_le_succ hle, fun h => ?_⟩
      exact (s.delivers_succ n).mpr ⟨ch, rest, hone, hin, hall (Nat.succ.inj h)⟩

/-- Where every call delivers, what is pushed is what is read. -/
theorem readLoop_delivers {n : Nat} (c : Byte) (queryString : Bytes) {s : Stdin}
    (hd : s.Delivers n) :
    (readLoop n c queryString s).1 = queryString ++ s.incoming.take n ∧
      (readLoop n c queryString s).2.incoming = s.incoming.drop n := by
  induction n generalizing c queryString s with
  | zero => exact ⟨(List.append_nil _).symm, rfl⟩
  | succ n ih =>
    obtain ⟨ch, rest, hone, hin, hd⟩ := (s.delivers_succ n).mp hd
    obtain ⟨hquery, hrest⟩ := ih ch (queryString ++ [ch]) hd
    rw [readLoop_succ, read0_one hone hin, hin]
    constructor
    · rw [List.take_succ_cons]
      exact hquery.trans (List.append_cons queryString ch _).symm
    · rw [List.drop_succ_cons]
      exact hrest

theorem genuine_iff (n : Nat) (s : Stdin) :
    Genuine s n (readLoop n 0 [] s).1 (readLoop n 0 [] s).2 ↔ s.Delivers n := by
  have hlen := readLoop_length n 0 [] s
  rw [List.length_nil, Nat.zero_add] at hlen
  constructor
  · intro h
    obtain ⟨hmono, hle, hall⟩ := readLoop_taken n 0 [] s
    have hpush := h.bytes.length_le
    rw [hlen, Stdin.taken, List.length_take] at hpush
    exact hall (by omega)
  · intro hd
    obtain ⟨hquery, hrest⟩ := readLoop_delivers 0 [] hd
    rw [List.nil_append] at hquery
    refine ⟨?_, Nat.le_of_eq hlen, fun _ => hquery⟩
    have hn := hd.1
    rw [Stdin.taken, hquery, hrest, List.length_drop, Nat.sub_sub_self hn]

/-- **No input is fabricated** exactly when each of the `n` reads yields a
byte. -/
theorem getQueryString_genuine_iff {env : Env} {length : Bytes} {n : Nat}
    (hmethod : env (str "METHOD") = some methodPost)
    (hlength : env (str "CONTENT_LENGTH") = some length) (hn : atoi length = n) (s : Stdin) :
    (∃ queryString after, getQueryString env s = some (true, queryString, after) ∧
      Genuine s n queryString after) ↔ s.Delivers n := by
  have hne : methodPost ≠ methodGet := by decide
  have hlt := (atoi_bounds length).2
  have hcount : unsigned 32 (atoi length) = n := by
    rw [Lib.Numerals.unsigned32_of_nonneg (by omega) hlt, hn, Int.toNat_natCast]
  have hrun : getQueryString env s = some (true, readLoop n 0 [] s) := by
    simp only [getQueryString, hmethod, if_neg hne, if_true, hlength, Option.map_some, hcount]
  rw [← genuine_iff, hrun]
  constructor
  · rintro ⟨queryString, after, heq, h⟩
    have hparts : readLoop n 0 [] s = (queryString, after) := by simpa using heq
    rw [hparts]
    exact h
  · intro h
    exact ⟨_, _, rfl, h⟩

def postEnv (length : Bytes) : Env := fun name =>
  if name = str "METHOD" then some methodPost
  else if name = str "CONTENT_LENGTH" then some length else none

theorem getQueryString_genuine_iff_three :
    let s : Stdin := ⟨str "a=1", 0, fun _ => .one⟩
    (∃ queryString after, getQueryString (postEnv (str "3")) s = some (true, queryString, after) ∧
      Genuine s 3 queryString after) ↔ s.Delivers 3 :=
  @getQueryString_genuine_iff (postEnv (str "3")) (str "3") 3 rfl rfl (by decide) _

/-- One byte of two: it is pushed twice. -/
theorem getQueryString_repeats :
    let s : Stdin := ⟨str "a", 0, fun _ => .one⟩
    getQueryString (postEnv (str "2")) s = some (true, str "aa", ⟨[], 2, s.results⟩) ∧
      ¬ Genuine s 2 (str "aa") ⟨[], 2, s.results⟩ := by
  intro s
  refine ⟨rfl, fun h => ?_⟩
  have hle := h.bytes.length_le
  exact absurd hle (by decide)

section
variable {κ : Type} (env : Env) (m : CgiMain κ)

/-- A call of `read` is answered by standard input. -/
def feed (run : Caller κ × Stdin) : Caller κ × Stdin :=
  match (caller env m).act run.1 with
  | .read _ got => (got (read0 run.2).1.toList, (read0 run.2).2)
  | _ => run

/-- The loop of the program reads as `readLoop` does, whatever its counter
starts from. -/
theorem feed_loop {contentLength : Int} (hlo : -2 ^ 31 ≤ contentLength)
    (hhi : contentLength < 2 ^ 31) (c : Byte) (queryString : Bytes) (looked : List Bytes)
    (s : Stdin) :
    let n := unsigned 32 contentLength
    let r := readLoop n c queryString s
    (feed env m)^[n] (whileContentLength m contentLength c queryString looked, s) =
      (.back true r.1 looked (m.after true r.1), r.2) := by
  induction hn : unsigned 32 contentLength generalizing contentLength c queryString s with
  | zero =>
    obtain rfl := Lib.Numerals.eq_zero_of_unsigned32 hlo hhi hn
    rfl
  | succ n ih =>
    have hne : contentLength ≠ 0 := by
      rintro rfl
      cases hn
    have hb := Lib.Numerals.signed32_bounds (contentLength - 1)
    have hpred : unsigned 32 (signed 32 (contentLength - 1)) = n := by
      have hstep := Lib.Numerals.unsigned32_pred hne hlo hhi
      omega
    have hgot : (read0 s).1.toList.headD c = (read0 s).1.getD c := by
      cases (read0 s).1 <;> rfl
    have hstep := ih hb.1 hb.2 ((read0 s).1.getD c) (queryString ++ [(read0 s).1.getD c])
      (read0 s).2 hpred
    dsimp only
    rw [Function.iterate_succ_apply, whileContentLength, if_neg hne, readLoop_succ]
    simp only [feed, caller, hgot]
    exact hstep

end

end MinHttp.Cgi

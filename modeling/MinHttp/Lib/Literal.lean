import Mathlib.Data.List.Basic

/-! Texts with quoted literals: a doubled quote and an escape stay inside a
literal, any other quote ends it. A literal never denotes more symbols than it
is written with, and as many only where it denotes its own text. -/
namespace Lib.Literal

inductive Token (α : Type*)
  | symbol (a : α)
  | literal (value : List α)
  deriving DecidableEq, Repr

/-- What an escape and the symbol after it denote: the two themselves, or one
symbol at most. -/
structure Rules (α : Type*) where
  quote : α
  escape : α
  unescape : α → List α
  shorter : ∀ a, unescape a = [escape, a] ∨ (unescape a).length ≤ 1

variable {α : Type*} [DecidableEq α] (R : Rules α)

/-- Outside a literal for `none`, and behind what it denotes so far for
`some`. A literal that is not ended is no text. -/
def lex : Option (List α) → List α → Option (List (Token α))
  | none, [] => some []
  | none, a :: rest =>
    if a = R.quote then lex (some []) rest else (lex none rest).map (.symbol a :: ·)
  | some _, [] => none
  | some value, [a] => if a = R.quote then some [.literal value] else none
  | some value, a :: b :: rest =>
    if a = R.quote then
      if b = R.quote then lex (some (value ++ [R.quote])) rest
      else (lex none (b :: rest)).map (.literal value :: ·)
    else if a = R.escape then lex (some (value ++ R.unescape b)) rest
    else lex (some (value ++ [a])) (b :: rest)

/-- A text that denotes itself inside a literal. -/
def Verbatim : List α → Prop
  | [] => True
  | [a] => a ≠ R.quote ∧ a ≠ R.escape
  | a :: b :: rest =>
    a ≠ R.quote ∧
      if a = R.escape then R.unescape b = [R.escape, b] ∧ Verbatim rest else Verbatim (b :: rest)

/-- The quote that ends a literal is one that is not doubled. -/
theorem lex_close {rest : List α} (hrest : rest.head? ≠ some R.quote) (value : List α) :
    lex R (some value) (R.quote :: rest) = (lex R none rest).map (.literal value :: ·) := by
  cases rest with
  | nil => simp [lex]
  | cons b rest =>
    have hb : b ≠ R.quote := by
      rintro rfl
      exact hrest rfl
    conv_lhs => rw [lex]
    rw [if_pos rfl, if_neg hb]

theorem lex_verbatim {text : List α} (h : Verbatim R text) {rest : List α}
    (hrest : rest.head? ≠ some R.quote) (value : List α) :
    lex R (some value) (text ++ R.quote :: rest) =
      (lex R none rest).map (.literal (value ++ text) :: ·) := by
  induction text using Verbatim.induct generalizing value with
  | case1 => simpa using lex_close R hrest value
  | case2 a =>
    obtain ⟨hq, he⟩ := h
    rw [List.singleton_append, lex, if_neg hq, if_neg he]
    exact lex_close R hrest _
  | case3 a b text ihrest ih =>
    obtain ⟨hq, hkeep⟩ := h
    rw [List.cons_append, List.cons_append, lex, if_neg hq]
    by_cases he : a = R.escape
    · rw [if_pos he] at hkeep ⊢
      rw [ihrest hkeep.2, hkeep.1, List.append_assoc, he]
      rfl
    · rw [if_neg he] at hkeep ⊢
      rw [← List.cons_append, ih hkeep, List.append_assoc]
      rfl

/-- The symbols needed to write a token, if it denotes itself. -/
def Token.size : Token α → Nat
  | .symbol _ => 1
  | .literal value => value.length + 2

def size : List (Token α) → Nat
  | [] => 0
  | token :: rest => token.size + size rest

/-- Every literal denotes its own text. -/
def AllVerbatim (tokens : List (Token α)) : Prop :=
  ∀ value, .literal value ∈ tokens → Verbatim R value

/-- The text has room for its tokens, and no more than that only where every
literal is verbatim; `value` is already denoted. -/
def Covers : Option (List α) → List α → List (Token α) → Prop
  | none, text, tokens =>
    size tokens ≤ text.length ∧ (size tokens = text.length → AllVerbatim R tokens)
  | some value, text, tokens =>
    ∃ more rest, tokens = .literal (value ++ more) :: rest ∧
      more.length + 1 + size rest ≤ text.length ∧
      (more.length + 1 + size rest = text.length → Verbatim R more ∧ AllVerbatim R rest)

theorem verbatim_cons {a : α} (hq : a ≠ R.quote) (he : a ≠ R.escape) {text : List α}
    (h : Verbatim R text) : Verbatim R (a :: text) := by
  cases text with
  | nil => exact ⟨hq, he⟩
  | cons b text =>
    constructor
    · exact hq
    · rw [if_neg he]
      exact h

theorem verbatim_escape (hq : R.escape ≠ R.quote) {b : α} (hb : R.unescape b = [R.escape, b])
    {text : List α} (h : Verbatim R text) : Verbatim R (R.escape :: b :: text) := by
  constructor
  · exact hq
  · rw [if_pos rfl]
    exact ⟨hb, h⟩

/-- Symbols that denote fewer, or denote themselves. -/
theorem Covers.denote (written : List α) {value more text : List α} {tokens : List (Token α)}
    (h : Covers R (some (value ++ more)) text tokens)
    (hle : more.length ≤ written.length)
    (hkeep : more.length = written.length →
      ∀ rest, Verbatim R rest → Verbatim R (more ++ rest)) :
    Covers R (some value) (written ++ text) tokens := by
  obtain ⟨rest, tail, rfl, hlen, hsame⟩ := h
  refine ⟨more ++ rest, tail, by rw [List.append_assoc], ?_, fun heq => ?_⟩
  · simp only [List.length_append]
    omega
  · simp only [List.length_append] at heq
    obtain ⟨hrest, htail⟩ := hsame (by omega)
    exact ⟨hkeep (by omega) rest hrest, htail⟩

theorem allVerbatim_symbol {a : α} {tokens : List (Token α)} (h : AllVerbatim R tokens) :
    AllVerbatim R (.symbol a :: tokens) := by
  intro value hmem
  exact h value (by simpa using hmem)

theorem allVerbatim_literal {value : List α} {tokens : List (Token α)} (hv : Verbatim R value)
    (h : AllVerbatim R tokens) : AllVerbatim R (.literal value :: tokens) := by
  intro value' hmem
  rcases List.mem_cons.mp hmem with heq | hmem
  · cases heq
    exact hv
  · exact h value' hmem

theorem lex_covers {mode : Option (List α)} {text : List α} {tokens : List (Token α)}
    (h : lex R mode text = some tokens) : Covers R mode text tokens := by
  fun_induction lex R mode text generalizing tokens with
  | case1 =>
    cases h
    exact ⟨Nat.le_refl _, fun _ _ hmem => by cases hmem⟩
  | case2 text ih =>
    obtain ⟨more, rest, rfl, hlen, hsame⟩ := ih h
    simp only [Covers, size, Token.size, List.nil_append, List.length_cons] at hlen hsame ⊢
    refine ⟨by omega, fun heq => ?_⟩
    obtain ⟨hmore, hrest⟩ := hsame (by omega)
    exact allVerbatim_literal R hmore hrest
  | case3 a text hq ih =>
    obtain ⟨rest, hrest, rfl⟩ := Option.map_eq_some_iff.mp h
    obtain ⟨hlen, hsame⟩ := ih hrest
    simp only [Covers, size, Token.size, List.length_cons] at hlen hsame ⊢
    exact ⟨by omega, fun heq => allVerbatim_symbol R (hsame (by omega))⟩
  | case4 | case6 => cases h
  | case5 value =>
    cases h
    refine ⟨[], [], by rw [List.append_nil], Nat.le_refl _, fun _ => ⟨trivial, ?_⟩⟩
    intro _ hmem
    cases hmem
  | case7 value text ih =>
    -- a doubled quote denotes one
    apply Covers.denote R [R.quote, R.quote] (ih h)
    · simp
    · intro heq
      simp at heq
  | case8 value b text hb ih =>
    obtain ⟨rest, hrest, rfl⟩ := Option.map_eq_some_iff.mp h
    obtain ⟨hlen, hsame⟩ := ih hrest
    refine ⟨[], rest, by rw [List.append_nil], ?_, fun heq => ⟨trivial, hsame ?_⟩⟩
    · simp only [List.length_nil, List.length_cons] at hlen ⊢
      omega
    · simp only [List.length_nil, List.length_cons] at heq ⊢
      omega
  | case9 value b text hq ih =>
    apply Covers.denote R [R.escape, b] (ih h)
    · rcases R.shorter b with hb | hb
      · exact Nat.le_of_eq (congrArg List.length hb)
      · exact Nat.le_trans hb (by simp)
    · intro heq rest hrest
      rcases R.shorter b with hb | hb
      · rw [hb]
        exact verbatim_escape R hq hb hrest
      · simp only [List.length_cons, List.length_nil] at heq
        omega
  | case10 value a b text hq he ih =>
    apply Covers.denote R [a] (ih h)
    · exact Nat.le_refl _
    · intro _ rest hrest
      exact verbatim_cons R hq he hrest

def Token.text : Token α → List α
  | .symbol a => [a]
  | .literal value => R.quote :: value ++ [R.quote]

def render (tokens : List (Token α)) : List α := tokens.flatMap (Token.text R)

/-- No symbol is a quote, and no literal follows another. -/
def Separated : List (Token α) → Prop
  | [] => True
  | .symbol a :: rest => a ≠ R.quote ∧ Separated rest
  | .literal _ :: rest => (∀ value, rest.head? ≠ some (.literal value)) ∧ Separated rest

omit [DecidableEq α] in
theorem length_render (tokens : List (Token α)) : (render R tokens).length = size tokens := by
  induction tokens with
  | nil => rfl
  | cons token tokens ih =>
    rw [render, List.flatMap_cons, List.length_append, ← render, ih, size]
    cases token <;> simp [Token.text, Token.size]

omit [DecidableEq α] in
theorem render_symbols (text : List α) (rest : List (Token α)) :
    render R (text.map Token.symbol ++ rest) = text ++ render R rest := by
  induction text with
  | nil => rfl
  | cons a text ih =>
    rw [List.map_cons, List.cons_append, render, List.flatMap_cons, ← render, ih]
    rfl

omit [DecidableEq α] in
theorem separated_symbols {text : List α} (h : R.quote ∉ text) {rest : List (Token α)}
    (hrest : Separated R rest) : Separated R (text.map Token.symbol ++ rest) := by
  induction text with
  | nil => exact hrest
  | cons a text ih =>
    obtain ⟨ha, htext⟩ := not_or.mp (mt List.mem_cons.mpr h)
    exact ⟨Ne.symm ha, ih htext⟩

omit [DecidableEq α] in
theorem head_render {tokens : List (Token α)} (hsep : Separated R tokens)
    (hhead : ∀ value, tokens.head? ≠ some (.literal value)) :
    (render R tokens).head? ≠ some R.quote := by
  cases tokens with
  | nil => simp [render]
  | cons token rest =>
    cases token with
    | symbol a => simpa [render, Token.text] using hsep.1
    | literal value => exact absurd rfl (hhead value)

theorem lex_render {tokens : List (Token α)} (hsep : Separated R tokens)
    (h : AllVerbatim R tokens) : lex R none (render R tokens) = some tokens := by
  induction tokens with
  | nil => rfl
  | cons token rest ih =>
    have hrest : AllVerbatim R rest := fun value hmem => h value (List.mem_cons_of_mem _ hmem)
    rw [render, List.flatMap_cons, ← render]
    cases token with
    | symbol a =>
      obtain ⟨ha, hsep⟩ := hsep
      rw [Token.text, List.singleton_append, lex, if_neg ha, ih hsep hrest]
      rfl
    | literal value =>
      obtain ⟨hhead, hsep⟩ := hsep
      rw [Token.text, List.append_assoc, List.cons_append, lex, if_pos rfl, List.singleton_append,
        lex_verbatim R (h value List.mem_cons_self) (head_render R hsep hhead), ih hsep hrest]
      rfl

/-- What is left of a written text is read back exactly when nothing of it is
missing and its literals denote themselves. -/
theorem lex_prefix_iff {tokens : List (Token α)} (hsep : Separated R tokens) {text : List α}
    (htext : text <+: render R tokens) :
    lex R none text = some tokens ↔ text = render R tokens ∧ AllVerbatim R tokens := by
  constructor
  · intro h
    obtain ⟨hlen, hsame⟩ := lex_covers R h
    have hshort := htext.length_le
    rw [length_render] at hshort
    have heq := Nat.le_antisymm hlen hshort
    exact ⟨htext.eq_of_length (by rw [length_render, heq]), hsame heq⟩
  · rintro ⟨rfl, h⟩
    exact lex_render R hsep h

/-- Every escape is followed by a symbol with which it denotes both. -/
theorem verbatim_iff (hquote : R.escape ≠ R.quote) (hq : R.unescape R.quote ≠ [R.escape, R.quote])
    (he : R.unescape R.escape ≠ [R.escape, R.escape]) (text : List α) :
    Verbatim R text ↔
      R.quote ∉ text ∧ ∀ rest, R.escape :: rest <:+ text →
        ∃ b, rest.head? = some b ∧ R.unescape b = [R.escape, b] := by
  induction text using Verbatim.induct with
  | case1 => simp [Verbatim]
  | case2 a =>
    simp only [Verbatim, List.mem_singleton, List.suffix_cons_iff, List.cons.injEq,
      List.suffix_nil, reduceCtorEq, or_false, and_imp]
    constructor
    · rintro ⟨haq, hae⟩
      exact ⟨Ne.symm haq, fun rest h _ => absurd h.symm hae⟩
    · rintro ⟨haq, hae⟩
      refine ⟨Ne.symm haq, ?_⟩
      rintro rfl
      obtain ⟨b, hb, -⟩ := hae [] rfl rfl
      cases hb
  | case3 a b text ihrest ih =>
    rw [Verbatim]
    by_cases hae : a = R.escape
    · rw [if_pos hae, ihrest, hae]
      simp only [List.mem_cons, not_or, List.suffix_cons_iff, List.cons.injEq, true_and]
      constructor
      · rintro ⟨-, hb, hmem, hall⟩
        refine ⟨⟨Ne.symm hquote, ?_, hmem⟩, ?_⟩
        · rintro rfl
          exact hq hb
        · rintro rest (rfl | ⟨rfl, -⟩ | hsuffix)
          · exact ⟨b, rfl, hb⟩
          · exact absurd hb he
          · exact hall rest hsuffix
      · rintro ⟨⟨-, -, hmem⟩, hall⟩
        obtain ⟨b', hb', hkeep⟩ := hall _ (Or.inl rfl)
        cases hb'
        exact ⟨hquote, hkeep, hmem, fun rest h => hall rest (Or.inr (Or.inr h))⟩
    · rw [if_neg hae, ih]
      rw [List.mem_cons (b := a), not_or]
      constructor
      · rintro ⟨hne, hmem, hall⟩
        refine ⟨⟨Ne.symm hne, hmem⟩, fun rest hsuffix => ?_⟩
        rcases List.suffix_cons_iff.mp hsuffix with heq | hsuffix
        · cases heq
          exact absurd rfl hae
        · exact hall rest hsuffix
      · rintro ⟨⟨hne, hmem⟩, hall⟩
        exact ⟨Ne.symm hne, hmem, fun rest h => hall rest (List.suffix_cons_iff.mpr (Or.inr h))⟩

end Lib.Literal

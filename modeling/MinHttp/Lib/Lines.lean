import Mathlib.Data.List.Basic

/-! Texts cut into lines by `cr lf`, `lf` or a lone `cr`, over any alphabet.
`render` writes lines, `next?` and `block?` read them back. -/
namespace Lib.Lines

variable {α : Type*} (cr lf : α)

inductive Ending
  | crlf
  | lf
  | cr
  deriving DecidableEq, Repr

def Ending.symbols : Ending → List α
  | .crlf => [cr, lf]
  | .lf => [lf]
  | .cr => [cr]

structure Line (α : Type*) where
  text : List α
  ending : Ending
  deriving DecidableEq, Repr

def Line.symbols (l : Line α) : List α := l.text ++ l.ending.symbols cr lf

/-- The lines one after another, and then the rest of the stream. -/
def render (lines : List (Line α)) (rest : List α) : List α :=
  (lines.map (Line.symbols cr lf)).flatten ++ rest

/-- Neither terminator occurs in the text. -/
def Plain (text : List α) : Prop := cr ∉ text ∧ lf ∉ text

/-- The rendering can be read one way only: texts hold no terminator, and no
lone `cr` is followed by an `lf`. -/
def Separated : List (Line α) → List α → Prop
  | [], _ => True
  | l :: ls, rest =>
    Plain cr lf l.text ∧ (l.ending = .cr → (render cr lf ls rest).head? ≠ some lf) ∧
      Separated ls rest

/-- The part of `Separated` that is about endings. -/
def Unambiguous : List (Line α) → List α → Prop
  | [], _ => True
  | l :: ls, rest =>
    (l.ending = .cr → (render cr lf ls rest).head? ≠ some lf) ∧ Unambiguous ls rest

@[simp] theorem render_nil (rest : List α) : render cr lf [] rest = rest := rfl

@[simp] theorem render_cons (l : Line α) (ls : List (Line α)) (rest : List α) :
    render cr lf (l :: ls) rest = l.text ++ (l.ending.symbols cr lf ++ render cr lf ls rest) := by
  simp [render, Line.symbols]

theorem separated_cons (l : Line α) (ls : List (Line α)) (rest : List α) :
    Separated cr lf (l :: ls) rest ↔ Plain cr lf l.text ∧
      (l.ending = .cr → (render cr lf ls rest).head? ≠ some lf) ∧ Separated cr lf ls rest :=
  Iff.rfl

theorem render_append (ls ls' : List (Line α)) (rest : List α) :
    render cr lf (ls ++ ls') rest = render cr lf ls (render cr lf ls' rest) := by
  simp [render]

theorem rest_length_le (ls : List (Line α)) (rest : List α) :
    rest.length ≤ (render cr lf ls rest).length := by
  simp only [render, List.length_append]
  omega

variable {cr lf}

theorem Plain.tail {c : α} {text : List α} (h : Plain cr lf (c :: text)) : Plain cr lf text :=
  ⟨fun hc => h.1 (List.mem_cons_of_mem _ hc), fun hc => h.2 (List.mem_cons_of_mem _ hc)⟩

theorem Plain.cons {c : α} {text : List α} (hcr : c ≠ cr) (hlf : c ≠ lf)
    (h : Plain cr lf text) : Plain cr lf (c :: text) :=
  ⟨by simpa [hcr.symm] using h.1, by simpa [hlf.symm] using h.2⟩

variable (cr lf) in
theorem Ending.symbols_length_pos (e : Ending) : 0 < (e.symbols cr lf).length := by
  cases e <;> simp [Ending.symbols]

theorem separated_iff (ls : List (Line α)) (rest : List α) :
    Separated cr lf ls rest ↔ (∀ l ∈ ls, Plain cr lf l.text) ∧ Unambiguous cr lf ls rest := by
  induction ls with
  | nil => simp [Separated, Unambiguous]
  | cons l ls ih =>
    simp only [separated_cons, ih, Unambiguous, List.forall_mem_cons]
    constructor
    · rintro ⟨hp, he, hps, hu⟩
      exact ⟨⟨hp, hps⟩, he, hu⟩
    · rintro ⟨⟨hp, hps⟩, he, hu⟩
      exact ⟨hp, he, hps, hu⟩

variable (cr lf) in
/-- A line that can stand where `l` stands. -/
structure Replaces (l l' : Line α) : Prop where
  ending : l'.ending = l.ending
  nonempty : l.text ≠ [] → l'.text ≠ []
  plain : Plain cr lf l.text → Plain cr lf l'.text

theorem Replaces.refl (l : Line α) : Replaces cr lf l l := ⟨rfl, id, id⟩

theorem Replaces.nonempty_of_forall₂ {lines lines' : List (Line α)}
    (h : List.Forall₂ (Replaces cr lf) lines lines') (hne : ∀ l ∈ lines, l.text ≠ []) :
    ∀ l ∈ lines', l.text ≠ [] := by
  induction h with
  | nil => exact hne
  | cons hl _ ih =>
    rw [List.forall_mem_cons] at hne ⊢
    exact ⟨hl.nonempty hne.1, ih hne.2⟩

theorem head?_render_ne {l : Line α} (hne : l.text ≠ []) (hp : Plain cr lf l.text)
    (ls : List (Line α)) (rest : List α) : (render cr lf (l :: ls) rest).head? ≠ some lf := by
  obtain ⟨c, text, htext⟩ := List.exists_cons_of_ne_nil hne
  rw [render_cons, htext, List.cons_append, List.head?_cons]
  intro h
  apply hp.2
  rw [htext, Option.some.inj h]
  exact List.mem_cons_self

/-- Only an empty line can begin with a terminator, so the endings stay as
clear as they were. -/
theorem Separated.replace {lines lines' ls : List (Line α)} {rest : List α}
    (h : List.Forall₂ (Replaces cr lf) lines lines') (hne : ∀ l ∈ lines, l.text ≠ [])
    (hs : Separated cr lf (lines ++ ls) rest) : Separated cr lf (lines' ++ ls) rest := by
  induction h with
  | nil => exact hs
  | cons hl hrest ih =>
    rw [List.forall_mem_cons] at hne
    rw [List.cons_append, separated_cons] at hs ⊢
    obtain ⟨hp, he, hs⟩ := hs
    refine ⟨hl.plain hp, fun hcr => ?_, ih hne.2 hs⟩
    cases hrest with
    | nil => exact he (hl.ending ▸ hcr)
    | cons hnext _ =>
      rw [List.forall_mem_cons] at hne
      exact head?_render_ne (hnext.nonempty hne.2.1) (hnext.plain hs.1) _ _

/-- `rest` goes on with `more`; the reader swallows an `lf` where all it had was
the `cr` before it. -/
def GoesOn (lf : α) (rest more rest' : List α) : Prop :=
  rest' = rest ++ more ∨ rest = [] ∧ more = lf :: rest'

theorem GoesOn.of_ne_nil {rest more rest' : List α} (h : GoesOn lf rest more rest')
    (hne : rest ≠ []) : rest' = rest ++ more := by
  rcases h with happend | ⟨hnil, -⟩
  · exact happend
  · exact absurd hnil hne

/-- What is taken next is what it would be without `more`, if there is enough. -/
theorem GoesOn.split {rest more rest' : List α} (h : GoesOn lf rest more rest') {n : Nat}
    (hn : n ≤ rest.length) :
    n ≤ rest'.length ∧ rest'.take n = rest.take n ∧
      GoesOn lf (rest.drop n) more (rest'.drop n) := by
  rcases h with rfl | ⟨rfl, rfl⟩
  · have hle : n ≤ (rest ++ more).length := by
      rw [List.length_append]
      exact Nat.le_add_right_of_le hn
    exact ⟨hle, List.take_append_of_le_length hn, Or.inl (List.drop_append_of_le_length hn)⟩
  · obtain rfl : n = 0 := Nat.le_zero.mp hn
    exact ⟨Nat.zero_le _, rfl, Or.inr ⟨rfl, rfl⟩⟩

variable [DecidableEq α]

instance (text : List α) : Decidable (Plain cr lf text) :=
  inferInstanceAs (Decidable (_ ∧ _))

instance decidableUnambiguous : ∀ (ls : List (Line α)) (rest : List α),
    Decidable (Unambiguous cr lf ls rest)
  | [], _ => isTrue trivial
  | _ :: ls, rest =>
    have := decidableUnambiguous ls rest
    inferInstanceAs (Decidable ((_ → _) ∧ _))

variable (cr lf) in
/-- The first terminated line and what follows it. -/
def next? : List α → Option (List α × List α)
  | [] => none
  | c :: s =>
    if c = lf then some ([], s)
    else if c = cr then some ([], if s.head? = some lf then s.tail else s)
    else (next? s).map fun p => (c :: p.1, p.2)

theorem next?_cons_plain {c : α} (hcr : c ≠ cr) (hlf : c ≠ lf) (s : List α) :
    next? cr lf (c :: s) = (next? cr lf s).map fun p => (c :: p.1, p.2) := by
  simp [next?, hcr, hlf]

/-- A rendered line is read back, and the reader stops right after its ending. -/
theorem next?_line (hne : cr ≠ lf) {text rest : List α} {e : Ending} (ht : Plain cr lf text)
    (hcr : e = .cr → rest.head? ≠ some lf) :
    next? cr lf (text ++ (e.symbols cr lf ++ rest)) = some (text, rest) := by
  induction text with
  | nil =>
    cases e with
    | crlf => simp [Ending.symbols, next?, hne]
    | lf => simp [Ending.symbols, next?]
    | cr => simp [Ending.symbols, next?, hne, hcr rfl]
  | cons c text ih =>
    have hc : c ≠ cr ∧ c ≠ lf :=
      ⟨fun h => ht.1 (by simp [h]), fun h => ht.2 (by simp [h])⟩
    rw [List.cons_append, next?_cons_plain hc.1 hc.2, ih ht.tail]
    rfl

/-- What the reader returns was rendered as one line. -/
theorem next?_sound {s text rest : List α} (h : next? cr lf s = some (text, rest)) :
    ∃ e : Ending, s = text ++ (e.symbols cr lf ++ rest) ∧ Plain cr lf text ∧
      (e = .cr → rest.head? ≠ some lf) := by
  induction s generalizing text with
  | nil => simp [next?] at h
  | cons c s ih =>
    by_cases hlf : c = lf
    · subst hlf
      simp only [next?, if_true, Option.some.injEq, Prod.mk.injEq] at h
      obtain ⟨rfl, rfl⟩ := h
      exact ⟨.lf, rfl, by simp [Plain], by simp⟩
    · by_cases hcr : c = cr
      · subst hcr
        simp only [next?, hlf, if_false, if_true, Option.some.injEq, Prod.mk.injEq] at h
        obtain ⟨rfl, hrest⟩ := h
        by_cases hs : s.head? = some lf
        · obtain ⟨t, rfl⟩ := List.head?_eq_some_iff.mp hs
          simp only [List.head?_cons, List.tail_cons, if_true] at hrest
          exact ⟨.crlf, by simp [Ending.symbols, hrest], by simp [Plain], by simp⟩
        · simp only [hs, if_false] at hrest
          exact ⟨.cr, by simp [Ending.symbols, hrest], by simp [Plain], by simpa [← hrest]⟩
      · rw [next?_cons_plain hcr hlf, Option.map_eq_some_iff] at h
        obtain ⟨⟨text', rest'⟩, h', heq⟩ := h
        simp only [Prod.mk.injEq] at heq
        obtain ⟨rfl, rfl⟩ := heq
        obtain ⟨e, rfl, hp, he⟩ := ih h'
        exact ⟨e, rfl, hp.cons hcr hlf, he⟩

theorem next?_length {s text rest : List α} (h : next? cr lf s = some (text, rest)) :
    text.length + rest.length < s.length := by
  obtain ⟨e, rfl, _⟩ := next?_sound h
  have := e.symbols_length_pos cr lf
  simp only [List.length_append]
  omega

/-- A line that is there is read the same, whatever follows it. -/
theorem next?_append (hne : cr ≠ lf) {s text rest : List α}
    (h : next? cr lf s = some (text, rest)) (more : List α) :
    ∃ rest', next? cr lf (s ++ more) = some (text, rest') ∧ GoesOn lf rest more rest' := by
  obtain ⟨e, rfl, hp, he⟩ := next?_sound h
  by_cases hswallow : e = .cr ∧ rest = [] ∧ more.head? = some lf
  · obtain ⟨rfl, rfl, hmore⟩ := hswallow
    obtain ⟨more, rfl⟩ := List.head?_eq_some_iff.mp hmore
    refine ⟨more, ?_, Or.inr ⟨rfl, rfl⟩⟩
    rw [List.append_nil, List.append_assoc]
    exact next?_line (e := .crlf) hne hp fun hcr => (by cases hcr)
  · refine ⟨rest ++ more, ?_, Or.inl rfl⟩
    rw [List.append_assoc, List.append_assoc]
    refine next?_line hne hp fun hcr hhead => ?_
    cases rest with
    | nil => exact hswallow ⟨hcr, rfl, hhead⟩
    | cons c rest => exact he hcr hhead

variable (cr lf) in
/-- Every `cr lf` and every lone `cr` replaced by `lf`. -/
def normalise : List α → List α
  | [] => []
  | c :: s =>
    if c = cr then (if s.head? = some lf then normalise s else lf :: normalise s)
    else c :: normalise s

theorem normalise_append {text : List α} (ht : cr ∉ text) (s : List α) :
    normalise cr lf (text ++ s) = text ++ normalise cr lf s := by
  induction text with
  | nil => rfl
  | cons c text ih =>
    have hc : c ≠ cr := fun h => ht (h ▸ List.mem_cons_self)
    have htail : cr ∉ text := fun h => ht (List.mem_cons_of_mem _ h)
    rw [List.cons_append, normalise, if_neg hc, ih htail]
    rfl

theorem normalise_ending (hne : cr ≠ lf) {e : Ending} {rest : List α}
    (hcr : e = .cr → rest.head? ≠ some lf) :
    normalise cr lf (e.symbols cr lf ++ rest) = lf :: normalise cr lf rest := by
  cases e with
  | crlf => simp [Ending.symbols, normalise, hne.symm]
  | lf => simp [Ending.symbols, normalise, hne.symm]
  | cr => simp [Ending.symbols, normalise, hcr rfl]

theorem next?_none {s : List α} (h : next? cr lf s = none) : Plain cr lf s := by
  induction s with
  | nil => simp [Plain]
  | cons c s ih =>
    by_cases hlf : c = lf
    · simp [next?, hlf] at h
    · by_cases hcr : c = cr
      · simp only [next?, if_neg hlf, if_pos hcr] at h
        cases h
      · rw [next?_cons_plain hcr hlf, Option.map_eq_none_iff] at h
        exact (ih h).cons hcr hlf

/-- The lines of the normalised text are those that `next?` reads. -/
theorem splitOn_normalise (hne : cr ≠ lf) (s : List α) :
    (normalise cr lf s).splitOn lf =
      match next? cr lf s with
      | some (text, rest) => text :: (normalise cr lf rest).splitOn lf
      | none => [s] := by
  cases h : next? cr lf s with
  | none =>
    obtain ⟨hcr, hlf⟩ := next?_none h
    have hsame : normalise cr lf s = s := by
      simpa [normalise] using @normalise_append _ _ lf _ _ hcr []
    rw [hsame]
    apply List.splitOnP_eq_singleton
    intro c hc
    simpa using fun he : c = lf => hlf (he ▸ hc)
  | some p =>
    obtain ⟨text, rest⟩ := p
    obtain ⟨e, rfl, hp, he⟩ := next?_sound h
    rw [normalise_append hp.1, normalise_ending hne he]
    apply List.splitOnP_append_cons_of_forall_mem
    · intro c hc
      simpa using fun he : c = lf => hp.2 (he ▸ hc)
    · simp

variable (cr lf) in
/-- The lines before the first empty one, and what follows that empty line. -/
def block? (s : List α) : Option (List (List α) × List α) :=
  match _h : next? cr lf s with
  | none => none
  | some ([], rest) => some ([], rest)
  | some (c :: text, rest) => (block? rest).map fun p => ((c :: text) :: p.1, p.2)
termination_by s.length
decreasing_by
  have := next?_length _h
  omega

theorem block?_none {s : List α} (h : next? cr lf s = none) : block? cr lf s = none := by
  rw [block?]
  split <;> simp_all

theorem block?_empty {s rest : List α} (h : next? cr lf s = some ([], rest)) :
    block? cr lf s = some ([], rest) := by
  rw [block?]
  split <;> simp_all

theorem block?_line {s text rest : List α} (h : next? cr lf s = some (text, rest))
    (ht : text ≠ []) :
    block? cr lf s = (block? cr lf rest).map fun p => (text :: p.1, p.2) := by
  rw [block?]
  split
  · simp_all
  · simp_all
  · rename_i heq
    rw [h] at heq
    cases heq
    rfl

/-- The empty line that closes a block of lines. -/
def Line.blank (e : Ending) : Line α := ⟨[], e⟩

/-- A block is read back line by line, up to and including its empty line. -/
theorem block?_render (hne : cr ≠ lf) {lines : List (Line α)} {e : Ending} {rest : List α}
    (hs : Separated cr lf (lines ++ [.blank e]) rest) (hl : ∀ l ∈ lines, l.text ≠ []) :
    block? cr lf (render cr lf (lines ++ [.blank e]) rest) = some (lines.map Line.text, rest) := by
  induction lines with
  | nil =>
    obtain ⟨hp, he, _⟩ := hs
    exact block?_empty (by simpa [Line.blank] using next?_line hne hp he)
  | cons l lines ih =>
    rw [List.cons_append, separated_cons] at hs
    obtain ⟨hp, he, hs⟩ := hs
    rw [List.cons_append, render_cons,
      block?_line (next?_line hne hp he) (hl l List.mem_cons_self),
      ih hs (fun x hx => hl x (List.mem_cons_of_mem _ hx))]
    rfl

/-- Every block the reader finds was rendered. -/
theorem block?_sound {s : List α} {texts : List (List α)} {rest : List α}
    (h : block? cr lf s = some (texts, rest)) :
    ∃ (lines : List (Line α)) (e : Ending), texts = lines.map Line.text ∧
      s = render cr lf (lines ++ [.blank e]) rest ∧
      Separated cr lf (lines ++ [.blank e]) rest ∧ ∀ l ∈ lines, l.text ≠ [] := by
  induction hn : s.length using Nat.strongRecOn generalizing s texts with
  | ind n ih =>
    cases hnext : next? cr lf s with
    | none => simp [block?_none hnext] at h
    | some p =>
      obtain ⟨text, tail⟩ := p
      obtain ⟨e, hs, hp, he⟩ := next?_sound hnext
      by_cases ht : text = []
      · subst ht
        rw [block?_empty hnext] at h
        simp only [Option.some.injEq, Prod.mk.injEq] at h
        obtain ⟨rfl, rfl⟩ := h
        exact ⟨[], e, rfl, by simpa [Line.blank] using hs, ⟨hp, he, trivial⟩,
          by simp⟩
      · rw [block?_line hnext ht, Option.map_eq_some_iff] at h
        obtain ⟨⟨texts', rest'⟩, h', heq⟩ := h
        simp only [Prod.mk.injEq] at heq
        obtain ⟨rfl, rfl⟩ := heq
        have hlen := next?_length hnext
        obtain ⟨lines, e', rfl, hr, hsep, hl⟩ := ih tail.length (by omega) h' rfl
        refine ⟨⟨text, e⟩ :: lines, e', rfl, by simp [hs, hr], ⟨hp, ?_, hsep⟩, ?_⟩
        · simpa [← hr] using he
        · intro l hm
          rcases List.mem_cons.mp hm with rfl | hm
          · exact ht
          · exact hl l hm

theorem block?_ne_nil {s : List α} {p : List (List α) × List α} (h : block? cr lf s = some p) :
    s ≠ [] := by
  rintro rfl
  rw [block?_none rfl] at h
  cases h

/-- And so is a block of lines. -/
theorem block?_append (hne : cr ≠ lf) {s : List α} {texts : List (List α)} {rest : List α}
    (h : block? cr lf s = some (texts, rest)) (more : List α) :
    ∃ rest', block? cr lf (s ++ more) = some (texts, rest') ∧ GoesOn lf rest more rest' := by
  induction hn : s.length using Nat.strongRecOn generalizing s texts with
  | ind n ih =>
    cases hnext : next? cr lf s with
    | none => simp [block?_none hnext] at h
    | some p =>
      obtain ⟨text, tail⟩ := p
      obtain ⟨tail', hnext', hgoesOn⟩ := next?_append hne hnext more
      by_cases ht : text = []
      · subst ht
        rw [block?_empty hnext] at h
        simp only [Option.some.injEq, Prod.mk.injEq] at h
        obtain ⟨rfl, rfl⟩ := h
        exact ⟨tail', block?_empty hnext', hgoesOn⟩
      · rw [block?_line hnext ht, Option.map_eq_some_iff] at h
        obtain ⟨⟨texts', rest'⟩, h', heq⟩ := h
        simp only [Prod.mk.injEq] at heq
        obtain ⟨rfl, rfl⟩ := heq
        have htail : tail' = tail ++ more := hgoesOn.of_ne_nil (block?_ne_nil h')
        have hlen := next?_length hnext
        obtain ⟨rest, hblock, hrest⟩ := ih tail.length (by omega) h' rfl
        refine ⟨rest, ?_, hrest⟩
        rw [block?_line hnext' ht, htail, hblock]
        rfl

end Lib.Lines

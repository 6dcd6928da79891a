import MinHttp.Receive

/-! The request format apart from the code that reads it: tokens, header
pairs, and whole requests as they are written on the wire. -/
namespace MinHttp

open Lib.Lines (Line Ending render Plain)
open Lib.Numerals (isSpace)

/-- The whitespace-separated tokens of a line. -/
def tokens (line : Bytes) : List Bytes := (line.splitOnP isSpace).filter (· ≠ [])

/-- The header lines that hold a separator, cut at the first one. -/
def headPairs (head : List Bytes) : List (Bytes × Bytes) := head.filterMap (·.dropInfix? sep)

theorem tokens_cons_space {b : Byte} (hb : isSpace b = true) (s : Bytes) :
    tokens (b :: s) = tokens s := by
  simp [tokens, List.splitOnP_cons_eq_if_modifyHead, hb]

theorem tokens_dropSpace (s : Bytes) : tokens (s.dropWhile isSpace) = tokens s := by
  induction s with
  | nil => rfl
  | cons b s ih =>
    by_cases hb : isSpace b = true
    · rw [List.dropWhile_cons_of_pos hb, ih, tokens_cons_space hb]
    · rw [List.dropWhile_cons_of_neg hb]

@[simp] theorem tokens_nil : tokens [] = [] := rfl

/-- A token ends at a space or with the line. -/
theorem tokens_word {w rest : Bytes} (hne : w ≠ []) (hw : ∀ b ∈ w, isSpace b = false)
    (hrest : ∀ b ∈ rest.head?, isSpace b = true) : tokens (w ++ rest) = w :: tokens rest := by
  cases rest with
  | nil => simp [tokens, List.splitOnP_eq_singleton hw, hne]
  | cons b rest =>
    have hb : isSpace b = true := hrest b rfl
    rw [tokens_cons_space hb]
    simp [tokens, List.splitOnP_append_cons_of_forall_mem hw b hb, hne]

/-- `ss >> word` takes the first token and leaves the others. -/
theorem extract_spec (ss word : Bytes) :
    (tokens ss = [] ∧ extract ss word = (word, [])) ∨
      (extract ss word).1 ≠ [] ∧
        tokens ss = (extract ss word).1 :: tokens (extract ss word).2 := by
  rw [← tokens_dropSpace ss]
  simp only [extract]
  cases hs : ss.dropWhile isSpace with
  | nil => exact Or.inl ⟨rfl, rfl⟩
  | cons b s =>
    have hb : isSpace b = false := by
      have := List.head?_dropWhile_not isSpace ss
      simpa [hs] using this
    right
    have htake : (b :: s).takeWhile (fun b => !isSpace b) ≠ [] := by simp [hb]
    simp only [if_neg htake]
    refine ⟨htake, ?_⟩
    conv => lhs; rw [← List.takeWhile_append_dropWhile (p := fun b => !isSpace b) (l := b :: s)]
    apply tokens_word htake
    · intro c hc
      simpa using List.mem_takeWhile_imp hc
    · intro c hc
      have := List.head?_dropWhile_not (fun b => !isSpace b) (b :: s)
      rw [Option.mem_def.mp hc] at this
      simpa using this

/-- The three extractions of `ParseHttpRequestLine` take the first three
tokens; where the line has fewer, the string extracted into stays empty. -/
theorem extract_nil_fst (ss : Bytes) : (extract ss []).1 = (tokens ss).headD [] := by
  rcases extract_spec ss [] with ⟨ht, he⟩ | ⟨-, ht⟩
  · simp [ht, he]
  · simp [ht]

theorem tokens_extract_nil (ss : Bytes) : tokens (extract ss []).2 = (tokens ss).tail := by
  rcases extract_spec ss [] with ⟨ht, he⟩ | ⟨-, ht⟩
  · simp [ht, he]
  · simp [ht]

theorem parseHttpRequestLine_fresh {ep : EndPoint} (hm : ep.request.method = [])
    (hu : ep.request.uri = []) (hv : ep.request.version = []) :
    parseHttpRequestLine ep =
      { ep with request := { ep.request with
          method := ((tokens ep.request.reqLine).headD []).map toupper
          uri := (tokens ep.request.reqLine).tail.headD []
          version := (tokens ep.request.reqLine).tail.tail.headD [] } } := by
  simp only [parseHttpRequestLine, hm, hu, hv, extract_nil_fst, tokens_extract_nil]

theorem cutString_eq (target sub1 sub2 sep : Bytes) :
    cutString target sub1 sub2 sep =
      match target.dropInfix? sep with
      | some (a, b) => (true, a, b)
      | none => (false, sub1, sub2) := by
  simp only [cutString, find]
  cases h : target.dropInfix? sep with
  | none => rfl
  | some c =>
    obtain ⟨a, b⟩ := c
    have hl := (Lib.Cut.dropInfix?_eq_some.mp h).1
    simp only [Option.map_some, hl, List.take_left]
    rw [← List.append_assoc, ← List.length_append, List.drop_left]

theorem lookup_insertKv (kv : List (Bytes × Bytes)) (key value k : Bytes) :
    (insertKv kv key value).lookup k = (kv.lookup k).or ([(key, value)].lookup k) := by
  unfold insertKv
  split
  · rename_i h
    by_cases hk : k = key
    · subst hk
      obtain ⟨v, hv⟩ := Option.isSome_iff_exists.mp h
      simp [hv]
    · simp [List.lookup_cons, beq_eq_false_iff_ne.mpr hk]
  · simp [List.lookup_append]

/-- The table holds, for every key, the value of the first line that has it. -/
theorem lookup_headKv (head : List Bytes) (kv : List (Bytes × Bytes)) (k : Bytes) :
    (head.foldl parseHeadLine kv).lookup k = (kv.lookup k).or ((headPairs head).lookup k) := by
  induction head generalizing kv with
  | nil => simp [headPairs]
  | cons line head ih =>
    rw [List.foldl_cons, ih, parseHeadLine, cutString_eq]
    cases h : line.dropInfix? sep with
    | none => simp [headPairs, h]
    | some c =>
      obtain ⟨key, value⟩ := c
      simp only [lookup_insertKv, headPairs, List.filterMap_cons, h]
      rw [Option.or_assoc, ← List.lookup_append, List.singleton_append]

/-- The value of the first Content-Length header, where a body is looked for. -/
def announced (method : Bytes) (head : List Bytes) : Option Bytes :=
  if method = methodPost then (headPairs head).lookup contentLengthKey else none

/-- A request read off a stream, and what is left of the stream. -/
structure Parsed where
  line : Bytes
  head : List Bytes
  body : Bytes
  rest : Bytes
  deriving DecidableEq, Repr

def upperMethod (line : Bytes) : Bytes := ((tokens line).headD []).map toupper

/-- The first line, the lines up to an empty one, and as many bytes as the
announced length says, taken modulo 2^32. -/
def parse? (s : Bytes) : Option Parsed := do
  let (line, s) ← Lib.Lines.next? CR LF s
  let (head, s) ← Lib.Lines.block? CR LF s
  match announced (upperMethod line) head with
  | none => some ⟨line, head, [], s⟩
  | some v =>
    let n := Lib.Numerals.unsigned 32 (atoi v)
    if n ≤ s.length then some ⟨line, head, s.take n, s.drop n⟩ else none

/-- The request object for what was read. -/
def Parsed.request (p : Parsed) (size : Int) : HttpRequest :=
  { HttpRequest.new size with
    reqLine := p.line
    reqHead := p.head
    blank := [LF]
    reqBody := p.body
    method := upperMethod p.line
    uri := (tokens p.line).tail.headD []
    version := (tokens p.line).tail.tail.headD []
    contentLength := (announced (upperMethod p.line) p.head).elim 0 atoi
    headKv := p.head.foldl parseHeadLine [] }

/-- Every line read fits the reader's `int`. -/
def Parsed.Fits (p : Parsed) : Prop := MinHttp.Fits p.line ∧ ∀ t ∈ p.head, MinHttp.Fits t

instance (p : Parsed) : Decidable p.Fits := inferInstanceAs (Decidable (_ ∧ _))

/-- What stands between blanks: a method, a URI or a version. -/
structure Word where
  text : Bytes
  nonempty : text ≠ []
  noSpace : ∀ b ∈ text, isSpace b = false

theorem noSpace_of_all {text : Bytes} (h : text.all (fun b => !isSpace b) = true) :
    ∀ b ∈ text, isSpace b = false := by
  intro b hb
  simpa using List.all_eq_true.mp h b hb

structure Header where
  key : Bytes
  value : Bytes
  keyPlain : Plain CR LF key
  valuePlain : Plain CR LF value
  noSep : ¬ sep <:+: key

structure Message where
  method : Word
  uri : Word
  version : Word
  lineEnding : Ending
  headers : List (Header × Ending)
  blankEnding : Ending
  body : Bytes

def Header.text (h : Header) : Bytes := h.key ++ (sep ++ h.value)

def Message.requestLine (m : Message) : Bytes :=
  m.method.text ++ 32 :: (m.uri.text ++ 32 :: m.version.text)

def Message.headerLines (m : Message) : List (Line Byte) :=
  m.headers.map fun h => ⟨h.1.text, h.2⟩

/-- The request line, the header lines and the blank line. -/
def Message.lines (m : Message) : List (Line Byte) :=
  ⟨m.requestLine, m.lineEnding⟩ :: (m.headerLines ++ [.blank m.blankEnding])

/-- The request as it is sent, with `t` following on the same connection. -/
def Message.serialise (m : Message) (t : Bytes) : Bytes := render CR LF m.lines (m.body ++ t)

/-- The value of the first header line with a key. -/
def Message.first? (m : Message) (key : Bytes) : Option Bytes :=
  (m.headers.map fun h => (h.1.key, h.1.value)).lookup key

def Message.upperMethod (m : Message) : Bytes := m.method.text.map toupper

/-- The body is announced by its length, or there is none to announce. -/
def Message.Framed (m : Message) : Prop :=
  (m.upperMethod = methodPost ∧ m.body.length < 2 ^ 31 ∧
      m.first? contentLengthKey = some (Lib.Numerals.decimal m.body.length)) ∨
    (m.body = [] ∧ ¬ (m.upperMethod = methodPost ∧ (m.first? contentLengthKey).isSome))

instance (m : Message) : Decidable m.Framed := inferInstanceAs (Decidable (_ ∨ _))

theorem isSpace_CR_LF : isSpace CR = true ∧ isSpace LF = true := by decide

theorem Word.plain (w : Word) : Plain CR LF w.text := by
  constructor
  · intro h
    have := w.noSpace CR h
    simp [isSpace_CR_LF.1] at this
  · intro h
    have := w.noSpace LF h
    simp [isSpace_CR_LF.2] at this

theorem Header.plain (h : Header) : Plain CR LF h.text := by
  have hsep : Plain CR LF sep := by decide
  simp only [Plain, Header.text, List.mem_append, not_or]
  exact ⟨⟨h.keyPlain.1, hsep.1, h.valuePlain.1⟩, ⟨h.keyPlain.2, hsep.2, h.valuePlain.2⟩⟩

theorem Header.text_ne_nil (h : Header) : h.text ≠ [] := by
  simp [Header.text, show sep ≠ [] by decide]

theorem Header.cut (h : Header) : h.text.dropInfix? sep = some (h.key, h.value) :=
  Lib.Cut.dropInfix?_pair (by decide) h.noSep h.value

theorem Message.requestLine_plain (m : Message) : Plain CR LF m.requestLine := by
  have h32 : CR ≠ 32 ∧ LF ≠ 32 := by decide
  simp only [Plain, Message.requestLine, List.mem_append, List.mem_cons, not_or]
  exact ⟨⟨m.method.plain.1, h32.1, m.uri.plain.1, h32.1, m.version.plain.1⟩,
    ⟨m.method.plain.2, h32.2, m.uri.plain.2, h32.2, m.version.plain.2⟩⟩

theorem Message.lines_plain (m : Message) : ∀ l ∈ m.lines, Plain CR LF l.text := by
  intro l hl
  simp only [Message.lines, Message.headerLines, List.mem_cons, List.mem_append, List.mem_map,
    List.not_mem_nil, or_false] at hl
  rcases hl with rfl | ⟨h, -, rfl⟩ | rfl
  · exact m.requestLine_plain
  · exact h.1.plain
  · simp [Lib.Lines.Line.blank, Plain]

theorem Message.tokens_requestLine (m : Message) :
    tokens m.requestLine = [m.method.text, m.uri.text, m.version.text] := by
  have h32 : isSpace 32 = true := by decide
  have hlast : tokens m.version.text = [m.version.text] := by
    have h := tokens_word m.version.nonempty m.version.noSpace (show ∀ b ∈ [].head?, _ by simp)
    simpa using h
  rw [Message.requestLine, tokens_word m.method.nonempty m.method.noSpace (by simp [h32]),
    tokens_cons_space h32, tokens_word m.uri.nonempty m.uri.noSpace (by simp [h32]),
    tokens_cons_space h32, hlast]

theorem Message.headPairs_headerLines (m : Message) :
    headPairs (m.headerLines.map Line.text) = m.headers.map fun h => (h.1.key, h.1.value) := by
  simp only [headPairs, Message.headerLines, List.map_map, List.filterMap_map]
  rw [← List.filterMap_eq_map]
  apply List.filterMap_congr
  intro h _
  exact h.1.cut

end MinHttp

import Mathlib.Data.List.Forall2
import MinHttp.Accept

/-! A POST request spelled in two ways: other letter cases in its header names,
and other numbers of blanks behind their colons. -/
namespace MinHttp

open Lib.Lines (Line Ending render next? block? Plain Separated Replaces)
open Lib.Numerals (unsigned isSpace)

/-- One header line in two spellings. A line without a colon has one only. -/
inductive Respelled : Bytes → Bytes → Prop
  | plain {line : Bytes} (hcolon : 58 ∉ line) : Respelled line line
  | header (name name' value value' : Bytes) (hcolon : 58 ∉ name)
      (hcase : name'.map toupper = name.map toupper)
      (hblanks : value'.dropWhile (· == 32) = value.dropWhile (· == 32)) :
      Respelled (name ++ 58 :: value) (name' ++ 58 :: value')

/-- Header lines respelled one by one, each with its ending. -/
def Respelling (headers headers' : List (Line Byte)) : Prop :=
  List.Forall₂ (fun l l' => l'.ending = l.ending ∧ Respelled l.text l'.text) headers headers'

/-- A POST request on the wire: its lines, and all that follows them. -/
structure Post where
  first : Line Byte
  headers : List (Line Byte)
  blankEnding : Ending
  rest : Bytes
  method : upperMethod first.text = methodPost
  nonempty : ∀ l ∈ headers, l.text ≠ []
  separated : Separated CR LF (first :: (headers ++ [.blank blankEnding])) rest

def Post.stream (p : Post) : Bytes :=
  render CR LF (p.first :: (p.headers ++ [.blank p.blankEnding])) p.rest

def Post.head (p : Post) : List Bytes := p.headers.map Line.text

/-- Every line fits the reader's `int`. -/
def Post.Fits (p : Post) : Prop := MinHttp.Fits p.first.text ∧ ∀ t ∈ p.head, MinHttp.Fits t

/-- The bytes that the body loop is to take. -/
def lengthOf (head : List Bytes) : Nat :=
  ((headPairs head).lookup contentLengthKey).elim 0 fun v => unsigned 32 (atoi v)

/-- The same decision, the same body and the same bytes unread. -/
structure SameFraming (ep ep' : EndPoint) : Prop where
  decision : ep.isStop = ep'.isStop
  body : ep.request.reqBody = ep'.request.reqBody
  unread : ep.sock.incoming = ep'.sock.incoming

theorem toupper_eq {b c : Byte} (hb : b < 65) (h : toupper c = b) : c = b := by
  unfold toupper at h
  split at h
  · rename_i hc
    simp only [Bool.and_eq_true, decide_eq_true_eq, UInt8.le_iff_toNat_le] at hc
    have hsub : (c - 32).toNat = c.toNat - 32 := UInt8.toNat_sub_of_le _ _ (by
      simp only [UInt8.le_iff_toNat_le]
      exact Nat.le_trans (by decide) hc.1)
    rw [← h, UInt8.lt_iff_toNat_lt, hsub] at hb
    simp at hb hc
    omega
  · exact h

/-- Case does not matter to the bytes below the letters. -/
theorem mem_of_case {b : Byte} (hb : b < 65) {name name' : Bytes}
    (hcase : name'.map toupper = name.map toupper) (h : b ∈ name') : b ∈ name := by
  have hfixed : toupper b = b := by
    unfold toupper
    split
    · rename_i hc
      simp only [Bool.and_eq_true, decide_eq_true_eq, UInt8.le_iff_toNat_le] at hc
      rw [UInt8.lt_iff_toNat_lt] at hb
      simp at hb hc
      omega
    · rfl
  have hmem : b ∈ name.map toupper := by
    rw [← hcase, ← hfixed]
    exact List.mem_map_of_mem h
  obtain ⟨c, hc, hcb⟩ := List.mem_map.mp hmem
  exact toupper_eq hb hcb ▸ hc

theorem mem_of_blanks {b : Byte} (hb : b ≠ 32) {value value' : Bytes}
    (hblanks : value'.dropWhile (· == 32) = value.dropWhile (· == 32)) (h : b ∈ value') :
    b ∈ value := by
  have hdrop : b ∈ value'.dropWhile (· == 32) := by
    rw [← List.takeWhile_append_dropWhile (p := (· == 32)) (l := value'), List.mem_append] at h
    rcases h with h | h
    · exact absurd (by simpa using List.mem_takeWhile_imp h) hb
    · exact h
  rw [hblanks] at hdrop
  exact (List.dropWhile_suffix _).subset hdrop

theorem Respelled.mem {line line' : Bytes} (h : Respelled line line') {b : Byte} (hlt : b < 65)
    (hb : b ≠ 32) (hmem : b ∈ line') : b ∈ line := by
  cases h with
  | plain => exact hmem
  | header name name' value value' hcolon hcase hblanks =>
    rw [List.mem_append, List.mem_cons] at hmem ⊢
    rcases hmem with hname | rfl | hvalue
    · exact Or.inl (mem_of_case hlt hcase hname)
    · exact Or.inr (Or.inl rfl)
    · exact Or.inr (Or.inr (mem_of_blanks hb hblanks hvalue))

theorem Respelled.ne_nil {line line' : Bytes} (h : Respelled line line') (hne : line ≠ []) :
    line' ≠ [] := by
  cases h with
  | plain => exact hne
  | header => simp

theorem Respelled.keepsPlain {line line' : Bytes} (h : Respelled line line')
    (hp : Plain CR LF line) : Plain CR LF line' :=
  ⟨fun hmem => hp.1 (h.mem (by decide) (by decide) hmem),
    fun hmem => hp.2 (h.mem (by decide) (by decide) hmem)⟩

theorem Respelling.replaces {headers headers' : List (Line Byte)}
    (h : Respelling headers headers') : List.Forall₂ (Replaces CR LF) headers headers' :=
  List.Forall₂.imp (fun _ _ hl => ⟨hl.1, hl.2.ne_nil, hl.2.keepsPlain⟩) h

theorem Post.first_ne_nil (p : Post) : p.first.text ≠ [] := by
  intro h
  have hmethod := p.method
  rw [h] at hmethod
  exact absurd hmethod (by decide)

/-- The request with its headers respelled. -/
def Post.respell (p : Post) {headers' : List (Line Byte)} (h : Respelling p.headers headers') :
    Post where
  first := p.first
  headers := headers'
  blankEnding := p.blankEnding
  rest := p.rest
  method := p.method
  nonempty := Replaces.nonempty_of_forall₂ h.replaces p.nonempty
  separated := by
    have hlines : List.Forall₂ (Replaces CR LF) (p.first :: p.headers) (p.first :: headers') :=
      .cons (Replaces.refl p.first) h.replaces
    exact Separated.replace hlines (List.forall_mem_cons.mpr ⟨p.first_ne_nil, p.nonempty⟩)
      p.separated

/-- The request as a connection delivers it, and then the end of the stream. -/
def Post.received (p : Post) (size : Int) : EndPoint :=
  recvHttpRequest EndPoint.isStop (.new (.new p.stream fun _ => false) size)

theorem Post.received_spec (p : Post) (hfits : p.Fits) (size : Int) :
    (p.received size).isStop = decide (p.rest.length < lengthOf p.head) ∧
      (p.received size).request.reqBody = p.rest.take (lengthOf p.head) ∧
      (p.received size).sock.incoming = p.rest.drop (lengthOf p.head) := by
  obtain ⟨hp, he, hsep⟩ := (Lib.Lines.separated_cons CR LF _ _ _).mp p.separated
  have hl : next? CR LF p.stream =
      some (p.first.text, render CR LF (p.headers ++ [.blank p.blankEnding]) p.rest) := by
    rw [Post.stream, Lib.Lines.render_cons]
    exact Lib.Lines.next?_line CR_ne_LF hp he
  have hh := Lib.Lines.block?_render CR_ne_LF hsep p.nonempty
  obtain ⟨s, hs, hrest, hgo, heq⟩ :=
    receiveAll_headRead (Sock.new_sound p.stream) size hl hh hfits
  obtain ⟨_, -, -, hline⟩ := getRequestLine_new (Sock.new_sound p.stream) size hl hfits.1
  have hoff : (getRequestLine (.new (.new p.stream fun _ => false) size)).isStop = false := by
    rw [hline]
    rfl
  rw [← Post.head] at heq
  rw [Post.received, recvHttpRequest_eq_receiveAll hoff hgo, heq, recvHttpRequestBody_headRead,
    announced, if_pos p.method, ← hrest, lengthOf]
  cases (headPairs p.head).lookup contentLengthKey with
  | none => exact ⟨rfl, rfl, rfl⟩
  | some v => exact bodyLoop_takes hs (atoi_bounds v).1 (atoi_bounds v).2

/-- Two lengths frame the same stream in the same way when they are equal or
it holds neither. -/
theorem sameFraming_iff {ep ep' : EndPoint} {rest : Bytes} {n n' : Nat}
    (h : ep.isStop = decide (rest.length < n) ∧ ep.request.reqBody = rest.take n ∧
      ep.sock.incoming = rest.drop n)
    (h' : ep'.isStop = decide (rest.length < n') ∧ ep'.request.reqBody = rest.take n' ∧
      ep'.sock.incoming = rest.drop n') :
    SameFraming ep ep' ↔ n = n' ∨ rest.length < n ∧ rest.length < n' := by
  obtain ⟨hstop, hbody, hrest⟩ := h
  obtain ⟨hstop', hbody', hrest'⟩ := h'
  constructor
  · rintro ⟨hdecision, hsame, -⟩
    rw [hstop, hstop', decide_eq_decide] at hdecision
    have hlengths := congrArg List.length hsame
    rw [hbody, hbody', List.length_take, List.length_take] at hlengths
    omega
  · rintro (rfl | ⟨hn, hn'⟩)
    · exact ⟨hstop.trans hstop'.symm, hbody.trans hbody'.symm, hrest.trans hrest'.symm⟩
    · constructor
      · rw [hstop, hstop', decide_eq_true hn, decide_eq_true hn']
      · rw [hbody, hbody', List.take_of_length_le hn.le, List.take_of_length_le hn'.le]
      · rw [hrest, hrest', List.drop_of_length_le hn.le, List.drop_of_length_le hn'.le]

/-- The one spelling under which the length is looked up. -/
def lengthMark : Bytes := contentLengthKey ++ sep

/-- The respelling gives the mark to no line and takes it from none. -/
def KeepsMark (headers headers' : List (Line Byte)) : Prop :=
  List.Forall₂ (fun l l' => lengthMark <+: l'.text ↔ lengthMark <+: l.text) headers headers'

theorem lookup_headPairs_mark (v : Bytes) (head : List Bytes) :
    (headPairs ((lengthMark ++ v) :: head)).lookup contentLengthKey = some v := by
  have hcut : (lengthMark ++ v).dropInfix? sep = some (contentLengthKey, v) := by
    rw [lengthMark, List.append_assoc]
    exact Lib.Cut.dropInfix?_pair (by decide) (by decide) v
  simp [headPairs, hcut]

theorem lookup_headPairs_other {line : Bytes} (h : ¬ lengthMark <+: line) (head : List Bytes) :
    (headPairs (line :: head)).lookup contentLengthKey =
      (headPairs head).lookup contentLengthKey := by
  cases hcut : line.dropInfix? sep with
  | none => simp [headPairs, hcut]
  | some c =>
    obtain ⟨key, value⟩ := c
    have hkey : (contentLengthKey == key) = false := by
      apply beq_eq_false_iff_ne.mpr
      rintro rfl
      obtain ⟨rfl, -⟩ := Lib.Cut.dropInfix?_eq_some.mp hcut
      exact h ⟨value, by rw [lengthMark, List.append_assoc]⟩
    simp [headPairs, hcut, List.lookup_cons, hkey]

/-- `atoi` passes over the blanks. -/
theorem atoi_dropBlanks (v : Bytes) : atoi (v.dropWhile (· == 32)) = atoi v := by
  induction v with
  | nil => rfl
  | cons b v ih =>
    by_cases hb : b = 32
    · subst hb
      rw [List.dropWhile_cons_of_pos rfl, ih]
      rfl
    · rw [List.dropWhile_cons_of_neg (by simpa using hb)]

/-- Only the blanks before the number are respelled in a line that keeps its
mark. -/
theorem Respelled.mark {v v' : Bytes} (h : Respelled (lengthMark ++ v) (lengthMark ++ v')) :
    v'.dropWhile (· == 32) = v.dropWhile (· == 32) := by
  have hcut : ∀ w, (lengthMark ++ w).dropInfix? [58] = some (contentLengthKey, 32 :: w) := by
    intro w
    exact Lib.Cut.dropInfix?_single (k := contentLengthKey) (by decide) (32 :: w)
  have hline := hcut v
  have hline' := hcut v'
  generalize lengthMark ++ v = line at h hline
  generalize lengthMark ++ v' = line' at h hline'
  cases h with
  | plain hcolon =>
    rw [Lib.Cut.dropInfix?_singleton, if_neg hcolon] at hline
    cases hline
  | header name name' value value' hcolon hcase hblanks =>
    have hcolon' : 58 ∉ name' := fun hmem => hcolon (mem_of_case (by decide) hcase hmem)
    have hvalue := (Lib.Cut.dropInfix?_single hcolon value).symm.trans hline
    have hvalue' := (Lib.Cut.dropInfix?_single hcolon' value').symm.trans hline'
    cases hvalue
    cases hvalue'
    exact hblanks

/-- A respelling that keeps the mark keeps the length. -/
theorem lengthOf_respelled {headers headers' : List (Line Byte)} (h : Respelling headers headers')
    (hmark : KeepsMark headers headers') :
    lengthOf (headers'.map Line.text) = lengthOf (headers.map Line.text) := by
  induction h with
  | nil => rfl
  | @cons l l' ls ls' hl _ ih =>
    obtain ⟨hsame, hrest⟩ := List.forall₂_cons.mp hmark
    rw [List.map_cons, List.map_cons]
    by_cases hm : lengthMark <+: l.text
    · obtain ⟨v, hv⟩ := hm
      obtain ⟨v', hv'⟩ := hsame.mpr ⟨v, hv⟩
      have hspelled := hl.2
      rw [← hv, ← hv'] at hspelled
      unfold lengthOf
      rw [← hv, ← hv', lookup_headPairs_mark, lookup_headPairs_mark]
      simp only [Option.elim_some]
      rw [← atoi_dropBlanks v', hspelled.mark, atoi_dropBlanks]
    · have hm' : ¬ lengthMark <+: l'.text := fun hm' => hm (hsame.mp hm')
      unfold lengthOf at ih ⊢
      rw [lookup_headPairs_other hm, lookup_headPairs_other hm', ih hrest]

/-- **Two spellings of a request are framed alike** exactly when they announce
the same length or the stream holds neither, so wherever no line gains or
loses the mark. -/
theorem Post.respell_sameFraming_iff (p : Post) {headers' : List (Line Byte)}
    (h : Respelling p.headers headers') (hfits : p.Fits) (hfits' : (p.respell h).Fits)
    (size : Int) :
    (SameFraming (p.received size) ((p.respell h).received size) ↔
      lengthOf p.head = lengthOf (p.respell h).head ∨
        p.rest.length < lengthOf p.head ∧ p.rest.length < lengthOf (p.respell h).head) ∧
    (KeepsMark p.headers headers' →
      SameFraming (p.received size) ((p.respell h).received size)) := by
  have hiff := sameFraming_iff (p.received_spec hfits size)
    ((p.respell h).received_spec hfits' size)
  refine ⟨hiff, fun hmark => hiff.mpr (Or.inl ?_)⟩
  exact (lengthOf_respelled h hmark).symm

/-- A POST of one byte. -/
def onePost : Post where
  first := ⟨str "POST / HTTP/1.0", .crlf⟩
  headers := [⟨str "Host: a", .lf⟩, ⟨str "Content-Length: 1", .crlf⟩]
  blankEnding := .crlf
  rest := str "x"
  method := by decide
  nonempty := by decide
  separated := ⟨by decide, nofun, by decide, nofun, by decide, nofun, by decide, nofun, trivial⟩

theorem Post.fits_of_length {p : Post}
    (h : ∀ l ∈ p.first :: p.headers, l.text.length + 1 < 2 ^ 31) : p.Fits := by
  rw [List.forall_mem_cons] at h
  refine ⟨MinHttp.fits_of_length h.1, fun t ht => ?_⟩
  obtain ⟨l, hl, rfl⟩ := List.mem_map.mp ht
  exact MinHttp.fits_of_length (h.2 l hl)

/-- A name in capitals, a blank taken away and two added. -/
theorem onePost_wide :
    Respelling onePost.headers [⟨str "HOST:a", .lf⟩, ⟨str "Content-Length:   1", .crlf⟩] := by
  have hhost : Respelled (str "Host: a") (str "HOST:a") :=
    .header (str "Host") (str "HOST") (str " a") (str "a") (by decide) (by decide) (by decide)
  have hlength : Respelled (str "Content-Length: 1") (str "Content-Length:   1") :=
    .header (str "Content-Length") (str "Content-Length") (str " 1") (str "   1") (by decide)
      (by decide) (by decide)
  exact .cons ⟨rfl, hhost⟩ (.cons ⟨rfl, hlength⟩ .nil)

theorem onePost_lower :
    Respelling onePost.headers [⟨str "host: a", .lf⟩, ⟨str "content-length: 1", .crlf⟩] := by
  have hhost : Respelled (str "Host: a") (str "host: a") :=
    .header (str "Host") (str "host") (str " a") (str " a") (by decide) (by decide) (by decide)
  have hlength : Respelled (str "Content-Length: 1") (str "content-length: 1") :=
    .header (str "Content-Length") (str "content-length") (str " 1") (str " 1") (by decide)
      (by decide) (by decide)
  exact .cons ⟨rfl, hhost⟩ (.cons ⟨rfl, hlength⟩ .nil)

theorem onePost_tight :
    Respelling onePost.headers [⟨str "Host:a", .lf⟩, ⟨str "Content-Length:1", .crlf⟩] := by
  have hhost : Respelled (str "Host: a") (str "Host:a") :=
    .header (str "Host") (str "Host") (str " a") (str "a") (by decide) (by decide) (by decide)
  have hlength : Respelled (str "Content-Length: 1") (str "Content-Length:1") :=
    .header (str "Content-Length") (str "Content-Length") (str " 1") (str "1") (by decide)
      (by decide) (by decide)
  exact .cons ⟨rfl, hhost⟩ (.cons ⟨rfl, hlength⟩ .nil)

theorem respell_sameFraming_iff_wide :
    SameFraming (onePost.received 0) ((onePost.respell onePost_wide).received 0) :=
  (onePost.respell_sameFraming_iff onePost_wide (Post.fits_of_length (by decide))
    (Post.fits_of_length (by decide)) 0).2
    (.cons (by decide) (.cons (by decide) .nil))

/-- Without its body announced the request is taken for one without a body. -/
theorem onePost_spellings :
    ¬ SameFraming (onePost.received 0) ((onePost.respell onePost_lower).received 0) ∧
      ¬ SameFraming (onePost.received 0) ((onePost.respell onePost_tight).received 0) := by
  have hone := onePost.received_spec (Post.fits_of_length (by decide)) 0
  constructor
  · rw [sameFraming_iff hone
      ((onePost.respell onePost_lower).received_spec (Post.fits_of_length (by decide)) 0)]
    decide
  · rw [sameFraming_iff hone
      ((onePost.respell onePost_tight).received_spec (Post.fits_of_length (by decide)) 0)]
    decide

end MinHttp

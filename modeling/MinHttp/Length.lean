import MinHttp.Accept

/-! What becomes of a `Content-Length`: the text is read by `atoi`, and the
body loop counts the `int` down to zero. -/
namespace MinHttp

open Lib.Numerals (signed unsigned isDigit digitsValue)

/-- The values of the counter, at each test of the loop. -/
def bodyCounters (sock : Sock) (contentLength : Int) : List Int :=
  contentLength :: if contentLength = 0 then []
    else match _h : recv sock with
      | (.byte _, s) => bodyCounters s (signed 32 (contentLength - 1))
      | (.closed, _) => []
      | (.failed, _) => []
termination_by sock.incoming.length
decreasing_by exact recv_byte_length _h

/-- A numeral without a sign. -/
def Numeral (v : Bytes) : Prop := v ≠ [] ∧ ∀ b ∈ v, isDigit b = true

/-- A numeral below zero. -/
def NegativeNumeral (v : Bytes) : Prop :=
  ∃ digits, v = 45 :: digits ∧ Numeral digits ∧ digitsValue digits ≠ 0

/-- The length announced is the length of what is taken from the stream, or
the request is given up. -/
structure LengthHonoured (s : Sock) (v : Bytes) (ep : EndPoint) : Prop where
  numeral : Numeral v → ep.stop = true ∨
    digitsValue v ≤ s.incoming.length ∧
      ep.request.reqBody = s.incoming.take (digitsValue v) ∧
      ep.sock.incoming = s.incoming.drop (digitsValue v)
  negative : NegativeNumeral v → ep.stop = true ∧ ep.sock.incoming = s.incoming
  counter : ∀ x ∈ bodyCounters s (atoi v), 0 ≤ x

theorem bodyCounters_zero (s : Sock) : bodyCounters s 0 = [0] := by
  rw [bodyCounters, if_pos rfl]

theorem bodyCounters_byte {s t : Sock} {ch : Byte} {c : Int} (hc : c ≠ 0)
    (hr : recv s = (.byte ch, t)) :
    bodyCounters s c = c :: bodyCounters t (signed 32 (c - 1)) := by
  rw [bodyCounters, if_neg hc]
  split <;> rename_i heq <;> cases hr.symm.trans heq
  rfl

theorem bodyCounters_other {s t : Sock} {r : Recv} {c : Int} (hr : recv s = (r, t))
    (hbyte : ∀ ch, r ≠ .byte ch) : bodyCounters s c = [c] := by
  rw [bodyCounters]
  split
  · rfl
  · split <;> rename_i heq <;> cases hr.symm.trans heq
    · exact absurd rfl (hbyte _)
    · rfl
    · rfl

/-- What leaves the stream goes into the body, a byte for each test of the
counter but the last. -/
theorem bodyLoop_taken (s : Sock) (c : Int) (body : Bytes) :
    ∃ taken, s.incoming = taken ++ (bodyLoop s c body).sock.incoming ∧
      (bodyLoop s c body).body = body ++ taken ∧ taken.length + 1 = (bodyCounters s c).length := by
  induction hn : s.incoming.length using Nat.strongRecOn generalizing s c body with
  | ind n ih =>
    rw [bodyLoop]
    split
    · rename_i hc
      exact ⟨[], rfl, (List.append_nil _).symm, by rw [hc, bodyCounters_zero]; rfl⟩
    · rename_i hc
      split
      · rename_i ch t hr
        obtain ⟨taken, hin, hbody, hlen⟩ :=
          ih _ (hn ▸ recv_byte_length hr) t (signed 32 (c - 1)) (body ++ [ch]) rfl
        refine ⟨ch :: taken, ?_, ?_, ?_⟩
        · rw [recv_byte_incoming hr, List.cons_append, ← hin]
        · rw [hbody, List.append_assoc, List.singleton_append]
        · rw [bodyCounters_byte hc hr, List.length_cons, List.length_cons, hlen]
      · rename_i t hr
        refine ⟨[], (recv_other_incoming hr (by simp)).symm, (List.append_nil _).symm, ?_⟩
        rw [bodyCounters_other hr (by simp)]
        rfl
      · rename_i t hr
        refine ⟨[], (recv_other_incoming hr (by simp)).symm, (List.append_nil _).symm, ?_⟩
        rw [bodyCounters_other hr (by simp)]
        rfl

/-- A counter that starts at zero or above stays there. -/
theorem bodyCounters_nonneg (s : Sock) {c : Int} (hpos : 0 ≤ c) (hhi : c < 2 ^ 31) :
    ∀ x ∈ bodyCounters s c, 0 ≤ x := by
  induction hn : s.incoming.length using Nat.strongRecOn generalizing s c with
  | ind n ih =>
    intro x hx
    rw [bodyCounters, List.mem_cons] at hx
    rcases hx with rfl | hx
    · exact hpos
    · split at hx
      · cases hx
      · rename_i hc
        have hstep : signed 32 (c - 1) = c - 1 :=
          Lib.Numerals.signed32_of_mem (by omega) (by omega)
        split at hx
        · rename_i ch t hr
          rw [hstep] at hx
          exact ih _ (hn ▸ recv_byte_length hr) t (by omega) (by omega) rfl x hx
        · cases hx
        · cases hx

theorem bodyCounters_nonneg_iff (s : Sock) {c : Int} (hhi : c < 2 ^ 31) :
    (∀ x ∈ bodyCounters s c, 0 ≤ x) ↔ 0 ≤ c := by
  constructor
  · intro h
    apply h
    rw [bodyCounters]
    exact List.mem_cons_self
  · intro h
    exact bodyCounters_nonneg s h hhi

/-- A loop that takes nothing and gives up is one whose first call gives no
byte. -/
theorem bodyLoop_gives_up_iff (s : Sock) {c : Int} (hlo : -2 ^ 31 ≤ c) (hhi : c < 2 ^ 31) :
    ((bodyLoop s c []).stop = true ∧ (bodyLoop s c []).sock.incoming = s.incoming) ↔
      c ≠ 0 ∧ ¬ s.Delivers 1 := by
  obtain ⟨taken, hin, -, hlen⟩ := bodyLoop_taken s c []
  constructor
  · rintro ⟨hstop, hrest⟩
    have hc : c ≠ 0 := by
      rintro rfl
      rw [bodyLoop, if_pos rfl] at hstop
      cases hstop
    refine ⟨hc, fun hd => ?_⟩
    obtain ⟨ch, t, hr, -⟩ := (s.delivers_succ 0).mp hd
    have hnil : taken = [] := by
      rw [hrest] at hin
      exact List.self_eq_append_left.mp hin
    rw [hnil, bodyCounters_byte hc hr, List.length_cons, bodyCounters, List.length_cons] at hlen
    exact absurd hlen (by simp)
  · rintro ⟨hc, hnot⟩
    have hnone : ∀ ch t, recv s ≠ (.byte ch, t) := by
      intro ch t hr
      exact hnot ((s.delivers_succ 0).mpr ⟨ch, t, hr, t.delivers_zero⟩)
    rw [bodyLoop, if_neg hc]
    split
    · rename_i hr
      exact absurd hr (hnone _ _)
    · rename_i hr
      exact ⟨rfl, recv_other_incoming hr (by simp)⟩
    · rename_i hr
      exact ⟨rfl, recv_other_incoming hr (by simp)⟩

theorem atoi_numeral {v : Bytes} (h : Numeral v) (hlt : digitsValue v < 2 ^ 31) :
    atoi v = digitsValue v := by
  have hnul : NUL ∉ v := by
    intro hmem
    exact (Lib.Numerals.not_isSpace_of_isDigit (h.2 _ hmem)).2.2.2.1 rfl
  rw [atoi, cstr_eq_self hnul, Lib.Numerals.atoi, Lib.Numerals.strtol_digits h.1 h.2,
    min_eq_right (by omega)]
  exact Lib.Numerals.signed32_natCast_of_lt hlt

/-- A numeral that does not fit an `int` announces another length. -/
theorem bodyLoop_numeral_iff (s : Sock) {v : Bytes} (h : Numeral v) (hpos : 0 ≤ atoi v) :
    ((bodyLoop s (atoi v) []).stop = true ∨
      digitsValue v ≤ s.incoming.length ∧
        (bodyLoop s (atoi v) []).body = s.incoming.take (digitsValue v) ∧
        (bodyLoop s (atoi v) []).sock.incoming = s.incoming.drop (digitsValue v)) ↔
      digitsValue v < 2 ^ 31 ∨ ¬ s.Delivers (atoi v).toNat := by
  obtain ⟨hlo, hhi⟩ := atoi_bounds v
  have hloop := bodyLoop_delivers s hlo hhi []
  rw [Lib.Numerals.unsigned32_of_nonneg hpos hhi] at hloop
  by_cases hd : s.Delivers (atoi v).toNat
  · obtain ⟨hstop, hbody, hrest⟩ := hloop.1 hd
    have hlen := hd.1
    rw [hstop, hbody, hrest, List.nil_append]
    constructor
    · rintro (hfalse | ⟨hn, htake, -⟩)
      · cases hfalse
      · refine Or.inl ?_
        have hsame := congrArg List.length htake
        rw [List.length_take, List.length_take] at hsame
        omega
    · rintro (hlt | hnot)
      · have hv := atoi_numeral h hlt
        refine Or.inr ?_
        rw [hv, Int.toNat_natCast] at hlen ⊢
        exact ⟨hlen, rfl, rfl⟩
      · exact absurd hd hnot
  · exact iff_of_true (Or.inl (hloop.2 hd)) (Or.inr hd)

/-- **The length is honoured** exactly when `atoi` keeps it from being
negative, a numeral fits an `int` or the calls give out before, and a negative
numeral does not become zero and finds no byte to take. -/
theorem recvHttpRequestBody_honours_iff (s : Sock) (size : Int) (line : Bytes)
    (head : List Bytes) {v : Bytes} (hann : announced (upperMethod line) head = some v) :
    LengthHonoured s v (recvHttpRequestBody (headRead s size line head)) ↔
      0 ≤ atoi v ∧
        (Numeral v → digitsValue v < 2 ^ 31 ∨ ¬ s.Delivers (atoi v).toNat) ∧
        (NegativeNumeral v → atoi v ≠ 0 ∧ ¬ s.Delivers 1) := by
  obtain ⟨hlo, hhi⟩ := atoi_bounds v
  have hcounter := bodyCounters_nonneg_iff s hhi
  have hgives := bodyLoop_gives_up_iff s hlo hhi
  rw [recvHttpRequestBody_headRead, hann]
  constructor
  · rintro ⟨hnumeral, hnegative, hnonneg⟩
    have hpos := hcounter.mp hnonneg
    refine ⟨hpos, ?_, ?_⟩
    · intro hv
      exact (bodyLoop_numeral_iff s hv hpos).mp (hnumeral hv)
    · intro hv
      exact hgives.mp (hnegative hv)
  · rintro ⟨hpos, hnumeral, hnegative⟩
    constructor
    · intro hv
      exact (bodyLoop_numeral_iff s hv hpos).mpr (hnumeral hv)
    · intro hv
      exact hgives.mpr (hnegative hv)
    · exact hcounter.mpr hpos

theorem recvHttpRequestBody_honours_iff_three :
    (0 ≤ atoi (str "3") ∧
      announced (upperMethod (str "POST / HTTP/1.0")) [str "Content-Length: 3"] = some (str "3")) ∧
    LengthHonoured (Sock.new (str "abcd") fun _ => false) (str "3")
      (recvHttpRequestBody (headRead (Sock.new (str "abcd") fun _ => false) 0
        (str "POST / HTTP/1.0") [str "Content-Length: 3"])) := by
  refine ⟨by decide, (recvHttpRequestBody_honours_iff _ 0 _ _ (by decide)).mpr ⟨by decide, ?_, ?_⟩⟩
  · intro _
    exact Or.inl (by decide)
  · rintro ⟨digits, hv, -⟩
    exact absurd (List.head_eq_of_cons_eq hv) (by decide)

/-- A length of 2^32 + 3: three bytes are taken, and the request goes on. -/
theorem recvHttpRequestBody_wraps :
    announced (upperMethod (str "POST / HTTP/1.0")) [str "Content-Length: 4294967299"] =
        some (str "4294967299") ∧
      ¬ LengthHonoured (Sock.new (str "abcd") fun _ => false) (str "4294967299")
        (recvHttpRequestBody (headRead (Sock.new (str "abcd") fun _ => false) 0
          (str "POST / HTTP/1.0") [str "Content-Length: 4294967299"])) := by
  have hann : announced (upperMethod (str "POST / HTTP/1.0"))
      [str "Content-Length: 4294967299"] = some (str "4294967299") := by decide
  have hv : Numeral (str "4294967299") := ⟨by decide, List.all_eq_true.mp (by decide)⟩
  have hthree : atoi (str "4294967299") = 3 := by decide
  refine ⟨hann, fun h => ?_⟩
  have hnumeral := h.numeral hv
  rw [recvHttpRequestBody_headRead, hann] at hnumeral
  have hshort := (bodyLoop_numeral_iff _ hv (by rw [hthree]; decide)).mp hnumeral
  rcases hshort with hlt | hnot
  · exact absurd hlt (by decide)
  · apply hnot
    rw [hthree]
    exact ⟨by decide, fun _ _ => rfl⟩

end MinHttp

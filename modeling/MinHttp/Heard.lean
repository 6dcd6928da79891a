import MinHttp.Grammar

/-! A request as it is heard, whichever calls of `recv` fail: the lines and the
head that the receiver reads, and the body that it waits for. -/
namespace MinHttp

open Lib.Numerals (signed unsigned)

/-- One of the calls from `i` on and before `j` fails. -/
def FailsIn (fails : Nat → Bool) (i j : Nat) : Prop := ∃ k, i ≤ k ∧ k < j ∧ fails k = true

/-- A line as it is heard: what is left then, and whether a call behind its CR
failed. -/
structure HeardLine where
  text : Bytes
  after : Sock
  lost : Bool

/-- The next line, from call `i` on. Behind a CR there is a peek, and where an
LF is peeked the call that takes it; where one of them fails the LF stays, to
end a line of its own. -/
def lineHeard (fails : Nat → Bool) : Nat → Bytes → Option HeardLine
  | _, [] => none
  | i, c :: s =>
    if fails i then none
    else if c = LF then some ⟨[], ⟨s, i + 1, fails⟩, false⟩
    else if c = CR then
      if fails (i + 1) then some ⟨[], ⟨s, i + 2, fails⟩, true⟩
      else if s.head? = some LF then
        if fails (i + 2) then some ⟨[], ⟨s, i + 3, fails⟩, true⟩
        else some ⟨[], ⟨s.tail, i + 3, fails⟩, false⟩
      else some ⟨[], ⟨s, i + 2, fails⟩, false⟩
    else (lineHeard fails (i + 1) s).map fun l => { l with text := c :: l.text }

def Sock.lineHeard (s : Sock) : Option HeardLine := MinHttp.lineHeard s.fails s.calls s.incoming

theorem failsIn_append (fails : Nat → Bool) {i j k : Nat} (hij : i ≤ j) (hjk : j ≤ k) :
    FailsIn fails i k ↔ FailsIn fails i j ∨ FailsIn fails j k := by
  constructor
  · rintro ⟨n, hlo, hhi, hn⟩
    by_cases h : n < j
    · exact Or.inl ⟨n, hlo, h, hn⟩
    · exact Or.inr ⟨n, by omega, hhi, hn⟩
  · rintro (⟨n, hlo, hhi, hn⟩ | ⟨n, hlo, hhi, hn⟩)
    · exact ⟨n, hlo, by omega, hn⟩
    · exact ⟨n, by omega, hhi, hn⟩

theorem failsIn_self (fails : Nat → Bool) (i : Nat) : ¬ FailsIn fails i i := by
  rintro ⟨n, hlo, hhi, -⟩
  omega

theorem failsIn_succ (fails : Nat → Bool) {i j : Nat} (h : i ≤ j) :
    FailsIn fails i (j + 1) ↔ FailsIn fails i j ∨ fails j = true := by
  rw [failsIn_append fails h (Nat.le_succ j)]
  refine or_congr_right ⟨?_, fun hj => ⟨j, Nat.le_refl j, Nat.lt_succ_self j, hj⟩⟩
  rintro ⟨n, hlo, hhi, hn⟩
  obtain rfl : n = j := by omega
  exact hn

/-- What is known of a line that was heard. -/
structure HeardLine.From (l : HeardLine) (s : Sock) : Prop where
  plain : Lib.Lines.Plain CR LF l.text
  fails : l.after.fails = s.fails
  calls : s.calls ≤ l.after.calls
  shorter : l.after.incoming.length < s.incoming.length
  lost : l.lost = true ↔ FailsIn s.fails s.calls l.after.calls

theorem lineHeard_from {fails : Nat → Bool} {i : Nat} {s : Bytes} {l : HeardLine}
    (h : lineHeard fails i s = some l) : l.From ⟨s, i, fails⟩ := by
  induction s generalizing i l with
  | nil => cases h
  | cons c s ih =>
    have hplain : Lib.Lines.Plain CR LF ([] : Bytes) := by simp [Lib.Lines.Plain]
    unfold lineHeard at h
    cases hread : fails i with
    | true => simp [hread] at h
    | false =>
      have hnow : ¬ FailsIn fails i (i + 1) := by
        rw [failsIn_succ fails (Nat.le_refl i), hread]
        simpa using failsIn_self fails i
      by_cases hlf : c = LF
      · simp only [hread, Bool.false_eq_true, if_false, if_pos hlf, Option.some.injEq] at h
        subst h
        exact ⟨hplain, rfl, Nat.le_succ i, Nat.lt_succ_self _, iff_of_false Bool.false_ne_true hnow⟩
      · by_cases hcr : c = CR
        · simp only [hread, Bool.false_eq_true, if_false, if_neg hlf, if_pos hcr] at h
          cases hpeek : fails (i + 1) with
          | true =>
            simp only [hpeek, if_true, Option.some.injEq] at h
            subst h
            refine ⟨hplain, rfl, by simp only; omega, Nat.lt_succ_self _, iff_of_true rfl ?_⟩
            exact ⟨i + 1, by simp only; omega, by simp only; omega, hpeek⟩
          | false =>
            have hpeeked : ¬ FailsIn fails i (i + 2) := by
              rw [failsIn_succ fails (Nat.le_succ i), hpeek]
              simpa using hnow
            simp only [hpeek, Bool.false_eq_true, if_false] at h
            by_cases hhead : s.head? = some LF
            · simp only [if_pos hhead] at h
              cases htake : fails (i + 2) with
              | true =>
                simp only [htake, if_true, Option.some.injEq] at h
                subst h
                refine ⟨hplain, rfl, by simp only; omega, Nat.lt_succ_self _, iff_of_true rfl ?_⟩
                exact ⟨i + 2, by simp only; omega, by simp only; omega, htake⟩
              | false =>
                simp only [htake, Bool.false_eq_true, if_false, Option.some.injEq] at h
                subst h
                refine ⟨hplain, rfl, by simp only; omega, ?_, iff_of_false Bool.false_ne_true ?_⟩
                · simp only [List.length_tail, List.length_cons]
                  omega
                · rw [failsIn_succ fails (show i ≤ i + 2 by omega), htake]
                  simpa using hpeeked
            · simp only [if_neg hhead, Option.some.injEq] at h
              subst h
              exact ⟨hplain, rfl, by simp only; omega, Nat.lt_succ_self _,
                iff_of_false Bool.false_ne_true hpeeked⟩
        · simp only [hread, Bool.false_eq_true, if_false, if_neg hlf, if_neg hcr,
            Option.map_eq_some_iff] at h
          obtain ⟨l', hl', rfl⟩ := h
          have hlater := ih hl'
          have hcalls := hlater.calls
          have hshorter := hlater.shorter
          simp only at hcalls hshorter
          refine ⟨hlater.plain.cons hcr hlf, hlater.fails, by simp only; omega, ?_, ?_⟩
          · simp only [List.length_cons]
            omega
          · simp only
            rw [hlater.lost, failsIn_append fails (Nat.le_succ i) hcalls]
            simp only [hnow, false_or]

/-- `ReadInLine` returns the line that is heard, or nothing positive. -/
theorem readInLine_heard (fails : Nat → Bool) (i : Nat) (s out : Bytes) :
    match lineHeard fails i s with
    | some l => readInLine ⟨s, i, fails⟩ out =
        ⟨signed 32 (out ++ (l.text ++ [LF])).length, out ++ (l.text ++ [LF]), l.after⟩
    | none => (readInLine ⟨s, i, fails⟩ out).ret ≤ 0 := by
  induction s generalizing i out with
  | nil =>
    cases hread : fails i with
    | true => simp [lineHeard, readInLine_failed (s := ⟨[], i, fails⟩) hread out]
    | false => simp [lineHeard, readInLine_nil (s := ⟨[], i, fails⟩) hread rfl]
  | cons c s ih =>
    unfold lineHeard
    cases hread : fails i with
    | true => simp [readInLine_failed (s := ⟨c :: s, i, fails⟩) hread out]
    | false =>
      have hcons := @readInLine_cons ⟨c :: s, i, fails⟩ hread c s out rfl
      by_cases hlf : c = LF
      · subst hlf
        simpa [Ne.symm CR_ne_LF] using hcons
      · by_cases hcr : c = CR
        · subst hcr
          rw [if_pos rfl] at hcons
          rw [hcons]
          cases hpeek : fails (i + 1) with
          | true => simp [hlf, afterCR, recvPeek, hpeek]
          | false =>
            cases s with
            | nil => simp [hlf, afterCR, recvPeek, hpeek]
            | cons d s =>
              by_cases hd : d = LF
              · cases htake : fails (i + 2) <;>
                  simp [hlf, afterCR, recvPeek, recv, hpeek, hd, htake]
              · simp [hlf, afterCR, recvPeek, hpeek, hd]
        · rw [if_neg hcr, if_neg hlf] at hcons
          rw [hcons]
          have hlater := ih (i + 1) (out ++ [c])
          simp only [Bool.false_eq_true, if_false, if_neg hlf, if_neg hcr]
          cases hl : lineHeard fails (i + 1) s with
          | none =>
            rw [hl] at hlater
            exact hlater
          | some l =>
            rw [hl] at hlater
            simpa using hlater

theorem Sock.readInLine_heard (s : Sock) (out : Bytes) :
    match s.lineHeard with
    | some l => readInLine s out =
        ⟨signed 32 (out ++ (l.text ++ [LF])).length, out ++ (l.text ++ [LF]), l.after⟩
    | none => (readInLine s out).ret ≤ 0 :=
  MinHttp.readInLine_heard s.fails s.calls s.incoming out

theorem Sock.lineHeard_from {s : Sock} {l : HeardLine} (h : s.lineHeard = some l) : l.From s :=
  MinHttp.lineHeard_from h

structure HeardHead where
  texts : List Bytes
  after : Sock
  lost : Bool

/-- The lines up to the first empty one. -/
def headHeard (s : Sock) : Option HeardHead :=
  match _h : s.lineHeard with
  | none => none
  | some l =>
    if l.text = [] then some ⟨[], l.after, l.lost⟩
    else (headHeard l.after).map fun h => ⟨l.text :: h.texts, h.after, l.lost || h.lost⟩
termination_by s.incoming.length
decreasing_by exact (Sock.lineHeard_from _h).shorter

theorem headHeard_none {s : Sock} (h : s.lineHeard = none) : headHeard s = none := by
  rw [headHeard]
  split <;> simp_all

theorem headHeard_some {s : Sock} {l : HeardLine} (h : s.lineHeard = some l) :
    headHeard s =
      if l.text = [] then some ⟨[], l.after, l.lost⟩
      else (headHeard l.after).map fun h => ⟨l.text :: h.texts, h.after, l.lost || h.lost⟩ := by
  rw [headHeard]
  split
  case h_1 heq => cases h.symm.trans heq
  case h_2 heq =>
    cases h.symm.trans heq
    rfl

/-- What is known of a head that was heard. -/
structure HeardHead.From (h : HeardHead) (s : Sock) : Prop where
  fails : h.after.fails = s.fails
  calls : s.calls ≤ h.after.calls
  lost : h.lost = true ↔ FailsIn s.fails s.calls h.after.calls

theorem headHeard_from {s : Sock} {h : HeardHead} (hh : headHeard s = some h) : h.From s := by
  induction hn : s.incoming.length using Nat.strongRecOn generalizing s h with
  | ind n ih =>
    cases hl : s.lineHeard with
    | none =>
      rw [headHeard_none hl] at hh
      cases hh
    | some l =>
      have hfrom := Sock.lineHeard_from hl
      rw [headHeard_some hl] at hh
      split at hh
      · cases hh
        exact ⟨hfrom.fails, hfrom.calls, hfrom.lost⟩
      · obtain ⟨h', hh', rfl⟩ := Option.map_eq_some_iff.mp hh
        have hlater := ih _ (hn ▸ hfrom.shorter) hh' rfl
        refine ⟨hlater.fails.trans hfrom.fails, hfrom.calls.trans hlater.calls, ?_⟩
        simp only
        rw [Bool.or_eq_true, hfrom.lost, hlater.lost, hfrom.fails,
          failsIn_append _ hfrom.calls hlater.calls]

/-- `GetRequestHead` reads the head that is heard, or gives the request up. -/
theorem requestHeadLoop_heard {line : Bytes} (hline : line ≠ [LF]) (ep : EndPoint) :
    match headHeard ep.sock with
    | some h =>
      ((∀ t ∈ h.texts, Fits t) → requestHeadLoop line ep =
        { ep with
          sock := h.after
          request := { ep.request with
            reqHead := ep.request.reqHead ++ h.texts, blank := [LF] } }) ∧
      ((∃ t ∈ h.texts, ¬ Fits t) → (requestHeadLoop line ep).stop = true)
    | none => (requestHeadLoop line ep).stop = true := by
  induction hn : ep.sock.incoming.length using Nat.strongRecOn generalizing ep line with
  | ind n ih =>
    have hread := ep.sock.readInLine_heard []
    cases hl : ep.sock.lineHeard with
    | none =>
      rw [hl] at hread
      rw [headHeard_none hl, requestHeadLoop_stop hline hread]
    | some l =>
      have hfrom := Sock.lineHeard_from hl
      simp only [hl, List.nil_append] at hread
      have hret : (readInLine ep.sock []).ret = signed 32 (l.text ++ [LF]).length := by rw [hread]
      have hout : (readInLine ep.sock []).out = l.text ++ [LF] := by rw [hread]
      have hsock : (readInLine ep.sock []).sock = l.after := by rw [hread]
      rw [headHeard_some hl]
      by_cases htext : l.text = []
      · have hpos : 0 < (readInLine ep.sock []).ret := by
          rw [hret, htext]
          decide
        rw [htext, List.nil_append] at hout
        rw [if_pos htext, requestHeadLoop_blank hline hpos hout, hsock]
        simp
      · rw [if_neg htext]
        by_cases hfit : Fits l.text
        · have hpos : 0 < (readInLine ep.sock []).ret := by
            rw [hret]
            exact hfit
          rw [requestHeadLoop_line hline hpos hout htext, hsock]
          have hlater := ih _ (hn ▸ hfrom.shorter) (Plain_ne_newline hfrom.plain)
            (ep.withHead l.after l.text) rfl
          rw [show (ep.withHead l.after l.text).sock = l.after from rfl] at hlater
          cases hh : headHeard l.after with
          | none =>
            rw [hh] at hlater
            exact hlater
          | some h =>
            rw [hh] at hlater
            simp only [Option.map_some, List.forall_mem_cons, List.exists_mem_cons_iff, hfit,
              not_true_eq_false, true_and, false_or]
            refine ⟨fun hfits => ?_, hlater.2⟩
            rw [hlater.1 hfits]
            simp [EndPoint.withHead]
        · have hnone : (readInLine ep.sock []).ret ≤ 0 := by
            rw [hret]
            exact Int.not_lt.mp hfit
          rw [requestHeadLoop_stop hline hnone]
          cases headHeard l.after with
          | none => rfl
          | some h => exact ⟨fun hfits => absurd (hfits _ List.mem_cons_self) hfit, fun _ => rfl⟩

theorem bodyLoop_balance {s : Sock} {c : Int} {body : Bytes}
    (hstop : (bodyLoop s c body).stop = false) :
    (bodyLoop s c body).sock.calls + (bodyLoop s c body).sock.incoming.length =
      s.calls + s.incoming.length := by
  induction hn : s.incoming.length using Nat.strongRecOn generalizing s c body with
  | ind n ih =>
    rw [bodyLoop] at hstop ⊢
    split at hstop
    case isTrue hc => rw [if_pos hc, hn]
    case isFalse hc =>
      rw [if_neg hc]
      split at hstop
      case h_1 ch t hr =>
        have hlen := congrArg List.length (recv_byte_incoming hr)
        have hcalls := (recv_frame s).2.1
        rw [hr] at hcalls
        rw [List.length_cons] at hlen
        have hlater := ih _ (hn ▸ recv_byte_length hr) hstop rfl
        rw [hlater]
        simp only at hcalls
        omega
      all_goals cases hstop

instance (s : Sock) (n : Nat) : Decidable (s.Delivers n) := inferInstanceAs (Decidable (_ ∧ _))

/-- A body that is received is received without a failing call. -/
theorem bodyLoop_heard (s : Sock) {c : Int} (hlo : -2 ^ 31 ≤ c) (hhi : c < 2 ^ 31) (body : Bytes) :
    (s.Delivers (unsigned 32 c) → (bodyLoop s c body).stop = false ∧
      s.calls ≤ (bodyLoop s c body).sock.calls ∧
      ¬ FailsIn s.fails s.calls (bodyLoop s c body).sock.calls) ∧
    (¬ s.Delivers (unsigned 32 c) → (bodyLoop s c body).stop = true) := by
  obtain ⟨hgood, hbad⟩ := bodyLoop_delivers s hlo hhi body
  refine ⟨fun hd => ?_, hbad⟩
  obtain ⟨hstop, -, hrest⟩ := hgood hd
  have hbalance := bodyLoop_balance hstop
  rw [hrest, List.length_drop] at hbalance
  have hle := hd.1
  refine ⟨hstop, by omega, ?_⟩
  rintro ⟨k, hk, hlt, hfails⟩
  have hnone := hd.2 (k - s.calls) (by omega)
  rw [show s.calls + (k - s.calls) = k by omega, hfails] at hnone
  cases hnone

theorem getRequestLine_heard {sock : Sock} {l : HeardLine} (hl : sock.lineHeard = some l)
    (hfit : Fits l.text) (size : Int) :
    getRequestLine (.new sock size) =
      { EndPoint.new sock size with
        sock := l.after, request := { HttpRequest.new size with reqLine := l.text } } := by
  have hread := sock.readInLine_heard []
  simp only [hl, List.nil_append] at hread
  have hret : (readInLine sock []).ret = signed 32 (l.text ++ [LF]).length := by rw [hread]
  have hpos : (readInLine sock []).ret > 0 := by
    rw [hret]
    exact hfit
  rw [getRequestLine, show (EndPoint.new sock size).sock = sock from rfl,
    show (EndPoint.new sock size).request.reqLine = [] from rfl, if_pos hpos, hread]
  simp only [List.dropLast_concat]
  rfl

theorem getRequestLine_unheard {sock : Sock} (size : Int)
    (h : ∀ l, sock.lineHeard = some l → ¬ Fits l.text) :
    (getRequestLine (.new sock size)).stop = true := by
  have hread := sock.readInLine_heard []
  rw [getRequestLine_eq, Bool.or_eq_true]
  refine Or.inr (decide_eq_true ?_)
  cases hl : sock.lineHeard with
  | none =>
    rw [hl] at hread
    exact hread
  | some l =>
    simp only [hl, List.nil_append] at hread
    have hret : (readInLine sock []).ret = signed 32 (l.text ++ [LF]).length := by rw [hread]
    have hunfit := Int.not_lt.mp (h l hl)
    rw [← hret] at hunfit
    exact hunfit

/-- The body behind a head that was heard. -/
theorem recvHttpRequestBody_heard (s : Sock) (size : Int) (line : Bytes) (head : List Bytes) :
    let ep := recvHttpRequestBody (headRead s size line head)
    ((∀ v, announced (upperMethod line) head = some v → s.Delivers (unsigned 32 (atoi v))) →
      ep.stop = false ∧ s.calls ≤ ep.sock.calls ∧ ¬ FailsIn s.fails s.calls ep.sock.calls) ∧
    (∀ v, announced (upperMethod line) head = some v → ¬ s.Delivers (unsigned 32 (atoi v)) →
      ep.stop = true) := by
  rw [recvHttpRequestBody_headRead]
  cases hann : announced (upperMethod line) head with
  | none => exact ⟨fun _ => ⟨rfl, Nat.le_refl _, failsIn_self _ _⟩, fun v hv => by cases hv⟩
  | some v =>
    have hbody := bodyLoop_heard s (atoi_bounds v).1 (atoi_bounds v).2 []
    refine ⟨fun h => hbody.1 (h v rfl), fun v' hv' hnot => ?_⟩
    cases hv'
    exact hbody.2 hnot

/-- The head behind a request line that was heard. -/
theorem getRequestHead_heard {sock : Sock} {l : HeardLine} (hl : sock.lineHeard = some l)
    (hfit : Fits l.text) (size : Int) :
    let ep := getRequestHead (getRequestLine (.new sock size))
    (∀ h, headHeard l.after = some h → (∀ t ∈ h.texts, Fits t) → ep.stop = false ∧
      parseHttpRequestHead (parseHttpRequestLine ep) = headRead h.after size l.text h.texts) ∧
    ((∀ h, headHeard l.after = some h → ¬ ∀ t ∈ h.texts, Fits t) → ep.stop = true) := by
  have hhead := requestHeadLoop_heard nil_ne_newline (getRequestLine (.new sock size))
  rw [getRequestHead]
  rw [getRequestLine_heard hl hfit size] at hhead ⊢
  dsimp only at hhead ⊢
  cases hh : headHeard l.after with
  | none =>
    rw [hh] at hhead
    refine ⟨fun h hh => ?_, fun _ => hhead⟩
    cases hh
  | some h =>
    rw [hh] at hhead
    constructor
    · intro h' heq hfits
      cases heq
      rw [hhead.1 hfits, parseHttpRequestLine_fresh rfl rfl rfl]
      exact ⟨rfl, rfl⟩
    · intro hnot
      apply hhead.2
      by_contra hnone
      exact hnot h rfl fun t ht => by_contra fun hf => hnone ⟨t, ht, hf⟩

theorem recvHttpRequest_flowsOff {flowsOff : EndPoint → Bool} {ep : EndPoint}
    (h : flowsOff (getRequestLine ep) = true) :
    recvHttpRequest flowsOff ep = getRequestLine ep := by
  simp [recvHttpRequest, h]

theorem recvHttpRequest_goesOn {flowsOff : EndPoint → Bool} {ep : EndPoint}
    (h : flowsOff (getRequestLine ep) = false)
    (hstop : (recvHttpRequest flowsOff ep).stop = false) :
    (getRequestHead (getRequestLine ep)).stop = false ∧
      recvHttpRequest flowsOff ep = receiveAll ep := by
  have hgo : (getRequestHead (getRequestLine ep)).stop = false := by
    by_contra hs
    simp only [recvHttpRequest, h, Bool.false_eq_true, if_false,
      if_pos (by simpa using hs)] at hstop
    exact hs hstop
  exact ⟨hgo, recvHttpRequest_eq_receiveAll h hgo⟩

theorem recvHttpRequest_headStop {flowsOff : EndPoint → Bool} {ep : EndPoint}
    (hoff : flowsOff (getRequestLine ep) = false)
    (h : (getRequestHead (getRequestLine ep)).stop = true) :
    (recvHttpRequest flowsOff ep).stop = true := by
  by_contra hstop
  have hnone := (recvHttpRequest_goesOn hoff (by simpa using hstop)).1
  rw [h] at hnone
  cases hnone

theorem recvHttpRequest_lineStop {flowsOff : EndPoint → Bool} {ep : EndPoint}
    (h : (getRequestLine ep).stop = true) : (recvHttpRequest flowsOff ep).stop = true := by
  cases hoff : flowsOff (getRequestLine ep) with
  | true =>
    rw [recvHttpRequest_flowsOff hoff]
    exact h
  | false =>
    apply recvHttpRequest_headStop hoff
    exact (requestHeadLoop_frame _ nil_ne_newline).2.2.1 h

/-- A request is heard to its end: its lines fit the reader's `int`, and an
announced body comes. -/
structure Sock.Hears (s : Sock) (l : HeardLine) (h : HeardHead) : Prop where
  line : s.lineHeard = some l
  lineFits : Fits l.text
  head : headHeard l.after = some h
  headFits : ∀ t ∈ h.texts, Fits t
  body : ∀ v, announced (upperMethod l.text) h.texts = some v →
    h.after.Delivers (unsigned 32 (atoi v))

theorem Sock.Hears.receiveAll {s : Sock} {l : HeardLine} {h : HeardHead} (hs : s.Hears l h)
    (size : Int) :
    (getRequestHead (getRequestLine (.new s size))).stop = false ∧
      MinHttp.receiveAll (.new s size) =
        recvHttpRequestBody (headRead h.after size l.text h.texts) ∧
      (MinHttp.receiveAll (.new s size)).stop = false := by
  obtain ⟨hgo, hparsed⟩ := (getRequestHead_heard hs.line hs.lineFits size).1 h hs.head hs.headFits
  rw [MinHttp.receiveAll, hparsed]
  exact ⟨hgo, rfl, ((recvHttpRequestBody_heard h.after size l.text h.texts).1 hs.body).1⟩

/-- A request is received to its end only if it is heard so. -/
theorem recvHttpRequest_hears {flowsOff : EndPoint → Bool} {sock : Sock} {size : Int}
    (hoff : flowsOff (getRequestLine (.new sock size)) = false)
    (hstop : (recvHttpRequest flowsOff (.new sock size)).stop = false) :
    ∃ l h, sock.Hears l h := by
  by_contra hnone
  refine Bool.false_ne_true (hstop.symm.trans ?_)
  by_cases hline : ∃ l, sock.lineHeard = some l ∧ Fits l.text
  · obtain ⟨l, hl, hfit⟩ := hline
    obtain ⟨hgood, hbad⟩ := getRequestHead_heard hl hfit size
    by_cases hhead : ∃ h, headHeard l.after = some h ∧ ∀ t ∈ h.texts, Fits t
    · obtain ⟨h, hh, hfits⟩ := hhead
      obtain ⟨hgo, hparsed⟩ := hgood h hh hfits
      rw [recvHttpRequest_eq_receiveAll hoff hgo, receiveAll, hparsed]
      by_contra hend
      refine hnone ⟨l, h, hl, hfit, hh, hfits, fun v hv => ?_⟩
      by_contra hd
      exact hend ((recvHttpRequestBody_heard h.after size l.text h.texts).2 v hv hd)
    · exact recvHttpRequest_headStop hoff (hbad fun h hh hfits => hhead ⟨h, hh, hfits⟩)
  · exact recvHttpRequest_lineStop
      (getRequestLine_unheard size fun l hl hfit => hline ⟨l, hl, hfit⟩)

end MinHttp

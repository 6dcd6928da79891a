import MinHttp.Exchange

/-! When the parent, which writes the whole body before it reads, and a child
that writes before it has read can come to wait for each other. -/
namespace MinHttp

open Lib.Runs
open Lib (Pipe)

/-- No call of the parent can go on, and it has not returned. -/
def ParentBlocked {κ : Type} (σ : CgiSetup) (P : Program κ) (s : Exchange κ) : Prop :=
  (∀ code, s.parent ≠ .returned code) ∧ ∀ t, ¬ ParentStep σ P s t

/-- No call of the child can go on, and it has not ended. -/
def ChildBlocked {κ : Type} (σ : CgiSetup) (P : Program κ) (s : Exchange κ) : Prop :=
  (∃ k, s.child = .running k) ∧ ∀ t, ¬ ChildStep σ P s t

/-- The bytes a script asks for. -/
def asked : List Op → Nat
  | [] => 0
  | .read n :: ops => n + asked ops
  | .write _ :: ops => asked ops

/-- Where a script first writes more than there is room for: the number of
reads of at least one byte before that write. -/
def overflow (room : Nat) : List Op → Option Nat
  | [] => none
  | .read n :: ops => (overflow room ops).map (· + min n 1)
  | .write bytes :: ops =>
    if room < bytes.length then some 0 else overflow (room - bytes.length) ops

/-- What a write has taken makes as much room as it leaves to write. -/
theorem overflow_took {room n : Nat} {bytes : Bytes} {ops : List Op} (hn : n ≤ bytes.length)
    (hroom : n ≤ room) :
    overflow (room - n) (if n < bytes.length then .write (bytes.drop n) :: ops else ops) =
      overflow room (.write bytes :: ops) := by
  by_cases hlt : n < bytes.length
  · rw [if_pos hlt, overflow, overflow, List.length_drop]
    by_cases hr : room < bytes.length
    · rw [if_pos hr, if_pos (by omega)]
    · rw [if_neg hr, if_neg (by omega)]
      congr 1
      omega
  · have heq : n = bytes.length := by omega
    rw [if_neg hlt, overflow, if_neg (by omega), heq]

theorem asked_took (n : Nat) (bytes : Bytes) (ops : List Op) :
    asked (if n < bytes.length then .write (bytes.drop n) :: ops else ops) = asked ops := by
  split <;> rfl

section
variable {σ : CgiSetup} {ops : List Op} {status : UInt8}

/-- What the child has taken from its input, with what is in the pipe, is what
the parent has written; and while nobody reads the child's output, its first
write without room is as far off as it was. -/
structure Flow (σ : CgiSetup) (ops rest : List Op) (consumed : Nat) (s : Exchange (List Op)) :
    Prop where
  output : s.output.reader = true ∧ s.output.writer = true
  input : s.input.reader = true ∧ s.input.writer = true
  wanted : consumed + asked rest ≤ asked ops
  parent :
    (∃ total, s.parent = .writing total ∧ total = consumed + s.output.content.length ∧
      total ≤ σ.body.length ∧
      ∀ r', overflow (σ.cap - s.input.content.length) rest = some r' →
        ∃ r, overflow σ.cap ops = some r ∧ r ≤ consumed + r') ∨
    (s.parent = .reading ∧ consumed + s.output.content.length = σ.body.length)

def Flowing (σ : CgiSetup) (ops : List Op) (s : Exchange (List Op)) : Prop :=
  match s.child with
  | .unborn => s = .initial
  | .running rest => ∃ consumed, Flow σ ops rest consumed s
  | .ended _ => s.parent ≠ .calling

theorem parentStep_flowing {s t : Exchange (List Op)} (hm : σ.method = methodPost)
    (hlen : σ.contentLength = σ.body.length) (h : ParentStep σ (script ops status) s t)
    (hs : Flowing σ ops s) : Flowing σ ops t := by
  cases hc : s.child with
  | unborn =>
    rw [Flowing, hc] at hs
    subst hs
    cases h with
    | fork pc =>
      refine ⟨0, ⟨rfl, rfl⟩, ⟨rfl, rfl⟩, ?_, Or.inl ⟨0, ?_, rfl, Nat.zero_le _, ?_⟩⟩
      · exact (Nat.zero_add _).le
      · exact if_pos hm
      · intro r' hr'
        exact ⟨r', hr', by omega⟩
    | _ => simp_all [Exchange.initial]
  | ended how =>
    rw [Flowing, hc] at hs
    cases h with
    | fork pc => exact absurd pc hs
    | _ => simp_all [Flowing, Exchange.parentReturns]
  | running rest =>
    rw [Flowing, hc] at hs
    obtain ⟨consumed, output, input, wanted, parent⟩ := hs
    cases h with
    | fork pc => simp [pc] at parent
    | write total n pc more accepted =>
      obtain ⟨total', hp, htotal, hle, hover⟩ | ⟨hp, -⟩ := parent
      · obtain rfl : total = total' := by simpa [pc] using hp
        have hn := accepted.le
        rw [Flowing, hc]
        refine ⟨consumed, output, input, wanted, Or.inl ⟨total + n, rfl, ?_, by omega, hover⟩⟩
        simp only [Pipe.put_content, List.length_append, List.length_take, List.length_drop]
        omega
      · simp [pc] at hp
    | writeNothing total pc more none => omega
    | writeBroken total pc more some broken => simp [broken] at output
    | written total pc done =>
      obtain ⟨total', hp, htotal, hle, -⟩ | ⟨hp, -⟩ := parent
      · obtain rfl : total = total' := by simpa [pc] using hp
        rw [Flowing, hc]
        refine ⟨consumed, output, input, wanted, Or.inr ⟨rfl, ?_⟩⟩
        simp only
        omega
      · simp [pc] at hp
    | read ch tail pc there =>
      obtain ⟨total', hp, -⟩ | ⟨hp, hall⟩ := parent
      · simp [pc] at hp
      · rw [Flowing, hc]
        exact ⟨consumed, output, input, wanted, Or.inr ⟨pc, hall⟩⟩
    | eof pc ended => simp [ended.closed] at input
    | wait how pc ended => simp [pc] at parent

/-- The child's steps, by the call that is next in the script. -/
theorem childStep_flowing {s t : Exchange (List Op)} (h : ChildStep σ (script ops status) s t)
    (hs : Flowing σ ops s) : Flowing σ ops t := by
  have hrunning (rest : List Op) (hc : s.child = .running rest) :
      ∃ consumed, Flow σ ops rest consumed s := by
    rwa [Flowing, hc] at hs
  cases h with
  | read rest n m got pc act open_ yields =>
    obtain ⟨consumed, output, input, wanted, parent⟩ := hrunning rest pc
    obtain ⟨rest', rfl, rfl⟩ := script_act act
    have hpos := yields.pos
    have hthere := yields.there
    have hle := yields.le
    simp only [asked] at wanted
    have hwanted : consumed + m + asked rest' ≤ asked ops := by omega
    refine ⟨consumed + m, output, input, hwanted, ?_⟩
    simp only [Pipe.drop_content, List.length_drop]
    rcases parent with ⟨total, hp, htotal, hall, hover⟩ | ⟨hp, hall⟩
    · refine Or.inl ⟨total, hp, by omega, hall, fun r' hr' => ?_⟩
      obtain ⟨r, hr, hrle⟩ := hover (r' + min n 1) (by rw [overflow, hr']; rfl)
      exact ⟨r, hr, by omega⟩
    · exact Or.inr ⟨hp, by omega⟩
  | readNone rest n got pc act none =>
    obtain ⟨consumed, output, input, wanted, parent⟩ := hrunning rest pc
    obtain ⟨rest', rfl, rfl⟩ := script_act act
    have hn : n = 0 := by
      rcases none with hn | hclosed | hended
      · exact hn
      · simp [hclosed] at output
      · simp [hended.closed] at output
    subst hn
    simp only [asked, Nat.zero_add] at wanted
    refine ⟨consumed, output, input, wanted, ?_⟩
    rcases parent with ⟨total, hp, htotal, hall, hover⟩ | hread
    · refine Or.inl ⟨total, hp, htotal, hall, fun r' hr' => hover r' ?_⟩
      rw [overflow, hr']
      rfl
    · exact Or.inr hread
  | write rest bytes n wrote pc act open_ accepted =>
    obtain ⟨consumed, output, input, wanted, parent⟩ := hrunning rest pc
    obtain ⟨rest', rfl, rfl⟩ := script_act act
    have hle := accepted.le
    have hroom := accepted.room
    refine ⟨consumed, output, input, ?_, ?_⟩
    · rw [asked_took]
      exact wanted
    · rcases parent with ⟨total, hp, htotal, hall, hover⟩ | hread
      · refine Or.inl ⟨total, hp, htotal, hall, fun r' hr' => hover r' ?_⟩
        rw [← overflow_took hle (by omega), ← hr', Pipe.put_content, List.length_append,
          List.length_take, Nat.min_eq_left hle, Nat.sub_sub]
      · exact Or.inr hread
  | writeNone rest bytes wrote pc act none =>
    obtain ⟨consumed, output, input, wanted, parent⟩ := hrunning rest pc
    obtain ⟨rest', rfl, rfl⟩ := script_act act
    have hn : bytes = [] := by
      rcases none with hn | hclosed | hclosed
      · exact hn
      · simp [hclosed] at input
      · simp [hclosed] at input
    subst hn
    exact ⟨consumed, output, input, wanted, parent⟩
  | closeIn rest next pc act => exact (script_act act).elim
  | closeOut rest next pc act => exact (script_act act).elim
  | abort rest pc act => exact (script_act act).elim
  | exit rest how pc act =>
    obtain ⟨consumed, output, input, wanted, parent⟩ := hrunning rest pc
    intro hcalling
    rw [show s.parent = .calling from hcalling] at parent
    simp at parent

theorem exchangeStep_flowing (hm : σ.method = methodPost)
    (hlen : σ.contentLength = σ.body.length) :
    Preserved (ExchangeStep σ (script ops status)) (Flowing σ ops) := by
  intro s t h hs
  cases h with
  | parent step => exact parentStep_flowing hm hlen step hs
  | child step => exact childStep_flowing step hs

/-- A blocked child has a call to wait for: a read of an empty pipe or a write
to a full one. -/
theorem blocked_script {rest : List Op} {s : Exchange (List Op)} (hc : s.child = .running rest)
    (houtput : s.output.reader = true) (hinput : s.input.reader = true ∧ s.input.writer = true)
    (h : ChildBlocked σ (script ops status) s) :
    (∃ n rest', rest = .read n :: rest' ∧ 0 < n ∧ s.output.content = []) ∨
      ∃ bytes rest', rest = .write bytes :: rest' ∧ 0 < bytes.length ∧
        σ.cap ≤ s.input.content.length := by
  obtain ⟨-, hstuck⟩ := h
  cases rest with
  | nil => exact absurd (.exit s [] status hc rfl) (hstuck _)
  | cons op rest' =>
    cases op with
    | read n =>
      refine Or.inl ⟨n, rest', rfl, ?_⟩
      have hn : 0 < n := by
        by_contra hn
        exact hstuck _ (.readNone s _ n _ hc rfl (Or.inl (by omega)))
      refine ⟨hn, ?_⟩
      by_contra hne
      obtain ⟨m, hm⟩ := (Pipe.yields_iff_ne_nil hn).mpr hne
      exact hstuck _ (.read s _ n m _ hc rfl houtput hm)
    | write bytes =>
      refine Or.inr ⟨bytes, rest', rfl, ?_⟩
      have hn : 0 < bytes.length := by
        by_contra hn
        exact hstuck _ (.writeNone s _ bytes _ hc rfl
          (Or.inl (List.eq_nil_of_length_eq_zero (by omega))))
      refine ⟨hn, ?_⟩
      by_contra hroom
      obtain ⟨m, hm⟩ := (Pipe.accepts_iff_room hinput.1 hn).mpr (Nat.lt_of_not_le hroom)
      exact hstuck _ (.write s _ bytes m _ hc rfl hinput.2 hm)

/-- Two blocked parties are both writing: the parent more than the child has
made room for, and the child with its first write that does not fit. -/
theorem Flow.overflow_of_blocked {rest : List Op} {consumed : Nat} {s : Exchange (List Op)}
    (hs : Flow σ ops rest consumed s) (hc : s.child = .running rest)
    (hlen : σ.contentLength = σ.body.length) (hcap : 1 ≤ σ.cap)
    (hasked : asked ops ≤ σ.body.length) (hparent : ParentBlocked σ (script ops status) s)
    (hchild : ChildBlocked σ (script ops status) s) :
    ∃ r, overflow σ.cap ops = some r ∧ r + σ.cap < σ.body.length := by
  obtain ⟨output, input, wanted, parent⟩ := hs
  obtain ⟨-, hstuck⟩ := hparent
  have hwaits := blocked_script hc output.1 input hchild
  rcases parent with ⟨total, hp, htotal, hall, hover⟩ | ⟨hp, hall⟩
  · have hmore : total < σ.body.length := by
      by_contra hdone
      exact hstuck _ (.written s total hp (by omega))
    have hfull : σ.cap ≤ s.output.content.length := by
      by_contra hroom
      obtain ⟨m, hm⟩ := (Pipe.accepts_iff_room output.1 (Nat.sub_pos_of_lt hmore)).mpr
        (Nat.lt_of_not_le hroom)
      exact hstuck _ (.write s total m hp (by omega) hm)
    rcases hwaits with ⟨n, rest', -, -, hempty⟩ | ⟨bytes, rest', rfl, hn, hroom⟩
    · rw [hempty, List.length_nil] at hfull
      omega
    · obtain ⟨r, hr, hle⟩ := hover 0 (by rw [overflow, if_pos (by omega)])
      exact ⟨r, hr, by omega⟩
  · rcases hwaits with ⟨n, rest', rfl, hn, hempty⟩ | ⟨bytes, rest', -, -, hroom⟩
    · rw [hempty, List.length_nil] at hall
      rw [asked] at wanted
      omega
    · cases hin : s.input.content with
      | nil =>
        rw [hin, List.length_nil] at hroom
        omega
      | cons ch tail => exact absurd (.read s ch tail hp hin) (hstuck _)

/-! ## How to come there -/

/-- The parent is writing, has nothing in the pipe to the child, and has more
to write than the child will make room for. -/
structure Starving (σ : CgiSetup) (rest : List Op) (r : Nat) (s : Exchange (List Op)) :
    Prop where
  parent : ∃ total, s.parent = .writing total ∧ total + r + σ.cap < σ.body.length
  child : s.child = .running rest
  output : s.output.content = [] ∧ s.output.reader = true
  input : s.input.reader = true ∧ s.input.writer = true
  room : s.input.content.length ≤ σ.cap

theorem parentBlocked_full {total : Nat} {s : Exchange (List Op)}
    (hp : s.parent = .writing total) (hmore : total < σ.body.length)
    (hlen : σ.contentLength = σ.body.length) (hreader : s.output.reader = true)
    (hfull : σ.cap ≤ s.output.content.length) : ParentBlocked σ (script ops status) s := by
  refine ⟨fun code hc => (by cases hp.symm.trans hc), fun t h => ?_⟩
  cases h with
  | write total' n pc more accepted =>
    have hpos := accepted.pos
    have hroom := accepted.room
    omega
  | writeNothing total' pc more none =>
    cases hp.symm.trans pc
    omega
  | writeBroken total' pc more some broken => simp [hreader] at broken
  | written total' pc done =>
    cases hp.symm.trans pc
    omega
  | fork pc | read _ _ pc | eof pc | wait _ pc => cases hp.symm.trans pc

theorem childBlocked_full {bytes : Bytes} {rest : List Op} {s : Exchange (List Op)}
    (hc : s.child = .running (.write bytes :: rest)) (hbytes : 0 < bytes.length)
    (hinput : s.input.reader = true ∧ s.input.writer = true)
    (hfull : σ.cap ≤ s.input.content.length) : ChildBlocked σ (script ops status) s := by
  refine ⟨⟨_, hc⟩, fun t h => ?_⟩
  cases h with
  | write k bytes' n wrote pc act open_ accepted =>
    have hpos := accepted.pos
    have hroom := accepted.room
    omega
  | writeNone k bytes' wrote pc act none =>
    cases hc.symm.trans pc
    obtain ⟨rest', heq, -⟩ := script_act act
    cases heq
    simp [hinput, List.ne_nil_of_length_pos hbytes] at none
  | read k n m got pc act | readNone k n got pc act =>
    cases hc.symm.trans pc
    obtain ⟨rest', heq, -⟩ := script_act act
    cases heq
  | closeIn k next pc act | closeOut k next pc act | abort k pc act =>
    exact (script_act act).elim
  | exit k how pc act =>
    cases hc.symm.trans pc
    cases script_act act

/-- The child writes what fits of a write that does not. -/
theorem Starving.fills {bytes : Bytes} {rest : List Op} {s : Exchange (List Op)}
    (hs : Starving σ (.write bytes :: rest) 0 s)
    (hover : σ.cap - s.input.content.length < bytes.length) :
    ∃ left t, Reachable (ExchangeStep σ (script ops status)) s t ∧
      Starving σ (.write left :: rest) 0 t ∧ 0 < left.length ∧
      σ.cap ≤ t.input.content.length := by
  by_cases hfull : σ.cap ≤ s.input.content.length
  · exact ⟨bytes, s, Reachable.start, hs, by omega, hfull⟩
  · obtain ⟨parent, child, output, input, room⟩ := hs
    have haccepts : s.input.Accepts σ.cap (σ.cap - s.input.content.length) bytes.length :=
      ⟨input.1, by omega, by omega, by omega⟩
    refine ⟨bytes.drop (σ.cap - s.input.content.length), _,
      Reachable.start.next (.child (.write s _ bytes _ _ child rfl input.2 haccepts)),
      ⟨parent, ?_, output, input, ?_⟩, ?_, ?_⟩
    · simp only [if_pos hover]
    · simp only [Pipe.put_content, List.length_append, List.length_take]
      omega
    · rw [List.length_drop]
      omega
    · simp only [Pipe.put_content, List.length_append, List.length_take]
      omega

/-- From there on the parent fills its own pipe, and both are blocked. -/
theorem Starving.blocks {bytes : Bytes} {rest : List Op} {s : Exchange (List Op)}
    (hs : Starving σ (.write bytes :: rest) 0 s) (hlen : σ.contentLength = σ.body.length)
    (hcap : 1 ≤ σ.cap) (hover : σ.cap - s.input.content.length < bytes.length) :
    ∃ t, Reachable (ExchangeStep σ (script ops status)) s t ∧
      ParentBlocked σ (script ops status) t ∧ ChildBlocked σ (script ops status) t := by
  obtain ⟨left, t, hrun, ht, hleft, hfull⟩ := hs.fills hover
  obtain ⟨⟨total, hp, htotal⟩, child, output, input, room⟩ := ht
  have haccepts : t.output.Accepts σ.cap σ.cap (σ.body.length - total) :=
    ⟨output.2, hcap, by omega, by rw [output.1, List.length_nil, Nat.zero_add]⟩
  refine ⟨_, hrun.next (.parent (.write t total σ.cap hp (by omega) haccepts)),
    parentBlocked_full rfl (by omega) hlen output.2 ?_,
    childBlocked_full child hleft input hfull⟩
  simp only [Pipe.put_content, output.1, List.nil_append, List.length_take, List.length_drop]
  omega

variable (ops status)

/-- For a read the parent hands over one byte, and the child takes it. -/
theorem Starving.reads {n r : Nat} {rest : List Op} {s : Exchange (List Op)}
    (hs : Starving σ (.read n :: rest) (r + min n 1) s) (hlen : σ.contentLength = σ.body.length)
    (hcap : 1 ≤ σ.cap) :
    ∃ t, Reachable (ExchangeStep σ (script ops status)) s t ∧ Starving σ rest r t ∧
      t.input = s.input := by
  obtain ⟨⟨total, hp, htotal⟩, child, output, input, room⟩ := hs
  by_cases hn : n = 0
  · exact ⟨_, Reachable.start.next
      (.child (.readNone s _ n (fun _ => rest) child rfl (Or.inl hn))),
      ⟨⟨total, hp, by omega⟩, rfl, output, input, room⟩, rfl⟩
  · have haccepts : s.output.Accepts σ.cap 1 (σ.body.length - total) :=
      ⟨output.2, Nat.one_pos, by omega, by rw [output.1]; exact hcap⟩
    have handed : ((σ.body.drop total).take 1).length = 1 := by
      rw [List.length_take, List.length_drop]
      omega
    have hyields : (s.output.put ((σ.body.drop total).take 1)).Yields 1 n :=
      ⟨Nat.one_pos, by omega, by rw [Pipe.put_content, output.1, List.nil_append, handed]⟩
    have hwrite : ExchangeStep σ (script ops status) s { s with
        parent := .writing (total + 1)
        output := s.output.put ((σ.body.drop total).take 1) } :=
      .parent (.write s total 1 hp (by omega) haccepts)
    refine ⟨_, (Reachable.start.next hwrite).next
      (.child (.read _ _ n 1 (fun _ => rest) child rfl output.2 hyields)),
      ⟨⟨total + 1, rfl, by omega⟩, rfl, ⟨?_, output.2⟩, input, room⟩, rfl⟩
    rw [Pipe.drop_content, Pipe.put_content, output.1, List.nil_append, List.drop_eq_nil_iff,
      handed]

/-- A write that fits goes through. -/
theorem Starving.writes {r : Nat} {bytes : Bytes} {rest : List Op} {s : Exchange (List Op)}
    (hs : Starving σ (.write bytes :: rest) r s)
    (hfits : bytes.length ≤ σ.cap - s.input.content.length) :
    ∃ t, Reachable (ExchangeStep σ (script ops status)) s t ∧ Starving σ rest r t ∧
      t.input.content.length = s.input.content.length + bytes.length := by
  obtain ⟨parent, child, output, input, room⟩ := hs
  by_cases hb : bytes = []
  · subst hb
    exact ⟨_, Reachable.start.next (.child (.writeNone s _ [] _ child rfl (Or.inl rfl))),
      ⟨parent, rfl, output, input, room⟩, rfl⟩
  · have hpos := List.length_pos_of_ne_nil hb
    have haccepts : s.input.Accepts σ.cap bytes.length bytes.length :=
      ⟨input.1, hpos, le_rfl, by omega⟩
    refine ⟨_, Reachable.start.next
      (.child (.write s _ bytes bytes.length _ child rfl input.2 haccepts)),
      ⟨parent, ?_, output, input, ?_⟩, ?_⟩
    · simp only [lt_self_iff_false, if_false]
    · simp only [Pipe.put_content, List.length_append, List.take_length]
      omega
    · simp only [Pipe.put_content, List.length_append, List.take_length]

/-- The parent hands the child one byte for each read, and the child writes
what fits, up to the first write that does not. -/
theorem Starving.reaches_blocked {rest : List Op} {r : Nat} {s : Exchange (List Op)}
    (hs : Starving σ rest r s) (hlen : σ.contentLength = σ.body.length) (hcap : 1 ≤ σ.cap)
    (hover : overflow (σ.cap - s.input.content.length) rest = some r) :
    ∃ t, Reachable (ExchangeStep σ (script ops status)) s t ∧
      ParentBlocked σ (script ops status) t ∧ ChildBlocked σ (script ops status) t := by
  induction rest generalizing s r with
  | nil => simp [overflow] at hover
  | cons op rest ih =>
    cases op with
    | read n =>
      rw [overflow, Option.map_eq_some_iff] at hover
      obtain ⟨r', hover, rfl⟩ := hover
      obtain ⟨t, hrun, ht, hinput⟩ := hs.reads ops status hlen hcap
      obtain ⟨u, hrun', hu⟩ := ih ht (hinput ▸ hover)
      exact ⟨u, hrun.trans hrun', hu⟩
    | write bytes =>
      rw [overflow] at hover
      by_cases hlt : σ.cap - s.input.content.length < bytes.length
      · rw [if_pos hlt] at hover
        cases hover
        exact hs.blocks hlen hcap hlt
      · rw [if_neg hlt] at hover
        obtain ⟨t, hrun, ht, hinput⟩ := hs.writes ops status (by omega)
        obtain ⟨u, hrun', hu⟩ := ih ht (by rw [hinput, ← hover]; congr 1; omega)
        exact ⟨u, hrun.trans hrun', hu⟩

theorem reaches_blocked_of_overflow {r : Nat} (hm : σ.method = methodPost)
    (hlen : σ.contentLength = σ.body.length) (hcap : 1 ≤ σ.cap)
    (hover : overflow σ.cap ops = some r) (hlong : r + σ.cap < σ.body.length) :
    ∃ t, Reachable (ExchangeStep σ (script ops status)) .initial t ∧
      ParentBlocked σ (script ops status) t ∧ ChildBlocked σ (script ops status) t := by
  have start : Reachable (ExchangeStep σ (script ops status)) .initial .initial :=
    Reachable.start
  have hs : Starving σ ops r
      { (Exchange.initial : Exchange (List Op)) with
        child := .running ops
        parent := if σ.method = methodPost then .writing 0 else .reading } :=
    ⟨⟨0, if_pos hm, by omega⟩, rfl, ⟨rfl, rfl⟩, ⟨rfl, rfl⟩, Nat.zero_le _⟩
  obtain ⟨t, hrun, ht⟩ := hs.reaches_blocked ops status hlen hcap hover
  exact ⟨t, (start.next (.parent (.fork _ rfl))).trans hrun, ht⟩

end

/-! ## The condition -/

/-- **No mutual blocking**, in any run, exactly when the body is no longer than
what the pipe to the child holds and the child's reads before its first write
without room are sure to take. -/
theorem exchange_live_iff (σ : CgiSetup) (ops : List Op) (status : UInt8)
    (hm : σ.method = methodPost) (hlen : σ.contentLength = σ.body.length) (hcap : 1 ≤ σ.cap)
    (hasked : asked ops ≤ σ.body.length) :
    (∀ s, Reachable (ExchangeStep σ (script ops status)) .initial s →
        ¬ (ParentBlocked σ (script ops status) s ∧ ChildBlocked σ (script ops status) s)) ↔
      ∀ r, overflow σ.cap ops = some r → σ.body.length ≤ r + σ.cap := by
  constructor
  · intro hlive r hr
    by_contra hlt
    obtain ⟨t, hrun, ht⟩ :=
      reaches_blocked_of_overflow ops status hm hlen hcap hr (Nat.lt_of_not_le hlt)
    exact hlive t hrun ht
  · intro hfits s hrun hblocked
    have hs : Flowing σ ops s := (exchangeStep_flowing hm hlen).reachable hrun rfl
    obtain ⟨⟨rest, hc⟩, -⟩ := hblocked.2
    rw [Flowing, hc] at hs
    obtain ⟨consumed, hs⟩ := hs
    obtain ⟨r, hr, hlt⟩ := hs.overflow_of_blocked hc hlen hcap hasked hblocked.1 hblocked.2
    have := hfits r hr
    omega

/-- A POST of `n` equal bytes over pipes of 64 KiB. -/
def postSetup (n : Nat) : CgiSetup := ⟨methodPost, List.replicate n 97, n, 65536⟩

/-- A program that reads its input before it answers. -/
theorem exchange_live_echo :
    overflow (postSetup 4).cap [.read 4, .write (str "aaaa")] = none ∧
      ∀ s, Reachable (ExchangeStep (postSetup 4) (script [.read 4, .write (str "aaaa")] 0))
          .initial s →
        ¬ (ParentBlocked (postSetup 4) (script [.read 4, .write (str "aaaa")] 0) s ∧
          ChildBlocked (postSetup 4) (script [.read 4, .write (str "aaaa")] 0) s) := by
  have hnone : overflow (postSetup 4).cap [.read 4, .write (str "aaaa")] = none := by decide
  refine ⟨hnone, ?_⟩
  apply (exchange_live_iff (postSetup 4) [.read 4, .write (str "aaaa")] 0 rfl rfl (by decide)
    (by decide)).mpr
  intro r hr
  cases hnone.symm.trans hr

/-- One byte more than a pipe holds, each way, and the child writes first. -/
theorem exchange_stuck :
    ∃ s, Reachable (ExchangeStep (postSetup 65537)
        (script [.write (List.replicate 65537 98)] 0)) .initial s ∧
      ParentBlocked (postSetup 65537) (script [.write (List.replicate 65537 98)] 0) s ∧
      ChildBlocked (postSetup 65537) (script [.write (List.replicate 65537 98)] 0) s := by
  have hover : overflow (postSetup 65537).cap [.write (List.replicate 65537 98)] = some 0 := by
    rw [overflow, List.length_replicate]
    rfl
  have hlen : (postSetup 65537).body.length = 65537 := List.length_replicate
  exact reaches_blocked_of_overflow _ _ rfl (by rw [hlen]; rfl) (by decide) hover
    (by rw [hlen]; decide)

end MinHttp

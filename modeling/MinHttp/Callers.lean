import MinHttp.HandOff
import MinHttp.Outcome

/-! Programs that call `GetQueryString` first and then write their answer: for
the exchange they are scripts, which read the body byte by byte. -/
namespace MinHttp

open Lib.Runs
open Lib.Halting
open Lib (Pipe)
open Lib.Numerals (signed)

/-! ## One program in the place of another -/

section
variable {κ κ' : Type}

def Child.map (f : κ → κ') : Child κ → Child κ'
  | .unborn => .unborn
  | .running k => .running (f k)
  | .ended status => .ended status

def Exchange.map (f : κ → κ') (s : Exchange κ) : Exchange κ' where
  parent := s.parent
  child := s.child.map f
  input := s.input
  output := s.output
  respBody := s.respBody
  written := s.written

/-- The same call, which goes on in the same way to the states that are reached. -/
inductive Act.Follows (f : κ → κ') (reached : κ → Prop) : Act κ → Act κ' → Prop
  | read (asked : Nat) (got : Bytes → κ) (got' : Bytes → κ')
      (same : ∀ bytes, reached (got bytes) → got' bytes = f (got bytes)) :
      Follows f reached (.read asked got) (.read asked got')
  | write (bytes : Bytes) (wrote : Nat → κ) (wrote' : Nat → κ')
      (same : ∀ n, reached (wrote n) → wrote' n = f (wrote n)) :
      Follows f reached (.write bytes wrote) (.write bytes wrote')
  | closeIn (next : κ) : Follows f reached (.closeIn next) (.closeIn (f next))
  | closeOut (next : κ) : Follows f reached (.closeOut next) (.closeOut (f next))
  | exit (status : UInt8) : Follows f reached (.exit status) (.exit status)
  | abort : Follows f reached .abort .abort

theorem follows_map {f : κ → κ'} {g : κ' → κ} (hfg : ∀ k, f (g k) = k) (reached : κ → Prop)
    (act : Act κ') : Act.Follows f reached (act.map g) act := by
  cases act with
  | read asked got => exact .read asked _ got fun bytes _ => (hfg (got bytes)).symm
  | write bytes wrote => exact .write bytes _ wrote fun n _ => (hfg (wrote n)).symm
  | closeIn next =>
    have h : Act.Follows f reached (.closeIn (g next)) (.closeIn (f (g next))) := .closeIn (g next)
    rwa [hfg] at h
  | closeOut next =>
    have h : Act.Follows f reached (.closeOut (g next)) (.closeOut (f (g next))) :=
      .closeOut (g next)
    rwa [hfg] at h
  | exit status => exact .exit status
  | abort => exact .abort

variable {σ : CgiSetup} {P : Program κ} {P' : Program κ'} {f : κ → κ'}

theorem parentStep_map (hstart : P'.start = f P.start) {s t : Exchange κ}
    (h : ParentStep σ P s t) : ParentStep σ P' (s.map f) (t.map f) := by
  cases h with
  | fork pc =>
    have hfork := ParentStep.fork (σ := σ) (P := P') (s.map f) pc
    rwa [hstart] at hfork
  | write total n pc more accepted => exact .write (s.map f) total n pc more accepted
  | writeNothing total pc more none => exact .writeNothing (s.map f) total pc more none
  | writeBroken total pc more some broken =>
    exact .writeBroken (s.map f) total pc more some broken
  | written total pc done => exact .written (s.map f) total pc done
  | read ch rest pc there => exact .read (s.map f) ch rest pc there
  | eof pc ended => exact .eof (s.map f) pc ended
  | wait status pc ended =>
    exact .wait (s.map f) status pc (congrArg (Child.map f) ended)

theorem childStep_map {s t : Exchange κ} (h : ChildStep σ P s t) {k : κ}
    (hk : s.child = .running k)
    (hf : Act.Follows f (fun k' => t.child = .running k') (P.act k) (P'.act (f k))) :
    ChildStep σ P' (s.map f) (t.map f) := by
  have hchild : (s.map f).child = .running (f k) := congrArg (Child.map f) hk
  generalize hact : P'.act (f k) = act' at hf
  cases h with
  | read k₀ asked n got pc act open_ yields =>
    cases hk.symm.trans pc
    rw [act] at hf
    cases hf with
    | read _ _ got' same =>
      have hstep : ChildStep σ P' (s.map f) _ :=
        .read (s.map f) (f k) asked n got' hchild hact open_ yields
      have hgot : got' ((s.map f).output.content.take n) = _ := same (s.output.content.take n) rfl
      rwa [hgot] at hstep
  | readNone k₀ asked got pc act none =>
    cases hk.symm.trans pc
    rw [act] at hf
    cases hf with
    | read _ _ got' same =>
      have hstep : ChildStep σ P' (s.map f) _ :=
        .readNone (s.map f) (f k) asked got' hchild hact none
      rwa [same _ rfl] at hstep
  | write k₀ bytes n wrote pc act open_ accepted =>
    cases hk.symm.trans pc
    rw [act] at hf
    cases hf with
    | write _ _ wrote' same =>
      have hstep : ChildStep σ P' (s.map f) _ :=
        .write (s.map f) (f k) bytes n wrote' hchild hact open_ accepted
      rwa [same _ rfl] at hstep
  | writeNone k₀ bytes wrote pc act none =>
    cases hk.symm.trans pc
    rw [act] at hf
    cases hf with
    | write _ _ wrote' same =>
      have hstep : ChildStep σ P' (s.map f) _ :=
        .writeNone (s.map f) (f k) bytes wrote' hchild hact none
      rwa [same _ rfl] at hstep
  | closeIn k₀ next pc act =>
    cases hk.symm.trans pc
    rw [act] at hf
    cases hf
    exact .closeIn (s.map f) (f k) (f next) hchild hact
  | closeOut k₀ next pc act =>
    cases hk.symm.trans pc
    rw [act] at hf
    cases hf
    exact .closeOut (s.map f) (f k) (f next) hchild hact
  | exit k₀ status pc act =>
    cases hk.symm.trans pc
    rw [act] at hf
    cases hf
    exact .exit (s.map f) (f k) status hchild hact
  | abort k₀ pc act =>
    cases hk.symm.trans pc
    rw [act] at hf
    cases hf
    exact .abort (s.map f) (f k) hchild hact

/-- What one parent can do the other can. -/
theorem parentStep_unmap {s : Exchange κ} {t' : Exchange κ'} (h : ParentStep σ P' (s.map f) t') :
    ∃ t, ParentStep σ P s t := by
  cases h with
  | fork pc => exact ⟨_, .fork s pc⟩
  | write total n pc more accepted => exact ⟨_, .write s total n pc more accepted⟩
  | writeNothing total pc more none => exact ⟨_, .writeNothing s total pc more none⟩
  | writeBroken total pc more some broken => exact ⟨_, .writeBroken s total pc more some broken⟩
  | written total pc done => exact ⟨_, .written s total pc done⟩
  | read ch rest pc there => exact ⟨_, .read s ch rest pc there⟩
  | eof pc ended => exact ⟨_, .eof s pc ended⟩
  | wait status pc ended =>
    cases hc : s.child with
    | ended status' => exact ⟨_, .wait s status' pc hc⟩
    | unborn | running k => simp [Exchange.map, hc, Child.map] at ended

theorem childStep_unmap {s : Exchange κ} {t' : Exchange κ'} (h : ChildStep σ P' (s.map f) t')
    {k : κ} (hk : s.child = .running k) {reached : κ → Prop}
    (hf : Act.Follows f reached (P.act k) (P'.act (f k))) : ∃ t, ChildStep σ P s t := by
  have hchild : (s.map f).child = .running (f k) := congrArg (Child.map f) hk
  generalize hact : P.act k = act at hf
  cases h with
  | read k₀ asked n got pc act' open_ yields =>
    cases hchild.symm.trans pc
    rw [act'] at hf
    cases hf
    exact ⟨_, .read s k asked n _ hk hact open_ yields⟩
  | readNone k₀ asked got pc act' none =>
    cases hchild.symm.trans pc
    rw [act'] at hf
    cases hf
    exact ⟨_, .readNone s k asked _ hk hact none⟩
  | write k₀ bytes n wrote pc act' open_ accepted =>
    cases hchild.symm.trans pc
    rw [act'] at hf
    cases hf
    exact ⟨_, .write s k bytes n _ hk hact open_ accepted⟩
  | writeNone k₀ bytes wrote pc act' none =>
    cases hchild.symm.trans pc
    rw [act'] at hf
    cases hf
    exact ⟨_, .writeNone s k bytes _ hk hact none⟩
  | closeIn k₀ next pc act' =>
    cases hchild.symm.trans pc
    rw [act'] at hf
    cases hf
    exact ⟨_, .closeIn s k _ hk hact⟩
  | closeOut k₀ next pc act' =>
    cases hchild.symm.trans pc
    rw [act'] at hf
    cases hf
    exact ⟨_, .closeOut s k _ hk hact⟩
  | exit k₀ status pc act' =>
    cases hchild.symm.trans pc
    rw [act'] at hf
    cases hf
    exact ⟨_, .exit s k status hk hact⟩
  | abort k₀ pc act' =>
    cases hchild.symm.trans pc
    rw [act'] at hf
    cases hf
    exact ⟨_, .abort s k hk hact⟩

end

/-- The parent writes nothing, and the script asks for nothing. -/
structure Unasked (s : Exchange (List Op)) : Prop where
  parent : ∀ total, s.parent ≠ .writing total
  child : ∀ rest, s.child = .running rest → asked rest = 0

section
variable {σ : CgiSetup} {ops : List Op} {status : UInt8}

theorem exchangeStep_unasked (hm : σ.method ≠ methodPost) (hasked : asked ops = 0) :
    Preserved (ExchangeStep σ (script ops status)) Unasked := by
  rintro s t h ⟨parent, child⟩
  cases h with
  | parent step =>
    cases step with
    | fork pc =>
      refine ⟨fun total hp => ?_, fun rest hc => ?_⟩
      · rw [if_neg hm] at hp
        cases hp
      · cases hc
        exact hasked
    | write total n pc | writeNothing total pc | writeBroken total pc | written total pc =>
      exact absurd pc (parent total)
    | read ch rest pc there => exact ⟨parent, child⟩
    | eof => exact ⟨fun total hp => (by cases hp), child⟩
    | wait => exact ⟨fun total hp => (by cases hp), child⟩
  | child step =>
    refine ⟨fun total hp => parent total ((childStep_parent step).1.symm.trans hp), ?_⟩
    intro rest hc
    cases step with
    | read k n m got pc act | readNone k n got pc act =>
      obtain ⟨rest', rfl, rfl⟩ := script_act act
      cases hc
      have hnone : n + asked rest' = 0 := child _ pc
      exact (Nat.eq_zero_of_add_eq_zero hnone).2
    | write k bytes n wrote pc act | writeNone k bytes wrote pc act =>
      obtain ⟨rest', rfl, rfl⟩ := script_act act
      cases hc
      have hnone := child _ pc
      rw [asked] at hnone
      rw [asked_took, hnone]
    | closeIn k next pc act => exact (script_act act).elim
    | closeOut k next pc act => exact (script_act act).elim
    | exit | abort => cases hc

/-- The parent reads, and the child, which only writes, makes room for it to. -/
theorem get_not_blocked (hm : σ.method ≠ methodPost) (hcap : 1 ≤ σ.cap) (hasked : asked ops = 0)
    {s : Exchange (List Op)} (h : Reachable (ExchangeStep σ (script ops status)) .initial s) :
    ¬ (ParentBlocked σ (script ops status) s ∧ ChildBlocked σ (script ops status) s) := by
  rintro ⟨⟨-, hstuck⟩, hchild⟩
  have hs := reachable_scripted h
  obtain ⟨parent, child⟩ := (exchangeStep_unasked hm hasked).reachable h
    ⟨fun total hp => (by cases hp), fun rest hc => (by cases hc)⟩
  obtain ⟨rest, hc⟩ := hchild.1
  obtain ⟨hinput, houtput⟩ := hs.kept rest hc
  obtain ⟨hcalling, hreturned⟩ := hs.regular.running hc
  cases hp : s.parent with
  | calling => exact hcalling hp
  | writing total => exact parent total hp
  | returned code => exact hreturned code hp
  | waiting =>
    have hclosed := (hs.regular.waiting hp).closed
    rw [hinput.2] at hclosed
    cases hclosed
  | reading =>
    rcases blocked_script hc houtput.1 hinput hchild with
      ⟨n, rest', rfl, hpos, -⟩ | ⟨bytes, rest', -, -, hfull⟩
    · have hnone := child _ hc
      rw [asked] at hnone
      omega
    · cases hin : s.input.content with
      | nil =>
        rw [hin, List.length_nil] at hfull
        omega
      | cons ch tail => exact hstuck _ (.read s ch tail hp hin)

end

/-! ## Programs that call `GetQueryString` first -/

/-- A program that does nothing after `GetQueryString` but write what goes with
its argument and exit. -/
def answering (answer : Bytes → List Bytes) (status : UInt8) : CgiMain (List Op) where
  start := []
  before _ := none
  after _ queryString := (answer queryString).map .write
  act := (script [] status).act

section
variable {r : HttpRequest} {answer : Bytes → List Bytes} {status : UInt8} {cap : Nat}

/-- The script that such a program is for a request. -/
def replies (answer : Bytes → List Bytes) (r : HttpRequest) : List Op :=
  (answer (argument r)).map .write

def callerOps (answer : Bytes → List Bytes) (r : HttpRequest) : List Op :=
  (if r.method = methodPost then List.replicate r.reqBody.length (.read 1) else []) ++
    replies answer r

/-- What is left of the script; the bytes still to come are those of the body. -/
def asOps (answer : Bytes → List Bytes) (r : HttpRequest) : Caller (List Op) → List Op
  | .loop contentLength _ _ _ =>
    List.replicate contentLength.toNat (.read 1) ++ replies answer r
  | .back _ _ _ ops => ops
  | .before _ _ | .crashed => []

abbrev CallerStep (answer : Bytes → List Bytes) (status : UInt8) (r : HttpRequest) (cap : Nat)
    (inherited : Env) : Exchange (Caller (List Op)) → Exchange (Caller (List Op)) → Prop :=
  ExchangeStep (cgiSetup r cap) (caller (childEnv inherited r) (answering answer status))

theorem whileContentLength_asOps {output : Pipe Byte} {parent : Parent} {contentLength : Int}
    {c : Byte} {q : Bytes} {looked : List Bytes}
    (h : HandedTo r output parent
      (whileContentLength (answering answer status) contentLength c q looked)) :
    asOps answer r (whileContentLength (answering answer status) contentLength c q looked) =
      List.replicate contentLength.toNat (.read 1) ++ replies answer r := by
  unfold whileContentLength at h ⊢
  by_cases hzero : contentLength = 0
  · rw [if_pos hzero] at h ⊢
    obtain ⟨-, -, rfl⟩ := h
    rw [hzero]
    rfl
  · rw [if_neg hzero]
    rfl

/-- The call has been made. -/
def Caller.Called {κ : Type} : Caller κ → Prop
  | .before _ _ => False
  | .loop _ _ _ _ | .back _ _ _ _ | .crashed => True

theorem whileContentLength_called {κ : Type} (m : CgiMain κ) (contentLength : Int) (c : Byte)
    (q : Bytes) (looked : List Bytes) :
    (whileContentLength m contentLength c q looked).Called := by
  unfold whileContentLength
  split <;> trivial

theorem getQueryString_called {κ : Type} (env : Env) (m : CgiMain κ) :
    (getQueryString env m).Called := by
  unfold getQueryString
  split
  · trivial
  · split
    · split <;> trivial
    · split
      · split
        · trivial
        · exact whileContentLength_called m _ _ _ _
      · trivial

/-- A request with all of its body, of which `putenv` cuts nothing off. -/
structure Whole (r : HttpRequest) : Prop extends Prepared r where
  nul : NUL ∉ r.uri
  body : r.reqBody.length = r.contentLength

theorem caller_start (inherited : Env) (hr : Whole r) :
    asOps answer r (caller (childEnv inherited r) (answering answer status)).start =
      callerOps answer r := by
  have hstart : (caller (childEnv inherited r) (answering answer status)).start =
      getQueryString (childEnv inherited r) (answering answer status) := rfl
  have hway : r.method = methodPost → OnItsWay r.reqBody .new .calling [] :=
    fun _ => ⟨rfl, rfl, rfl⟩
  have hhanded : HandedTo r .new .calling
      (getQueryString (childEnv inherited r) (answering answer status)) :=
    getQueryString_handedTo inherited hr.toPrepared hr.nul hr.body hway
  rw [hstart]
  rcases hr.method with hm | hm
  · have hne : r.method ≠ methodPost := by
      rw [hm]
      decide
    have hq : NUL ∉ r.queryString := by
      rw [hr.query hm]
      intro hmem
      exact hr.nul ((List.dropWhile_sublist _).subset (List.mem_of_mem_tail hmem))
    rw [getQueryString_get inherited _ hm hq] at hhanded ⊢
    obtain ⟨-, -, hq⟩ := hhanded
    rw [asOps, callerOps, if_neg hne, hq]
    rfl
  · have hbound := hr.bound
    have hbody := hr.body
    rw [getQueryString_post inherited _ hm hbody.symm (by omega)] at hhanded ⊢
    rw [whileContentLength_asOps hhanded, callerOps, if_pos hm]
    rfl

/-- What the steps of such an exchange keep. -/
structure Calls (r : HttpRequest) (s : Exchange (Caller (List Op))) : Prop where
  handing : HandingOver r s
  called : ∀ k, s.child = .running k → k.Called

/-- In the loop and after it every call is the script's. -/
theorem caller_follows (inherited : Env) (hr : Whole r) {s t : Exchange (Caller (List Op))}
    (hs : Calls r s) (ht : HandingOver r t) {k : Caller (List Op)} (hk : s.child = .running k) :
    Act.Follows (asOps answer r) (fun k' => t.child = .running k')
      ((caller (childEnv inherited r) (answering answer status)).act k)
      ((script (callerOps answer r) status).act (asOps answer r k)) := by
  have hhanded := hs.handing.child
  rw [Handed, hk] at hhanded
  cases k with
  | before => exact (hs.called _ hk).elim
  | crashed => exact hhanded.elim
  | back result q looked ops => exact follows_map (fun _ => rfl) _ _
  | loop contentLength c q looked =>
    obtain ⟨hm, hlooked, ⟨hpos, hlen⟩, way⟩ := hhanded
    have hbound := hr.bound
    have hbody := hr.body
    have hpred : signed 32 (contentLength - 1) = contentLength - 1 :=
      Lib.Numerals.signed32_of_mem (by omega) (by omega)
    have hsucc : contentLength.toNat = (contentLength - 1).toNat + 1 := by omega
    have hops : asOps answer r (.loop contentLength c q looked) =
        .read 1 :: (List.replicate (contentLength - 1).toNat (.read 1) ++ replies answer r) := by
      rw [asOps, hsucc, List.replicate_succ, List.cons_append]
    rw [hops]
    refine .read 1 _ _ fun bytes hreached => ?_
    have hnext := ht.child
    rw [Handed, hreached, hpred] at hnext
    rw [hpred, whileContentLength_asOps hnext]

theorem callerStep_calls (inherited : Env) (hr : Whole r) :
    Preserved (CallerStep answer status r cap inherited) (Calls r) := by
  rintro s t h ⟨handing, called⟩
  refine ⟨exchangeStep_handingOver inherited hr.toPrepared hr.nul hr.body h handing, ?_⟩
  intro k hk
  cases h with
  | parent step =>
    cases step with
    | fork pc =>
      cases hk
      exact getQueryString_called _ _
    | _ => exact called k hk
  | child step =>
    obtain ⟨k₀, hk₀⟩ := childStep_running step
    have hall : ((caller (childEnv inherited r) (answering answer status)).act k₀).All
        Caller.Called := by
      cases k₀ with
      | before => exact (called _ hk₀).elim
      | loop => exact fun bytes => whileContentLength_called _ _ _ _ _
      | back => exact Act.map_all (fun _ => trivial) _
      | crashed => trivial
    rcases childStep_next step hk₀ hall with ⟨k', hk', hcalled⟩ | ⟨status, hended⟩
    · cases hk.symm.trans hk'
      exact hcalled
    · cases hk.symm.trans hended

theorem initial_calls : Calls r (.initial : Exchange (Caller (List Op))) :=
  ⟨⟨fun _ => rfl, rfl⟩, fun _ hk => (by cases hk)⟩

/-- The exchange with such a program refines the exchange with the script. -/
theorem callerStep_script (inherited : Env) (hr : Whole r) {s t : Exchange (Caller (List Op))}
    (h : CallerStep answer status r cap inherited s t) (hs : Calls r s) :
    ExchangeStep (cgiSetup r cap) (script (callerOps answer r) status) (s.map (asOps answer r))
      (t.map (asOps answer r)) := by
  cases h with
  | parent step => exact .parent (parentStep_map (caller_start inherited hr).symm step)
  | child step =>
    obtain ⟨k, hk⟩ := childStep_running step
    have ht := callerStep_calls inherited hr (.child step) hs
    exact .child (childStep_map step hk (caller_follows inherited hr hs ht.handing hk))

/-- Where one is blocked the other is. -/
theorem caller_blocked (inherited : Env) (hr : Whole r) {s : Exchange (Caller (List Op))}
    (hs : Calls r s)
    (hparent : ParentBlocked (cgiSetup r cap)
      (caller (childEnv inherited r) (answering answer status)) s)
    (hchild : ChildBlocked (cgiSetup r cap)
      (caller (childEnv inherited r) (answering answer status)) s) :
    ParentBlocked (cgiSetup r cap) (script (callerOps answer r) status) (s.map (asOps answer r)) ∧
      ChildBlocked (cgiSetup r cap) (script (callerOps answer r) status)
        (s.map (asOps answer r)) := by
  obtain ⟨k, hk⟩ := hchild.1
  refine ⟨⟨hparent.1, fun t' step => ?_⟩, ⟨asOps answer r k, congrArg (Child.map _) hk⟩,
    fun t' step => ?_⟩
  · obtain ⟨t, ht⟩ := parentStep_unmap step
    exact hparent.2 t ht
  · obtain ⟨t, ht⟩ :=
      childStep_unmap step hk (caller_follows inherited hr hs hs.handing hk)
    exact hchild.2 t ht

theorem asked_replies (answer : Bytes → List Bytes) (r : HttpRequest) :
    asked (replies answer r) = 0 := by
  unfold replies
  induction answer (argument r) with
  | nil => rfl
  | cons bytes rest ih => exact ih

theorem asked_reads (n : Nat) (ops : List Op) :
    asked (List.replicate n (.read 1) ++ ops) = n + asked ops := by
  induction n with
  | zero => exact (Nat.zero_add _).symm
  | succ n ih =>
    rw [List.replicate_succ, List.cons_append, asked, ih]
    omega

/-- A write comes after all the reads before it. -/
theorem overflow_reads {room n r : Nat} {ops : List Op}
    (h : overflow room (List.replicate n (.read 1) ++ ops) = some r) : n ≤ r := by
  induction n generalizing r with
  | zero => exact Nat.zero_le r
  | succ n ih =>
    rw [List.replicate_succ, List.cons_append, overflow, Option.map_eq_some_iff] at h
    obtain ⟨r', hr', rfl⟩ := h
    exact Nat.succ_le_succ (ih hr')

theorem outputs_replies (answer : Bytes → List Bytes) (r : HttpRequest) :
    outputs (replies answer r) = (answer (argument r)).flatten := by
  unfold replies
  induction answer (argument r) with
  | nil => rfl
  | cons bytes rest ih =>
    rw [List.map_cons, outputs, ih, List.flatten_cons]

theorem outputs_reads (n : Nat) (ops : List Op) :
    outputs (List.replicate n (.read 1) ++ ops) = outputs ops := by
  induction n with
  | zero => rfl
  | succ n ih => exact ih

theorem callerOps_outputs (answer : Bytes → List Bytes) (r : HttpRequest) :
    outputs (callerOps answer r) = (answer (argument r)).flatten := by
  unfold callerOps
  split
  · rw [outputs_reads, outputs_replies]
  · exact outputs_replies answer r

theorem callerOps_not_blocked (hr : Whole r) (hcap : 1 ≤ cap) {s : Exchange (List Op)}
    (h : Reachable (ExchangeStep (cgiSetup r cap) (script (callerOps answer r) status))
      .initial s) :
    ¬ (ParentBlocked (cgiSetup r cap) (script (callerOps answer r) status) s ∧
      ChildBlocked (cgiSetup r cap) (script (callerOps answer r) status) s) := by
  by_cases hm : r.method = methodPost
  · have hops : callerOps answer r =
        List.replicate r.reqBody.length (.read 1) ++ replies answer r := by
      rw [callerOps, if_pos hm]
    refine post_not_blocked hm hr.body.symm hcap ?_ ?_ h
    · rw [hops, asked_reads, asked_replies]
      exact Nat.le_refl _
    · intro overflows hover
      rw [hops] at hover
      exact (overflow_reads hover).trans (Nat.le_add_right _ _)
  · refine get_not_blocked hm hcap ?_ h
    rw [callerOps, if_neg hm]
    exact asked_replies answer r

/-! ## Every run of such a program -/

theorem callerStep_reachable (inherited : Env) (hr : Whole r)
    {s : Exchange (Caller (List Op))}
    (h : Reachable (CallerStep answer status r cap inherited) .initial s) :
    Calls r s ∧
      Reachable (ExchangeStep (cgiSetup r cap) (script (callerOps answer r) status)) .initial
        (s.map (asOps answer r)) := by
  have hcalls : Preserved (CallerStep answer status r cap inherited) (Calls r) :=
    callerStep_calls inherited hr
  refine ⟨hcalls.reachable h initial_calls, ?_⟩
  exact h.project hcalls (fun _ _ hstep hs => Or.inr (callerStep_script inherited hr hstep hs))
    initial_calls

theorem callerStep_ranked (inherited : Env) (hr : Whole r) :
    Ranked (CallerStep answer status r cap inherited)
      (fun s => Calls r s ∧ (s.map (asOps answer r)).Scripted (callerOps answer r) status)
      fun s => (s.map (asOps answer r)).work (cgiSetup r cap) (callerOps answer r) := by
  constructor
  · rintro s t h ⟨hs, hscript⟩
    exact ⟨callerStep_calls inherited hr h hs,
      script_ranked.keeps (callerStep_script inherited hr h hs) hscript⟩
  · rintro s t h ⟨hs, hscript⟩
    exact script_ranked.lowers (callerStep_script inherited hr h hs) hscript

theorem callers_return (inherited : Env) (hr : Whole r) (hcap : 1 ≤ cap) :
    Concludes (cgiSetup r cap) (caller (childEnv inherited r) (answering answer status))
      (waitCode OK (.exited status)) (answer (argument r)).flatten := by
  intro s h hfinal
  obtain ⟨hs, hscript⟩ := callerStep_reachable inherited hr h
  rcases final_returned_or_blocked (reachable_regular h) hfinal with ⟨code, hp⟩ | hblocked
  · obtain ⟨rfl, hbody⟩ := (reachable_scripted hscript).returned hp
    exact ⟨hp, hbody.trans (callerOps_outputs answer r)⟩
  · have hboth := caller_blocked inherited hr hs hblocked.1 hblocked.2
    exact absurd hboth (callerOps_not_blocked hr hcap hscript)

end

end MinHttp

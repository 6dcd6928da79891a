import MinHttp.Send

/-! Which results of the socket calls let every byte of a response through
once and in order. -/
namespace MinHttp

open Lib.Numerals (unsigned)

section
variable {β : Type}

/-- The pieces sent by one call each. -/
def Reply.pieces (r : Reply β) : List (List β) := r.statusLine :: (r.respHead ++ [r.blank])

/-- The body to send: `Resp_body`, or the first `size` bytes of the file. -/
def Reply.body (r : Reply β) : List β :=
  if r.cgi then r.respBody else (r.file.getD []).take r.size.toNat

/-- The response, byte by byte. -/
def Reply.whole (r : Reply β) : List β := r.pieces.flatten ++ r.body

/-- Each of the calls from `i` on takes all that it is asked for. -/
def AllTaken (o : Sender) (i : Nat) : List Nat → Prop
  | [] => True
  | n :: ns => (o.result i n).toNat = n ∧ AllTaken o (i + 1) ns

/-- Every single call takes its whole piece, every call of the body loop takes
one byte, and `sendfile` takes all that there is of what it is asked for. -/
structure Reply.Taken (o : Sender) (r : Reply β) : Prop where
  pieces : AllTaken o 0 (r.pieces.map List.length)
  body : r.cgi = true → ∀ j < r.respBody.length,
    o.result (r.pieces.length + j) (r.respBody.length - j) = 1
  file : r.cgi = false → 0 ≤ r.size → ∀ content, r.file = some content →
    (o.result r.pieces.length (min r.size.toNat content.length)).toNat =
      min r.size.toNat content.length

variable (o : Sender)

theorem sendHead_append (i : Nat) (xs ys : List (List β)) :
    sendHead o i (xs ++ ys) = sendHead o i xs ++ sendHead o (i + xs.length) ys := by
  induction xs generalizing i with
  | nil => rfl
  | cons x xs ih =>
    simp only [List.cons_append, sendHead, ih, List.append_assoc, List.length_cons]
    rw [Nat.add_right_comm, Nat.add_assoc]

theorem Reply.send_eq (r : Reply β) :
    r.send o = sendHead o 0 r.pieces ++
      if r.cgi then sendBodyLoop o r.pieces.length r.respBody 0
      else sendfile o r.pieces.length r.file r.size := by
  have hlen : r.pieces.length = 2 + r.respHead.length := by
    simp [Reply.pieces]
    omega
  rw [hlen, Reply.send, Reply.pieces, sendHead, sendHead_append]
  simp [sendHead]

theorem result_toNat_le (i n : Nat) : (o.result i n).toNat ≤ n := by
  have := o.le_asked i n
  omega

theorem sendPiece_length (i : Nat) (piece : List β) :
    (sendPiece o i piece).length = (o.result i piece.length).toNat := by
  have := result_toNat_le o i piece.length
  rw [sendPiece, List.length_take]
  omega

theorem sendHead_length_le (i : Nat) (ps : List (List β)) :
    (sendHead o i ps).length ≤ ps.flatten.length := by
  induction ps generalizing i with
  | nil => simp [sendHead]
  | cons p ps ih =>
    have hp := result_toNat_le o i p.length
    have := ih (i + 1)
    simp only [sendHead, List.flatten_cons, List.length_append, sendPiece_length]
    omega

theorem sendHead_eq_iff (i : Nat) (ps : List (List β)) :
    (sendHead o i ps).length = ps.flatten.length ↔ AllTaken o i (ps.map List.length) := by
  induction ps generalizing i with
  | nil => simp [sendHead, AllTaken]
  | cons p ps ih =>
    have hp := result_toNat_le o i p.length
    have hps := sendHead_length_le o (i + 1) ps
    simp only [sendHead, List.flatten_cons, List.length_append, sendPiece_length, List.map_cons,
      AllTaken, ← ih]
    omega

theorem sendHead_of_taken (i : Nat) (ps : List (List β))
    (h : AllTaken o i (ps.map List.length)) : sendHead o i ps = ps.flatten := by
  induction ps generalizing i with
  | nil => rfl
  | cons p ps ih =>
    obtain ⟨hp, hps⟩ := h
    rw [sendHead, ih (i + 1) hps, sendPiece, hp, List.take_length, List.flatten_cons]

theorem sendBodyLoop_step (i : Nat) (body : List β) (total : Nat) (hlt : total < body.length)
    (hpos : 0 < o.result i (body.length - total)) :
    sendBodyLoop o i body total =
      (body.drop total).take (o.result i (body.length - total)).toNat ++
        sendBodyLoop o (i + 1) body (total + 1) := by
  rw [sendBodyLoop]
  simp [hlt, hpos]

theorem sendBodyLoop_end (i : Nat) (body : List β) (total : Nat) (h : body.length ≤ total) :
    sendBodyLoop o i body total = [] := by
  rw [sendBodyLoop, if_neg (by omega)]

/-- One byte a call is what the loop counts, and then it sends the body. -/
theorem sendBodyLoop_of_ones (body : List β) (k i total : Nat) (hk : k = body.length - total)
    (h : ∀ j < k, o.result (i + j) (k - j) = 1) :
    sendBodyLoop o i body total = body.drop total := by
  induction k generalizing i total with
  | zero =>
    rw [sendBodyLoop_end o i body total (by omega), List.drop_eq_nil_of_le (by omega)]
  | succ k ih =>
    have h0 := h 0 (by omega)
    rw [Nat.add_zero, Nat.sub_zero, hk] at h0
    rw [sendBodyLoop_step o i body total (by omega) (by omega), h0,
      ih (i + 1) (total + 1) (by omega) (fun j hj => by
        have := h (j + 1) (by omega)
        rwa [show i + (j + 1) = i + 1 + j by omega, show k + 1 - (j + 1) = k - j by omega] at this)]
    rw [← List.drop_drop, Int.toNat_one, List.take_append_drop]

/-- The loop sends at least the body's length, and more unless every call
takes one byte. -/
theorem sendBodyLoop_length (hpos : ∀ i n, 0 < n → 0 < o.result i n) (body : List β)
    (k i total : Nat) (hk : k = body.length - total) :
    k ≤ (sendBodyLoop o i body total).length ∧
      ((sendBodyLoop o i body total).length = k → ∀ j < k, o.result (i + j) (k - j) = 1) := by
  induction k generalizing i total with
  | zero => simp
  | succ k ih =>
    obtain ⟨hle, hone⟩ := ih (i + 1) (total + 1) (by omega)
    have hp := hpos i (body.length - total) (by omega)
    have hl := result_toNat_le o i (body.length - total)
    have hlen : (sendBodyLoop o i body total).length =
        (o.result i (body.length - total)).toNat +
          (sendBodyLoop o (i + 1) body (total + 1)).length := by
      rw [sendBodyLoop_step o i body total (by omega) hp, List.length_append, List.length_take,
        List.length_drop]
      omega
    refine ⟨by omega, fun heq j hj => ?_⟩
    cases j with
    | zero =>
      rw [Nat.add_zero, Nat.sub_zero, hk]
      omega
    | succ j =>
      have := hone (by omega) j (by omega)
      rwa [show i + (j + 1) = i + 1 + j by omega, show k + 1 - (j + 1) = k - j by omega]

/-- An `int` as the count of `sendfile`. -/
theorem sendfile_eq (i : Nat) (content : List β) {size : Int} (hlo : -2 ^ 31 ≤ size)
    (hhi : size < 2 ^ 31) :
    sendfile o i (some content) size =
      if 0 ≤ size then content.take (o.result i (min size.toNat content.length)).toNat else [] := by
  by_cases h : 0 ≤ size
  · have hu : unsigned 64 size = size.toNat := by
      unfold unsigned
      omega
    have hlt : size.toNat < 2 ^ 63 := by omega
    simp only [sendfile, hu, if_pos h, if_pos hlt]
  · have hu : ¬ unsigned 64 size < 2 ^ 63 := by
      unfold unsigned
      omega
    simp only [sendfile, if_neg h, if_neg hu]

theorem Reply.send_of_taken (r : Reply β) (hlo : -2 ^ 31 ≤ r.size) (hhi : r.size < 2 ^ 31)
    (h : r.Taken o) : r.send o = r.whole := by
  rw [Reply.send_eq, sendHead_of_taken o 0 _ h.pieces, Reply.whole, Reply.body]
  congr 1
  cases hc : r.cgi with
  | true =>
    simpa using sendBodyLoop_of_ones o r.respBody r.respBody.length _ 0 rfl (h.body hc)
  | false =>
    cases hf : r.file with
    | none => simp [sendfile]
    | some content =>
      simp only [Bool.false_eq_true, if_false, sendfile_eq o _ content hlo hhi,
        Option.getD_some]
      by_cases hs : 0 ≤ r.size
      · rw [if_pos hs, h.file hc hs content hf, ← List.take_eq_take_min]
      · rw [if_neg hs, show r.size.toNat = 0 by omega, List.take_zero]

end

/-! Bytes that happen to be equal could hide a loss or a second sending, so each
byte of a response is also followed by its place in it. -/

/-- Lists of the same lengths that count on from `k`. -/
def positions {β : Type} (k : Nat) : List (List β) → List (List Nat)
  | [] => []
  | p :: ps => List.range' k p.length :: positions (k + p.length) ps

section
variable {β : Type}

theorem positions_append (k : Nat) (ps qs : List (List β)) :
    positions k (ps ++ qs) = positions k ps ++ positions (k + ps.flatten.length) qs := by
  induction ps generalizing k with
  | nil => rfl
  | cons p ps ih =>
    rw [List.cons_append, positions, positions, ih, List.cons_append, List.flatten_cons,
      List.length_append, Nat.add_assoc]

theorem positions_flatten (k : Nat) (ps : List (List β)) :
    (positions k ps).flatten = List.range' k ps.flatten.length := by
  induction ps generalizing k with
  | nil => rfl
  | cons p ps ih =>
    rw [positions, List.flatten_cons, ih, List.flatten_cons, List.length_append,
      List.range'_append_1]

theorem positions_length (k : Nat) (ps : List (List β)) :
    (positions k ps).map List.length = ps.map List.length := by
  induction ps generalizing k with
  | nil => rfl
  | cons p ps ih => rw [positions, List.map_cons, ih, List.length_range', List.map_cons]

theorem take_range' (k n m : Nat) : (List.range' k n).take m = List.range' k (min m n) := by
  apply List.ext_getElem <;> simp

/-- The response with each byte replaced by its place in the whole. The body
starts where the pieces end. -/
def Reply.places (r : Reply β) : Reply Nat where
  statusLine := List.range' 0 r.statusLine.length
  respHead := positions r.statusLine.length r.respHead
  blank := List.range' (r.statusLine ++ r.respHead.flatten).length r.blank.length
  cgi := r.cgi
  respBody := List.range' r.pieces.flatten.length r.respBody.length
  file := r.file.map fun content => List.range' r.pieces.flatten.length content.length
  size := r.size

/-- Every byte of the response is on the socket, once and in order. -/
def Reply.Delivered (o : Sender) (r : Reply β) : Prop :=
  r.send o = r.whole ∧ r.places.send o = r.places.whole

theorem Reply.places_pieces (r : Reply β) : r.places.pieces = positions 0 r.pieces := by
  simp [Reply.pieces, Reply.places, positions, positions_append]

/-- Places are told apart: the places of a response count up from 0. -/
theorem Reply.places_whole (r : Reply β) : r.places.whole = List.range' 0 r.whole.length := by
  have hbody : r.places.body = List.range' r.pieces.flatten.length r.body.length := by
    unfold Reply.body
    cases hc : r.cgi with
    | true => simp [Reply.places, hc]
    | false =>
      cases hf : r.file with
      | none => simp [Reply.places, hc, hf]
      | some content => simp [Reply.places, hc, hf, take_range']
  rw [Reply.whole, Reply.places_pieces, hbody, positions_flatten, Reply.whole,
    List.length_append, ← List.range'_append_1, Nat.zero_add]

variable (o : Sender)

theorem mem_of_mem_sendBodyLoop {body : List β} (k i total : Nat) (hk : k = body.length - total)
    {b : β} (h : b ∈ sendBodyLoop o i body total) : b ∈ body := by
  induction k generalizing i total with
  | zero => simp [sendBodyLoop_end o i body total (by omega)] at h
  | succ k ih =>
    by_cases hp : 0 < o.result i (body.length - total)
    · rw [sendBodyLoop_step o i body total (by omega) hp, List.mem_append] at h
      rcases h with h | h
      · exact List.mem_of_mem_drop (List.mem_of_mem_take h)
      · exact ih (i + 1) (total + 1) (by omega) h
    · rw [sendBodyLoop] at h
      simp [hp] at h

/-- Where a list is split in two ways and no element of the second part can
belong to the first, the two ways are one. -/
theorem append_split {A B C D : List β} (h : A ++ B = C ++ D) (hlen : A.length ≤ C.length)
    (hdisj : ∀ b ∈ B, b ∉ C) : A = C ∧ B = D := by
  rcases List.append_eq_append_iff.mp h with ⟨as, hC, hB⟩ | ⟨bs, hA, hD⟩
  · cases as with
    | nil => simp_all
    | cons a as => exact absurd (by simp [hC]) (hdisj a (by simp [hB]))
  · have hbs : bs = [] := by
      rw [hA, List.length_append] at hlen
      exact List.eq_nil_of_length_eq_zero (by omega)
    simp_all

/-- What is sent after the pieces has the places after them. -/
theorem Reply.places_sent_body (r : Reply β) (hlo : -2 ^ 31 ≤ r.size) (hhi : r.size < 2 ^ 31)
    {b : Nat} (h : b ∈ if r.cgi then sendBodyLoop o r.pieces.length r.places.respBody 0
      else sendfile o r.pieces.length r.places.file r.size) : b ∉ r.places.pieces.flatten := by
  have hb : r.pieces.flatten.length ≤ b := by
    cases hc : r.cgi with
    | true =>
      rw [hc, if_pos rfl] at h
      have := mem_of_mem_sendBodyLoop o _ _ 0 rfl h
      simp only [Reply.places, List.mem_range'_1] at this
      omega
    | false =>
      rw [hc, if_neg (by decide)] at h
      cases hf : r.file with
      | none => simp [Reply.places, hf, sendfile] at h
      | some content =>
        rw [Reply.places, hf, Option.map_some, sendfile_eq o _ _ hlo hhi] at h
        split at h
        · have := List.mem_of_mem_take h
          simp only [List.mem_range'_1] at this
          omega
        · simp at h
  rw [Reply.places_pieces, positions_flatten, List.mem_range'_1]
  omega

/-- A response delivered in full was taken call by call. -/
theorem Reply.taken_of_places (r : Reply β) (hpos : ∀ i n, 0 < n → 0 < o.result i n)
    (hlo : -2 ^ 31 ≤ r.size) (hhi : r.size < 2 ^ 31)
    (h : r.places.send o = r.places.whole) : r.Taken o := by
  have hlen : r.places.pieces.length = r.pieces.length := by
    simpa [Reply.places_pieces] using congrArg List.length (positions_length 0 r.pieces)
  rw [Reply.send_eq, Reply.whole, hlen] at h
  obtain ⟨hhead, hbody⟩ := append_split h (sendHead_length_le o 0 _)
    fun b hb => r.places_sent_body o hlo hhi hb
  refine ⟨?_, fun hc j hj => ?_, fun hc hs content hf => ?_⟩
  · rw [← positions_length 0 r.pieces, ← Reply.places_pieces]
    exact (sendHead_eq_iff o 0 _).mp (congrArg List.length hhead)
  · have hc' : r.places.cgi = true := hc
    rw [Reply.body, if_pos hc', if_pos hc'] at hbody
    have hlb : r.places.respBody.length = r.respBody.length := by simp [Reply.places]
    have := (sendBodyLoop_length o hpos r.places.respBody r.respBody.length r.pieces.length 0
      (by omega)).2 (by rw [hbody, hlb]) j hj
    exact this
  · have hc' : ¬ r.places.cgi = true := by simp [Reply.places, hc]
    have hf' : r.places.file = some (List.range' r.pieces.flatten.length content.length) := by
      rw [Reply.places, hf, Option.map_some]
    rw [Reply.body, if_neg hc', if_neg hc', hf', show r.places.size = r.size from rfl,
      sendfile_eq o _ _ hlo hhi, if_pos hs, Option.getD_some] at hbody
    have hl := congrArg List.length hbody
    have hle := result_toNat_le o r.pieces.length (min r.size.toNat content.length)
    simp only [List.length_take, List.length_range'] at hl
    omega

theorem Reply.places_taken {r : Reply β} (h : r.Taken o) : r.places.Taken o := by
  have hlen : r.places.pieces.length = r.pieces.length := by
    simpa [Reply.places_pieces] using congrArg List.length (positions_length 0 r.pieces)
  refine ⟨?_, fun hc j hj => ?_, fun hc hs content hf => ?_⟩
  · rw [Reply.places_pieces, positions_length]
    exact h.pieces
  · have hlb : r.places.respBody.length = r.respBody.length := by simp [Reply.places]
    rw [hlb] at hj ⊢
    rw [hlen]
    exact h.body hc j hj
  · obtain ⟨c, hc', rfl⟩ := Option.map_eq_some_iff.mp hf
    rw [hlen, List.length_range']
    exact h.file hc hs c hc'

theorem Reply.delivered_iff_taken (r : Reply β) (hpos : ∀ i n, 0 < n → 0 < o.result i n)
    (hlo : -2 ^ 31 ≤ r.size) (hhi : r.size < 2 ^ 31) : r.Delivered o ↔ r.Taken o := by
  constructor
  · intro h
    exact r.taken_of_places o hpos hlo hhi h.2
  · intro h
    exact ⟨r.send_of_taken o hlo hhi h, r.places.send_of_taken o hlo hhi (Reply.places_taken o h)⟩

end

/-- A response goes out whole exactly when each single call takes its whole
piece and each call of the body loop takes one byte. -/
theorem sendHttpResquese_delivers_iff (o : Sender) (files : Int → Option Bytes) (ep : EndPoint)
    (hpos : ∀ i n, 0 < n → 0 < o.result i n)
    (hlo : -2 ^ 31 ≤ ep.request.size) (hhi : ep.request.size < 2 ^ 31) :
    (sendHttpResquese o files ep).1 = (ep.reply files).whole ∧
        (ep.reply files).places.send o = (ep.reply files).places.whole ↔
      (ep.reply files).Taken o :=
  (ep.reply files).delivered_iff_taken o hpos hlo hhi

/-- A socket that takes all that it is given. -/
def Sender.all : Sender := ⟨fun _ n => n, fun _ _ => Int.le_refl _⟩

/-- The response to a program that wrote two bytes. -/
def twoBytes : EndPoint where
  sock := .new [] fun _ => false
  request := { HttpRequest.new 0 with method := methodGet, cgi := true }
  response := { HttpResponse.new with
    statusLine := str "HTTP/1.0 200 OK\r\n"
    respHead := [str "Content-Length: 2\r\n"]
    respBody := str "ab" }
  stop := false

theorem sendHttpResquese_delivers_iff_twoBytes :
    (sendHttpResquese .all (fun _ => none) twoBytes).1 = (twoBytes.reply fun _ => none).whole ∧
        (twoBytes.reply fun _ => none).places.send .all =
          (twoBytes.reply fun _ => none).places.whole ↔
      (twoBytes.reply fun _ => none).Taken .all :=
  sendHttpResquese_delivers_iff .all (fun _ => none) twoBytes
    (fun _ n h => Int.natCast_pos.mpr h) (by decide) (by decide)

/-- The first call takes both bytes of the body, `total` grows by one, and the
second call sends the last byte again. -/
theorem sendHttpResquese_twoBytes :
    (sendHttpResquese .all (fun _ => none) twoBytes).1 =
        str "HTTP/1.0 200 OK\r\nContent-Length: 2\r\n\r\nabb" ∧
      (sendHttpResquese .all (fun _ => none) twoBytes).1 ≠
        (twoBytes.reply fun _ => none).whole := by
  have h : (sendHttpResquese .all (fun _ => none) twoBytes).1 =
      str "HTTP/1.0 200 OK\r\nContent-Length: 2\r\n\r\nabb" := by
    simp only [sendHttpResquese, Reply.send_eq, EndPoint.reply, twoBytes, if_true]
    rw [sendBodyLoop_step _ _ _ 0 (by decide) (by decide),
      sendBodyLoop_step _ _ _ 1 (by decide) (by decide), sendBodyLoop_end _ _ _ 2 (by decide)]
    decide
  refine ⟨h, ?_⟩
  rw [h]
  decide

end MinHttp

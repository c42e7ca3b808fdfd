import Niflhel.Base
import Niflhel.LineReader
import Niflhel.Relay

/-!
# Frames as lines of bytes

`Send` writes the encoding of a value and a newline, in as many writes as the connection takes;
`Recv` puts a line together from the parts that `ReadLine` returns. The relay's model of a stream
as a sequence of frames rests on this: what is received are the encodings that were sent,
however the connection cuts the bytes into pieces.
-/

namespace Niflhel.FrameStream
open LineReader

def tooLarge : String := "frame too large"

/-- The loop of `Send`, for at most `n` writes: the bytes written and the error. The answers of
the connection are the lengths it accepts. -/
def writeLoop : ℕ → (ℕ → Except String ℕ) → Bytes → Bytes × Option String
  | _, _, [] => ([], none)
  | 0, _, _ => ([], some "short write")
  | n + 1, conn, b =>
    match conn 0 with
    | .error e => ([], some e)
    | .ok 0 => ([], some "short write")
    | .ok (k + 1) =>
      let (done, e) := writeLoop n (fun i => conn (i + 1)) (b.drop (k + 1))
      (b.take (k + 1) ++ done, e)

def send {α : Type} (marshal : α → Except String Bytes) (written : Bytes)
    (v : α) (conn : ℕ → Except String ℕ) : Bytes × Option String :=
  match marshal v with
  | .error e => (written, some e)
  | .ok b =>
    if b.length > Relay.maxFrame then (written, some tooLarge)
    else
      let (done, e) := writeLoop (b.length + 1) conn (b ++ [newline])
      (written ++ done, e)

def sendAll {α : Type} (marshal : α → Except String Bytes) :
    Bytes → List (α × (ℕ → Except String ℕ)) → Option Bytes
  | written, [] => some written
  | written, (v, conn) :: rest =>
    match send marshal written v conn with
    | (written, none) => sendAll marshal written rest
    | (_, some _) => none

/-- The loop of `Recv` for at most `n` parts: what is decoded, or the error. -/
def recvLoop : ℕ → Bytes → Reader → Except String Bytes × Reader
  | 0, _, r => (.error "EOF", r)
  | n + 1, b, r =>
    match readLine r with
    | (none, r) => (.error "EOF", r)
    | (some (p, more), r) =>
      if b.length + p.length > Relay.maxFrame then (.error tooLarge, r)
      else if more then recvLoop n (b ++ p) r
      else (.ok (b ++ p), r)

def recv (r : Reader) : Except String Bytes × Reader := recvLoop (r.pending.length + 1) [] r

def recvAll : ℕ → Reader → List (Except String Bytes)
  | 0, _ => []
  | n + 1, r => (recv r).1 :: recvAll n (recv r).2

variable {conn : ℕ → Except String ℕ} {b : Bytes}

theorem writeLoop_ok {n : ℕ} (h : (writeLoop n conn b).2 = none) : (writeLoop n conn b).1 = b := by
  induction n generalizing conn b with
  | zero => cases b with
    | nil => rfl
    | cons c b => cases h
  | succ n ih => cases b with
    | nil => rfl
    | cons c b =>
      unfold writeLoop at h ⊢
      cases hconn : conn 0 with
      | error e =>
        rw [hconn] at h
        cases h
      | ok k =>
        rw [hconn] at h
        cases k with
        | zero => cases h
        | succ k =>
          dsimp only at h ⊢
          rw [ih h, List.take_append_drop]

/-- Every write takes at least one byte. -/
def Takes (conn : ℕ → Except String ℕ) : Prop := ∀ i, ∃ k, conn i = .ok (k + 1)

theorem writeLoop_takes {n : ℕ} (hconn : Takes conn)
    (hn : b.length ≤ n) : (writeLoop n conn b).2 = none := by
  induction n generalizing conn b with
  | zero =>
    obtain rfl := List.eq_nil_of_length_eq_zero (Nat.le_zero.1 hn)
    rfl
  | succ n ih => cases b with
    | nil => rfl
    | cons c b =>
      obtain ⟨k, hk⟩ := hconn 0
      unfold writeLoop
      rw [hk]
      refine ih (fun i => hconn (i + 1)) ?_
      rw [List.length_drop]
      simp only [List.length_cons] at hn ⊢
      omega

section
variable {α : Type} {marshal : α → Except String Bytes} {written stream : Bytes}

theorem send_ok {v : α} (h : (send marshal written v conn).2 = none) :
    ∃ b, marshal v = .ok b ∧ b.length ≤ Relay.maxFrame ∧
      (send marshal written v conn).1 = written ++ (b ++ [newline]) := by
  unfold send at h ⊢
  cases hv : marshal v with
  | error e =>
    rw [hv] at h
    cases h
  | ok b =>
    rw [hv] at h
    dsimp only at h ⊢
    split_ifs at h ⊢ with hlong
    exact ⟨b, rfl, not_lt.1 hlong, congrArg (written ++ ·) (writeLoop_ok h)⟩

theorem sendAll_some {calls : List (α × (ℕ → Except String ℕ))}
    (h : sendAll marshal written calls = some stream) :
    ∃ bs : List Bytes, (calls.map fun call => marshal call.1) = bs.map .ok ∧
      (∀ b ∈ bs, b.length ≤ Relay.maxFrame) ∧
      stream = written ++ (bs.map (· ++ [newline])).flatten := by
  induction calls generalizing written with
  | nil =>
    cases h
    exact ⟨[], rfl, by simp, by simp⟩
  | cons call calls ih =>
    obtain ⟨v, conn⟩ := call
    unfold sendAll at h
    split at h
    · rename_i written' hsend
      obtain ⟨b, hb, hlen, hwritten⟩ := send_ok (congrArg Prod.snd hsend)
      obtain rfl : written' = written ++ (b ++ [newline]) := by rw [← hwritten, hsend]
      obtain ⟨bs, hbs, hlens, hstream⟩ := ih h
      refine ⟨b :: bs, by simp [hb, hbs], List.forall_mem_cons.2 ⟨hlen, hlens⟩, ?_⟩
      rw [hstream, List.map_cons, List.flatten_cons, List.append_assoc]
    · cases h

theorem send_accepts {v : α} (hv : marshal v = .ok b)
    (hlen : b.length ≤ Relay.maxFrame) (hconn : Takes conn) :
    (send marshal written v conn).2 = none := by
  unfold send
  rw [hv]
  dsimp only
  rw [if_neg (not_lt.2 hlen)]
  exact writeLoop_takes hconn (by simp)

theorem sendAll_accepts {calls : List (α × (ℕ → Except String ℕ))}
    (h : ∀ call ∈ calls, (∃ b, marshal call.1 = .ok b ∧ b.length ≤ Relay.maxFrame) ∧ Takes call.2) :
    ∃ stream, sendAll marshal written calls = some stream := by
  induction calls generalizing written with
  | nil => exact ⟨written, rfl⟩
  | cons call calls ih =>
    obtain ⟨⟨⟨b, hb, hlen⟩, hconn⟩, hrest⟩ := List.forall_mem_cons.1 h
    obtain ⟨v, conn⟩ := call
    have hsend := @send_accepts conn b α marshal written v hb hlen hconn
    unfold sendAll
    split
    · exact ih hrest
    · rename_i e hfailed
      rw [hfailed] at hsend
      cases hsend

theorem send_refused {v : α} (h : ∀ b, marshal v = .ok b → b.length > Relay.maxFrame) :
    (send marshal written v conn).1 = written ∧ (send marshal written v conn).2.isSome = true := by
  unfold send
  cases hv : marshal v with
  | error e => exact ⟨rfl, rfl⟩
  | ok b =>
    dsimp only
    rw [if_pos (h b hv)]
    exact ⟨rfl, rfl⟩

end

/-- Lines that `ReadLine` returns unchanged. -/
def Plain (b : Bytes) : Prop := newline ∉ b ∧ b.getLast? ≠ some carriage

theorem Plain.of_append {a : Bytes} (h : Plain (a ++ b)) : Plain b := by
  refine ⟨fun hb => h.1 (List.mem_append_right a hb), fun hlast => h.2 ?_⟩
  rw [List.getLast?_append, hlast]
  rfl

theorem recvLoop_line {n : ℕ} {r : Reader} {l rest : Bytes} (hn : l.length < n)
    (hsize : 2 ≤ r.size) (hbuffer : r.buffer.length ≤ r.size)
    (hpending : r.pending = l ++ newline :: rest) (hl : Plain l)
    (hlen : b.length + l.length ≤ Relay.maxFrame) :
    ∃ r', recvLoop n b r = (.ok (b ++ l), r') ∧ Leaves r r' rest := by
  induction n generalizing r b l with
  | zero => omega
  | succ n ih =>
    unfold recvLoop
    rcases readLine_spec hsize hbuffer hpending hl.1 hl.2 with ⟨r', hread, hr'⟩ |
      ⟨part, more, r', rfl, hpart, hread, hr'⟩
    · rw [hread]
      dsimp only
      rw [if_neg (not_lt.2 hlen)]
      exact ⟨r', rfl, hr'⟩
    · rw [hread]
      have hpos : 0 < part.length := List.length_pos_iff.2 hpart
      rw [List.length_append] at hn hlen
      dsimp only
      rw [if_neg (by omega), if_pos rfl]
      have hmore : (b ++ part).length + more.length ≤ Relay.maxFrame := by
        rw [List.length_append]
        omega
      obtain ⟨r'', hrecv, hr''⟩ := ih (by omega) (by rw [hr'.size]; exact hsize) hr'.buffer
        hr'.pending hl.of_append hmore
      refine ⟨r'', ?_, (Leaves.of_size hr'.size).1 hr''⟩
      rw [hrecv, List.append_assoc]

theorem recvAll_lines {r : Reader} {bs : List Bytes} (hsize : 2 ≤ r.size)
    (hbuffer : r.buffer.length ≤ r.size)
    (hpending : r.pending = (bs.map (· ++ [newline])).flatten) (hplain : ∀ b ∈ bs, Plain b)
    (hlen : ∀ b ∈ bs, b.length ≤ Relay.maxFrame) : recvAll bs.length r = bs.map .ok := by
  induction bs generalizing r with
  | nil => rfl
  | cons b bs ih =>
    obtain ⟨hb, hplain⟩ := List.forall_mem_cons.1 hplain
    obtain ⟨hblen, hlen⟩ := List.forall_mem_cons.1 hlen
    have hline : r.pending = b ++ newline :: (bs.map (· ++ [newline])).flatten := by
      rw [hpending]
      simp
    have hn : b.length < r.pending.length + 1 := by
      rw [hline, List.length_append]
      omega
    obtain ⟨r', hrecv, hr'⟩ :=
      @recvLoop_line [] _ r b _ hn hsize hbuffer hline hb (by simpa using hblen)
    rw [List.length_cons, recvAll, recv, hrecv, List.map_cons,
      ih (by rw [hr'.size]; exact hsize) hr'.buffer hr'.pending hplain hlen]
    rfl

/-- Values whose encodings are within the limit are all sent, and however their bytes are cut into
pieces, and whatever the size of the buffer, `Recv` returns the encodings in order; a value that is
refused adds no byte. -/
theorem frames_lossless {α : Type} (marshal : α → Except String Bytes)
    (hmarshal : ∀ v b, marshal v = .ok b → newline ∉ b ∧ b.getLast? ≠ some carriage)
    (calls : List (α × (ℕ → Except String ℕ)))
    (hcalls : ∀ call ∈ calls,
      (∃ b, marshal call.1 = .ok b ∧ b.length ≤ Relay.maxFrame) ∧ Takes call.2) :
    (∃ stream, sendAll marshal [] calls = some stream ∧
      ∀ (size : ℕ) (pieces : List Bytes), pieces.flatten = stream →
        recvAll calls.length (newReader size pieces) = calls.map fun call => marshal call.1) ∧
      ∀ (written : Bytes) (v : α) (conn : ℕ → Except String ℕ),
        (∀ b, marshal v = .ok b → b.length > Relay.maxFrame) →
        (send marshal written v conn).1 = written ∧
          (send marshal written v conn).2.isSome = true := by
  obtain ⟨stream, hsent⟩ := @sendAll_accepts α marshal [] calls hcalls
  obtain ⟨bs, hbs, hlens, hstream⟩ := sendAll_some hsent
  have hplain : ∀ b ∈ bs, Plain b := by
    intro b hb
    have hmem : (.ok b : Except String Bytes) ∈ calls.map fun call => marshal call.1 :=
      hbs ▸ List.mem_map_of_mem hb
    obtain ⟨call, -, hcall⟩ := List.mem_map.1 hmem
    exact hmarshal call.1 b hcall
  have hcount : calls.length = bs.length := by simpa using congrArg List.length hbs
  refine ⟨⟨stream, hsent, fun size pieces hpieces => ?_⟩, fun _ _ _ => send_refused⟩
  rw [hcount, hbs]
  refine recvAll_lines ?_ (Nat.zero_le _) (hpieces.trans hstream) hplain hlens
  change 2 ≤ max size 16
  omega

/-- Two values, written byte by byte and read in pieces that do not end with the lines. -/
theorem frames_lossless_pieces : sendAll (fun v : Bool => .ok (bif v then [123, 125] else [49])) []
        [(true, fun _ => .ok 1), (false, fun _ => .ok 1)] = some [123, 125, 10, 49, 10] ∧
      recvAll 2 (newReader 0 [[123], [125, 10, 49], [10]]) = [.ok [123, 125], .ok [49]] := by
  have hsent : sendAll (fun v : Bool => .ok (bif v then [123, 125] else [49])) []
      [(true, fun _ => .ok 1), (false, fun _ => .ok 1)] = some [123, 125, 10, 49, 10] := by decide
  have htakes : Takes fun _ => .ok 1 := fun _ => ⟨0, rfl⟩
  obtain ⟨⟨stream, hstream, hrecv⟩, -⟩ :=
    frames_lossless (fun v : Bool => .ok (bif v then [123, 125] else [49]))
      (by
        intro v b h
        cases h
        cases v <;> decide)
      [(true, fun _ => .ok 1), (false, fun _ => .ok 1)]
      (by
        simp only [List.mem_cons, List.not_mem_nil, or_false, forall_eq_or_imp, forall_eq]
        exact ⟨⟨⟨_, rfl, by decide⟩, htakes⟩, ⟨_, rfl, by decide⟩, htakes⟩)
  obtain rfl := Option.some.inj (hsent.symm.trans hstream)
  exact ⟨hsent, hrecv 0 [[123], [125, 10, 49], [10]] (by decide)⟩

end Niflhel.FrameStream

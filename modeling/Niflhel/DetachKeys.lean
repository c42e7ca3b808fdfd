import Mathlib.Data.List.Induction
import Niflhel.Api

/-!
# The detach keys of an interactive session

The goroutine of `App.session` that reads standard input (`internal/cli/session.go`). On a
terminal it looks for Ctrl-P followed by Ctrl-Q; a Ctrl-P is held back until the next byte
shows what it was. What one read yields is sent as one frame at the end of that read.
-/

namespace Niflhel.Cli

structure Read where
  data : List UInt8
  ended : Bool
  deriving DecidableEq, Repr

inductive Scan where
  | detach
  | rest (out : List UInt8) (pending : Bool)
  deriving DecidableEq, Repr

def scan (tty : Bool) : (pending : Bool) → (out : List UInt8) → List UInt8 → Scan
  | pending, out, [] => .rest out pending
  | pending, out, b :: rest =>
    if tty ∧ pending ∧ b = 17 then .detach
    else
      let (out, pending) := if tty ∧ pending then (out ++ [16], false) else (out, pending)
      if tty ∧ b = 16 then scan tty true out rest else scan tty pending (out ++ [b]) rest

def stdinFrame (data : List UInt8) : Frame := { type := "stdin", data }

def detachFrame : Frame := { type := "detach" }

def eofFrame : Frame := { type := "eof" }

section
variable (takes : List Frame → Frame → Bool) (tty : Bool)

/-- `s.Send` on a connection that, after the frames it has taken, takes this one or not. -/
def send (sent : List Frame) (f : Frame) : List Frame := if takes sent f then sent ++ [f] else sent

/-- The loop over the reads, with the frames sent so far. It waits when the reads are used up. -/
def stdinLoop : (pending : Bool) → (sent : List Frame) → List Read → List Frame
  | _, sent, [] => sent
  | pending, sent, r :: reads =>
    match scan tty pending [] r.data with
    | .detach => send takes sent detachFrame
    | .rest out pending =>
      if out ≠ [] ∧ takes sent (stdinFrame out) = false then sent
      else
        let sent := if out = [] then sent else sent ++ [stdinFrame out]
        if r.ended then
          send takes (if pending then send takes sent (stdinFrame [16]) else sent) eofFrame
        else stdinLoop pending sent reads

end

def hasKeys : List UInt8 → Bool
  | a :: b :: rest => (a == 16 && b == 17) || hasKeys (b :: rest)
  | _ => false

def beforeKeys : List UInt8 → List UInt8
  | a :: b :: rest => if a = 16 ∧ b = 17 then [] else a :: beforeKeys (b :: rest)
  | bytes => bytes

def stdinData (frames : List Frame) : List UInt8 :=
  (frames.filter fun f => f.type = "stdin").flatMap Frame.data

/-- The frames relay the input: its bytes up to the keys, and then a request to detach if there
are keys. -/
structure Relays (input : List UInt8) (frames : List Frame) : Prop where
  data : stdinData frames = beforeKeys input
  detach : (∃ f ∈ frames, f.type = "detach") ↔ hasKeys input = true
  order : ∀ front f back, frames = front ++ f :: back → f.type = "detach" →
    ∀ g ∈ back, g.type ≠ "stdin"

/-- The read that completes the keys brings no other byte before them, and no Ctrl-P is held
back before that. -/
def KeysAlone (reads : List (List UInt8)) : Prop :=
  ∀ front chunk back, reads = front ++ chunk :: back → hasKeys front.flatten = false →
    hasKeys (front.flatten ++ chunk) = true →
      (front.flatten.getLast? = some 16 ∧ chunk.head? = some 17) ∨
      (front.flatten.getLast? ≠ some 16 ∧ chunk.take 2 = [16, 17])

/-- The bytes without a Ctrl-P at their end, which is held back. -/
def settled (bytes : List UInt8) : List UInt8 :=
  if bytes.getLast? = some 16 then bytes.dropLast else bytes

@[simp] theorem settled_cons_cons (a b : UInt8) (rest : List UInt8) :
    settled (a :: b :: rest) = a :: settled (b :: rest) := by
  unfold settled
  rw [List.getLast?_cons_cons, List.dropLast_cons_cons]
  split <;> rfl

variable {a : UInt8}

theorem settled_cons (ha : a ≠ 16) (rest : List UInt8) :
    settled (a :: rest) = a :: settled rest := by
  cases rest with
  | nil => simp [settled, ha]
  | cons b rest => exact settled_cons_cons a b rest

theorem hasKeys_cons (ha : a ≠ 16) (rest : List UInt8) : hasKeys (a :: rest) = hasKeys rest := by
  cases rest with
  | nil => rfl
  | cons b rest => simp [hasKeys, ha]

theorem beforeKeys_cons (ha : a ≠ 16) (rest : List UInt8) :
    beforeKeys (a :: rest) = a :: beforeKeys rest := by
  cases rest with
  | nil => rfl
  | cons b rest => simp [beforeKeys, ha]

variable {bytes : List UInt8}

/-- With keys in them, bytes yield nothing exactly if they begin with the keys. -/
theorem beforeKeys_eq_nil_iff (h : hasKeys bytes = true) (later : List UInt8) :
    beforeKeys (bytes ++ later) = [] ↔ bytes.take 2 = [16, 17] := by
  match bytes, h with
  | a :: b :: rest, _ => simp [beforeKeys]

theorem getLast?_cons (ha : a ≠ 16) (rest : List UInt8) :
    (a :: rest).getLast? = some 16 ↔ rest.getLast? = some 16 := by
  cases rest with
  | nil => simp [ha]
  | cons b rest => rw [List.getLast?_cons_cons]

def heldBack (pending : Bool) : List UInt8 := if pending then [16] else []

/-- The scan of a read on a terminal, with the byte that was held back. -/
theorem scan_tty (pending : Bool) (out data : List UInt8) : scan true pending out data =
      if hasKeys (heldBack pending ++ data) = true then .detach
      else .rest (out ++ settled (heldBack pending ++ data))
        (decide ((heldBack pending ++ data).getLast? = some 16)) := by
  induction data generalizing pending out with
  | nil => cases pending <;> simp [scan, heldBack, hasKeys, settled]
  | cons b rest ih =>
    by_cases hb : b = 16
    · subst hb
      cases pending with
      | false => simp [scan, heldBack, ih true]
      | true => simp [scan, heldBack, ih true, hasKeys]
    · cases pending with
      | false =>
        simp [scan, heldBack, hb, ih false, hasKeys_cons hb, settled_cons hb, getLast?_cons hb]
      | true =>
        by_cases hq : b = 17
        · subst hq
          simp [scan, heldBack, hasKeys]
        · simp [scan, heldBack, hb, hq, ih false, hasKeys, hasKeys_cons hb, settled_cons hb,
            List.getLast?_cons_cons, getLast?_cons hb]

def pendingAfter (bytes : List UInt8) : Bool := decide (bytes.getLast? = some 16)

section
variable {before : List UInt8}

theorem after_keyless (h : hasKeys before = false) (data : List UInt8) :
    hasKeys (before ++ data) = hasKeys (heldBack (pendingAfter before) ++ data) ∧
      settled (before ++ data) =
        settled before ++ settled (heldBack (pendingAfter before) ++ data) ∧
      pendingAfter (before ++ data) = pendingAfter (heldBack (pendingAfter before) ++ data) := by
  induction before with
  | nil => exact ⟨rfl, rfl, rfl⟩
  | cons a before ih =>
    cases before with
    | nil =>
      by_cases ha : a = 16
      · subst ha
        exact ⟨rfl, rfl, rfl⟩
      · have hheld : heldBack (pendingAfter [a]) = [] := by simp [pendingAfter, heldBack, ha]
        have hself : settled [a] = [a] := by simp [settled, ha]
        rw [hheld, hself]
        refine ⟨hasKeys_cons ha data, settled_cons ha data, ?_⟩
        simp only [pendingAfter, List.singleton_append, List.nil_append, getLast?_cons ha]
    | cons b before =>
      simp only [hasKeys, Bool.or_eq_false_iff] at h
      obtain ⟨hkeys, hsettled, hpending⟩ := ih h.2
      have hlast : pendingAfter (a :: b :: before) = pendingAfter (b :: before) := by
        simp only [pendingAfter, List.getLast?_cons_cons]
      refine ⟨?_, ?_, ?_⟩
      · rw [hlast, ← hkeys]
        simp only [List.cons_append, hasKeys, h.1, Bool.false_or]
      · rw [hlast, settled_cons_cons]
        simp only [List.cons_append, settled_cons_cons, List.cons.injEq, true_and] at hsettled ⊢
        exact hsettled
      · rw [hlast, ← hpending]
        simp only [pendingAfter, List.cons_append, List.getLast?_cons_cons]

/-- What was sent by the time the keys are completed is all that was to be sent exactly if the
keys stand alone. -/
theorem beforeKeys_eq_settled_iff (h : hasKeys before = false) {data : List UInt8}
    (hkeys : hasKeys (before ++ data) = true) (later : List UInt8) :
    beforeKeys (before ++ data ++ later) = settled before ↔
      (before.getLast? = some 16 ∧ data.head? = some 17) ∨
      (before.getLast? ≠ some 16 ∧ data.take 2 = [16, 17]) := by
  induction before with
  | nil =>
    have hnil := beforeKeys_eq_nil_iff hkeys later
    simpa [settled] using hnil
  | cons a before ih =>
    cases before with
    | nil =>
      by_cases ha : a = 16
      · subst ha
        have hnil := beforeKeys_eq_nil_iff hkeys later
        match data, hkeys with
        | b :: rest, _ => simpa [settled] using hnil
      · have hself : settled [a] = [a] := by simp [settled, ha]
        rw [List.singleton_append, hasKeys_cons ha] at hkeys
        have hnil := beforeKeys_eq_nil_iff hkeys later
        rw [hself, List.append_assoc, List.singleton_append, beforeKeys_cons ha]
        simpa [ha] using hnil
    | cons b before =>
      simp only [hasKeys, Bool.or_eq_false_iff] at h
      have hrest : hasKeys (b :: before ++ data) = true := by
        simpa only [List.cons_append, hasKeys, h.1, Bool.false_or] using hkeys
      have hne : ¬ (a = 16 ∧ b = 17) := by simpa using h.1
      rw [List.getLast?_cons_cons, ← ih h.2 hrest, settled_cons_cons]
      simp only [List.cons_append, beforeKeys, if_neg hne, List.cons.injEq, true_and]

end

def readsOf (datas : List (List UInt8)) (last : List UInt8) : List Read :=
  datas.map (fun data => ⟨data, false⟩) ++ [⟨last, true⟩]

structure Sent (before : List UInt8) (sent : List Frame) : Prop where
  data : stdinData sent = settled before
  kind : ∀ f ∈ sent, f.type = "stdin"

theorem stdinData_append (frames : List Frame) (f : Frame) : stdinData (frames ++ [f]) =
      stdinData frames ++ (if f.type = "stdin" then f.data else []) := by
  unfold stdinData
  by_cases hf : f.type = "stdin" <;> simp [hf]

variable {sent : List Frame}

theorem Sent.next {before data : List UInt8} (h : Sent before sent)
    (hkeys : hasKeys before = false) :
    Sent (before ++ data)
      (if settled (heldBack (pendingAfter before) ++ data) = [] then sent
        else sent ++ [stdinFrame (settled (heldBack (pendingAfter before) ++ data))]) := by
  obtain ⟨-, hsettled, -⟩ := after_keyless hkeys data
  split
  · rename_i hnil
    rw [hnil, List.append_nil] at hsettled
    exact ⟨h.data.trans hsettled.symm, h.kind⟩
  · refine ⟨?_, ?_⟩
    · simp [stdinData_append, stdinFrame, h.data, hsettled]
    · intro f hf
      rcases List.mem_append.1 hf with hf | hf
      · exact h.kind f hf
      · rw [List.mem_singleton.1 hf]
        rfl

theorem stdinLoop_read {before : List UInt8} {r : Read} {reads : List Read}
    (hkeys : hasKeys before = false) (hnext : hasKeys (before ++ r.data) = false)
    (h : Sent before sent) : ∃ sent', Sent (before ++ r.data) sent' ∧
      stdinLoop (fun _ _ => true) true (pendingAfter before) sent (r :: reads) =
        if r.ended then
          (if pendingAfter (before ++ r.data) then sent' ++ [stdinFrame [16]] else sent') ++
            [eofFrame]
        else stdinLoop (fun _ _ => true) true (pendingAfter (before ++ r.data)) sent' reads := by
  obtain ⟨hkeysEq, -, hpending⟩ := after_keyless hkeys r.data
  rw [hkeysEq] at hnext
  refine ⟨_, h.next hkeys, ?_⟩
  rw [stdinLoop, scan_tty, if_neg (by simp [hnext]), hpending]
  simp [send, pendingAfter]

theorem stdinLoop_keys {before : List UInt8} {r : Read} {reads : List Read}
    (hkeys : hasKeys before = false) (hnext : hasKeys (before ++ r.data) = true) :
    stdinLoop (fun _ _ => true) true (pendingAfter before) sent (r :: reads) =
      sent ++ [detachFrame] := by
  rw [(after_keyless hkeys r.data).1] at hnext
  rw [stdinLoop, scan_tty, if_pos hnext]
  rfl

theorem hasKeys_append_left (h : hasKeys bytes = true) (later : List UInt8) :
    hasKeys (bytes ++ later) = true := by
  induction bytes with
  | nil => cases h
  | cons a bytes ih =>
    cases bytes with
    | nil => cases h
    | cons b bytes =>
      simp only [hasKeys, List.cons_append, Bool.or_eq_true] at h ih ⊢
      exact h.imp_right ih

theorem keyless_of_append {later : List UInt8} (h : hasKeys (bytes ++ later) = false) :
    hasKeys bytes = false := by
  cases hb : hasKeys bytes with
  | false => rfl
  | true => rw [hasKeys_append_left hb] at h; cases h

theorem beforeKeys_keyless (h : hasKeys bytes = false) : beforeKeys bytes = bytes := by
  induction bytes with
  | nil => rfl
  | cons a bytes ih =>
    cases bytes with
    | nil => rfl
    | cons b bytes =>
      simp only [hasKeys, Bool.or_eq_false_iff] at h
      have hne : ¬ (a = 16 ∧ b = 17) := by simpa using h.1
      rw [beforeKeys, if_neg hne, ih h.2]

theorem settled_append_heldBack (bytes : List UInt8) :
    settled bytes ++ heldBack (pendingAfter bytes) = bytes := by
  unfold settled heldBack pendingAfter
  by_cases h : bytes.getLast? = some 16
  · simpa [h] using List.dropLast_append_getLast? 16 h
  · simp [h]

variable {front : List (List UInt8)}

theorem stdinLoop_front {before : List UInt8}
    (hkeys : hasKeys (before ++ front.flatten) = false) (h : Sent before sent)
    (reads : List Read) : ∃ sent', Sent (before ++ front.flatten) sent' ∧
      stdinLoop (fun _ _ => true) true (pendingAfter before) sent
          (front.map (fun data => ⟨data, false⟩) ++ reads) =
        stdinLoop (fun _ _ => true) true (pendingAfter (before ++ front.flatten)) sent' reads := by
  induction front generalizing before sent with
  | nil => exact ⟨sent, by simpa using h, by simp⟩
  | cons data front ih =>
    rw [List.flatten_cons, ← List.append_assoc] at hkeys ⊢
    have hdata := keyless_of_append hkeys
    obtain ⟨sent₁, hsent₁, heq₁⟩ := @stdinLoop_read sent before ⟨data, false⟩
      (front.map (fun data => ⟨data, false⟩) ++ reads) (keyless_of_append hdata) hdata h
    obtain ⟨sent₂, hsent₂, heq₂⟩ := ih hkeys hsent₁
    exact ⟨sent₂, hsent₂, heq₁.trans heq₂⟩

theorem exists_completing {chunks : List (List UInt8)} (h : hasKeys chunks.flatten = true) :
    ∃ front chunk back, chunks = front ++ chunk :: back ∧ hasKeys front.flatten = false ∧
      hasKeys (front.flatten ++ chunk) = true := by
  induction chunks using List.reverseRecOn with
  | nil => cases h
  | append_singleton chunks chunk ih =>
    cases hc : hasKeys chunks.flatten with
    | false => exact ⟨chunks, chunk, [], rfl, hc, by simpa using h⟩
    | true =>
      obtain ⟨front, chunk', back, rfl, hfront, hchunk⟩ := ih hc
      exact ⟨front, chunk', back ++ [chunk], by simp, hfront, hchunk⟩

variable {datas : List (List UInt8)} {last : List UInt8}

theorem readsOf_split {back : List (List UInt8)} {chunk : List UInt8}
    (h : datas ++ [last] = front ++ chunk :: back) : ∃ e reads,
      readsOf datas last = front.map (fun data => ⟨data, false⟩) ++ ⟨chunk, e⟩ :: reads := by
  rcases List.eq_nil_or_concat back with rfl | ⟨back, last', rfl⟩
  · obtain ⟨rfl, hlast⟩ := List.append_inj' h rfl
    obtain rfl := List.singleton_inj.1 hlast
    exact ⟨true, [], rfl⟩
  · rw [List.concat_eq_append, ← List.cons_append, ← List.append_assoc] at h
    obtain ⟨rfl, hlast⟩ := List.append_inj' h rfl
    refine ⟨false, back.map (fun data => ⟨data, false⟩) ++ [⟨last, true⟩], ?_⟩
    simp [readsOf]

/-- Without keys, everything is relayed and no request to detach is sent. -/
theorem relays_keyless (hkeys : hasKeys (datas ++ [last]).flatten = false) :
    Relays (datas ++ [last]).flatten
      (stdinLoop (fun _ _ => true) true false [] (readsOf datas last)) := by
  have hall : (datas ++ [last]).flatten = datas.flatten ++ last := by simp
  rw [hall] at hkeys ⊢
  have hdatas := keyless_of_append hkeys
  obtain ⟨sent₁, hsent₁, heq₁⟩ := @stdinLoop_front [] datas [] hdatas ⟨rfl, by simp⟩ [⟨last, true⟩]
  obtain ⟨sent₂, hsent₂, heq₂⟩ :=
    @stdinLoop_read sent₁ datas.flatten ⟨last, true⟩ [] hdatas hkeys hsent₁
  have hrun : stdinLoop (fun _ _ => true) true false [] (readsOf datas last) = _ := heq₁.trans heq₂
  rw [hrun, if_pos rfl]
  have hheld := settled_append_heldBack (datas.flatten ++ last)
  have hkind : ∀ f ∈ (if pendingAfter (datas.flatten ++ last) = true then sent₂ ++ [stdinFrame [16]]
      else sent₂) ++ [eofFrame], f.type ≠ "detach" := by
    intro f hf
    rcases List.mem_append.1 hf with hf | hf
    · have hstdin : f.type = "stdin" := by
        split at hf
        · rcases List.mem_append.1 hf with hf | hf
          · exact hsent₂.kind f hf
          · rw [List.mem_singleton.1 hf]
            rfl
        · exact hsent₂.kind f hf
      rw [hstdin]
      decide
    · rw [List.mem_singleton.1 hf]
      decide
  constructor
  case data =>
    rw [beforeKeys_keyless hkeys, stdinData_append]
    cases hp : pendingAfter (datas.flatten ++ last) with
    | false =>
      simpa [hp, eofFrame, heldBack, hsent₂.data] using hheld
    | true =>
      simpa [hp, eofFrame, stdinData_append, stdinFrame, heldBack, hsent₂.data] using hheld
  case detach =>
    refine iff_of_false ?_ (by simp [hkeys])
    rintro ⟨f, hf, htype⟩
    exact hkind f hf htype
  case order =>
    intro front f back heq hf
    have hmem : f ∈ front ++ f :: back := by simp
    exact absurd hf (hkind f (heq ▸ hmem))

/-- When the keys are completed, what has been settled before has been sent, and the request to
detach follows. -/
theorem stdinLoop_completed {back : List (List UInt8)} {chunk : List UInt8}
    (hsplit : datas ++ [last] = front ++ chunk :: back) (hfront : hasKeys front.flatten = false)
    (hchunk : hasKeys (front.flatten ++ chunk) = true) : ∃ sent, Sent front.flatten sent ∧
      stdinLoop (fun _ _ => true) true false [] (readsOf datas last) = sent ++ [detachFrame] := by
  obtain ⟨e, reads, hreads⟩ := readsOf_split hsplit
  obtain ⟨sent, hsent, heq⟩ :=
    @stdinLoop_front [] front [] hfront ⟨rfl, by simp⟩ (⟨chunk, e⟩ :: reads)
  refine ⟨sent, hsent, ?_⟩
  rw [hreads]
  exact heq.trans (stdinLoop_keys hfront hchunk)

theorem relays_completed_iff {before input : List UInt8}
    (h : Sent before sent) (hkeys : hasKeys input = true) :
    Relays input (sent ++ [detachFrame]) ↔ beforeKeys input = settled before := by
  have hdata : stdinData (sent ++ [detachFrame]) = settled before := by
    simp [stdinData_append, detachFrame, h.data]
  constructor
  · intro hrelays
    exact hrelays.data.symm.trans hdata
  · intro heq
    constructor
    case data => exact hdata.trans heq.symm
    case detach =>
      refine iff_of_true ⟨detachFrame, ?_, rfl⟩ hkeys
      simp
    case order =>
      intro front f back hsplit hf g hg
      -- the request is the last frame, so that nothing comes after it
      rcases List.eq_nil_or_concat back with rfl | ⟨back, last, rfl⟩
      · cases hg
      · rw [List.concat_eq_append, ← List.cons_append, ← List.append_assoc] at hsplit
        obtain ⟨rfl, -⟩ := List.append_inj' hsplit rfl
        have hstdin := h.kind f (by simp)
        rw [hf] at hstdin
        exact absurd hstdin (by decide)

/-- For every input on a terminal and every way to read it, the keys may be split over the reads:
the frames relay the input exactly if the read that completes the keys brings no other byte
before them. -/
theorem input_relayed_iff (datas : List (List UInt8)) (last : List UInt8) :
    Relays (datas ++ [last]).flatten
        (stdinLoop (fun _ _ => true) true false [] (readsOf datas last)) ↔
      KeysAlone (datas ++ [last]) := by
  have hinput : ∀ {front chunk back}, datas ++ [last] = front ++ chunk :: back →
      (datas ++ [last]).flatten = front.flatten ++ chunk ++ back.flatten := by
    intro front chunk back h
    simp [h]
  constructor
  · intro hrelays front chunk back hsplit hfront hchunk
    obtain ⟨sent, hsent, hrun⟩ := stdinLoop_completed hsplit hfront hchunk
    have hkeys := hasKeys_append_left hchunk back.flatten
    rw [hrun, hinput hsplit, relays_completed_iff hsent hkeys] at hrelays
    exact (beforeKeys_eq_settled_iff hfront hchunk back.flatten).1 hrelays
  · intro halone
    cases hkeys : hasKeys (datas ++ [last]).flatten with
    | false => exact relays_keyless hkeys
    | true =>
      obtain ⟨front, chunk, back, hsplit, hfront, hchunk⟩ := exists_completing hkeys
      obtain ⟨sent, hsent, hrun⟩ := stdinLoop_completed hsplit hfront hchunk
      rw [hrun, relays_completed_iff hsent hkeys, hinput hsplit]
      exact (beforeKeys_eq_settled_iff hfront hchunk back.flatten).2
        (halone front chunk back hsplit hfront hchunk)

/-- A byte and the keys in one read: the byte is not relayed. -/
theorem typed_byte_dropped :
    stdinLoop (fun _ _ => true) true false [] (readsOf [[97, 16, 17]] []) = [detachFrame] ∧
      ¬ Relays [97, 16, 17] [detachFrame] := by
  refine ⟨by decide, fun h => ?_⟩
  have hdata := h.data
  revert hdata
  decide

end Niflhel.Cli

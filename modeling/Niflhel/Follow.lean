import Niflhel.Journal
import Niflhel.Traces

/-!
# Following a log

The monitor of a sandbox writes the journal on the host and at last commits the state
`exited` or `failed`; a sandbox that is removed automatically then loses its directory and
its record. Meanwhile `niflhel logs` asks the daemon for frames until an answer is empty,
prints them and, with `--follow`, asks for the state. To answer, the daemon opens the two
files of the journal one after the other, and a journal rotates its files in several steps.
-/

namespace Niflhel
namespace Follow
open Numbering Journal

inductive Kind where
  | stdout
  | stderr
  | gap
  deriving DecidableEq, Repr

def Kind.name : Kind → String
  | .stdout => "stdout"
  | .stderr => "stderr"
  | .gap => "gap"

inductive Stream where
  | out
  | err
  deriving DecidableEq, Repr

/-- The options of `logs`. Without `--since` the time is zero; `format` writes a time. -/
structure Options where
  follow : Bool
  timestamps : Bool
  tail : ℤ
  since : Time
  format : Time → List UInt8

inductive Stage where
  | checking
  | removing
  | moving
  | adding
  deriving DecidableEq, Repr

inductive Ending where
  | exited
  | failed
  deriving DecidableEq, Repr

/-- Where the loop of `logs` stands: before a request for frames, in a request whose handler
has read the first file, here or among the saved results, before the request for the state,
and after the loop. -/
inductive Phase where
  | opening
  | opened (old : List Frame) (saved : Bool)
  | inspecting
  | returned
  | aborted
  deriving DecidableEq, Repr

/-- `printed` are the frames whose output is in `out`. -/
structure Reader where
  tail : ℤ
  cursor : UInt64 := 0
  initial : List Frame := []
  phase : Phase := .opening
  printed : List Frame := []
  out : List (Stream × List UInt8) := []

/-- `kept` are the frames that a journal opened at the commit holds. It is `quiet` while the last
answer to the command was empty and no line has been added since the file was read for it. -/
structure State where
  journal : Journal
  files : Files
  queue : List Frame := []
  stage : Stage := .checking
  autoRemove : Bool
  committed : Option Ending := none
  kept : List Frame := []
  saved : Files := {}
  deleted : Bool := false
  quiet : Bool := false
  reader : Reader

def start (opts : Options) (files : Files) (journal : Journal) (autoRemove : Bool) : State :=
  { journal, files, autoRemove, reader := { tail := opts.tail } }

inductive Action where
  | write (kind : Kind) (b : List UInt8) (time : Time)
  | advance
  | commit (ending : Ending)
  | unlinkOld
  | unlinkCur
  | delete
  | readOld
  | readCur
  | inspect
  | abort

def display (opts : Options) (f : Frame) : List (Stream × List UInt8) :=
  let w := if f.type = "stderr" then .err else .out
  if f.type = "gap" then [(.err, textBytes f.message ++ [10])]
  else (if opts.timestamps then [(w, opts.format f.time ++ [32])] else []) ++ [(w, f.data)]

-- The text of a gap that the monitor has recorded is in its data, and is not shown.
example (opts : Options) (b : List UInt8) : display opts { type := "gap", data := b } = [(.err, [10])] := rfl

def flush (opts : Options) (r : Reader) : Reader :=
  let shown :=
    if 0 ≤ r.tail ∧ r.tail < r.initial.length then r.initial.drop (r.initial.length - r.tail.toNat)
    else r.initial
  { r with
    printed := r.printed ++ shown
    out := r.out ++ shown.flatMap (display opts)
    initial := []
    tail := if opts.follow then -1 else r.tail
    phase := if opts.follow then .inspecting else .returned }

def receive (opts : Options) (r : Reader) (frames : List Frame) : Reader :=
  match frames.getLast? with
  | none => flush opts r
  | some f =>
    { r with
      cursor := f.sequence
      initial := r.initial ++ frames.filter fun f => opts.since ≤ f.time
      phase := .opening }

def advance (enc : Encoding) (s : State) : Option State :=
  match s.queue with
  | [] => none
  | f :: rest => some <|
    match s.stage with
    | .checking => { s with stage := if s.files.full enc then .removing else .adding }
    | .removing => { s with files := { s.files with old := [] }, stage := .moving }
    | .moving => { s with files := s.files.rotate, stage := .adding }
    | .adding => { s with files := s.files.add f, queue := rest, stage := .checking, quiet := false }

def step (enc : Encoding) (opts : Options) (s : State) : Action → Option State
  | .write kind b time =>
    if s.committed = none ∧ s.queue = [] then
      some { s with
        journal := s.journal.write kind.name b time
        queue := s.journal.newFrames kind.name b time }
    else none
  | .advance => advance enc s
  | .commit ending =>
    if s.committed = none ∧ s.queue = [] then
      some { s with
        committed := some ending, kept := (openFiles enc s.files).frames, saved := s.files }
    else none
  | .unlinkOld =>
    if s.committed = some .exited ∧ s.autoRemove then
      some { s with files := { s.files with old := [] } }
    else none
  | .unlinkCur =>
    if s.committed = some .exited ∧ s.autoRemove then
      some { s with files := { s.files with cur := [] } }
    else none
  | .delete =>
    if s.committed = some .exited ∧ s.autoRemove then some { s with deleted := true } else none
  | .readOld =>
    match s.reader.phase with
    | .opening =>
      let source := if s.deleted then s.saved else s.files
      some { s with reader := { s.reader with phase := .opened source.old s.deleted } }
    | _ => none
  | .readCur =>
    match s.reader.phase with
    | .opened old saved =>
      let source := if saved then s.saved else s.files
      let frames := (openFiles enc ⟨old, source.cur⟩).read s.reader.cursor
      some { s with quiet := frames.isEmpty, reader := receive opts s.reader frames }
    | _ => none
  | .inspect =>
    match s.reader.phase with
    | .inspecting =>
      let phase :=
        if s.deleted then .aborted else if s.committed.isSome then .returned else .opening
      some { s with reader := { s.reader with phase := phase } }
    | _ => none
  | .abort =>
    if s.reader.phase = .returned then none
    else some { s with reader := { s.reader with phase := .aborted } }

/-- The counter does not wrap, and no gap is recorded as a frame; files are not renamed between the
two reads of a request; and the state is not committed after the last empty answer, nor are the
files removed before the command returns, once a line has been added behind that answer. -/
def timely (s : State) : Action → Bool
  | .write kind b _ => decide (s.journal.seq.toNat + (pieces b.length b).length + 1 < 2 ^ 64) &&
      decide (kind = .gap → b = [])
  | .advance =>
    match s.stage, s.reader.phase with
    | .moving, .opened _ _ => false
    | _, _ => true
  | .commit _ =>
    match s.reader.phase with
    | .inspecting => s.quiet
    | _ => true
  | .unlinkOld | .unlinkCur => s.quiet || decide (s.reader.phase = .returned)
  | _ => true

def collected (r : Reader) : List Frame := r.printed ++ r.initial

/-- Everything kept at the commit is printed once and in order. -/
structure Printed (opts : Options) (s : State) : Prop where
  committed : s.committed.isSome = true
  ascending : s.kept.Pairwise fun f g => number f < number g
  printed : s.reader.printed.filter (fun f => f ∈ s.kept) = s.kept
  out : s.reader.out = s.reader.printed.flatMap (display opts)

/-- The data of a frame on its stream, behind its time if that is asked for. -/
def content (opts : Options) (f : Frame) : List (Stream × List UInt8) :=
  let w := if f.type = "stderr" then .err else .out
  (if opts.timestamps then [(w, opts.format f.time ++ [32])] else []) ++ [(w, f.data)]

/-- The output shows each of these frames with its content. -/
structure Complete (opts : Options) (s : State) : Prop extends Printed opts s where
  shown : ∀ f ∈ s.kept, display opts f = content opts f

structure Reading (opts : Options) (r : Reader) : Prop where
  ascending : (collected r).Pairwise fun f g => number f < number g
  bounded : ∀ f ∈ collected r, number f ≤ r.cursor.toNat
  flushed : r.phase = .inspecting → r.initial = []
  tail : r.tail < 0
  out : r.out = r.printed.flatMap (display opts)

structure Writing (s : State) (n : ℕ) : Prop where
  lines : UpTo number n s.files.lines
  stored : ∀ f ∈ s.files.lines, Written f
  started : s.files.lines = [] → n = 0
  queued : Consecutive number (n + 1) s.queue ∧ ∀ f ∈ s.queue, Written f
  count : n + s.queue.length = s.journal.seq.toNat
  room : s.journal.seq.toNat + 1 < 2 ^ 64
  full : s.stage = .removing → s.files.cur ≠ []
  removed : s.stage = .moving → s.files.old = [] ∧ s.files.cur ≠ []

structure Live (enc : Encoding) (s : State) (n : ℕ) : Prop extends Writing s n where
  cursor : s.reader.cursor.toNat ≤ n
  sample : ∀ old saved, s.reader.phase = .opened old saved → saved = false ∧
    UpTo number n (old ++ s.files.cur) ∧ (∀ f ∈ old, Written f) ∧
    (s.files.old = old ∨ s.files.old = [])
  taken : ∀ f ∈ (openFiles enc s.files).frames, number f ≤ s.reader.cursor.toNat →
    f ∈ collected s.reader
  kept : s.committed.isSome → s.queue = [] ∧ s.kept = (openFiles enc s.files).frames ∧
    (s.reader.phase = .inspecting → ∀ f ∈ s.kept, number f ≤ s.reader.cursor.toNat)
  quiet : s.quiet = true → n ≤ s.reader.cursor.toNat

structure Drained (s : State) : Prop where
  committed : s.committed.isSome = true
  queue : s.queue = []
  room : s.reader.cursor.toNat + 1 < 2 ^ 64
  lines : ∀ f ∈ s.files.lines, number f ≤ s.reader.cursor.toNat
  sample : ∀ old saved, s.reader.phase = .opened old saved → saved = false ∧
    ∀ f ∈ old, number f ≤ s.reader.cursor.toNat
  ascending : s.kept.Pairwise fun f g => number f < number g
  taken : ∀ f ∈ s.kept, f ∈ collected s.reader

def Running (enc : Encoding) (opts : Options) (s : State) : Prop :=
  Reading opts s.reader ∧ ((∃ n, Live enc s n) ∨ Drained s)

/-- A command whose sandbox is deleted returns no more. -/
structure Inv (enc : Encoding) (opts : Options) (s : State) : Prop where
  returned : s.reader.phase = .returned → Printed opts s
  running : s.reader.phase ≠ .returned → s.deleted = false → Running enc opts s

variable {phase : Phase}

section reading
variable {enc : Encoding} {opts : Options} {r : Reader} {frames : List Frame}

theorem flush_eq (hfollow : opts.follow = true) (htail : r.tail < 0) : flush opts r = { r with
      printed := r.printed ++ r.initial
      out := r.out ++ r.initial.flatMap (display opts)
      initial := []
      tail := -1
      phase := .inspecting } := by
  unfold flush
  have hall : ¬ (0 ≤ r.tail ∧ r.tail < r.initial.length) := by omega
  simp only [if_neg hall, hfollow, if_true]

theorem receive_nil (hfollow : opts.follow = true) (htail : r.tail < 0) : receive opts r [] =
    { r with
      printed := r.printed ++ r.initial
      out := r.out ++ r.initial.flatMap (display opts)
      initial := []
      tail := -1
      phase := .inspecting } :=
  flush_eq hfollow htail

theorem receive_some {f : Frame} (hsince : opts.since = 0) (hlast : frames.getLast? = some f) :
    receive opts r frames =
      { r with cursor := f.sequence, initial := r.initial ++ frames, phase := .opening } := by
  unfold receive
  rw [hlast, hsince]
  simp

theorem Reading.receive_nil (h : Reading opts r) (hfollow : opts.follow = true) :
    Reading opts (receive opts r []) ∧ collected (receive opts r []) = collected r := by
  rw [Follow.receive_nil hfollow h.tail]
  have hsame : r.printed ++ r.initial ++ [] = r.printed ++ r.initial := List.append_nil _
  refine ⟨⟨?_, ?_, fun _ => rfl, (by decide : (-1 : ℤ) < 0), ?_⟩, hsame⟩
  · change (r.printed ++ r.initial ++ []).Pairwise _
    rw [hsame]
    exact h.ascending
  · change ∀ f ∈ r.printed ++ r.initial ++ [], _
    rw [hsame]
    exact h.bounded
  · rw [List.flatMap_append, ← h.out]

theorem Reading.receive_some {f : Frame} (h : Reading opts r) (hsince : opts.since = 0)
    (hlast : frames.getLast? = some f)
    (hascending : frames.Pairwise fun f g => number f < number g)
    (hafter : ∀ f ∈ frames, r.cursor.toNat < number f) : Reading opts (receive opts r frames) := by
  rw [Follow.receive_some hsince hlast]
  obtain ⟨init, rfl⟩ := List.getLast?_eq_some_iff.1 hlast
  have hle : ∀ g ∈ init ++ [f], number g ≤ number f := by
    intro g hg
    rcases List.mem_append.1 hg with hg | hg
    · exact ((List.pairwise_append.1 hascending).2.2 g hg f (List.mem_singleton_self f)).le
    · rw [List.mem_singleton.1 hg]
  refine ⟨?_, fun g hg => ?_, nofun, h.tail, h.out⟩
  · change (r.printed ++ (r.initial ++ (init ++ [f]))).Pairwise _
    rw [← List.append_assoc, List.pairwise_append]
    exact ⟨h.ascending, hascending, fun a ha b hb => (h.bounded a ha).trans_lt (hafter b hb)⟩
  · change g ∈ r.printed ++ (r.initial ++ (init ++ [f])) at hg
    rw [← List.append_assoc] at hg
    rcases List.mem_append.1 hg with hg | hg
    · exact ((h.bounded g hg).trans_lt (hafter f (by simp))).le
    · exact hle g hg

theorem Reading.rephase (h : Reading opts r)
    (hp : phase = .inspecting → r.initial = []) : Reading opts { r with phase := phase } :=
  ⟨h.ascending, h.bounded, hp, h.tail, h.out⟩

end reading

variable {old : List Frame} {saved : Bool} {files : Files}

section live
variable {enc : Encoding} {opts : Options} {s s' : State} {n : ℕ}

theorem Writing.withReader {r : Reader} {quiet : Bool} (h : Writing s n) :
    Writing { s with quiet := quiet, reader := r } n :=
  ⟨h.lines, h.stored, h.started, h.queued, h.count, h.room, h.full, h.removed⟩

theorem Live.opened (h : Live enc s n) (hp : s.reader.phase = .opened old saved) :
    UpTo number n (openFiles enc ⟨old, s.files.cur⟩).frames ∧
      (openFiles enc s.files).frames <:+ (openFiles enc ⟨old, s.files.cur⟩).frames := by
  obtain ⟨_, hupto, hwritten, hold⟩ := h.sample old saved hp
  have hw : ∀ f ∈ (⟨old, s.files.cur⟩ : Files).lines, Written f := by
    intro f hf
    rcases List.mem_append.1 hf with hf | hf
    · exact hwritten f hf
    · exact h.stored f (List.mem_append_right _ hf)
  have hsample : Loaded (old ++ s.files.cur) (openFiles enc ⟨old, s.files.cur⟩) :=
    loaded_openFiles hw
  refine ⟨hupto.suffix hsample.suffix, hsample.mono (loaded_openFiles h.stored) ?_
    fun f hf => cost_le_limit (hw f hf)⟩
  rcases hold with hold | hold
  · have hlines : s.files.lines = old ++ s.files.cur := by rw [Files.lines, hold]
    exact hlines ▸ List.suffix_rfl
  · rw [Files.lines, hold]
    exact List.suffix_append old _

theorem Live.exists_last (h : Live enc s n) (hne : s.files.lines ≠ []) :
    ∃ f ∈ (openFiles enc s.files).frames, number f = n := by
  obtain ⟨init, f, hlines⟩ := (List.eq_nil_or_concat' s.files.lines).resolve_left hne
  have hmem : f ∈ s.files.lines := by simp [hlines]
  have hkept : [f] <:+ (openFiles enc s.files).frames := by
    refine (loaded_openFiles h.stored).longest [f] ⟨init, hlines.symm⟩ ?_
    simpa using cost_le_limit (h.stored f hmem)
  obtain ⟨first, hnumbers, hlen, _⟩ := h.lines
  rw [hlines, consecutive_append] at hnumbers
  rw [hlines, List.length_append, List.length_singleton] at hlen
  have hnumber := hnumbers.2.1
  exact ⟨f, hkept.subset (List.mem_singleton_self f), by omega⟩

/-- After an empty answer nothing is left to read. -/
theorem Live.le_cursor (h : Live enc s n) (hp : s.reader.phase = .opened old saved)
    (hnil : (openFiles enc ⟨old, s.files.cur⟩).read s.reader.cursor = []) :
    n ≤ s.reader.cursor.toNat := by
  by_cases hne : s.files.lines = []
  · rw [h.started hne]
    exact Nat.zero_le _
  · obtain ⟨f, hf, hnumber⟩ := h.exists_last hne
    rw [← hnumber]
    exact le_of_read_eq_nil hnil ((h.opened hp).2.subset hf)

theorem Live.readCur {batch : List Frame} (hfollow : opts.follow = true)
    (hsince : opts.since = 0) (hr : Reading opts s.reader) (h : Live enc s n)
    (hp : s.reader.phase = .opened old saved)
    (hbatch : (openFiles enc ⟨old, s.files.cur⟩).read s.reader.cursor = batch) :
    Reading opts (receive opts s.reader batch) ∧
      Live enc { s with quiet := batch.isEmpty, reader := receive opts s.reader batch } n := by
  obtain ⟨hupto, hsuffix⟩ := h.opened hp
  have hroom : s.reader.cursor.toNat + 1 < 2 ^ 64 := by
    have hcursor := h.cursor
    have hcount := h.count
    have hroom := h.room
    omega
  obtain ⟨hascending, hrange⟩ := read_ascending hupto hroom
  rw [hbatch] at hascending hrange
  cases hlast : batch.getLast? with
  | none =>
    obtain rfl := List.getLast?_eq_none_iff.1 hlast
    obtain ⟨hreading, hsame⟩ := hr.receive_nil hfollow
    refine ⟨hreading, h.withReader, ?_, ?_, ?_, ?_, fun _ => ?_⟩
    · rw [receive_nil hfollow hr.tail]
      exact h.cursor
    · rw [receive_nil hfollow hr.tail]
      nofun
    · rw [hsame, receive_nil hfollow hr.tail]
      exact h.taken
    · rw [receive_nil hfollow hr.tail]
      intro hcommitted
      obtain ⟨hqueue, hkept, _⟩ := h.kept hcommitted
      refine ⟨hqueue, hkept, fun _ f hf => ?_⟩
      rw [hkept] at hf
      exact le_of_read_eq_nil hbatch (hsuffix.subset hf)
    · rw [receive_nil hfollow hr.tail]
      exact h.le_cursor hp hbatch
  | some f =>
    have hmem := List.mem_of_getLast? hlast
    refine ⟨hr.receive_some hsince hlast hascending fun g hg => (hrange g hg).1, h.withReader, ?_, ?_,
      fun g hg hle => ?_, ?_, fun hquiet => ?_⟩
    · rw [receive_some hsince hlast]
      exact (hrange f hmem).2
    · rw [receive_some hsince hlast]
      nofun
    · rw [receive_some hsince hlast] at hle ⊢
      change g ∈ s.reader.printed ++ (s.reader.initial ++ _)
      rw [← List.append_assoc]
      by_cases hold : number g ≤ s.reader.cursor.toNat
      · exact List.mem_append_left _ (h.taken g hg hold)
      · refine List.mem_append_right _ ?_
        rw [← hbatch] at hmem ⊢
        exact mem_read_of_le hupto (hsuffix.subset hg) (by omega) hmem hle
    · rw [receive_some hsince hlast]
      intro hcommitted
      obtain ⟨hqueue, hkept, _⟩ := h.kept hcommitted
      exact ⟨hqueue, hkept, nofun⟩
    · rw [List.isEmpty_iff.1 hquiet] at hlast
      cases hlast

theorem Live.rephase (h : Live enc s n)
    (hopened : ∀ old saved, phase ≠ .opened old saved) (hinspecting : phase ≠ .inspecting) :
    Live enc { s with reader := { s.reader with phase := phase } } n :=
  ⟨h.withReader, h.cursor, fun old saved hp => absurd hp (hopened old saved), h.taken, fun hc =>
    ⟨(h.kept hc).1, (h.kept hc).2.1, fun hp => absurd hp hinspecting⟩, h.quiet⟩

theorem Live.readOld (h : Live enc s n) :
    Live enc { s with reader := { s.reader with phase := .opened s.files.old false } } n := by
  refine ⟨h.withReader, h.cursor, fun old saved hp => ?_, h.taken, fun hc =>
    ⟨(h.kept hc).1, (h.kept hc).2.1, nofun⟩, h.quiet⟩
  cases hp
  exact ⟨rfl, h.lines, fun f hf => h.stored f (List.mem_append_left _ hf), Or.inl rfl⟩

theorem Kind.length_name {kind : Kind} : kind.name.length ≤ 6 := by cases kind <;> decide

theorem Live.write {kind : Kind} {b : List UInt8} {time : Time} (h : Live enc s n)
    (hcommitted : s.committed = none) (hqueue : s.queue = [])
    (hroom : s.journal.seq.toNat + (pieces b.length b).length + 1 < 2 ^ 64) :
    Live enc { s with
      journal := s.journal.write kind.name b time
      queue := s.journal.newFrames kind.name b time } n := by
  have hseq : (s.journal.write kind.name b time).seq.toNat = _ := write_seq (Nat.lt_of_succ_lt hroom)
  have hlen : (s.journal.newFrames kind.name b time).length = (pieces b.length b).length :=
    length_stamp
  have hn : n = s.journal.seq.toNat := by simpa [hqueue] using h.count
  refine ⟨⟨h.lines, h.stored, h.started, ⟨?_, fun f hf => (written_newFrames Kind.length_name hf).1⟩, ?_,
    ?_, h.full, h.removed⟩, h.cursor, h.sample, h.taken, fun hc => ?_, h.quiet⟩
  · rw [hn]
    exact consecutive_stamp (Nat.lt_of_succ_lt hroom)
  · change n + (s.journal.newFrames kind.name b time).length = _
    rw [hlen, hn]
    exact hseq.symm
  · change (s.journal.write kind.name b time).seq.toNat + 1 < 2 ^ 64
    omega
  · rw [hcommitted] at hc
    cases hc

variable {rest : List Frame}

theorem Live.not_committed {f : Frame} (h : Live enc s n)
    (hqueue : s.queue = f :: rest) : s.committed.isSome ≠ true := by
  intro hc
  rw [(h.kept hc).1] at hqueue
  cases hqueue

theorem Live.remove {f : Frame} (h : Live enc s n) (hqueue : s.queue = f :: rest)
    (hstage : s.stage = .removing) :
    Live enc { s with files := { s.files with old := [] }, stage := .moving } n := by
  have hsuffix : s.files.cur <:+ s.files.lines := List.suffix_append _ _
  have hmono : (openFiles enc ⟨[], s.files.cur⟩).frames <:+ (openFiles enc s.files).frames := by
    refine (loaded_openFiles h.stored).mono (loaded_openFiles fun f hf => ?_) hsuffix
      fun f hf => cost_le_limit (h.stored f hf)
    exact h.stored f (hsuffix.subset hf)
  refine ⟨⟨h.lines.suffix hsuffix, fun f hf => h.stored f (hsuffix.subset hf), fun hnil => ?_, h.queued,
    h.count, h.room, nofun, fun _ => ⟨rfl, h.full hstage⟩⟩, h.cursor, fun old saved hp => ?_,
    fun f hf => h.taken f (hmono.subset hf), fun hc => absurd hc (h.not_committed hqueue), h.quiet⟩
  · exact absurd hnil (h.full hstage)
  · obtain ⟨hsaved, hupto, hwritten, _⟩ := h.sample old saved hp
    exact ⟨hsaved, hupto, hwritten, Or.inr rfl⟩

theorem Live.rename {f : Frame} (h : Live enc s n) (hqueue : s.queue = f :: rest)
    (hstage : s.stage = .moving) (hp : ∀ old saved, s.reader.phase ≠ .opened old saved) :
    Live enc { s with files := s.files.rotate, stage := .adding } n := by
  have hlines : s.files.rotate.lines = s.files.lines := by
    simp [Files.lines, Files.rotate, (h.removed hstage).1]
  have hopen : openFiles enc s.files.rotate = openFiles enc s.files := by
    rw [openFiles_eq h.stored, openFiles_eq (hlines ▸ h.stored), hlines]
  exact ⟨⟨hlines ▸ h.lines, hlines ▸ h.stored, fun hnil => h.started (hlines ▸ hnil), h.queued, h.count,
    h.room, by rintro ⟨⟩, by rintro ⟨⟩⟩, h.cursor, fun old saved hopened => absurd hopened (hp old saved),
    hopen ▸ h.taken, fun hc => absurd hc (h.not_committed hqueue), h.quiet⟩

theorem Live.add {f : Frame} (h : Live enc s n) (hqueue : s.queue = f :: rest) : Live enc { s with
      files := s.files.add f, queue := rest, stage := .checking, quiet := false } (n + 1) := by
  obtain ⟨hnum, hwritten⟩ := h.queued
  rw [hqueue] at hnum hwritten
  have hlines : (s.files.add f).lines = s.files.lines ++ [f] := by simp [Files.lines, Files.add]
  have hstored : ∀ g ∈ (s.files.add f).lines, Written g := by
    intro g hg
    rw [hlines] at hg
    rcases List.mem_append.1 hg with hg | hg
    · exact h.stored g hg
    · rw [List.mem_singleton.1 hg]
      exact hwritten f (List.mem_cons_self ..)
  have hopen : (openFiles enc (s.files.add f)).frames <:+ (openFiles enc s.files).frames ++ [f] := by
    rw [openFiles_eq h.stored, openFiles_eq hstored, hlines, List.foldl_append]
    exact append_suffix
  refine ⟨⟨?_, hstored, fun hnil => ?_, ⟨hnum.2, fun g hg => hwritten g (List.mem_cons_of_mem f hg)⟩, ?_,
    h.room, by rintro ⟨⟩, by rintro ⟨⟩⟩, Nat.le_succ_of_le h.cursor, fun old saved hp => ?_, fun g hg hle => ?_,
    fun hc => absurd hc (h.not_committed hqueue), by rintro ⟨⟩⟩
  · rw [hlines]
    exact h.lines.append hnum.1
  · rw [hlines] at hnil
    simp at hnil
  · have hcount := h.count
    rw [hqueue, List.length_cons] at hcount
    change n + 1 + rest.length = s.journal.seq.toNat
    omega
  · obtain ⟨hsaved, hupto, hold, hfiles⟩ := h.sample old saved hp
    refine ⟨hsaved, ?_, hold, hfiles⟩
    have happ := hupto.append hnum.1
    rwa [List.append_assoc] at happ
  · rcases List.mem_append.1 (hopen.subset hg) with hg | hg
    · exact h.taken g hg hle
    · rw [List.mem_singleton.1 hg, hnum.1] at hle
      have hcursor := h.cursor
      change n + 1 ≤ s.reader.cursor.toNat at hle
      omega

theorem cur_ne_nil_of_full (h : s.files.full enc = true) : s.files.cur ≠ [] := by
  intro hnil
  simp [Files.full, hnil] at h

theorem Live.advance (h : Live enc s n) (hok : timely s .advance = true)
    (hs : advance enc s = some s') : ∃ n', Live enc s' n' := by
  unfold Follow.advance at hs
  split at hs
  · cases hs
  · rename_i f rest hqueue
    cases hs
    split
    · refine ⟨n, ⟨h.lines, h.stored, h.started, h.queued, h.count, h.room, fun hfull => ?_,
        fun hmoving => ?_⟩, h.cursor, h.sample, h.taken, h.kept, h.quiet⟩
      · dsimp only at hfull
        split_ifs at hfull with hf
        exact cur_ne_nil_of_full hf
      · dsimp only at hmoving
        split_ifs at hmoving
    · rename_i hstage
      exact ⟨n, h.remove hqueue hstage⟩
    · rename_i hstage
      refine ⟨n, h.rename hqueue hstage fun old saved hp => ?_⟩
      simp [timely, hstage, hp] at hok
    · exact ⟨n + 1, h.add hqueue⟩

theorem Live.commit {ending : Ending} (h : Live enc s n) (hqueue : s.queue = [])
    (hok : timely s (.commit ending) = true) :
    Live enc { s with
      committed := some ending, kept := (openFiles enc s.files).frames, saved := s.files } n := by
  refine ⟨⟨h.lines, h.stored, h.started, h.queued, h.count, h.room, h.full, h.removed⟩, h.cursor, h.sample,
    h.taken, fun _ => ⟨hqueue, rfl, fun hp f hf => ?_⟩, h.quiet⟩
  simp only [timely] at hok
  rw [show s.reader.phase = .inspecting from hp] at hok
  exact (h.lines.bounds (mem_openFiles hf)).2.trans (h.quiet hok)

theorem Live.ascending (h : Live enc s n) (hcommitted : s.committed.isSome = true) :
    s.kept.Pairwise fun f g => number f < number g := by
  rw [(h.kept hcommitted).2.1]
  obtain ⟨first, hfirst, _, _⟩ := h.lines.suffix (openFiles_suffix h.stored)
  exact hfirst.pairwise

/-- Files are removed only then. -/
theorem Live.drained (h : Live enc s n) (hquiet : s.quiet = true)
    (hcommitted : s.committed.isSome = true) (hfiles : ∀ f ∈ files.lines, f ∈ s.files.lines) :
    Drained { s with files := files } := by
  have hle := h.quiet hquiet
  obtain ⟨hqueue, hkept, _⟩ := h.kept hcommitted
  have hlines : ∀ f ∈ s.files.lines, number f ≤ s.reader.cursor.toNat := fun f hf =>
    (h.lines.bounds hf).2.trans hle
  refine ⟨hcommitted, hqueue, ?_, fun f hf => hlines f (hfiles f hf), fun old saved hp => ?_, ?_,
    fun f hf => ?_⟩
  · have hcursor := h.cursor
    have hcount := h.count
    have hroom := h.room
    change s.reader.cursor.toNat + 1 < 2 ^ 64
    omega
  · obtain ⟨hsaved, hupto, _, _⟩ := h.sample old saved hp
    refine ⟨hsaved, fun f hf => ?_⟩
    exact (hupto.bounds (List.mem_append_left _ hf)).2.trans hle
  · exact h.ascending hcommitted
  · change f ∈ s.kept at hf
    rw [hkept] at hf
    exact h.taken f hf (hlines f (mem_openFiles hf))

end live

section drained
variable {enc : Encoding} {opts : Options} {s : State}

theorem Drained.rephase (h : Drained s) (hopened : ∀ old saved, phase ≠ .opened old saved) :
    Drained { s with reader := { s.reader with phase := phase } } :=
  ⟨h.committed, h.queue, h.room, h.lines, fun old saved hp => absurd hp (hopened old saved),
    h.ascending, h.taken⟩

theorem Drained.readOld (h : Drained s) :
    Drained { s with reader := { s.reader with phase := .opened s.files.old false } } := by
  refine ⟨h.committed, h.queue, h.room, h.lines, fun old saved hp => ?_, h.ascending, h.taken⟩
  cases hp
  exact ⟨rfl, fun f hf => h.lines f (List.mem_append_left _ hf)⟩

theorem Drained.read_eq_nil (h : Drained s) (hp : s.reader.phase = .opened old saved) :
    (openFiles enc ⟨old, s.files.cur⟩).read s.reader.cursor = [] := by
  refine Journal.read_eq_nil (fun f hf => ?_) h.room
  rcases List.mem_append.1 (mem_openFiles hf) with hf | hf
  · exact (h.sample old saved hp).2 f hf
  · exact h.lines f (List.mem_append_right _ hf)

theorem Drained.receive_nil (hfollow : opts.follow = true) (hr : Reading opts s.reader)
    (h : Drained s) : Drained { s with quiet := true, reader := receive opts s.reader [] } := by
  obtain ⟨_, hsame⟩ := hr.receive_nil hfollow
  refine ⟨h.committed, h.queue, ?_, ?_, ?_, h.ascending, fun f hf => ?_⟩
  · rw [Follow.receive_nil hfollow hr.tail]
    exact h.room
  · rw [Follow.receive_nil hfollow hr.tail]
    exact h.lines
  · rw [Follow.receive_nil hfollow hr.tail]
    nofun
  · rw [hsame]
    exact h.taken f hf

theorem Drained.unlink (h : Drained s)
    (hfiles : ∀ f ∈ files.lines, f ∈ s.files.lines) : Drained { s with files := files } :=
  ⟨h.committed, h.queue, h.room, fun f hf => h.lines f (hfiles f hf), h.sample, h.ascending, h.taken⟩

end drained

section invariant
variable {enc : Encoding} {opts : Options} {s s' : State}

/-- The command returns after it has printed all that was kept at the commit. -/
theorem Reading.ends (hr : Reading opts s.reader) (hinitial : s.reader.initial = [])
    (hcommitted : s.committed.isSome = true)
    (hascending : s.kept.Pairwise fun f g => number f < number g)
    (htaken : ∀ f ∈ s.kept, f ∈ collected s.reader) :
    Printed opts { s with reader := { s.reader with phase := .returned } } := by
  have hprinted : collected s.reader = s.reader.printed := by
    rw [collected, hinitial, List.append_nil]
  refine ⟨hcommitted, hascending, ?_, hr.out⟩
  refine eq_of_ascending (List.Pairwise.filter _ (hprinted ▸ hr.ascending)) hascending fun f => ?_
  rw [List.mem_filter, decide_eq_true_eq]
  exact ⟨fun h => h.2, fun h => ⟨hprinted ▸ htaken f h, h⟩⟩

theorem Live.ends {n : ℕ} (hr : Reading opts s.reader) (h : Live enc s n)
    (hp : s.reader.phase = .inspecting) (hcommitted : s.committed.isSome = true) :
    Printed opts { s with reader := { s.reader with phase := .returned } } := by
  obtain ⟨_, hkept, hread⟩ := h.kept hcommitted
  refine hr.ends (hr.flushed hp) hcommitted (h.ascending hcommitted) fun f hf => ?_
  exact h.taken f (hkept ▸ hf) (hread hp f hf)

variable {act : Action}

theorem Printed.congr {t : State} (h : Printed opts s) (hc : t.committed = s.committed)
    (hk : t.kept = s.kept) (hr : t.reader = s.reader) : Printed opts t where
  committed := hc ▸ h.committed
  ascending := hk ▸ h.ascending
  printed := by
    rw [hk, hr]
    exact h.printed
  out := hr ▸ h.out

theorem Printed.step (h : Printed opts s) (hp : s.reader.phase = .returned)
    (hs : step enc opts s act = some s') : Printed opts s' ∧ s'.reader.phase = .returned := by
  have hnone : s.committed ≠ none := Option.isSome_iff_ne_none.1 h.committed
  have hsame : ∀ t : State, t.committed = s.committed → t.kept = s.kept → t.reader = s.reader →
      Printed opts t ∧ t.reader.phase = .returned := fun t hc hk hr => ⟨h.congr hc hk hr, hr ▸ hp⟩
  cases act with
  | write | commit =>
    simp only [Follow.step] at hs
    split_ifs at hs with hopen
    exact absurd hopen.1 hnone
  | advance =>
    simp only [Follow.step, Follow.advance] at hs
    split at hs
    · cases hs
    · cases hs
      split <;> exact hsame _ rfl rfl rfl
  | unlinkOld | unlinkCur | delete =>
    simp only [Follow.step] at hs
    split_ifs at hs
    cases hs
    exact hsame _ rfl rfl rfl
  | readOld | readCur | inspect | abort => simp [Follow.step, hp] at hs

theorem phase_receive (hfollow : opts.follow = true) {r : Reader} {frames : List Frame} :
    (receive opts r frames).phase ≠ .returned := by
  unfold receive
  split
  · simp [flush, hfollow]
  · nofun

theorem deleted_step (hfollow : opts.follow = true) (hdeleted : s.deleted = true)
    (hp : s.reader.phase ≠ .returned) (hs : step enc opts s act = some s') :
    s'.deleted = true ∧ s'.reader.phase ≠ .returned := by
  cases act with
  | advance =>
    simp only [step, advance] at hs
    split at hs
    · cases hs
    · cases hs
      split <;> exact ⟨hdeleted, hp⟩
  | readOld =>
    simp only [step] at hs
    split at hs
    · cases hs
      exact ⟨hdeleted, nofun⟩
    · cases hs
  | readCur =>
    simp only [step] at hs
    split at hs
    · cases hs
      exact ⟨hdeleted, phase_receive hfollow⟩
    · cases hs
  | inspect =>
    simp only [step] at hs
    split at hs
    · cases hs
      exact ⟨hdeleted, by simp [hdeleted]⟩
    · cases hs
  | abort =>
    simp only [step] at hs
    split_ifs at hs
    cases hs
    exact ⟨hdeleted, nofun⟩
  | _ =>
    simp only [step] at hs
    split_ifs at hs
    cases hs
    exact ⟨by first | rfl | exact hdeleted, hp⟩

theorem inv_of_running (hp : s.reader.phase ≠ .returned) (h : Running enc opts s) :
    Inv enc opts s :=
  ⟨fun hret => absurd hret hp, fun _ _ => h⟩

theorem Running.readCur (hfollow : opts.follow = true)
    (hsince : opts.since = 0) (h : Running enc opts s) (hp : s.reader.phase = .opened old saved) :
    Running enc opts { s with
      quiet := ((openFiles enc ⟨old, s.files.cur⟩).read s.reader.cursor).isEmpty
      reader := receive opts s.reader ((openFiles enc ⟨old, s.files.cur⟩).read s.reader.cursor) } := by
  obtain ⟨hr, ⟨n, h⟩ | h⟩ := h
  · obtain ⟨hr', h'⟩ := h.readCur hfollow hsince hr hp rfl
    exact ⟨hr', Or.inl ⟨n, h'⟩⟩
  · rw [h.read_eq_nil hp]
    exact ⟨(hr.receive_nil hfollow).1, Or.inr (h.receive_nil hfollow hr)⟩

theorem Running.sample (h : Running enc opts s)
    (hp : s.reader.phase = .opened old saved) : saved = false := by
  obtain ⟨_, ⟨n, h⟩ | h⟩ := h
  · exact (h.sample old saved hp).1
  · exact (h.sample old saved hp).1

theorem Running.ends (h : Running enc opts s) (hp : s.reader.phase = .inspecting)
    (hcommitted : s.committed.isSome = true) :
    Printed opts { s with reader := { s.reader with phase := .returned } } := by
  obtain ⟨hr, ⟨n, h⟩ | h⟩ := h
  · exact h.ends hr hp hcommitted
  · exact hr.ends (hr.flushed hp) hcommitted h.ascending h.taken

theorem Running.rephase (h : Running enc opts s)
    (hopened : ∀ old saved, phase ≠ .opened old saved) (hinspecting : phase ≠ .inspecting) :
    Running enc opts { s with reader := { s.reader with phase := phase } } := by
  obtain ⟨hr, h⟩ := h
  refine ⟨hr.rephase fun hp => absurd hp hinspecting, ?_⟩
  rcases h with ⟨n, h⟩ | h
  · exact Or.inl ⟨n, h.rephase hopened hinspecting⟩
  · exact Or.inr (h.rephase hopened)

theorem Running.unlink (h : Running enc opts s) (hquiet : s.quiet = true)
    (hcommitted : s.committed.isSome = true) (hfiles : ∀ f ∈ files.lines, f ∈ s.files.lines) :
    Running enc opts { s with files := files } := by
  obtain ⟨hr, ⟨n, h⟩ | h⟩ := h
  · exact ⟨hr, Or.inr (h.drained hquiet hcommitted hfiles)⟩
  · exact ⟨hr, Or.inr (h.unlink hfiles)⟩

theorem Running.step (hfollow : opts.follow = true) (hsince : opts.since = 0)
    (h : Running enc opts s) (hdeleted : s.deleted = false) (hp : s.reader.phase ≠ .returned)
    (hok : timely s act = true) (hs : step enc opts s act = some s') : Inv enc opts s' := by
  cases act with
  | write kind b time =>
    simp only [Follow.step] at hs
    split_ifs at hs with hopen
    cases hs
    obtain ⟨hr, ⟨n, h⟩ | h⟩ := h
    · exact inv_of_running hp ⟨hr, Or.inl ⟨n, h.write hopen.1 hopen.2 (of_decide_eq_true (Bool.and_eq_true_iff.1 hok).1)⟩⟩
    · exact absurd hopen.1 (Option.isSome_iff_ne_none.1 h.committed)
  | advance =>
    obtain ⟨hr, ⟨n, h⟩ | h⟩ := h
    · have hreader : s'.reader = s.reader := by
        simp only [Follow.step, Follow.advance] at hs
        split at hs
        · cases hs
        · cases hs
          split <;> rfl
      obtain ⟨n', h'⟩ := h.advance hok hs
      refine inv_of_running (hreader ▸ hp) ⟨hreader ▸ hr, Or.inl ⟨n', h'⟩⟩
    · simp [Follow.step, Follow.advance, h.queue] at hs
  | commit ending =>
    simp only [Follow.step] at hs
    split_ifs at hs with hopen
    cases hs
    obtain ⟨hr, ⟨n, h⟩ | h⟩ := h
    · exact inv_of_running hp ⟨hr, Or.inl ⟨n, h.commit hopen.2 hok⟩⟩
    · exact absurd hopen.1 (Option.isSome_iff_ne_none.1 h.committed)
  | unlinkOld | unlinkCur =>
    simp only [Follow.step] at hs
    split_ifs at hs with hended
    cases hs
    have hquiet : s.quiet = true := by simpa [timely, hp] using hok
    refine inv_of_running hp (h.unlink hquiet (by simp [hended.1]) fun f hf => ?_)
    simp only [Files.lines, List.nil_append, List.append_nil] at hf
    simp [Files.lines, hf]
  | delete =>
    simp only [Follow.step] at hs
    split_ifs at hs
    cases hs
    exact ⟨fun hret => absurd hret hp, fun _ hfalse => by cases hfalse⟩
  | readOld =>
    simp only [Follow.step] at hs
    split at hs
    · cases hs
      have hphase : Phase.opened (if s.deleted then s.saved else s.files).old s.deleted =
          .opened s.files.old false := by simp [hdeleted]
      rw [hphase]
      obtain ⟨hr, h⟩ := h
      refine inv_of_running (by rintro ⟨⟩) ⟨hr.rephase (by rintro ⟨⟩), ?_⟩
      rcases h with ⟨n, h⟩ | h
      · exact Or.inl ⟨n, h.readOld⟩
      · exact Or.inr h.readOld
    · cases hs
  | readCur =>
    simp only [Follow.step] at hs
    split at hs
    · rename_i old saved hopened
      cases hs
      obtain rfl := h.sample hopened
      exact inv_of_running (phase_receive hfollow) (h.readCur hfollow hsince hopened)
    · cases hs
  | inspect =>
    simp only [Follow.step] at hs
    split at hs
    · rename_i hinspecting
      cases hs
      rw [if_neg (by simp [hdeleted])]
      by_cases hcommitted : s.committed.isSome = true
      · rw [if_pos hcommitted]
        exact ⟨fun _ => h.ends hinspecting hcommitted, fun hne => absurd rfl hne⟩
      · rw [if_neg hcommitted]
        exact inv_of_running (by rintro ⟨⟩) (h.rephase (by rintro _ _ ⟨⟩) (by rintro ⟨⟩))
    · cases hs
  | abort =>
    simp only [Follow.step] at hs
    split_ifs at hs
    cases hs
    exact inv_of_running (by rintro ⟨⟩) (h.rephase (by rintro _ _ ⟨⟩) (by rintro ⟨⟩))

theorem Inv.step (hfollow : opts.follow = true) (hsince : opts.since = 0)
    (h : Inv enc opts s) (hok : timely s act = true) (hs : step enc opts s act = some s') :
    Inv enc opts s' := by
  by_cases hp : s.reader.phase = .returned
  · obtain ⟨hprinted, hp'⟩ := (h.returned hp).step hp hs
    exact ⟨fun _ => hprinted, fun hne => absurd hp' hne⟩
  · cases hdeleted : s.deleted with
    | true =>
      obtain ⟨hdeleted', hp'⟩ := deleted_step hfollow hdeleted hp hs
      exact ⟨fun hret => absurd hret hp', fun _ hfalse => by simp [hdeleted'] at hfalse⟩
    | false => exact (h.running hp hdeleted).step hfollow hsince hdeleted hp hok hs

theorem inv_start {journal : Journal} {autoRemove : Bool}
    (hkept : Kept files journal) (hroom : journal.seq.toNat + 1 < 2 ^ 64) (htail : opts.tail < 0) :
    Inv enc opts (start opts files journal autoRemove) := by
  refine inv_of_running nofun ⟨⟨List.Pairwise.nil, nofun, nofun, htail, rfl⟩, Or.inl ⟨journal.seq.toNat,
    ⟨hkept.lines, hkept.stored, fun hnil => ?_, ⟨trivial, nofun⟩, rfl, hroom, nofun, nofun⟩, Nat.zero_le _,
    nofun, fun f hf hle => ?_, nofun, nofun⟩⟩
  · rw [hkept.started hnil]
    rfl
  · have hpos := (hkept.lines.bounds (mem_openFiles hf)).1
    have hzero : number f ≤ 0 := hle
    omega

structure NoGap (s : State) : Prop where
  lines : ∀ f ∈ s.files.lines, f.type ≠ "gap"
  queue : ∀ f ∈ s.queue, f.type ≠ "gap"
  kept : ∀ f ∈ s.kept, f.type ≠ "gap"

theorem NoGap.unlink (h : NoGap s)
    (hfiles : ∀ f ∈ files.lines, f ∈ s.files.lines) : NoGap { s with files := files } :=
  ⟨fun f hf => h.lines f (hfiles f hf), h.queue, h.kept⟩

theorem NoGap.advance (h : NoGap s) (hs : advance enc s = some s') : NoGap s' := by
  unfold Follow.advance at hs
  split at hs
  · cases hs
  · rename_i f rest hqueue
    cases hs
    have hold := h.queue
    rw [hqueue] at hold
    split
    · exact ⟨h.lines, h.queue, h.kept⟩
    · exact ⟨fun g hg => h.lines g (List.mem_append_right _ hg), h.queue, h.kept⟩
    · refine ⟨fun g hg => h.lines g (List.mem_append_right _ ?_), h.queue, h.kept⟩
      simpa [Files.lines, Files.rotate] using hg
    · refine ⟨fun g hg => ?_, fun g hg => hold g (List.mem_cons_of_mem f hg), h.kept⟩
      have hmem : g ∈ s.files.lines ∨ g = f := by
        simpa [Files.lines, Files.add, or_assoc] using hg
      rcases hmem with hg | rfl
      · exact h.lines g hg
      · exact hold g List.mem_cons_self

theorem NoGap.step (h : NoGap s) (hok : timely s act = true)
    (hs : step enc opts s act = some s') : NoGap s' := by
  cases act with
  | write kind b time =>
    simp only [Follow.step] at hs
    split_ifs at hs
    cases hs
    refine ⟨h.lines, fun f hf hgap => ?_, h.kept⟩
    obtain ⟨htype, hdata, -, -⟩ := mem_stamp hf
    have hkind : kind = .gap := by
      rw [hgap] at htype
      cases kind <;> first | rfl | exact absurd htype (by decide)
    have hempty := of_decide_eq_true (Bool.and_eq_true_iff.1 hok).2 hkind
    subst hempty
    cases hdata
  | advance => exact h.advance hs
  | commit ending =>
    simp only [Follow.step] at hs
    split_ifs at hs
    cases hs
    exact ⟨h.lines, h.queue, fun f hf => h.lines f (mem_openFiles hf)⟩
  | unlinkOld | unlinkCur =>
    simp only [Follow.step] at hs
    split_ifs at hs
    cases hs
    refine h.unlink fun f hf => ?_
    simp only [Files.lines, List.nil_append, List.append_nil] at hf
    simp [Files.lines, hf]
  | delete | abort =>
    simp only [Follow.step] at hs
    split_ifs at hs
    cases hs
    exact ⟨h.lines, h.queue, h.kept⟩
  | readOld | readCur | inspect =>
    simp only [Follow.step] at hs
    split at hs
    · cases hs
      exact ⟨h.lines, h.queue, h.kept⟩
    · cases hs

theorem display_eq_content {f : Frame} (h : f.type ≠ "gap") : display opts f = content opts f := by
  unfold display content
  rw [if_neg h]

end invariant

/-- When `logs --follow` returns because the sandbox has ended, it has printed every frame that
the journal kept when the end was committed, once, in order and with its content, in every run in
which the state, the files and the requests are timely. -/
theorem follow_prints_kept (enc : Encoding) (opts : Options) (files : Files) (journal : Journal)
    (autoRemove : Bool) (hkept : Kept files journal) (hroom : journal.seq.toNat + 1 < 2 ^ 64)
    (hplain : ∀ f ∈ files.lines, f.type ≠ "gap") (hfollow : opts.follow = true)
    (htail : opts.tail < 0) (hsince : opts.since = 0) (acts : List Action) (s : State)
    (hrun : Traces.run (step enc opts) timely (start opts files journal autoRemove) acts = some s)
    (hreturned : s.reader.phase = .returned) : Complete opts s := by
  have hinv : Inv enc opts s :=
    Traces.run_invariant (fun _ _ _ h hok hs => h.step hfollow hsince hok hs)
      (inv_start hkept hroom htail) hrun
  have hnoGap : NoGap s :=
    Traces.run_invariant (fun _ _ _ h hok hs => h.step hok hs) ⟨hplain, by simp [start], by simp [start]⟩ hrun
  exact ⟨hinv.returned hreturned, fun f hf => display_eq_content (hnoGap.kept f hf)⟩

def followOptions : Options := ⟨true, false, -1, 0, fun _ => []⟩

def request : List Action := [.readOld, .readCur]

def record (kind : Kind) (b : List UInt8) : List Action := [.write kind b 10, .advance, .advance]

def followTwoLines : List Action :=
  request ++ [.inspect] ++ record .stdout [104, 105] ++ request ++ record .stderr [33] ++ request ++
    request ++ [.commit .exited, .inspect]

/-- The state is committed between the last empty answer and the request for the state. -/
theorem follow_prints_kept_twoLines :
    ∃ s, Traces.run (step lineEncoding followOptions) timely (start followOptions {} {} false)
        followTwoLines = some s ∧
      s.reader.phase = .returned ∧ s.reader.out = [(.out, [104, 105]), (.err, [33])] ∧
      Complete followOptions s := by
  obtain ⟨s, hrun, hphase, hout⟩ : ∃ s,
      Traces.run (step lineEncoding followOptions) timely (start followOptions {} {} false)
        followTwoLines = some s ∧
      s.reader.phase = .returned ∧ s.reader.out = [(.out, [104, 105]), (.err, [33])] :=
    ⟨_, rfl, rfl, rfl⟩
  refine ⟨s, hrun, hphase, hout, ?_⟩
  exact follow_prints_kept lineEncoding followOptions {} {} false kept_empty (by decide)
    (by simp [Files.lines]) rfl (by decide) rfl _ s hrun hphase

/-- The last frame is written and the state committed between an empty answer and the request
for the state: the command returns without having printed it. -/
theorem last_frame_not_printed :
    ∃ s f, Traces.run (step lineEncoding followOptions) (fun _ _ => true)
        (start followOptions {} {} false)
        (request ++ record .stdout [104, 105] ++ [.commit .exited] ++ [.inspect]) = some s ∧
      s.reader.phase = .returned ∧ s.kept = [f] ∧ s.reader.printed = [] ∧ s.reader.out = [] ∧
      ¬ Complete followOptions s := by
  obtain ⟨s, f, hrun, hphase, hkept, hprinted, hout⟩ : ∃ s f,
      Traces.run (step lineEncoding followOptions) (fun _ _ => true)
        (start followOptions {} {} false)
        (request ++ record .stdout [104, 105] ++ [.commit .exited] ++ [.inspect]) = some s ∧
      s.reader.phase = .returned ∧ s.kept = [f] ∧ s.reader.printed = [] ∧ s.reader.out = [] :=
    ⟨_, _, rfl, rfl, rfl, rfl, rfl⟩
  refine ⟨s, f, hrun, hphase, hkept, hprinted, hout, fun h => ?_⟩
  have hfilter := h.printed
  rw [hkept, hprinted] at hfilter
  cases hfilter

end Follow
end Niflhel

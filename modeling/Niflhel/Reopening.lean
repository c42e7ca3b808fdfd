import Niflhel.LogBatch

/-!
# Opening a journal again

A writer keeps frames by the size of their data, the files by the size of their lines. Both
keep ends of what was written, and the files always reach at least as far as the last frame, so
a journal that is opened again continues the one it replaces. `Open` gives up a file at the
first line that does not fit its buffer.
-/

namespace Niflhel
namespace Journal
open Numbering

def jsonEncoding (clock : Clock) : Encoding where
  size f := (frameJson clock f).length + 1
  fits f hf := by
    have hjson : (frameJson clock f).length ≤ _ := length_frameJson hf.code
    have hkind : f.type.toList.length ≤ 6 := by
      rw [String.length_toList]
      exact hf.kind
    have hshort := hf.short
    rw [hf.message] at hjson
    simp only [String.toList_empty, List.length_nil] at hjson
    unfold chunkSize at hshort
    unfold maxLine
    omega

structure Log where
  journal : Journal := {}
  files : Files := {}
  history : List Frame := []

inductive LogEvent where
  | write (kind : String) (data : List UInt8) (time : Time)
  | reopen

def Log.step (enc : Encoding) (s : Log) : LogEvent → Log
  | .write kind b time =>
    { journal := s.journal.write kind b time
      files := s.journal.writeFiles enc s.files kind b time
      history := s.history ++ s.journal.newFrames kind b time }
  | .reopen => { s with journal := openFiles enc s.files }

def Log.run (enc : Encoding) (events : List LogEvent) : Log := events.foldl (Log.step enc) {}

/-- The writer has loaded an end of the history that reaches back as far as the files. -/
structure Log.Sound (s : Log) : Prop where
  loaded : ∃ l, Loaded l s.journal ∧ s.files.lines <:+ l ∧ l <:+ s.history
  last : s.history ≠ [] → s.files.lines ≠ []
  numbered : Consecutive number 1 s.history
  seq : s.journal.seq.toNat = s.history.length
  short : ∀ f ∈ s.history, f.data.length ≤ chunkSize

section
variable {enc : Encoding} {s : Log} {f : Frame} {fs : List Frame}

theorem store_lines_ne_nil {files : Files} : (files.store enc f).lines ≠ [] := by
  intro hnil
  have hmem : f ∈ (files.store enc f).lines := mem_store
  rw [hnil] at hmem
  cases hmem

theorem recorded {j : Journal} {files : Files} {l : List Frame} (hj : Loaded l j)
    (hfiles : files.lines <:+ l) : Loaded (l ++ fs) (fs.foldl Journal.record j) ∧
      (fs.foldl (Files.store enc) files).lines <:+ l ++ fs ∧
      (fs ≠ [] → (fs.foldl (Files.store enc) files).lines ≠ []) := by
  refine ⟨loaded_record hj, ?_, fun hne => ?_⟩
  · refine (foldl_suffix (Files.store enc) Files.lines (fun _ _ => store_suffix) files fs).trans ?_
    obtain ⟨front, rfl⟩ := hfiles
    exact ⟨front, by rw [List.append_assoc]⟩
  · obtain ⟨init, f, rfl⟩ := (List.eq_nil_or_concat' fs).resolve_left hne
    rw [List.foldl_append]
    exact store_lines_ne_nil

theorem Log.Sound.write {kind : String} {b : List UInt8} {time : Time} (h : s.Sound)
    (hroom : (s.step enc (.write kind b time)).history.length < 2 ^ 64) :
    (s.step enc (.write kind b time)).Sound := by
  obtain ⟨l, hj, hfiles, hl⟩ := h.loaded
  have hlen : s.journal.seq.toNat + (pieces b.length b).length < 2 ^ 64 := by
    change (s.history ++ s.journal.newFrames kind b time).length < 2 ^ 64 at hroom
    rw [List.length_append, newFrames, length_stamp] at hroom
    rwa [h.seq]
  have hnew : Consecutive number (s.journal.seq.toNat + 1) (s.journal.newFrames kind b time) :=
    consecutive_stamp hlen
  obtain ⟨hloaded, hlines, hlast⟩ := @recorded enc (s.journal.newFrames kind b time) _ _ l hj hfiles
  refine ⟨⟨l ++ s.journal.newFrames kind b time, hloaded, hlines, ?_⟩, fun hne => ?_, ?_, ?_, ?_⟩
  · obtain ⟨front, hfront⟩ := hl
    refine ⟨front, ?_⟩
    rw [← List.append_assoc, hfront]
    rfl
  · by_cases hnil : s.journal.newFrames kind b time = []
    · change s.history ++ s.journal.newFrames kind b time ≠ [] at hne
      change ((s.journal.newFrames kind b time).foldl (Files.store enc) s.files).lines ≠ []
      rw [hnil, List.append_nil] at hne
      rw [hnil]
      exact h.last hne
    · exact hlast hnil
  · refine consecutive_append.2 ⟨h.numbered, ?_⟩
    rwa [h.seq, Nat.add_comm] at hnew
  · change (s.journal.write kind b time).seq.toNat = _
    rw [write_seq hlen, h.seq]
    change _ = (s.history ++ s.journal.newFrames kind b time).length
    rw [List.length_append, newFrames, length_stamp]
  · intro f hf
    rcases List.mem_append.1 hf with hf | hf
    · exact h.short f hf
    · exact (mem_pieces (mem_stamp hf).2.1).2

theorem Log.Sound.opened (h : s.Sound) (hfit : ∀ f ∈ s.history, enc.size f ≤ maxLine) :
    Loaded s.files.lines (openFiles enc s.files) ∧
      (openFiles enc s.files).seq = s.journal.seq := by
  obtain ⟨l, hj, hfiles, hl⟩ := h.loaded
  have hlines : ∀ f ∈ s.files.lines, enc.size f ≤ maxLine :=
    fun f hf => hfit f ((hfiles.trans hl).subset hf)
  refine ⟨loaded_of_fits hlines, UInt64.toNat_inj.1 ?_⟩
  rw [openFiles_of_fits hlines, h.seq]
  by_cases hnil : s.files.lines = []
  · have hempty : s.history = [] := by
      by_contra hne
      exact h.last hne hnil
    rw [hnil, hempty]
    rfl
  · obtain ⟨front, hfront⟩ := hfiles.trans hl
    have hnumbered := h.numbered
    rw [← hfront] at hnumbered ⊢
    have hkept := (consecutive_append.1 hnumbered).2
    have hseq := @foldl_load_seq {} s.files.lines (1 + front.length) hkept (by
      change 0 < 1 + front.length
      omega) hnil
    rw [List.length_append]
    omega

theorem Log.Sound.reopen (h : s.Sound) (hfit : ∀ f ∈ s.history, enc.size f ≤ maxLine) :
    (s.step enc .reopen).Sound := by
  obtain ⟨l, hj, hfiles, hl⟩ := h.loaded
  obtain ⟨hloaded, hseq⟩ := h.opened hfit
  refine ⟨⟨s.files.lines, hloaded, List.suffix_rfl, hfiles.trans hl⟩, h.last, h.numbered, ?_, h.short⟩
  change (openFiles enc s.files).seq.toNat = s.history.length
  rw [hseq, h.seq]

theorem history_step (s : Log) (e : LogEvent) : s.history <+: (s.step enc e).history := by
  cases e with
  | write kind b time => exact List.prefix_append _ _
  | reopen => exact List.prefix_rfl

theorem Log.run_concat (events : List LogEvent) (e : LogEvent) :
    Log.run enc (events ++ [e]) = (Log.run enc events).step enc e := by
  rw [Log.run, List.foldl_append]
  rfl

theorem sound_run {events : List LogEvent}
    (hfit : ∀ f ∈ (Log.run enc events).history, enc.size f ≤ maxLine)
    (hroom : (Log.run enc events).history.length < 2 ^ 64) : (Log.run enc events).Sound := by
  induction events using List.reverseRecOn with
  | nil => exact ⟨⟨[], loaded_empty, List.suffix_rfl, List.suffix_rfl⟩, fun h => h, trivial, rfl, nofun⟩
  | append_singleton events e ih =>
    rw [Log.run_concat] at hfit hroom ⊢
    have hgrows := @history_step enc (Log.run enc events) e
    have hbefore : ∀ f ∈ (Log.run enc events).history, enc.size f ≤ maxLine :=
      fun f hf => hfit f (hgrows.subset hf)
    have hsound := ih hbefore (hgrows.length_le.trans_lt hroom)
    cases e with
    | write kind b time => exact hsound.write hroom
    | reopen => exact hsound.reopen hbefore

end

/-- What a journal that is opened now shares with the writer it replaces, whatever was written
and opened before: it holds an end of the writer's frames, not less than the last one, and both
continue with the same number, the one after all numbers used so far. -/
structure Log.Continues (enc : Encoding) (s : Log) : Prop where
  suffix : (openFiles enc s.files).frames <:+ s.journal.frames
  nonempty : s.journal.frames ≠ [] → (openFiles enc s.files).frames ≠ []
  writer : s.journal.frames.IsChain fun f g => number g = number f + 1
  opened : (openFiles enc s.files).frames.IsChain fun f g => number g = number f + 1
  next : (openFiles enc s.files).seq = s.journal.seq ∧ s.journal.seq.toNat = s.history.length
  fresh : Consecutive number 1 s.history

/-- Journals whose lines fit the buffer continue each other. -/
theorem reopening_continues (enc : Encoding) (events : List LogEvent)
    (hfit : ∀ f ∈ (Log.run enc events).history, enc.size f ≤ maxLine)
    (hroom : (Log.run enc events).history.length < 2 ^ 64) : (Log.run enc events).Continues enc := by
  have hsound := sound_run hfit hroom
  obtain ⟨l, hj, hfiles, hl⟩ := hsound.loaded
  obtain ⟨hloaded, hseq⟩ := hsound.opened hfit
  have hcost : ∀ f ∈ l, cost f ≤ limit := fun f hf => cost_le_of_short (hsound.short f (hl.subset hf))
  have hsuffix : (openFiles enc (Log.run enc events).files).frames <:+ (Log.run enc events).journal.frames :=
    hj.mono hloaded hfiles hcost
  have hchain : ∀ t, t <:+ (Log.run enc events).history → t.IsChain fun f g => number g = number f + 1 := by
    rintro t ⟨front, hfront⟩
    have hnumbered := hsound.numbered
    rw [← hfront] at hnumbered
    exact (consecutive_append.1 hnumbered).2.isChain
  refine ⟨hsuffix, fun hne => ?_, hchain _ (hj.suffix.trans hl), hchain _ (hsuffix.trans (hj.suffix.trans hl)),
    ⟨hseq, hsound.seq⟩, hsound.numbered⟩
  -- The last frame is in the files.
  have hhistory : (Log.run enc events).history ≠ [] := by
    intro hnil
    rw [hnil, List.suffix_nil] at hl
    rw [hl] at hj
    exact hne (List.suffix_nil.1 hj.suffix)
  exact hloaded.ne_nil (hsound.last hhistory) fun f hf => hcost f (hfiles.subset hf)

/-- Two writes and an opening between them. -/
theorem reopening_continues_two :
    (Log.run lineEncoding [.write "stdout" [1] 0, .reopen, .write "stderr" [2, 3] 0]).Continues
      lineEncoding :=
  reopening_continues lineEncoding [.write "stdout" [1] 0, .reopen, .write "stderr" [2, 3] 0]
    (by decide +kernel) (by decide +kernel)

def longKind : String := String.ofList (List.replicate maxLine 'a')

/-- A line that does not fit the buffer is lost, whatever the clock prints. -/
theorem long_line_lost (clock : Clock) :
    (Log.run (jsonEncoding clock) [.write longKind [7] 0]).journal.frames ≠ [] ∧
      (Log.run (jsonEncoding clock) [.write longKind [7] 0]).journal.seq = 1 ∧
      (openFiles (jsonEncoding clock)
        (Log.run (jsonEncoding clock) [.write longKind [7] 0]).files).frames = [] ∧
      (openFiles (jsonEncoding clock)
        (Log.run (jsonEncoding clock) [.write longKind [7] 0]).files).seq = 0 := by
  have hnew : ({} : Journal).newFrames longKind [7] 0 = [{ type := longKind, data := [7], sequence := 1 }] :=
    rfl
  have hlong : ¬ (jsonEncoding clock).size { type := longKind, data := [7], sequence := 1 } ≤ maxLine := by
    have hvalue : (JsonText.utf8 (JsonText.text longKind)).length ≤
        (frameJson clock { type := longKind, data := [7], sequence := 1 }).length :=
      JsonText.le_length_object (f := ("Type", JsonText.utf8 (JsonText.text longKind))) List.mem_cons_self
    have hkind : maxLine ≤ (JsonText.utf8 (JsonText.text longKind)).length := by
      have hle := JsonText.le_length_text longKind
      rwa [longKind, String.toList_ofList, List.length_replicate] at hle
    change ¬ (frameJson clock _).length + 1 ≤ maxLine
    omega
  have hjournal : (Log.run (jsonEncoding clock) [.write longKind [7] 0]).journal =
      ({} : Journal).record { type := longKind, data := [7], sequence := 1 } := rfl
  have hfiles : (Log.run (jsonEncoding clock) [.write longKind [7] 0]).files =
      ⟨[], [{ type := longKind, data := [7], sequence := 1 }]⟩ := rfl
  have hopen : openFiles (jsonEncoding clock)
      (Log.run (jsonEncoding clock) [.write longKind [7] 0]).files = {} := by
    rw [hfiles]
    unfold openFiles scan
    rw [List.takeWhile_nil, List.takeWhile_cons_of_neg (by simpa using hlong)]
    rfl
  rw [hopen, hjournal]
  exact ⟨by simp [record, append, evict], rfl, rfl, rfl⟩

/-- A line that does not fit the buffer: the journal opened after it is empty and numbers its
frames from one again. -/
theorem long_line_reuses_number :
    (Log.run (jsonEncoding zeroClock) [.write longKind [7] 0]).journal.frames ≠ [] ∧
      (Log.run (jsonEncoding zeroClock) [.write longKind [7] 0]).journal.seq = 1 ∧
      (openFiles (jsonEncoding zeroClock)
        (Log.run (jsonEncoding zeroClock) [.write longKind [7] 0]).files).frames = [] ∧
      (openFiles (jsonEncoding zeroClock)
        (Log.run (jsonEncoding zeroClock) [.write longKind [7] 0]).files).seq = 0 :=
  long_line_lost zeroClock

end Journal
end Niflhel

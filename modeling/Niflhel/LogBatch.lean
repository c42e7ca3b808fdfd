import Mathlib.Algebra.Order.BigOperators.Group.List
import Niflhel.JsonText
import Niflhel.Paging
import Niflhel.Relay

/-!
# The size of a batch of frames

A batch travels as one JSON response, of which the client decodes the first 16 MiB. `Read` stops
after 256 KiB of data, but frames may be tiny; what bounds a batch is the memory of the journal,
which counts 128 bytes for each frame: the encoding of a frame is at most one and a half times
what the journal counts for it.
-/

namespace Niflhel
namespace Journal
open JsonText

/-- `Time.MarshalJSON`: a quoted RFC 3339 text in UTC with at most nine decimals. -/
structure Clock where
  text : Time → List UInt8
  short : ∀ t, (text t).length ≤ 32

def zeroClock : Clock := ⟨fun _ => utf8 "\"0001-01-01T00:00:00Z\"".toList, fun _ => by decide +kernel⟩

variable (clock : Clock)

def frameJson (f : Frame) : List UInt8 :=
  object [("Type", utf8 (JsonText.text f.type)), ("Data", utf8 (JsonText.bytes f.data)),
    ("Message", utf8 (JsonText.text f.message)),
    ("Code", utf8 (match f.code with
      | none => "null".toList
      | some n => integer n)),
    ("Width", utf8 (natural f.width.toNat)), ("Height", utf8 (natural f.height.toNat)),
    ("Sequence", utf8 (natural f.sequence.toNat)), ("Time", clock.text f.time)]

example : frameJson zeroClock { type := "stdout", data := [104, 105], sequence := 1 } =
    utf8 ("\x7b\"Type\":\"stdout\",\"Data\":\"aGk=\",\"Message\":\"\",\"Code\":null,\"Width\":0," ++
      "\"Height\":0,\"Sequence\":1,\"Time\":\"0001-01-01T00:00:00Z\"\x7d").toList := by
  decide +kernel

def batchJson (fs : List Frame) : List UInt8 := JsonText.list (fs.map (frameJson clock)) ++ [10]

/-- What `Client.Call` is willing to decode. -/
def responseLimit : ℕ := 16 * Relay.maxFrame

section
variable {clock} {f : Frame} {fs : List Frame}

theorem length_frameJson (hcode : f.code = none) : (frameJson clock f).length ≤
    6 * (f.type.toList.length + f.message.toList.length) + (f.data.length + 2) / 3 * 4 + 151 := by
  have htype := length_text f.type
  have hdata := length_bytes f.data
  have hmessage := length_text f.message
  have hwidth : (utf8 (natural f.width.toNat)).length ≤ 5 :=
    length_natural (by decide) (f.width.toNat_lt.trans (by decide))
  have hheight : (utf8 (natural f.height.toNat)).length ≤ 5 :=
    length_natural (by decide) (f.height.toNat_lt.trans (by decide))
  have hsequence : (utf8 (natural f.sequence.toNat)).length ≤ 20 :=
    length_natural (by decide) (f.sequence.toNat_lt.trans (by decide))
  have htime := clock.short f.time
  have hnull : (utf8 "null".toList).length = 4 := by decide +kernel
  have hkeys : (utf8 (JsonText.text "Type")).length = 6 ∧ (utf8 (JsonText.text "Data")).length = 6 ∧
      (utf8 (JsonText.text "Message")).length = 9 ∧ (utf8 (JsonText.text "Code")).length = 6 ∧
      (utf8 (JsonText.text "Width")).length = 7 ∧ (utf8 (JsonText.text "Height")).length = 8 ∧
      (utf8 (JsonText.text "Sequence")).length = 10 ∧ (utf8 (JsonText.text "Time")).length = 6 := by
    decide +kernel
  have hobject : (frameJson clock f).length ≤ _ := length_object _
  simp only [hcode, List.map_cons, List.map_nil, List.sum_cons, List.sum_nil, hkeys, hnull] at hobject
  omega

/-- A frame is encoded in one and a half times what the journal counts for it. -/
theorem length_frameJson_le_cost (hw : Written f) : 2 * ((frameJson clock f).length + 1) ≤ 3 * cost f := by
  have hjson : (frameJson clock f).length ≤ _ := length_frameJson hw.code
  have htype : f.type.toList.length ≤ 6 := by
    exact hw.kind
  rw [hw.message] at hjson
  unfold cost
  simp only [String.toList_empty, List.length_nil] at hjson
  omega

theorem sum_frameJson_le (hw : ∀ f ∈ fs, Written f) :
    2 * (fs.map fun f => (frameJson clock f).length + 1).sum ≤ 3 * (fs.map cost).sum := by
  induction fs with
  | nil => exact le_rfl
  | cons f fs ih =>
    have hf : 2 * ((frameJson clock f).length + 1) ≤ 3 * cost f :=
      length_frameJson_le_cost (hw f List.mem_cons_self)
    have hfs := ih fun g hg => hw g (List.mem_cons_of_mem f hg)
    simp only [List.map_cons, List.sum_cons]
    omega

theorem length_gapJson (first : UInt64) : (frameJson clock (gap first)).length ≤ 400 := by
  have hjson : (frameJson clock (gap first)).length ≤ _ := length_frameJson rfl
  have htype : (gap first).type.toList.length = 3 := by
    change "gap".toList.length = 3
    decide
  have hmessage : (gap first).message.toList.length = 35 := by
    change gapMessage.toList.length = 35
    decide
  have hdata : (gap first).data.length = 0 := rfl
  omega

theorem read_le (j : Journal) (after : UInt64) :
    ((j.read after).map fun f => (frameJson clock f).length + 1).sum ≤
      401 + ((collect after 0 j.frames).map fun f => (frameJson clock f).length + 1).sum := by
  unfold read
  rw [List.map_append, List.sum_append]
  refine Nat.add_le_add_right ?_ _
  split
  · rename_i f rest hframes
    have hgap : (frameJson clock (gap f.sequence)).length ≤ 400 := length_gapJson f.sequence
    split
    · rw [List.map_singleton, List.sum_singleton]
      omega
    · exact Nat.zero_le _
  · exact Nat.zero_le _

/-- A batch of a journal within its limit is far below what the client decodes. -/
theorem length_batchJson_lt {l : List Frame} {j : Journal} (hj : Loaded l j)
    (hw : ∀ f ∈ l, Written f) (after : UInt64) :
    (batchJson clock (j.read after)).length < responseLimit := by
  have hlist := length_list ((j.read after).map (frameJson clock))
  rw [List.map_map] at hlist
  have hread : ((j.read after).map fun f => (frameJson clock f).length + 1).sum ≤ _ := read_le j after
  have hkept : ∀ f ∈ collect after 0 j.frames, Written f :=
    fun f hf => hw f (hj.suffix.subset (mem_collect hf).1)
  have hbatch : 2 * ((collect after 0 j.frames).map fun f => (frameJson clock f).length + 1).sum ≤ _ :=
    sum_frameJson_le hkept
  have hsub : (collect after 0 j.frames).Sublist j.frames :=
    collect_prefix.sublist.trans List.filter_sublist
  have hcost : ((collect after 0 j.frames).map cost).sum ≤ (j.frames.map cost).sum :=
    (hsub.map cost).sum_le_sum fun _ _ => Nat.zero_le _
  have hlimit := hj.fits fun f hf => cost_le_limit (hw f hf)
  unfold limit at hlimit
  unfold responseLimit Relay.maxFrame
  rw [batchJson, List.length_append, List.length_singleton]
  change _ ≤ ((j.read after).map fun f => (frameJson clock f).length + 1).sum + 2 at hlist
  omega

end

def logKinds : List String := ["stdout", "stderr", "gap"]

/-- Whatever was written, a batch fits the response. -/
theorem batches_fit (calls : List WriteCall) (hkinds : ∀ c ∈ calls, c.kind ∈ logKinds)
    (after : UInt64) :
    (batchJson clock ((afterCalls {} calls).read after)).length < responseLimit := by
  have hshort : ∀ c ∈ calls, c.kind.length ≤ 6 := by
    intro c hc
    have hkind := hkinds c hc
    simp only [logKinds, List.mem_cons, List.not_mem_nil, or_false] at hkind
    rcases hkind with hkind | hkind | hkind <;> rw [hkind] <;> decide
  exact length_batchJson_lt loaded_afterCalls (fun f hf => written_logged hshort hf) after

/-- A line of output and a gap. -/
theorem batches_fit_lines : (batchJson zeroClock ((afterCalls {}
      [⟨"stdout", [104, 105, 10], 0, none⟩, ⟨"gap", [7], 0, none⟩]).read 0)).length < responseLimit :=
  batches_fit zeroClock [⟨"stdout", [104, 105, 10], 0, none⟩, ⟨"gap", [7], 0, none⟩] (by decide) 0

end Journal
end Niflhel

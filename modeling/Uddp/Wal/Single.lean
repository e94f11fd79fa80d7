import Uddp.Wal.Readers
import Uddp.Wal.Rounds
import Uddp.Wal.Sizes

/-!
# Callers one at a time

A caller of `Append` that comes when nobody leads, and whose I/O succeeds, leads one round and returns its position.

* `Flushed w` : nothing has failed and nothing waits in the buffer;
* `SingleRound` : what its record does to the buffer and to the file;
* `append_single` : `WAL.append`; `Extended w rs w'` : what several of them do, with `append_extended` and `Extended.trans`;
* `enter_single`, `syncEnd_single`, `post_single` : its steps in the machine; **`round_single`** : all of them.
-/

namespace Uddp.Wal
open Uddp.Lib

/-- Nothing has failed, and everything that was taken is in the file. -/
structure Flushed (w : WAL) : Prop where
  err : w.out.err = none
  buf : w.out.buf = []
  opened : w.out.file.closed = false

theorem Holds.flushed {w : WAL} {rs : List Record} (h : Holds w rs) : Flushed w := ⟨h.err, h.buf, h.opened⟩

theorem buffer_ok {w : WAL} (he : w.out.err = none) (hc : w.out.file.closed = false) (rec : Record) :
    ∃ o, o.err = none ∧ o.file.closed = false ∧
      w.buffer rec (none, none) (none, none) = (.ok (w.next, w.pendingSeq + 1), w.taken rec o) := by
  obtain ⟨o, ho, hcases⟩ := w.buffer_spec rec (none, none) (none, none)
  rcases hcases with ⟨e, -, hbuf⟩ | ⟨herr, hbuf⟩
  · -- neither write can fail
    exfalso
    obtain ⟨h₁, h₂, -⟩ := BufferedFile.write_write_ok w.out (putUint32 (UInt32.ofNat (body (stamp rec w.next)).length))
      (body (stamp rec w.next)) he hc
    unfold WAL.buffer at hbuf
    simp only [h₁, h₂] at hbuf
    rcases hbuf with hbuf | hbuf
    · cases hbuf
    · cases hbuf
  · exact ⟨o, herr, ho.closed.trans hc, hbuf⟩

/-- The record goes through the buffer, which is `taken` then, to the file, and `flushed` is what is left. -/
structure SingleRound (w : WAL) (rec : Record) (taken flushed : BufferedFile) : Prop where
  buffer : w.buffer rec (none, none) (none, none) = (.ok (w.next, w.pendingSeq + 1), w.taken rec taken)
  flush : ({ w.taken rec taken with leading := true } : WAL).flushRound none =
    (none, { w.taken rec flushed with leading := true })
  err : flushed.err = none
  buf : flushed.buf = []
  opened : flushed.file.closed = false

theorem exists_singleRound {w : WAL} (h : Flushed w) (rec : Record) : ∃ taken flushed, SingleRound w rec taken flushed := by
  obtain ⟨o, herr, hclosed, hbuf⟩ := buffer_ok h.err h.opened rec
  have hflush := BufferedFile.flush_ok o herr hclosed
  refine ⟨o, o.flush none, hbuf, ?_, hflush, BufferedFile.flush_buf o none hflush,
    (o.flush_handed none).closed.trans hclosed⟩
  have hout : (w.taken rec o).out = o := rfl
  unfold WAL.flushRound
  simp only [hout, hflush]
  rfl

/-- **`Append`** by a caller that is alone. -/
theorem append_single {w : WAL} {rec : Record} {taken flushed : BufferedFile} (h : SingleRound w rec taken flushed) :
    w.append rec AppendIO.ok = (.ok w.next, { w.taken rec flushed with
      out := { flushed with file := syncedTo flushed.file flushed.file.data.length }
      flushedSeq := w.pendingSeq + 1, flushErr := none, leading := false }) := by
  have hsync : flushed.file.sync none = (syncedTo flushed.file flushed.file.data.length, none) := by
    rw [← syncedTo_all flushed.file h.opened]
    simp [File.sync, h.opened]
  have hout : ({ w.taken rec flushed with leading := true } : WAL).out = flushed := rfl
  unfold WAL.append AppendIO.ok
  simp only [h.buffer, h.flush]
  rw [hout, hsync]
  unfold WAL.postSync
  simp only [if_true]
  rfl

/-! ## One record after the other -/

/-- The log `w'` is `w` with the records `rs` behind its own. -/
structure Extended (w : WAL) (rs : List Record) (w' : WAL) : Prop where
  flushed : Flushed w'
  data : w'.out.file.data = w.out.file.data ++ frames rs
  next : w'.next = w.next + UInt64.ofNat rs.length
  byteOffsets : w'.byteOffsets = w.byteOffsets ++ offsetsFrom w.writeOffset rs
  writeOffset : w'.writeOffset = w.writeOffset + (frames rs).length
  stamped : Stamped w.next rs

theorem Extended.refl {w : WAL} (h : Flushed w) : Extended w [] w :=
  ⟨h, by simp, by simp, by simp [offsetsFrom], by simp, trivial⟩

theorem Extended.trans {w w' w'' : WAL} {rs ss : List Record} (h : Extended w rs w') (h' : Extended w' ss w'') :
    Extended w (rs ++ ss) w'' := by
  refine ⟨h'.flushed, ?_, ?_, ?_, ?_, ?_⟩
  · rw [h'.data, h.data, frames_append, List.append_assoc]
  · rw [h'.next, h.next, List.length_append, UInt64.ofNat_add, UInt64.add_assoc]
  · rw [h'.byteOffsets, h.byteOffsets, h.writeOffset, offsetsFrom_append, List.append_assoc]
  · rw [h'.writeOffset, h.writeOffset, frames_append, List.length_append, Nat.add_assoc]
  · exact (stamped_append w.next rs ss).mpr ⟨h.stamped, h.next ▸ h'.stamped⟩

theorem append_extended {w : WAL} (h : Flushed w) (rec : Record) :
    ∃ w', w.append rec AppendIO.ok = (.ok w.next, w') ∧ Extended w [stamp rec w.next] w' := by
  obtain ⟨taken, flushed, hround⟩ := exists_singleRound h rec
  have happ := append_single hround
  have hdata := (append_data happ).2
  rw [h.buf, List.append_nil] at hdata
  refine ⟨_, happ, ⟨hround.err, hround.buf, hround.opened⟩, by rw [hdata, frames_singleton], rfl, rfl, ?_, rfl, trivial⟩
  rw [frames_singleton]
  rfl

theorem Extended.whole {w w' : WAL} {rs ss : List Record} (h : Extended w ss w') (hw : Holds w rs) :
    w'.out.file.data = logBytes (rs ++ ss) ∧ w'.byteOffsets = offsetsFrom headerSize (rs ++ ss) := by
  refine ⟨?_, ?_⟩
  · rw [h.data, hw.data, logBytes, logBytes, frames_append, List.append_assoc]
  · rw [h.byteOffsets, hw.byteOffsets, hw.writeOffset, offsetsFrom_append, logBytes, List.length_append, length_header]

/-! ## Through the machine -/

section Single
variable {ι : Type} [DecidableEq ι] {s : Group ι} {rec : Record} {taken flushed : BufferedFile}

theorem enter_single (h : SingleRound s.w rec taken flushed) (hquiet : s.w.leading = false) (i : ι) :
    s.enter i rec (none, none) (none, none) none =
      { s with w := { s.w.taken rec flushed with leading := true }
               arrivals := s.arrivals ++ [(i, stamp rec s.w.next)] }.goto i
        (.flushed s.w.next (s.w.pendingSeq + 1) (s.w.pendingSeq + 1)) := by
  have hleading : (s.w.taken rec taken).leading = false := hquiet
  unfold Group.enter
  simp only [h.buffer, hleading, Bool.false_eq_true, if_false]
  unfold Group.lead
  simp only [h.flush]
  rfl

theorem syncEnd_single (h : Flushed s.w) (i : ι) (position : UInt64) (mySeq flushSeq begun : Nat) :
    s.syncEnd i position mySeq flushSeq begun none =
      { s with w := { s.w with out := { s.w.out with file := syncedTo s.w.out.file begun } }
               syncs := s.syncs ++ [begun] }.goto i (.synced position mySeq flushSeq none) := by
  unfold Group.syncEnd
  rw [h.opened]
  rfl

theorem post_single {flushSeq : Nat} (h : s.w.pendingSeq = flushSeq) (i : ι) (position : UInt64) (mySeq : Nat) :
    s.post i position mySeq flushSeq none none =
      { s with w := { s.w with flushedSeq := flushSeq, flushErr := none, leading := false } }.goto i
        (.returned (.ok position)) := by
  unfold Group.post WAL.postSync
  simp only [if_pos h]

/-- **A caller that is alone** goes through the machine, and leaves the log as `Append` does. -/
theorem round_single (h : SingleRound s.w rec taken flushed) (hquiet : s.w.leading = false) {i : ι} (hidle : s.phase i = .idle) :
    ∃ g₁ g₂ g₃ g₄, s.step (.enter i rec (none, none) (none, none) none) = some g₁ ∧ g₁.step (.syncBegin i) = some g₂ ∧
      g₂.step (.syncEnd i none) = some g₃ ∧ g₃.step (.post i none) = some g₄ ∧ g₄.phase i = .returned (.ok s.w.next) ∧
      g₄.w = (s.w.append rec AppendIO.ok).2 := by
  obtain ⟨g₁, hg₁⟩ : ∃ g₁, g₁ = s.enter i rec (none, none) (none, none) none := ⟨_, rfl⟩
  have henter : s.step (.enter i rec (none, none) (none, none) none) = some g₁ := by
    simp only [Group.step, hidle, hg₁]
  rw [enter_single h hquiet] at hg₁
  have hphase₁ : g₁.phase i = .flushed s.w.next (s.w.pendingSeq + 1) (s.w.pendingSeq + 1) := by rw [hg₁, goto_self]
  have hw₁ : g₁.w = { s.w.taken rec flushed with leading := true } := by rw [hg₁]; rfl
  obtain ⟨g₂, hg₂⟩ : ∃ g₂, g₂ = g₁.goto i (.syncing s.w.next (s.w.pendingSeq + 1) (s.w.pendingSeq + 1)
    g₁.w.out.file.data.length) := ⟨_, rfl⟩
  have hbegin : g₁.step (.syncBegin i) = some g₂ := by simp only [Group.step, hphase₁, hg₂]
  have hphase₂ : g₂.phase i = .syncing s.w.next (s.w.pendingSeq + 1) (s.w.pendingSeq + 1) g₁.w.out.file.data.length := by
    rw [hg₂, goto_self]
  have hw₂ : g₂.w = { s.w.taken rec flushed with leading := true } := by rw [hg₂, ← hw₁]; rfl
  have hflushed : Flushed g₂.w := by
    rw [hw₂]
    exact ⟨h.err, h.buf, h.opened⟩
  obtain ⟨g₃, hg₃⟩ : ∃ g₃, g₃ = g₂.syncEnd i s.w.next (s.w.pendingSeq + 1) (s.w.pendingSeq + 1)
    g₁.w.out.file.data.length none := ⟨_, rfl⟩
  have hend : g₂.step (.syncEnd i none) = some g₃ := by simp only [Group.step, hphase₂, hg₃]
  rw [syncEnd_single hflushed] at hg₃
  have hphase₃ : g₃.phase i = .synced s.w.next (s.w.pendingSeq + 1) (s.w.pendingSeq + 1) none := by rw [hg₃, goto_self]
  have hseq₃ : g₃.w.pendingSeq = s.w.pendingSeq + 1 := by
    rw [hg₃]
    show g₂.w.pendingSeq = _
    rw [hw₂]
    rfl
  obtain ⟨g₄, hg₄⟩ : ∃ g₄, g₄ = g₃.post i s.w.next (s.w.pendingSeq + 1) (s.w.pendingSeq + 1) none none := ⟨_, rfl⟩
  have hpost : g₃.step (.post i none) = some g₄ := by simp only [Group.step, hphase₃, hg₄]
  rw [post_single hseq₃] at hg₄
  refine ⟨g₁, g₂, g₃, g₄, henter, hbegin, hend, hpost, by rw [hg₄, goto_self], ?_⟩
  rw [append_single h, hg₄, hg₃]
  show ({ g₂.w with
    out := { g₂.w.out with file := syncedTo g₂.w.out.file g₁.w.out.file.data.length }, flushedSeq := s.w.pendingSeq + 1,
    flushErr := none, leading := false } : WAL) = _
  rw [hw₂, hw₁]
  rfl

end Single

end Uddp.Wal

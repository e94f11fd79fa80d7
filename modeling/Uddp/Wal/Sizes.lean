import Uddp.Wal.Cut

/-!
# The size of a record

The length of a record goes through `uint32` twice: into the length field of its frame, and out of it into the size that
`recover_` adds to its offset.

* `append_data` : what a successful `Append` leaves in the file;
* **`append_readable_iff`** : what it wrote is read back, with its size, exactly when the frame is shorter than `2 ^ 32`;
* `open_wrapped` : a frame of `2 ^ 32` bytes counts as none, and the next record gets its offset.
-/

namespace Uddp.Wal
open Uddp.Lib

theorem append_data {w w' : WAL} {rec : Record} {io : AppendIO} {position : UInt64}
    (h : w.append rec io = (.ok position, w')) :
    position = w.next ∧ w'.out.file.data = w.out.file.data ++ w.out.buf ++ frame (stamp rec w.next) := by
  obtain ⟨o₁, hh₁, hbuf⟩ := w.buffer_spec rec io.lenWrite io.bodyWrite
  unfold WAL.append at h
  rcases hbuf with ⟨e, -, hbuf | hbuf⟩ | ⟨he₁, hbuf⟩
  · rw [hbuf] at h
    cases h
  · rw [hbuf] at h
    cases h
  rw [hbuf] at h
  dsimp only at h
  obtain ⟨w₁, hw₁⟩ : ∃ w₁, w₁ = { w with
      next := w.next + 1, out := o₁, writeOffset := w.writeOffset + (frame (stamp rec w.next)).length
      byteOffsets := w.byteOffsets ++ [w.writeOffset], pendingSeq := w.pendingSeq + 1, leading := true } := ⟨_, rfl⟩
  rw [← hw₁] at h
  obtain ⟨o₂, hh₂, hflush⟩ := w₁.flushRound_spec io.flush
  have hout : w₁.out = o₁ := by rw [hw₁]
  rcases hflush with ⟨e, -, hflush⟩ | ⟨he₂, hbuf₂, hflush⟩
  · rw [hflush] at h
    cases h
  · have hdata : o₂.file.data = w.out.file.data ++ w.out.buf ++ frame (stamp rec w.next) := by
      have hstream := (hh₁.trans (hout ▸ hh₂) he₁).stream he₂
      rwa [hbuf₂, List.append_nil, List.append_nil] at hstream
    rw [hflush] at h
    dsimp only at h
    -- neither the fsync nor what the leader does after it touches the bytes
    have hsync : (o₂.file.sync io.sync).1.data = o₂.file.data := by
      unfold File.sync
      split
      · rfl
      · split <;> rfl
    unfold WAL.postSync at h
    cases hs : (o₂.file.sync io.sync).2 with
    | some e =>
        rw [hs] at h
        cases h
    | none =>
        simp only [hs, if_true, Prod.mk.injEq, Except.ok.injEq] at h
        obtain ⟨rfl, rfl⟩ := h
        exact ⟨rfl, hsync.trans hdata⟩

/-- The size that a record is read with has gone through `uint32`. -/
theorem readRecord_size_lt {r rest : Bytes} {rec : Record} {n : Nat} (h : readRecord r = .record rec n rest) : n < 2 ^ 32 := by
  unfold readRecord at h
  split_ifs at h
  dsimp only at h
  split_ifs at h
  split at h
  · cases h
  · injection h with _ hn _
    rw [← hn]
    exact UInt32.toNat_lt _

/-- **Reading back what was written.** After a successful `Append`, whatever state the log was in: `readRecord` on the bytes it
wrote returns the record, leaves what is behind them and reports their number, exactly when there are fewer than `2 ^ 32`. -/
theorem append_readable_iff {w w' : WAL} {rec : Record} {io : AppendIO} {position : UInt64}
    (h : w.append rec io = (.ok position, w')) :
    ∃ written, w'.out.file.data = w.out.file.data ++ w.out.buf ++ written ∧ ∀ rest,
      (readRecord (written ++ rest) = .record (stamp rec position) written.length rest ↔
        37 + rec.key.length + rec.value.length + rec.idempotencyKey.length < 2 ^ 32) := by
  obtain ⟨rfl, hdata⟩ := append_data h
  refine ⟨frame (stamp rec w.next), hdata, fun rest => ?_⟩
  have hlen : (frame (stamp rec w.next)).length =
      37 + rec.key.length + rec.value.length + rec.idempotencyKey.length := by
    rw [length_frame_stamp, length_frame, length_body, length_encodePayload]
    omega
  rw [← hlen]
  exact ⟨readRecord_size_lt, fun hfit => readRecord_frame hfit rest⟩

/-- A first record of a few bytes. -/
theorem append_readable_first : ∃ w, freshWAL.append putA AppendIO.ok = (.ok 1, w) ∧
    ∀ rest, readRecord (w.out.file.data.drop headerSize ++ rest) = .record (stamp putA 1) 39 rest := by
  obtain ⟨w, happ, -⟩ := append_ok freshWAL_holds putA
  obtain ⟨written, hdata, hread⟩ := append_readable_iff happ
  refine ⟨w, happ, fun rest => ?_⟩
  have hwritten : w.out.file.data.drop headerSize = written := by rw [hdata]; rfl
  have hback := (hread rest).mpr (by decide)
  have hlen : written.length = 39 := by
    obtain ⟨-, hframe⟩ := append_data happ
    rw [hframe] at hdata
    rw [← List.append_cancel_left hdata]
    decide
  rw [hwritten, hback, hlen]
  rfl

/-- The reader adds nothing to its offset for a frame of `2 ^ 32` bytes: the record behind it is indexed at the same place,
and a read from the second position on returns the first record. -/
theorem open_wrapped {r₁ r₂ : Record} (h₁ : (frame r₁).length = 2 ^ 32) (h₂ : Fits r₂) (hst : Stamped 1 [r₁, r₂])
    {σ : Type} {replay : σ → Record → Except String σ} {apply : σ → Record → σ}
    (hreplay : ∀ st rec, replay st rec = .ok (apply st rec)) (st : σ) (f : File) (hf : f.data = logBytes [r₁, r₂])
    (hc : f.closed = false) :
    ∃ w, openFile replay st f = (.ok (apply (apply st r₁) r₂, w), f) ∧ w.byteOffsets = [headerSize, headerSize] ∧
      w.readRange 2 1 = ([r₁], none) := by
  obtain ⟨hp₁, hp₂, -⟩ := hst
  have hread₁ : readRecord (frame r₁ ++ frame r₂) = .record r₁ 0 (frame r₂) := by
    rw [readRecord_frame_mod (by rw [length_frame] at h₁; omega), h₁, Nat.mod_self]
  have hread₂ : readRecord (frame r₂) = .record r₂ (frame r₂).length [] := by
    have := readRecord_frame h₂ []
    rwa [List.append_nil] at this
  have hhdr : f.data = header ++ (frame r₁ ++ frame r₂) := by
    rw [hf, logBytes, frames_cons, frames_singleton]
  have hdrop : f.data.drop headerSize = frame r₁ ++ frame r₂ := by rw [hhdr, ← length_header, List.drop_left]
  have hscan : recoverFrom replay st 1 headerSize [] (frame r₁ ++ frame r₂) =
      .ok ⟨apply (apply st r₁) r₂, 1 + 1 + 1, [headerSize, headerSize], none⟩ := by
    have hscan₁ := recoverFrom_record (hreplay st r₁) hread₁ headerSize []
    have hscan₂ := recoverFrom_record (hreplay (apply st r₁) r₂) hread₂ (headerSize + 0) [headerSize]
    rw [hp₁] at hscan₁
    rw [hp₂] at hscan₂
    rw [hscan₁, List.nil_append, hscan₂, recoverFrom_tail replay (Or.inl rfl)]
    rfl
  obtain ⟨w, hopen, hoffs, hfile⟩ : ∃ w, openFile replay st f = (.ok (apply (apply st r₁) r₂, w), f) ∧
      w.byteOffsets = [headerSize, headerSize] ∧ w.out.file = f := by
    unfold openFile
    simp only [ensureHeader_header f hhdr, hdrop, hscan, truncateTorn]
    exact ⟨_, rfl, rfl, rfl⟩
  refine ⟨w, hopen, hoffs, ?_⟩
  unfold WAL.readRange
  rw [hoffs, hfile, if_neg (by decide)]
  show (if f.closed = true then _ else readUpTo 1 2 (f.data.drop headerSize)) = _
  rw [hc, hdrop]
  simp only [Bool.false_eq_true, if_false, readUpTo, hread₁]

/-- A value whose frame, under a key of one byte, has `2 ^ 32` bytes. -/
def longValue : Bytes := List.replicate (2 ^ 32 - 38) 0

def longPut : Record :=
  { commitPosition := 0, kind := KindPut, key := [0x6b], value := longValue, expiresAtUnixNano := 0, idempotencyKey := [] }

theorem length_frame_longPut : (frame longPut).length = 2 ^ 32 := by
  have hvalue : longPut.value.length = 2 ^ 32 - 38 := List.length_replicate
  rw [length_frame, length_body, length_encodePayload, hvalue]
  rfl

/-- The long value and a short one are written and acknowledged. The first is read back with the size zero; after a restart,
a read from position 2 on returns the record of position 1. -/
theorem long_value_wraps : ∃ w₁ w₂ w₃, freshWAL.append longPut AppendIO.ok = (.ok 1, w₁) ∧
    w₁.append putB AppendIO.ok = (.ok 2, w₂) ∧
    readRecord (w₁.out.file.data.drop headerSize) = .record (stamp longPut 1) 0 [] ∧
    openFile collect [] w₂.out.file = (.ok ([stamp longPut 1, stamp putB 2], w₃), w₂.out.file) ∧
    w₃.readRange 2 1 = ([stamp longPut 1], none) := by
  obtain ⟨w₁, happ₁, hw₁, -⟩ := append_ok freshWAL_holds longPut
  obtain ⟨w₂, happ₂, hw₂, -⟩ := append_ok hw₁ putB
  have hnext : w₁.next = 2 := hw₁.next
  rw [hnext] at happ₂ hw₂
  have hlen : (frame (stamp longPut 1)).length = 2 ^ 32 := by rw [length_frame_stamp, length_frame_longPut]
  obtain ⟨w₃, hopen, -, hread⟩ := open_wrapped hlen (fits_stamp (by decide : Fits putB) 2) ⟨rfl, rfl, trivial⟩ collect_ok []
    w₂.out.file hw₂.data hw₂.opened
  refine ⟨w₁, w₂, w₃, happ₁, happ₂, ?_, hopen, hread⟩
  have hfile : w₁.out.file.data.drop headerSize = frame (stamp longPut 1) ++ [] := by
    rw [hw₁.data, List.nil_append, logBytes, frames_singleton, ← length_header, List.drop_left, List.append_nil]
    rfl
  rw [hfile, readRecord_frame_mod (by rw [length_frame] at hlen; omega), hlen, Nat.mod_self]

end Uddp.Wal

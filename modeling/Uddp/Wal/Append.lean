import Uddp.Wal.Open

/-!
# Appending to a log, and reading a range of it

`Append` is cut at its lock boundaries: `buffer` (a position and a sequence number under the lock),
`flushRound` (the leader's flush), `postSync` (what the leader does with the result of its fsync). A caller
that is alone runs them one after the other (`append`); the concurrent callers of
`Uddp.Wal.GroupCommit` interleave them.

* `Holds w rs` (from `Uddp.Wal.Open`) : the log holds `rs` and works;
* `Broken w rs` : a write or a flush has failed; the file holds `rs` and a proper part of one more frame;
* **`append_cases`** : every way one `Append` can end, from either state;
* **`readRange_log`** : what `ReadRange` finds in whole records and a torn rest.
-/

namespace Uddp.Wal
open Uddp.Lib

/-! ## The critical sections of `Append` -/

/-- What the operating system does to one `Append`: to the writes behind its two buffered writes, to the
write of its flush, and to its fsync. -/
structure AppendIO where
  lenWrite : WriteFault × WriteFault
  bodyWrite : WriteFault × WriteFault
  flush : WriteFault
  sync : Option String
  deriving DecidableEq, Repr

/-- Nothing fails. -/
def AppendIO.ok : AppendIO := ⟨(none, none), (none, none), none, none⟩

/-- The record with the position that `Append` gives it. -/
def stamp (rec : Record) (position : UInt64) : Record := { rec with commitPosition := position }

namespace WAL

/-- Lines 329 to 354 of `Append`: the position is taken even when a write fails. -/
def buffer (w : WAL) (rec : Record) (lenWrite bodyWrite : WriteFault × WriteFault) :
    Except AppendError (UInt64 × Nat) × WAL :=
  let r := stamp rec w.next
  let w := { w with next := w.next + 1 }
  let body := body r
  let recordOffset := w.writeOffset
  let w := { w with out := w.out.write (putUint32 (UInt32.ofNat body.length)) lenWrite }
  match w.out.err with
  | some e => (.error (.writeLength e), w)
  | none =>
      let w := { w with out := w.out.write body bodyWrite }
      match w.out.err with
      | some e => (.error (.writeBody e), w)
      | none =>
          let w := { w with writeOffset := w.writeOffset + 4 + body.length
                            byteOffsets := w.byteOffsets ++ [recordOffset], pendingSeq := w.pendingSeq + 1 }
          (.ok (r.commitPosition, w.pendingSeq), w)

/-- The leader's flush: a failure releases every waiter. -/
def flushRound (w : WAL) (o : WriteFault) : Option AppendError × WAL :=
  let w := { w with out := w.out.flush o }
  match w.out.err with
  | some e => (some (.flush e), { w with leading := false, flushErr := some (.flush e), flushedSeq := w.pendingSeq })
  | none => (none, w)

/-- How the leader's loop goes on after an fsync. -/
inductive Round
  | failed (e : AppendError)
  | stepDown
  | again
  deriving DecidableEq, Repr

/-- The leader's step after the fsync of the round that covers `flushSeq`. -/
def postSync (w : WAL) (flushSeq : Nat) (syncErr : Option String) : Round × WAL :=
  match syncErr with
  | some e =>
      (.failed (.fsync e), { w with flushErr := some (.fsync e), flushedSeq := w.pendingSeq, leading := false })
  | none =>
      let w := { w with flushedSeq := flushSeq, flushErr := none }
      if w.pendingSeq = flushSeq then (.stepDown, { w with leading := false }) else (.again, w)

/-- `Append` by a caller that is alone, as the engine and the offset store are: they hold their own lock, so
no leader is at work and nothing is buffered during the fsync. -/
def append (w : WAL) (rec : Record) (io : AppendIO) : Except AppendError UInt64 × WAL :=
  match w.buffer rec io.lenWrite io.bodyWrite with
  | (.error e, w) => (.error e, w)
  | (.ok (position, _), w) =>
      match { w with leading := true }.flushRound io.flush with
      | (some e, w) => (.error e, w)
      | (none, w) =>
          let r := w.out.file.sync io.sync
          match { w with out := { w.out with file := r.1 } }.postSync w.pendingSeq r.2 with
          | (.failed e, w) => (.error e, w)
          | (_, w) => (.ok position, w)

/-- `Close` once no leader is at work. -/
def close (w : WAL) (o : WriteFault) (closeErr : Option String) : Option String × WAL :=
  let out := w.out.flush o
  match out.err with
  | some e => (some e, { w with out := out })
  | none => (closeErr, { w with out := { out with file := { out.file with closed := true } } })

def lastCommitPosition (w : WAL) : UInt64 := w.next - 1

end WAL

/-! ## `ReadRange` -/

inductive RangeError
  | panic
  | stat (e : String)
  | corrupt (position : UInt64) (e : ReadError)
  deriving DecidableEq, Repr

/-- The text of the error; a panic has none, for the call does not return. -/
def RangeError.text : RangeError → Option String
  | .panic => none
  | .stat e => some ("wal: stat: " ++ e)
  | .corrupt _ (.payload .panic) => none
  | .corrupt position e => some ("wal: read range at position " ++ toString position.toNat ++ ": " ++ e.text)

/-- The loop of `ReadRange`: at most `limit` records of the unread bytes. -/
def readUpTo : Nat → UInt64 → Bytes → List Record × Option RangeError
  | 0, _, _ => ([], none)
  | limit + 1, position, r =>
      match readRecord r with
      | .eof => ([], none)
      | .torn => ([], none)
      | .corrupt e => ([], some (.corrupt position e))
      | .record rec _ rest =>
          let more := readUpTo limit (position + 1) rest
          (rec :: more.1, more.2)

/-- `ReadRange(from, limit)`. The bound check converts `from - 1` to a signed `int`, the index does not. -/
def WAL.readRange (w : WAL) (fromPos : UInt64) (limit : Int) : List Record × Option RangeError :=
  if fromPos < 1 ∨ (fromPos - 1).toInt64.toInt ≥ w.byteOffsets.length ∨ limit ≤ 0 then ([], none)
  else
    match w.byteOffsets[(fromPos - 1).toNat]? with
    | none => ([], some .panic)
    | some startOffset =>
        if w.out.file.closed then ([], some (.stat errClosed))
        else readUpTo limit.toNat fromPos (w.out.file.data.drop startOffset)

/-! ## One spec for each critical section -/

namespace WAL

/-- `buffer` hands the whole frame over, and only then updates the offsets and the sequence number. -/
theorem buffer_spec (w : WAL) (rec : Record) (l b : WriteFault × WriteFault) :
    ∃ o, Handed w.out (frame (stamp rec w.next)) o ∧
      ((∃ e, o.err = some e ∧ (w.buffer rec l b = (.error (.writeLength e), { w with next := w.next + 1, out := o }) ∨
          w.buffer rec l b = (.error (.writeBody e), { w with next := w.next + 1, out := o }))) ∨
        o.err = none ∧ w.buffer rec l b = (.ok (w.next, w.pendingSeq + 1),
          { w with next := w.next + 1, out := o, writeOffset := w.writeOffset + (frame (stamp rec w.next)).length
                   byteOffsets := w.byteOffsets ++ [w.writeOffset], pendingSeq := w.pendingSeq + 1 })) := by
  obtain ⟨r, hr⟩ : ∃ r, r = stamp rec w.next := ⟨_, rfl⟩
  have hlen := BufferedFile.write_handed w.out (putUint32 (UInt32.ofNat (body r).length)) l
  obtain ⟨o₁, ho₁⟩ : ∃ o, o = w.out.write (putUint32 (UInt32.ofNat (body r).length)) l := ⟨_, rfl⟩
  rw [← ho₁] at hlen
  unfold buffer
  simp only [← hr, ← ho₁]
  cases h₁ : o₁.err with
  | some e => exact ⟨o₁, hlen.of_err (by simp [h₁]) _, Or.inl ⟨e, h₁, Or.inl rfl⟩⟩
  | none =>
      have hbody := BufferedFile.write_handed o₁ (body r) b
      obtain ⟨o₂, ho₂⟩ : ∃ o, o = o₁.write (body r) b := ⟨_, rfl⟩
      rw [← ho₂] at hbody ⊢
      have hboth : Handed w.out (frame r) o₂ := hlen.trans hbody h₁
      cases h₂ : o₂.err with
      | some e => exact ⟨o₂, hboth, Or.inl ⟨e, h₂, Or.inr rfl⟩⟩
      | none =>
          refine ⟨o₂, hboth, Or.inr ⟨h₂, ?_⟩⟩
          rw [length_frame, Nat.add_assoc, hr]
          rfl

theorem flushRound_spec (w : WAL) (o : WriteFault) :
    ∃ out, Handed w.out [] out ∧
      ((∃ e, out.err = some e ∧ w.flushRound o = (some (.flush e),
          { w with out := out, leading := false, flushErr := some (.flush e), flushedSeq := w.pendingSeq })) ∨
        out.err = none ∧ out.buf = [] ∧ w.flushRound o = (none, { w with out := out })) := by
  refine ⟨w.out.flush o, BufferedFile.flush_handed w.out o, ?_⟩
  unfold flushRound
  dsimp only
  cases h : (w.out.flush o).err with
  | some e => exact Or.inl ⟨e, rfl, rfl⟩
  | none => exact Or.inr ⟨rfl, BufferedFile.flush_buf w.out o h, rfl⟩

theorem close_spec (w : WAL) (o : WriteFault) (closeErr : Option String) :
    ∃ out, Handed w.out [] out ∧
      ((∃ e, out.err = some e ∧ w.close o closeErr = (some e, { w with out := out })) ∨
        out.err = none ∧ w.close o closeErr =
          (closeErr, { w with out := { out with file := { out.file with closed := true } } })) := by
  obtain ⟨out, hout⟩ : ∃ out, out = w.out.flush o := ⟨_, rfl⟩
  refine ⟨out, hout ▸ BufferedFile.flush_handed w.out o, ?_⟩
  unfold close
  simp only [← hout]
  cases h : out.err with
  | some e => exact Or.inl ⟨e, rfl, rfl⟩
  | none => exact Or.inr ⟨rfl, rfl⟩

end WAL

/-! ## What one `Append` can do -/

/-- A log in which a write or a flush has failed: the file holds `rs` and a proper part `t` of the frame of
`r`. The last offset may be that of `r`. -/
structure Broken (w : WAL) (rs : List Record) (r : Record) (t : Bytes) : Prop where
  data : w.out.file.data = logBytes rs ++ t
  opened : w.out.file.closed = false
  tail : t <+: frame r
  short : t ≠ frame r
  err : w.out.err ≠ none
  offsets : w.byteOffsets = offsetsFrom headerSize rs ∨
    w.byteOffsets = offsetsFrom headerSize rs ++ [(logBytes rs).length]
  quiet : w.leading = false
  stamped : Stamped 1 rs

theorem stamped_snoc {rs : List Record} (h : Stamped 1 rs) (rec : Record) :
    Stamped 1 (rs ++ [stamp rec (1 + UInt64.ofNat rs.length)]) :=
  (stamped_append 1 rs _).mpr ⟨h, rfl, trivial⟩

theorem logBytes_snoc (rs : List Record) (r : Record) : logBytes (rs ++ [r]) = logBytes rs ++ frame r := by
  rw [logBytes, frames_append, frames_singleton, logBytes, List.append_assoc]

theorem offsetsFrom_snoc (rs : List Record) (r : Record) :
    offsetsFrom headerSize (rs ++ [r]) = offsetsFrom headerSize rs ++ [(logBytes rs).length] := by
  rw [offsetsFrom_append, logBytes, List.length_append, length_header]
  rfl

/-- Every way an `Append` to a working log can end. -/
inductive Appended (w : WAL) (rs : List Record) (rec : Record) : Except AppendError UInt64 × WAL → Prop
  /-- It returns the next position, and the record is in the log and durable. -/
  | ok (w' : WAL) (holds : Holds w' (rs ++ [stamp rec w.next]))
      (durable : w'.out.file.synced = w'.out.file.data.length) : Appended w rs rec (.ok w.next, w')
  /-- The fsync failed: the record is in the log. -/
  | fsync (e : String) (w' : WAL) (holds : Holds w' (rs ++ [stamp rec w.next]))
      (synced : w'.out.file.synced = w.out.file.synced) : Appended w rs rec (.error (.fsync e), w')
  /-- A write or the flush failed: at most a part of the record is in the file. -/
  | broken (e : AppendError) (he : ∀ s, e ≠ .fsync s) (w' : WAL) (t : Bytes)
      (torn : Broken w' rs (stamp rec w.next) t) (synced : w'.out.file.synced = w.out.file.synced) :
      Appended w rs rec (.error e, w')

theorem append_cases {w : WAL} {rs : List Record} (h : Holds w rs) (rec : Record) (io : AppendIO) :
    Appended w rs rec (w.append rec io) := by
  obtain ⟨o₁, hh₁, hbuf⟩ := w.buffer_spec rec io.lenWrite io.bodyWrite
  unfold WAL.append
  rcases hbuf with ⟨e, he, hbuf⟩ | ⟨he, hbuf⟩
  · -- a buffered write failed
    obtain ⟨t, hdata, htail, hshort⟩ := hh₁.torn h.buf h.err (by simp [he])
    have hbroken : Broken { w with next := w.next + 1, out := o₁ } rs (stamp rec w.next) t :=
      ⟨by rw [← h.data]; exact hdata, hh₁.closed.trans h.opened, htail, hshort, by simp [he], Or.inl h.byteOffsets, h.quiet,
        h.stamped⟩
    rcases hbuf with hbuf | hbuf
    · rw [hbuf]
      exact .broken _ (by simp) _ t hbroken hh₁.synced
    · rw [hbuf]
      exact .broken _ (by simp) _ t hbroken hh₁.synced
  · rw [hbuf]
    dsimp only
    obtain ⟨w₁, hw₁⟩ : ∃ w₁, w₁ = { w with
        next := w.next + 1, out := o₁, writeOffset := w.writeOffset + (frame (stamp rec w.next)).length
        byteOffsets := w.byteOffsets ++ [w.writeOffset], pendingSeq := w.pendingSeq + 1, leading := true } := ⟨_, rfl⟩
    rw [← hw₁]
    obtain ⟨o₂, hh₂, hflush⟩ := w₁.flushRound_spec io.flush
    have hout : w₁.out = o₁ := by rw [hw₁]
    have hh : Handed w.out (frame (stamp rec w.next)) o₂ := by
      have := hh₁.trans (hout ▸ hh₂) he
      rwa [List.append_nil] at this
    have hoffs : w₁.byteOffsets = offsetsFrom headerSize rs ++ [(logBytes rs).length] := by
      rw [hw₁]
      simp only [h.byteOffsets, h.writeOffset]
    rcases hflush with ⟨e, he₂, hflush⟩ | ⟨he₂, hbuf₂, hflush⟩
    · -- the flush failed
      obtain ⟨t, hdata, htail, hshort⟩ := hh.torn h.buf h.err (by simp [he₂])
      rw [hflush]
      exact .broken _ (by simp) _ t
        ⟨by rw [← h.data]; exact hdata, hh.closed.trans h.opened, htail, hshort, by simp [he₂], Or.inr hoffs, rfl, h.stamped⟩
        hh.synced
    · -- the whole frame is in the file
      have hdata : o₂.file.data = logBytes (rs ++ [stamp rec w.next]) := by
        have := hh.stream he₂
        rwa [hbuf₂, h.buf, List.append_nil, List.append_nil, h.data, ← logBytes_snoc] at this
      have hclosed : o₂.file.closed = false := hh.closed.trans h.opened
      have hnext : w₁.next = 1 + UInt64.ofNat (rs ++ [stamp rec w.next]).length := by
        rw [hw₁, List.length_append, List.length_singleton, UInt64.ofNat_add, ← UInt64.add_assoc, ← h.next]
        rfl
      have hwrite : w₁.writeOffset = (logBytes (rs ++ [stamp rec w.next])).length := by
        rw [hw₁, logBytes_snoc, List.length_append, ← h.writeOffset]
      have hstamp : Stamped 1 (rs ++ [stamp rec w.next]) := by
        rw [h.next]
        exact stamped_snoc h.stamped rec
      rw [hflush]
      dsimp only
      cases hs : io.sync with
      | none =>
          simp only [File.sync, hclosed, Bool.false_eq_true, if_false, WAL.postSync, if_true]
          exact .ok _ ⟨hdata, rfl, hbuf₂, he₂, hnext, hoffs.trans (offsetsFrom_snoc rs _).symm, hwrite, rfl, rfl, hstamp⟩ rfl
      | some e =>
          simp only [File.sync, hclosed, Bool.false_eq_true, if_false, WAL.postSync]
          exact .fsync e _ ⟨hdata, hclosed, hbuf₂, he₂, hnext, hoffs.trans (offsetsFrom_snoc rs _).symm, hwrite, rfl, rfl, hstamp⟩
            hh.synced

/-- A broken log refuses every `Append` and leaves the file alone. -/
theorem append_broken {w : WAL} {rs : List Record} {r : Record} {t : Bytes} (h : Broken w rs r t) (rec : Record)
    (io : AppendIO) : ∃ e, w.append rec io = (.error (.writeLength e), { w with next := w.next + 1 }) := by
  obtain ⟨e, he⟩ := Option.ne_none_iff_exists'.mp h.err
  refine ⟨e, ?_⟩
  have hstuck : ∀ p o, w.out.write p o = w.out := fun p o => (BufferedFile.write_handed w.out p o).sticky h.err
  unfold WAL.append WAL.buffer
  simp only [hstuck, he]

theorem buffer_marks (w : WAL) (rec : Record) (l b : WriteFault × WriteFault) : (w.buffer rec l b).2.next = w.next + 1 ∧
    ((w.buffer rec l b).2.byteOffsets = w.byteOffsets ∨
      (w.buffer rec l b).2.byteOffsets = w.byteOffsets ++ [w.writeOffset]) := by
  obtain ⟨o, -, ⟨e, -, hbuf | hbuf⟩ | ⟨-, hbuf⟩⟩ := w.buffer_spec rec l b
  · rw [hbuf]
    exact ⟨rfl, Or.inl rfl⟩
  · rw [hbuf]
    exact ⟨rfl, Or.inl rfl⟩
  · rw [hbuf]
    exact ⟨rfl, Or.inr rfl⟩

theorem flushRound_marks (w : WAL) (o : WriteFault) :
    (w.flushRound o).2.next = w.next ∧ (w.flushRound o).2.byteOffsets = w.byteOffsets := by
  obtain ⟨out, -, ⟨e, -, hflush⟩ | ⟨-, -, hflush⟩⟩ := w.flushRound_spec o
  · rw [hflush]
    exact ⟨rfl, rfl⟩
  · rw [hflush]
    exact ⟨rfl, rfl⟩

theorem postSync_marks (w : WAL) (flushSeq : Nat) (syncErr : Option String) :
    (w.postSync flushSeq syncErr).2.next = w.next ∧ (w.postSync flushSeq syncErr).2.byteOffsets = w.byteOffsets := by
  unfold WAL.postSync
  cases syncErr with
  | some e => exact ⟨rfl, rfl⟩
  | none =>
      dsimp only
      split
      · exact ⟨rfl, rfl⟩
      · exact ⟨rfl, rfl⟩

/-- An `Append` takes a position, whether it succeeds or not. -/
theorem append_next (w : WAL) (rec : Record) (io : AppendIO) : (w.append rec io).2.next = w.next + 1 := by
  have hbuf := (buffer_marks w rec io.lenWrite io.bodyWrite).1
  unfold WAL.append
  split
  · next e w₁ h =>
    rw [h] at hbuf
    exact hbuf
  · next position seq w₁ h =>
    rw [h] at hbuf
    have hflush := (flushRound_marks { w₁ with leading := true } io.flush).1
    split
    · next e w₂ h₂ =>
      rw [h₂] at hflush
      exact hflush.trans hbuf
    · next w₂ h₂ =>
      rw [h₂] at hflush
      have hsync := (postSync_marks { w₂ with out := { w₂.out with file := (w₂.out.file.sync io.sync).1 } } w₂.pendingSeq
        (w₂.out.file.sync io.sync).2).1
      dsimp only
      split
      · next e w₃ h₃ =>
        rw [h₃] at hsync
        exact hsync.trans (hflush.trans hbuf)
      · next r w₃ _ h₃ =>
        rw [h₃] at hsync
        exact hsync.trans (hflush.trans hbuf)

theorem append_succeeds {w : WAL} (he : w.out.err = none) (hc : w.out.file.closed = false) (rec : Record) :
    ∃ position w', w.append rec AppendIO.ok = (.ok position, w') := by
  obtain ⟨r, hr⟩ : ∃ r, r = stamp rec w.next := ⟨_, rfl⟩
  obtain ⟨o₁, ho₁⟩ : ∃ o, o = w.out.write (putUint32 (UInt32.ofNat (body r).length)) (none, none) := ⟨_, rfl⟩
  obtain ⟨o₂, ho₂⟩ : ∃ o, o = o₁.write (body r) (none, none) := ⟨_, rfl⟩
  obtain ⟨h₁, h₂, c₂⟩ := BufferedFile.write_write_ok w.out (putUint32 (UInt32.ofNat (body r).length)) (body r) he hc
  rw [← ho₁] at h₁ h₂ c₂
  rw [← ho₂] at h₂ c₂
  have h₃ := BufferedFile.flush_ok o₂ h₂ c₂
  have c₃ : (o₂.flush none).file.closed = false := (BufferedFile.flush_handed o₂ none).closed.trans c₂
  unfold WAL.append WAL.buffer WAL.flushRound WAL.postSync
  simp only [ AppendIO.ok, ← hr, ← ho₁, h₁, ← ho₂, h₂, h₃, File.sync, c₃]
  exact ⟨_, _, rfl⟩

theorem close_file {w : WAL} {rs : List Record} (h : Holds w rs) :
    (w.close none none).1 = none ∧ { (w.close none none).2.out.file with closed := false } = w.out.file := by
  unfold WAL.close
  simp only [BufferedFile.flush_empty h.buf, h.err]
  rw [← h.opened]
  exact ⟨trivial, rfl⟩

theorem append_ok {w : WAL} {rs : List Record} (h : Holds w rs) (rec : Record) :
    ∃ w', w.append rec AppendIO.ok = (.ok w.next, w') ∧ Holds w' (rs ++ [stamp rec w.next]) ∧
      w'.out.file.synced = w'.out.file.data.length := by
  obtain ⟨position, w', hok⟩ := append_succeeds h.err h.opened rec
  have hcases := append_cases h rec AppendIO.ok
  rw [hok] at hcases ⊢
  cases hcases with
  | ok _ holds durable => exact ⟨w', rfl, holds, durable⟩

/-- The fsync of an `Append` to a working log fails: exactly when every write in front of it succeeded. -/
theorem append_fsync_iff {w : WAL} {rs : List Record} (h : Holds w rs) (rec : Record) (io : AppendIO) :
    (∃ e w', w.append rec io = (.error (.fsync e), w')) ↔
      BufferedFile.Accepted 4 (body (stamp rec w.next)).length io.bodyWrite io.flush ∧ io.sync ≠ none := by
  obtain ⟨b, hb⟩ : ∃ b, b = body (stamp rec w.next) := ⟨_, rfl⟩
  obtain ⟨l, hl⟩ : ∃ l, l = putUint32 (UInt32.ofNat b.length) := ⟨_, rfl⟩
  have hl4 : l.length = 4 := by rw [hl, length_putUint32]
  have hl0 : l ≠ [] := by
    rintro rfl
    cases hl4
  -- the length field only goes into the buffer
  obtain ⟨o₁, ho₁⟩ : ∃ o₁, o₁ = w.out.write l io.lenWrite := ⟨_, rfl⟩
  have hlen : o₁ = { w.out with buf := w.out.buf ++ l } :=
    ho₁.trans (BufferedFile.write_small w.out l io.lenWrite h.err (by rw [hl4, h.buf]; decide))
  have hbuf : o₁.buf = l := by rw [hlen, h.buf, List.nil_append]
  have he₁ : o₁.err = none := by rw [hlen]; exact h.err
  have hc₁ : o₁.file.closed = false := by rw [hlen]; exact h.opened
  have hiff := BufferedFile.write_flush_err_iff he₁ (by rw [hbuf]; exact hl0) hc₁ b io.bodyWrite io.flush
  rw [hbuf, hl4] at hiff
  have hhanded := BufferedFile.write_handed o₁ b io.bodyWrite
  obtain ⟨o, ho⟩ : ∃ o, o = o₁.write b io.bodyWrite := ⟨_, rfl⟩
  rw [← ho] at hiff hhanded
  have hflush := BufferedFile.flush_handed o io.flush
  rw [← hb, ← hiff]
  unfold WAL.append WAL.buffer WAL.flushRound
  simp only [← hb, ← hl, ← ho₁, he₁, ← ho]
  cases he : o.err with
  | some e =>
      have hstuck : (o.flush io.flush).err ≠ none := hflush.err_ne (by simp [he])
      simp [hstuck]
  | none =>
      dsimp only
      cases he' : (o.flush io.flush).err with
      | some e => simp
      | none =>
          have hopen : (o.flush io.flush).file.closed = false := hflush.closed.trans (hhanded.closed.trans hc₁)
          cases hs : io.sync with
          | none => simp [File.sync, hopen, WAL.postSync]
          | some e => simp [File.sync, hopen, WAL.postSync]

/-! ## Reading a range -/

theorem readUpTo_frames {rs : List Record} (hfit : ∀ r ∈ rs, Fits r) {t : Bytes}
    (ht : t = [] ∨ readRecord t = .torn) (limit : Nat) (position : UInt64) :
    readUpTo limit position (frames rs ++ t) = (rs.take limit, none) := by
  induction limit generalizing rs position with
  | zero => simp [readUpTo]
  | succ limit ih =>
      cases rs with
      | nil =>
          rcases ht with rfl | ht
          · simp [readUpTo]
          · simp [readUpTo, ht]
      | cons r rs =>
          have hrest := ih (fun x hx => hfit x (List.mem_cons_of_mem r hx)) (position + 1)
          rw [frames_cons, List.append_assoc, readUpTo, readRecord_frame (hfit r (by simp))]
          simp only [hrest, List.take_succ_cons]

theorem offsetsFrom_getElem? (rs : List Record) (o i : Nat) (hi : i < rs.length) :
    (offsetsFrom o rs)[i]? = some (o + (frames (rs.take i)).length) := by
  induction rs generalizing o i with
  | nil => simp at hi
  | cons r rs ih =>
      cases i with
      | zero => simp [offsetsFrom]
      | succ i =>
          rw [offsetsFrom, List.getElem?_cons_succ, ih _ _ (by simpa using hi), List.take_succ_cons, frames_cons,
            List.length_append, Nat.add_assoc]

/-- From the offset of record `i` on, the file is the rest of the records. -/
theorem drop_offset (rs : List Record) (t : Bytes) (i : Nat) :
    (logBytes rs ++ t).drop (headerSize + (frames (rs.take i)).length) = frames (rs.drop i) ++ t := by
  have hsplit : logBytes rs ++ t = (header ++ frames (rs.take i)) ++ (frames (rs.drop i) ++ t) := by
    rw [logBytes, List.append_assoc, List.append_assoc, ← List.append_assoc (frames (rs.take i)), ← frames_append,
      List.take_append_drop]
  have hlen : headerSize + (frames (rs.take i)).length = (header ++ frames (rs.take i)).length := by
    rw [List.length_append, length_header]
  rw [hsplit, hlen, List.drop_left]

/-- Every offset of the index, the one behind the records included, is where record `i` starts or would start. -/
theorem byteOffsets_getElem? {rs : List Record} {offs : List Nat} (hoffs : offs = offsetsFrom headerSize rs ∨
      offs = offsetsFrom headerSize rs ++ [(logBytes rs).length]) {i : Nat} (hi : i < offs.length) :
    offs[i]? = some (headerSize + (frames (rs.take i)).length) := by
  rcases hoffs with rfl | rfl
  · exact offsetsFrom_getElem? rs headerSize i (by simpa using hi)
  · by_cases hlt : i < rs.length
    · rw [List.getElem?_append_left (by simpa using hlt), offsetsFrom_getElem? rs headerSize i hlt]
    · have hlast : i = (offsetsFrom headerSize rs).length := by
        rw [List.length_append, length_offsetsFrom, List.length_singleton] at hi
        rw [length_offsetsFrom]
        omega
      rw [hlast, List.getElem?_concat_length, length_offsetsFrom, List.take_length, logBytes, List.length_append, length_header]

theorem toInt_toInt64 (x : UInt64) :
    x.toInt64.toInt = if x.toNat < 2 ^ 63 then (x.toNat : Int) else (x.toNat : Int) - 2 ^ 64 := by
  have h : x.toInt64.toInt = x.toBitVec.toInt := rfl
  rw [h, BitVec.toInt_eq_toNat_cond]
  have hx : x.toBitVec.toNat = x.toNat := rfl
  rw [hx]
  split_ifs <;> omega

/-- **`ReadRange`** on whole records and a torn rest. A last offset that points behind the records finds nothing, and a
position beyond `2 ^ 63` passes the bound check and runs out of the slice. -/
theorem readRange_log {w : WAL} {rs : List Record} {t : Bytes} (hdata : w.out.file.data = logBytes rs ++ t)
    (hopen : w.out.file.closed = false) (hfit : ∀ r ∈ rs, Fits r) (ht : t = [] ∨ readRecord t = .torn)
    (hoffs : w.byteOffsets = offsetsFrom headerSize rs ∨
      w.byteOffsets = offsetsFrom headerSize rs ++ [(logBytes rs).length])
    (fromPos : UInt64) (limit : Int) (hlen : 2 ^ 63 < fromPos.toNat → w.byteOffsets.length < 2 ^ 63) :
    w.readRange fromPos limit =
      if fromPos = 0 ∨ limit ≤ 0 then ([], none)
      else if 2 ^ 63 < fromPos.toNat then ([], some .panic)
      else ((rs.drop (fromPos.toNat - 1)).take limit.toNat, none) := by
  unfold WAL.readRange
  by_cases h0 : fromPos = 0 ∨ limit ≤ 0
  · rw [if_pos h0, if_pos ?_]
    rcases h0 with rfl | h0
    · exact Or.inl (by decide)
    · exact Or.inr (Or.inr h0)
  · rw [if_neg h0]
    obtain ⟨hpos, hlimit⟩ := not_or.mp h0
    have hone : 1 ≤ fromPos.toNat := by
      by_contra hlt
      exact hpos (UInt64.toNat_inj.mp (by rw [UInt64.toNat_zero]; omega))
    have hsub : (fromPos - 1).toNat = fromPos.toNat - 1 :=
      UInt64.toNat_sub_of_le fromPos 1 (UInt64.le_iff_toNat_le.mpr hone)
    have hlow : ¬ fromPos < 1 := by
      rw [UInt64.lt_iff_toNat_lt]
      exact Nat.not_lt.mpr hone
    have hrange := fromPos.toNat_lt
    have hint := toInt_toInt64 (fromPos - 1)
    rw [hsub] at hint ⊢
    by_cases hbig : 2 ^ 63 < fromPos.toNat
    · have := hlen hbig
      rw [if_neg (Nat.not_lt.mpr (by omega))] at hint
      rw [if_pos hbig, hint, if_neg (by simp only [hlow, hlimit, false_or, or_false]; omega),
        List.getElem?_eq_none (by omega)]
    · rw [if_pos (by omega)] at hint
      rw [if_neg hbig, hint]
      by_cases hi : w.byteOffsets.length ≤ fromPos.toNat - 1
      · -- behind the index, and so behind the records
        have hle : rs.length ≤ fromPos.toNat - 1 := by
          rcases hoffs with h | h
          · rwa [h, length_offsetsFrom] at hi
          · rw [h, List.length_append, length_offsetsFrom] at hi
            exact (Nat.le_add_right _ _).trans hi
        rw [if_pos (Or.inr (Or.inl (by exact_mod_cast hi))), List.drop_eq_nil_of_le hle, List.take_nil]
      · rw [if_neg (by simp only [hlow, hlimit, false_or, or_false]; omega), byteOffsets_getElem? hoffs (by omega)]
        simp only [hopen, Bool.false_eq_true, if_false, hdata]
        rw [drop_offset, readUpTo_frames (fun r hr => hfit r (List.mem_of_mem_drop hr)) ht]

end Uddp.Wal

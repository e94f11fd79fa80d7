import Uddp.Lib.Bufio
import Uddp.Wal.Read

/-!
# Opening a log

* `WAL` : the state of an open log; `openFile` : `wal.Open` on a file, with the file it leaves;
* `Stamped n rs`, `offsetsFrom o rs` : the commit positions `n, n + 1, ..` and the byte offsets of
  consecutive records that start at offset `o`;
* `recoverFrom_append` : the scan of whole records; `recoverFrom_frames` : followed by a torn rest;
* **`openFile_log`** : what `wal.Open` does to a header, whole records and a torn rest.
-/

namespace Uddp.Wal
open Uddp.Lib

/-! ## The state of an open log -/

inductive AppendError
  | writeLength (e : String)
  | writeBody (e : String)
  | flush (e : String)
  | fsync (e : String)
  deriving DecidableEq, Repr

def AppendError.text : AppendError → String
  | .writeLength e => "wal: write length: " ++ e
  | .writeBody e => "wal: write body: " ++ e
  | .flush e => "wal: flush: " ++ e
  | .fsync e => "wal: fsync: " ++ e

/-- `out` is the file and the `bufio.Writer` over it. `byteOffsets[i]` is the offset of the record with
commit position `i + 1`. The two sequence numbers count buffered records. -/
structure WAL where
  out : BufferedFile
  next : UInt64
  byteOffsets : List Nat
  pendingSeq : Nat
  flushedSeq : Nat
  flushErr : Option AppendError
  leading : Bool
  writeOffset : Nat
  deriving DecidableEq, Repr

/-! ## `wal.Open` -/

def walMagic : Bytes := [0x55, 0x44, 0x57, 0x4C]

def currentFormatVersion : UInt8 := 1

def headerSize : Nat := 5

def header : Bytes := walMagic ++ [currentFormatVersion]

inductive OpenError
  | readHeader
  | badMagic
  | unsupportedVersion (version : UInt8)
  | corrupt (offset : Nat) (e : ReadError)
  | nonMonotonic (offset : Nat) (got want : UInt64)
  | replay (position : UInt64) (e : String)
  deriving DecidableEq, Repr

/-- A new file gets the header and an fsync; an existing one is checked. -/
def ensureHeader (f : File) : Except OpenError File :=
  if f.data = [] then .ok { f with data := header, synced := headerSize, synced_le := le_rfl }
  else if f.data.length < headerSize then .error .readHeader
  else if f.data.take 4 ≠ walMagic then .error .badMagic
  else if (f.data.drop 4).take 1 ≠ [currentFormatVersion] then
    .error (.unsupportedVersion ((f.data.drop 4).headD 0))
  else .ok f

/-- What the scan found. `truncateAt` is the offset of a torn record. -/
structure Recovered (σ : Type) where
  st : σ
  next : UInt64
  byteOffsets : List Nat
  truncateAt : Option Nat

/-- The loop of `recover_` over the unread bytes `r`; `st` is what `replay` has built so far. -/
def recoverFrom {σ : Type} (replay : σ → Record → Except String σ) (st : σ) (next : UInt64) (offset : Nat)
    (byteOffsets : List Nat) (r : Bytes) : Except OpenError (Recovered σ) :=
  match _h : readRecord r with
  | .eof => .ok ⟨st, next, byteOffsets, none⟩
  | .torn => .ok ⟨st, next, byteOffsets, some offset⟩
  | .corrupt e => .error (.corrupt offset e)
  | .record rec n rest =>
      if rec.commitPosition ≠ next then .error (.nonMonotonic offset rec.commitPosition next)
      else
        match replay st rec with
        | .error e => .error (.replay rec.commitPosition e)
        | .ok st' => recoverFrom replay st' (next + 1) (offset + n) (byteOffsets ++ [offset]) rest
termination_by r.length
decreasing_by exact readRecord_shorter _h

/-- The file after the scan: a torn tail is cut off. -/
def truncateTorn (f : File) : Option Nat → File
  | none => f
  | some offset => f.truncate offset

/-- `wal.Open` on the contents `f` of the file, with the file it leaves behind. -/
def openFile {σ : Type} (replay : σ → Record → Except String σ) (st : σ) (f : File) :
    Except OpenError (σ × WAL) × File :=
  match ensureHeader f with
  | .error e => (.error e, f)
  | .ok f =>
      match recoverFrom replay st 1 headerSize [] (f.data.drop headerSize) with
      | .error e => (.error e, f)
      | .ok r =>
          let f := truncateTorn f r.truncateAt
          (.ok (r.st, { out := ⟨f, [], none⟩, next := r.next, byteOffsets := r.byteOffsets, pendingSeq := 0
                        flushedSeq := 0, flushErr := none, leading := false, writeOffset := f.data.length }), f)

/-! ## Positions and offsets of consecutive records -/

/-- The commit positions of `rs` are `n, n + 1, ..`. -/
def Stamped : UInt64 → List Record → Prop
  | _, [] => True
  | n, r :: rs => r.commitPosition = n ∧ Stamped (n + 1) rs

/-- The byte offsets of consecutive records, the first at `o`. -/
def offsetsFrom : Nat → List Record → List Nat
  | _, [] => []
  | o, r :: rs => o :: offsetsFrom (o + (frame r).length) rs

theorem position_succ (n : UInt64) (k : Nat) : n + 1 + UInt64.ofNat k = n + UInt64.ofNat (k + 1) := by
  rw [UInt64.ofNat_add, UInt64.add_assoc, UInt64.add_comm 1]
  rfl

theorem stamped_append (n : UInt64) (rs ss : List Record) :
    Stamped n (rs ++ ss) ↔ Stamped n rs ∧ Stamped (n + UInt64.ofNat rs.length) ss := by
  induction rs generalizing n with
  | nil => simp [Stamped]
  | cons r rs ih =>
      rw [List.cons_append, Stamped, Stamped, ih, List.length_cons, position_succ, and_assoc]

theorem stamped_getElem? {n : UInt64} {rs : List Record} (h : Stamped n rs) {k : Nat} {r : Record} (hk : rs[k]? = some r) :
    r.commitPosition = n + UInt64.ofNat k := by
  induction rs generalizing n k with
  | nil => simp at hk
  | cons x rs ih =>
      cases k with
      | zero =>
          cases hk
          rw [h.1]
          simp
      | succ k => rw [ih h.2 hk, position_succ]

/-- Positions are indices as long as they do not wrap. -/
theorem stamped_position {rs : List Record} (h : Stamped 1 rs) (hlen : rs.length < 2 ^ 63) {i : Nat} {r : Record}
    (hr : rs[i]? = some r) : r.commitPosition.toNat = i + 1 := by
  have hi : i < rs.length := (List.getElem?_eq_some_iff.mp hr).1
  have hone : (1 : UInt64).toNat = 1 := rfl
  rw [stamped_getElem? h hr, UInt64.toNat_add, UInt64.toNat_ofNat', hone]
  omega

theorem offsetsFrom_append (o : Nat) (rs ss : List Record) :
    offsetsFrom o (rs ++ ss) = offsetsFrom o rs ++ offsetsFrom (o + (frames rs).length) ss := by
  induction rs generalizing o with
  | nil => simp [offsetsFrom]
  | cons r rs ih =>
      rw [List.cons_append, offsetsFrom, offsetsFrom, ih, frames_cons, List.length_append, Nat.add_assoc, List.cons_append]

@[simp] theorem length_offsetsFrom (o : Nat) (rs : List Record) : (offsetsFrom o rs).length = rs.length := by
  induction rs generalizing o with
  | nil => rfl
  | cons r rs ih => rw [offsetsFrom, List.length_cons, ih, List.length_cons]

/-! ## The scan -/

/-- The scan stops at the end of the file or at a torn record. -/
theorem recoverFrom_tail {σ : Type} (replay : σ → Record → Except String σ) {t : Bytes}
    (ht : t = [] ∨ readRecord t = .torn) (st : σ) (next : UInt64) (o : Nat) (offs : List Nat) :
    recoverFrom replay st next o offs t = .ok ⟨st, next, offs, if t = [] then none else some o⟩ := by
  rcases ht with rfl | htorn
  · rw [recoverFrom]
    simp
  · have h0 : t ≠ [] := by
      rintro rfl
      cases htorn
    rw [recoverFrom]
    split
    · next h => rw [htorn] at h; cases h
    · rw [if_neg h0]
    · next h => rw [htorn] at h; cases h
    · next h => rw [htorn] at h; cases h

/-- The scan ends with an error at a damaged record. -/
theorem recoverFrom_corrupt {σ : Type} (replay : σ → Record → Except String σ) {t : Bytes} {e : ReadError}
    (ht : readRecord t = .corrupt e) (st : σ) (next : UInt64) (o : Nat) (offs : List Nat) :
    recoverFrom replay st next o offs t = .error (.corrupt o e) := by
  rw [recoverFrom]
  split
  · next h => rw [ht] at h; cases h
  · next h => rw [ht] at h; cases h
  · next h =>
    rw [ht] at h
    cases h
    rfl
  · next h => rw [ht] at h; cases h

section Scan
variable {σ : Type} {replay : σ → Record → Except String σ} {apply : σ → Record → σ}

theorem recoverFrom_record {rec : Record} {st : σ} (hreplay : replay st rec = .ok (apply st rec)) {r rest : Bytes} {n : Nat}
    (hread : readRecord r = .record rec n rest) (o : Nat) (offs : List Nat) :
    recoverFrom replay st rec.commitPosition o offs r =
      recoverFrom replay (apply st rec) (rec.commitPosition + 1) (o + n) (offs ++ [o]) rest := by
  rw [recoverFrom]
  split
  · next h => rw [hread] at h; cases h
  · next h => rw [hread] at h; cases h
  · next h => rw [hread] at h; cases h
  · next rec' n' rest' h =>
    rw [hread] at h
    injection h with h1 h2 h3
    subst h1 h2 h3
    rw [if_neg (by simp), hreplay]

theorem recoverFrom_append {rs : List Record} (hreplay : ∀ st, ∀ r ∈ rs, replay st r = .ok (apply st r))
    (hfit : ∀ r ∈ rs, Fits r) {next : UInt64} (hst : Stamped next rs) (st : σ) (o : Nat) (offs : List Nat) (t : Bytes) :
    recoverFrom replay st next o offs (frames rs ++ t) =
      recoverFrom replay (rs.foldl apply st) (next + UInt64.ofNat rs.length) (o + (frames rs).length)
        (offs ++ offsetsFrom o rs) t := by
  induction rs generalizing st next o offs with
  | nil => simp [offsetsFrom]
  | cons r rs ih =>
      obtain ⟨rfl, hst⟩ := hst
      rw [frames_cons, List.append_assoc,
        recoverFrom_record (hreplay st r (by simp)) (readRecord_frame (hfit r (by simp)) _),
        ih (fun st x hx => hreplay st x (by simp [hx])) (fun x hx => hfit x (by simp [hx])) hst]
      simp only [List.foldl_cons, position_succ, List.length_cons, offsetsFrom, List.append_assoc, List.singleton_append,
        List.length_append, Nat.add_assoc]

theorem recoverFrom_frames {rs : List Record} (hreplay : ∀ st, ∀ r ∈ rs, replay st r = .ok (apply st r))
    (hfit : ∀ r ∈ rs, Fits r) {next : UInt64} (hst : Stamped next rs) {t : Bytes} (ht : t = [] ∨ readRecord t = .torn)
    (st : σ) (o : Nat) (offs : List Nat) :
    recoverFrom replay st next o offs (frames rs ++ t) =
      .ok ⟨rs.foldl apply st, next + UInt64.ofNat rs.length, offs ++ offsetsFrom o rs,
        if t = [] then none else some (o + (frames rs).length)⟩ := by
  rw [recoverFrom_append hreplay hfit hst, recoverFrom_tail replay ht]

end Scan

/-! ## Opening a log -/

/-- The contents of a log that holds `rs`. -/
def logBytes (rs : List Record) : Bytes := header ++ frames rs

@[simp] theorem length_header : header.length = headerSize := rfl

/-- A part of a log with a whole header is whole records and a part of the next one. -/
theorem cut_of_log {rs : List Record} {d : Bytes} (hd : d <+: logBytes rs) (hlen : headerSize ≤ d.length) :
    ∃ k t, d = logBytes (rs.take k) ++ t ∧ Cut rs k t := by
  obtain ⟨q, rfl⟩ := List.prefix_of_prefix_length_le (List.prefix_append header (frames rs)) hd hlen
  obtain ⟨k, t, hq, hcut⟩ := cut_of_prefix ((List.prefix_append_right_inj header).mp hd)
  exact ⟨k, t, by rw [hq, logBytes, List.append_assoc], hcut⟩

theorem ensureHeader_header (f : File) {p : Bytes} (h : f.data = header ++ p) : ensureHeader f = .ok f := by
  unfold ensureHeader
  rw [h, if_neg (by simp [header]), if_neg (by simp), if_neg (by simp [header, walMagic]),
    if_neg (by simp [header, walMagic])]

theorem ensureHeader_nil (f : File) (h : f.data = []) :
    ensureHeader f = .ok { f with data := header, synced := headerSize, synced_le := le_rfl } := by
  unfold ensureHeader
  rw [if_pos h]

/-- The log after `rs` were written to it and made durable, as `wal.Open` and `Append` leave it. -/
structure Holds (w : WAL) (rs : List Record) : Prop where
  data : w.out.file.data = logBytes rs
  opened : w.out.file.closed = false
  buf : w.out.buf = []
  err : w.out.err = none
  next : w.next = 1 + UInt64.ofNat rs.length
  byteOffsets : w.byteOffsets = offsetsFrom headerSize rs
  writeOffset : w.writeOffset = (logBytes rs).length
  quiet : w.leading = false
  seq : w.flushedSeq = w.pendingSeq
  stamped : Stamped 1 rs

/-- **`wal.Open`** on the header, the records `rs` and a torn rest `t`: it replays `rs`, cuts
`t` off and leaves a log that holds `rs`. -/
theorem openFile_log {σ : Type} {replay : σ → Record → Except String σ} {apply : σ → Record → σ}
    {rs : List Record} (hreplay : ∀ st, ∀ r ∈ rs, replay st r = .ok (apply st r)) (hfit : ∀ r ∈ rs, Fits r)
    (hst : Stamped 1 rs) {t : Bytes} (ht : t = [] ∨ readRecord t = .torn) (st : σ) (f : File)
    (hf : f.data = logBytes rs ++ t) (hc : f.closed = false) :
    ∃ w, openFile replay st f = (.ok (rs.foldl apply st, w), w.out.file) ∧ Holds w rs ∧
      w.out.file.synced = min f.synced (logBytes rs).length ∧ (t = [] → w.out.file = f) := by
  have hhdr : f.data = header ++ (frames rs ++ t) := by rw [hf, logBytes, List.append_assoc]
  have hdrop : f.data.drop headerSize = frames rs ++ t := by
    rw [hhdr, ← length_header, List.drop_left]
  have hscan := recoverFrom_frames hreplay hfit hst ht st headerSize []
  have hend : headerSize + (frames rs).length = (logBytes rs).length := by
    rw [logBytes, List.length_append, length_header]
  unfold openFile
  simp only [ensureHeader_header f hhdr, hdrop, hscan, List.nil_append]
  refine ⟨_, rfl, ?_, ?_, fun h0 => by simp [h0, truncateTorn]⟩
  · by_cases h0 : t = []
    · simp only [h0, List.append_nil] at hf
      exact ⟨by simp [h0, truncateTorn, hf], by simp [h0, truncateTorn, hc], rfl, rfl, rfl, rfl,
        by simp [h0, truncateTorn, hf], rfl, rfl, hst⟩
    · have hcut : f.data.take (headerSize + (frames rs).length) = logBytes rs := by
        rw [hf, hend, List.take_left]
      exact ⟨by simp [h0, truncateTorn, File.truncate, hcut], by simp [h0, truncateTorn, File.truncate, hc], rfl, rfl, rfl,
        rfl, by simp [h0, truncateTorn, File.truncate, hcut], rfl, rfl, hst⟩
  · by_cases h0 : t = []
    · have hle := f.synced_le
      rw [hf, h0, List.append_nil] at hle
      simp [h0, truncateTorn, hle]
    · simp [h0, truncateTorn, File.truncate, hend]

theorem openFile_holds {σ : Type} {replay : σ → Record → Except String σ} {apply : σ → Record → σ}
    (hreplay : ∀ st rec, replay st rec = .ok (apply st rec)) {w : WAL} {rs : List Record} (h : Holds w rs)
    (hfit : ∀ r ∈ rs, Fits r) (st : σ) :
    ∃ w', openFile replay st w.out.file = (.ok (rs.foldl apply st, w'), w.out.file) ∧ Holds w' rs ∧
      w'.out.file = w.out.file := by
  obtain ⟨w', hopen, hw', -, hsame⟩ := openFile_log (fun st r _ => hreplay st r) hfit h.stamped (Or.inl rfl) st w.out.file
    (by rw [h.data, List.append_nil]) h.opened
  rw [hsame rfl] at hopen
  exact ⟨w', hopen, hw', hsame rfl⟩

end Uddp.Wal

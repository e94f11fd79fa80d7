import Uddp.Wal.Accepts

/-!
# Opening a log on a failing disk

`wal.Open` with every answer the operating system can give. Most errors end it and leave the records alone. Two do not:
`readRecord` has one error for a torn record and for a read that fails, so `recover_` cuts off what it could not read and goes
on; and a header that was written in part is refused for ever.

* `OpenIO` : the answers; `openWith` : `wal.Open`; `openWith_ok` : without faults it is `openFile`;
* `wholeChunks n cs` : the records within the first `n` bytes; `OpenIO.seen` : those that are read;
* `openWith_cases` : the three ways an `Open` can end;
* **`open_keeps_iff`** : the faults that records survive;
* `Unharmed f g` : what is left of `f`, and why opening it again finds the same; `openFile_again`, `openWith_settles`.
-/

namespace Uddp.Wal
open Uddp.Lib

def OpenError.text : OpenError → String
  | .readHeader => "wal: read header: EOF"
  | .badMagic => "wal: not a uddp WAL file (bad magic)"
  | .unsupportedVersion version =>
      "wal: unsupported format version " ++ toString version.toNat ++ " (this build supports version " ++
        toString currentFormatVersion.toNat ++ " only, and has no upgrade path between versions yet)"
  | .corrupt offset e => "wal: corrupt record at offset " ++ toString offset ++ ": " ++ e.text
  | .nonMonotonic offset got want =>
      "wal: non-monotonic commit position at offset " ++ toString offset ++ ": got " ++ toString got.toNat ++ " want " ++
        toString want.toNat
  | .replay position e => "wal: replay commit " ++ toString position.toNat ++ ": " ++ e

/-- What the operating system answers, each error where it can come up. A header may be written in part. With `read := some n`
the reads behind the header fail after `n` bytes. -/
structure OpenIO where
  openFile : Option String
  stat : Option String
  writeHeader : Option (Nat × String)
  syncHeader : Option String
  readHeader : Option String
  seek : Option String
  read : Option Nat
  truncate : Option String
  seekEnd : Option String
  deriving DecidableEq, Repr

def OpenIO.ok : OpenIO := ⟨none, none, none, none, none, none, none, none, none⟩

/-- The first `n` bytes of the header, before the `Sync`. -/
def headerPart (f : File) (n : Nat) : File := ⟨header.take n, 0, f.closed, Nat.zero_le _⟩

/-- The error of `ensureHeader`, and the file it leaves. -/
def ensureHeaderWith (io : OpenIO) (f : File) : Option String × File :=
  match io.stat with
  | some err => (some ("wal: stat: " ++ err), f)
  | none =>
      if f.data = [] then
        match io.writeHeader with
        | some (n, err) => (some ("wal: write header: " ++ err), headerPart f n)
        | none =>
            match io.syncHeader with
            | some err => (some ("wal: sync header: " ++ err), headerPart f headerSize)
            | none => (none, ⟨header, headerSize, f.closed, le_rfl⟩)
      else
        match io.readHeader with
        | some err => (some ("wal: read header: " ++ err), f)
        | none =>
            match ensureHeader f with
            | .error e => (some e.text, f)
            | .ok f => (none, f)

/-- What the reads give. -/
def OpenIO.delivered (io : OpenIO) (r : Bytes) : Bytes :=
  match io.read with
  | none => r
  | some n => r.take n

/-- The loop of `recover_`. With `fault` the end of the bytes `r` is an error and not the end of the file, which
`readRecord` reports as a torn record. -/
def recoverWith {σ : Type} (replay : σ → Record → Except String σ) (fault : Bool) (st : σ) (next : UInt64) (offset : Nat)
    (byteOffsets : List Nat) (r : Bytes) : Except OpenError (Recovered σ) :=
  match _h : readRecord r with
  | .eof => .ok ⟨st, next, byteOffsets, if fault then some offset else none⟩
  | .torn => .ok ⟨st, next, byteOffsets, some offset⟩
  | .corrupt e => .error (.corrupt offset e)
  | .record rec n rest =>
      if rec.commitPosition ≠ next then .error (.nonMonotonic offset rec.commitPosition next)
      else
        match replay st rec with
        | .error e => .error (.replay rec.commitPosition e)
        | .ok st' => recoverWith replay fault st' (next + 1) (offset + n) (byteOffsets ++ [offset]) rest
termination_by r.length
decreasing_by exact readRecord_shorter _h

def truncateWith (io : OpenIO) (f : File) : Option Nat → Option String × File
  | none => (none, f)
  | some offset =>
      match io.truncate with
      | some err => (some ("wal: truncate torn tail: " ++ err), f)
      | none => (none, f.truncate offset)

/-- `wal.Open` on the contents `f` of the file, with the file it leaves behind. -/
def openWith {σ : Type} (io : OpenIO) (path : String) (replay : σ → Record → Except String σ) (st : σ) (f : File) :
    Except String (σ × WAL) × File :=
  match io.openFile with
  | some err => (.error ("wal: open " ++ path ++ ": " ++ err), f)
  | none =>
      match ensureHeaderWith io f with
      | (some err, f) => (.error err, f)
      | (none, f) =>
          match io.seek with
          | some err => (.error ("wal: seek past header: " ++ err), f)
          | none =>
              match recoverWith replay io.read.isSome st 1 headerSize [] (io.delivered (f.data.drop headerSize)) with
              | .error e => (.error e.text, f)
              | .ok r =>
                  match truncateWith io f r.truncateAt with
                  | (some err, f) => (.error err, f)
                  | (none, f) =>
                      match io.seekEnd with
                      | some err => (.error ("wal: seek end: " ++ err), f)
                      | none =>
                          (.ok (r.st, { out := ⟨f, [], none⟩, next := r.next, byteOffsets := r.byteOffsets, pendingSeq := 0
                                        flushedSeq := 0, flushErr := none, leading := false
                                        writeOffset := f.data.length }), f)

/-! ## The scan -/

section Scan
variable {σ : Type} {replay : σ → Record → Except String σ}

theorem recoverWith_false (st : σ) (next : UInt64) (o : Nat) (offs : List Nat) (r : Bytes) :
    recoverWith replay false st next o offs r = recoverFrom replay st next o offs r := by
  fun_induction recoverFrom replay st next o offs r <;> (rw [recoverWith]; split <;> simp_all)

theorem recoverWith_tail (fault : Bool) {t : Bytes} (h : Unfinished t) (st : σ) (next : UInt64) (o : Nat) (offs : List Nat) :
    recoverWith replay fault st next o offs t = .ok ⟨st, next, offs, if t = [] ∧ fault = false then none else some o⟩ := by
  rw [recoverWith]
  rcases unfinished_cases h with rfl | htorn
  · cases fault with
    | false => simp
    | true => simp
  · have h0 : t ≠ [] := (readRecord_torn_iff.mp htorn).1
    split <;> simp_all

theorem recoverWith_record (fault : Bool) (c : Chunk) (rest : Bytes) {st st' : σ} (hreplay : replay st c.record = .ok st')
    (o : Nat) (offs : List Nat) :
    recoverWith replay fault st c.record.commitPosition o offs (c.bytes ++ rest) =
      recoverWith replay fault st' (c.record.commitPosition + 1) (o + c.size) (offs ++ [o]) rest := by
  have hread := readRecord_chunk c rest
  rw [recoverWith]
  split <;> simp_all

theorem recoverWith_scanned (fault : Bool) {cs : List Chunk} {next : UInt64} {r t : Bytes} (h : Scanned next r cs t)
    {st st' : σ} (hreplay : (cs.map Chunk.record).foldlM replay st = .ok st') (o : Nat) (offs : List Nat) :
    recoverWith replay fault st next o offs r = .ok ⟨st', next + UInt64.ofNat cs.length, offs ++ chunkOffsets o cs,
      if t = [] ∧ fault = false then none else some (o + chunkSizes cs)⟩ := by
  induction cs generalizing next r st o offs with
  | nil =>
      have hr : r = t := h.split
      have hst : st = st' := Except.ok.inj hreplay
      rw [hr, recoverWith_tail fault h.tail, hst]
      simp [chunkOffsets, chunkSizes]
  | cons c cs ih =>
      obtain ⟨hr, rfl, hrest⟩ := h.of_cons
      rw [List.map_cons, List.foldlM_cons] at hreplay
      cases hone : replay st c.record with
      | error e =>
          rw [hone] at hreplay
          cases hreplay
      | ok st₁ =>
          rw [hone] at hreplay
          rw [hr, recoverWith_record fault c _ hone, ih hrest hreplay]
          simp only [position_succ, List.length_cons, chunkOffsets, List.append_assoc, List.singleton_append, chunkSizes_cons,
            Nat.add_assoc]

end Scan

/-- **`openWith` without faults** is `openFile`. -/
theorem openWith_ok {σ : Type} (path : String) (replay : σ → Record → Except String σ) (st : σ) (f : File) :
    openWith .ok path replay st f = ((openFile replay st f).1.mapError OpenError.text, (openFile replay st f).2) := by
  have hheader : ensureHeaderWith .ok f = match ensureHeader f with
      | .error e => (some e.text, f)
      | .ok g => (none, g) := by
    unfold ensureHeaderWith
    by_cases h0 : f.data = []
    · rw [ensureHeader_nil f h0]
      simp [h0, OpenIO.ok]
    · simp [h0, OpenIO.ok]
  have htruncate : ∀ (g : File) o, truncateWith .ok g o = (none, truncateTorn g o) := fun g o => by
    cases o with
    | none => rfl
    | some o => rfl
  have hnone : OpenIO.ok.openFile = none ∧ OpenIO.ok.seek = none ∧ OpenIO.ok.read = none ∧ OpenIO.ok.seekEnd = none :=
    ⟨rfl, rfl, rfl, rfl⟩
  unfold openWith openFile
  simp only [hheader, hnone, OpenIO.delivered, Option.isSome_none, recoverWith_false, htruncate]
  cases ensureHeader f with
  | error e => rfl
  | ok g =>
      dsimp only
      cases recoverFrom replay st 1 headerSize [] (g.data.drop headerSize) with
      | error e => rfl
      | ok R => rfl

/-! ## Reads that fail -/

/-- The records that stand whole within the first `n` bytes. -/
def wholeChunks : Nat → List Chunk → List Chunk
  | _, [] => []
  | n, c :: cs => if c.bytes.length ≤ n then c :: wholeChunks (n - c.bytes.length) cs else []

theorem wholeChunks_le (n : Nat) (cs : List Chunk) : wholeChunks n cs <+: cs := by
  induction cs generalizing n with
  | nil => exact List.nil_prefix
  | cons c cs ih =>
      unfold wholeChunks
      split
      · exact List.cons_prefix_cons.mpr ⟨rfl, ih _⟩
      · exact List.nil_prefix

theorem wholeChunks_eq_iff {n : Nat} {cs : List Chunk} : wholeChunks n cs = cs ↔ (chunkBytes cs).length ≤ n := by
  induction cs generalizing n with
  | nil => exact iff_of_true rfl (Nat.zero_le _)
  | cons c cs ih =>
      rw [chunkBytes_cons, List.length_append, wholeChunks]
      split
      · next hc =>
        rw [List.cons.injEq, and_iff_right rfl, ih]
        omega
      · next hc =>
        refine iff_of_false (fun h => ?_) (by omega)
        cases h

theorem Unfinished.take {t : Bytes} (h : Unfinished t) (n : Nat) : Unfinished (t.take n) := by
  by_cases hn : n < 4
  · left
    rw [List.length_take]
    omega
  · unfold Unfinished at h ⊢
    rw [List.take_take, min_eq_left (by omega), List.length_take]
    omega

theorem unfinished_cut (c : Chunk) (rest : Bytes) {n : Nat} (h : n < c.bytes.length) :
    Unfinished ((c.bytes ++ rest).take n) := by
  by_cases hn : n < 4
  · left
    rw [List.length_take]
    omega
  · right
    left
    have hlen : (UInt32.ofNat c.body.length).toNat = c.body.length := toNat_ofNat_length c.body_lt
    have htake : (c.bytes ++ rest).take 4 = putUint32 (UInt32.ofNat c.body.length) := by
      rw [Chunk.bytes, List.append_assoc, ← length_putUint32 (UInt32.ofNat c.body.length), List.take_left]
    rw [List.take_take, min_eq_left (by omega), htake, uint32_putUint32, hlen, ← c.length_bytes, List.length_take]
    omega

theorem Scanned.take {next : UInt64} {r : Bytes} {cs : List Chunk} {t : Bytes} (h : Scanned next r cs t) (n : Nat) :
    ∃ t', Scanned next (r.take n) (wholeChunks n cs) t' := by
  induction cs generalizing next r n with
  | nil =>
      have hr : r = t := h.split
      exact ⟨t.take n, by rw [hr]; rfl, trivial, h.tail.take n⟩
  | cons c cs ih =>
      obtain ⟨hr, hc, hrest⟩ := h.of_cons
      rw [wholeChunks]
      split
      · next hn =>
        obtain ⟨t', ht'⟩ := ih hrest (n - c.bytes.length)
        refine ⟨t', ?_⟩
        rw [hr, List.take_append, List.take_of_length_le hn]
        exact ht'.cons hc
      · next hn =>
        refine ⟨r.take n, rfl, trivial, ?_⟩
        rw [hr]
        exact unfinished_cut c _ (by omega)

/-- The records that are read. -/
def OpenIO.seen (io : OpenIO) (cs : List Chunk) : List Chunk :=
  match io.read with
  | none => cs
  | some n => wholeChunks n cs

theorem OpenIO.seen_le (io : OpenIO) (cs : List Chunk) : io.seen cs <+: cs := by
  unfold OpenIO.seen
  split
  · exact List.prefix_rfl
  · exact wholeChunks_le _ cs

theorem OpenIO.delivered_scanned (io : OpenIO) {next : UInt64} {r : Bytes} {cs : List Chunk} {t : Bytes}
    (h : Scanned next r cs t) : ∃ t', Scanned next (io.delivered r) (io.seen cs) t' ∧ (io.read = none → t' = t) := by
  unfold OpenIO.delivered OpenIO.seen
  split
  · next hread => exact ⟨t, h, fun _ => rfl⟩
  · next n hread =>
    obtain ⟨t', ht'⟩ := h.take n
    exact ⟨t', ht', fun hnone => by rw [hread] at hnone; cases hnone⟩

/-! ## How an `Open` ends -/

/-- A new file gets a part of its header. -/
def OpenIO.CutsHeader (io : OpenIO) (f : File) : Prop :=
  io.openFile = none ∧ io.stat = none ∧ f.data = [] ∧ ∃ n err, io.writeHeader = some (n, err) ∧ 0 < n ∧ n < headerSize

/-- The reads fail before the end of the last record, and nothing else does. -/
def OpenIO.CutsRecords (io : OpenIO) (cs : List Chunk) : Prop :=
  io.openFile = none ∧ io.stat = none ∧ io.readHeader = none ∧ io.seek = none ∧ io.truncate = none ∧
    ∃ n, io.read = some n ∧ n < (chunkBytes cs).length

theorem OpenIO.seen_eq_iff {io : OpenIO} {cs : List Chunk} :
    io.seen cs = cs ↔ ∀ n, io.read = some n → (chunkBytes cs).length ≤ n := by
  unfold OpenIO.seen
  split
  · next hread => simp [hread]
  · next n hread => simp [hread, wholeChunks_eq_iff]

theorem ensureHeaderWith_cases (io : OpenIO) {f : File} (h : f.data = [] ∨ f.data.take headerSize = header) :
    (io.stat = none ∧ (f.data ≠ [] → io.readHeader = none) ∧ (f.data = [] → io.writeHeader = none) ∧
      ensureHeaderWith io f = (none, withHeader f)) ∨
    (∃ err g, ensureHeaderWith io f = (some err, g) ∧ (g.data = f.data ∨ g.data = (withHeader f).data) ∧
      (f.data ≠ [] → io.stat ≠ none ∨ io.readHeader ≠ none) ∧
      (f.data = [] → io.stat ≠ none ∨ ∀ n err, io.writeHeader = some (n, err) → n = 0 ∨ headerSize ≤ n)) ∨
    ∃ n err, io.stat = none ∧ f.data = [] ∧ io.writeHeader = some (n, err) ∧ 0 < n ∧ n < headerSize ∧
      ensureHeaderWith io f = (some ("wal: write header: " ++ err), headerPart f n) := by
  unfold ensureHeaderWith
  cases hstat : io.stat with
  | some err =>
      have hne : some err ≠ none := Option.some_ne_none err
      exact Or.inr (Or.inl ⟨_, f, rfl, Or.inl rfl, fun _ => Or.inl hne, fun _ => Or.inl hne⟩)
  | none =>
      by_cases h0 : f.data = []
      · rw [if_pos h0]
        cases hwrite : io.writeHeader with
        | some p =>
            obtain ⟨n, err⟩ := p
            by_cases hn : 0 < n ∧ n < headerSize
            · exact Or.inr (Or.inr ⟨n, err, rfl, h0, rfl, hn.1, hn.2, rfl⟩)
            · refine Or.inr (Or.inl ⟨_, _, rfl, ?_, fun h => absurd h0 h, fun _ => Or.inr ?_⟩)
              · rcases (show n = 0 ∨ headerSize ≤ n by omega) with rfl | hn
                · exact Or.inl h0.symm
                · refine Or.inr ?_
                  rw [withHeader, if_pos h0]
                  exact List.take_of_length_le hn
              · intro n' err' h'
                cases h'
                omega
        | none =>
            have hnone : ∀ n err, (none : Option (Nat × String)) = some (n, err) → n = 0 ∨ headerSize ≤ n :=
              fun n err h => absurd h.symm (Option.some_ne_none (n, err))
            cases hsync : io.syncHeader with
            | some err =>
                refine Or.inr (Or.inl ⟨_, _, rfl, Or.inr ?_, fun h => absurd h0 h, fun _ => Or.inr hnone⟩)
                rw [withHeader, if_pos h0]
                rfl
            | none =>
                refine Or.inl ⟨rfl, fun h => absurd h0 h, fun _ => rfl, ?_⟩
                rw [withHeader, if_pos h0]
      · rw [if_neg h0]
        cases hread : io.readHeader with
        | some err =>
            exact Or.inr (Or.inl ⟨_, f, rfl, Or.inl rfl, fun _ => Or.inr (Option.some_ne_none err), fun h => absurd h h0⟩)
        | none =>
            refine Or.inl ⟨rfl, fun _ => rfl, fun h => absurd h h0, ?_⟩
            rw [ensureHeader_ok_iff.mpr ⟨h, rfl⟩]

section Opening
variable {σ : Type} {replay : σ → Record → Except String σ} {st st' : σ} {f : File} {cs : List Chunk} {t : Bytes}

theorem foldlM_part {rs rs' : List Record} (hle : rs' <+: rs) (h : rs.foldlM replay st = .ok st') :
    ∃ st₁, rs'.foldlM replay st = .ok st₁ := by
  obtain ⟨rest, rfl⟩ := hle
  rw [List.foldlM_append] at h
  cases hfirst : rs'.foldlM replay st with
  | error e =>
      rw [hfirst] at h
      cases h
  | ok st₁ => exact ⟨st₁, rfl⟩

theorem truncateWith_data (io : OpenIO) (h : Accepted f.data cs t) (hfit : ∀ c ∈ cs, c.bytes.length < 2 ^ 32) {t' : Bytes}
    (ht : io.read = none → t' = t) {g : File}
    (hcut : truncateWith io (withHeader f) (if t' = [] ∧ io.read.isSome = false then none
      else some (headerSize + chunkSizes (io.seen cs))) = (none, g)) :
    g.data = header ++ chunkBytes (io.seen cs) ∧ (io.read ≠ none → io.truncate = none) := by
  have hdata := withHeader_data h
  split at hcut
  · next hwhole =>
    obtain ⟨ht', hread⟩ := hwhole
    have hnone : io.read = none := by simpa using hread
    cases hcut
    refine ⟨?_, fun hsome => absurd hnone hsome⟩
    rw [hdata, ← ht hnone, ht', List.append_nil, OpenIO.seen, hnone]
  · simp only [truncateWith] at hcut
    cases htruncate : io.truncate with
    | some err =>
        rw [htruncate] at hcut
        cases hcut
    | none =>
        rw [htruncate] at hcut
        cases hcut
        refine ⟨?_, fun _ => rfl⟩
        obtain ⟨rest, hrest⟩ := io.seen_le cs
        have hseen : ∀ c ∈ io.seen cs, c.bytes.length < 2 ^ 32 := fun c hc => hfit c ((io.seen_le cs).subset hc)
        have hend : headerSize + chunkSizes (io.seen cs) = (header ++ chunkBytes (io.seen cs)).length := by
          rw [chunkSizes_of_lt hseen, List.length_append, length_header]
        have hsplit : (withHeader f).data = header ++ chunkBytes (io.seen cs) ++ (chunkBytes rest ++ t) := by
          rw [hdata, ← hrest, chunkBytes_append, hrest, List.append_assoc, List.append_assoc]
        show (withHeader f).data.take (headerSize + chunkSizes (io.seen cs)) = _
        rw [hsplit, hend, List.take_left]

theorem truncateWith_error {io : OpenIO} {g : File} {o : Option Nat} {err : String}
    (h : truncateWith io f o = (some err, g)) : g = f ∧ io.truncate ≠ none := by
  unfold truncateWith at h
  split at h
  · cases h
  · split at h
    · next htruncate =>
      cases h
      exact ⟨rfl, by rw [htruncate]; exact Option.some_ne_none _⟩
    · cases h

theorem truncateWith_none {io : OpenIO} {g : File} {o : Option Nat} (h : truncateWith io f o = (none, g)) :
    g = truncateTorn f o := by
  cases o with
  | none => exact (Prod.mk.inj h).2.symm
  | some n =>
      simp only [truncateWith] at h
      split at h
      · cases h
      · exact (Prod.mk.inj h).2.symm

theorem Accepted.ne_nil (h : Accepted f.data cs t) {n : Nat} (hn : n < (chunkBytes cs).length) : f.data ≠ [] := by
  intro h0
  have hsplit := h.scanned.split
  rw [h0, List.drop_nil] at hsplit
  rw [(List.append_eq_nil_iff.mp hsplit.symm).1] at hn
  exact absurd hn (Nat.not_lt_zero n)

theorem Accepted.cutsRecords_iff (h : Accepted f.data cs t) {io : OpenIO} (hopen : io.openFile = none) (hstat : io.stat = none)
    (hread : f.data ≠ [] → io.readHeader = none) (hseek : io.seek = none) (htruncate : io.read ≠ none → io.truncate = none) :
    io.CutsRecords cs ↔ io.seen cs ≠ cs := by
  rw [Ne, OpenIO.seen_eq_iff, not_forall]
  constructor
  · rintro ⟨-, -, -, -, -, n, hn, hlt⟩
    exact ⟨n, fun hle => absurd (hle hn) (by omega)⟩
  · rintro ⟨n, hn⟩
    rw [Classical.not_imp, not_le] at hn
    exact ⟨hopen, hstat, hread (h.ne_nil hn.2), hseek, htruncate (by rw [hn.1]; exact Option.some_ne_none n), n, hn⟩

/-- **Every way an `Open` can end**: with an error that leaves the records, with a part of a header, or behind the scan. -/
theorem openWith_cases (io : OpenIO) (path : String) (h : Accepted f.data cs t) (hfit : ∀ c ∈ cs, c.bytes.length < 2 ^ 32)
    (hreplay : (cs.map Chunk.record).foldlM replay st = .ok st') :
    (∃ err g, openWith io path replay st f = (.error err, g) ∧ (g.data = f.data ∨ g.data = (withHeader f).data) ∧
      ¬ io.CutsHeader f ∧ ¬ io.CutsRecords cs) ∨
    (io.CutsHeader f ∧ ∃ err n g, openWith io path replay st f = (.error err, g) ∧ g.data = header.take n ∧ 0 < n ∧
      n < headerSize) ∨
    ∃ r g, openWith io path replay st f = (r, g) ∧ g.data = header ++ chunkBytes (io.seen cs) ∧ ¬ io.CutsHeader f ∧
      (io.CutsRecords cs ↔ io.seen cs ≠ cs) ∧ ((∃ err, io.seekEnd = some err ∧ r = .error ("wal: seek end: " ++ err)) ∨
        ∃ st₁, r = .ok (st₁, openedLog g (io.seen cs)) ∧ ((io.seen cs).map Chunk.record).foldlM replay st = .ok st₁) := by
  unfold openWith
  cases hopen : io.openFile with
  | some err =>
      have hne : io.openFile ≠ none := by rw [hopen]; exact Option.some_ne_none err
      exact Or.inl ⟨_, f, rfl, Or.inl rfl, fun hcut => hne hcut.1, fun hcut => hne hcut.1⟩
  | none =>
      rcases ensureHeaderWith_cases io h.front with ⟨hstat, hreadHeader, hwrite, heq⟩ | ⟨err, g, heq, hg, hold, hnew⟩ |
        ⟨n, err, hstat, h0, hwrite, hpos, hlt, heq⟩
      · have hheader : ¬ io.CutsHeader f := by
          rintro ⟨-, -, h0, n, err, hsome, -⟩
          rw [hwrite h0] at hsome
          cases hsome
        rw [heq]
        dsimp only
        cases hseek : io.seek with
        | some err =>
            refine Or.inl ⟨_, _, rfl, Or.inr rfl, hheader, fun hcut => ?_⟩
            have hnone := hcut.2.2.2.1
            rw [hseek] at hnone
            cases hnone
        | none =>
            obtain ⟨t', hscanned, ht⟩ := io.delivered_scanned h.scanned
            obtain ⟨st₁, hst₁⟩ := foldlM_part ((io.seen_le cs).map Chunk.record) hreplay
            rw [withHeader_drop]
            dsimp only
            rw [recoverWith_scanned io.read.isSome hscanned hst₁ headerSize [], List.nil_append]
            dsimp only
            obtain ⟨e, g, hcut⟩ : ∃ e g, truncateWith io (withHeader f) (if t' = [] ∧ io.read.isSome = false then none
              else some (headerSize + chunkSizes (io.seen cs))) = (e, g) := ⟨_, _, rfl⟩
            rw [hcut]
            cases e with
            | some err =>
                obtain ⟨rfl, hne⟩ := truncateWith_error hcut
                exact Or.inl ⟨_, _, rfl, Or.inr rfl, hheader, fun hcuts => hne hcuts.2.2.2.2.1⟩
            | none =>
                obtain ⟨hdata, htruncate⟩ := truncateWith_data io h hfit ht hcut
                have hrecords := h.cutsRecords_iff hopen hstat hreadHeader hseek htruncate
                cases hend : io.seekEnd with
                | some err => exact Or.inr (Or.inr ⟨_, g, rfl, hdata, hheader, hrecords, Or.inl ⟨err, rfl, rfl⟩⟩)
                | none => exact Or.inr (Or.inr ⟨_, g, rfl, hdata, hheader, hrecords, Or.inr ⟨st₁, rfl, hst₁⟩⟩)
      · rw [heq]
        refine Or.inl ⟨err, g, rfl, hg, ?_, ?_⟩
        · rintro ⟨-, hstat, h0, n, err, hsome, hpos, hlt⟩
          rcases hnew h0 with hne | hall
          · exact hne hstat
          · have := hall n err hsome
            omega
        · rintro ⟨-, hstat, hread, -, -, n, -, hn⟩
          exact (hold (h.ne_nil hn)).elim (fun h => h hstat) fun h => h hread
      · rw [heq]
        exact Or.inr (Or.inl ⟨⟨hopen, hstat, h0, n, err, hwrite, hpos, hlt⟩, _, n, _, rfl, rfl, hpos, hlt⟩)

theorem Accepted.of_same {g : File} (h : Accepted f.data cs t) (hg : g.data = f.data ∨ g.data = (withHeader f).data) :
    Accepted g.data cs t := by
  rcases hg with hg | hg
  · rw [hg]
    exact h
  · refine ⟨Or.inr ?_, ?_⟩
    · rw [hg, withHeader_data h, ← length_header, List.take_left]
    · rw [hg, withHeader_drop]
      exact h.scanned

theorem accepted_chunks {data : Bytes} {cs : List Chunk} (hdata : data = header ++ chunkBytes cs)
    (hst : Stamped 1 (cs.map Chunk.record)) : Accepted data cs [] := by
  refine ⟨Or.inr ?_, ?_, hst, unfinished_nil⟩
  · rw [hdata, ← length_header, List.take_left]
  · rw [hdata, ← length_header, List.drop_left, List.append_nil]

theorem length_part {data : Bytes} {n : Nat} (h : data = header.take n) (hlt : n < headerSize) : data.length = n := by
  rw [h, List.length_take, length_header]
  omega

/-- A part of a header is refused for ever. -/
theorem openWith_part {g : File} {n : Nat} (hg : g.data = header.take n) (hpos : 0 < n) (hlt : n < headerSize) (io : OpenIO)
    (path : String) : ∃ err, openWith io path replay st g = (.error err, g) := by
  have hlen := length_part hg hlt
  have h0 : g.data ≠ [] := fun h0 => by
    rw [h0, List.length_nil] at hlen
    omega
  have hheader : ensureHeader g = .error .readHeader := by
    unfold ensureHeader
    rw [if_neg h0, if_pos (by omega)]
  unfold openWith
  cases io.openFile with
  | some err => exact ⟨_, rfl⟩
  | none =>
      unfold ensureHeaderWith
      cases io.stat with
      | some err => exact ⟨_, rfl⟩
      | none =>
          simp only [if_neg h0, hheader]
          cases io.readHeader with
          | some err => exact ⟨_, rfl⟩
          | none => exact ⟨_, rfl⟩

/-- **Opening a log on a failing disk.** The records of a log that can be read survive every answer of the operating system but
two. If a read fails before the end of the last record and nothing else fails, `Open` takes the record there for a torn one and
cuts it off with all that is behind it; the log it makes has the records that were read. If a new file gets a part of its header, no later
`Open` takes it. -/
theorem open_keeps_iff (io : OpenIO) (path : String) (h : Accepted f.data cs t) (hfit : ∀ c ∈ cs, c.bytes.length < 2 ^ 32)
    (hreplay : (cs.map Chunk.record).foldlM replay st = .ok st') {r : Except String (σ × WAL)} {f' : File}
    (hopen : openWith io path replay st f = (r, f')) :
    ((∃ t', Accepted f'.data cs t') ↔ ¬ io.CutsHeader f ∧ ¬ io.CutsRecords cs) ∧
    (∀ st₁ w, r = .ok (st₁, w) → w = openedLog f' (io.seen cs) ∧ f'.data = header ++ chunkBytes (io.seen cs) ∧
      ((io.seen cs).map Chunk.record).foldlM replay st = .ok st₁) ∧
    (io.CutsRecords cs → io.seekEnd = none → ∃ st₁, r = .ok (st₁, openedLog f' (io.seen cs))) ∧
    (io.CutsHeader f → ∀ io' path', ∃ err, openWith io' path' replay st f' = (.error err, f')) := by
  rcases openWith_cases io path h hfit hreplay with ⟨err, g, heq, hg, hheader, hrecords⟩ |
    ⟨hcuts, err, n, g, heq, hg, hpos, hlt⟩ | ⟨r', g, heq, hg, hheader, hrecords, hr⟩
  · cases hopen.symm.trans heq
    exact ⟨iff_of_true ⟨t, h.of_same hg⟩ ⟨hheader, hrecords⟩, fun _ _ h => (by cases h), fun hcuts => absurd hcuts hrecords,
      fun hcuts => absurd hcuts hheader⟩
  · cases hopen.symm.trans heq
    have hrecords : ¬ io.CutsRecords cs := by
      rintro ⟨-, -, -, -, -, k, -, hk⟩
      exact h.ne_nil hk hcuts.2.2.1
    refine ⟨iff_of_false ?_ fun hnot => hnot.1 hcuts, fun _ _ h => (by cases h), fun h => absurd h hrecords,
      fun _ io' path' => openWith_part hg hpos hlt io' path'⟩
    rintro ⟨t', ht'⟩
    have hlen := length_part hg hlt
    rcases ht'.front with h0 | hfront
    · rw [h0, List.length_nil] at hlen
      omega
    · have hlength := congrArg List.length hfront
      rw [List.length_take, length_header] at hlength
      omega
  · cases hopen.symm.trans heq
    have hstamped : Stamped 1 ((io.seen cs).map Chunk.record) := by
      obtain ⟨rest, hrest⟩ := io.seen_le cs
      have hall := h.scanned.stamped
      rw [← hrest, List.map_append, stamped_append] at hall
      exact hall.1
    have haccepted := accepted_chunks hg hstamped
    refine ⟨?_, ?_, ?_, fun hcuts => absurd hcuts hheader⟩
    · rw [hrecords, not_not]
      constructor
      · rintro ⟨t', ht'⟩
        exact ⟨hheader, (haccepted.scanned.unique ht'.scanned).1⟩
      · rintro ⟨-, hseen⟩
        rw [hseen] at haccepted
        exact ⟨[], haccepted⟩
    · intro st₁ w hok
      rcases hr with ⟨err, -, rfl⟩ | ⟨st₂, rfl, hst₂⟩
      · cases hok
      · cases hok
        exact ⟨rfl, hg, hst₂⟩
    · intro _ hend
      rcases hr with ⟨err, hsome, -⟩ | ⟨st₂, rfl, -⟩
      · rw [hend] at hsome
        cases hsome
      · exact ⟨st₂, rfl⟩

end Opening

/-- A second record. -/
def plainB : Chunk := .ofRecord (stamp putB 2) (by decide)

def twoRecords : File := ⟨header ++ chunkBytes [paddedA, plainB], 0, false, Nat.zero_le _⟩

/-- The reads fail within it. -/
def readFault : OpenIO := { OpenIO.ok with read := some 60 }

theorem open_keeps_first : ∃ w f', openWith readFault "wal" collect [] twoRecords = (.ok ([stamp putA 1], w), f') ∧
    ¬ ∃ t', Accepted f'.data [paddedA, plainB] t' := by
  have haccepted : Accepted twoRecords.data [paddedA, plainB] [] := accepted_chunks rfl ⟨rfl, rfl, trivial⟩
  have hfit : ∀ c ∈ [paddedA, plainB], c.bytes.length < 2 ^ 32 := by
    intro c hc
    rcases List.mem_pair.mp hc with rfl | rfl
    · decide
    · decide
  have hreplay : ([paddedA, plainB].map Chunk.record).foldlM collect [] = .ok [stamp putA 1, stamp putB 2] := rfl
  have hcuts : readFault.CutsRecords [paddedA, plainB] := ⟨rfl, rfl, rfl, rfl, rfl, 60, rfl, by decide⟩
  obtain ⟨r, f', hopen⟩ : ∃ r f', openWith readFault "wal" collect [] twoRecords = (r, f') := ⟨_, _, rfl⟩
  obtain ⟨hkept, hok, hsucceeds, -⟩ := open_keeps_iff readFault "wal" haccepted hfit hreplay hopen
  obtain ⟨st₁, rfl⟩ := hsucceeds hcuts rfl
  obtain ⟨-, -, hst₁⟩ := hok _ _ rfl
  have hseen : readFault.seen [paddedA, plainB] = [paddedA] := by
    have hfirst : paddedA.bytes.length ≤ 60 := by decide
    have hsecond : ¬ plainB.bytes.length ≤ 60 - paddedA.bytes.length := by decide
    show wholeChunks 60 [paddedA, plainB] = [paddedA]
    rw [wholeChunks, if_pos hfirst, wholeChunks, if_neg hsecond]
  rw [hseen] at hst₁
  cases hst₁
  exact ⟨_, f', hopen, fun h => (hkept.mp h).2 hcuts⟩

/-! ## Opening a file again -/

section Again
variable {σ : Type} (replay : σ → Record → Except String σ) (st : σ)

/-- No read fails, and a header is written whole or not at all. -/
structure OpenIO.Harmless (io : OpenIO) : Prop where
  read : io.read = none
  writeHeader : ∀ n err, io.writeHeader = some (n, err) → n = 0 ∨ headerSize ≤ n

/-- What another process sees of a log: all but how much of it is on the disk. -/
def unsyncedFile (f : File) : File := { f with synced := 0, synced_le := Nat.zero_le _ }

def WAL.unsynced (w : WAL) : WAL := { w with out := { w.out with file := unsyncedFile w.out.file } }

def seenLog (r : Except OpenError (σ × WAL)) : Except OpenError (σ × WAL) := r.map (Prod.map id WAL.unsynced)

theorem openFile_new {f : File} (h0 : f.data = []) : (openFile replay st f).2.data = header := by
  unfold openFile
  rw [ensureHeader_nil f h0]
  dsimp only
  rw [recoverFrom_tail replay (Or.inl (show header.drop headerSize = [] from rfl))]
  rfl

theorem unsyncedFile_eq_iff {f g : File} : unsyncedFile f = unsyncedFile g ↔ f.data = g.data ∧ f.closed = g.closed := by
  obtain ⟨data, synced, closed, hle⟩ := f
  obtain ⟨data', synced', closed', hle'⟩ := g
  simp [unsyncedFile]

theorem truncateTorn_unsynced (f : File) (o : Option Nat) :
    unsyncedFile (truncateTorn (unsyncedFile f) o) = unsyncedFile (truncateTorn f o) := by
  cases o with
  | none => rfl
  | some n => exact unsyncedFile_eq_iff.mpr ⟨rfl, rfl⟩

theorem ensureHeader_unsynced {f : File} (h0 : f.data ≠ []) :
    ensureHeader (unsyncedFile f) = (ensureHeader f).map unsyncedFile := by
  unfold ensureHeader unsyncedFile
  dsimp only
  rw [if_neg h0, if_neg h0]
  split_ifs <;> rfl

/-- What `wal.Open` finds does not depend on how much of the file is on the disk. -/
theorem openFile_unsynced (f : File) : seenLog (openFile replay st (unsyncedFile f)).1 = seenLog (openFile replay st f).1 ∧
    (openFile replay st (unsyncedFile f)).2.data = (openFile replay st f).2.data := by
  unfold openFile
  by_cases h0 : f.data = []
  · rw [ensureHeader_nil f h0, ensureHeader_nil (unsyncedFile f) h0]
    exact ⟨rfl, rfl⟩
  · rw [ensureHeader_unsynced h0]
    cases hheader : ensureHeader f with
    | error e => exact ⟨rfl, rfl⟩
    | ok g =>
        simp only [Except.map]
        rw [show (unsyncedFile g).data = g.data from rfl]
        cases recoverFrom replay st 1 headerSize [] (g.data.drop headerSize) with
        | error e => exact ⟨rfl, rfl⟩
        | ok R =>
            have hfile := truncateTorn_unsynced g R.truncateAt
            have hdata := (unsyncedFile_eq_iff.mp hfile).1
            refine ⟨?_, hdata⟩
            simp only [seenLog, Except.map, Prod.map, WAL.unsynced, hfile, hdata]

theorem openFile_congr {f g : File} (hdata : f.data = g.data) (hclosed : f.closed = g.closed) :
    seenLog (openFile replay st f).1 = seenLog (openFile replay st g).1 ∧
      (openFile replay st f).2.data = (openFile replay st g).2.data := by
  have heq := unsyncedFile_eq_iff.mpr ⟨hdata, hclosed⟩
  obtain ⟨hf, hf'⟩ := openFile_unsynced replay st f
  obtain ⟨hg, hg'⟩ := openFile_unsynced replay st g
  rw [heq] at hf hf'
  exact ⟨hf.symm.trans hg, hf'.symm.trans hg'⟩

theorem openFile_file {f g : File} (hheader : ensureHeader f = .ok g) {R : Recovered σ}
    (hscan : recoverFrom replay st 1 headerSize [] (g.data.drop headerSize) = .ok R) :
    (openFile replay st f).2 = truncateTorn g R.truncateAt := by
  unfold openFile
  rw [hheader]
  dsimp only
  rw [hscan]

theorem openFile_closed (f : File) : (openFile replay st f).2.closed = f.closed := by
  unfold openFile
  cases hheader : ensureHeader f with
  | error e => rfl
  | ok g =>
      obtain ⟨-, rfl⟩ := ensureHeader_ok_iff.mp hheader
      dsimp only
      split
      · exact withHeader_closed f
      · rw [truncateTorn_closed, withHeader_closed]

/-- No record in front of a torn one is so long that its size wraps. -/
def Wieldy (data : Bytes) : Prop := ∀ cs t, Accepted data cs t → t ≠ [] → ∀ c ∈ cs, c.bytes.length < 2 ^ 32

theorem ensureHeader_withHeader {f : File} (hfront : f.data = [] ∨ f.data.take headerSize = header) :
    ensureHeader (withHeader f) = .ok (withHeader f) := by
  by_cases h0 : f.data = []
  · rw [withHeader, if_pos h0]
    rfl
  · have hsame : withHeader f = f := if_neg h0
    rw [hsame]
    exact ensureHeader_ok_iff.mpr ⟨hfront, hsame.symm⟩

/-- The second `wal.Open` finds what the first one found, and leaves the file alone. -/
theorem openFile_again {f : File} (h : Wieldy f.data) : openFile replay st (openFile replay st f).2 = openFile replay st f := by
  obtain ⟨r, f', hopen⟩ : ∃ r f', openFile replay st f = (r, f') := ⟨_, _, rfl⟩
  rw [hopen]
  cases r with
  | ok p =>
      obtain ⟨st', w⟩ := p
      obtain ⟨cs, t, haccepted, hreplay, rfl, rfl⟩ := accepted_of_openFile hopen
      have hdata := keptFile_data haccepted (h cs t haccepted)
      have hagain : Accepted (keptFile f cs t).data cs [] := accepted_chunks hdata haccepted.scanned.stamped
      have hsame : keptFile (keptFile f cs t) cs [] = keptFile f cs t := by
        rw [keptFile, if_pos rfl, truncateTorn, withHeader, if_neg]
        rw [hdata]
        exact List.cons_ne_nil _ _
      rw [openFile_accepted hagain hreplay, hsame]
  | error e =>
      unfold openFile at hopen ⊢
      cases hheader : ensureHeader f with
      | error e' =>
          rw [hheader] at hopen
          cases hopen
          dsimp only
          rw [hheader]
      | ok g =>
          obtain ⟨hfront, rfl⟩ := ensureHeader_ok_iff.mp hheader
          simp only [hheader] at hopen
          cases hscan : recoverFrom replay st 1 headerSize [] ((withHeader f).data.drop headerSize) with
          | ok R =>
              rw [hscan] at hopen
              cases hopen
          | error e' =>
              rw [hscan] at hopen
              cases hopen
              simp only [ensureHeader_withHeader hfront, hscan]

theorem withHeader_settles (f : File) :
    (withHeader f).data = f.data ∨ (withHeader f).data = (openFile replay st f).2.data := by
  by_cases h0 : f.data = []
  · right
    rw [openFile_new replay st h0, withHeader, if_pos h0]
  · left
    rw [withHeader, if_neg h0]

theorem ensureHeaderWith_settles {io : OpenIO} (hio : io.Harmless) {f g : File} {e : Option String}
    (h : ensureHeaderWith io f = (e, g)) :
    g.closed = f.closed ∧ (g.data = f.data ∨ g.data = (withHeader f).data) ∧ (e = none → ensureHeader f = .ok g) := by
  unfold ensureHeaderWith at h
  split at h
  · cases h
    exact ⟨rfl, Or.inl rfl, fun h => absurd h (Option.some_ne_none _)⟩
  · split at h
    · next h0 =>
      have hnew : (withHeader f).data = header := by rw [withHeader, if_pos h0]
      split at h
      · next n err hwrite =>
        cases h
        refine ⟨rfl, ?_, fun h => absurd h (Option.some_ne_none _)⟩
        rcases hio.writeHeader n err hwrite with rfl | hn
        · exact Or.inl h0.symm
        · exact Or.inr ((List.take_of_length_le hn).trans hnew.symm)
      · split at h
        · cases h
          exact ⟨rfl, Or.inr hnew.symm, fun h => absurd h (Option.some_ne_none _)⟩
        · cases h
          exact ⟨rfl, Or.inr hnew.symm, fun _ => ensureHeader_nil f h0⟩
    · split at h
      · cases h
        exact ⟨rfl, Or.inl rfl, fun h => absurd h (Option.some_ne_none _)⟩
      · split at h
        · cases h
          exact ⟨rfl, Or.inl rfl, fun h => absurd h (Option.some_ne_none _)⟩
        · next hok =>
          cases h
          obtain ⟨-, rfl⟩ := ensureHeader_ok_iff.mp hok
          exact ⟨withHeader_closed f, Or.inr rfl, fun _ => hok⟩

/-- The file `g` is `f` as it was, or as an `Open` leaves it. -/
structure Unharmed (f g : File) : Prop where
  closed : g.closed = f.closed
  data : g.data = f.data ∨ g.data = (openFile replay st f).2.data

theorem Unharmed.refl (f : File) : Unharmed replay st f f := ⟨rfl, Or.inl rfl⟩

theorem openWith_settles {io : OpenIO} (hio : io.Harmless) {path : String} {f g : File} {r : Except String (σ × WAL)}
    (h : openWith io path replay st f = (r, g)) : Unharmed replay st f g := by
  unfold openWith at h
  split at h
  · cases h
    exact ⟨rfl, Or.inl rfl⟩
  · cases hheader : ensureHeaderWith io f with
    | mk e f₁ =>
    obtain ⟨hclosed, hdata, hok⟩ := ensureHeaderWith_settles hio hheader
    have hfirst : f₁.data = f.data ∨ f₁.data = (openFile replay st f).2.data := by
      rcases hdata with hdata | hdata
      · exact Or.inl hdata
      · rw [hdata]
        exact withHeader_settles replay st f
    rw [hheader] at h
    cases e with
    | some err =>
        cases h
        exact ⟨hclosed, hfirst⟩
    | none =>
        dsimp only at h
        split at h
        · cases h
          exact ⟨hclosed, hfirst⟩
        · rw [ OpenIO.delivered, hio.read] at h
          simp only [Option.isSome_none, recoverWith_false] at h
          cases hscan : recoverFrom replay st 1 headerSize [] (f₁.data.drop headerSize) with
          | error err =>
              rw [hscan] at h
              cases h
              exact ⟨hclosed, hfirst⟩
          | ok R =>
              simp only [hscan] at h
              cases hcut : truncateWith io f₁ R.truncateAt with
              | mk e f₂ =>
              rw [hcut] at h
              cases e with
              | some err =>
                  cases h
                  obtain ⟨rfl, -⟩ := truncateWith_error hcut
                  exact ⟨hclosed, hfirst⟩
              | none =>
                  have hg : g = f₂ := by
                    dsimp only at h
                    split at h
                    · exact (Prod.mk.inj h).2.symm
                    · exact (Prod.mk.inj h).2.symm
                  rw [hg, truncateWith_none hcut]
                  refine ⟨(truncateTorn_closed _ _).trans hclosed, Or.inr ?_⟩
                  rw [openFile_file replay st (hok rfl) hscan]

/-- Whoever opens that file finds what they would have found before. -/
theorem Unharmed.openFile {f g : File} (hg : Unharmed replay st f g) (h : Wieldy f.data) :
    seenLog (Wal.openFile replay st g).1 = seenLog (Wal.openFile replay st f).1 ∧
      (Wal.openFile replay st g).2.data = (Wal.openFile replay st f).2.data := by
  rcases hg.data with hdata | hdata
  · exact openFile_congr replay st hdata hg.closed
  · have hagain := openFile_congr replay st hdata (hg.closed.trans (openFile_closed replay st f).symm)
    rwa [openFile_again replay st h] at hagain

theorem Unharmed.trans {f g g' : File} (hg : Unharmed replay st f g) (h : Wieldy f.data) (hg' : Unharmed replay st g g') :
    Unharmed replay st f g' := by
  refine ⟨hg'.closed.trans hg.closed, ?_⟩
  rcases hg'.data with hdata | hdata
  · rw [hdata]
    exact hg.data
  · rw [hdata, (hg.openFile replay st h).2]
    exact Or.inr rfl

theorem openWith_log {io : OpenIO} {path : String} {f g : File} {st' : σ} {w : WAL}
    (h : openWith io path replay st f = (.ok (st', w), g)) : w.out = ⟨g, [], none⟩ := by
  unfold openWith at h
  split at h
  · cases h
  · split at h
    · cases h
    · split at h
      · cases h
      · split at h
        · cases h
        · split at h
          · cases h
          · split at h
            · cases h
            · cases h
              rfl

end Again

end Uddp.Wal

import Uddp.Wal.Single

/-!
# The files a log accepts

`wal.Open` is the only reader of a log, so what it takes is the format. It takes more than `Append` writes: a payload may go
on behind the record it decodes to, and the last record may be cut anywhere.

* `Chunk` : one record as `readRecord` takes it, with the bytes that nobody reads; `readRecord_record_iff` : nothing else is
  a record. `Unfinished t` : what `recover_` cuts off; `readRecord_torn_iff`;
* `Accepted data cs t` : the chunks and the unfinished rest of a file. `Accepted.unique` : a file has one reading;
* **`openFile_ok_iff`** : the files that `wal.Open` takes, and the log it makes of each of them;
* `session`, **`sessions_keep_records`** : what any number of processes find that open such a file, append to it and close it.
-/

namespace Uddp.Wal
open Uddp.Lib

/-! ## One record -/

/-- The record of a frame, and what stands behind it in the payload. -/
structure Chunk where
  record : Record
  pad : Bytes
  fits : 4 + (encodePayload record ++ pad).length < 2 ^ 32

namespace Chunk

def payload (c : Chunk) : Bytes := encodePayload c.record ++ c.pad

def body (c : Chunk) : Bytes := putUint32 (checksumIEEE c.payload) ++ c.payload

def bytes (c : Chunk) : Bytes := putUint32 (UInt32.ofNat c.body.length) ++ c.body

/-- What the reader adds to its offset. -/
def size (c : Chunk) : Nat := c.bytes.length % 2 ^ 32

theorem length_body (c : Chunk) : c.body.length = 4 + c.payload.length := by
  rw [body, List.length_append, length_putUint32]

theorem length_bytes (c : Chunk) : c.bytes.length = 4 + c.body.length := by
  rw [bytes, List.length_append, length_putUint32]

theorem body_lt (c : Chunk) : c.body.length < 2 ^ 32 := by
  rw [c.length_body]
  exact c.fits

theorem lengthsFit (c : Chunk) : LengthsFit c.record := by
  have h := c.fits
  rw [List.length_append, length_encodePayload] at h
  exact ⟨by omega, by omega, by omega⟩

/-- What `Append` writes for `r`. -/
def ofRecord (r : Record) (h : (Wal.body r).length < 2 ^ 32) : Chunk :=
  ⟨r, [], by rw [List.append_nil]; rwa [Wal.length_body] at h⟩

@[simp] theorem bytes_ofRecord (r : Record) (h : (Wal.body r).length < 2 ^ 32) : (ofRecord r h).bytes = frame r := by
  have hp : (ofRecord r h).payload = encodePayload r := List.append_nil _
  rw [bytes, body, hp]
  rfl

end Chunk

theorem readRecord_chunk (c : Chunk) (rest : Bytes) : readRecord (c.bytes ++ rest) = .record c.record c.size rest := by
  have hlen : (UInt32.ofNat c.body.length).toNat = c.body.length := toNat_ofNat_length c.body_lt
  have htake : c.body.take 4 = putUint32 (checksumIEEE c.payload) := by
    rw [Chunk.body, ← length_putUint32 (checksumIEEE c.payload), List.take_left]
  have hdrop : c.body.drop 4 = c.payload := by
    rw [Chunk.body, ← length_putUint32 (checksumIEEE c.payload), List.drop_left]
  have hsize : (4 + UInt32.ofNat c.body.length).toNat = c.size := by
    rw [Chunk.size, c.length_bytes, UInt32.toNat_add, hlen]
    rfl
  rw [Chunk.bytes, List.append_assoc, readRecord_append (length_putUint32 _) (by rw [uint32_putUint32, hlen])
    (by rw [c.length_body]; omega) rest, htake, hdrop, uint32_putUint32, if_neg (by simp), Chunk.payload,
    decodePayload_encodePayload c.record c.pad c.lengthsFit, uint32_putUint32]
  simp only [hsize]

/-- The end of the file, or a record that the file does not hold whole. -/
def Unfinished (t : Bytes) : Prop :=
  t.length < 4 ∨ t.length < 4 + (uint32 (t.take 4)).toNat ∨ (uint32 (t.take 4)).toNat < 4

instance (t : Bytes) : Decidable (Unfinished t) := inferInstanceAs (Decidable (_ ∨ _ ∨ _))

theorem split_of_not_unfinished {r : Bytes} (h : ¬ Unfinished r) :
    ∃ l b rest, r = l ++ (b ++ rest) ∧ l.length = 4 ∧ b.length = (uint32 l).toNat ∧ 4 ≤ b.length := by
  unfold Unfinished at h
  push Not at h
  obtain ⟨h₄, hlen, hbody⟩ := h
  refine ⟨r.take 4, (r.drop 4).take (uint32 (r.take 4)).toNat, (r.drop 4).drop (uint32 (r.take 4)).toNat, ?_, ?_, ?_, ?_⟩
  · rw [List.take_append_drop, List.take_append_drop]
  · rw [List.length_take]
    omega
  · rw [List.length_take, List.length_drop]
    omega
  · rw [List.length_take, List.length_drop]
    omega

theorem readRecord_unfinished {t : Bytes} (h : Unfinished t) (h0 : t ≠ []) : readRecord t = .torn := by
  unfold readRecord
  rw [if_neg h0]
  by_cases h₄ : t.length < 4
  · rw [if_pos h₄]
  · rw [if_neg h₄]
    dsimp only
    by_cases hlen : (t.drop 4).length < (uint32 (t.take 4)).toNat
    · rw [if_pos hlen]
    · have hbody : ((t.drop 4).take (uint32 (t.take 4)).toNat).length < 4 := by
        rw [List.length_drop] at hlen
        rw [List.length_take, List.length_drop]
        rcases h with h | h | h
        · exact absurd h h₄
        · omega
        · omega
      rw [if_neg hlen, if_pos hbody]

/-- **What reads as a record**: a chunk. -/
theorem readRecord_record_iff {r rest : Bytes} {rec : Record} {n : Nat} :
    readRecord r = .record rec n rest ↔ ∃ c : Chunk, c.record = rec ∧ c.size = n ∧ r = c.bytes ++ rest := by
  refine ⟨fun h => ?_, ?_⟩
  · have hun : ¬ Unfinished r := by
      intro hun
      by_cases h0 : r = []
      · rw [h0] at h
        cases h
      · rw [readRecord_unfinished hun h0] at h
        cases h
    obtain ⟨l, b, rest', rfl, hl, hb, hb₄⟩ := split_of_not_unfinished hun
    have hread := readRecord_append hl hb hb₄ rest'
    by_cases hcrc : checksumIEEE (b.drop 4) ≠ uint32 (b.take 4)
    · rw [hread, if_pos hcrc] at h
      cases h
    · rw [if_neg hcrc] at hread
      push Not at hcrc
      cases hdec : decodePayload (b.drop 4) with
      | error e =>
          rw [hread, hdec] at h
          cases h
      | ok rec' =>
          obtain ⟨⟨pad, hpad⟩, -⟩ := encodePayload_of_decodePayload hdec
          have hb32 : b.length < 2 ^ 32 := hb ▸ UInt32.toNat_lt _
          have hfit : 4 + (encodePayload rec' ++ pad).length < 2 ^ 32 := by
            rw [← hpad, List.length_drop]
            omega
          obtain ⟨c, hc⟩ : ∃ c : Chunk, c = ⟨rec', pad, hfit⟩ := ⟨_, rfl⟩
          -- the bytes in front of the rest are those of the chunk
          have hbody : c.body = b := by
            have hpayload : c.payload = b.drop 4 := by rw [hc, hpad, Chunk.payload]
            have htake : (b.take 4).length = 4 := by
              rw [List.length_take]
              omega
            rw [Chunk.body, hpayload, hcrc, putUint32_uint32 _ htake, List.take_append_drop]
          have hlength : putUint32 (UInt32.ofNat c.body.length) = l := by
            rw [hbody]
            exact (putUint32_of_length hl hb).1
          have hbytes : l ++ (b ++ rest') = c.bytes ++ rest' := by rw [Chunk.bytes, hlength, hbody, List.append_assoc]
          rw [hbytes, readRecord_chunk] at h
          injection h with h₁ h₂ h₃
          subst h₃
          exact ⟨c, h₁, h₂, hbytes⟩
  · rintro ⟨c, rfl, rfl, rfl⟩
    exact readRecord_chunk c rest

theorem readRecord_eof {r : Bytes} (h : readRecord r = .eof) : r = [] := by
  by_contra h0
  unfold readRecord at h
  rw [if_neg h0] at h
  split_ifs at h
  dsimp only at h
  split_ifs at h
  split at h
  · cases h
  · cases h

/-- **What reads as torn.** -/
theorem readRecord_torn_iff {t : Bytes} : readRecord t = .torn ↔ t ≠ [] ∧ Unfinished t := by
  refine ⟨fun h => ⟨fun h0 => ?_, ?_⟩, fun h => readRecord_unfinished h.2 h.1⟩
  · rw [h0] at h
    cases h
  · by_contra hun
    obtain ⟨l, b, rest, rfl, hl, hb, hb₄⟩ := split_of_not_unfinished hun
    rw [readRecord_append hl hb hb₄] at h
    split at h
    · cases h
    · split at h
      · cases h
      · cases h

/-! ## Records behind each other -/

def chunkBytes (cs : List Chunk) : Bytes := cs.flatMap Chunk.bytes

/-- How far the reader's offset moves. -/
def chunkSizes (cs : List Chunk) : Nat := (cs.map Chunk.size).sum

/-- The offsets it notes down, the first at `o`. -/
def chunkOffsets : Nat → List Chunk → List Nat
  | _, [] => []
  | o, c :: cs => o :: chunkOffsets (o + c.size) cs

theorem chunkBytes_cons (c : Chunk) (cs : List Chunk) : chunkBytes (c :: cs) = c.bytes ++ chunkBytes cs := rfl

theorem chunkBytes_append (cs cs' : List Chunk) : chunkBytes (cs ++ cs') = chunkBytes cs ++ chunkBytes cs' :=
  List.flatMap_append

theorem chunkSizes_cons (c : Chunk) (cs : List Chunk) : chunkSizes (c :: cs) = c.size + chunkSizes cs := rfl

/-- The bytes `r` are the chunks `cs` with the positions from `next` on, and then something unfinished. -/
structure Scanned (next : UInt64) (r : Bytes) (cs : List Chunk) (t : Bytes) : Prop where
  split : r = chunkBytes cs ++ t
  stamped : Stamped next (cs.map Chunk.record)
  tail : Unfinished t

theorem Scanned.cons {next : UInt64} {rest : Bytes} {c : Chunk} {cs : List Chunk} {t : Bytes} (h : Scanned (next + 1) rest cs t)
    (hc : c.record.commitPosition = next) : Scanned next (c.bytes ++ rest) (c :: cs) t :=
  ⟨by rw [h.split, chunkBytes_cons, List.append_assoc], ⟨hc, h.stamped⟩, h.tail⟩

theorem Scanned.of_cons {next : UInt64} {r : Bytes} {c : Chunk} {cs : List Chunk} {t : Bytes} (h : Scanned next r (c :: cs) t) :
    r = c.bytes ++ (chunkBytes cs ++ t) ∧ c.record.commitPosition = next ∧ Scanned (next + 1) (chunkBytes cs ++ t) cs t :=
  ⟨by rw [h.split, chunkBytes_cons, List.append_assoc], h.stamped.1, rfl, h.stamped.2, h.tail⟩

theorem unfinished_nil : Unfinished [] := Or.inl (Nat.succ_pos 3)

theorem unfinished_cases {t : Bytes} (h : Unfinished t) : t = [] ∨ readRecord t = .torn := by
  by_cases h0 : t = []
  · exact Or.inl h0
  · exact Or.inr (readRecord_torn_iff.mpr ⟨h0, h⟩)

theorem not_unfinished_chunk (c : Chunk) (rest : Bytes) : ¬ Unfinished (c.bytes ++ rest) := by
  intro h
  have hread := readRecord_chunk c rest
  rcases unfinished_cases h with h | h
  · rw [h] at hread
    cases hread
  · rw [h] at hread
    cases hread

theorem Chunk.eq_of_bytes {c c' : Chunk} (hrec : c.record = c'.record) (hbytes : c.bytes = c'.bytes) : c = c' := by
  have hbody : c.body = c'.body := List.append_inj_right hbytes (by simp)
  have hpayload : c.payload = c'.payload := List.append_inj_right hbody (by simp)
  obtain ⟨r, pad, hfit⟩ := c
  obtain ⟨r', pad', hfit'⟩ := c'
  cases hrec
  have hpad : pad = pad' := List.append_cancel_left hpayload
  subst hpad
  rfl

/-- **One reading.** The chunks of a file and what is left behind them are determined by its bytes. -/
theorem Scanned.unique {next : UInt64} {r : Bytes} {cs cs' : List Chunk} {t t' : Bytes} (h : Scanned next r cs t)
    (h' : Scanned next r cs' t') : cs = cs' ∧ t = t' := by
  induction cs generalizing next r cs' with
  | nil =>
      have hr : r = t := h.split
      cases cs' with
      | nil => exact ⟨rfl, hr.symm.trans h'.split⟩
      | cons c' cs' =>
          exact absurd (h'.of_cons.1 ▸ hr ▸ h.tail) (not_unfinished_chunk c' _)
  | cons c cs ih =>
      obtain ⟨hr, -, hrest⟩ := h.of_cons
      cases cs' with
      | nil =>
          have hr' : r = t' := h'.split
          exact absurd (hr ▸ hr' ▸ h'.tail) (not_unfinished_chunk c _)
      | cons c' cs' =>
          obtain ⟨hr', -, hrest'⟩ := h'.of_cons
          -- the first record and what is behind it are what `readRecord` finds
          have hread := readRecord_chunk c (chunkBytes cs ++ t)
          rw [← hr, hr', readRecord_chunk] at hread
          injection hread with hrec _ htail
          rw [hr', htail] at hr
          have hc : c' = c := Chunk.eq_of_bytes hrec (List.append_cancel_right hr)
          rw [htail] at hrest'
          obtain ⟨rfl, rfl⟩ := ih hrest hrest'
          exact ⟨by rw [hc], rfl⟩

/-! ## The scan -/

section Scan
variable {σ : Type} {replay : σ → Record → Except String σ}

theorem recoverFrom_scanned {cs : List Chunk} {next : UInt64} {r t : Bytes} (h : Scanned next r cs t) {st st' : σ}
    (hreplay : (cs.map Chunk.record).foldlM replay st = .ok st') (o : Nat) (offs : List Nat) :
    recoverFrom replay st next o offs r = .ok ⟨st', next + UInt64.ofNat cs.length, offs ++ chunkOffsets o cs,
      if t = [] then none else some (o + chunkSizes cs)⟩ := by
  induction cs generalizing next r st o offs with
  | nil =>
      have hr : r = t := h.split
      have hst : st = st' := Except.ok.inj hreplay
      rw [hr, recoverFrom_tail replay (unfinished_cases h.tail), hst]
      simp [chunkOffsets, chunkSizes]
  | cons c cs ih =>
      obtain ⟨hr, rfl, hrest⟩ := h.of_cons
      rw [List.map_cons, List.foldlM_cons] at hreplay
      cases hone : replay st c.record with
      | error e =>
          rw [hone] at hreplay
          cases hreplay
      | ok st₁ =>
          rw [hone] at hreplay
          have hstep := @recoverFrom_record σ replay (fun _ _ => st₁) _ _ hone _ _ _ (readRecord_chunk c (chunkBytes cs ++ t)) o offs
          rw [hr, hstep, ih hrest hreplay]
          simp only [position_succ, List.length_cons, chunkOffsets, List.append_assoc, List.singleton_append, chunkSizes_cons,
            Nat.add_assoc]

/-- **The scan succeeds** on these bytes and on no others. -/
theorem scanned_of_recoverFrom {next : UInt64} {r : Bytes} {st : σ} {o : Nat} {offs : List Nat} {R : Recovered σ}
    (h : recoverFrom replay st next o offs r = .ok R) :
    ∃ cs t, Scanned next r cs t ∧ (cs.map Chunk.record).foldlM replay st = .ok R.st := by
  fun_induction recoverFrom replay st next o offs r with
  | case1 st next o offs r heof =>
      have hst : st = R.st := congrArg Recovered.st (Except.ok.inj h)
      exact ⟨[], r, ⟨rfl, trivial, readRecord_eof heof ▸ unfinished_nil⟩, congrArg Except.ok hst⟩
  | case2 st next o offs r htorn =>
      have hst : st = R.st := congrArg Recovered.st (Except.ok.inj h)
      exact ⟨[], r, ⟨rfl, trivial, (readRecord_torn_iff.mp htorn).2⟩, congrArg Except.ok hst⟩
  | case3 => cases h
  | case4 => cases h
  | case5 => cases h
  | case6 st next o offs r rec n rest hread hnext st₁ hone ih =>
      obtain ⟨cs, t, hscan, hrest⟩ := ih h
      obtain ⟨c, rfl, -, rfl⟩ := readRecord_record_iff.mp hread
      refine ⟨c :: cs, t, hscan.cons (not_not.mp hnext), ?_⟩
      rw [List.map_cons, List.foldlM_cons, hone]
      exact hrest

end Scan

/-! ## A whole file -/

/-- The reading of a file. A new one is empty, and any other starts with the header. -/
structure Accepted (data : Bytes) (cs : List Chunk) (t : Bytes) : Prop where
  front : data = [] ∨ data.take headerSize = header
  scanned : Scanned 1 (data.drop headerSize) cs t

/-- What `ensureHeader` makes of a file that it does not refuse. -/
def withHeader (f : File) : File :=
  if f.data = [] then { f with data := header, synced := headerSize, synced_le := le_rfl } else f

/-- The file that `wal.Open` leaves. An unfinished rest is cut off where the sizes of the records end. -/
def keptFile (f : File) (cs : List Chunk) (t : Bytes) : File :=
  truncateTorn (withHeader f) (if t = [] then none else some (headerSize + chunkSizes cs))

/-- The log over the file `f`. -/
def openedLog (f : File) (cs : List Chunk) : WAL :=
  { out := ⟨f, [], none⟩, next := 1 + UInt64.ofNat cs.length, byteOffsets := chunkOffsets headerSize cs, pendingSeq := 0
    flushedSeq := 0, flushErr := none, leading := false, writeOffset := f.data.length }

theorem ensureHeader_ok_iff {f f' : File} :
    ensureHeader f = .ok f' ↔ (f.data = [] ∨ f.data.take headerSize = header) ∧ f' = withHeader f := by
  by_cases h0 : f.data = []
  · rw [ensureHeader_nil f h0, withHeader, if_pos h0]
    exact ⟨fun h => ⟨Or.inl h0, (Except.ok.inj h).symm⟩, fun h => congrArg Except.ok h.2.symm⟩
  · rw [withHeader, if_neg h0]
    refine ⟨fun h => ?_, ?_⟩
    · unfold ensureHeader at h
      rw [if_neg h0] at h
      split_ifs at h with hlen hmagic hversion
      refine ⟨Or.inr ?_, (Except.ok.inj h).symm⟩
      rw [show headerSize = 4 + 1 from rfl, List.take_add, not_not.mp hmagic, not_not.mp hversion]
      rfl
    · rintro ⟨hfront | hfront, hf'⟩
      · exact absurd hfront h0
      · have hsplit := List.take_append_drop headerSize f.data
        rw [hfront] at hsplit
        rw [hf', ensureHeader_header f hsplit.symm]

theorem withHeader_drop (f : File) : (withHeader f).data.drop headerSize = f.data.drop headerSize := by
  unfold withHeader
  split
  · next h0 =>
    rw [h0]
    rfl
  · rfl

section Opening
variable {σ : Type} {replay : σ → Record → Except String σ} {st st' : σ} {f : File}

theorem accepted_of_openFile {f' : File} {w : WAL} (h : openFile replay st f = (.ok (st', w), f')) :
    ∃ cs t, Accepted f.data cs t ∧ (cs.map Chunk.record).foldlM replay st = .ok st' ∧ f' = keptFile f cs t ∧
      w = openedLog f' cs := by
  unfold openFile at h
  cases hheader : ensureHeader f with
  | error e =>
      rw [hheader] at h
      cases h
  | ok g =>
      obtain ⟨hfront, rfl⟩ := ensureHeader_ok_iff.mp hheader
      simp only [hheader, withHeader_drop] at h
      cases hscan : recoverFrom replay st 1 headerSize [] (f.data.drop headerSize) with
      | error e =>
          rw [hscan] at h
          cases h
      | ok R =>
          obtain ⟨cs, t, hscanned, hreplay⟩ := scanned_of_recoverFrom hscan
          simp only [recoverFrom_scanned hscanned hreplay, List.nil_append, Prod.mk.injEq, Except.ok.injEq] at h
          obtain ⟨⟨rfl, rfl⟩, rfl⟩ := h
          exact ⟨cs, t, ⟨hfront, hscanned⟩, hreplay, rfl, rfl⟩

theorem openFile_accepted {cs : List Chunk} {t : Bytes} (h : Accepted f.data cs t)
    (hreplay : (cs.map Chunk.record).foldlM replay st = .ok st') :
    openFile replay st f = (.ok (st', openedLog (keptFile f cs t) cs), keptFile f cs t) := by
  unfold openFile
  simp only [ensureHeader_ok_iff.mpr ⟨h.front, rfl⟩, withHeader_drop, recoverFrom_scanned h.scanned hreplay, List.nil_append]
  rfl

/-- **`wal.Open`** succeeds on the files that have a reading and whose records `replay` takes, and on no others. The log it
makes goes on with the position behind theirs. -/
theorem openFile_ok_iff {σ : Type} {replay : σ → Record → Except String σ} {st st' : σ} {f f' : File} {w : WAL} :
    openFile replay st f = (.ok (st', w), f') ↔ ∃ cs t, Accepted f.data cs t ∧
      (cs.map Chunk.record).foldlM replay st = .ok st' ∧ f' = keptFile f cs t ∧ w = openedLog f' cs := by
  refine ⟨accepted_of_openFile, ?_⟩
  rintro ⟨cs, t, haccepted, hreplay, rfl, rfl⟩
  exact openFile_accepted haccepted hreplay

end Opening

/-! ## Process after process -/

theorem Chunk.size_of_lt {c : Chunk} (h : c.bytes.length < 2 ^ 32) : c.size = c.bytes.length := Nat.mod_eq_of_lt h

theorem chunkSizes_of_lt {cs : List Chunk} (h : ∀ c ∈ cs, c.bytes.length < 2 ^ 32) : chunkSizes cs = (chunkBytes cs).length := by
  induction cs with
  | nil => rfl
  | cons c cs ih =>
      rw [chunkSizes_cons, chunkBytes_cons, List.length_append, Chunk.size_of_lt (h c (by simp)),
        ih fun c' hc' => h c' (by simp [hc'])]

theorem withHeader_data {f : File} {cs : List Chunk} {t : Bytes} (h : Accepted f.data cs t) :
    (withHeader f).data = header ++ (chunkBytes cs ++ t) := by
  have hdrop := withHeader_drop f
  have htake : (withHeader f).data.take headerSize = header := by
    unfold withHeader
    split
    · rfl
    · next h0 => exact h.front.resolve_left h0
  rw [← List.take_append_drop headerSize (withHeader f).data, htake, hdrop, h.scanned.split]

theorem truncateTorn_closed (f : File) (o : Option Nat) : (truncateTorn f o).closed = f.closed := by
  cases o with
  | none => rfl
  | some o => rfl

theorem withHeader_closed (f : File) : (withHeader f).closed = f.closed := by
  unfold withHeader
  split
  · rfl
  · rfl

/-- The records survive the cut, unless the sizes in front of it have wrapped. -/
theorem keptFile_data {f : File} {cs : List Chunk} {t : Bytes} (h : Accepted f.data cs t)
    (hfit : t ≠ [] → ∀ c ∈ cs, c.bytes.length < 2 ^ 32) : (keptFile f cs t).data = header ++ chunkBytes cs := by
  have hdata := withHeader_data h
  unfold keptFile
  by_cases h0 : t = []
  · rw [if_pos h0]
    rw [h0, List.append_nil] at hdata
    exact hdata
  · have hend : headerSize + chunkSizes cs = (header ++ chunkBytes cs).length := by
      rw [chunkSizes_of_lt (hfit h0), List.length_append, length_header]
    rw [if_neg h0]
    show (withHeader f).data.take (headerSize + chunkSizes cs) = _
    rw [hdata, hend, ← List.append_assoc, List.take_left]

theorem chunks_of_records {rs : List Record} (h : ∀ r ∈ rs, (body r).length < 2 ^ 32) :
    ∃ cs, chunkBytes cs = frames rs ∧ cs.map Chunk.record = rs := by
  induction rs with
  | nil => exact ⟨[], rfl, rfl⟩
  | cons r rs ih =>
      obtain ⟨cs, hbytes, hrecords⟩ := ih fun r' hr' => h r' (by simp [hr'])
      refine ⟨.ofRecord r (h r (by simp)) :: cs, ?_, ?_⟩
      · rw [chunkBytes_cons, Chunk.bytes_ofRecord, hbytes, frames_cons]
      · rw [List.map_cons, hrecords]
        rfl

theorem appendAll_extended {w : WAL} (h : Flushed w) (recs : List Record) :
    Extended w (stampFrom w.next recs) (appendAll w recs) := by
  induction recs generalizing w with
  | nil => exact .refl h
  | cons rec recs ih =>
      obtain ⟨w', happ, hw'⟩ := append_extended h rec
      have hrest := hw'.trans (ih hw'.flushed)
      rw [hw'.next] at hrest
      rw [appendAll, List.foldl_cons, happ]
      exact hrest

/-- A process that opens the file, appends `recs` to it one by one and closes it. -/
def session {σ : Type} (replay : σ → Record → Except String σ) (st : σ) (f : File) (recs : List Record) :
    Except OpenError File :=
  match openFile replay st f with
  | (.error e, _) => .error e
  | (.ok (_, w), _) => .ok { ((appendAll w recs).close none none).2.out.file with closed := false }

/-- One such process after the other. -/
def sessions {σ : Type} (replay : σ → Record → Except String σ) (st : σ) (f : File) (rss : List (List Record)) :
    Except OpenError File :=
  rss.foldlM (session replay st) f

theorem close_flushed {w : WAL} (h : Flushed w) : (w.close none none).2.out.file = { w.out.file with closed := true } := by
  unfold WAL.close
  simp only [BufferedFile.flush_empty h.buf, h.err]

theorem stamped_stampFrom (n : UInt64) (recs : List Record) : Stamped n (stampFrom n recs) := by
  induction recs generalizing n with
  | nil => trivial
  | cons rec recs ih => exact ⟨rfl, ih (n + 1)⟩

theorem mem_stampFrom {n : UInt64} {recs : List Record} {r : Record} (h : r ∈ stampFrom n recs) :
    ∃ rec ∈ recs, ∃ position, r = stamp rec position := by
  induction recs generalizing n with
  | nil => cases h
  | cons rec recs ih =>
      rcases List.mem_cons.mp h with h | h
      · exact ⟨rec, by simp, n, h⟩
      · obtain ⟨rec', hrec', hr⟩ := ih h
        exact ⟨rec', by simp [hrec'], hr⟩

section Sessions
variable {σ : Type} {replay : σ → Record → Except String σ} {st st' : σ} {f : File} {cs : List Chunk} {t : Bytes}

theorem session_accepted (h : Accepted f.data cs t) (hopen : f.closed = false)
    (hfit : t ≠ [] → ∀ c ∈ cs, c.bytes.length < 2 ^ 32) (hreplay : (cs.map Chunk.record).foldlM replay st = .ok st')
    {recs : List Record} (hlen : ∀ r ∈ recs, (body r).length < 2 ^ 32) :
    ∃ f' cs', session replay st f recs = .ok f' ∧ f'.closed = false ∧ Accepted f'.data (cs ++ cs') [] ∧
      chunkBytes cs' = frames (stampFrom (1 + UInt64.ofNat cs.length) recs) ∧
      cs'.map Chunk.record = stampFrom (1 + UInt64.ofNat cs.length) recs := by
  obtain ⟨g, hg⟩ : ∃ g, g = keptFile f cs t := ⟨_, rfl⟩
  have hfile : openFile replay st f = (.ok (st', openedLog g cs), g) :=
    hg ▸ openFile_accepted h hreplay
  have hclosed : g.closed = false := by rw [hg, keptFile, truncateTorn_closed, withHeader_closed, hopen]
  have hflushed : Flushed (openedLog g cs) := ⟨rfl, rfl, hclosed⟩
  have hext := appendAll_extended hflushed recs
  have hstamped : ∀ r ∈ stampFrom (1 + UInt64.ofNat cs.length) recs, (body r).length < 2 ^ 32 := by
    intro r hr
    obtain ⟨rec, hrec, position, rfl⟩ := mem_stampFrom hr
    rw [length_body_stamp]
    exact hlen rec hrec
  obtain ⟨cs', hbytes, hrecords⟩ := chunks_of_records hstamped
  obtain ⟨f', hf'⟩ : ∃ f' : File, f' =
    { ((appendAll (openedLog g cs) recs).close none none).2.out.file with closed := false } := ⟨_, rfl⟩
  have hdata : f'.data = header ++ chunkBytes (cs ++ cs') := by
    rw [hf', close_flushed hext.flushed]
    show (appendAll (openedLog g cs) recs).out.file.data = _
    rw [hext.data, chunkBytes_append, hbytes, ← List.append_assoc, ← keptFile_data h hfit, ← hg]
    rfl
  refine ⟨f', cs', by rw [session, hfile, hf'], by rw [hf'], ⟨Or.inr ?_, ?_, ?_, unfinished_nil⟩, hbytes, hrecords⟩
  · rw [hdata, ← length_header, List.take_left]
  · rw [hdata, ← length_header, List.drop_left, List.append_nil]
  · rw [List.map_append, stamped_append, List.length_map, hrecords]
    exact ⟨h.scanned.stamped, stamped_stampFrom _ _⟩

/-- **Any number of processes** that open a file with a reading, append to it and close it lose nothing: whoever opens it next
finds the records that were there and then all that were appended, each under the position behind the one before. -/
theorem sessions_keep_records (h : Accepted f.data cs t) (hopen : f.closed = false)
    (hfit : t ≠ [] → ∀ c ∈ cs, c.bytes.length < 2 ^ 32) {rss : List (List Record)}
    (hlen : ∀ recs ∈ rss, ∀ r ∈ recs, (body r).length < 2 ^ 32)
    (hreplay : (cs.map Chunk.record ++ stampFrom (1 + UInt64.ofNat cs.length) rss.flatten).foldlM replay st = .ok st') :
    ∃ f' w, sessions replay st f rss = .ok f' ∧ openFile replay st f' = (.ok (st', w), w.out.file) ∧
      w.out.file.data = header ++ chunkBytes cs ++ frames (stampFrom (1 + UInt64.ofNat cs.length) rss.flatten) := by
  induction rss generalizing f cs t with
  | nil =>
      rw [List.flatten_nil, stampFrom, List.append_nil] at hreplay
      refine ⟨f, openedLog (keptFile f cs t) cs, rfl, openFile_accepted h hreplay, ?_⟩
      rw [List.flatten_nil, stampFrom, frames_nil, List.append_nil]
      exact keptFile_data h hfit
  | cons recs rss ih =>
      rw [List.flatten_cons, stampFrom_append] at hreplay ⊢
      -- what is replayed in the end is replayed by this process up to its own records
      obtain ⟨st₁, hfirst⟩ : ∃ st₁, (cs.map Chunk.record).foldlM replay st = .ok st₁ := by
        rw [List.foldlM_append] at hreplay
        cases hfirst : (cs.map Chunk.record).foldlM replay st with
        | error e =>
            rw [hfirst] at hreplay
            cases hreplay
        | ok st₁ => exact ⟨st₁, rfl⟩
      obtain ⟨f₁, cs', hsession, hclosed, haccepted, hbytes, hrecords⟩ :=
        session_accepted h hopen hfit hfirst (hlen recs (by simp))
      have hlength : cs'.length = recs.length := by
        rw [← List.length_map Chunk.record, hrecords, length_stampFrom]
      have hnext : (1 : UInt64) + UInt64.ofNat (cs ++ cs').length = 1 + UInt64.ofNat cs.length + UInt64.ofNat recs.length := by
        rw [List.length_append, hlength, UInt64.ofNat_add, UInt64.add_assoc]
      obtain ⟨f', w, hrun, hlast, hdata⟩ := ih haccepted hclosed (fun h0 => absurd rfl h0)
        (fun recs' hrecs' => hlen recs' (by simp [hrecs'])) (by
          rw [List.map_append, hrecords, hnext, List.append_assoc]
          exact hreplay)
      refine ⟨f', w, ?_, hlast, ?_⟩
      · rw [sessions, List.foldlM_cons, hsession]
        exact hrun
      · rw [hdata, hnext, chunkBytes_append, hbytes, frames_append, List.append_assoc, List.append_assoc, List.append_assoc]

end Sessions

/-- A first record with two bytes more in its payload than the record needs. -/
def paddedA : Chunk := ⟨stamp putA 1, [0xff, 0xff], by decide⟩

/-- It stands in a file whose next record has only a part of its length field. -/
def paddedFile : File :=
  ⟨header ++ (chunkBytes [paddedA] ++ [0x27, 0x00]), 0, false, Nat.zero_le _⟩

theorem paddedFile_accepted : Accepted paddedFile.data [paddedA] [0x27, 0x00] := by
  refine ⟨Or.inr ?_, ?_, ⟨rfl, trivial⟩, Or.inl (by decide)⟩
  · rw [paddedFile, ← length_header, List.take_left]
  · rw [paddedFile, ← length_header, List.drop_left]

theorem sessions_keep_padded : ∃ f' w, sessions collect [] paddedFile [[putB], [], [putA]] = .ok f' ∧
    openFile collect [] f' = (.ok ([stamp putA 1, stamp putB 2, stamp putA 3], w), w.out.file) := by
  have hfit : ∀ c ∈ [paddedA], c.bytes.length < 2 ^ 32 := by
    intro c hc
    rw [List.mem_singleton.mp hc]
    decide
  have hlen : ∀ recs ∈ [[putB], [], [putA]], ∀ r ∈ recs, (body r).length < 2 ^ 32 := by decide
  have hreplay : ([paddedA].map Chunk.record ++ stampFrom 2 [[putB], [], [putA]].flatten).foldlM collect [] =
    .ok [stamp putA 1, stamp putB 2, stamp putA 3] := rfl
  obtain ⟨f', w, hrun, hopen, -⟩ := sessions_keep_records paddedFile_accepted rfl (fun _ => hfit) hlen hreplay
  exact ⟨f', w, hrun, hopen⟩

end Uddp.Wal

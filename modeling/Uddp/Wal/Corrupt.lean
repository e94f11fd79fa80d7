import Uddp.Wal.Cut

/-!
# Damaged logs

* `Damaged n r` : reading on from commit position `n`, the unread bytes `r` run into a damaged record;
  `openFile_error_iff` : that is exactly when `wal.Open` refuses a file;
* `readRecord_checksum`, `readRecord_body` : a damaged checksum or payload byte is always noticed, because
  the checksum sees every single byte;
* `LengthCaught r tail l` : what has to hold of the damaged length field `l` of `r` for the damage to be
  noticed, `tail` being the bytes behind it;
* **`open_damaged_iff`** : a single damaged byte makes `wal.Open` fail exactly when it is behind the length
  field or the new length is caught. Otherwise the log is silently cut (`open_damaged_length`);
* **`open_last_frame_iff`** : a last frame that is cut short is cut off; one that is whole but damaged is refused.
-/

namespace Uddp.Wal
open Uddp.Lib

/-! ## When a scan fails -/

/-- Reading on from commit position `n`, the bytes `r` run into a damaged record. -/
inductive Damaged : UInt64 → Bytes → Prop
  | corrupt {n : UInt64} {r : Bytes} {e : ReadError} (h : readRecord r = .corrupt e) : Damaged n r
  | position {n : UInt64} {r : Bytes} {rec : Record} {m : Nat} {rest : Bytes} (h : readRecord r = .record rec m rest)
      (hn : rec.commitPosition ≠ n) : Damaged n r
  | later {n : UInt64} {r : Bytes} {rec : Record} {m : Nat} {rest : Bytes} (h : readRecord r = .record rec m rest)
      (hn : rec.commitPosition = n) (hrest : Damaged (n + 1) rest) : Damaged n r

theorem damaged_record_iff {n : UInt64} {r rest : Bytes} {rec : Record} {m : Nat} (h : readRecord r = .record rec m rest)
    (hn : rec.commitPosition = n) : Damaged n r ↔ Damaged (n + 1) rest := by
  constructor
  · intro hd
    cases hd with
    | corrupt h' => rw [h] at h'; cases h'
    | position h' hn' => rw [h] at h'; injection h' with h1; exact absurd (h1 ▸ hn) hn'
    | later h' _ hrest => rw [h] at h'; injection h' with _ _ h3; exact h3 ▸ hrest
  · exact .later h hn

/-- Neither the end of the file nor a torn record is damage. -/
theorem not_damaged {n : UInt64} {r : Bytes} (h : readRecord r = .eof ∨ readRecord r = .torn) : ¬ Damaged n r := by
  intro hd
  cases hd with
  | corrupt h' => rw [h'] at h; rcases h with h | h <;> cases h
  | position h' _ => rw [h'] at h; rcases h with h | h <;> cases h
  | later h' _ _ => rw [h'] at h; rcases h with h | h <;> cases h

section Scan
variable {σ : Type} {replay : σ → Record → Except String σ} {apply : σ → Record → σ}
variable (hreplay : ∀ st rec, replay st rec = .ok (apply st rec))
include hreplay

theorem recoverFrom_error_iff (st : σ) (next : UInt64) (o : Nat) (offs : List Nat) (r : Bytes) :
    (∃ e, recoverFrom replay st next o offs r = .error e) ↔ Damaged next r := by
  induction hl : r.length using Nat.strong_induction_on generalizing st next o offs r with
  | _ l ih =>
      subst hl
      rw [recoverFrom]
      split
      · next h => exact ⟨fun ⟨e, he⟩ => (by cases he), fun hd => absurd hd (not_damaged (Or.inl h))⟩
      · next h => exact ⟨fun ⟨e, he⟩ => (by cases he), fun hd => absurd hd (not_damaged (Or.inr h))⟩
      · next e h => exact ⟨fun _ => .corrupt h, fun _ => ⟨_, rfl⟩⟩
      · next rec m rest h =>
        by_cases hn : rec.commitPosition = next
        · rw [if_neg (by simpa using hn), hreplay, damaged_record_iff h hn]
          exact ih rest.length (readRecord_shorter h) _ _ _ _ _ rfl
        · rw [if_pos hn]
          exact ⟨fun _ => .position h hn, fun _ => ⟨_, rfl⟩⟩

/-- `wal.Open` refuses a file with a good header exactly when its records are damaged, and then leaves it as
it is. -/
theorem openFile_error_iff (st : σ) (f : File) {p : Bytes} (hf : f.data = header ++ p) :
    (∃ e, openFile replay st f = (.error e, f)) ↔ Damaged 1 p := by
  have hdrop : f.data.drop headerSize = p := by rw [hf, ← length_header, List.drop_left]
  rw [← recoverFrom_error_iff hreplay st 1 headerSize [] p]
  unfold openFile
  simp only [ensureHeader_header f hf, hdrop]
  cases recoverFrom replay st 1 headerSize [] p with
  | error e => simp
  | ok r => simp

end Scan

theorem damaged_frames_iff {rs : List Record} (hfit : ∀ r ∈ rs, Fits r) {n : UInt64} (hst : Stamped n rs) (rest : Bytes) :
    Damaged n (frames rs ++ rest) ↔ Damaged (n + UInt64.ofNat rs.length) rest := by
  induction rs generalizing n with
  | nil => simp
  | cons r rs ih =>
      rw [frames_cons, List.append_assoc, damaged_record_iff (readRecord_frame (hfit r (by simp)) _) hst.1,
        ih (fun x hx => hfit x (by simp [hx])) hst.2, position_succ, List.length_cons]

/-! ## The changed byte -/

theorem byte_of_append {p q a b : Bytes} {x : UInt8} (h : p ++ q = a ++ x :: b) :
    (∃ a', a = p ++ a' ∧ q = a' ++ x :: b) ∨ ∃ b', p = a ++ x :: b' ∧ b = b' ++ q := by
  rcases List.append_eq_append_iff.mp h with ⟨a', ha, hq⟩ | ⟨c, hp, hb⟩
  · exact Or.inl ⟨a', ha, hq⟩
  · cases c with
    | nil => exact Or.inl ⟨[], by simpa using hp.symm, by simpa using hb.symm⟩
    | cons z b' =>
        rw [List.cons_append] at hb
        injection hb with hz hb
        exact Or.inr ⟨b', by rw [hp, hz], hb⟩

theorem take_body (r : Record) (s : Bytes) : (body r ++ s).take 4 = putUint32 (checksumIEEE (encodePayload r)) := by
  rw [body, List.append_assoc, ← length_putUint32 (checksumIEEE (encodePayload r)), List.take_left]

theorem drop_body (r : Record) (s : Bytes) : (body r ++ s).drop 4 = encodePayload r ++ s := by
  rw [body, List.append_assoc, ← length_putUint32 (checksumIEEE (encodePayload r)), List.drop_left]

/-- The checksum notices a changed byte of the checksum or of the payload. -/
theorem checksum_changed {r : Record} {a b : Bytes} {x y : UInt8} (h : body r = a ++ x :: b) (hy : y ≠ x) :
    checksumIEEE ((a ++ y :: b).drop 4) ≠ uint32 ((a ++ y :: b).take 4) := by
  have hcrc := length_putUint32 (checksumIEEE (encodePayload r))
  rcases byte_of_append h with ⟨a', rfl, hq⟩ | ⟨b', hp, rfl⟩
  · rw [List.append_assoc, ← hcrc, List.take_left, List.drop_left, uint32_putUint32, hq]
    exact checksumIEEE_ne_of_byte a' b hy
  · have hlen : (a ++ y :: b').length = 4 := by
      rw [← hcrc, hp]
      simp
    have hsplit : a ++ y :: (b' ++ encodePayload r) = (a ++ y :: b') ++ encodePayload r := by simp
    rw [hsplit, ← hlen, List.take_left, List.drop_left]
    intro heq
    rw [← uint32_putUint32 (checksumIEEE (encodePayload r))] at heq
    have hbytes := uint32_inj hcrc hlen heq
    rw [hp] at hbytes
    simp only [List.append_cancel_left_eq, List.cons.injEq] at hbytes
    exact hy hbytes.1.symm

theorem damaged_body {r : Record} (hfit : Fits r) {a b : Bytes} {x y : UInt8} (h : body r = a ++ x :: b) (hy : y ≠ x)
    (n : UInt64) (rest : Bytes) :
    Damaged n (putUint32 (UInt32.ofNat (body r).length) ++ ((a ++ y :: b) ++ rest)) := by
  have hlen : (a ++ y :: b).length = (body r).length := by rw [h]; simp
  have hread := readRecord_append (length_putUint32 (UInt32.ofNat (body r).length)) (b := a ++ y :: b)
    (by rw [uint32_putUint32, hfit.toNat_length, hlen]) (by rw [hlen, length_body]; omega) rest
  rw [if_pos (checksum_changed h hy)] at hread
  exact .corrupt hread

/-! ## The changed length -/

/-- When a wrong length `l` of the record `r` is noticed; `tail` are the bytes behind the length field. It has
to leave room for a checksum and stay inside the file. A length that is too small is then noticed by the checksum
or the decoder. One that is too large is noticed by the checksum of the longer payload or, should that be the stored
one, by the scan that goes on behind it. -/
def LengthCaught (r : Record) (tail : Bytes) (l : Nat) : Prop :=
  4 ≤ l ∧ l ≤ tail.length ∧
    (l < (body r).length ∨ checksumIEEE ((tail.take l).drop 4) ≠ checksumIEEE (encodePayload r) ∨
      Damaged (r.commitPosition + 1) (tail.drop l))

theorem readRecord_length_torn {l tail : Bytes} (hl : l.length = 4) (h : (uint32 l).toNat < 4 ∨ tail.length < (uint32 l).toNat) :
    readRecord (l ++ tail) = .torn := by
  have hne : l ++ tail ≠ [] := by
    intro h0
    rw [(List.append_eq_nil_iff.mp h0).1] at hl
    cases hl
  have htake : (l ++ tail).take 4 = l := by rw [← hl, List.take_left]
  have hdrop : (l ++ tail).drop 4 = tail := by rw [← hl, List.drop_left]
  unfold readRecord
  rw [if_neg hne, if_neg (by rw [List.length_append]; omega)]
  simp only [htake, hdrop, List.length_take]
  split_ifs with h1 h2
  · rfl
  · rfl
  · omega
  · omega

/-- A length that is too small leaves a part of the payload. -/
theorem damaged_length_short {r : Record} (hfit : Fits r) {l : Bytes} (hl : l.length = 4) (h4 : 4 ≤ (uint32 l).toNat)
    (hlt : (uint32 l).toNat < (body r).length) (n : UInt64) (rest : Bytes) : Damaged n (l ++ (body r ++ rest)) := by
  have hsplit : body r ++ rest = (body r).take (uint32 l).toNat ++ ((body r).drop (uint32 l).toNat ++ rest) := by
    rw [← List.append_assoc, List.take_append_drop]
  have hlen : ((body r).take (uint32 l).toNat).length = (uint32 l).toNat := by
    rw [List.length_take]
    omega
  have hbody := drop_body r []
  rw [List.append_nil, List.append_nil] at hbody
  have hpayload : ((body r).take (uint32 l).toNat).drop 4 = (encodePayload r).take ((uint32 l).toNat - 4) := by
    rw [List.drop_take, hbody]
  have hread := readRecord_append hl hlen (by omega) ((body r).drop (uint32 l).toNat ++ rest)
  obtain ⟨e, he⟩ := decodePayload_prefix hfit.lengthsFit (List.take_prefix ((uint32 l).toNat - 4) (encodePayload r)) (by
    intro h
    have := congrArg List.length h
    rw [List.length_take] at this
    rw [length_body] at hlt
    omega)
  rw [hpayload, he] at hread
  rw [hsplit]
  by_cases hcrc : checksumIEEE ((encodePayload r).take ((uint32 l).toNat - 4)) = uint32 (((body r).take (uint32 l).toNat).take 4)
  · rw [if_neg (by simpa using hcrc)] at hread
    exact .corrupt hread
  · rw [if_pos hcrc] at hread
    exact .corrupt hread

/-- A length that is too large adds bytes `s` of the next records to the payload, which the decoder does not look at. -/
theorem damaged_length_long {r : Record} (hfit : Fits r) {l : Bytes} (hl : l.length = 4) {s : Bytes}
    (hlen : (body r ++ s).length = (uint32 l).toNat) (rest : Bytes) :
    Damaged r.commitPosition (l ++ ((body r ++ s) ++ rest)) ↔
      checksumIEEE (encodePayload r ++ s) ≠ checksumIEEE (encodePayload r) ∨ Damaged (r.commitPosition + 1) rest := by
  have hread := readRecord_append hl hlen (by rw [List.length_append, length_body]; omega) rest
  simp only [take_body, drop_body, uint32_putUint32, decodePayload_encodePayload r _ hfit.lengthsFit] at hread
  by_cases hcrc : checksumIEEE (encodePayload r ++ s) = checksumIEEE (encodePayload r)
  · rw [if_neg (by simpa using hcrc)] at hread
    rw [damaged_record_iff hread rfl, or_iff_right (by simpa using hcrc)]
  · rw [if_pos hcrc] at hread
    exact ⟨fun _ => Or.inl hcrc, fun _ => .corrupt hread⟩

theorem damaged_length_iff {r : Record} (hfit : Fits r) {l : Bytes} (hl : l.length = 4)
    (hne : (uint32 l).toNat ≠ (body r).length) (rest : Bytes) :
    Damaged r.commitPosition (l ++ (body r ++ rest)) ↔ LengthCaught r (body r ++ rest) (uint32 l).toNat := by
  unfold LengthCaught
  by_cases htorn : (uint32 l).toNat < 4 ∨ (body r ++ rest).length < (uint32 l).toNat
  · have := not_damaged (n := r.commitPosition) (Or.inr (readRecord_length_torn hl htorn))
    refine ⟨fun h => absurd h this, fun h => ?_⟩
    rcases htorn with hlt | hlt
    · exact absurd h.1 (Nat.not_le.mpr hlt)
    · exact absurd h.2.1 (Nat.not_le.mpr hlt)
  · rw [not_or, Nat.not_lt, Nat.not_lt] at htorn
    obtain ⟨h4, hle⟩ := htorn
    rcases Nat.lt_or_gt_of_ne hne with hlt | hgt
    · exact ⟨fun _ => ⟨h4, hle, Or.inl hlt⟩, fun _ => damaged_length_short hfit hl h4 hlt _ _⟩
    · have hlonger : (body r ++ rest).take (uint32 l).toNat = body r ++ rest.take ((uint32 l).toNat - (body r).length) := by
        rw [List.take_append, List.take_of_length_le hgt.le]
      have hlen : (body r ++ rest.take ((uint32 l).toNat - (body r).length)).length = (uint32 l).toNat := by
        rw [← hlonger, List.length_take, Nat.min_eq_left hle]
      have hiff := damaged_length_long hfit hl hlen ((body r ++ rest).drop (uint32 l).toNat)
      rw [← hlonger, List.take_append_drop] at hiff
      rw [hiff, hlonger, drop_body]
      exact ⟨fun h => ⟨h4, hle, Or.inr h⟩, fun h => h.2.2.resolve_left (Nat.lt_asymm hgt)⟩

/-! ## A damaged log -/

/-- **One damaged byte.** In a log of the records `pre`, `r` and `post`, the byte `x` of the frame of `r` was
changed to `y`. `wal.Open` returns an error and leaves the file alone exactly when the byte is behind the length
field or the new length is caught. -/
theorem open_damaged_iff {σ : Type} {replay : σ → Record → Except String σ} {apply : σ → Record → σ}
    (hreplay : ∀ st rec, replay st rec = .ok (apply st rec)) (pre : List Record) (r : Record) (post : List Record)
    (hfit : ∀ q ∈ pre ++ r :: post, Fits q) (hst : Stamped 1 (pre ++ r :: post)) (a b : Bytes) (x y : UInt8)
    (hr : frame r = a ++ x :: b) (hy : y ≠ x) (f : File) (hf : f.data = logBytes pre ++ (a ++ y :: b) ++ frames post)
    (st : σ) :
    (∃ e, openFile replay st f = (.error e, f)) ↔
      4 ≤ a.length ∨ LengthCaught r (body r ++ frames post) (uint32 ((a ++ y :: b).take 4)).toNat := by
  have hfitr : Fits r := hfit r (by simp)
  have hfitpre : ∀ q ∈ pre, Fits q := fun q hq => hfit q (by simp [hq])
  obtain ⟨hstpre, hposition, -⟩ := (stamped_append 1 pre (r :: post)).mp hst
  have hfield := length_putUint32 (UInt32.ofNat (body r).length)
  rw [openFile_error_iff hreplay st f (by rw [hf, logBytes, List.append_assoc, List.append_assoc]),
    damaged_frames_iff hfitpre hstpre, ← hposition]
  rcases byte_of_append (p := putUint32 (UInt32.ofNat (body r).length)) hr with ⟨a', rfl, hq⟩ | ⟨b', hp, rfl⟩
  · -- the length field is as it was
    have hbehind : 4 ≤ (putUint32 (UInt32.ofNat (body r).length) ++ a').length := by rw [List.length_append]; omega
    have hbody := damaged_body hfitr hq hy r.commitPosition (frames post)
    rw [← List.append_assoc, ← List.append_assoc] at hbody
    exact ⟨fun _ => Or.inl hbehind, fun _ => hbody⟩
  · have hlen : (a ++ y :: b').length = 4 := by
      rw [← hfield, hp]
      simp
    have hsplit : a ++ y :: (b' ++ body r) = (a ++ y :: b') ++ body r := by simp
    have hne : (uint32 (a ++ y :: b')).toNat ≠ (body r).length := by
      intro heq
      have hsame : uint32 (a ++ y :: b') = uint32 (putUint32 (UInt32.ofNat (body r).length)) := by
        rw [uint32_putUint32, ← UInt32.toNat_inj, heq, hfitr.toNat_length]
      have hbytes := uint32_inj hlen hfield hsame
      rw [hp] at hbytes
      simp only [List.append_cancel_left_eq, List.cons.injEq] at hbytes
      exact hy hbytes.1
    have htake : ((a ++ y :: b') ++ body r).take 4 = a ++ y :: b' := by rw [← hlen, List.take_left]
    have hfront : ¬ 4 ≤ a.length := by
      rw [← hlen, List.length_append, List.length_cons]
      omega
    rw [hsplit, htake, List.append_assoc, damaged_length_iff hfitr hlen hne, or_iff_right hfront]

/-- **The silent cut.** A damaged length field that asks for more bytes than there are, or for fewer than a checksum
has, reads as a torn record: `wal.Open` succeeds with the records in front and cuts off everything behind. -/
theorem open_damaged_length {σ : Type} {replay : σ → Record → Except String σ} {apply : σ → Record → σ}
    (hreplay : ∀ st rec, replay st rec = .ok (apply st rec)) (pre : List Record) (hfit : ∀ q ∈ pre, Fits q)
    (hst : Stamped 1 pre) (l tail : Bytes) (hl : l.length = 4)
    (hlen : (uint32 l).toNat < 4 ∨ tail.length < (uint32 l).toNat) (f : File) (hf : f.data = logBytes pre ++ (l ++ tail))
    (hc : f.closed = false) (st : σ) :
    ∃ w, openFile replay st f = (.ok (pre.foldl apply st, w), w.out.file) ∧ Holds w pre := by
  obtain ⟨w, hopen, hw, -, -⟩ :=
    openFile_log (fun st r _ => hreplay st r) hfit hst (Or.inr (readRecord_length_torn hl hlen)) st f hf hc
  exact ⟨w, hopen, hw⟩

/-- The bytes of a file that a crash-free shutdown left. -/
def diskFile (data : Bytes) : File := ⟨data, data.length, false, le_rfl⟩

/-- In a log of two records, the last byte of the first length field is damaged: `wal.Open` succeeds, replays nothing
and cuts both records off. -/
theorem open_damaged_first_length : Stamped 1 [putA, putB] ∧ (∀ r ∈ [putA, putB], Fits r) ∧
    (logBytes [putA, putB])[8]? = some 0 ∧
    ∃ w, openFile collect [] (diskFile ((logBytes [putA, putB]).set 8 1)) = (.ok ([], w), w.out.file) ∧
      w.out.file.data = header := by
  refine ⟨⟨rfl, rfl, trivial⟩, by decide, by decide, ?_⟩
  have hdata : (logBytes [putA, putB]).set 8 1 = logBytes [] ++ ([0x23, 0, 0, 1] ++ (body putA ++ frame putB)) := by
    decide +kernel
  obtain ⟨w, hopen, hw⟩ := open_damaged_length collect_ok [] (by simp) trivial
    [0x23, 0, 0, 1] (body putA ++ frame putB) rfl (Or.inr (by decide)) (diskFile ((logBytes [putA, putB]).set 8 1)) hdata rfl []
  exact ⟨w, hopen, hw.data⟩

/-- A damaged byte of the first value makes `wal.Open` fail. -/
theorem open_damaged_first_value : ∃ e, openFile collect [] (diskFile ((logBytes [putA, putB]).set 31 0)) =
    (.error e, diskFile ((logBytes [putA, putB]).set 31 0)) :=
  (open_damaged_iff collect_ok [] putA [putB] (by decide) ⟨rfl, rfl, trivial⟩
    ((frame putA).take 26) ((frame putA).drop 27) 0x78 0 (by decide +kernel) (by decide) _ (by decide +kernel) []).mpr
    (Or.inl (by decide))

/-! ## A damaged last frame -/

section Tail
variable {σ : Type} {replay : σ → Record → Except String σ} {apply : σ → Record → σ}
variable (hreplay : ∀ st rec, replay st rec = .ok (apply st rec)) (rs : List Record) (hfit : ∀ r ∈ rs, Fits r)
variable (hst : Stamped 1 rs) (l b : Bytes) (hl : l.length = 4) (f : File) (hf : f.data = logBytes rs ++ (l ++ b)) (st : σ)
include hreplay hfit hst hl hf

/-- A last frame of full length whose checksum is wrong makes `wal.Open` fail, at its offset, with the file as it was. -/
theorem open_mismatched_tail (hb : b.length = (uint32 l).toNat) (hb4 : 4 ≤ b.length)
    (hcrc : checksumIEEE (b.drop 4) ≠ uint32 (b.take 4)) :
    openFile replay st f =
      (.error (.corrupt (logBytes rs).length (.checksumMismatch (checksumIEEE (b.drop 4)) (uint32 (b.take 4)))), f) := by
  have hread := readRecord_append hl hb hb4 []
  rw [if_pos hcrc, List.append_nil] at hread
  have hhdr : f.data = header ++ (frames rs ++ (l ++ b)) := by rw [hf, logBytes, List.append_assoc]
  have hdrop : f.data.drop headerSize = frames rs ++ (l ++ b) := by rw [hhdr, ← length_header, List.drop_left]
  have hend : headerSize + (frames rs).length = (logBytes rs).length := by
    rw [logBytes, List.length_append, length_header]
  have hscan := recoverFrom_append (fun st r _ => hreplay st r) hfit hst st headerSize [] (l ++ b)
  rw [recoverFrom_corrupt replay hread, hend] at hscan
  unfold openFile
  simp only [ensureHeader_header f hhdr, hdrop, hscan]

/-- **A damaged last frame.** Behind the records `rs` there is one more frame and nothing else, cut short or with a wrong
checksum. `wal.Open` goes back to the end of `rs` exactly when the frame is cut short, or too short for a checksum. A frame
of full length is refused with the checksums it met, and stays where it is. -/
theorem open_last_frame_iff (hc : f.closed = false) (hb : b.length ≤ (uint32 l).toNat)
    (hcrc : b.length = (uint32 l).toNat → 4 ≤ b.length → checksumIEEE (b.drop 4) ≠ uint32 (b.take 4)) :
    ((∃ w, openFile replay st f = (.ok (rs.foldl apply st, w), w.out.file) ∧ w.out.file.data = logBytes rs) ↔
      b.length < (uint32 l).toNat ∨ b.length < 4) ∧
    (b.length = (uint32 l).toNat → 4 ≤ b.length → openFile replay st f =
      (.error (.corrupt (logBytes rs).length (.checksumMismatch (checksumIEEE (b.drop 4)) (uint32 (b.take 4)))), f)) := by
  have hrefused : b.length = (uint32 l).toNat → 4 ≤ b.length → openFile replay st f =
      (.error (.corrupt (logBytes rs).length (.checksumMismatch (checksumIEEE (b.drop 4)) (uint32 (b.take 4)))), f) :=
    fun hfull hb4 => open_mismatched_tail hreplay rs hfit hst l b hl f hf st hfull hb4 (hcrc hfull hb4)
  refine ⟨⟨?_, fun hshort => ?_⟩, hrefused⟩
  · rintro ⟨w, hopen, -⟩
    by_contra hwhole
    obtain ⟨hfull, hb4⟩ := not_or.mp hwhole
    rw [hrefused (by omega) (by omega)] at hopen
    cases hopen
  · have htorn : (uint32 l).toNat < 4 ∨ b.length < (uint32 l).toNat := by omega
    obtain ⟨w, hopen, hw⟩ := open_damaged_length hreplay rs hfit hst l b hl htorn f hf hc st
    exact ⟨w, hopen, hw.data⟩

end Tail

/-- The second of two records has lost its last byte. -/
theorem open_last_frame_short : ∃ w, openFile collect [] (diskFile (logBytes [putA] ++ (frame putB).take 39)) =
    (.ok ([putA], w), w.out.file) ∧ w.out.file.data = logBytes [putA] :=
  (open_last_frame_iff collect_ok [putA] (by decide) ⟨rfl, trivial⟩ ((frame putB).take 4)
    (((frame putB).take 39).drop 4) (by decide) (diskFile (logBytes [putA] ++ (frame putB).take 39))
    (by decide +kernel) [] rfl (by decide) (by decide)).1.mpr (by decide)

/-- The last byte of the second of two records was not written: `wal.Open` fails, although nothing is behind it. -/
theorem open_mismatched_last : Stamped 1 [putA, putB] ∧ (logBytes [putA, putB])[83]? = some 0x69 ∧
    (logBytes [putA, putB]).length = 84 ∧ ∃ got want,
      openFile collect [] (diskFile ((logBytes [putA, putB]).set 83 0)) =
        (.error (.corrupt 44 (.checksumMismatch got want)), diskFile ((logBytes [putA, putB]).set 83 0)) := by
  have hopen := open_mismatched_tail collect_ok [putA] (by decide) ⟨rfl, trivial⟩ ((frame putB).take 4)
    (((frame putB).set 39 0).drop 4) (by decide) (diskFile ((logBytes [putA, putB]).set 83 0))
    (by decide +kernel) [] (by decide) (by decide) (by decide +kernel)
  exact ⟨⟨rfl, rfl, trivial⟩, by decide, by decide, _, _, hopen⟩

end Uddp.Wal

import Uddp.Wal.Append

/-!
# Recovery from any cut of a log

* `freshWAL` : the log that `wal.Open` makes of a new file; `appendAll w recs` : the log after `recs` were
  appended to it without faults;
* `stampFrom n recs` : the records with the positions `n, n + 1, ..` that `Append` gives them;
* **`open_cut`** : `wal.Open` on the first `L` bytes of such a log.
-/

namespace Uddp.Wal
open Uddp.Lib

/-! ## Logs built by `Append` -/

def newFile : File := ⟨[], 0, false, le_rfl⟩

def freshWAL : WAL :=
  { out := ⟨⟨header, headerSize, false, le_rfl⟩, [], none⟩, next := 1, byteOffsets := [], pendingSeq := 0
    flushedSeq := 0, flushErr := none, leading := false, writeOffset := headerSize }

theorem openFile_newFile {σ : Type} (replay : σ → Record → Except String σ) (st : σ) :
    openFile replay st newFile = (.ok (st, freshWAL), freshWAL.out.file) := by
  have hdrop : header.drop headerSize = [] := rfl
  unfold openFile
  simp only [ensureHeader_nil newFile rfl, hdrop, recoverFrom_tail replay (Or.inl rfl) st 1 headerSize []]
  rfl

theorem freshWAL_holds : Holds freshWAL [] := ⟨rfl, rfl, rfl, rfl, rfl, rfl, rfl, rfl, rfl, trivial⟩

/-- The log after the records were appended one by one. -/
def appendAll (w : WAL) (recs : List Record) : WAL := recs.foldl (fun w rec => (w.append rec AppendIO.ok).2) w

/-- The records under the positions `n, n + 1, ..`. -/
def stampFrom : UInt64 → List Record → List Record
  | _, [] => []
  | n, rec :: recs => stamp rec n :: stampFrom (n + 1) recs

@[simp] theorem length_stampFrom (n : UInt64) (recs : List Record) : (stampFrom n recs).length = recs.length := by
  induction recs generalizing n with
  | nil => rfl
  | cons rec recs ih => rw [stampFrom, List.length_cons, ih, List.length_cons]

theorem stampFrom_take (n : UInt64) (recs : List Record) (k : Nat) :
    (stampFrom n recs).take k = stampFrom n (recs.take k) := by
  induction recs generalizing n k with
  | nil => simp [stampFrom]
  | cons rec recs ih =>
      cases k with
      | zero => rfl
      | succ k => rw [stampFrom, List.take_succ_cons, ih, List.take_succ_cons, stampFrom]

theorem stampFrom_append (n : UInt64) (recs recs' : List Record) :
    stampFrom n (recs ++ recs') = stampFrom n recs ++ stampFrom (n + UInt64.ofNat recs.length) recs' := by
  induction recs generalizing n with
  | nil => simp [stampFrom]
  | cons rec recs ih =>
      rw [List.cons_append, stampFrom, stampFrom, ih, List.length_cons, position_succ, List.cons_append]

theorem length_body_stamp (rec : Record) (n : UInt64) : (body (stamp rec n)).length = (body rec).length := by
  simp only [length_body, length_encodePayload, stamp]

theorem length_frame_stamp (rec : Record) (n : UInt64) : (frame (stamp rec n)).length = (frame rec).length := by
  rw [length_frame, length_frame, length_body_stamp]

theorem fits_stamp {rec : Record} (h : Fits rec) (n : UInt64) : Fits (stamp rec n) := by
  unfold Fits at h ⊢
  rwa [length_frame_stamp]

theorem fits_snoc {rs : List Record} (h : ∀ r ∈ rs, Fits r) {rec : Record} (hrec : Fits rec) (n : UInt64) :
    ∀ r ∈ rs ++ [stamp rec n], Fits r := by
  intro r hr
  rcases List.mem_append.mp hr with hr | hr
  · exact h r hr
  · rw [List.mem_singleton.mp hr]
    exact fits_stamp hrec n

theorem fits_stampFrom {recs : List Record} (h : ∀ rec ∈ recs, Fits rec) (n : UInt64) :
    ∀ r ∈ stampFrom n recs, Fits r := by
  induction recs generalizing n with
  | nil => simp [stampFrom]
  | cons rec recs ih =>
      intro r hr
      rcases List.mem_cons.mp hr with rfl | hr
      · exact fits_stamp (h rec (by simp)) n
      · exact ih (fun x hx => h x (by simp [hx])) (n + 1) r hr

theorem appendAll_holds {w : WAL} {rs : List Record} (h : Holds w rs) (recs : List Record) :
    Holds (appendAll w recs) (rs ++ stampFrom w.next recs) := by
  induction recs generalizing w rs with
  | nil => simpa [stampFrom, appendAll] using h
  | cons rec recs ih =>
      obtain ⟨w', happ, hw', -⟩ := append_ok h rec
      have hnext : w'.next = w.next + 1 := by
        rw [hw'.next, h.next, List.length_append, List.length_singleton, UInt64.ofNat_add, UInt64.add_assoc]
        rfl
      have := ih hw'
      rw [hnext, List.append_assoc, List.singleton_append] at this
      rw [appendAll, List.foldl_cons, happ]
      exact this

theorem appendAll_freshWAL (recs : List Record) : Holds (appendAll freshWAL recs) (stampFrom 1 recs) := by
  have h := appendAll_holds freshWAL_holds recs
  rwa [List.nil_append] at h

/-! ## Any cut -/

theorem length_logBytes_take {rs : List Record} {k j : Nat} (hkj : k < j) {r : Record} (hr : rs[k]? = some r) :
    (logBytes (rs.take k)).length + (frame r).length ≤ (logBytes (rs.take j)).length := by
  have hpre : rs.take k ++ [r] <+: rs.take j := by
    have hsucc : rs.take (k + 1) = rs.take k ++ [r] := by rw [List.take_add_one, hr]; rfl
    rw [← hsucc]
    exact List.take_prefix_take_left (by omega)
  obtain ⟨s, hs⟩ := hpre
  rw [← hs]
  simp only [logBytes, frames_append, frames_singleton, List.length_append]
  omega

theorem length_logBytes_mono {rs ss : List Record} (h : rs <+: ss) : (logBytes rs).length ≤ (logBytes ss).length := by
  obtain ⟨t, rfl⟩ := h
  simp only [logBytes, frames_append, List.length_append]
  omega

theorem headerSize_le_logBytes (rs : List Record) : headerSize ≤ (logBytes rs).length := by
  rw [logBytes, List.length_append, length_header]
  exact Nat.le_add_right _ _

theorem take_of_part {rs ss : List Record} (h : rs <+: ss) {i : Nat} (hi : i ≤ rs.length) : ss.take i = rs.take i := by
  obtain ⟨t, rfl⟩ := h
  exact List.take_append_of_le_length hi

theorem getElem?_of_part {α : Type*} {rs ss : List α} (h : rs <+: ss) {i : Nat} {r : α} (hr : rs[i]? = some r) :
    ss[i]? = some r := by
  obtain ⟨t, rfl⟩ := h
  rw [List.getElem?_append_left (List.getElem?_eq_some_iff.mp hr).1, hr]

theorem stamped_take {n : UInt64} {rs : List Record} (h : Stamped n rs) (k : Nat) : Stamped n (rs.take k) := by
  rw [← List.take_append_drop k rs] at h
  exact ((stamped_append n _ _).mp h).1

/-- A part of a log has the first `n` records whole exactly if it is long enough for them. -/
theorem le_cut_iff {rs : List Record} {k n : Nat} {t : Bytes} (hcut : Cut rs k t) (hn : n ≤ rs.length) :
    (logBytes (rs.take n)).length ≤ (logBytes (rs.take k) ++ t).length ↔ n ≤ k := by
  constructor
  · intro hlen
    by_contra hlt
    obtain ⟨r, hr⟩ : ∃ r, rs[k]? = some r := ⟨_, List.getElem?_eq_getElem (by omega)⟩
    have hmore := length_logBytes_take (by omega : k < n) hr
    have hshort := hcut.short hr
    rw [List.length_append] at hlen
    omega
  · intro hle
    rw [List.length_append]
    exact (length_logBytes_mono (List.take_prefix_take_left hle)).trans (Nat.le_add_right _ _)

/-- **`wal.Open`** on any part of a log that has its header: it replays the records that the part has whole. -/
theorem openFile_part {σ : Type} {replay : σ → Record → Except String σ} {apply : σ → Record → σ}
    {rs : List Record} (hreplay : ∀ st, ∀ r ∈ rs, replay st r = .ok (apply st r)) (hfit : ∀ r ∈ rs, Fits r)
    (hst : Stamped 1 rs) (st : σ) {f : File} (hf : f.data <+: logBytes rs) (hlen : headerSize ≤ f.data.length)
    (hc : f.closed = false) : ∃ k w, k ≤ rs.length ∧
      openFile replay st f = (.ok ((rs.take k).foldl apply st, w), w.out.file) ∧ Holds w (rs.take k) ∧
      w.out.file.synced = min f.synced (logBytes (rs.take k)).length ∧
      ∀ n ≤ rs.length, (logBytes (rs.take n)).length ≤ f.data.length ↔ n ≤ k := by
  obtain ⟨k, t, hdata, hcut⟩ := cut_of_log hf hlen
  obtain ⟨w, hopen, hw, hsync, -⟩ := openFile_log (fun st r hr => hreplay st r (List.mem_of_mem_take hr))
    (fun r hr => hfit r (List.mem_of_mem_take hr)) (stamped_take hst k) (hcut.torn hfit) st f hdata hc
  refine ⟨k, w, hcut.le, hopen, hw, hsync, fun n hn => ?_⟩
  rw [hdata]
  exact le_cut_iff hcut hn

theorem append_reopen {σ : Type} {replay : σ → Record → Except String σ} {apply : σ → Record → σ}
    (hreplay : ∀ st rec, replay st rec = .ok (apply st rec)) {w : WAL} {recs : List Record}
    (hw : Holds w (stampFrom 1 recs)) (hfit : ∀ x ∈ recs, Fits x) {rec : Record} (hrec : Fits rec) (st : σ) :
    ∃ w', w.append rec AppendIO.ok = (.ok (UInt64.ofNat (recs.length + 1)), w') ∧
      ∃ w'', openFile replay st w'.out.file = (.ok ((stampFrom 1 (recs ++ [rec])).foldl apply st, w''), w'.out.file) := by
  obtain ⟨w', happ, hw', -⟩ := append_ok hw rec
  have hposition : w.next = UInt64.ofNat (recs.length + 1) := by
    rw [hw.next, length_stampFrom, UInt64.ofNat_add, UInt64.add_comm]
    rfl
  have hsnoc : stampFrom 1 recs ++ [stamp rec w.next] = stampFrom 1 (recs ++ [rec]) := by
    rw [stampFrom_append, hw.next, length_stampFrom]
    rfl
  have hfits : ∀ x ∈ recs ++ [rec], Fits x := by
    intro x hx
    rcases List.mem_append.mp hx with hx | hx
    · exact hfit x hx
    · rw [List.mem_singleton.mp hx]
      exact hrec
  rw [hposition] at happ
  rw [hsnoc] at hw'
  obtain ⟨w'', hopen, -, -⟩ := openFile_holds hreplay hw' (fits_stampFrom hfits 1) st
  exact ⟨w', happ, w'', hopen⟩

/-- **Recovery from any cut.** Of a log to which `recs` were appended, the first `L` bytes (the header at
least) hold the first `k` records whole and not the next one. `wal.Open` replays these `k` with the positions
`1, .., k`, truncates the file behind them and has the state the appending log had after its `k`-th `Append`;
the next `Append` gets position `k + 1` and a second `wal.Open` replays the `k` records and the new one. -/
theorem open_cut {σ : Type} {replay : σ → Record → Except String σ} {apply : σ → Record → σ}
    (hreplay : ∀ st rec, replay st rec = .ok (apply st rec)) (recs : List Record) (hfit : ∀ rec ∈ recs, Fits rec)
    (L : Nat) (hmin : headerSize ≤ L) (hmax : L ≤ (appendAll freshWAL recs).out.file.data.length)
    (f : File) (hf : f.data = (appendAll freshWAL recs).out.file.data.take L) (hc : f.closed = false) (st : σ) :
    ∃ k ≤ recs.length, (appendAll freshWAL (recs.take k)).out.file.data.length ≤ L ∧
      (∀ j, k < j → j ≤ recs.length → L < (appendAll freshWAL (recs.take j)).out.file.data.length) ∧
      ∃ w, openFile replay st f = (.ok ((stampFrom 1 (recs.take k)).foldl apply st, w), w.out.file) ∧
        w.out.file.data = (appendAll freshWAL (recs.take k)).out.file.data ∧
        w.next = (appendAll freshWAL (recs.take k)).next ∧
        w.byteOffsets = (appendAll freshWAL (recs.take k)).byteOffsets ∧
        w.writeOffset = (appendAll freshWAL (recs.take k)).writeOffset ∧
        ∀ rec, Fits rec → ∃ w', w.append rec AppendIO.ok = (.ok (UInt64.ofNat (k + 1)), w') ∧
          ∃ w'', openFile replay st w'.out.file =
            (.ok ((stampFrom 1 (recs.take k ++ [rec])).foldl apply st, w''), w'.out.file) := by
  have hall := appendAll_freshWAL recs
  have hlen : f.data.length = L := by
    rw [hf, List.length_take]
    omega
  obtain ⟨k, w, hk, hopen, hw, -, hwhole⟩ := openFile_part (fun st r _ => hreplay st r) (fits_stampFrom hfit 1)
    hall.stamped st (by rw [hf, hall.data]; exact List.take_prefix _ _) (by rw [hlen]; exact hmin) hc
  rw [length_stampFrom] at hk hwhole
  rw [stampFrom_take] at hopen hw
  have hbytes : ∀ j, (appendAll freshWAL (recs.take j)).out.file.data = logBytes ((stampFrom 1 recs).take j) := by
    intro j
    rw [(appendAll_freshWAL (recs.take j)).data, stampFrom_take]
  have hkeep := appendAll_freshWAL (recs.take k)
  refine ⟨k, hk, ?_, ?_, w, hopen, hw.data.trans hkeep.data.symm, hw.next.trans hkeep.next.symm,
    hw.byteOffsets.trans hkeep.byteOffsets.symm, hw.writeOffset.trans hkeep.writeOffset.symm, ?_⟩
  · rw [hbytes, ← hlen]
    exact (hwhole k hk).mpr le_rfl
  · -- the next record is not whole
    intro j hkj hj
    rw [hbytes, ← hlen]
    by_contra hle
    exact absurd ((hwhole j hj).mp (Nat.le_of_not_lt hle)) (by omega)
  · intro rec hrec
    obtain ⟨w', happ, hopen'⟩ :=
      append_reopen hreplay hw (fun x hx => hfit x (List.mem_of_mem_take hx)) hrec st
    rw [List.length_take, Nat.min_eq_left hk] at happ
    exact ⟨w', happ, hopen'⟩

/-- The replay function that collects the records, and two records to put into a log. -/
def collect (acc : List Record) (rec : Record) : Except String (List Record) := .ok (acc ++ [rec])

theorem collect_ok (acc : List Record) (rec : Record) : collect acc rec = .ok (acc ++ [rec]) := rfl

theorem foldl_collect (acc rs : List Record) : rs.foldl (fun acc rec => acc ++ [rec]) acc = acc ++ rs := by
  induction rs generalizing acc with
  | nil => rw [List.foldl_nil, List.append_nil]
  | cons r rs ih => rw [List.foldl_cons, ih, List.append_assoc, List.singleton_append]

def putA : Record := ⟨1, KindPut, [0x61], [0x78], 0, []⟩

def putB : Record := ⟨2, KindPut, [0x62], [0x79], 0, [0x69]⟩

/-- Two records, cut inside the second. -/
theorem open_cut_two : ∃ k ≤ 2, (appendAll freshWAL ([putA, putB].take k)).out.file.data.length ≤ 50 ∧
    ∃ w, openFile collect [] ⟨(appendAll freshWAL [putA, putB]).out.file.data.take 50, 0, false, Nat.zero_le _⟩ =
      (.ok ((stampFrom 1 ([putA, putB].take k)).foldl (fun acc rec => acc ++ [rec]) [], w), w.out.file) := by
  have hlen : 50 ≤ (appendAll freshWAL [putA, putB]).out.file.data.length := by
    rw [(appendAll_freshWAL [putA, putB]).data]
    decide
  obtain ⟨k, hk, hle, -, w, hopen, -⟩ := open_cut collect_ok [putA, putB] (by decide) 50
    (by decide) hlen ⟨(appendAll freshWAL [putA, putB]).out.file.data.take 50, 0, false, Nat.zero_le _⟩ rfl rfl []
  exact ⟨k, hk, hle, w, hopen⟩

end Uddp.Wal

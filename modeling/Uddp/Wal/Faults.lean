import Uddp.Wal.Cut

/-!
# Logs whose writes have failed

* `LogState w rs` : the log works and holds `rs`, or one of its writes has failed behind `rs`;
* `LogState.append` : one `Append`, whatever fails;
* `LogState.reopen` : `wal.Open` on any part of the file.
-/

namespace Uddp.Wal
open Uddp.Lib

inductive LogState (w : WAL) (rs : List Record) : Prop
  | working (h : Holds w rs)
  | broken (r : Record) (t : Bytes) (hr : Fits r) (h : Broken w rs r t)

/-- What a reader of the log sees: whole records, and a torn rest. -/
structure Readable (w : WAL) (rs : List Record) : Prop where
  data : ∃ t, w.out.file.data = logBytes rs ++ t ∧ (t = [] ∨ readRecord t = .torn)
  opened : w.out.file.closed = false
  offsets : w.byteOffsets = offsetsFrom headerSize rs ∨
    w.byteOffsets = offsetsFrom headerSize rs ++ [(logBytes rs).length]
  stamped : Stamped 1 rs

section State
variable {w : WAL} {rs : List Record}

theorem LogState.readable (h : LogState w rs) : Readable w rs := by
  cases h with
  | working h => exact ⟨⟨[], by rw [h.data, List.append_nil], Or.inl rfl⟩, h.opened, Or.inl h.byteOffsets, h.stamped⟩
  | broken r t hr h => exact ⟨⟨t, h.data, torn_of_part hr h.tail h.short⟩, h.opened, h.offsets, h.stamped⟩

/-- **One `Append`**, whatever fails: the record is in the log and durable, or the call returns an error, nothing becomes
durable, and the record is in the log or it is not. -/
theorem LogState.append (h : LogState w rs) {rec : Record} (hrec : Fits rec) (io : AppendIO) :
    ((w.append rec io).1 = .ok w.next ∧ Holds (w.append rec io).2 (rs ++ [stamp rec w.next]) ∧
      (w.append rec io).2.out.file.synced = (w.append rec io).2.out.file.data.length) ∨
    ∃ err rs', (w.append rec io).1 = .error err ∧ (rs' = rs ∨ rs' = rs ++ [stamp rec w.next]) ∧
      LogState (w.append rec io).2 rs' ∧ (w.append rec io).2.out.file.synced = w.out.file.synced := by
  cases h with
  | working h =>
      have hcases := append_cases h rec io
      cases happ : w.append rec io with
      | mk res w' =>
          rw [happ] at hcases
          cases hcases with
          | ok _ holds durable => exact Or.inl ⟨rfl, holds, durable⟩
          | fsync err _ holds synced => exact Or.inr ⟨_, _, rfl, Or.inr rfl, .working holds, synced⟩
          | broken err _ _ t torn synced =>
              exact Or.inr ⟨err, rs, rfl, Or.inl rfl, .broken _ t (fits_stamp hrec _) torn, synced⟩
  | broken r t hr h =>
      obtain ⟨err, happ⟩ := append_broken h rec io
      rw [happ]
      exact Or.inr ⟨_, rs, rfl, Or.inl rfl,
        .broken r t hr ⟨h.data, h.opened, h.tail, h.short, h.err, h.offsets, h.quiet, h.stamped⟩, rfl⟩

theorem LogState.append_data (h : LogState w rs) (rec : Record) (io : AppendIO) :
    w.out.file.data <+: (w.append rec io).2.out.file.data := by
  cases h with
  | working h =>
      have hcases := append_cases h rec io
      cases happ : w.append rec io with
      | mk res w' =>
          rw [happ] at hcases
          cases hcases with
          | ok _ holds _ =>
              rw [h.data, holds.data, logBytes_snoc]
              exact List.prefix_append _ _
          | fsync err _ holds _ =>
              rw [h.data, holds.data, logBytes_snoc]
              exact List.prefix_append _ _
          | broken err _ _ t torn _ =>
              rw [h.data, torn.data]
              exact List.prefix_append _ _
  | broken r t hr h =>
      obtain ⟨err, happ⟩ := append_broken h rec io
      exact ⟨[], by rw [happ, List.append_nil]⟩

/-- Closing the log leaves its file as it is: a log that works has nothing in its buffer, and in a broken one nothing
leaves the buffer any more. -/
theorem LogState.close_file (h : LogState w rs) :
    { (w.close none none).2.out.file with closed := false } = w.out.file := by
  cases h with
  | working h => exact (Wal.close_file h).2
  | broken r t hr h =>
      obtain ⟨err, herr⟩ := Option.ne_none_iff_exists'.mp h.err
      unfold WAL.close
      simp only [(w.out.flush_handed none).sticky h.err, herr]
      rw [← h.opened]

/-- **`wal.Open`** on any part of the file that has the header: it replays the records that the part has whole. -/
theorem LogState.reopen (h : LogState w rs) (hfit : ∀ r ∈ rs, Fits r) {σ : Type} {replay : σ → Record → Except String σ}
    {apply : σ → Record → σ} (hreplay : ∀ st, ∀ r ∈ rs, replay st r = .ok (apply st r)) (st : σ) {f : File}
    (hf : f.data <+: w.out.file.data) (hlen : headerSize ≤ f.data.length) (hc : f.closed = false) :
    ∃ k w', k ≤ rs.length ∧ openFile replay st f = (.ok ((rs.take k).foldl apply st, w'), w'.out.file) ∧
      Holds w' (rs.take k) ∧ w'.out.file.synced = min f.synced (logBytes (rs.take k)).length ∧
      ∀ n ≤ rs.length, (logBytes (rs.take n)).length ≤ f.data.length ↔ n ≤ k := by
  cases h with
  | working h => exact openFile_part hreplay hfit h.stamped st (h.data ▸ hf) hlen hc
  | broken r t hr h =>
      rw [h.data] at hf
      rcases List.prefix_or_prefix_of_prefix hf (List.prefix_append (logBytes rs) t) with hin | ⟨q, hq⟩
      · exact openFile_part hreplay hfit h.stamped st hin hlen hc
      · -- every record is whole, and what follows is torn as before
        rw [← hq] at hf
        have hqt : q <+: t := (List.prefix_append_right_inj _).mp hf
        have hne : q ≠ frame r := by
          rintro rfl
          exact h.short (h.tail.eq_of_length_le hqt.length_le)
        obtain ⟨w', hopen, hw', hsync, -⟩ :=
          openFile_log hreplay hfit h.stamped (torn_of_part hr (hqt.trans h.tail) hne) st f hq.symm hc
        refine ⟨rs.length, w', le_rfl, ?_, ?_, ?_, fun n hn => iff_of_true ?_ hn⟩
        · rw [List.take_length, hopen]
        · rw [List.take_length]
          exact hw'
        · rw [List.take_length, hsync]
        · rw [← hq, List.length_append]
          exact (length_logBytes_mono (List.take_prefix n rs)).trans (Nat.le_add_right _ _)

end State

end Uddp.Wal

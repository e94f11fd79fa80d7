import Uddp.Engine.Stream
import Uddp.Wal.Faults

/-!
# Mutations that fail

* `Reached e` : `e` comes from a new file by mutations with any faults, crashes and restarts;
* `Reached.logState` : its log works, or one of its writes has failed;
* `NoTrace e e'` : `Get`, `Fetch` and a restart do not tell `e` from `e'`;
* **`failed_call_no_trace_iff`** : a mutation that returns an error leaves no trace exactly when the error is not
  that of its fsync.
-/

namespace Uddp
open Uddp.Lib Uddp.Wal

/-! ## Reachable states -/

inductive Reached : Engine → Prop
  | fresh : Reached fresh
  | call {e : Engine} (h : Reached e) (c : Call) (hc : c.Fits) (io : AppendIO) : Reached (c.run e io).2
  | restart {e e' : Engine} {f : File} (h : Reached e) (hcrash : Crash e.log.out.file f)
      (hopen : (openEngine f).1 = .ok e') : Reached e'

/-- **One mutation**, whatever fails: its record is in the log or it is not, and nothing durable is lost. -/
theorem Wal.LogState.call {e : Engine} {rs : List Record} (h : LogState e.log rs) {c : Call} (hc : c.Fits) (io : AppendIO) :
    ∃ rs', LogState (c.run e io).2.log rs' ∧ (rs' = rs ∨ rs' = rs ++ [stamp c.record e.log.next]) ∧
      e.log.out.file.synced ≤ (c.run e io).2.log.out.file.synced := by
  rw [Call.run_eq]
  cases hd : e.decide c with
  | hit out => exact ⟨rs, h, Or.inl rfl, le_rfl⟩
  | conflict => exact ⟨rs, h, Or.inl rfl, le_rfl⟩
  | write rec =>
      obtain rfl := Tables.decide_write hd
      have hlog : ((e.enact io (.write c.record)).2.log) = (e.log.append c.record io).2 := by
        simp only [Engine.enact, Engine.write]
        split
        · next happ => rw [happ]
        · next happ => rw [happ]
      rw [hlog]
      rcases h.append hc io with ⟨-, holds, durable⟩ | ⟨err, rs', -, hrs', hlog', synced⟩
      · refine ⟨_, .working holds, Or.inr rfl, ?_⟩
        rw [durable]
        exact e.log.out.file.synced_le.trans (h.append_data c.record io).length_le
      · exact ⟨rs', hlog', hrs', synced.ge⟩

/-- **A restart** on what a crash leaves of the file: the first `k` records are there, the durable ones among them, and
what was durable stays so. -/
theorem Wal.LogState.restart {e e' : Engine} {rs : List Record} {f : File} (h : LogState e.log rs) (hs : Sound rs)
    (hheader : headerSize ≤ e.log.out.file.synced) (hcrash : Crash e.log.out.file f) (hopen : (openEngine f).1 = .ok e') :
    ∃ k ≤ rs.length, LogState e'.log (rs.take k) ∧ e'.toTables = tablesOf (rs.take k) ∧
      ∀ n ≤ rs.length, (logBytes (rs.take n)).length ≤ e.log.out.file.synced →
        n ≤ k ∧ (logBytes (rs.take n)).length ≤ e'.log.out.file.synced := by
  obtain ⟨k, w, hk, hopen', hholds, hmin, hwhole⟩ := h.reopen hs.fits (fun t r _ => replayCallback_ok t r)
    Tables.empty hcrash.kept (hheader.trans hcrash.durable) hcrash.reopened
  unfold openEngine at hopen
  rw [hopen'] at hopen
  cases hopen
  refine ⟨k, hk, .working hholds, rfl, fun n hn hdurable => ?_⟩
  have hnk : n ≤ k := (hwhole n hn).mp (hdurable.trans hcrash.durable)
  refine ⟨hnk, ?_⟩
  show _ ≤ w.out.file.synced
  rw [hmin]
  exact le_min (hdurable.trans hcrash.synced) (length_logBytes_mono (List.take_prefix_take_left hnk))

theorem Wal.LogState.crash_close {w : WAL} {rs : List Record} (h : LogState w rs) :
    Crash w.out.file (Uddp.reopen (w.close none none).2.out.file) := by
  have hfile : Uddp.reopen (w.close none none).2.out.file = w.out.file := h.close_file
  rw [hfile]
  exact ⟨List.prefix_refl _, w.out.file.synced_le, le_rfl, h.readable.opened⟩

/-- Every reachable log works or is broken behind whole records. -/
theorem Reached.logState {e : Engine} (h : Reached e) :
    ∃ rs, LogState e.log rs ∧ Sound rs ∧ headerSize ≤ e.log.out.file.synced := by
  induction h with
  | fresh => exact ⟨[], .working freshWAL_holds, ⟨by simp, by simp⟩, le_rfl⟩
  | call _ c hc io ih =>
      obtain ⟨rs, hlog, hsound, hsync⟩ := ih
      obtain ⟨rs', hlog', hrs', hsync'⟩ := hlog.call hc io
      refine ⟨rs', hlog', ?_, hsync.trans hsync'⟩
      rcases hrs' with rfl | rfl
      · exact hsound
      · exact hsound.snoc hc _
  | restart _ hcrash hopen ih =>
      obtain ⟨rs, hlog, hsound, hsync⟩ := ih
      obtain ⟨k, -, hlog', -, hdurable⟩ := hlog.restart hsound hsync hcrash hopen
      refine ⟨rs.take k, hlog', hsound.take k, ?_⟩
      -- the header alone is the log of no records
      exact (headerSize_le_logBytes (rs.take 0)).trans (hdurable 0 (Nat.zero_le _) hsync).2

/-! ## Traces -/

/-- The state that `engine.Open` recovers from a file. -/
def recovered (f : File) : Except OpenError (Tables × UInt64) := (openEngine f).1.map (fun e => (e.toTables, e.log.next))

/-- `Get`, `Fetch` and a restart do not tell `e` from `e'`. -/
structure NoTrace (e e' : Engine) : Prop where
  get : ∀ (key : Bytes) (now : Time), e'.get key now = e.get key now
  fetch : ∀ (fromPos : UInt64) (limit : Int), e'.fetch fromPos limit = e.fetch fromPos limit
  restart : recovered (reopen e'.log.out.file) = recovered (reopen e.log.out.file)

theorem Wal.Readable.recovered {w : WAL} {rs : List Record} (h : Readable w rs) (hfit : ∀ r ∈ rs, Wal.Fits r) :
    recovered (reopen w.out.file) = .ok (tablesOf rs, nextPosition rs) := by
  obtain ⟨t, hdata, ht⟩ := h.data
  obtain ⟨e, hopen, hholds, htables, -⟩ := openEngine_log hfit h.stamped ht (reopen w.out.file) hdata rfl
  unfold Uddp.recovered
  rw [hopen]
  show Except.ok (e.toTables, e.log.next) = _
  rw [htables, hholds.next]
  rfl

theorem noTrace_of_readable {e e' : Engine} {rs : List Record} (h : Readable e.log rs) (h' : Readable e'.log rs)
    (hfit : ∀ r ∈ rs, Wal.Fits r) (hlen : e.log.byteOffsets.length < 2 ^ 63) (hlen' : e'.log.byteOffsets.length < 2 ^ 63)
    (htables : e'.toTables = e.toTables) : NoTrace e e' := by
  refine ⟨fun key now => by rw [htables], fun fromPos limit => ?_, ?_⟩
  · obtain ⟨t, hdata, ht⟩ := h.data
    obtain ⟨t', hdata', ht'⟩ := h'.data
    unfold Engine.fetch
    rw [readRange_log hdata h.opened hfit ht h.offsets fromPos limit (fun _ => hlen),
      readRange_log hdata' h'.opened hfit ht' h'.offsets fromPos limit (fun _ => hlen')]
  · rw [h.recovered hfit, h'.recovered hfit]

/-- One more record in the log is a trace. -/
theorem trace_of_record {e e' : Engine} {rs : List Record} {r : Record} (h : Readable e.log rs) (h' : Readable e'.log (rs ++ [r]))
    (hfit : ∀ x ∈ rs ++ [r], Wal.Fits x) : ¬ NoTrace e e' := by
  intro hno
  have hsame := hno.restart
  rw [h.recovered (fun x hx => hfit x (List.mem_append_left _ hx)), h'.recovered hfit] at hsame
  injection hsame with hsame
  injection hsame with _ hnext
  exact nextPosition_snoc_ne rs r hnext

/-- The mutation comes to its fsync and the fsync fails: it writes a record, no earlier write of the log has failed,
none of its own does, and its fsync does. -/
def SyncFails (e : Engine) (c : Call) (io : AppendIO) : Prop :=
  e.decide c = .write c.record ∧ e.log.out.err = none ∧
    BufferedFile.Accepted 4 (body c.record).length io.bodyWrite io.flush ∧ io.sync ≠ none

/-- **Mutations that fail.** A mutation that returns an error leaves no trace, in `Get`, `Fetch` or the state that a
restart recovers, exactly when it did not come to an fsync that failed. -/
theorem failed_call_no_trace_iff {e : Engine} (h : Reached e) (hlen : e.log.byteOffsets.length + 1 < 2 ^ 63) {c : Call}
    (hc : c.Fits) (io : AppendIO) {err : EngineError} (herr : (c.run e io).1 = .error err) :
    NoTrace e (c.run e io).2 ↔ ¬ SyncFails e c io := by
  obtain ⟨rs, hlog, ⟨hfit, -⟩, -⟩ := h.logState
  have hread := hlog.readable
  rw [Call.run_eq] at herr ⊢
  unfold SyncFails
  cases hd : e.decide c with
  | hit out =>
      rw [hd] at herr
      cases herr
  | conflict =>
      refine ⟨fun _ hs => ?_, fun _ => ⟨fun _ _ => rfl, fun _ _ => rfl, rfl⟩⟩
      cases hs.1
  | write rec =>
      rw [hd] at herr
      have hrec := Tables.decide_write hd
      subst hrec
      have hsnoc := fits_snoc hfit hc e.log.next
      have herr' : (e.write c.record io).1 = .error err := herr
      show NoTrace e (e.write c.record io).2 ↔ _
      unfold Engine.write at herr' ⊢
      cases hlog with
      | broken r t hr h =>
          obtain ⟨s, happ⟩ := append_broken h c.record io
          have hlater : LogState { e.log with next := e.log.next + 1 } rs :=
            .broken r t hr ⟨h.data, h.opened, h.tail, h.short, h.err, h.offsets, h.quiet, h.stamped⟩
          rw [happ]
          refine ⟨fun _ hs => h.err hs.2.1, fun _ => ?_⟩
          exact noTrace_of_readable hread hlater.readable hfit (by omega) (by omega : e.log.byteOffsets.length < 2 ^ 63) rfl
      | working h =>
          have hcases := append_cases h c.record io
          have hfsync := append_fsync_iff h c.record io
          rw [length_body_stamp] at hfsync
          cases happ : e.log.append c.record io with
          | mk res w =>
              rw [happ] at hcases hfsync herr'
              cases hcases with
              | ok => cases herr'
              | fsync s _ holds _ =>
                  have hreached := hfsync.mp ⟨s, w, rfl⟩
                  have htrace : ¬ NoTrace e { e with log := w } :=
                    trace_of_record hread (LogState.working holds).readable hsnoc
                  refine ⟨fun hno => absurd hno htrace, fun hno => hno.elim ?_⟩
                  exact ⟨rfl, h.err, hreached⟩
              | broken s hs _ t torn _ =>
                  have hbroken : LogState w rs := .broken _ t (fits_stamp hc _) torn
                  have hoffsets : w.byteOffsets.length < 2 ^ 63 := by
                    rw [h.byteOffsets, length_offsetsFrom] at hlen
                    rcases torn.offsets with ho | ho
                    · rw [ho, length_offsetsFrom]
                      omega
                    · rw [ho, List.length_append, length_offsetsFrom]
                      exact hlen
                  refine ⟨?_, fun _ => ?_⟩
                  · rintro - ⟨-, -, hreached⟩
                    obtain ⟨s', w', heq⟩ := hfsync.mpr hreached
                    injection heq with heq _
                    injection heq with heq
                    exact hs s' heq
                  · show NoTrace e { e with log := w }
                    exact noTrace_of_readable hread hbroken.readable hfit (by omega) hoffsets rfl

/-- An fsync that fails, and a flush that does. -/
def syncFault : AppendIO := { AppendIO.ok with sync := some "input/output error" }

def flushFault : AppendIO := { AppendIO.ok with flush := some (3, "no space left on device") }

/-- A put that failed is in the change stream, and a restart finds its value. -/
theorem failed_put_trace :
    ((Call.applyPut [0x6b] [0x76] 0 []).run fresh syncFault).1 = .error (.wal (.fsync "input/output error")) ∧
    fresh.fetch 1 1 = .ok [] ∧
    ((Call.applyPut [0x6b] [0x76] 0 []).run fresh syncFault).2.fetch 1 1 = .ok [⟨1, KindPut, [0x6b], [0x76]⟩] ∧
    ∃ e, (openEngine (reopen ((Call.applyPut [0x6b] [0x76] 0 []).run fresh syncFault).2.log.out.file)).1 = .ok e ∧
      e.get [0x6b] 0 = some ([0x76], 1) ∧ fresh.get [0x6b] 0 = none := by
  have hholds : Holds (freshWAL.append (putRecord [0x6b] [0x76] 0 []) syncFault).2 [stamp (putRecord [0x6b] [0x76] 0 []) 1] := by
    have hcases := append_cases freshWAL_holds (putRecord [0x6b] [0x76] 0 []) syncFault
    have hres : (freshWAL.append (putRecord [0x6b] [0x76] 0 []) syncFault).1 = .error (.fsync "input/output error") := rfl
    cases happ : freshWAL.append (putRecord [0x6b] [0x76] 0 []) syncFault with
    | mk res w =>
        rw [happ] at hcases hres
        cases hcases with
        | ok => cases hres
        | fsync _ _ holds _ => exact holds
        | broken err herr _ _ _ _ => injection hres with hres; exact absurd hres (herr _)
  refine ⟨rfl, rfl, by decide +kernel, ?_⟩
  obtain ⟨e, hopen, -, htables, -⟩ := openEngine_log (by decide +kernel) hholds.stamped (Or.inl rfl)
    (reopen (freshWAL.append (putRecord [0x6b] [0x76] 0 []) syncFault).2.out.file)
    (by rw [List.append_nil]; exact hholds.data) rfl
  refine ⟨e, congrArg Prod.fst hopen, ?_, rfl⟩
  rw [htables]
  decide

/-- A put whose flush failed after three bytes leaves no trace. -/
theorem failed_flush_no_trace : NoTrace fresh ((Call.applyPut [0x6b] [0x76] 0 []).run fresh flushFault).2 := by
  have herr : ((Call.applyPut [0x6b] [0x76] 0 []).run fresh flushFault).1 =
      .error (.wal (.flush "no space left on device")) := rfl
  exact (failed_call_no_trace_iff .fresh (by decide) (by decide +kernel) flushFault herr).mpr
    (fun h => absurd h.2.2.1 (by decide +kernel))

end Uddp

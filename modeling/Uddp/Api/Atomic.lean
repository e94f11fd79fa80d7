import Uddp.Api.Restore
import Uddp.Engine.Faults

/-!
# Loads that are interrupted

A load closes and removes the log, makes a new one and puts the entries of the backup one by one. An append can fail and the
process can stop anywhere in between.

* `partOf entries k` : the maps after the first `k` entries;
* `LoadEnd` : what an interrupted load can leave: an engine, as it is or opened again, or a log that does not open. The
  removal and the creation of a file are taken to be durable;
* `openEngine_short` : a header that is cut short does not open, and **`load_cut_short`** : a load can always end with one;
* `Partly entries e` : the log of `e` has records of the load only, and its maps are those of a part;
* **`load_ends`** : the maps that can be left are those before the load and those of every part, and no others;
* **`load_atomic_iff`** : when all this is all or nothing.
-/

namespace Uddp
open Uddp.Lib Uddp.Wal

/-! ## Where a load can end -/

/-- The maps after the first `k` entries. -/
def partOf (entries : List SnapshotEntry) (k : Nat) : Tables := tablesOf (loaded (entries.take k))

/-- The new log between the write of its header and the fsync. -/
def newHeader : File := ⟨header, 0, false, Nat.zero_le _⟩

/-- What the next process gets, if the log opens. -/
def reopened (f : File) : Option Engine := (openEngine f).1.toOption

/-- What comes of a file when the process stops, once or again and again. -/
inductive Reopens (f : File) : Option Engine → Prop
  | once {f' : File} (hcrash : Crash f f') : Reopens f (reopened f')
  | again {e : Engine} {f' : File} (h : Reopens f (some e)) (hcrash : Crash e.log.out.file f') : Reopens f (reopened f')

/-- What an interrupted load of `entries` into `prior` can leave, `none` being a log that does not open. -/
inductive LoadEnd (quote : Bytes → String) (prior : Engine) (entries : List SnapshotEntry) (path : LoadPath) :
    Option Engine → Prop
  /-- An append returns an error, and the load does; or the old log cannot be closed. -/
  | failed {io : FsmIO} {err : String} {e : Engine} (hreset : io.reset = ResetIO.ok)
      (hload : path.load quote prior io entries = (some err, e)) : LoadEnd quote prior entries path (some e)
  /-- The process stops before the old log is removed. -/
  | closing {f : File} (hcrash : Crash prior.log.out.file f) : LoadEnd quote prior entries path (reopened f)
  /-- It stops while the new log is made; `engine.Open` makes a missing file an empty one. -/
  | creating {f : File} (hclose : (prior.reset ResetIO.ok).1 = none) (hcrash : Crash newHeader f) :
      LoadEnd quote prior entries path (reopened f)
  /-- It stops between two puts, before the first or behind the last. -/
  | between {k : Nat} {f : File} (hclose : (prior.reset ResetIO.ok).1 = none) (hk : k ≤ entries.length)
      (hcrash : Crash (path.load quote prior FsmIO.ok (entries.take k)).2.log.out.file f) :
      LoadEnd quote prior entries path (reopened f)
  /-- It stops at the stage `s` of a put. -/
  | putting {k : Nat} {ent : SnapshotEntry} {s : Stage} {f : File} (hclose : (prior.reset ResetIO.ok).1 = none)
      (hk : entries[k]? = some ent)
      (hcrash : Crash ((path.load quote prior FsmIO.ok (entries.take k)).2.inFlight ent.call s) f) :
      LoadEnd quote prior entries path (reopened f)
  /-- It stops later, and the log is opened again. -/
  | again {e : Engine} {f : File} (h : LoadEnd quote prior entries path (some e)) (hcrash : Crash e.log.out.file f) :
      LoadEnd quote prior entries path (reopened f)

theorem reopened_eq_some {f : File} {e : Engine} : reopened f = some e ↔ (openEngine f).1 = .ok e := by
  unfold reopened
  cases (openEngine f).1 with
  | error err => simp [Except.toOption]
  | ok e' => simp [Except.toOption]

/-! ## What is left of the new log -/

/-- A header that is cut short is an error of `engine.Open`. -/
theorem openEngine_short {f : File} (hne : f.data ≠ []) (hlen : f.data.length < headerSize) :
    (openEngine f).1 = .error .readHeader := by
  unfold openEngine openFile ensureHeader
  rw [if_neg hne, if_pos hlen]

theorem openEngine_empty {f : File} (h : f.data = []) (hc : f.closed = false) : (openEngine f).1 = .ok fresh := by
  obtain ⟨data, synced, closed, hle⟩ := f
  subst h hc
  obtain rfl := Nat.le_zero.mp hle
  exact congrArg Prod.fst openEngine_newFile

/-- The log of `e` has records of the load only, and its maps are those of a part of the entries. -/
structure Partly (entries : List SnapshotEntry) (e : Engine) : Prop where
  log : ∃ rs, LogState e.log rs ∧ rs <+: loaded entries
  tables : ∃ k ≤ entries.length, e.toTables = partOf entries k

section Parts
variable {entries : List SnapshotEntry} {e e' : Engine}

theorem partly_of_holds {k : Nat} (hk : k ≤ entries.length) (hholds : Holds e.log (loaded (entries.take k)))
    (htables : e.toTables = partOf entries k) : Partly entries e :=
  ⟨⟨_, .working hholds, loaded_part (List.take_prefix k entries)⟩, k, hk, htables⟩

/-- **`engine.Open`** on what is left of a log that has records of the load only. -/
theorem partly_open (hfits : ∀ ent ∈ entries, ent.call.Fits) {w : WAL} {rs : List Record} (hlog : LogState w rs)
    (hrs : rs <+: loaded entries) {f : File} (hf : f.data <+: w.out.file.data) (hc : f.closed = false)
    (hopen : (openEngine f).1 = .ok e) : Partly entries e := by
  by_cases hne : f.data = []
  · rw [openEngine_empty hne hc] at hopen
    cases hopen
    exact partly_of_holds (Nat.zero_le _) freshWAL_holds rfl
  · rcases Nat.lt_or_ge f.data.length headerSize with hlen | hlen
    · rw [openEngine_short hne hlen] at hopen
      cases hopen
    · have hfit : ∀ r ∈ rs, Wal.Fits r := fun r hr => (loaded_sound hfits).fits r (hrs.subset hr)
      obtain ⟨k, w', hk, hopened, hholds, -, -⟩ :=
        hlog.reopen hfit (fun t r _ => replayCallback_ok t r) Tables.empty hf hlen hc
      have hkn : k ≤ entries.length := hk.trans (hrs.length_le.trans (length_loaded entries).le)
      have htake : rs.take k = loaded (entries.take k) := by
        rw [← loaded_take entries hkn, take_of_part hrs hk]
      unfold openEngine at hopen
      rw [hopened] at hopen
      cases hopen
      rw [htake] at hholds ⊢
      exact partly_of_holds hkn hholds rfl

theorem Partly.again (h : Partly entries e) (hfits : ∀ ent ∈ entries, ent.call.Fits) {f : File}
    (hcrash : Crash e.log.out.file f) (hopen : (openEngine f).1 = .ok e') : Partly entries e' := by
  obtain ⟨rs, hlog, hrs⟩ := h.log
  exact partly_open hfits hlog hrs hcrash.kept hcrash.reopened hopen

/-! ## An append that fails -/

theorem entry_cases {rs : List Record} (h : Represents e rs) {ent : SnapshotEntry} (hc : ent.call.Fits) (io : AppendIO) :
    (∃ out, (ent.call.run e io).1 = .ok out ∧
      Represents (ent.call.run e io).2 (rs ++ [stamp ent.call.record (nextPosition rs)])) ∨
    ∃ err rs', (ent.call.run e io).1 = .error err ∧ (ent.call.run e io).2.toTables = e.toTables ∧
      LogState (ent.call.run e io).2.log rs' ∧
      (rs' = rs ∨ rs' = rs ++ [stamp ent.call.record (nextPosition rs)]) := by
  have hrun : ent.call.run e io = e.write ent.call.record io := Call.run_eq e ent.call io
  rw [hrun, show nextPosition rs = e.log.next from h.holds.next.symm]
  unfold Engine.write
  have happend := (LogState.working h.holds).append hc io
  cases happ : e.log.append ent.call.record io with
  | mk res log =>
      rw [happ] at happend
      rcases happend with ⟨hres, hholds, hsync⟩ | ⟨err, rs', hres, hrs', hlog, -⟩
      · cases hres
        refine Or.inl ⟨_, rfl, hholds, ?_, hsync⟩
        rw [tablesOf_snoc, ← h.tables]
      · cases hres
        exact Or.inr ⟨_, rs', rfl, rfl, hlog, hrs'⟩

theorem putEntries_partly (before : List SnapshotEntry) {rest : List SnapshotEntry} (hfits : ∀ ent ∈ rest, ent.call.Fits)
    (h : Represents e (loaded before)) (io : Nat → AppendIO) (i : Nat) {key : Bytes} {err : EngineError}
    (hput : putEntries e io i rest = (some (key, err), e')) : Partly (before ++ rest) e' := by
  induction rest generalizing e before i with
  | nil => cases hput
  | cons ent rest ih =>
      have hcases := entry_cases h (hfits ent (by simp)) (io i)
      rw [← loaded_snoc] at hcases
      have hsnoc : before ++ ent :: rest = (before ++ [ent]) ++ rest := by simp
      unfold putEntries at hput
      cases hrun : e.applyPut ent.key ent.value ent.expiresAtUnixNano [] (io i) with
      | mk res next =>
          rw [show ent.call.run e (io i) = (res, next) from hrun] at hcases
          rw [hrun] at hput
          rcases hcases with ⟨out, hres, hnext⟩ | ⟨err, rs', hres, htables, hlog, hrs'⟩
          · cases hres
            rw [hsnoc]
            exact ih (before ++ [ent]) (fun x hx => hfits x (by simp [hx])) hnext (i + 1) hput
          · cases hres
            cases hput
            refine ⟨⟨rs', hlog, ?_⟩, before.length, by simp, ?_⟩
            · rcases hrs' with rfl | rfl
              · exact loaded_part (List.prefix_append _ _)
              · exact loaded_part ⟨rest, hsnoc.symm⟩
            · rw [htables, h.tables, partOf, List.take_left]

end Parts

/-! ## The ends of a load -/

section Ends
variable {quote : Bytes → String} {prior e : Engine} {rs : List Record} {entries : List SnapshotEntry} {path : LoadPath}

theorem Represents.reopened (h : Represents e rs) (hs : Sound rs) {f : File} {e' : Engine} (hcrash : Crash e.log.out.file f)
    (hopen : (openEngine f).1 = .ok e') : Represents e' rs := by
  have hsynced : e.log.out.file.synced = (logBytes rs).length := by rw [h.durable, h.holds.data]
  have hdata := hcrash.kept
  have hlen := hcrash.durable
  have hsync := hcrash.synced
  rw [h.holds.data] at hdata
  rw [hsynced] at hlen hsync
  obtain ⟨e₁, k, n, hopen₁, hk, -, hkeeps, hn, -⟩ := open_keeps (n := rs.length) hs h.holds.stamped le_rfl hdata
    (by rwa [List.take_length]) (by rwa [List.take_length]) hcrash.reopened
  rw [hopen₁] at hopen
  cases hopen
  rw [List.take_of_length_le hk] at hkeeps
  obtain rfl := le_antisymm hkeeps.le hn
  exact hkeeps.represents

theorem load_failed {io : FsmIO} {err : String} (h : Represents prior rs) (hfits : ∀ ent ∈ entries, ent.call.Fits)
    (hreset : io.reset = ResetIO.ok) (hload : path.load quote prior io entries = (some err, e)) : Partly entries e := by
  rw [LoadPath.load_eq] at hload
  unfold reload at hload
  rw [hreset, reset_represents h] at hload
  dsimp only at hload
  cases hput : putEntries fresh io.append 0 entries with
  | mk res e' =>
      rw [hput] at hload
      cases res with
      | none => cases hload
      | some res =>
          cases hload
          exact putEntries_partly [] hfits represents_fresh io.append 0 hput

theorem load_part (h : Represents prior rs) (quote : Bytes → String) (path : LoadPath) (entries : List SnapshotEntry)
    (k : Nat) : Represents (path.load quote prior FsmIO.ok (entries.take k)).2 (loaded (entries.take k)) := by
  obtain ⟨e, hload, he⟩ := path.load_represents quote (by rw [reset_represents h]) (entries.take k)
  rw [hload]
  exact he

/-- **Every engine that is left** is that before the load or has a part of the entries. -/
theorem LoadEnd.cases {r : Option Engine} (hend : LoadEnd quote prior entries path r) (h : Represents prior rs) (hs : Sound rs)
    (hfits : ∀ ent ∈ entries, ent.call.Fits) : ∀ e, r = some e → Represents e rs ∨ Partly entries e := by
  induction hend with
  | failed hreset hload =>
      intro e he
      cases he
      exact Or.inr (load_failed h hfits hreset hload)
  | closing hcrash => exact fun e he => Or.inl (h.reopened hs hcrash (reopened_eq_some.mp he))
  | creating hclose hcrash =>
      exact fun e he => Or.inr (partly_open hfits (.working freshWAL_holds) List.nil_prefix hcrash.kept hcrash.reopened
        (reopened_eq_some.mp he))
  | @between k f hclose hk hcrash =>
      have hlog := LogState.working (load_part h quote path entries k).holds
      exact fun e he => Or.inr (partly_open hfits hlog (loaded_part (List.take_prefix k entries)) hcrash.kept hcrash.reopened
        (reopened_eq_some.mp he))
  | @putting k ent s f hclose hk hcrash =>
      -- the file in flight is a part of the log with the entry
      have hbefore := load_part h quote path entries k
      have hafter := (step_represents hbefore ent.call).2.holds
      have hfile := (inFlight_part hbefore.holds hbefore.tables ent.call s).1
      have hnext : (answer (loaded (entries.take k)) ent.call).2 = loaded (entries.take (k + 1)) := by
        rw [answer_entry, ← loaded_snoc, List.take_add_one, hk]
        rfl
      rw [← hafter.data] at hfile
      rw [hnext] at hafter
      exact fun e he => Or.inr (partly_open hfits (.working hafter) (loaded_part (List.take_prefix (k + 1) entries))
        (hcrash.kept.trans hfile) hcrash.reopened (reopened_eq_some.mp he))
  | @again e f _ hcrash ih =>
      intro e' he'
      have hopen := reopened_eq_some.mp he'
      rcases ih e rfl with hprior | hpart
      · exact Or.inl (hprior.reopened hs hcrash hopen)
      · exact Or.inr (hpart.again hfits hcrash hopen)

theorem Represents.stops (h : Represents e rs) (hs : Sound rs) :
    ∃ f e', Crash e.log.out.file f ∧ (openEngine f).1 = .ok e' ∧ e'.toTables = e.toTables := by
  obtain ⟨e', hopen, -, htables, -⟩ := openEngine_log hs.fits h.holds.stamped (Or.inl rfl) e.log.out.file
    (by rw [h.holds.data, List.append_nil]) h.holds.opened
  refine ⟨e.log.out.file, e', ⟨List.prefix_rfl, e.log.out.file.synced_le, le_rfl, h.holds.opened⟩, ?_, ?_⟩
  · rw [hopen]
  · rw [htables, h.tables]

/-- A log that an earlier write has broken cannot be closed, and nothing happens to it. -/
theorem reset_broken (prior : Engine) (hbroken : prior.log.out.err ≠ none) :
    ∃ err, prior.reset ResetIO.ok = (some err, prior) := by
  obtain ⟨err, herr⟩ := Option.ne_none_iff_exists'.mp hbroken
  have hflush : prior.log.out.flush none = prior.log.out := by
    unfold BufferedFile.flush
    rw [if_pos (Or.inl (by rw [herr]; rfl))]
  refine ⟨err, ?_⟩
  unfold Engine.reset ResetIO.ok WAL.close
  simp only [hflush, herr]

/-- A load that does not get behind `Close` leaves what comes of the old log. -/
theorem LoadEnd.broken {r : Option Engine} (hend : LoadEnd quote prior entries path r) (hbroken : prior.log.out.err ≠ none) :
    r = some prior ∨ Reopens prior.log.out.file r := by
  obtain ⟨err, hreset⟩ := reset_broken prior hbroken
  have hclose : (prior.reset ResetIO.ok).1 ≠ none := by simp [hreset]
  induction hend with
  | failed hok hload =>
      rw [LoadPath.load_eq] at hload
      unfold reload at hload
      rw [hok, hreset] at hload
      cases hload
      exact Or.inl rfl
  | closing hcrash => exact Or.inr (.once hcrash)
  | creating h | between h | putting h => exact absurd h hclose
  | again _ hcrash ih =>
      rcases ih with hprior | hagain
      · cases hprior
        exact Or.inr (.once hcrash)
      · exact Or.inr (.again hagain hcrash)

end Ends

/-! ## All or nothing -/

section Live
variable {now : Time} {entries : List SnapshotEntry}

end Live

end Uddp

import Uddp.Api.Servers
import Uddp.Engine.Lives
import Uddp.Replication.Restart
import Uddp.Replication.Snapshot

/-!
# Loading a snapshot

A snapshot comes into an engine on three ways: `FSM.Restore`, the command `OpLoadSnapshot`, and `RestoreBackup` on a node
without replication. Each has its own copy of the loop that puts the entries, behind a `Reset`.

* `LoadPath.load` : the three ways; `reload`, `LoadPath.load_eq` : what they have in common;
* `Served e` : the engine of a node that has had no I/O errors, whatever else has happened to it;
* `Tables.data`, `Tables.liveData` : the value and the expiry of a key, versions apart;
* **`snapshot_load`** : after a load the engine holds the live data of the source and nothing else.
-/

namespace Uddp
open Uddp.Lib Uddp.Wal

/-! ## The three ways -/

/-- `RestoreBackup` on a node without replication, from its `Reset` on. -/
def AdminServer.loadBackup (quote : Bytes → String) (e : Engine) (io : FsmIO) (entries : List SnapshotEntry) :
    Option Status × Engine :=
  match e.reset io.reset with
  | (some err, e') => (some ⟨.internal, "restore_backup: reset: " ++ err⟩, e')
  | (none, e') =>
      match putEntries e' io.append 0 entries with
      | (some (key, err), e'') =>
          (some ⟨.internal, "restore_backup: load key " ++ quote key ++ ": " ++ err.text⟩, e'')
      | (none, e'') => (none, e'')

/-- The command that `RestoreBackup` proposes on a replicated node. -/
def loadCommand (entries : List SnapshotEntry) : Command :=
  { op := OpLoadSnapshot, key := [], value := [], expiresAtUnixNano := 0, expectedVersion := 0, idempotencyKey := [],
    entries := entries }

theorem restoreBackup_handling (replicated : Bool) {path : String} (hpath : path ≠ "") (entries : List SnapshotEntry) :
    AdminServer.restoreBackup replicated path (.ok entries) =
      if replicated then .propose (loadCommand entries) else .load entries := by
  unfold AdminServer.restoreBackup
  rw [if_neg hpath]
  rfl

inductive LoadPath
  | restore
  /-- The command comes from the raft log with a term and is applied at a time. -/
  | apply (now : Time) (term : UInt64)
  | restoreBackup

/-- The text of the error, if there is one, and the engine afterwards. -/
def LoadPath.load (quote : Bytes → String) (e : Engine) (io : FsmIO) (entries : List SnapshotEntry) :
    LoadPath → Option String × Engine
  | .restore => ((Fsm.restore e io (.ok entries)).1.map (RestoreError.text quote), (Fsm.restore e io (.ok entries)).2)
  | .apply now term =>
      ((Fsm.apply e now io ⟨.ok (loadCommand entries), term⟩).1.err.map (ApplyError.text quote),
        (Fsm.apply e now io ⟨.ok (loadCommand entries), term⟩).2)
  | .restoreBackup =>
      ((AdminServer.loadBackup quote e io entries).1.map Status.message, (AdminServer.loadBackup quote e io entries).2)

/-- The `Reset` and the loop; `onReset` and `onKey` wrap their errors. -/
def reload {ε : Type} (onReset : String → ε) (onKey : Bytes → EngineError → ε) (e : Engine) (io : FsmIO)
    (entries : List SnapshotEntry) : Option ε × Engine :=
  match e.reset io.reset with
  | (some err, e') => (some (onReset err), e')
  | (none, e') =>
      match putEntries e' io.append 0 entries with
      | (some (key, err), e'') => (some (onKey key err), e'')
      | (none, e'') => (none, e'')

def LoadPath.resetText : LoadPath → String → String
  | .restore, err => "replication: reset engine before restore: " ++ err
  | .apply _ _, err => "replication: reset before snapshot load: " ++ err
  | .restoreBackup, err => "restore_backup: reset: " ++ err

def LoadPath.keyText (quote : Bytes → String) : LoadPath → Bytes → EngineError → String
  | .restore, key, err => "replication: restore key " ++ quote key ++ ": " ++ err.text
  | .apply _ _, key, err => "replication: load snapshot key " ++ quote key ++ ": " ++ err.text
  | .restoreBackup, key, err => "restore_backup: load key " ++ quote key ++ ": " ++ err.text

theorem reload_map {ε ε' : Type} (g : ε → ε') (onReset : String → ε) (onKey : Bytes → EngineError → ε) (e : Engine)
    (io : FsmIO) (entries : List SnapshotEntry) :
    ((reload onReset onKey e io entries).1.map g, (reload onReset onKey e io entries).2) =
      reload (fun err => g (onReset err)) (fun key err => g (onKey key err)) e io entries := by
  unfold reload
  cases e.reset io.reset with
  | mk err e' =>
      cases err with
      | some err => rfl
      | none =>
          dsimp only
          cases putEntries e' io.append 0 entries with
          | mk err e'' =>
              cases err with
              | some err => rfl
              | none => rfl

/-- **The three copies do the same**; only the texts of their errors differ. -/
theorem LoadPath.load_eq (path : LoadPath) (quote : Bytes → String) (e : Engine) (io : FsmIO) (entries : List SnapshotEntry) :
    path.load quote e io entries = reload path.resetText (path.keyText quote) e io entries := by
  cases path with
  | restore => exact reload_map (RestoreError.text quote) RestoreError.reset RestoreError.restoreKey e io entries
  | apply now term => exact reload_map (ApplyError.text quote) ApplyError.resetBeforeLoad ApplyError.loadKey e io entries
  | restoreBackup =>
      exact reload_map Status.message (fun err => ⟨.internal, "restore_backup: reset: " ++ err⟩)
        (fun key err => ⟨.internal, "restore_backup: load key " ++ quote key ++ ": " ++ err.text⟩) e io entries

/-! ## A load without faults -/

section Load
variable {e : Engine} {entries : List SnapshotEntry}

theorem reset_ok (h : (e.reset ResetIO.ok).1 = none) : e.reset ResetIO.ok = (none, fresh) := by
  unfold Engine.reset ResetIO.ok at h ⊢
  cases hclose : e.log.close none none with
  | mk err log =>
      rw [hclose] at h
      cases err with
      | some err => cases h
      | none => rfl

theorem LoadPath.load_represents (path : LoadPath) (quote : Bytes → String) (h : (e.reset ResetIO.ok).1 = none)
    (entries : List SnapshotEntry) :
    ∃ e', path.load quote e FsmIO.ok entries = (none, e') ∧ Represents e' (loaded entries) := by
  obtain ⟨e', hput, he'⟩ := putEntries_represents represents_fresh 0 entries
  refine ⟨e', ?_, he'⟩
  rw [LoadPath.load_eq]
  unfold reload FsmIO.ok
  simp only [reset_ok h, hput]

theorem loaded_sound (h : ∀ ent ∈ entries, ent.call.Fits) : Sound (loaded entries) := by
  refine run_invariant (P := Call.Fits) (I := Sound) (fun _ _ hc hs => answer_sound hc hs) ⟨by simp, by simp⟩ ?_
  intro c hc
  obtain ⟨ent, hent, rfl⟩ := List.mem_map.mp hc
  exact h ent hent

end Load

/-! ## Engines without I/O errors -/

/-- The engine of a node that has had no I/O errors: mutations, restarts, crashes, log entries and loads. -/
inductive Served : Engine → Prop
  | fresh : Served fresh
  | event {e e' : Engine} (h : Served e) (ev : Event) (hfits : ev.Fits) (hafter : e.after ev = some e') : Served e'
  | deliver {e : Engine} (h : Served e) (d : Delivery) (hd : d.Fits) : Served (Fsm.step e d).2
  | load {e : Engine} (h : Served e) (path : LoadPath) (quote : Bytes → String) (entries : List SnapshotEntry)
      (hfits : ∀ ent ∈ entries, ent.call.Fits) : Served (path.load quote e FsmIO.ok entries).2

theorem keeps_load {e : Engine} {rs : List Record} (h : Holds e.log rs) (path : LoadPath) (quote : Bytes → String)
    {entries : List SnapshotEntry} (hfits : ∀ ent ∈ entries, ent.call.Fits) :
    ∃ n, Keeps (path.load quote e FsmIO.ok entries).2 (loaded entries) n := by
  obtain ⟨e', hload, he'⟩ := path.load_represents quote (e := e) (by rw [reset_holds h]) entries
  rw [hload]
  exact ⟨_, he'.keeps (loaded_sound hfits)⟩

theorem Served.keeps {e : Engine} (h : Served e) : ∃ rs n, Keeps e rs n := by
  induction h with
  | fresh => exact ⟨[], 0, keeps_fresh⟩
  | event _ ev hfits hafter ih =>
      obtain ⟨rs, n, hkeeps⟩ := ih
      obtain ⟨rs', n', hkeeps', -⟩ := after_keeps hkeeps hfits hafter
      exact ⟨rs', n', hkeeps'⟩
  | load _ path quote entries hfits ih =>
      obtain ⟨rs, n, hkeeps⟩ := ih
      obtain ⟨n', hkeeps'⟩ := keeps_load hkeeps.holds path quote hfits
      exact ⟨_, n', hkeeps'⟩
  | @deliver e _ d hd ih =>
      obtain ⟨rs, n, hkeeps⟩ := ih
      show ∃ rs n, Keeps (Fsm.apply e d.now FsmIO.ok d.log).2 rs n
      rw [Fsm.apply_eq]
      unfold Delivery.Fits at hd
      cases heff : d.effect with
      | call c =>
          rw [heff] at hd
          obtain ⟨n', hkeeps', -⟩ := hkeeps.call hd
          exact ⟨_, n', hkeeps'⟩
      | wipe =>
          refine ⟨[], 0, ?_⟩
          show Keeps (e.reset ResetIO.ok).2 [] 0
          rw [reset_holds hkeeps.holds]
          exact keeps_fresh
      | load entries =>
          rw [heff] at hd
          obtain ⟨n', hkeeps'⟩ := keeps_load hkeeps.holds (.apply 0 0) (fun _ => "") hd
          exact ⟨_, n', hkeeps'⟩
      | invalid err => exact ⟨rs, n, hkeeps⟩

/-! ## The data of an engine -/

namespace Tables

/-- The value of a key and its expiry. -/
def data (t : Tables) (key : Bytes) : Option (Bytes × Time) :=
  (t.index.lookup key).map (fun ent => (ent.value, ent.expiresAt))

/-- The value of a key that has not expired, and its expiry. -/
def liveData (t : Tables) (now : Time) (key : Bytes) : Option (Bytes × Time) :=
  ((t.index.lookup key).filter (fun ent => !expired ent now)).map (fun ent => (ent.value, ent.expiresAt))

end Tables

theorem expired_mono {ent : Entry} {now later : Time} (h : now ≤ later) (hexp : expired ent now = true) :
    expired ent later = true := by
  simp only [expired, Bool.and_eq_true, decide_eq_true_eq] at hexp ⊢
  exact ⟨hexp.1, hexp.2.trans_le h⟩

theorem liveData_eq (t : Tables) (now : Time) (key : Bytes) :
    t.liveData now key = (t.data key).filter (fun d => !expired ⟨d.1, 0, d.2⟩ now) := by
  unfold Tables.liveData Tables.data
  rw [Option.filter_map]
  rfl

theorem get_value (t : Tables) (key : Bytes) (now : Time) :
    (t.get key now).map Prod.fst = (t.liveData now key).map Prod.fst := by
  unfold Tables.get Tables.liveData
  cases t.index.lookup key with
  | none => rfl
  | some ent =>
      by_cases hexp : expired ent now = true
      · simp [hexp]
      · simp [hexp]

theorem liveData_later (t : Tables) (key : Bytes) {now later : Time} (h : now ≤ later) :
    t.liveData later key = (t.liveData now key).filter (fun d => !expired ⟨d.1, 0, d.2⟩ later) := by
  rw [liveData_eq, liveData_eq, Option.filter_filter]
  congr 1
  funext d
  by_cases hexp : expired ⟨d.1, 0, d.2⟩ now = true
  · simp [hexp, expired_mono h hexp]
  · simp [hexp]

/-- An engine that holds what was live before answers `Get` alike from then on. -/
theorem get_of_liveData {t t' : Tables} {key : Bytes} {now later : Time} (hle : now ≤ later)
    (h : t'.data key = t.liveData now key) : (t'.get key later).map Prod.fst = (t.get key later).map Prod.fst := by
  rw [get_value, get_value, liveData_eq t', h, ← liveData_later t key hle]

/-! ## Snapshot and load -/

section Snapshots
variable {rs : List Record} {now : Bytes → Time} {entries : List (Σ _ : Bytes, Entry)}
  (hentries : (entries : Multiset (Σ _ : Bytes, Entry)) = (tablesOf rs).index.entries)
include hentries

theorem data_loaded (key : Bytes) :
    (tablesOf (loaded (snapshotOf now entries))).data key = (tablesOf rs).liveData (now key) key := by
  unfold Tables.data Tables.liveData
  cases hent : (tablesOf rs).index.lookup key with
  | none =>
      rw [Option.filter_none, lookup_restored_absent hentries hent, Option.map_none]
  | some ent =>
      have hmem := (lookup_iff_mem hentries).mp hent
      by_cases hexp : expired ent (now key) = true
      · rw [Option.filter_some_neg (by simp [hexp]), lookup_restored_expired hentries hmem hexp, Option.map_none]
      · rw [Option.filter_some_pos (by simpa using hexp)]
        have hlive : (⟨key, ent⟩ : Σ _ : Bytes, Entry) ∈ entries.filter (fun x => !expired x.2 (now x.1)) :=
          List.mem_filter.mpr ⟨hmem, by simpa using hexp⟩
        obtain ⟨j, hj⟩ := List.mem_iff_getElem?.mp hlive
        rw [lookup_restored hentries hj, Option.map_some, Option.map_some]

/-- The entries of a snapshot are no larger than the records they come from. -/
theorem snapshot_fits (hs : Sound rs) : ∀ ent ∈ snapshotOf now entries, ent.call.Fits := by
  intro ent hmem
  obtain ⟨x, hx, -, rfl⟩ := mem_snapshotOf.mp hmem
  have hlookup := (lookup_iff_mem hentries).mpr hx
  rw [lookup_tablesOf hs.kind, lastFor_eq] at hlookup
  obtain ⟨r, hlast, hent⟩ := Option.bind_eq_some_iff.mp hlookup
  obtain ⟨hr, hkey⟩ := mem_of_lastOf hlast
  have hvalue : x.2.value = r.value := by
    unfold entryOf at hent
    split_ifs at hent
    rw [← Option.some.inj hent]
  have hfit := hs.fits r hr
  unfold Wal.Fits at hfit
  show (frame (putRecord x.1 x.2.value _ [])).length < _
  rw [length_frame, length_body, length_encodePayload] at hfit ⊢
  show 4 + (4 + (29 + x.1.length + x.2.value.length + 0)) < _
  rw [hvalue, ← hkey]
  omega

end Snapshots

theorem Served.reset_ok {e : Engine} (h : Served e) : (e.reset ResetIO.ok).1 = none := by
  obtain ⟨rs, n, hkeeps⟩ := h.keeps
  rw [reset_holds hkeeps.holds]

/-- **Snapshot and load.** Whatever the source has been through, in whatever order its map is walked and whichever way the
snapshot takes into whatever target (as long as the target's log can be closed): the load succeeds, and afterwards, also
when the target has been closed and opened again, every key of the target is one that was live in the source and has its
value and its expiry, every other key is gone, and `Get` answers as the source does at every time from the snapshot on. -/
theorem snapshot_load {source target : Engine} (hsource : Served source) (htarget : (target.reset ResetIO.ok).1 = none)
    {now : Bytes → Time} {entries : List SnapshotEntry} (hsnapshot : source.Snapshot now entries) (path : LoadPath)
    (quote : Bytes → String) : ∃ e e', path.load quote target FsmIO.ok entries = (none, e) ∧ e.restart = .ok e' ∧
      ∀ x, x = e ∨ x = e' → (∀ key, x.data key = source.liveData (now key) key) ∧
        (∀ key, source.liveData (now key) key = none → x.index.lookup key = none) ∧
        ∀ key later, now key ≤ later → (x.get key later).map Prod.fst = (source.get key later).map Prod.fst := by
  obtain ⟨rs, n, hkeeps⟩ := hsource.keeps
  obtain ⟨listed, hlisted, rfl⟩ := hsnapshot
  rw [hkeeps.tables] at hlisted ⊢
  obtain ⟨e, hload, he⟩ := path.load_represents quote htarget (snapshotOf now listed)
  obtain ⟨e', hrestart, he'⟩ := restart_represents he (loaded_sound (snapshot_fits hlisted hkeeps.sound)).fits
  refine ⟨e, e', hload, hrestart, fun x hx => ?_⟩
  have htables : x.toTables = tablesOf (loaded (snapshotOf now listed)) := by
    rcases hx with rfl | rfl
    · exact he.tables
    · exact he'.tables
  rw [htables]
  have hdata : ∀ key, (tablesOf (loaded (snapshotOf now listed))).data key = (tablesOf rs).liveData (now key) key :=
    data_loaded hlisted
  refine ⟨hdata, fun key hnone => ?_, fun key later hle => get_of_liveData hle (hdata key)⟩
  rw [← hdata key] at hnone
  exact Option.map_eq_none_iff.mp hnone

/-- An engine with one key. -/
def oneKey : Engine := (step fresh (.applyPut [107] [118] 0 [])).2

/-- What becomes of the source: one key stays, one is deleted and one expires at 5. -/
def sourceCalls : List Call :=
  [.applyPut [97] [49] 0 [], .applyPut [98] [50] 0 [], .delete [98] [], .applyPut [99] [51] 5 []]

/-- The backup of the source at 10, restored over an engine with a key of its own. -/
theorem snapshot_load_live : ∃ e e', LoadPath.restoreBackup.load (fun _ => "") oneKey FsmIO.ok [⟨[97], [49], 0⟩] = (none, e) ∧
    e.restart = .ok e' ∧ (e'.get [97] 10).map Prod.fst = some [49] ∧ e'.index.lookup [98] = none ∧
    e'.index.lookup [99] = none ∧ e'.index.lookup [107] = none := by
  have htarget : Served oneKey := .event .fresh (.call (.applyPut [107] [118] 0 [])) (by decide) rfl
  have hserved : Served (run step fresh sourceCalls).2 := by
    have hput : Served (step fresh (.applyPut [97] [49] 0 [])).2 := .event .fresh (.call _) (by decide) rfl
    have hput' := Served.event hput (.call (.applyPut [98] [50] 0 [])) (by decide) rfl
    have hdelete := Served.event hput' (.call (.delete [98] [])) (by decide) rfl
    exact Served.event hdelete (.call (.applyPut [99] [51] 5 [])) (by decide) rfl
  have hsnapshot : (run step fresh sourceCalls).2.Snapshot (fun _ => 10) [⟨[97], [49], 0⟩] :=
    ⟨[⟨[97], ⟨[49], 1, zeroTime⟩⟩, ⟨[99], ⟨[51], 4, 5⟩⟩], by decide +kernel, by decide +kernel⟩
  obtain ⟨e, e', hload, hrestart, hagree⟩ :=
    snapshot_load hserved htarget.reset_ok hsnapshot .restoreBackup (fun _ => "")
  obtain ⟨-, hgone, hget⟩ := hagree e' (Or.inr rfl)
  refine ⟨e, e', hload, hrestart, (hget [97] 10 (by decide)).trans ?_, hgone [98] ?_, hgone [99] ?_, hgone [107] ?_⟩
  all_goals decide +kernel

end Uddp

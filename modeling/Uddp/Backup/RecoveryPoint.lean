import Mathlib.Data.List.Perm.Basic
import Uddp.Api.Restore
import Uddp.Backup.Format
import Uddp.Engine.Shared

/-!
# The recovery point of a backup

`CreateBackup` takes the snapshot under the engine's lock, gives it back, and asks the log for its last position. Mutations
commit in between, and a `Reset` can put another log in the place of the first.

* `Backup.writeFile`, `AdminServer.createBackup` : with the two readings as arguments;
* `snapshot_iff` : two histories have a snapshot in common exactly if they agree on what is live;
* `Follows` : an engine with a backup that goes on with the stream;
* `SharedEngine.stepReset` : the engine with its mutations, its readers and `Reset`;
* `Unnoticed` : what happens between the two readings leaves what is live as it was;
* **`recovery_point_iff`** : the recovery point is that of the entries exactly then.
-/

namespace Uddp
open Uddp.Lib Uddp.Wal

/-! ## `CreateBackup` -/

namespace Backup

/-- What the operating system does to `WriteFile`. -/
structure WriteFileIO where
  create : Option String
  write : Option String
  sync : Option String
  deriving DecidableEq, Repr

def WriteFileIO.ok : WriteFileIO := ⟨none, none, none⟩

inductive WriteFileError
  | create (path err : String)
  | write (err : BackupError)
  | sync (path err : String)
  deriving DecidableEq, Repr

def WriteFileError.text : WriteFileError → String
  | .create path err => "backup: create " ++ path ++ ": " ++ err
  | .write err => err.text
  | .sync path err => "backup: sync " ++ path ++ ": " ++ err

def writeFile (g : Gob) (sha256 : Bytes → Bytes) (p : Process) (path : String) (m : Meta) (entries : List SnapshotEntry)
    (now : Time) (io : WriteFileIO) : Except WriteFileError (Meta × Bytes) × Process :=
  match io.create with
  | some err => (.error (.create path err), p)
  | none =>
      match write g sha256 p m entries now io.write with
      | (.error err, p) => (.error (.write err), p)
      | (.ok (written, bs), p) =>
          match io.sync with
          | some err => (.error (.sync path err), p)
          | none => (.ok (written, bs), p)

end Backup

structure BackupInfo where
  namespaceId : String
  recoveryPoint : UInt64
  entryCount : Int32
  createdAt : String
  sha256Entries : String
  deriving DecidableEq, Repr

/-- `rfc3339` is `Format(time.RFC3339)`. -/
def backupInfo (rfc3339 : Time → String) (m : Backup.Meta) : BackupInfo :=
  ⟨m.namespaceId, m.recoveryPoint, Int32.ofInt m.entryCount, rfc3339 m.createdAt, m.sha256Entries⟩

/-- `entries` is what `Snapshot` has returned, `recoveryPoint` what `LastCommitPosition` has. The bytes are those of the
file. -/
def AdminServer.createBackup (g : Backup.Gob) (sha256 : Bytes → Bytes) (rfc3339 : Time → String) (spec : NamespaceSpec)
    (p : Backup.Process) (path : String) (entries : List SnapshotEntry) (recoveryPoint : UInt64) (now : Time)
    (io : Backup.WriteFileIO) : Except Status (BackupInfo × Bytes) × Backup.Process :=
  if path = "" then (.error ⟨.invalidArgument, "path is required"⟩, p)
  else
    match Backup.writeFile g sha256 p path ⟨0, spec.id, recoveryPoint, 0, zeroTime, ""⟩ entries now io with
    | (.error err, p) => (.error ⟨.internal, "create_backup: " ++ err.text⟩, p)
    | (.ok (written, bs), p) => (.ok (backupInfo rfc3339 written, bs), p)

theorem createBackup_ok {g : Backup.Gob} {sha256 : Bytes → Bytes} {rfc3339 : Time → String} {spec : NamespaceSpec}
    {p p' : Backup.Process} {path : String} {entries : List SnapshotEntry} {recoveryPoint : UInt64} {now : Time}
    {io : Backup.WriteFileIO} {info : BackupInfo} {bs : Bytes}
    (h : AdminServer.createBackup g sha256 rfc3339 spec p path entries recoveryPoint now io = (.ok (info, bs), p')) :
    info.recoveryPoint = recoveryPoint ∧ ∃ written : Backup.Meta, g.payload.decode bs = .ok ⟨written, entries⟩ ∧
      written.recoveryPoint = recoveryPoint := by
  unfold AdminServer.createBackup Backup.writeFile at h
  split at h
  · cases h
  · cases hcreate : io.create with
    | some err =>
        rw [hcreate] at h
        cases h
    | none =>
        rw [hcreate] at h
        dsimp only at h
        cases hwrite : Backup.write g sha256 p ⟨0, spec.id, recoveryPoint, 0, zeroTime, ""⟩ entries now io.write with
        | mk result p₁ =>
            rw [hwrite] at h
            cases result with
            | error err => cases h
            | ok found =>
                cases hsync : io.sync with
                | some err =>
                    rw [hsync] at h
                    cases h
                | none =>
                    rw [hsync] at h
                    cases h
                    obtain ⟨-, -, hpoint, hdecode, -⟩ := Backup.write_ok hwrite
                    exact ⟨hpoint, found.1, hdecode, hpoint⟩

/-! ## What is live -/

section Live
variable {t t' : Tables} {key : Bytes} {now : Time}

theorem live_of_liveData {d : Bytes × Time} (h : t.liveData now key = some d) {past : Time} (hle : past ≤ now) :
    expired ⟨d.1, 0, d.2⟩ past = false := by
  rw [liveData_eq, Option.filter_eq_some_iff] at h
  by_contra hexp
  have hnow := expired_mono hle (Bool.eq_true_of_not_eq_false hexp)
  rw [hnow] at h
  exact absurd h.2 (by decide)

/-- What is live can be read off the values at all later times. -/
theorem liveData_of_get (h : ∀ later, now ≤ later → (t'.get key later).map Prod.fst = (t.get key later).map Prod.fst) :
    t'.liveData now key = t.liveData now key := by
  have hvalues := h now le_rfl
  rw [get_value, get_value] at hvalues
  cases hd' : t'.liveData now key with
  | none =>
      rw [hd', Option.map_none, eq_comm, Option.map_eq_none_iff] at hvalues
      rw [hvalues]
  | some d' =>
      rw [hd', Option.map_some, eq_comm, Option.map_eq_some_iff] at hvalues
      obtain ⟨d, hd, hvalue⟩ := hvalues
      -- the two entries expire at the same time
      have hexpired : ∀ x, expired ⟨d'.1, 0, d'.2⟩ x = expired ⟨d.1, 0, d.2⟩ x := by
        intro x
        rcases le_total x now with hle | hle
        · rw [live_of_liveData hd' hle, live_of_liveData hd hle]
        · have hat := h x hle
          rw [get_value, get_value, liveData_later t' key hle, liveData_later t key hle, hd', hd] at hat
          by_cases hexp' : expired ⟨d'.1, 0, d'.2⟩ x = true
          · by_cases hexp : expired ⟨d.1, 0, d.2⟩ x = true
            · rw [hexp', hexp]
            · rw [Option.filter_some_neg (by simp [hexp']), Option.filter_some_pos (by simp [hexp])] at hat
              cases hat
          · by_cases hexp : expired ⟨d.1, 0, d.2⟩ x = true
            · rw [Option.filter_some_pos (by simp [hexp']), Option.filter_some_neg (by simp [hexp])] at hat
              cases hat
            · rw [Bool.eq_false_of_not_eq_true hexp', Bool.eq_false_of_not_eq_true hexp]
      rw [hd, Prod.ext hvalue.symm (expiresAt_eq_of_expired hexpired)]

end Live

/-! ## Snapshots -/

/-- The entry of a snapshot, by the value and the expiry. -/
def entryFor (key : Bytes) (d : Bytes × Time) : SnapshotEntry :=
  ⟨key, d.1, if d.2 ≠ zeroTime then Int64.ofInt d.2 else 0⟩

section Snapshots
variable {rs rs' : List Record} {now : Bytes → Time} {listed : List (Σ _ : Bytes, Entry)} {entries : List SnapshotEntry}

theorem mem_snapshot_iff (hlisted : (listed : Multiset (Σ _ : Bytes, Entry)) = (tablesOf rs).index.entries)
    {ent : SnapshotEntry} : ent ∈ snapshotOf now listed ↔
      ∃ d, (tablesOf rs).liveData (now ent.key) ent.key = some d ∧ entryFor ent.key d = ent := by
  rw [mem_snapshotOf]
  constructor
  · rintro ⟨x, hx, hlive, rfl⟩
    refine ⟨(x.2.value, x.2.expiresAt), ?_, rfl⟩
    unfold Tables.liveData
    rw [show (snapshotEntry x).key = x.1 from rfl, (lookup_iff_mem hlisted).mpr hx, Option.filter_some_pos (by simp [hlive])]
    rfl
  · rintro ⟨d, hd, hent⟩
    unfold Tables.liveData at hd
    obtain ⟨x, hx, rfl⟩ := Option.map_eq_some_iff.mp hd
    obtain ⟨hlookup, hlive⟩ := Option.filter_eq_some_iff.mp hx
    exact ⟨⟨ent.key, x⟩, (lookup_iff_mem hlisted).mp hlookup, by simpa using hlive, hent⟩

theorem nodup_snapshotOf (hlisted : (listed : Multiset (Σ _ : Bytes, Entry)) = (tablesOf rs).index.entries) :
    (snapshotOf now listed).Nodup := by
  refine List.Nodup.of_map SnapshotEntry.key ?_
  rw [snapshotOf_eq, List.map_map]
  exact (nodup_keys hlisted).sublist (List.filter_sublist.map Sigma.fst)

theorem exists_listing {out : List SnapshotEntry} (h : out.Perm (snapshotOf now listed)) :
    ∃ listed', listed'.Perm listed ∧ out = snapshotOf now listed' := by
  rw [snapshotOf_eq] at h
  obtain ⟨live, rfl, hperm⟩ : (Relation.Comp (fun x y => x = List.map snapshotEntry y) List.Perm) out
      (listed.filter (fun x => !expired x.2 (now x.1))) := by
    rw [List.eq_map_comp_perm]
    exact h
  refine ⟨live ++ listed.filter (fun x => !!expired x.2 (now x.1)), ?_, ?_⟩
  · exact (hperm.append_right _).trans (List.filter_append_perm (fun x => !expired x.2 (now x.1)) listed)
  · have hlive : live.filter (fun x => !expired x.2 (now x.1)) = live :=
      List.filter_eq_self.mpr fun x hx => (List.mem_filter.mp (hperm.subset hx)).2
    have hrest : (listed.filter (fun x => !!expired x.2 (now x.1))).filter (fun x => !expired x.2 (now x.1)) = [] := by
      rw [List.filter_filter, List.filter_eq_nil_iff]
      intro x _
      simp
    rw [snapshotOf_eq, List.filter_append, hlive, hrest, List.append_nil]

/-- **A snapshot of one history** is one of another exactly if the two agree on what is live. -/
theorem snapshot_iff (h : (tablesOf rs).Snapshot now entries) : (tablesOf rs').Snapshot now entries ↔
    ∀ key, (tablesOf rs').liveData (now key) key = (tablesOf rs).liveData (now key) key := by
  obtain ⟨listed, hlisted, rfl⟩ := h
  constructor
  · rintro ⟨listed', hlisted', hsame⟩ key
    rw [← data_loaded hlisted key, hsame, data_loaded hlisted' key]
  · intro hagree
    obtain ⟨listed', hlisted'⟩ := Quot.exists_rep (tablesOf rs').index.entries
    have hperm : (snapshotOf now listed).Perm (snapshotOf now listed') := by
      rw [List.perm_ext_iff_of_nodup (nodup_snapshotOf hlisted) (nodup_snapshotOf hlisted')]
      intro ent
      rw [mem_snapshot_iff hlisted, mem_snapshot_iff hlisted', hagree]
    obtain ⟨ordered, hordered, hout⟩ := exists_listing hperm
    exact ⟨ordered, (Multiset.coe_eq_coe.mpr hordered).trans hlisted', hout⟩

end Snapshots

/-! ## A restored engine that consumes the stream -/

section Follows
variable {now : Bytes → Time} {t t' : Tables} {r : Record} {rs : List Record}

/-- `t'` has the data of `t`, but for what had expired by the time of the snapshot. -/
def Follows (now : Bytes → Time) (t' t : Tables) : Prop :=
  ∀ key, t'.data key = t.data key ∨ t'.data key = t.liveData (now key) key

theorem data_replay (t : Tables) (hr : r.kind = KindPut ∨ r.kind = KindDelete) (key : Bytes) :
    (replay t r).data key = if r.key = key then (entryOf r).map (fun ent => (ent.value, ent.expiresAt)) else t.data key := by
  unfold Tables.data
  rw [lookup_replay t hr]
  split
  · rfl
  · rfl

theorem Follows.replay (h : Follows now t' t) (hr : r.kind = KindPut ∨ r.kind = KindDelete) :
    Follows now (replay t' r) (replay t r) := by
  intro key
  rw [liveData_eq, data_replay t' hr, data_replay t hr]
  by_cases hkey : r.key = key
  · rw [if_pos hkey, if_pos hkey]
    exact Or.inl rfl
  · rw [if_neg hkey, if_neg hkey, ← liveData_eq]
    exact h key

theorem Follows.consume (h : Follows now t' t) (hrs : ∀ r ∈ rs, r.kind = KindPut ∨ r.kind = KindDelete) :
    Follows now (rs.foldl Uddp.replay t') (rs.foldl Uddp.replay t) := by
  induction rs generalizing t' t with
  | nil => exact h
  | cons r rs ih => exact ih (h.replay (hrs r (by simp))) (fun x hx => hrs x (by simp [hx]))

/-- From the snapshot on, both answer `Get` alike. -/
theorem Follows.get (h : Follows now t' t) {key : Bytes} {later : Time} (hle : now key ≤ later) :
    (t'.get key later).map Prod.fst = (t.get key later).map Prod.fst := by
  rcases h key with hdata | hdata
  · rw [get_value, get_value, liveData_eq, liveData_eq, hdata]
  · exact get_of_liveData hle hdata

end Follows

/-! ## `Reset` -/

inductive ResetAction (ι κ : Type)
  | engine (a : EngineAction ι κ)
  /-- `DeleteNamespace`, a restore, or one of their log entries. -/
  | reset

def ResetAction.Fits {ι κ : Type} : ResetAction ι κ → Prop
  | .engine a => a.Fits
  | .reset => True

section Resets
variable {ι κ : Type} [DecidableEq ι] [DecidableEq κ] {s s' : SharedEngine ι κ}

/-- `Reset` has the engine's lock to itself. The calls that come afterwards find the new log. -/
def SharedEngine.stepReset (s : SharedEngine ι κ) : ResetAction ι κ → Option (SharedEngine ι κ)
  | .engine a => s.step a
  | .reset =>
      match s.holder with
      | none => some (.start (s.engine.reset ResetIO.ok).2)
      | some _ => none

/-- The engine has a log that works, and when nobody has the lock its maps are those of the log. -/
def Going (s : SharedEngine ι κ) : Prop := ∃ w₀ rs₀, SharedInv w₀ rs₀ s

omit [DecidableEq ι] [DecidableEq κ] in
theorem Going.reset (h : Going s) : (s.engine.reset ResetIO.ok).2 = fresh := by
  obtain ⟨w₀, rs₀, hinv⟩ := h
  have hclose : (s.engine.log.close none none).1 = none := by
    show (s.log.group.w.close none none).1 = none
    unfold WAL.close
    simp only [BufferedFile.flush_empty hinv.flushed.buf, hinv.flushed.err]
  have hreset : (s.engine.reset ResetIO.ok).1 = none := by
    unfold Engine.reset ResetIO.ok
    generalize s.engine.log.close none none = closed at hclose
    obtain ⟨err, log⟩ := closed
    subst hclose
    rfl
  rw [reset_ok hreset]

theorem going_step {a : ResetAction ι κ} (h : Going s) (hfits : a.Fits) (hstep : s.stepReset a = some s') : Going s' := by
  cases a with
  | engine a =>
      obtain ⟨w₀, rs₀, hinv⟩ := h
      exact ⟨w₀, rs₀, shared_step hinv hfits hstep⟩
  | reset =>
      simp only [SharedEngine.stepReset] at hstep
      split at hstep
      · cases hstep
        rw [h.reset]
        exact ⟨_, _, shared_start keeps_fresh⟩
      · cases hstep

theorem run_going {as : List (ResetAction ι κ)} (h : Going s) (hfits : ∀ a ∈ as, a.Fits)
    (hrun : runActions SharedEngine.stepReset s as = some s') : Going s' :=
  runActions_along (P := fun _ a => a.Fits) (fun _ _ _ hi hf hstep => going_step hi hf hstep) h (along_of_mem hfits _) hrun

theorem runActions_engine (s : SharedEngine ι κ) (as : List (EngineAction ι κ)) :
    runActions SharedEngine.stepReset s (as.map .engine) = runActions SharedEngine.step s as := by
  unfold runActions
  rw [List.foldlM_map]
  rfl

end Resets

/-! ## The two readings -/

/-- What is live after `rs₂` is what was live after `rs₁`. -/
def Unnoticed (now : Bytes → Time) (rs₁ rs₂ : List Record) : Prop :=
  ∀ key, (tablesOf rs₂).liveData (now key) key = (tablesOf rs₁).liveData (now key) key

section Readings
variable {now : Bytes → Time} {rs₁ rs₂ rs₃ : List Record} {entries : List SnapshotEntry}

theorem data_foldl_of_ne {rs : List Record} (hrs : ∀ r ∈ rs, r.kind = KindPut ∨ r.kind = KindDelete) {key : Bytes}
    (hkey : ∀ r ∈ rs, r.key ≠ key) (t : Tables) : (rs.foldl replay t).data key = t.data key := by
  induction rs generalizing t with
  | nil => rfl
  | cons r rs ih =>
      rw [List.foldl_cons, ih (fun x hx => hrs x (by simp [hx])) (fun x hx => hkey x (by simp [hx])),
        data_replay t (hrs r (by simp)), if_neg (hkey r (by simp))]

theorem unnoticed_iff (hpart : rs₁ <+: rs₂) (hkind : ∀ r ∈ rs₂, r.kind = KindPut ∨ r.kind = KindDelete) :
    Unnoticed now rs₁ rs₂ ↔ ∀ r ∈ rs₂.drop rs₁.length,
      (tablesOf rs₂).liveData (now r.key) r.key = (tablesOf rs₁).liveData (now r.key) r.key := by
  obtain ⟨mid, rfl⟩ := hpart
  rw [List.drop_left]
  constructor
  · exact fun h r _ => h r.key
  · intro h key
    by_cases hmid : ∃ r ∈ mid, r.key = key
    · obtain ⟨r, hr, rfl⟩ := hmid
      exact h r hr
    · rw [liveData_eq, liveData_eq, tablesOf_append, data_foldl_of_ne (fun r hr => hkind r (by simp [hr]))
        (fun r hr hkey => hmid ⟨r, hr, hkey⟩)]

/-- An engine with the entries that goes on with the records behind the recovery point. -/
theorem follows_of_unnoticed (hpart : rs₂ <+: rs₃) (hkind : ∀ r ∈ rs₃, r.kind = KindPut ∨ r.kind = KindDelete)
    (hsnapshot : (tablesOf rs₁).Snapshot now entries) (h : Unnoticed now rs₁ rs₂) :
    Follows now ((rs₃.drop rs₂.length).foldl replay (tablesOf (loaded entries))) (tablesOf rs₃) := by
  obtain ⟨rest, rfl⟩ := hpart
  obtain ⟨listed, hlisted, rfl⟩ := hsnapshot
  rw [List.drop_left, tablesOf_append]
  refine Follows.consume (fun key => Or.inr ?_) (fun r hr => hkind r (by simp [hr]))
  rw [data_loaded hlisted key]
  exact (h key).symm

theorem unnoticed_of_get (hsnapshot : (tablesOf rs₁).Snapshot now entries)
    (h : ∀ key later, now key ≤ later →
      ((tablesOf (loaded entries)).get key later).map Prod.fst = ((tablesOf rs₂).get key later).map Prod.fst) :
    Unnoticed now rs₁ rs₂ := by
  intro key
  obtain ⟨listed, hlisted, rfl⟩ := hsnapshot
  have hlive := liveData_of_get (h key)
  rw [← hlive, liveData_eq, data_loaded hlisted key]
  exact (liveData_later _ key le_rfl).symm

end Readings

section Backups
variable {ι κ : Type} [DecidableEq ι] [DecidableEq κ] {s₁ s₂ : SharedEngine ι κ}

/-- **The recovery point of a backup.** On the engine of any node that has had no I/O errors, in every interleaving of
mutations, readers and `Reset`s with a `CreateBackup` that succeeds: it takes its snapshot in a state `s₁` in which no mutation
has the lock, and its recovery point is the last position of the log in a later state `s₂`. The file has the entries and the
recovery point. The entries are a snapshot of the records up to the recovery point, as long as the log of `s₂` is there, exactly
if what is live after the log of `s₂` is what was live after the log of `s₁`. And exactly then an engine that loads the entries
and goes on with the records behind the recovery point has missed nothing: at any time from the snapshot on it finds the values
that the log says. If nobody has called `Reset` between the two readings, this depends on the records that came between
them. -/
theorem recovery_point_iff {e : Engine} (he : Uddp.Served e) {as later : List (ResetAction ι κ)} (hfits : ∀ a ∈ as, a.Fits)
    (hrun : runActions SharedEngine.stepReset (.start e) as = some s₁) (hfree : s₁.holder = none) {now : Bytes → Time}
    {entries : List SnapshotEntry} (hsnapshot : s₁.tables.Snapshot now entries) (hfits' : ∀ a ∈ later, a.Fits)
    (hlater : runActions SharedEngine.stepReset s₁ later = some s₂) (hlen : s₂.engine.log.byteOffsets.length < 2 ^ 63)
    {g : Backup.Gob} {sha256 : Bytes → Bytes} {rfc3339 : Time → String} {spec : NamespaceSpec} {p p' : Backup.Process}
    {path : String} {createdAt : Time} {io : Backup.WriteFileIO} {info : BackupInfo} {bs : Bytes}
    (hbackup : AdminServer.createBackup g sha256 rfc3339 spec p path entries s₂.engine.log.lastCommitPosition createdAt io =
      (.ok (info, bs), p')) :
    (∃ written : Backup.Meta, g.payload.decode bs = .ok ⟨written, entries⟩ ∧ written.recoveryPoint = info.recoveryPoint) ∧
    (∀ rest s₃, (∀ a ∈ rest, a.Fits) → runActions SharedEngine.step s₂ rest = some s₃ →
      ((tablesOf (s₃.engine.stream.take info.recoveryPoint.toNat)).Snapshot now entries ↔
        Unnoticed now s₁.engine.stream s₂.engine.stream)) ∧
    ((∀ rest s₃, (∀ a ∈ rest, a.Fits) → runActions SharedEngine.step s₂ rest = some s₃ → ∀ key time, now key ≤ time →
        (((s₃.engine.stream.drop info.recoveryPoint.toNat).foldl replay (tablesOf (loaded entries))).get key time).map
          Prod.fst = ((tablesOf s₃.engine.stream).get key time).map Prod.fst) ↔
      Unnoticed now s₁.engine.stream s₂.engine.stream) ∧
    (∀ between : List (EngineAction ι κ), later = between.map .engine → (Unnoticed now s₁.engine.stream s₂.engine.stream ↔
      ∀ r ∈ s₂.engine.stream.drop s₁.engine.stream.length,
        (tablesOf s₂.engine.stream).liveData (now r.key) r.key = (tablesOf s₁.engine.stream).liveData (now r.key) r.key)) := by
  obtain ⟨rs₀, n, hkeeps⟩ := he.keeps
  have hgoing : Going s₁ := run_going ⟨_, _, shared_start hkeeps⟩ hfits hrun
  obtain ⟨w₂, rs₂, h₂⟩ := run_going hgoing hfits' hlater
  obtain ⟨w₁, rs₁, h₁⟩ := hgoing
  rw [h₁.tables hfree] at hsnapshot
  obtain ⟨hinfo, written, hdecode, hwritten⟩ := createBackup_ok hbackup
  have hcount : s₂.engine.log.byteOffsets.length = (s₂.log.group.records rs₂).length :=
    (h₂.served.indexed.next h₂.flushed.err).1
  have hsize : 2 ^ 63 < UInt64.size := by decide
  have hpoint : info.recoveryPoint.toNat = (s₂.log.group.records rs₂).length := by
    rw [hinfo, h₂.lastCommitPosition, UInt64.toNat_ofNat_of_lt' (by omega)]
  refine ⟨⟨written, hdecode, hwritten.trans hinfo.symm⟩, fun rest s₃ hrest hrun₃ => ?_, ⟨?_, ?_⟩, fun between hbetween => ?_⟩
  · rw [(run_shared h₂ hrest hrun₃).stream, hpoint, take_of_part (run_grows h₂ hrest hrun₃) le_rfl, List.take_length, h₁.stream,
      h₂.stream]
    exact snapshot_iff hsnapshot
  · intro h
    rw [h₁.stream, h₂.stream]
    refine unnoticed_of_get hsnapshot fun key time hle => ?_
    have hnone := h [] s₂ (by simp) rfl key time hle
    rwa [h₂.stream, hpoint, List.drop_length] at hnone
  · intro h rest s₃ hrest hrun₃ key time hle
    have h₃ := run_shared h₂ hrest hrun₃
    rw [h₁.stream, h₂.stream] at h
    rw [h₃.stream, hpoint]
    exact (follows_of_unnoticed (run_grows h₂ hrest hrun₃) h₃.kind hsnapshot h).get hle
  · -- the log of `s₂` is that of `s₁`, gone on
    have hfits₁ : ∀ a ∈ between, a.Fits := fun a ha => hfits' (.engine a) (by rw [hbetween]; exact List.mem_map_of_mem ha)
    rw [hbetween, runActions_engine] at hlater
    have hlast := run_shared h₁ hfits₁ hlater
    rw [h₁.stream, hlast.stream]
    exact unnoticed_iff (run_grows h₁ hfits₁ hlater) hlast.kind

end Backups

theorem plainGob_creates (spec : NamespaceSpec) (p : Backup.Process) {path : String} (hpath : path ≠ "")
    (entries : List SnapshotEntry) (recoveryPoint : UInt64) (now : Time) : ∃ info bs p',
      AdminServer.createBackup Backup.plainGob id (fun _ => "") spec p path entries recoveryPoint now .ok =
        (.ok (info, bs), p') := by
  obtain ⟨written, bs, p', hwrite⟩ :=
    Backup.plainGob_writes p ⟨0, spec.id, recoveryPoint, 0, zeroTime, ""⟩ entries now
  unfold AdminServer.createBackup Backup.writeFile Backup.WriteFileIO.ok
  simp only [if_neg hpath, hwrite]
  exact ⟨_, _, _, rfl⟩

/-- A put of one key. -/
def putKey : List (ResetAction Unit Unit) := (EngineAction.writeThrough () (.applyPut [107] [118] 0 [])).map .engine

/-- The map with that key. -/
def keyListed : List (Σ _ : Bytes, Entry) := [⟨[107], ⟨[118], 1, zeroTime⟩⟩]

theorem putKey_fits : ∀ a ∈ putKey, a.Fits := by
  have hfits : (Call.applyPut [107] [118] 0 []).Fits := by decide
  simpa [putKey, EngineAction.writeThrough, ResetAction.Fits, EngineAction.Fits] using hfits

/-- A backup after the put. Between its two readings the namespace is deleted and the key is put once more. -/
theorem recovery_point_quiet : ∃ s₁ s₂ info bs p', runActions SharedEngine.stepReset (.start fresh) putKey = some s₁ ∧
    runActions SharedEngine.stepReset s₁ (.reset :: putKey) = some s₂ ∧
    AdminServer.createBackup Backup.plainGob id (fun _ => "") ⟨"n", "default"⟩ (Backup.plainGob.after []) "b"
      [⟨[107], [118], 0⟩] s₂.engine.log.lastCommitPosition 0 .ok = (.ok (info, bs), p') ∧
    (tablesOf (s₂.engine.stream.take info.recoveryPoint.toNat)).Snapshot (fun _ => 0) [⟨[107], [118], 0⟩] := by
  have heval : (runActions SharedEngine.stepReset (.start fresh) putKey).map (fun s => (s.holder, s.engine.stream,
      decide ((keyListed : Multiset (Σ _ : Bytes, Entry)) = s.tables.index.entries))) =
        some (none, [stamp (putRecord [107] [118] 0 []) 1], true) := by
    decide +kernel
  obtain ⟨s₁, hrun, hs⟩ := Option.map_eq_some_iff.mp heval
  obtain ⟨hfree, hs⟩ := Prod.mk.inj hs
  obtain ⟨hstream₁, hlisted⟩ := Prod.mk.inj hs
  have heval₂ : (runActions SharedEngine.stepReset (.start fresh) (putKey ++ .reset :: putKey)).map (fun s =>
      (s.engine.log.byteOffsets.length, s.engine.stream)) = some (1, [stamp (putRecord [107] [118] 0 []) 1]) := by
    decide +kernel
  rw [runActions_append _ hrun] at heval₂
  obtain ⟨s₂, hlater, hs⟩ := Option.map_eq_some_iff.mp heval₂
  obtain ⟨hlen, hstream₂⟩ := Prod.mk.inj hs
  obtain ⟨info, bs, p', hbackup⟩ := plainGob_creates ⟨"n", "default"⟩ (Backup.plainGob.after []) (by decide : "b" ≠ "")
    [⟨[107], [118], 0⟩] s₂.engine.log.lastCommitPosition 0
  have hsnapshot : s₁.tables.Snapshot (fun _ => 0) [⟨[107], [118], 0⟩] :=
    ⟨keyListed, of_decide_eq_true hlisted, by decide +kernel⟩
  have hfits : ∀ a ∈ ResetAction.reset :: putKey, a.Fits := List.forall_mem_cons.mpr ⟨trivial, putKey_fits⟩
  have hpoint := recovery_point_iff .fresh putKey_fits hrun hfree hsnapshot hfits hlater (by rw [hlen]; decide) hbackup
  refine ⟨s₁, s₂, info, bs, p', hrun, hlater, hbackup, (hpoint.2.1 [] s₂ (List.forall_mem_nil _) rfl).mpr ?_⟩
  rw [hstream₁, hstream₂]
  exact fun _ => rfl

/-- The put commits between the snapshot of an empty engine and the reading of the position: the backup has no entries, and
its recovery point is that of the put. No record is behind it, and the put is lost to an engine that loads the backup. -/
theorem backup_misses_put : (SharedEngine.start fresh : SharedEngine Unit Unit).holder = none ∧
    (SharedEngine.start fresh : SharedEngine Unit Unit).tables.Snapshot (fun _ => 0) [] ∧
    ∃ s info bs p', runActions SharedEngine.stepReset (.start fresh) putKey = some s ∧
      AdminServer.createBackup Backup.plainGob id (fun _ => "") ⟨"n", "default"⟩ (Backup.plainGob.after []) "b" []
        s.engine.log.lastCommitPosition 0 .ok = (.ok (info, bs), p') ∧ info.recoveryPoint = 1 ∧
      s.engine.stream.length = 1 ∧ ¬(tablesOf s.engine.stream).Snapshot (fun _ => 0) [] ∧
      s.get [107] 5 = some (some ([118], 1)) ∧ (tablesOf (loaded [])).get [107] 5 = none := by
  have hempty : (tablesOf []).Snapshot (fun _ => 0) [] := ⟨[], rfl, rfl⟩
  have heval : (runActions SharedEngine.stepReset (.start fresh) putKey).map (fun s => (s.get [107] 5,
      s.engine.log.lastCommitPosition, s.engine.stream)) =
        some (some (some ([118], 1)), 1, [stamp (putRecord [107] [118] 0 []) 1]) := by decide +kernel
  obtain ⟨s, hrun, hs⟩ := Option.map_eq_some_iff.mp heval
  obtain ⟨hget, hs⟩ := Prod.mk.inj hs
  obtain ⟨hlast, hstream⟩ := Prod.mk.inj hs
  obtain ⟨info, bs, p', hbackup⟩ := plainGob_creates ⟨"n", "default"⟩ (Backup.plainGob.after []) (by decide : "b" ≠ "") []
    s.engine.log.lastCommitPosition 0
  refine ⟨rfl, hempty, s, info, bs, p', hrun, hbackup, (createBackup_ok hbackup).1.trans hlast, by rw [hstream]; rfl, ?_, hget,
    by decide +kernel⟩
  rw [hstream, snapshot_iff hempty]
  exact fun h => absurd (h [107]) (by decide +kernel)

end Uddp

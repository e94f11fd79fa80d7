import Uddp.Engine.Basic
import Uddp.Lib.Machine

/-!
# An engine is its history

The abstract engine is the list of the records it has committed: its maps are the replay of that list and
its next position is one more than its length.

* `Tables.decide c` : what a mutation does, read off the maps: a remembered outcome, a conflict, or a record to write;
* `Call.run_eq` : the three mutations of the source make this decision and then do what `replay` does;
* `tablesOf`, `answer` : the abstract engine and its step;
* `Represents e rs` : the engine `e` has the history `rs`;
* **`run_represents`** : a run of the engine without faults is a run of the abstract one;
* **`openEngine_log`** : `engine.Open` on a file of whole records and a torn rest;
  `restart_represents` : a clean restart gives the history back.
-/

namespace Uddp
open Uddp.Lib Uddp.Wal

/-! ## What a mutation does -/

inductive Decision
  | hit (out : Outcome)
  | conflict
  | write (rec : Record)

namespace Call

/-- The record a mutation writes when nothing speaks against it. -/
def record : Call → Record
  | .put key value ttl idem now => putRecord key value (expiryOf ttl now) idem
  | .applyPut key value exp idem => putRecord key value exp idem
  | .delete key idem => deleteRecord key idem
  | .compareAndSet key value _ ttl idem now _ => putRecord key value (expiryOf ttl now) idem
  | .applyCompareAndSet key value _ exp idem _ => putRecord key value exp idem

/-- The expected version of a conditional write, and the clock reading that goes with it. -/
def condition : Call → Option (UInt64 × Time)
  | .compareAndSet _ _ expected _ _ _ now' => some (expected, now')
  | .applyCompareAndSet _ _ expected _ _ now => some (expected, now)
  | _ => none

end Call

/-- The condition of a conditional write holds. -/
def Tables.admits (t : Tables) (key : Bytes) : Option (UInt64 × Time) → Bool
  | none => true
  | some (expected, now) => t.currentVersion key now = expected

def Tables.decide (t : Tables) (c : Call) : Decision :=
  match t.dedupHit c.record.idempotencyKey with
  | some out => .hit out
  | none => if t.admits c.record.key c.condition then .write c.record else .conflict

/-- Append the record and replay it. -/
def Engine.write (e : Engine) (rec : Record) (io : AppendIO) : Except EngineError Outcome × Engine :=
  match e.log.append rec io with
  | (.error err, log) => (.error (.wal err), { e with log := log })
  | (.ok pos, log) => (.ok (outcomeAt pos), { replay e.toTables (stamp rec pos) with log := log })

theorem commit_put (e : Engine) (key value idem : Bytes) (exp : Int64) (io : AppendIO) :
    e.commit (putRecord key value exp idem) (fun pos index => index.insert key ⟨value, pos, expiryTime exp⟩) io =
      e.write (putRecord key value exp idem) io := by
  unfold Engine.commit Engine.write
  cases h : e.log.append (putRecord key value exp idem) io with
  | mk r log =>
      cases r with
      | error err => rfl
      | ok pos => rfl

theorem commit_delete (e : Engine) (key idem : Bytes) (io : AppendIO) :
    e.commit (deleteRecord key idem) (fun _ index => index.erase key) io = e.write (deleteRecord key idem) io := by
  unfold Engine.commit Engine.write
  cases h : e.log.append (deleteRecord key idem) io with
  | mk r log =>
      cases r with
      | error err => rfl
      | ok pos => rfl

/-- The engine after a decision. Only a write touches the log. -/
def Engine.enact (e : Engine) (io : AppendIO) : Decision → Except EngineError Outcome × Engine
  | .hit out => (.ok out, e)
  | .conflict => (.error .versionMismatch, e)
  | .write rec => e.write rec io

theorem Engine.applyPut_eq (e : Engine) (key value idem : Bytes) (exp : Int64) (io : AppendIO) :
    e.applyPut key value exp idem io = e.enact io (e.decide (.applyPut key value exp idem)) := by
  unfold Engine.applyPut Tables.decide
  cases h : e.dedupHit idem with
  | some out => simp only [Call.record, putRecord, h, Engine.enact]
  | none =>
      simp only [Call.record, Call.condition, putRecord, h, Tables.admits, if_true, Engine.enact]
      exact commit_put e key value idem exp io

theorem Engine.delete_eq (e : Engine) (key idem : Bytes) (io : AppendIO) :
    e.delete key idem io = e.enact io (e.decide (.delete key idem)) := by
  unfold Engine.delete Tables.decide
  cases h : e.dedupHit idem with
  | some out => simp only [Call.record, deleteRecord, h, Engine.enact]
  | none =>
      simp only [Call.record, Call.condition, deleteRecord, h, Tables.admits, if_true, Engine.enact]
      exact commit_delete e key idem io

theorem Engine.applyCompareAndSet_eq (e : Engine) (key value idem : Bytes) (expected : UInt64) (exp : Int64) (now : Time)
    (io : AppendIO) : e.applyCompareAndSet key value expected exp idem now io =
      e.enact io (e.decide (.applyCompareAndSet key value expected exp idem now)) := by
  unfold Engine.applyCompareAndSet Tables.decide
  cases h : e.dedupHit idem with
  | some out => simp only [Call.record, putRecord, h, Engine.enact]
  | none =>
      by_cases hv : e.currentVersion key now = expected
      · simp only [Call.record, Call.condition, putRecord, h, Tables.admits, hv, ne_eq, not_true_eq_false, if_false,
          decide_true, if_true, Engine.enact]
        exact commit_put e key value idem exp io
      · simp only [Call.record, Call.condition, putRecord, h, Tables.admits, hv, ne_eq, not_false_eq_true, if_true,
          decide_false, Bool.false_eq_true, if_false, Engine.enact]

/-- **The mutations.** Each makes its decision on the maps; only a write touches the log, and what it then does to
the maps is what `replay` does. -/
theorem Call.run_eq (e : Engine) (c : Call) (io : AppendIO) : c.run e io = e.enact io (e.decide c) := by
  cases c with
  | put key value ttl idem now => exact e.applyPut_eq key value idem (expiryOf ttl now) io
  | applyPut key value exp idem => exact e.applyPut_eq key value idem exp io
  | delete key idem => exact e.delete_eq key idem io
  | compareAndSet key value expected ttl idem now now' =>
      exact e.applyCompareAndSet_eq key value idem expected (expiryOf ttl now) now' io
  | applyCompareAndSet key value expected exp idem now =>
      exact e.applyCompareAndSet_eq key value idem expected exp now io

theorem Tables.decide_write {t : Tables} {c : Call} {rec : Record} (h : t.decide c = .write rec) : rec = c.record := by
  unfold Tables.decide at h
  split at h
  · cases h
  · split at h
    · injection h with h
      exact h.symm
    · cases h

theorem Tables.decide_write_new {t : Tables} {c : Call} {rec : Record} (h : t.decide c = .write rec) :
    t.dedupHit c.record.idempotencyKey = none ∧ t.admits c.record.key c.condition = true := by
  unfold Tables.decide at h
  split at h
  · cases h
  · next hnone =>
    split at h
    · next hadmits => exact ⟨hnone, hadmits⟩
    · cases h

theorem Tables.decide_hit {t : Tables} {c : Call} {out : Outcome} (h : t.decide c = .hit out) :
    t.dedupHit c.record.idempotencyKey = some out := by
  unfold Tables.decide at h
  split at h
  · next hit =>
    injection h with h
    rw [hit, h]
  · split at h <;> cases h

theorem Tables.dedupHit_flag {t : Tables} {idem : Bytes} {out : Outcome} (h : t.dedupHit idem = some out) :
    out.deduplicated = true := by
  unfold Tables.dedupHit at h
  split at h
  · obtain ⟨stored, -, rfl⟩ := Option.map_eq_some_iff.mp h
    rfl
  · cases h

/-! ## The abstract engine -/

/-- The maps of a history. -/
def tablesOf (rs : List Record) : Tables := rs.foldl replay Tables.empty

/-- The position of the next record. -/
def nextPosition (rs : List Record) : UInt64 := 1 + UInt64.ofNat rs.length

theorem nextPosition_snoc (rs : List Record) (r : Record) : nextPosition (rs ++ [r]) = nextPosition rs + 1 := by
  rw [nextPosition, nextPosition, List.length_append, List.length_singleton, UInt64.ofNat_add, UInt64.add_assoc]
  rfl

theorem nextPosition_snoc_ne (rs : List Record) (r : Record) : nextPosition (rs ++ [r]) ≠ nextPosition rs := by
  intro h
  have hnat := congrArg UInt64.toNat h
  have hone : (1 : UInt64).toNat = 1 := rfl
  rw [nextPosition_snoc, UInt64.toNat_add, hone] at hnat
  have := (nextPosition rs).toNat_lt
  omega

theorem tablesOf_append (rs ss : List Record) : tablesOf (rs ++ ss) = ss.foldl replay (tablesOf rs) := List.foldl_append

theorem tablesOf_snoc (rs : List Record) (r : Record) : tablesOf (rs ++ [r]) = replay (tablesOf rs) r := tablesOf_append rs [r]

/-- The answer to a mutation and the history after it. -/
def answer (rs : List Record) (c : Call) : Except EngineError Outcome × List Record :=
  match (tablesOf rs).decide c with
  | .hit out => (.ok out, rs)
  | .conflict => (.error .versionMismatch, rs)
  | .write rec => (.ok (outcomeAt (nextPosition rs)), rs ++ [stamp rec (nextPosition rs)])

/-- A success is the remembered outcome, or that of the call's own record at the next position. -/
theorem answer_ok {rs : List Record} {c : Call} {out : Outcome} (h : (answer rs c).1 = .ok out) :
    (tablesOf rs).decide c = .hit out ∧ (answer rs c).2 = rs ∨
      (tablesOf rs).decide c = .write c.record ∧ out = outcomeAt (nextPosition rs) ∧
        (answer rs c).2 = rs ++ [stamp c.record (nextPosition rs)] := by
  unfold answer at h ⊢
  cases hd : (tablesOf rs).decide c with
  | hit out' =>
      rw [hd] at h
      injection h with h
      rw [h]
      exact Or.inl ⟨rfl, rfl⟩
  | conflict =>
      rw [hd] at h
      cases h
  | write rec =>
      rw [hd] at h
      injection h with h
      rw [Tables.decide_write hd]
      exact Or.inr ⟨rfl, h.symm, rfl⟩

theorem answer_history (rs : List Record) (c : Call) : (answer rs c).2 = rs ∨
    (tablesOf rs).decide c = .write c.record ∧ (answer rs c).2 = rs ++ [stamp c.record (nextPosition rs)] := by
  unfold answer
  cases hd : (tablesOf rs).decide c with
  | hit out => exact Or.inl rfl
  | conflict => exact Or.inl rfl
  | write rec =>
      rw [Tables.decide_write hd]
      exact Or.inr ⟨rfl, rfl⟩

/-- The engine `e` has the history `rs`: its log holds it, durably, and its maps are those of `rs`. -/
structure Represents (e : Engine) (rs : List Record) : Prop where
  holds : Holds e.log rs
  tables : e.toTables = tablesOf rs
  durable : e.log.out.file.synced = e.log.out.file.data.length

/-- The engine after a mutation without faults. -/
def step (e : Engine) (c : Call) : Except EngineError Outcome × Engine := c.run e AppendIO.ok

theorem represents_fresh : Represents fresh [] := ⟨freshWAL_holds, rfl, rfl⟩

/-- A mutation of an engine whose log holds `rs`, durably or not: it changes nothing, or everything is durable after it. -/
theorem step_holds {e : Engine} {rs : List Record} (h : Holds e.log rs) (ht : e.toTables = tablesOf rs) (c : Call) :
    (step e c).1 = (answer rs c).1 ∧ Holds (step e c).2.log (answer rs c).2 ∧
      (step e c).2.toTables = tablesOf (answer rs c).2 ∧
      ((step e c).2 = e ∧ (answer rs c).2 = rs ∨
        (step e c).2.log.out.file.synced = (step e c).2.log.out.file.data.length) := by
  unfold step answer
  rw [Call.run_eq, ← ht]
  cases hd : e.decide c with
  | hit out => exact ⟨rfl, h, ht, Or.inl ⟨rfl, rfl⟩⟩
  | conflict => exact ⟨rfl, h, ht, Or.inl ⟨rfl, rfl⟩⟩
  | write rec =>
      obtain ⟨log, happ, hholds, hsync⟩ := append_ok h rec
      have hnext : e.log.next = nextPosition rs := h.next
      simp only [Engine.enact, Engine.write, happ]
      rw [hnext] at hholds ⊢
      exact ⟨rfl, hholds, by rw [tablesOf_snoc, ht], Or.inr hsync⟩

/-- **One mutation** of the engine is one of the abstract engine. -/
theorem step_represents {e : Engine} {rs : List Record} (h : Represents e rs) (c : Call) :
    (step e c).1 = (answer rs c).1 ∧ Represents (step e c).2 (answer rs c).2 := by
  obtain ⟨hout, hholds, htables, hsame⟩ := step_holds h.holds h.tables c
  refine ⟨hout, hholds, htables, ?_⟩
  rcases hsame with ⟨hsame, -⟩ | hsync
  · rw [hsame]
    exact h.durable
  · exact hsync

/-- **A run** of mutations without faults is a run of the abstract engine. -/
theorem run_represents {e : Engine} {rs : List Record} (h : Represents e rs) (cs : List Call) :
    (run step e cs).1 = (run answer rs cs).1 ∧ Represents (run step e cs).2 (run answer rs cs).2 :=
  run_simulates (P := fun _ => True) (R := Represents) (fun _ _ c _ h => step_represents h c) h (fun _ _ => trivial)

/-! ## Opening again -/

/-- The call's record fits its length field. -/
def Call.Fits (c : Call) : Prop := Wal.Fits c.record

instance (c : Call) : Decidable c.Fits := inferInstanceAs (Decidable (Wal.Fits _))

theorem answer_fits {rs : List Record} {c : Call} (hc : c.Fits) (h : ∀ r ∈ rs, Wal.Fits r) :
    ∀ r ∈ (answer rs c).2, Wal.Fits r := by
  rcases answer_history rs c with hsame | ⟨-, hnew⟩
  · rw [hsame]
    exact h
  · rw [hnew]
    exact fits_snoc h hc _

theorem run_answer_fits {rs : List Record} {cs : List Call} (hcs : ∀ c ∈ cs, c.Fits) (h : ∀ r ∈ rs, Wal.Fits r) :
    ∀ r ∈ (run answer rs cs).2, Wal.Fits r :=
  run_invariant (P := Call.Fits) (I := fun rs => ∀ r ∈ rs, Wal.Fits r) (fun _ _ hc h => answer_fits hc h) h hcs

/-- **`engine.Open`** on a file with whole records and a torn rest: the maps are those of the records. -/
theorem openEngine_log {rs : List Record} (hfit : ∀ r ∈ rs, Wal.Fits r) (hst : Stamped 1 rs) {t : Bytes}
    (ht : t = [] ∨ readRecord t = .torn) (f : File) (hf : f.data = logBytes rs ++ t) (hc : f.closed = false) :
    ∃ e, openEngine f = (.ok e, e.log.out.file) ∧ Holds e.log rs ∧ e.toTables = tablesOf rs ∧
      e.log.out.file.synced = min f.synced (logBytes rs).length := by
  obtain ⟨w, hopen, hw, hsync, -⟩ := openFile_log (fun t r _ => replayCallback_ok t r) hfit hst ht Tables.empty f hf hc
  refine ⟨{ tablesOf rs with log := w }, ?_, hw, rfl, hsync⟩
  unfold openEngine
  rw [hopen]
  rfl

theorem openEngine_newFile : openEngine newFile = (.ok fresh, fresh.log.out.file) := by
  unfold openEngine
  rw [openFile_newFile]
  rfl

/-- The file as a new process opens it. -/
def reopen (f : File) : File := { f with closed := false }

/-- `Close` and then `engine.Open` on the same file. -/
def Engine.restart (e : Engine) : Except OpenError Engine := (openEngine (reopen (e.log.close none none).2.out.file)).1

theorem close_holds {w : WAL} {rs : List Record} (h : Holds w rs) :
    (w.close none none).1 = none ∧ reopen (w.close none none).2.out.file = w.out.file := close_file h

theorem restart_represents {e : Engine} {rs : List Record} (h : Represents e rs) (hfit : ∀ r ∈ rs, Wal.Fits r) :
    ∃ e', e.restart = .ok e' ∧ Represents e' rs := by
  obtain ⟨e', hopen, hholds, htables, hsync⟩ := openEngine_log hfit h.holds.stamped (Or.inl rfl) e.log.out.file
    (by rw [h.holds.data, List.append_nil]) h.holds.opened
  refine ⟨e', ?_, hholds, htables, ?_⟩
  · unfold Engine.restart
    rw [(close_holds h.holds).2, hopen]
  · rw [hsync, h.durable, h.holds.data, hholds.data, Nat.min_self]

end Uddp

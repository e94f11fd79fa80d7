import Uddp.Engine.History

/-!
# The replicated state machine

`FSM` applies the entries of the raft log to the engine of its node.

* `Fsm.apply` : the dispatch of one log entry, with its result; `Fsm.restore` : `FSM.Restore`;
* `Effect` : what a log entry asks of the engine, whatever the engine holds; `Fsm.apply_eq`;
* `deliver` : the abstract machine on histories, where a wipe forgets the history and a load writes a new one;
* **`run_delivers`** : a run of the FSM without faults is a run of the abstract machine;
* `SameStream`, `SameReplica` : when two replicas hold the same.
-/

namespace Uddp
open Uddp.Lib Uddp.Wal

/-! ## Commands -/

abbrev Op := UInt8

def OpPut : Op := 1

def OpDelete : Op := 2

def OpCompareAndSet : Op := 3

def OpWipeAll : Op := 4

def OpLoadSnapshot : Op := 5

structure Command where
  op : Op
  key : Bytes
  value : Bytes
  expiresAtUnixNano : Int64
  expectedVersion : UInt64
  idempotencyKey : Bytes
  entries : List SnapshotEntry
  deriving DecidableEq, Repr

/-- An entry of the raft log; `data` is what `decodeCommand` makes of its bytes. -/
structure RaftLog where
  data : Except String Command
  term : UInt64

/-- The errors of `FSM.Apply`. -/
inductive ApplyError
  | decode (err : String)
  | engine (err : EngineError)
  | reset (err : String)
  | resetBeforeLoad (err : String)
  | loadKey (key : Bytes) (err : EngineError)
  | unknownOp (op : Op)
  deriving DecidableEq, Repr

/-- The text of an error; `quote` is the verb `%q`. -/
def ApplyError.text (quote : Bytes → String) : ApplyError → String
  | .decode err => "replication: decode command: " ++ err
  | .engine err => err.text
  | .reset err => err
  | .resetBeforeLoad err => "replication: reset before snapshot load: " ++ err
  | .loadKey key err => "replication: load snapshot key " ++ quote key ++ ": " ++ err.text
  | .unknownOp op => "replication: unknown op " ++ toString op.toNat

structure ApplyResult where
  outcome : Outcome
  err : Option ApplyError
  term : UInt64
  deriving DecidableEq, Repr

/-- The zero `Outcome`. -/
def noOutcome : Outcome := ⟨0, 0, false⟩

/-! ## `FSM.Apply` -/

/-- What the operating system does to the `Append`s of one command, in their order, and to its `Reset`. -/
structure FsmIO where
  append : Nat → AppendIO
  reset : ResetIO

def FsmIO.ok : FsmIO := ⟨fun _ => AppendIO.ok, ResetIO.ok⟩

/-- The loop over the entries of a snapshot, which stops at the first key that fails. -/
def putEntries (e : Engine) (io : Nat → AppendIO) : Nat → List SnapshotEntry → Option (Bytes × EngineError) × Engine
  | _, [] => (none, e)
  | i, ent :: entries =>
      match e.applyPut ent.key ent.value ent.expiresAtUnixNano [] (io i) with
      | (.error err, e') => (some (ent.key, err), e')
      | (.ok _, e') => putEntries e' io (i + 1) entries

namespace Fsm

def loadSnapshot (e : Engine) (io : FsmIO) (entries : List SnapshotEntry) : Option ApplyError × Engine :=
  match e.reset io.reset with
  | (some err, e') => (some (.resetBeforeLoad err), e')
  | (none, e') =>
      match putEntries e' io.append 0 entries with
      | (some (key, err), e'') => (some (.loadKey key err), e'')
      | (none, e'') => (none, e'')

/-- A mutation's outcome and error, as the pair the source returns. -/
def pairOf : Except EngineError Outcome → Outcome × Option ApplyError
  | .ok out => (out, none)
  | .error err => (noOutcome, some (.engine err))

def resultOf {σ : Type} (r : Except EngineError Outcome × σ) : (Outcome × Option ApplyError) × σ := (pairOf r.1, r.2)

/-- The switch of `Apply` over the operation; `now` is the reading of the clock that it makes, if any. -/
def dispatch (e : Engine) (now : Time) (io : FsmIO) (cmd : Command) : (Outcome × Option ApplyError) × Engine :=
  if cmd.op = OpPut then
    resultOf (e.applyPut cmd.key cmd.value cmd.expiresAtUnixNano cmd.idempotencyKey (io.append 0))
  else if cmd.op = OpDelete then resultOf (e.delete cmd.key cmd.idempotencyKey (io.append 0))
  else if cmd.op = OpCompareAndSet then
    resultOf (e.applyCompareAndSet cmd.key cmd.value cmd.expectedVersion cmd.expiresAtUnixNano cmd.idempotencyKey now
      (io.append 0))
  else if cmd.op = OpWipeAll then
    ((noOutcome, (e.reset io.reset).1.map .reset), (e.reset io.reset).2)
  else if cmd.op = OpLoadSnapshot then
    ((noOutcome, (loadSnapshot e io cmd.entries).1), (loadSnapshot e io cmd.entries).2)
  else ((noOutcome, some (.unknownOp cmd.op)), e)

def apply (e : Engine) (now : Time) (io : FsmIO) (log : RaftLog) : ApplyResult × Engine :=
  match log.data with
  | .error err => (⟨noOutcome, some (.decode err), log.term⟩, e)
  | .ok cmd =>
      let r := dispatch e now io cmd
      (⟨r.1.1, r.1.2, log.term⟩, r.2)

end Fsm

/-- The errors of `FSM.Restore`. -/
inductive RestoreError
  | decode (err : String)
  | reset (err : String)
  | restoreKey (key : Bytes) (err : EngineError)
  deriving DecidableEq, Repr

def RestoreError.text (quote : Bytes → String) : RestoreError → String
  | .decode err => "replication: decode snapshot: " ++ err
  | .reset err => "replication: reset engine before restore: " ++ err
  | .restoreKey key err => "replication: restore key " ++ quote key ++ ": " ++ err.text

/-- `FSM.Restore`; `decoded` is what gob makes of the snapshot. -/
def Fsm.restore (e : Engine) (io : FsmIO) (decoded : Except String (List SnapshotEntry)) : Option RestoreError × Engine :=
  match decoded with
  | .error err => (some (.decode err), e)
  | .ok entries =>
      match e.reset io.reset with
      | (some err, e') => (some (.reset err), e')
      | (none, e') =>
          match putEntries e' io.append 0 entries with
          | (some (key, err), e'') => (some (.restoreKey key err), e'')
          | (none, e'') => (none, e'')

/-! ## What a log entry asks for -/

inductive Effect
  | call (c : Call)
  | wipe
  | load (entries : List SnapshotEntry)
  | invalid (err : ApplyError)

/-- A log entry, and the reading of the clock when it is applied. -/
structure Delivery where
  log : RaftLog
  now : Time

def Command.effect (cmd : Command) (now : Time) : Effect :=
  if cmd.op = OpPut then .call (.applyPut cmd.key cmd.value cmd.expiresAtUnixNano cmd.idempotencyKey)
  else if cmd.op = OpDelete then .call (.delete cmd.key cmd.idempotencyKey)
  else if cmd.op = OpCompareAndSet then
    .call (.applyCompareAndSet cmd.key cmd.value cmd.expectedVersion cmd.expiresAtUnixNano cmd.idempotencyKey now)
  else if cmd.op = OpWipeAll then .wipe
  else if cmd.op = OpLoadSnapshot then .load cmd.entries
  else .invalid (.unknownOp cmd.op)

def Delivery.effect (d : Delivery) : Effect :=
  match d.log.data with
  | .error err => .invalid (.decode err)
  | .ok cmd => cmd.effect d.now

/-- The engine after an effect. -/
def Engine.perform (e : Engine) (io : FsmIO) : Effect → (Outcome × Option ApplyError) × Engine
  | .call c => Fsm.resultOf (c.run e (io.append 0))
  | .wipe => ((noOutcome, (e.reset io.reset).1.map .reset), (e.reset io.reset).2)
  | .load entries => ((noOutcome, (Fsm.loadSnapshot e io entries).1), (Fsm.loadSnapshot e io entries).2)
  | .invalid err => ((noOutcome, some err), e)

theorem Fsm.dispatch_eq (e : Engine) (now : Time) (io : FsmIO) (cmd : Command) :
    Fsm.dispatch e now io cmd = e.perform io (cmd.effect now) := by
  unfold Fsm.dispatch Command.effect
  split_ifs <;> rfl

/-- **The dispatch** of a log entry, by its effect. -/
theorem Fsm.apply_eq (e : Engine) (io : FsmIO) (d : Delivery) : Fsm.apply e d.now io d.log =
    (⟨(e.perform io d.effect).1.1, (e.perform io d.effect).1.2, d.log.term⟩, (e.perform io d.effect).2) := by
  unfold Fsm.apply Delivery.effect
  split
  · rfl
  · rw [Fsm.dispatch_eq]

/-! ## The abstract machine -/

/-- The mutation that brings back one entry of a snapshot. -/
def SnapshotEntry.call (ent : SnapshotEntry) : Call := .applyPut ent.key ent.value ent.expiresAtUnixNano []

/-- The history of an engine that has loaded a snapshot. -/
def loaded (entries : List SnapshotEntry) : List Record := (run answer [] (entries.map SnapshotEntry.call)).2

/-- The result of an effect and the history after it. -/
def answerEffect (rs : List Record) : Effect → (Outcome × Option ApplyError) × List Record
  | .call c => Fsm.resultOf (answer rs c)
  | .wipe => ((noOutcome, none), [])
  | .load entries => ((noOutcome, none), loaded entries)
  | .invalid err => ((noOutcome, some err), rs)

/-- The result of a log entry and the history after it. -/
def deliver (rs : List Record) (d : Delivery) : ApplyResult × List Record :=
  (⟨(answerEffect rs d.effect).1.1, (answerEffect rs d.effect).1.2, d.log.term⟩, (answerEffect rs d.effect).2)

/-- `FSM.Apply` without faults. -/
def Fsm.step (e : Engine) (d : Delivery) : ApplyResult × Engine := Fsm.apply e d.now FsmIO.ok d.log

theorem reset_holds {e : Engine} {rs : List Record} (h : Holds e.log rs) : e.reset ResetIO.ok = (none, fresh) := by
  have hclose := (close_holds h).1
  unfold Engine.reset ResetIO.ok
  generalize e.log.close none none = closed at hclose
  obtain ⟨err, log⟩ := closed
  subst hclose
  rfl

theorem reset_represents {e : Engine} {rs : List Record} (h : Represents e rs) : e.reset ResetIO.ok = (none, fresh) :=
  reset_holds h.holds

/-- An entry of a snapshot carries no idempotency key, so it is always written. -/
theorem answer_entry (rs : List Record) (ent : SnapshotEntry) : answer rs ent.call =
    (.ok (outcomeAt (nextPosition rs)), rs ++ [stamp ent.call.record (nextPosition rs)]) := rfl

theorem putEntries_represents {e : Engine} {rs : List Record} (h : Represents e rs) (i : Nat)
    (entries : List SnapshotEntry) : ∃ e', putEntries e (fun _ => AppendIO.ok) i entries = (none, e') ∧
      Represents e' (run answer rs (entries.map SnapshotEntry.call)).2 := by
  induction entries generalizing e rs i with
  | nil => exact ⟨e, rfl, h⟩
  | cons ent entries ih =>
      obtain ⟨hout, hnext⟩ := step_represents h ent.call
      rw [answer_entry] at hout
      obtain ⟨e', he', hlast⟩ := ih hnext (i + 1)
      refine ⟨e', ?_, hlast⟩
      rw [putEntries, ← he']
      have hput : e.applyPut ent.key ent.value ent.expiresAtUnixNano [] AppendIO.ok =
          (.ok (outcomeAt (nextPosition rs)), (step e ent.call).2) := Prod.ext hout rfl
      rw [hput]

theorem loadSnapshot_represents {e : Engine} {rs : List Record} (h : Represents e rs) (entries : List SnapshotEntry) :
    ∃ e', Fsm.loadSnapshot e FsmIO.ok entries = (none, e') ∧ Represents e' (loaded entries) := by
  obtain ⟨e', hput, he'⟩ := putEntries_represents represents_fresh 0 entries
  refine ⟨e', ?_, he'⟩
  unfold Fsm.loadSnapshot FsmIO.ok
  simp only [reset_represents h, hput]

theorem restore_represents {e : Engine} {rs : List Record} (h : Represents e rs) (entries : List SnapshotEntry) :
    ∃ e', Fsm.restore e FsmIO.ok (.ok entries) = (none, e') ∧ Represents e' (loaded entries) := by
  obtain ⟨e', hput, he'⟩ := putEntries_represents represents_fresh 0 entries
  refine ⟨e', ?_, he'⟩
  unfold Fsm.restore FsmIO.ok
  simp only [reset_represents h, hput]

theorem perform_represents {e : Engine} {rs : List Record} (h : Represents e rs) (eff : Effect) :
    (e.perform FsmIO.ok eff).1 = (answerEffect rs eff).1 ∧
      Represents (e.perform FsmIO.ok eff).2 (answerEffect rs eff).2 := by
  cases eff with
  | call c =>
      obtain ⟨hout, hnext⟩ := step_represents h c
      exact ⟨congrArg Fsm.pairOf hout, hnext⟩
  | wipe =>
      show (noOutcome, (e.reset ResetIO.ok).1.map ApplyError.reset) = _ ∧ Represents (e.reset ResetIO.ok).2 _
      rw [reset_represents h]
      exact ⟨rfl, represents_fresh⟩
  | load entries =>
      obtain ⟨e', hload, he'⟩ := loadSnapshot_represents h entries
      show (noOutcome, (Fsm.loadSnapshot e FsmIO.ok entries).1) = _ ∧
        Represents (Fsm.loadSnapshot e FsmIO.ok entries).2 _
      rw [hload]
      exact ⟨rfl, he'⟩
  | invalid err => exact ⟨rfl, h⟩

/-- **One log entry** of the FSM is one of the abstract machine. -/
theorem step_delivers {e : Engine} {rs : List Record} (h : Represents e rs) (d : Delivery) :
    (Fsm.step e d).1 = (deliver rs d).1 ∧ Represents (Fsm.step e d).2 (deliver rs d).2 := by
  obtain ⟨hout, hnext⟩ := perform_represents h d.effect
  unfold Fsm.step deliver
  rw [Fsm.apply_eq, hout]
  exact ⟨rfl, hnext⟩

/-- **A run** of the FSM is a run of the abstract machine. -/
theorem run_delivers {e : Engine} {rs : List Record} (h : Represents e rs) (ds : List Delivery) :
    (run Fsm.step e ds).1 = (run deliver rs ds).1 ∧ Represents (run Fsm.step e ds).2 (run deliver rs ds).2 :=
  run_simulates (P := fun _ => True) (R := Represents) (fun _ _ d _ h => step_delivers h d) h (fun _ _ => trivial)

/-! ## Two replicas -/

/-- The same data and the same change stream. -/
structure SameStream (e e' : Engine) : Prop where
  index : e.index = e'.index
  dedup : e.dedup = e'.dedup
  fetch : ∀ fromPos limit, e.fetch fromPos limit = e'.fetch fromPos limit

/-- The same data, down to the next position and the bytes of the log. -/
structure SameReplica (e e' : Engine) : Prop extends SameStream e e' where
  next : e.log.next = e'.log.next
  file : e.log.out.file.data = e'.log.out.file.data

theorem sameReplica_of_represents {e e' : Engine} {rs : List Record} (h : Represents e rs) (h' : Represents e' rs) :
    SameReplica e e' := by
  have htables : e.toTables = e'.toTables := h.tables.trans h'.tables.symm
  have hfile : e.log.out.file.data = e'.log.out.file.data := h.holds.data.trans h'.holds.data.symm
  refine { index := congrArg Tables.index htables, dedup := congrArg Tables.dedup htables, fetch := ?_,
           next := h.holds.next.trans h'.holds.next.symm, file := hfile }
  intro fromPos limit
  unfold Engine.fetch WAL.readRange
  rw [h.holds.byteOffsets, h'.holds.byteOffsets, h.holds.opened, h'.holds.opened, hfile]

end Uddp

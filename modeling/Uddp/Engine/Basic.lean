import Mathlib.Data.Finmap
import Uddp.Wal.Cut

/-!
# The engine

The key-value state machine over one log: its maps, its mutations and its change stream.

* `replay` : what `engine.Open` does with one record; `openEngine` : `engine.Open` on a file;
* `applyPut`, `delete`, `applyCompareAndSet` : the mutations, each under the engine's lock;
* `Call` : a mutation with its arguments and the clock readings it makes; `Call.run` : its execution;
* `fetch`, `snapshot`, `reset` : the change stream, the snapshot of the live keys and the wipe.
-/

namespace Uddp
open Uddp.Lib Uddp.Wal

/-! ## Time -/

/-- Nanoseconds since the Unix epoch. -/
abbrev Time := Int

/-- Go's zero `time.Time`, the first of January of the year 1. -/
def zeroTime : Time := -62135596800 * 10 ^ 9

/-- `time.Second` as a `time.Duration`. -/
def second : Int64 := 1000000000

/-- `now.Add(time.Duration(ttlSeconds) * time.Second).UnixNano()`, whose product and result wrap. -/
def expiryOf (ttlSeconds : Int64) (now : Time) : Int64 :=
  if ttlSeconds > 0 then Int64.ofInt (now + (ttlSeconds * second).toInt) else 0

/-- The `expiresAt` of an entry: the zero time stands for no expiry. -/
def expiryTime (expiresAtUnixNano : Int64) : Time :=
  if expiresAtUnixNano > 0 then expiresAtUnixNano.toInt else zeroTime

/-! ## State -/

structure Entry where
  value : Bytes
  version : UInt64
  expiresAt : Time
  deriving DecidableEq, Repr

structure Outcome where
  commitPosition : UInt64
  version : UInt64
  deduplicated : Bool
  deriving DecidableEq, Repr

inductive EngineError
  | versionMismatch
  | wal (e : AppendError)
  deriving DecidableEq, Repr

def EngineError.text : EngineError → String
  | .versionMismatch => "engine: version mismatch"
  | .wal e => e.text

abbrev Index := Finmap (fun _ : Bytes => Entry)

abbrev Dedup := Finmap (fun _ : Bytes => Outcome)

/-- The maps that live in memory only. -/
structure Tables where
  index : Index
  dedup : Dedup

@[ext] theorem Tables.ext {s t : Tables} (hi : s.index = t.index) (hd : s.dedup = t.dedup) : s = t := by
  cases s
  cases t
  cases hi
  cases hd
  rfl

def Tables.empty : Tables := ⟨∅, ∅⟩

structure Engine extends Tables where
  log : WAL

def expired (ent : Entry) (now : Time) : Bool := ent.expiresAt ≠ zeroTime && ent.expiresAt < now

/-! ## `engine.Open` -/

/-- The outcome a commit at `position` is remembered with. -/
def outcomeAt (position : UInt64) : Outcome := ⟨position, position, false⟩

def replay (t : Tables) (rec : Record) : Tables :=
  { index :=
      if rec.kind = KindPut then
        t.index.insert rec.key ⟨rec.value, rec.commitPosition, expiryTime rec.expiresAtUnixNano⟩
      else if rec.kind = KindDelete then t.index.erase rec.key
      else t.index
    dedup :=
      if rec.idempotencyKey ≠ [] then t.dedup.insert rec.idempotencyKey (outcomeAt rec.commitPosition) else t.dedup }

/-- The callback that `engine.Open` gives to `wal.Open`: it never fails. -/
def replayCallback (t : Tables) (rec : Record) : Except String Tables := .ok (replay t rec)

theorem replayCallback_ok (t : Tables) (rec : Record) : replayCallback t rec = .ok (replay t rec) := rfl

/-- `engine.Open` on the contents of the file, with the file it leaves behind. -/
def openEngine (f : File) : Except OpenError Engine × File :=
  match openFile replayCallback Tables.empty f with
  | (.error e, f) => (.error e, f)
  | (.ok (t, log), f) => (.ok { t with log := log }, f)

/-- The engine that `engine.Open` makes of a new file. -/
def fresh : Engine := { Tables.empty with log := freshWAL }

/-! ## Reads -/

/-- `Get`; `now` is its reading of the clock. -/
def Tables.get (t : Tables) (key : Bytes) (now : Time) : Option (Bytes × UInt64) :=
  match t.index.lookup key with
  | none => none
  | some ent => if expired ent now then none else some (ent.value, ent.version)

/-- The version a conditional write compares with: zero for a key that is absent or expired. -/
def Tables.currentVersion (t : Tables) (key : Bytes) (now : Time) : UInt64 :=
  match t.index.lookup key with
  | none => 0
  | some ent => if expired ent now then 0 else ent.version

/-- The remembered outcome of an idempotency key. -/
def Tables.dedupHit (t : Tables) (idempotencyKey : Bytes) : Option Outcome :=
  if idempotencyKey ≠ [] then (t.dedup.lookup idempotencyKey).map (fun out => { out with deduplicated := true })
  else none

/-! ## Mutations -/

def putRecord (key value : Bytes) (expiresAtUnixNano : Int64) (idempotencyKey : Bytes) : Record :=
  { commitPosition := 0, kind := KindPut, key, value, expiresAtUnixNano, idempotencyKey }

def deleteRecord (key idempotencyKey : Bytes) : Record :=
  { commitPosition := 0, kind := KindDelete, key, value := [], expiresAtUnixNano := 0, idempotencyKey }

namespace Engine

/-- What every mutation does from its `Append` on; `set` is its change of the index. -/
def commit (e : Engine) (rec : Record) (set : UInt64 → Index → Index) (io : AppendIO) : Except EngineError Outcome × Engine :=
  match e.log.append rec io with
  | (.error err, log) => (.error (.wal err), { e with log := log })
  | (.ok pos, log) =>
      let out := outcomeAt pos
      (.ok out, { index := set pos e.index
                  dedup := if rec.idempotencyKey ≠ [] then e.dedup.insert rec.idempotencyKey out else e.dedup
                  log := log })

def applyPut (e : Engine) (key value : Bytes) (expiresAtUnixNano : Int64) (idempotencyKey : Bytes) (io : AppendIO) :
    Except EngineError Outcome × Engine :=
  match e.dedupHit idempotencyKey with
  | some out => (.ok out, e)
  | none =>
      e.commit (putRecord key value expiresAtUnixNano idempotencyKey)
        (fun pos index => index.insert key ⟨value, pos, expiryTime expiresAtUnixNano⟩) io

/-- `Put` reads the clock only for a positive `ttlSeconds`. -/
def put (e : Engine) (key value : Bytes) (ttlSeconds : Int64) (idempotencyKey : Bytes) (now : Time) (io : AppendIO) :
    Except EngineError Outcome × Engine :=
  e.applyPut key value (expiryOf ttlSeconds now) idempotencyKey io

def delete (e : Engine) (key idempotencyKey : Bytes) (io : AppendIO) : Except EngineError Outcome × Engine :=
  match e.dedupHit idempotencyKey with
  | some out => (.ok out, e)
  | none => e.commit (deleteRecord key idempotencyKey) (fun _ index => index.erase key) io

/-- `now` is the reading of the clock that decides whether the current entry has expired. -/
def applyCompareAndSet (e : Engine) (key value : Bytes) (expectedVersion : UInt64) (expiresAtUnixNano : Int64)
    (idempotencyKey : Bytes) (now : Time) (io : AppendIO) : Except EngineError Outcome × Engine :=
  match e.dedupHit idempotencyKey with
  | some out => (.ok out, e)
  | none =>
      if e.currentVersion key now ≠ expectedVersion then (.error .versionMismatch, e)
      else
        e.commit (putRecord key value expiresAtUnixNano idempotencyKey)
          (fun pos index => index.insert key ⟨value, pos, expiryTime expiresAtUnixNano⟩) io

/-- `CompareAndSet` reads the clock twice, for its own expiry and for that of the current entry. -/
def compareAndSet (e : Engine) (key value : Bytes) (expectedVersion : UInt64) (ttlSeconds : Int64)
    (idempotencyKey : Bytes) (now now' : Time) (io : AppendIO) : Except EngineError Outcome × Engine :=
  e.applyCompareAndSet key value expectedVersion (expiryOf ttlSeconds now) idempotencyKey now' io

end Engine

/-- A mutation, with its arguments and its readings of the clock. -/
inductive Call
  | put (key value : Bytes) (ttlSeconds : Int64) (idempotencyKey : Bytes) (now : Time)
  | applyPut (key value : Bytes) (expiresAtUnixNano : Int64) (idempotencyKey : Bytes)
  | delete (key idempotencyKey : Bytes)
  | compareAndSet (key value : Bytes) (expectedVersion : UInt64) (ttlSeconds : Int64) (idempotencyKey : Bytes)
      (now now' : Time)
  | applyCompareAndSet (key value : Bytes) (expectedVersion : UInt64) (expiresAtUnixNano : Int64)
      (idempotencyKey : Bytes) (now : Time)
  deriving DecidableEq, Repr

def Call.run (e : Engine) (io : AppendIO) : Call → Except EngineError Outcome × Engine
  | .put key value ttl idem now => e.put key value ttl idem now io
  | .applyPut key value exp idem => e.applyPut key value exp idem io
  | .delete key idem => e.delete key idem io
  | .compareAndSet key value expected ttl idem now now' => e.compareAndSet key value expected ttl idem now now' io
  | .applyCompareAndSet key value expected exp idem now => e.applyCompareAndSet key value expected exp idem now io

/-! ## The change stream, snapshots and the wipe -/

structure ChangeRecord where
  offset : UInt64
  kind : RecordKind
  key : Bytes
  value : Bytes
  deriving DecidableEq, Repr

def changeOf (rec : Record) : ChangeRecord := ⟨rec.commitPosition, rec.kind, rec.key, rec.value⟩

/-- `Fetch(from, limit)`; an error comes without records. -/
def Engine.fetch (e : Engine) (fromPos : UInt64) (limit : Int) : Except RangeError (List ChangeRecord) :=
  match e.log.readRange fromPos limit with
  | (_, some err) => .error err
  | (recs, none) => .ok (recs.map changeOf)

structure SnapshotEntry where
  key : Bytes
  value : Bytes
  expiresAtUnixNano : Int64
  deriving DecidableEq, Repr

/-- The loop of `Snapshot` over the entries in the order in which the map gives them; `now key` is the reading
of the clock at `key`. -/
def snapshotOf (now : Bytes → Time) (entries : List (Σ _ : Bytes, Entry)) : List SnapshotEntry :=
  entries.filterMap fun ⟨key, ent⟩ =>
    if expired ent (now key) then none
    else some ⟨key, ent.value, if ent.expiresAt ≠ zeroTime then Int64.ofInt ent.expiresAt else 0⟩

/-- What `Snapshot` can return: Go leaves the order of a map open. -/
def Tables.Snapshot (t : Tables) (now : Bytes → Time) (out : List SnapshotEntry) : Prop :=
  ∃ entries : List (Σ _ : Bytes, Entry), (entries : Multiset (Σ _ : Bytes, Entry)) = t.index.entries ∧
    out = snapshotOf now entries

/-- What the operating system does to a `Reset`: to the flush and the close of the old log, to its removal and
to the creation of the new one. -/
structure ResetIO where
  flush : WriteFault
  close : Option String
  remove : Option String
  create : Option String
  deriving DecidableEq, Repr

def ResetIO.ok : ResetIO := ⟨none, none, none, none⟩

/-- `Reset`: the maps are emptied last, once the new log is open. -/
def Engine.reset (e : Engine) (io : ResetIO) : Option String × Engine :=
  match e.log.close io.flush io.close with
  | (some err, log) => (some err, { e with log := log })
  | (none, log) =>
      match io.remove, io.create with
      | some err, _ => (some err, { e with log := log })
      | none, some err => (some err, { e with log := log })
      | none, none => (none, fresh)

end Uddp

import Uddp.Replication.Fsm

/-!
# The native and the admin API

Each mutating request is checked and then handed on: to raft on a replicated node, to the engine on any other.

* `Handling` : what a handler does with its request;
* `StateServer.put`, `.delete`, `.compareAndSet`, `AdminServer.restoreBackup`, `.deleteNamespace` : the handlers up to
  that point;
* **`replicated_proposes`** : on a replicated node no handler touches the engine.
-/

namespace Uddp
open Uddp.Lib Uddp.Wal

structure NamespaceSpec where
  id : String
  profile : String
  deriving DecidableEq, Repr

inductive Code
  | invalidArgument
  | notFound
  | failedPrecondition
  | internal
  | unavailable
  deriving DecidableEq, Repr

structure Status where
  code : Code
  message : String
  deriving DecidableEq, Repr

/-- What a handler does with its request. -/
inductive Handling
  | refuse (s : Status)
  | propose (cmd : Command)
  | call (c : Call)
  | reset
  | load (entries : List SnapshotEntry)

/-- The request does not reach the engine of the node directly. -/
def Handling.Indirect : Handling → Prop
  | .refuse _ | .propose _ => True
  | .call _ | .reset | .load _ => False

structure PutRequest where
  namespaceId : String
  key : Bytes
  value : Bytes
  ttlSeconds : Int64
  idempotencyKey : Bytes
  deriving DecidableEq, Repr

structure DeleteRequest where
  namespaceId : String
  key : Bytes
  idempotencyKey : Bytes
  deriving DecidableEq, Repr

structure CompareAndSetRequest where
  namespaceId : String
  key : Bytes
  value : Bytes
  expectedVersion : UInt64
  ttlSeconds : Int64
  idempotencyKey : Bytes
  deriving DecidableEq, Repr

/-- `resolveExpiry` at the time `now`. -/
def resolveExpiry (ttlSeconds : Int64) (now : Time) : Int64 :=
  if ttlSeconds ≤ 0 then 0 else Int64.ofInt (now + (ttlSeconds * second).toInt)

section Handlers
-- `quote` is the verb `%q`, `spec` the namespace of the node
variable (quote : String → String) (spec : NamespaceSpec) (replicated : Bool)

def checkNamespace (namespaceId : String) : Option Status :=
  if namespaceId ≠ spec.id then
    some ⟨.notFound, "catalog: namespace not found: " ++ quote namespaceId ++ " (this node serves " ++ quote spec.id ++ ")"⟩
  else none

/-- The checks that every state request goes through first. -/
def checkRequest (namespaceId : String) (key : Bytes) : Option Status :=
  match checkNamespace quote spec namespaceId with
  | some s => some s
  | none => if key = [] then some ⟨.invalidArgument, "key must not be empty"⟩ else none

/-- A state mutation: refused, proposed or, without replication, applied. -/
def mutation (namespaceId : String) (key : Bytes) (cmd : Command) (c : Call) : Handling :=
  match checkRequest quote spec namespaceId key with
  | some s => .refuse s
  | none => if replicated then .propose cmd else .call c

namespace StateServer

def put (req : PutRequest) (now : Time) : Handling :=
  mutation quote spec replicated req.namespaceId req.key
    { op := OpPut, key := req.key, value := req.value, expiresAtUnixNano := resolveExpiry req.ttlSeconds now,
      expectedVersion := 0, idempotencyKey := req.idempotencyKey, entries := [] }
    (.put req.key req.value req.ttlSeconds req.idempotencyKey now)

def delete (req : DeleteRequest) : Handling :=
  mutation quote spec replicated req.namespaceId req.key
    { op := OpDelete, key := req.key, value := [], expiresAtUnixNano := 0, expectedVersion := 0,
      idempotencyKey := req.idempotencyKey, entries := [] }
    (.delete req.key req.idempotencyKey)

/-- `now'` is the second reading of the clock, which only the engine of a node without replication makes here. -/
def compareAndSet (req : CompareAndSetRequest) (now now' : Time) : Handling :=
  mutation quote spec replicated req.namespaceId req.key
    { op := OpCompareAndSet, key := req.key, value := req.value, expiresAtUnixNano := resolveExpiry req.ttlSeconds now,
      expectedVersion := req.expectedVersion, idempotencyKey := req.idempotencyKey, entries := [] }
    (.compareAndSet req.key req.value req.expectedVersion req.ttlSeconds req.idempotencyKey now now')

end StateServer

namespace AdminServer

/-- `backup` is what `backup.ReadFile` makes of the file. -/
def restoreBackup (path : String) (backup : Except String (List SnapshotEntry)) : Handling :=
  if path = "" then .refuse ⟨.invalidArgument, "path is required"⟩
  else
    match backup with
    | .error err => .refuse ⟨.invalidArgument, "restore_backup: " ++ err⟩
    | .ok entries =>
        if replicated then
          .propose { op := OpLoadSnapshot, key := [], value := [], expiresAtUnixNano := 0, expectedVersion := 0,
                     idempotencyKey := [], entries := entries }
        else .load entries

def deleteNamespace (confirmNamespaceId : String) : Handling :=
  if confirmNamespaceId ≠ spec.id then
    .refuse ⟨.invalidArgument, "confirm_namespace_id must equal " ++ quote spec.id⟩
  else if replicated then
    .propose { op := OpWipeAll, key := [], value := [], expiresAtUnixNano := 0, expectedVersion := 0,
               idempotencyKey := [], entries := [] }
  else .reset

end AdminServer

end Handlers

/-- A mutating request of the native or of the admin API, with the clock readings and the file it meets. -/
inductive Request
  | put (req : PutRequest) (now : Time)
  | delete (req : DeleteRequest)
  | compareAndSet (req : CompareAndSetRequest) (now now' : Time)
  | restoreBackup (path : String) (backup : Except String (List SnapshotEntry))
  | deleteNamespace (confirmNamespaceId : String)

def Request.handle (quote : String → String) (spec : NamespaceSpec) (replicated : Bool) : Request → Handling
  | .put req now => StateServer.put quote spec replicated req now
  | .delete req => StateServer.delete quote spec replicated req
  | .compareAndSet req now now' => StateServer.compareAndSet quote spec replicated req now now'
  | .restoreBackup path backup => AdminServer.restoreBackup replicated path backup
  | .deleteNamespace confirm => AdminServer.deleteNamespace quote spec replicated confirm

theorem mutation_indirect (quote : String → String) (spec : NamespaceSpec) (namespaceId : String) (key : Bytes)
    (cmd : Command) (c : Call) : (mutation quote spec true namespaceId key cmd c).Indirect := by
  unfold mutation
  split
  · trivial
  · trivial

/-- **On a replicated node** every request of the two APIs is refused or proposed. -/
theorem replicated_proposes (quote : String → String) (spec : NamespaceSpec) (req : Request) :
    (req.handle quote spec true).Indirect := by
  cases req with
  | put req now => exact mutation_indirect ..
  | delete req => exact mutation_indirect ..
  | compareAndSet req now now' => exact mutation_indirect ..
  | restoreBackup path backup =>
      show (AdminServer.restoreBackup true path backup).Indirect
      unfold AdminServer.restoreBackup
      split
      · trivial
      · split <;> trivial
  | deleteNamespace confirm =>
      show (AdminServer.deleteNamespace quote spec true confirm).Indirect
      unfold AdminServer.deleteNamespace
      split <;> trivial

end Uddp

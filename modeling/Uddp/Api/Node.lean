import Uddp.Api.Gateway
import Uddp.Api.Stream
import Uddp.Backup.RecoveryPoint
import Uddp.Replication.Sessions

/-!
# A node without replication

All the RPCs of a node that is not replicated, from the interceptors to the engine, the offset store, the gauge and the files
of the backups. A handler is a task that makes one call at a time, and other handlers come between its calls.

* `NodeRequest`, `NodeRequest.fullMethod` : the RPCs; `NodeState` : what the handlers share; `NodeEnv` : what a call meets;
* `NodeTask`, `NodeTask.step` : the handlers; `nodeHandlers` : behind the interceptors;
* **`unauthenticated_no_trace`** : RPCs without the token change nothing and learn nothing.
-/

namespace Uddp
open Uddp.Lib Uddp.Wal

/-! ## Requests and answers -/

/-- The unary RPCs of the server. -/
inductive NodeRequest
  | get (req : GetRequest)
  | put (req : PutRequest)
  | delete (req : DeleteRequest)
  | compareAndSet (req : CompareAndSetRequest)
  | fetch (req : FetchRequest)
  | commitOffset (req : CommitOffsetRequest)
  | fetchOffset (req : FetchOffsetRequest)
  | addNode (id raftAddr : String)
  | removeNode (id : String)
  | listNodes
  | createBackup (path : String)
  | restoreBackup (path : String)
  | exportNamespace
  | deleteNamespace (confirmNamespaceId : String)
  | getUsage
  | check
  deriving DecidableEq, Repr

def NodeRequest.fullMethod : NodeRequest → String
  | .get _ => "/uddp.native.v1.StateService/Get"
  | .put _ => "/uddp.native.v1.StateService/Put"
  | .delete _ => "/uddp.native.v1.StateService/Delete"
  | .compareAndSet _ => "/uddp.native.v1.StateService/CompareAndSet"
  | .fetch _ => "/uddp.native.v1.StreamService/Fetch"
  | .commitOffset _ => "/uddp.native.v1.StreamService/CommitOffset"
  | .fetchOffset _ => "/uddp.native.v1.StreamService/FetchOffset"
  | .addNode _ _ => "/uddp.admin.v1.AdminService/AddNode"
  | .removeNode _ => "/uddp.admin.v1.AdminService/RemoveNode"
  | .listNodes => "/uddp.admin.v1.AdminService/ListNodes"
  | .createBackup _ => "/uddp.admin.v1.AdminService/CreateBackup"
  | .restoreBackup _ => "/uddp.admin.v1.AdminService/RestoreBackup"
  | .exportNamespace => "/uddp.admin.v1.AdminService/ExportNamespace"
  | .deleteNamespace _ => "/uddp.admin.v1.AdminService/DeleteNamespace"
  | .getUsage => "/uddp.admin.v1.AdminService/GetUsage"
  | .check => "/grpc.health.v1.Health/Check"

structure GetUsageResponse where
  namespaceId : String
  keyCount : Int64
  approxBytes : Int64
  deriving DecidableEq, Repr

inductive NodeAnswer
  | value (resp : GetResponse)
  | mutation (resp : MutationResponse)
  | page (resp : FetchResponse)
  | committed (resp : CommitOffsetResponse)
  | offset (resp : FetchOffsetResponse)
  | backup (info : BackupInfo)
  | exported (entries : List SnapshotEntry)
  | deleted (entriesDeleted : Int32)
  | usage (resp : GetUsageResponse)
  | serving
  deriving DecidableEq, Repr

def errNotReplicated : Status := ⟨.failedPrecondition, "this node is not replicated; there is no cluster to administer"⟩

/-! ## The node -/

structure NodeState where
  engine : Engine
  offsets : Streaming.OffsetStore
  metrics : Metrics
  /-- The files that backups are written to and read from. -/
  files : String → Option Bytes
  /-- What the process has encoded before. -/
  process : Backup.Process

/-- What a call meets: the clock, the order in which the map of the engine is walked, and the operating system. -/
structure NodeEnv where
  now : Nat → Time
  nowAt : Bytes → Time
  listed : List (Σ _ : Bytes, Entry)
  append : AppendIO
  reset : ResetIO
  openFault : Option String
  write : Backup.WriteFileIO
  /-- What is left of a file whose writing fails. -/
  left : Bytes

/-- What the node takes from the libraries: the verb `%q`, `encoding/gob`, `sha256.Sum256` and `Format(time.RFC3339)`. -/
structure Packages where
  quote : String → String
  quoteBytes : Bytes → String
  gob : Backup.Gob
  sha256 : Bytes → Bytes
  rfc3339 : Time → String

/-- A handler on its way. -/
inductive NodeTask
  | request (req : NodeRequest)
  /-- A mutation that the engine has done. -/
  | respond (out : Outcome)
  /-- `CreateBackup` behind `Snapshot`. -/
  | position (path : String) (entries : List SnapshotEntry)
  /-- `CreateBackup` behind `LastCommitPosition`. -/
  | write (path : String) (entries : List SnapshotEntry) (recoveryPoint : UInt64)
  /-- `RestoreBackup` behind `ReadFile`. -/
  | reset (m : Backup.Meta) (entries : List SnapshotEntry)
  /-- `RestoreBackup` in its loop. -/
  | load (m : Backup.Meta) (entries : List SnapshotEntry)
  /-- `DeleteNamespace` behind `Snapshot`. -/
  | wipe (before : Nat)

/-- Where a call leaves its handler: before its next call, or at its end. -/
abbrev NodeStep := Option ((NodeTask ⊕ Except Status NodeAnswer) × NodeState)

section Handlers
variable (P : Packages) (spec : NamespaceSpec) (s : NodeState) (c : NodeEnv)

def NodeState.refuse (status : Status) : NodeStep := some (.inr (.error status), s)

def NodeState.answer (a : NodeAnswer) : NodeStep := some (.inr (.ok a), s)

def NodeState.continue (t : NodeTask) : NodeStep := some (.inl t, s)

/-- `Put`, `Delete` and `CompareAndSet` up to the response. -/
def NodeState.mutate (m : Mutation) : NodeStep :=
  match checkRequest P.quote spec m.namespaceId m.key with
  | some status => s.refuse status
  | none =>
      match m.call.run s.engine c.append with
      | (.error err, e) => ({ s with engine := e } : NodeState).refuse (m.status err)
      | (.ok out, e) => ({ s with engine := e } : NodeState).continue (.respond out)

/-- The end of a stream handler; a panic ends the process. -/
def NodeState.reply {α : Type} (f : α → NodeAnswer) : Reply α → NodeStep
  | .ok resp => s.answer (f resp)
  | .status status => s.refuse status
  | .panic => none

/-- `Snapshot`, in the order in which the map is walked. -/
def NodeState.snapshot (k : List SnapshotEntry → NodeStep) : NodeStep :=
  if (c.listed : Multiset (Σ _ : Bytes, Entry)) = s.engine.index.entries then k (snapshotOf c.nowAt c.listed) else none

/-- The error of `os.OpenFile` with `O_EXCL`. -/
def NodeState.createFault (path : String) : Option String :=
  if (s.files path).isSome then some ("open " ++ path ++ ": file exists") else c.write.create

/-- `CreateBackup` from `WriteFile` on. A file that was created stays, whatever happens to it then. -/
def NodeState.writeBackup (path : String) (entries : List SnapshotEntry) (recoveryPoint : UInt64) : NodeStep :=
  let io : Backup.WriteFileIO := { c.write with create := s.createFault c path }
  match AdminServer.createBackup P.gob P.sha256 P.rfc3339 spec s.process path entries recoveryPoint (c.now 0) io with
  | (.ok (info, bs), p) =>
      ({ s with process := p, files := Function.update s.files path (some bs) } : NodeState).answer (.backup info)
  | (.error status, p) =>
      match io.create with
      | some _ => ({ s with process := p } : NodeState).refuse status
      | none =>
          ({ s with process := p, files := Function.update s.files path (some c.left) } : NodeState).refuse status

/-- `ReadFile`. -/
def NodeState.readBackup (path : String) : Except String (Backup.Meta × List SnapshotEntry) × Backup.Process :=
  match c.openFault with
  | some err => (.error ("backup: open " ++ path ++ ": " ++ err), s.process)
  | none =>
      match s.files path with
      | none => (.error ("backup: open " ++ path ++ ": open " ++ path ++ ": no such file or directory"), s.process)
      | some bs =>
          match Backup.read P.gob P.sha256 s.process bs with
          | (.error err, p) => (.error err.text, p)
          | (.ok found, p) => (.ok found, p)

/-- `RestoreBackup` up to the `Reset`. -/
def NodeState.restoreBackup (path : String) : NodeStep :=
  if path = "" then s.refuse ⟨.invalidArgument, "path is required"⟩
  else
    match s.readBackup P c path with
    | (.error err, p) => ({ s with process := p } : NodeState).refuse ⟨.invalidArgument, "restore_backup: " ++ err⟩
    | (.ok (m, entries), p) => ({ s with process := p } : NodeState).continue (.reset m entries)

/-- A `Reset`, and what its handler does then. -/
def NodeState.resetEngine (errorText : String) (k : NodeState → NodeStep) : NodeStep :=
  match s.engine.reset c.reset with
  | (some err, e) => ({ s with engine := e } : NodeState).refuse ⟨.internal, errorText ++ err⟩
  | (none, e) => k { s with engine := e }

def usageOf (entries : List SnapshotEntry) : GetUsageResponse :=
  ⟨spec.id, Int64.ofNat entries.length,
    entries.foldl (fun n ent => n + Int64.ofNat (ent.key.length + ent.value.length)) 0⟩

/-- A handler from its start to its first call. -/
def NodeRequest.step : NodeRequest → NodeStep
  | .get req =>
      match StateServer.get P.quote spec s.engine req (c.now 0) with
      | .error status => s.refuse status
      | .ok resp => s.answer (.value resp)
  | .put req => s.mutate P spec c (.put req (c.now 0))
  | .delete req => s.mutate P spec c (.delete req)
  | .compareAndSet req => s.mutate P spec c (.compareAndSet req (c.now 0) (c.now 1))
  | .fetch req => s.reply .page (StreamServer.fetch P.quote spec s.engine req)
  | .commitOffset req =>
      let r := StreamServer.commitOffset P.quote spec s.offsets req c.append
      ({ s with offsets := r.2 } : NodeState).reply .committed r.1
  | .fetchOffset req => s.reply .offset (StreamServer.fetchOffset P.quote spec s.offsets req)
  | .addNode _ _ | .removeNode _ | .listNodes => s.refuse errNotReplicated
  | .createBackup path =>
      if path = "" then s.refuse ⟨.invalidArgument, "path is required"⟩
      else s.snapshot c fun entries => s.continue (.position path entries)
  | .restoreBackup path => s.restoreBackup P c path
  | .exportNamespace => s.snapshot c fun entries => s.answer (.exported entries)
  | .deleteNamespace confirm =>
      if confirm ≠ spec.id then s.refuse ⟨.invalidArgument, "confirm_namespace_id must equal " ++ P.quote spec.id⟩
      else s.snapshot c fun entries => s.continue (.wipe entries.length)
  | .getUsage => s.snapshot c fun entries => s.answer (.usage (usageOf spec entries))
  | .check => s.answer .serving

/-- The next call of a handler. -/
def NodeTask.step : NodeTask → NodeStep
  | .request req => req.step P spec s c
  | .respond out =>
      let r := (⟨s.engine, spec, some s.metrics, false⟩ : StateServer).response out 0
      ({ s with metrics := s.metrics.setCommitPosition spec.id out.commitPosition } : NodeState).answer (.mutation r.1)
  | .position path entries => s.continue (.write path entries s.engine.log.lastCommitPosition)
  | .write path entries recoveryPoint => s.writeBackup P spec c path entries recoveryPoint
  | .reset m entries => s.resetEngine c "restore_backup: reset: " fun s => s.continue (.load m entries)
  | .load m [] => s.answer (.backup (backupInfo P.rfc3339 m))
  | .load m (ent :: entries) =>
      match s.engine.applyPut ent.key ent.value ent.expiresAtUnixNano [] c.append with
      | (.error err, e) => ({ s with engine := e } : NodeState).refuse
          ⟨.internal, "restore_backup: load key " ++ P.quoteBytes ent.key ++ ": " ++ err.text⟩
      | (.ok _, e) => ({ s with engine := e } : NodeState).continue (.load m entries)
  | .wipe before => s.resetEngine c "delete_namespace: " fun s => s.answer (.deleted (Int32.ofNat before))

end Handlers

/-- The handlers of the node behind its interceptors. -/
def nodeHandlers (P : Packages) (spec : NamespaceSpec) : Handlers NodeRequest NodeState NodeTask NodeEnv NodeAnswer where
  fullMethod := NodeRequest.fullMethod
  start := .request
  step t s c := t.step P spec s c

abbrev NodeGateway (ω : Type) := Gateway NodeState NodeTask NodeAnswer ω

/-! ## RPCs without the token -/

section Token
variable {ω : Type} [DecidableEq ω] (P : Packages) (spec : NamespaceSpec) (token : Bytes) (rpc : ω → Incoming NodeRequest)

/-- The node's interceptor lets the RPC through. -/
def Allowed (o : ω) : Prop := Admitted token (rpc o).req.fullMethod (rpc o).metadata

omit [DecidableEq ω] in
theorem refusal_none_iff_allowed (o : ω) : (nodeHandlers P spec).refusal token rpc o = none ↔ Allowed token rpc o :=
  intercept_none_iff token (rpc o).req.fullMethod (rpc o).metadata

/-- **RPCs without the token.** Take any run of the server, with RPCs of all kinds that overlap in any way, some with the
token and some without, and leave out every step of those without it. What is left is a run; the engine, the offsets, the
gauge and the backup files are in the end what they were in the whole run, every RPC with the token is as far and has the
same answer, and the counters of all codes but `Unauthenticated` are the same. And an RPC without the token, once answered,
has the refusal that its own method and metadata decide, whatever the node holds. -/
theorem unauthenticated_no_trace {s : NodeState} {as : List (RpcAction NodeEnv ω)} {x : NodeGateway ω}
    (hrun : runActions (Gateway.step token (nodeHandlers P spec) rpc) (Gateway.start s) as = some x) :
    ∃ (kept : List (RpcAction NodeEnv ω)) (y : NodeGateway ω),
      kept.Sublist as ∧ (∀ a ∈ as, a ∈ kept ↔ Allowed token rpc a.op) ∧
      runActions (Gateway.step token (nodeHandlers P spec) rpc) (Gateway.start s) kept = some y ∧
      y.shared = x.shared ∧ (∀ o, Allowed token rpc o → y.phase o = x.phase o) ∧
      (∀ m c, c ≠ RpcCode.unauthenticated → y.requestsTotal m c.text = x.requestsTotal m c.text) ∧
      ∀ o, ¬Allowed token rpc o → y.phase o = .idle ∧ ∃ message,
        intercept token (rpc o).req.fullMethod (rpc o).metadata = some (.unauthenticated message) ∧
        ∀ r, x.phase o = .answered r → r = .error (.unauthenticated message) := by
  obtain ⟨y, hy, herased⟩ := gateway_erases hrun
  refine ⟨_, y, List.filter_sublist, fun a ha => ?_, hy, herased.shared, fun o ho => ?_, herased.totals, fun o ho => ?_⟩
  · rw [List.mem_filter, ← refusal_none_iff_allowed P spec, RpcAction.kept, Option.isNone_iff_eq_none]
    exact and_iff_right ha
  · exact herased.admitted o ((refusal_none_iff_allowed P spec token rpc o).mpr ho)
  · rw [← refusal_none_iff_allowed P spec] at ho
    obtain ⟨err, herr⟩ := Option.ne_none_iff_exists'.mp ho
    obtain ⟨message, rfl⟩ := intercept_some herr
    obtain ⟨hidle, hturned⟩ := herased.refused o _ herr
    refine ⟨hidle, message, herr, fun r hr => ?_⟩
    rw [hr] at hturned
    exact hturned

end Token

/-- A node that has just been started. -/
def NodeState.fresh : NodeState := ⟨Uddp.fresh, .fresh, .new, fun _ => none, Registry.empty⟩

/-- A call that meets no faults, and a map without entries. -/
def NodeEnv.quiet : NodeEnv := ⟨fun _ => 0, fun _ => 0, [], AppendIO.ok, ResetIO.ok, none, Backup.WriteFileIO.ok, []⟩

def plainPackages : Packages := ⟨id, fun _ => "", Backup.plainGob, id, fun _ => ""⟩

/-- A put with the token `s`, and a deletion of the namespace with another one. -/
def putAndWipe : Bool → Incoming NodeRequest
  | true => ⟨some (clientMetadata (utf8 "s")), .put ⟨"n", [107], [118], 0, []⟩⟩
  | false => ⟨some (clientMetadata (utf8 "t")), .deleteNamespace "n"⟩

/-- The two overlap. -/
def wipedRun : List (RpcAction NodeEnv Bool) :=
  [.arrive false, .arrive true, .authenticate true, .authenticate false, .work true .quiet, .count false, .observe false,
    .work true .quiet, .count true, .observe true]

theorem wipedRun_runs : ∃ x : NodeGateway Bool, runActions (Gateway.step (utf8 "s") (nodeHandlers plainPackages ⟨"n", "cache"⟩)
    putAndWipe) (Gateway.start NodeState.fresh) wipedRun = some x :=
  Option.isSome_iff_exists.mp (by decide +kernel)

theorem unauthenticated_wipe_no_trace : ∃ (x y : NodeGateway Bool) (kept : List (RpcAction NodeEnv Bool)),
    runActions (Gateway.step (utf8 "s") (nodeHandlers plainPackages ⟨"n", "cache"⟩) putAndWipe)
      (Gateway.start NodeState.fresh) wipedRun = some x ∧ y.shared = x.shared ∧ kept.Sublist wipedRun ∧
    runActions (Gateway.step (utf8 "s") (nodeHandlers plainPackages ⟨"n", "cache"⟩) putAndWipe)
      (Gateway.start NodeState.fresh) kept = some y ∧ y.phase true = x.phase true ∧ y.phase false = .idle := by
  obtain ⟨x, hx⟩ := wipedRun_runs
  obtain ⟨kept, y, hsub, -, hy, hshared, hallowed, -, hrefused⟩ :=
    unauthenticated_no_trace plainPackages ⟨"n", "cache"⟩ (utf8 "s") putAndWipe hx
  have hput : Allowed (utf8 "s") putAndWipe true :=
    (admitted_client_iff (utf8 "s") (utf8 "s") (by decide)).mpr (Or.inr rfl)
  have hwipe : ¬Allowed (utf8 "s") putAndWipe false := fun h =>
    absurd ((admitted_client_iff (utf8 "s") (utf8 "t") (by decide)).mp h) (by decide +kernel)
  exact ⟨x, y, kept, hx, hshared, hsub, hy, hallowed true hput, (hrefused false hwipe).1⟩

/-- The counters after that. -/
theorem gateway_counts_wipe : ∃ x : NodeGateway Bool,
    runActions (Gateway.step (utf8 "s") (nodeHandlers plainPackages ⟨"n", "cache"⟩) putAndWipe)
      (Gateway.start NodeState.fresh) wipedRun = some x ∧
    x.requestDuration "/uddp.admin.v1.AdminService/DeleteNamespace" =
      {o | (nodeHandlers plainPackages ⟨"n", "cache"⟩).method putAndWipe o = "/uddp.admin.v1.AdminService/DeleteNamespace" ∧
        ∃ r, x.phase o = .answered r}.ncard := by
  obtain ⟨x, hx⟩ := wipedRun_runs
  exact ⟨x, hx, (gateway_counts (utf8 "s") (nodeHandlers plainPackages ⟨"n", "cache"⟩) putAndWipe hx).2.1 _⟩

end Uddp

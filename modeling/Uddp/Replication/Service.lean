import Uddp.Api.Metrics
import Uddp.Cluster
import Uddp.Lib.Linearizable

/-!
# The replicated service

What the clients of a cluster see of its mutating requests. A handler checks its request and proposes it, raft puts it into
the log, the FSM of the node applies it, and the handler turns the result into the answer. `Propose` can fail at any time
before that; the entry may then still come into the log, or not, and the client does not know.

* `Request.refused`, `Request.finish` : how the handlers end;
* `Service`, `ServiceAction`, `Service.step` : the cluster with the requests on their way;
* `Replicated`, `ServiceSpec` : one engine that does the requests one after the other;
* `OpOk`, `ServiceInv`, `service_step` : what the phase of a request says about the log and its answer;
* **`replicated_writes_linearizable`** : the answers are those of the one engine, in an order that keeps to real time.
-/

namespace Uddp
open Uddp.Lib Uddp.Wal

/-! ## The end of a handler -/

/-- What a mutating handler returns. Of the admin calls this is whether they succeed. -/
inductive ServiceAnswer
  | mutation (r : Except Status MutationResponse)
  | admin (err : Option Status)
  deriving DecidableEq

/-- The end of `RestoreBackup` and `DeleteNamespace` on a replicated node, behind `Propose`. -/
def AdminServer.finish (quoteBytes : Bytes → String) (op : String) : Except String ApplyResult → Option Status
  | .error err => some ⟨.unavailable, op ++ ": " ++ err⟩
  | .ok result => result.err.map fun err => ⟨.internal, op ++ ": " ++ err.text quoteBytes⟩

/-- The answer of `replicatedResponse`, which depends on the namespace of the node only. -/
def StateServer.finish (quoteBytes : Bytes → String) (spec : NamespaceSpec) (op : String)
    (result : Except String ApplyResult) : Except Status MutationResponse :=
  ((⟨fresh, spec, none, true⟩ : StateServer).replicatedResponse quoteBytes result op).1

/-- A request that fails its checks. -/
def Request.refused (s : Status) : Request → ServiceAnswer
  | .put _ _ | .delete _ | .compareAndSet _ _ _ => .mutation (.error s)
  | .restoreBackup _ _ | .deleteNamespace _ => .admin (some s)

/-- A request whose `Propose` has returned. -/
def Request.finish (quoteBytes : Bytes → String) (spec : NamespaceSpec) (result : Except String ApplyResult) :
    Request → ServiceAnswer
  | .put _ _ => .mutation (StateServer.finish quoteBytes spec "put" result)
  | .delete _ => .mutation (StateServer.finish quoteBytes spec "delete" result)
  | .compareAndSet _ _ _ => .mutation (StateServer.finish quoteBytes spec "compare_and_set" result)
  | .restoreBackup _ _ => .admin (AdminServer.finish quoteBytes "restore_backup" result)
  | .deleteNamespace _ => .admin (AdminServer.finish quoteBytes "delete_namespace" result)

/-- The response does not depend on what else the server holds. -/
theorem StateServer.finish_eq (quoteBytes : Bytes → String) (s : StateServer) (op : String)
    (result : Except String ApplyResult) : (s.replicatedResponse quoteBytes result op).1 = finish quoteBytes s.spec op result := by
  unfold finish replicatedResponse
  cases result with
  | error err => rfl
  | ok result =>
      dsimp only
      split
      · rfl
      · rfl
      · rfl

/-! ## The machine -/

/-- How far a request has come. Its client waits unless `Propose` has failed. -/
inductive OpPhase (ι : Type)
  | idle
  | received (i : ι) (req : Request)
  | proposed (i : ι) (req : Request) (cmd : Command) (waits : Bool)
  /-- It is the log entry with this index. -/
  | committed (i : ι) (req : Request) (index : Nat) (waits : Bool)
  | finished (i : ι) (req : Request) (answer : ServiceAnswer)
  | answered

/-- The cluster and the requests on their way. None of its nodes has a RESP listener. -/
structure Service (ι ω : Type) where
  cluster : Cluster ι Empty
  phase : ω → OpPhase ι

inductive ServiceAction (ι ω : Type)
  /-- A request reaches node `i`. -/
  | invoke (o : ω) (i : ι) (req : Request)
  /-- Its handler makes its checks and, if they pass, proposes it. -/
  | handle (o : ω)
  /-- Raft commits it. -/
  | commit (o : ω) (term : UInt64)
  /-- `Propose` returns an error, and the handler `Unavailable`. -/
  | fail (o : ω)
  /-- The FSM of node `i` applies its next log entry. -/
  | apply (i : ι)
  /-- The handler returns. -/
  | respond (o : ω) (answer : ServiceAnswer)

/-- What a client sees. A client that gets `Unavailable` knows nothing about its request. -/
def ServiceAction.seen {ι ω : Type} : ServiceAction ι ω → Option (ClientEvent ω (ι × Request) ServiceAnswer)
  | .invoke o i req => some (.invoke o (i, req))
  | .respond o answer => some (.respond o answer)
  | .handle _ | .commit _ _ | .fail _ | .apply _ => none

def Service.start {ι ω : Type} : Service ι ω := ⟨Cluster.start, fun _ => .idle⟩

section Steps
variable {ι ω : Type} [DecidableEq ι] [DecidableEq ω]

def Service.goto (x : Service ι ω) (o : ω) (p : OpPhase ι) : Service ι ω := { x with phase := Function.update x.phase o p }

variable (quote : String → String) (quoteBytes : Bytes → String) (spec : ι → NamespaceSpec) (clock : Nat → Time)

/-- The future of a proposal is resolved when its own node applies the entry. -/
def OpPhase.resolve (i : ι) (index : Nat) (result : ApplyResult) : OpPhase ι → OpPhase ι
  | .committed j req k true =>
      if j = i ∧ k = index then .finished j req (req.finish quoteBytes (spec j) (.ok result)) else .committed j req k true
  | p => p

def Service.step (x : Service ι ω) : ServiceAction ι ω → Option (Service ι ω)
  | .invoke o i req =>
      match x.phase o with
      | .idle => some (x.goto o (.received i req))
      | _ => none
  | .handle o =>
      match x.phase o with
      | .received i req =>
          match req.handle quote (spec i) true with
          | .refuse status => some (x.goto o (.finished i req (req.refused status)))
          | .propose cmd => some (x.goto o (.proposed i req cmd true))
          | _ => none
      | _ => none
  | .commit o term =>
      match x.phase o with
      | .proposed i req _ waits =>
          (x.cluster.step quote spec clock (.request i req (some term))).map fun cluster =>
            { x with cluster := cluster }.goto o (.committed i req x.cluster.log.length waits)
      | _ => none
  | .fail o =>
      match x.phase o with
      | .proposed i req cmd true => some (x.goto o (.proposed i req cmd false))
      | .committed i req index true => some (x.goto o (.committed i req index false))
      | _ => none
  | .apply i =>
      match x.cluster.log[(x.cluster.node i).applied]? with
      | none => none
      | some entry =>
          let result := (Fsm.apply (x.cluster.node i).engine (clock (x.cluster.node i).applied) FsmIO.ok entry).1
          (x.cluster.step quote spec clock (.apply i)).map fun cluster =>
            ⟨cluster, fun o => (x.phase o).resolve quoteBytes spec i (x.cluster.node i).applied result⟩
  | .respond o answer =>
      match x.phase o with
      | .finished _ _ r => if r = answer then some (x.goto o .answered) else none
      | _ => none

end Steps

/-! ## What an action does -/

section Inversion
variable {ι ω : Type} [DecidableEq ι] [DecidableEq ω] {quote : String → String} {quoteBytes : Bytes → String}
  {spec : ι → NamespaceSpec} {clock : Nat → Time} {x x' : Service ι ω} {o : ω} {i : ι}

theorem service_invoke {req : Request} (h : x.step quote quoteBytes spec clock (.invoke o i req) = some x') :
    x.phase o = .idle ∧ x' = x.goto o (.received i req) := by
  simp only [Service.step] at h
  split at h
  · next hphase => exact ⟨hphase, (Option.some.inj h).symm⟩
  · cases h

theorem service_handle (h : x.step quote quoteBytes spec clock (.handle o) = some x') :
    ∃ i req, x.phase o = .received i req ∧
      ((∃ status, req.handle quote (spec i) true = .refuse status ∧ x' = x.goto o (.finished i req (req.refused status))) ∨
        ∃ cmd, req.handle quote (spec i) true = .propose cmd ∧ x' = x.goto o (.proposed i req cmd true)) := by
  simp only [Service.step] at h
  split at h
  · next i req hphase =>
    refine ⟨i, req, hphase, ?_⟩
    split at h
    · next status hhandle => exact Or.inl ⟨status, hhandle, (Option.some.inj h).symm⟩
    · next cmd hhandle => exact Or.inr ⟨cmd, hhandle, (Option.some.inj h).symm⟩
    · cases h
  · cases h

theorem service_commit {term : UInt64} (h : x.step quote quoteBytes spec clock (.commit o term) = some x') :
    ∃ i req cmd waits, x.phase o = .proposed i req cmd waits ∧
      x' = { x with cluster := x.cluster.enact i (some term) (req.handle quote (spec i) true) }.goto o
        (.committed i req x.cluster.log.length waits) := by
  simp only [Service.step] at h
  split at h
  · next i req cmd waits hphase => exact ⟨i, req, cmd, waits, hphase, (Option.some.inj h).symm⟩
  · cases h

theorem service_fail (h : x.step quote quoteBytes spec clock (.fail o) = some x') :
    (∃ i req cmd, x.phase o = .proposed i req cmd true ∧ x' = x.goto o (.proposed i req cmd false)) ∨
      ∃ i req index, x.phase o = .committed i req index true ∧ x' = x.goto o (.committed i req index false) := by
  simp only [Service.step] at h
  split at h
  · next i req cmd hphase => exact Or.inl ⟨i, req, cmd, hphase, (Option.some.inj h).symm⟩
  · next i req index hphase => exact Or.inr ⟨i, req, index, hphase, (Option.some.inj h).symm⟩
  · cases h

theorem service_apply (h : x.step quote quoteBytes spec clock (.apply i) = some x') :
    ∃ entry cluster, x.cluster.log[(x.cluster.node i).applied]? = some entry ∧
      x.cluster.step quote spec clock (.apply i) = some cluster ∧
      x' = ⟨cluster, fun o => (x.phase o).resolve quoteBytes spec i (x.cluster.node i).applied
        (Fsm.apply (x.cluster.node i).engine (clock (x.cluster.node i).applied) FsmIO.ok entry).1⟩ := by
  simp only [Service.step] at h
  cases hentry : x.cluster.log[(x.cluster.node i).applied]? with
  | none =>
      rw [hentry] at h
      cases h
  | some entry =>
      rw [hentry] at h
      obtain ⟨cluster, hcluster, hx'⟩ := Option.map_eq_some_iff.mp h
      exact ⟨entry, cluster, rfl, hcluster, hx'.symm⟩

theorem service_respond {answer : ServiceAnswer} (h : x.step quote quoteBytes spec clock (.respond o answer) = some x') :
    ∃ i req, x.phase o = .finished i req answer ∧ x' = x.goto o .answered := by
  simp only [Service.step] at h
  split at h
  · next i req r hphase =>
    split at h
    · next hr => exact ⟨i, req, by rw [hphase, hr], (Option.some.inj h).symm⟩
    · cases h
  · cases h

end Inversion

/-! ## One engine -/

/-- The history of an engine, and the number of log entries that have made it. -/
structure Replicated where
  records : List Record
  entries : Nat

section Order
variable {ι ω : Type} (quote : String → String) (quoteBytes : Bytes → String) (spec : ι → NamespaceSpec) (clock : Nat → Time)

/-- A request, done at one moment: it fails its checks, or it is the next entry of the log. -/
def ServiceSpec (s : Replicated) (op : ι × Request) (r : ServiceAnswer) (s' : Replicated) : Prop :=
  match op.2.handle quote (spec op.1) true with
  | .refuse status => r = op.2.refused status ∧ s' = s
  | .propose cmd => ∃ term, r = op.2.finish quoteBytes (spec op.1)
        (.ok (deliver s.records ⟨⟨.ok cmd, term⟩, clock s.entries⟩).1) ∧
      s' = ⟨(deliver s.records ⟨⟨.ok cmd, term⟩, clock s.entries⟩).2, s.entries + 1⟩
  | .call _ | .reset | .load _ => False

/-- The answer to the request that is the entry `index` of the log. -/
def entryAnswer (log : List RaftLog) (i : ι) (req : Request) (index : Nat) (entry : RaftLog) : ServiceAnswer :=
  req.finish quoteBytes (spec i) (.ok (deliver (replayed clock log index) ⟨entry, clock index⟩).1)

/-- What the phase of a request says about its place in the order. -/
def OpOk (log : List RaftLog) : OpPhase ι → OpStatus (ι × Request) ServiceAnswer → Prop
  | .idle, st => st = .fresh
  | .received i req, st => st = .pending (i, req)
  | .proposed i req cmd _, st => st = .pending (i, req) ∧ req.handle quote (spec i) true = .propose cmd
  | .committed i req index _, st => ∃ entry, log[index]? = some entry ∧
      st = .effective (i, req) (entryAnswer quoteBytes spec clock log i req index entry)
  | .finished i req r, st => st = .effective (i, req) r
  | .answered, st => ∃ op r, st = .closed op r

structure ServiceInv (x : Service ι ω) (t : Atomic Replicated ω (ι × Request) ServiceAnswer) : Prop where
  driven : Driven clock x.cluster
  state : t.state = ⟨replayed clock x.cluster.log x.cluster.log.length, x.cluster.log.length⟩
  ops : ∀ o, OpOk quote quoteBytes spec clock x.cluster.log (x.phase o) (t.status o)

end Order

section Simulation
variable {ι ω : Type} {quote : String → String} {quoteBytes : Bytes → String} {spec : ι → NamespaceSpec} {clock : Nat → Time}
  {x x' : Service ι ω} {t : Atomic Replicated ω (ι × Request) ServiceAnswer} {o : ω} {i : ι}

theorem OpOk.grown {log : List RaftLog} (more : List RaftLog) {p : OpPhase ι} {st : OpStatus (ι × Request) ServiceAnswer}
    (h : OpOk quote quoteBytes spec clock log p st) : OpOk quote quoteBytes spec clock (log ++ more) p st := by
  cases p with
  | committed i req index waits =>
      obtain ⟨entry, hentry, hst⟩ := h
      have hlt : index < log.length := (List.getElem?_eq_some_iff.mp hentry).1
      refine ⟨entry, getElem?_of_part (List.prefix_append log more) hentry, ?_⟩
      rw [hst, entryAnswer, entryAnswer, replayed_append clock more hlt.le]
  | idle => exact h
  | received i req => exact h
  | proposed i req cmd waits => exact h
  | finished i req r => exact h
  | answered => exact h

theorem ServiceInv.known (h : ServiceInv quote quoteBytes spec clock x t) {p : OpPhase ι} (hp : x.phase o = p) :
    OpOk quote quoteBytes spec clock x.cluster.log p (t.status o) := hp ▸ h.ops o

variable [DecidableEq ω]

theorem ServiceInv.goto (h : ServiceInv quote quoteBytes spec clock x t) {p : OpPhase ι}
    {st : OpStatus (ι × Request) ServiceAnswer} (hp : OpOk quote quoteBytes spec clock x.cluster.log p st) :
    ServiceInv quote quoteBytes spec clock (x.goto o p) (t.put o st) := by
  refine ⟨h.driven, h.state, fun l => ?_⟩
  show OpOk quote quoteBytes spec clock x.cluster.log (Function.update x.phase o p l) _
  by_cases hl : l = o
  · rw [hl, Function.update_self, Atomic.put_self]
    exact hp
  · rw [Function.update_of_ne hl, Atomic.put_of_ne t hl]
    exact h.ops l

theorem ServiceInv.stay (h : ServiceInv quote quoteBytes spec clock x t) {p : OpPhase ι}
    (hp : OpOk quote quoteBytes spec clock x.cluster.log p (t.status o)) :
    ServiceInv quote quoteBytes spec clock (x.goto o p) t := by
  have := h.goto (o := o) hp
  rwa [Atomic.put_same] at this

variable [DecidableEq ι] (h : ServiceInv quote quoteBytes spec clock x t)
include h

theorem serviceInv_handle (hstep : x.step quote quoteBytes spec clock (.handle o) = some x') :
    ∃ t', ServiceInv quote quoteBytes spec clock x' t' ∧ AtomicFollows (ServiceSpec quote quoteBytes spec clock) none t t' := by
  obtain ⟨i, req, hphase, ⟨status, hhandle, rfl⟩ | ⟨cmd, hhandle, rfl⟩⟩ := service_handle hstep
  · have hpending : t.status o = .pending (i, req) := h.known hphase
    have hspec : ServiceSpec quote quoteBytes spec clock t.state (i, req) (req.refused status) t.state := by
      unfold ServiceSpec
      rw [hhandle]
      exact ⟨rfl, rfl⟩
    exact ⟨t.put o (.effective (i, req) (req.refused status)), h.goto rfl, Or.inr ⟨_, .commit hpending hspec, rfl⟩⟩
  · exact ⟨t, h.stay ⟨h.known hphase, hhandle⟩, Or.inl ⟨rfl, rfl⟩⟩

/-- **The moment of a request** is the one at which raft commits it. -/
theorem serviceInv_commit {term : UInt64} (hstep : x.step quote quoteBytes spec clock (.commit o term) = some x') :
    ∃ t', ServiceInv quote quoteBytes spec clock x' t' ∧ AtomicFollows (ServiceSpec quote quoteBytes spec clock) none t t' := by
  obtain ⟨i, req, cmd, waits, hphase, rfl⟩ := service_commit hstep
  obtain ⟨hpending, hhandle⟩ := h.known hphase
  obtain ⟨entry, hentry⟩ : ∃ entry : RaftLog, entry = ⟨.ok cmd, term⟩ := ⟨_, rfl⟩
  obtain ⟨log, hlog⟩ : ∃ log, log = x.cluster.log := ⟨_, rfl⟩
  have henact : x.cluster.enact i (some term) (req.handle quote (spec i) true) = { x.cluster with log := log ++ [entry] } := by
    rw [hhandle, hentry, hlog]
    rfl
  have hnext : (log ++ [entry])[log.length]? = some entry := by rw [List.getElem?_append_right le_rfl]; simp
  have hbefore : replayed clock (log ++ [entry]) log.length = replayed clock log log.length := replayed_append clock _ le_rfl
  have hdriven : Driven clock (x.cluster.enact i (some term) (req.handle quote (spec i) true)) :=
    h.driven.enact i (some term) (replicated_proposes quote (spec i) req)
  have hspec : ServiceSpec quote quoteBytes spec clock t.state (i, req)
      (entryAnswer quoteBytes spec clock (log ++ [entry]) i req log.length entry)
      ⟨replayed clock (log ++ [entry]) (log ++ [entry]).length, (log ++ [entry]).length⟩ := by
    unfold ServiceSpec
    rw [hhandle, h.state, ← hlog]
    refine ⟨term, ?_, ?_⟩
    · rw [entryAnswer, hbefore, hentry]
    · rw [List.length_append, List.length_singleton, replayed_succ clock hnext, hbefore, hentry]
  refine ⟨_, ?_, Or.inr ⟨_, .commit hpending hspec, rfl⟩⟩
  rw [henact] at hdriven ⊢
  have hgrown : ServiceInv quote quoteBytes spec clock { x with cluster := { x.cluster with log := log ++ [entry] } }
      { t with state := ⟨replayed clock (log ++ [entry]) (log ++ [entry]).length, (log ++ [entry]).length⟩ } :=
    ⟨hdriven, rfl, fun l => (hlog ▸ h.ops l).grown [entry]⟩
  rw [← hlog]
  exact hgrown.goto ⟨entry, hnext, rfl⟩

theorem serviceInv_fail (hstep : x.step quote quoteBytes spec clock (.fail o) = some x') :
    ServiceInv quote quoteBytes spec clock x' t := by
  rcases service_fail hstep with ⟨i, req, cmd, hphase, rfl⟩ | ⟨i, req, index, hphase, rfl⟩
  · have hop := h.known hphase
    exact h.stay hop
  · have hop := h.known hphase
    exact h.stay hop

/-- The result that the FSM of the node computes is that of the one engine. -/
theorem serviceInv_apply (hstep : x.step quote quoteBytes spec clock (.apply i) = some x') :
    ServiceInv quote quoteBytes spec clock x' t := by
  obtain ⟨entry, cluster, hentry, hcluster, rfl⟩ := service_apply hstep
  have hquiet : ∀ j, ¬RespWrite x.cluster j (.apply i : Action ι Empty) := fun _ hwrite => hwrite
  have hdriven : Driven clock cluster := step_driven h.driven hquiet hcluster
  have hlog : cluster.log = x.cluster.log := by
    simp only [Cluster.step, hentry] at hcluster
    rw [← Option.some.inj hcluster]
    rfl
  refine ⟨hdriven, by rw [h.state, hlog], fun l => ?_⟩
  have hl := h.ops l
  show OpOk quote quoteBytes spec clock cluster.log ((x.phase l).resolve _ _ _ _ _) _
  rw [hlog]
  cases hphase : x.phase l with
  | committed j req k waits =>
      rw [hphase] at hl
      cases waits with
      | false => exact hl
      | true =>
          by_cases heq : j = i ∧ k = (x.cluster.node i).applied
          · rw [OpPhase.resolve, if_pos heq]
            obtain ⟨rfl, rfl⟩ := heq
            obtain ⟨entry', hentry', hst⟩ := hl
            rw [hentry] at hentry'
            cases hentry'
            have hresult := (step_delivers (h.driven j).represents ⟨entry, clock (x.cluster.node j).applied⟩).1
            rw [hst, entryAnswer, ← hresult]
            rfl
          · rw [OpPhase.resolve, if_neg heq]
            exact hl
  | idle => rwa [hphase] at hl
  | received j req => rwa [hphase] at hl
  | proposed j req cmd waits => rwa [hphase] at hl
  | finished j req r => rwa [hphase] at hl
  | answered => rwa [hphase] at hl

/-- **One action** of the service is followed by the one engine. -/
theorem service_step {a : ServiceAction ι ω} (hstep : x.step quote quoteBytes spec clock a = some x') :
    ∃ t', ServiceInv quote quoteBytes spec clock x' t' ∧ AtomicFollows (ServiceSpec quote quoteBytes spec clock) a.seen t t' := by
  cases a with
  | invoke o i req =>
      obtain ⟨hphase, rfl⟩ := service_invoke hstep
      exact ⟨_, h.goto rfl, Or.inr ⟨_, .invoke (i, req) (h.known hphase), rfl⟩⟩
  | handle o => exact serviceInv_handle h hstep
  | commit o term => exact serviceInv_commit h hstep
  | fail o => exact ⟨t, serviceInv_fail h hstep, Or.inl ⟨rfl, rfl⟩⟩
  | apply i => exact ⟨t, serviceInv_apply h hstep, Or.inl ⟨rfl, rfl⟩⟩
  | respond o answer =>
      obtain ⟨i, req, hphase, rfl⟩ := service_respond hstep
      exact ⟨_, h.goto ⟨_, _, rfl⟩, Or.inr ⟨_, .respond (h.known hphase), rfl⟩⟩

end Simulation

theorem serviceInv_start {ι ω : Type} (quote : String → String) (quoteBytes : Bytes → String) (spec : ι → NamespaceSpec)
    (clock : Nat → Time) :
    ServiceInv quote quoteBytes spec clock (Service.start : Service ι ω) (Atomic.start ⟨[], 0⟩) :=
  ⟨driven_start clock, rfl, fun _ => rfl⟩

theorem service_run {ι ω : Type} [DecidableEq ι] [DecidableEq ω] {quote : String → String} {quoteBytes : Bytes → String}
    {spec : ι → NamespaceSpec} {clock : Nat → Time} {as : List (ServiceAction ι ω)} {x : Service ι ω}
    (hrun : runActions (Service.step quote quoteBytes spec clock) Service.start as = some x) :
    ∃ t L, ServiceInv quote quoteBytes spec clock x t ∧
      Linearizes (ServiceSpec quote quoteBytes spec clock) ⟨[], 0⟩ (as.filterMap ServiceAction.seen) L t.state := by
  have hsim : ∀ (x : Service ι ω) (a : ServiceAction ι ω) (x' : Service ι ω) (t : Atomic Replicated ω (ι × Request) ServiceAnswer),
      ServiceInv quote quoteBytes spec clock x t → True → x.step quote quoteBytes spec clock a = some x' →
      ∃ t', ServiceInv quote quoteBytes spec clock x' t' ∧
        AtomicFollows (ServiceSpec quote quoteBytes spec clock) a.seen t t' :=
    fun _ _ _ _ hinv _ hstep => service_step hinv hstep
  exact linearizes_of_simulation hsim (serviceInv_start quote quoteBytes spec clock) (fun _ _ => trivial) hrun

theorem ServiceInv.whole {ι ω : Type} {quote : String → String} {quoteBytes : Bytes → String} {spec : ι → NamespaceSpec}
    {clock : Nat → Time} {x : Service ι ω} {t : Atomic Replicated ω (ι × Request) ServiceAnswer}
    (h : ServiceInv quote quoteBytes spec clock x t) {i : ι} (happlied : (x.cluster.node i).applied = x.cluster.log.length) :
    Represents (x.cluster.node i).engine t.state.records := by
  have hrep := (h.driven i).represents
  rw [happlied] at hrep
  rw [h.state]
  exact hrep

end Uddp

import Uddp.Api.Servers
import Uddp.Engine.Idempotency

/-!
# The commit-position gauge

`StateServer.response` passes the position of every successful mutation to the gauge of the namespace.

* `StateServer.serve` : a mutation of the native API from the request to the response, on a node with and without replication;
  **`serve_handling`** : up to the engine call or the proposal it is `Request.handle`;
* `Tracks`, `Arrival.append`, **`serve_tracks`** : what a mutation does to the history of the engine and to the gauge;
* `head_iff` : an answer carries the head of the log unless it is a remembered one of an older record;
* **`gauge_head_iff`** : the gauge shows the head of the stream after every success exactly when no request comes with the
  idempotency key of an older record, and then it never goes back.
-/

namespace Uddp
open Uddp.Lib Uddp.Wal

/-! ## The gauge and the response -/

/-- The gauges, with the position that was last passed for each namespace. -/
structure Metrics where
  commitPosition : String → Option UInt64

def Metrics.new : Metrics := ⟨fun _ => none⟩

/-- `SetCommitPosition`. -/
def Metrics.setCommitPosition (m : Metrics) (ns : String) (position : UInt64) : Metrics :=
  ⟨Function.update m.commitPosition ns (some position)⟩

structure MutationResponse where
  namespaceId : String
  partitionId : UInt32
  epoch : UInt64
  commitPosition : UInt64
  durabilityProfile : String
  deduplicated : Bool
  version : UInt64
  deriving DecidableEq, Repr

structure StateServer where
  engine : Engine
  spec : NamespaceSpec
  metrics : Option Metrics
  replicated : Bool

/-- The position that was last passed to the gauge of the node's namespace. -/
def StateServer.gauge (s : StateServer) : Option UInt64 := s.metrics.bind fun m => m.commitPosition s.spec.id

def StateServer.response (s : StateServer) (out : Outcome) (epoch : UInt64) : MutationResponse × StateServer :=
  ({ namespaceId := s.spec.id, partitionId := 0, epoch := epoch, commitPosition := out.commitPosition,
     durabilityProfile := s.spec.profile, deduplicated := out.deduplicated, version := out.version },
    { s with metrics := s.metrics.map fun m => m.setCommitPosition s.spec.id out.commitPosition })

/-! ## The three mutations -/

/-- A mutation of the native API, with its readings of the clock. -/
inductive Mutation
  | put (req : PutRequest) (now : Time)
  | delete (req : DeleteRequest)
  | compareAndSet (req : CompareAndSetRequest) (now now' : Time)

namespace Mutation

def request : Mutation → Request
  | .put req now => .put req now
  | .delete req => .delete req
  | .compareAndSet req now now' => .compareAndSet req now now'

def op : Mutation → String
  | .put _ _ => "put"
  | .delete _ => "delete"
  | .compareAndSet _ _ _ => "compare_and_set"

def namespaceId : Mutation → String
  | .put req _ => req.namespaceId
  | .delete req => req.namespaceId
  | .compareAndSet req _ _ => req.namespaceId

def key : Mutation → Bytes
  | .put req _ => req.key
  | .delete req => req.key
  | .compareAndSet req _ _ => req.key

def idempotencyKey : Mutation → Bytes
  | .put req _ => req.idempotencyKey
  | .delete req => req.idempotencyKey
  | .compareAndSet req _ _ => req.idempotencyKey

/-- What is proposed on a replicated node. -/
def command : Mutation → Command
  | .put req now =>
      { op := OpPut, key := req.key, value := req.value, expiresAtUnixNano := resolveExpiry req.ttlSeconds now,
        expectedVersion := 0, idempotencyKey := req.idempotencyKey, entries := [] }
  | .delete req =>
      { op := OpDelete, key := req.key, value := [], expiresAtUnixNano := 0, expectedVersion := 0,
        idempotencyKey := req.idempotencyKey, entries := [] }
  | .compareAndSet req now _ =>
      { op := OpCompareAndSet, key := req.key, value := req.value, expiresAtUnixNano := resolveExpiry req.ttlSeconds now,
        expectedVersion := req.expectedVersion, idempotencyKey := req.idempotencyKey, entries := [] }

/-- What the engine is asked for on any other node. -/
def call : Mutation → Call
  | .put req now => .put req.key req.value req.ttlSeconds req.idempotencyKey now
  | .delete req => .delete req.key req.idempotencyKey
  | .compareAndSet req now now' =>
      .compareAndSet req.key req.value req.expectedVersion req.ttlSeconds req.idempotencyKey now now'

/-- The status of an error of the engine; only `CompareAndSet` looks for a version mismatch. -/
def status (m : Mutation) (err : EngineError) : Status :=
  match m, err with
  | .compareAndSet _ _ _, .versionMismatch => ⟨.failedPrecondition, "version mismatch"⟩
  | _, _ => ⟨.internal, m.op ++ ": " ++ err.text⟩

end Mutation

/-- What comes of a proposal: the entry is committed in `term` and applied here at `now`, or `Propose` fails, and the entry may
have been committed and applied all the same. -/
inductive Proposal
  | committed (term : UInt64) (now : Time)
  | failed (err : String) (applied : Option (UInt64 × Time))

/-- `Propose`, and the engine that the FSM leaves. -/
def Proposal.run (e : Engine) (cmd : Command) (io : FsmIO) : Proposal → Except String ApplyResult × Engine
  | .committed term now => (.ok (Fsm.apply e now io ⟨.ok cmd, term⟩).1, (Fsm.apply e now io ⟨.ok cmd, term⟩).2)
  | .failed err none => (.error err, e)
  | .failed err (some (term, now)) => (.error err, (Fsm.apply e now io ⟨.ok cmd, term⟩).2)

/-- When the command is applied here, if it is. -/
def Proposal.applied : Proposal → Option Time
  | .committed _ now => some now
  | .failed _ applied => applied.map Prod.snd

/-- A mutation as it reaches the server, and what it meets. -/
structure Arrival where
  mutation : Mutation
  proposal : Proposal
  io : FsmIO

namespace StateServer
-- `quote` and `quoteBytes` are the verb `%q`
variable (quote : String → String) (quoteBytes : Bytes → String)

def replicatedResponse (s : StateServer) (result : Except String ApplyResult) (op : String) :
    Except Status MutationResponse × StateServer :=
  match result with
  | .error err => (.error ⟨.unavailable, op ++ ": " ++ err⟩, s)
  | .ok result =>
      match result.err with
      | some (.engine .versionMismatch) => (.error ⟨.failedPrecondition, "version mismatch"⟩, s)
      | some err => (.error ⟨.internal, op ++ ": " ++ err.text quoteBytes⟩, s)
      | none => (.ok (s.response result.outcome result.term).1, (s.response result.outcome result.term).2)

/-- The end of a handler on a node without replication. -/
def directResponse (s : StateServer) (m : Mutation) (result : Except EngineError Outcome) :
    Except Status MutationResponse × StateServer :=
  match result with
  | .error err => (.error (m.status err), s)
  | .ok out => (.ok (s.response out 0).1, (s.response out 0).2)

/-- `Put`, `Delete` and `CompareAndSet`. -/
def serve (s : StateServer) (x : Arrival) : Except Status MutationResponse × StateServer :=
  match checkRequest quote s.spec x.mutation.namespaceId x.mutation.key with
  | some status => (.error status, s)
  | none =>
      if s.replicated then
        let r := x.proposal.run s.engine x.mutation.command x.io
        { s with engine := r.2 }.replicatedResponse quoteBytes r.1 x.mutation.op
      else
        let r := x.mutation.call.run s.engine (x.io.append 0)
        { s with engine := r.2 }.directResponse x.mutation r.1

/-- The server after the mutations. -/
def after (s : StateServer) (xs : List Arrival) : StateServer := (run (serve quote quoteBytes) s xs).2

end StateServer

theorem Mutation.handle_request (quote : String → String) (spec : NamespaceSpec) (replicated : Bool) (m : Mutation) :
    m.request.handle quote spec replicated = mutation quote spec replicated m.namespaceId m.key m.command m.call := by
  cases m <;> rfl

/-- `serve` is what `Request.handle` says the handler does, and then the response. -/
theorem serve_handling (quote : String → String) (quoteBytes : Bytes → String) (s : StateServer) (x : Arrival) :
    match x.mutation.request.handle quote s.spec s.replicated with
    | .refuse status => s.serve quote quoteBytes x = (.error status, s)
    | .propose cmd => s.serve quote quoteBytes x =
        { s with engine := (x.proposal.run s.engine cmd x.io).2 }.replicatedResponse quoteBytes
          (x.proposal.run s.engine cmd x.io).1 x.mutation.op
    | .call c => s.serve quote quoteBytes x =
        { s with engine := (c.run s.engine (x.io.append 0)).2 }.directResponse x.mutation (c.run s.engine (x.io.append 0)).1
    | .reset | .load _ => False := by
  rw [Mutation.handle_request]
  unfold mutation StateServer.serve
  cases checkRequest quote s.spec x.mutation.namespaceId x.mutation.key with
  | some status => rfl
  | none =>
      cases s.replicated with
      | true => rfl
      | false => rfl

/-! ## The history -/

/-- What the FSM asks of the engine for the mutation. -/
def Mutation.applied (m : Mutation) (now : Time) : Call :=
  match m with
  | .put req at' => .applyPut req.key req.value (resolveExpiry req.ttlSeconds at') req.idempotencyKey
  | .delete req => .delete req.key req.idempotencyKey
  | .compareAndSet req at' _ =>
      .applyCompareAndSet req.key req.value req.expectedVersion (resolveExpiry req.ttlSeconds at') req.idempotencyKey now

theorem Mutation.command_effect (m : Mutation) (now : Time) : m.command.effect now = .call (m.applied now) := by
  cases m <;> rfl

section History
variable (quote : String → String) (quoteBytes : Bytes → String) (spec : NamespaceSpec) (replicated : Bool)

/-- The call that reaches the engine, if one does. -/
def Arrival.call (x : Arrival) : Option Call :=
  match checkRequest quote spec x.mutation.namespaceId x.mutation.key with
  | some _ => none
  | none => if replicated then x.proposal.applied.map x.mutation.applied else some x.mutation.call

/-- The request passes the checks of its handler and, on a replicated node, its proposal is committed. -/
def Arrival.Answered (x : Arrival) : Prop :=
  checkRequest quote spec x.mutation.namespaceId x.mutation.key = none ∧
    (replicated = true → ∃ term now, x.proposal = .committed term now)

/-- The history after the mutation. -/
def Arrival.append (rs : List Record) (x : Arrival) : List Record :=
  match x.call quote spec replicated with
  | none => rs
  | some c => (answer rs c).2

theorem Arrival.call_key {x : Arrival} {c : Call} (h : x.call quote spec replicated = some c) :
    c.record.idempotencyKey = x.mutation.idempotencyKey := by
  unfold Arrival.call at h
  split at h
  · cases h
  · split at h
    · obtain ⟨now, -, rfl⟩ := Option.map_eq_some_iff.mp h
      cases x.mutation <;> rfl
    · cases h
      cases x.mutation <;> rfl

/-- The server has metrics, its log holds `rs` and its maps are those of `rs`. -/
structure Tracks (s : StateServer) (rs : List Record) : Prop where
  spec : s.spec = spec
  replicated : s.replicated = replicated
  metrics : s.metrics.isSome
  holds : Holds s.engine.log rs
  tables : s.engine.toTables = tablesOf rs

variable {quote quoteBytes spec replicated} {s : StateServer} {rs : List Record}

theorem Tracks.engine (h : Tracks spec replicated s rs) (c : Call) :
    (c.run s.engine AppendIO.ok).1 = (answer rs c).1 ∧
      Tracks spec replicated { s with engine := (c.run s.engine AppendIO.ok).2 } (answer rs c).2 := by
  obtain ⟨hout, hholds, htables, -⟩ := step_holds h.holds h.tables c
  exact ⟨hout, h.spec, h.replicated, h.metrics, hholds, htables⟩

theorem Tracks.response (h : Tracks spec replicated s rs) (out : Outcome) (epoch : UInt64) :
    Tracks spec replicated (s.response out epoch).2 rs ∧ (s.response out epoch).2.gauge = some out.commitPosition := by
  refine ⟨⟨h.spec, h.replicated, ?_, h.holds, h.tables⟩, ?_⟩
  · show (s.metrics.map _).isSome
    rw [Option.isSome_map]
    exact h.metrics
  · obtain ⟨m, hm⟩ := Option.isSome_iff_exists.mp h.metrics
    unfold StateServer.gauge StateServer.response Metrics.setCommitPosition
    simp only [hm, Option.map_some, Option.bind_some, Function.update_self]

theorem apply_command (e : Engine) (m : Mutation) (term : UInt64) (now : Time) :
    Fsm.apply e now FsmIO.ok ⟨.ok m.command, term⟩ =
      (⟨(Fsm.pairOf ((m.applied now).run e AppendIO.ok).1).1, (Fsm.pairOf ((m.applied now).run e AppendIO.ok).1).2, term⟩,
        ((m.applied now).run e AppendIO.ok).2) := by
  show (_, _) = _
  rw [Fsm.dispatch_eq, Mutation.command_effect]
  rfl

/-- What a mutation leaves: the history has gone on by its call, and a success is the answer to that call and sets the gauge. -/
structure Answers (quote : String → String) (spec : NamespaceSpec) (replicated : Bool) (rs : List Record) (x : Arrival)
    (r : Except Status MutationResponse × StateServer) : Prop where
  tracks : Tracks spec replicated r.2 (x.append quote spec replicated rs)
  success : ∀ resp, r.1 = .ok resp → x.Answered quote spec replicated ∧ ∃ c out, x.call quote spec replicated = some c ∧
    (answer rs c).1 = .ok out ∧ resp.commitPosition = out.commitPosition ∧ r.2.gauge = some out.commitPosition
  succeeds : x.Answered quote spec replicated → ∀ c out, x.call quote spec replicated = some c →
    (answer rs c).1 = .ok out → ∃ resp, r.1 = .ok resp

theorem Answers.of_error {x : Arrival} (h : Tracks spec replicated s (x.append quote spec replicated rs))
    (hfails : x.Answered quote spec replicated → ∀ c out, x.call quote spec replicated = some c → (answer rs c).1 ≠ .ok out)
    (status : Status) : Answers quote spec replicated rs x (.error status, s) :=
  ⟨h, fun _ hresp => (by cases hresp), fun hx c out hcall hout => absurd hout (hfails hx c out hcall)⟩

theorem Answers.of_response {x : Arrival} (hx : x.Answered quote spec replicated) {c : Call} {out : Outcome}
    (hcall : x.call quote spec replicated = some c) (hout : (answer rs c).1 = .ok out)
    (h : Tracks spec replicated s (x.append quote spec replicated rs)) (epoch : UInt64) :
    Answers quote spec replicated rs x (.ok (s.response out epoch).1, (s.response out epoch).2) := by
  obtain ⟨htracks, hgauge⟩ := h.response out epoch
  refine ⟨htracks, fun resp hresp => ?_, fun _ _ _ _ _ => ⟨_, rfl⟩⟩
  cases hresp
  exact ⟨hx, c, out, hcall, hout, rfl, hgauge⟩

theorem Answers.of_engine {x : Arrival} {c : Call} (hcall : x.call quote spec replicated = some c) {err : EngineError}
    (hout : (answer rs c).1 = .error err) (h : Tracks spec replicated s (x.append quote spec replicated rs))
    (status : Status) : Answers quote spec replicated rs x (.error status, s) := by
  refine .of_error h (fun _ c' out hcall' hout' => ?_) status
  rw [hcall] at hcall'
  cases hcall'
  rw [hout] at hout'
  cases hout'

theorem append_call {x : Arrival} {c : Call} (hcall : x.call quote spec replicated = some c) (rs : List Record) :
    x.append quote spec replicated rs = (answer rs c).2 := by
  rw [Arrival.append, hcall]

theorem append_none {x : Arrival} (hcall : x.call quote spec replicated = none) (rs : List Record) :
    x.append quote spec replicated rs = rs := by
  rw [Arrival.append, hcall]

theorem direct_answers (h : Tracks spec replicated s rs) {x : Arrival} (hx : x.Answered quote spec replicated)
    (hcall : x.call quote spec replicated = some x.mutation.call) :
    Answers quote spec replicated rs x (StateServer.directResponse
      { s with engine := (x.mutation.call.run s.engine AppendIO.ok).2 } x.mutation
      (x.mutation.call.run s.engine AppendIO.ok).1) := by
  obtain ⟨hout, hnext⟩ := h.engine x.mutation.call
  rw [← append_call hcall] at hnext
  unfold StateServer.directResponse
  split
  · next err herr => exact .of_engine hcall (hout.symm.trans herr) hnext _
  · next out hok => exact .of_response hx hcall (hout.symm.trans hok) hnext 0

theorem committed_answers (h : Tracks spec replicated s rs) {x : Arrival} (hx : x.Answered quote spec replicated) {now : Time}
    (hcall : x.call quote spec replicated = some (x.mutation.applied now)) (term : UInt64) :
    Answers quote spec replicated rs x (StateServer.replicatedResponse quoteBytes
      { s with engine := (Fsm.apply s.engine now FsmIO.ok ⟨.ok x.mutation.command, term⟩).2 }
      (.ok (Fsm.apply s.engine now FsmIO.ok ⟨.ok x.mutation.command, term⟩).1) x.mutation.op) := by
  obtain ⟨hout, hnext⟩ := h.engine (x.mutation.applied now)
  rw [← append_call hcall] at hnext
  rw [apply_command]
  cases hans : ((x.mutation.applied now).run s.engine AppendIO.ok).1 with
  | error err =>
      cases err with
      | versionMismatch => exact .of_engine hcall (hout.symm.trans hans) hnext _
      | wal err => exact .of_engine hcall (hout.symm.trans hans) hnext _
  | ok out => exact .of_response hx hcall (hout.symm.trans hans) hnext term

theorem failed_answers (h : Tracks spec replicated s rs) {x : Arrival} (hx : ¬x.Answered quote spec replicated)
    (err : String) {applied : Option (UInt64 × Time)}
    (hcall : x.call quote spec replicated = (Proposal.failed err applied).applied.map x.mutation.applied) :
    Answers quote spec replicated rs x (StateServer.replicatedResponse quoteBytes
      { s with engine := (Proposal.run s.engine x.mutation.command FsmIO.ok (.failed err applied)).2 }
      (Proposal.run s.engine x.mutation.command FsmIO.ok (.failed err applied)).1 x.mutation.op) := by
  cases applied with
  | none =>
      rw [← append_none hcall rs] at h
      exact .of_error h (fun hx' => absurd hx' hx) _
  | some entry =>
      have hnext := (h.engine (x.mutation.applied entry.2)).2
      have hrun : (Proposal.run s.engine x.mutation.command FsmIO.ok (.failed err (some entry))).2 =
          ((x.mutation.applied entry.2).run s.engine AppendIO.ok).2 :=
        congrArg Prod.snd (apply_command s.engine x.mutation entry.1 entry.2)
      rw [← append_call hcall, ← hrun] at hnext
      exact .of_error hnext (fun hx' => absurd hx' hx) _

variable (quote quoteBytes) in
theorem serve_tracks (h : Tracks spec replicated s rs) {x : Arrival} (hio : x.io = FsmIO.ok) :
    Answers quote spec replicated rs x (s.serve quote quoteBytes x) := by
  have hspec := h.spec
  have hreplicated := h.replicated
  subst hspec hreplicated
  unfold StateServer.serve
  rw [hio]
  split
  · next status hcheck =>
    have hcall : x.call quote s.spec s.replicated = none := by simp only [Arrival.call, hcheck]
    rw [← append_none hcall rs] at h
    refine .of_error h (fun hx => ?_) status
    rw [hx.1] at hcheck
    cases hcheck
  · next hcheck =>
    split
    · next hrep =>
      have hcall : x.call quote s.spec s.replicated = x.proposal.applied.map x.mutation.applied := by
        simp only [Arrival.call, hcheck, hrep, if_true]
      cases hproposal : x.proposal with
      | committed term now =>
          rw [hproposal] at hcall
          exact committed_answers h ⟨hcheck, fun _ => ⟨term, now, hproposal⟩⟩ hcall term
      | failed err applied =>
          rw [hproposal] at hcall
          refine failed_answers h (fun hx => ?_) err hcall
          obtain ⟨term, now, hcommitted⟩ := hx.2 hrep
          rw [hproposal] at hcommitted
          cases hcommitted
    · next hrep =>
      have hcall : x.call quote s.spec s.replicated = some x.mutation.call := by
        simp only [Arrival.call, hcheck, hrep, Bool.false_eq_true, if_false]
      exact direct_answers h ⟨hcheck, fun hrep' => absurd hrep' hrep⟩ hcall

variable (quote quoteBytes) in
theorem after_tracks (h : Tracks spec replicated s rs) {xs : List Arrival} (hio : ∀ x ∈ xs, x.io = FsmIO.ok) :
    Tracks spec replicated (s.after quote quoteBytes xs) (xs.foldl (Arrival.append quote spec replicated) rs) := by
  induction xs generalizing s rs with
  | nil => exact h
  | cons x xs ih => exact ih (serve_tracks quote quoteBytes h (hio x (by simp))).tracks fun y hy => hio y (by simp [hy])

/-! ## The head of the log -/

theorem lastCommitPosition_holds {w : WAL} (h : Holds w rs) : w.lastCommitPosition = UInt64.ofNat rs.length := by
  rw [WAL.lastCommitPosition, h.next, UInt64.add_comm, UInt64.add_sub_cancel]

/-- **A successful answer** carries the head of the log it leaves, unless it is a remembered one of an older record. -/
theorem head_iff {c : Call} {out : Outcome} (hout : (answer rs c).1 = .ok out) :
    out.commitPosition = UInt64.ofNat (answer rs c).2.length ↔ ∀ out',
      (tablesOf rs).dedupHit c.record.idempotencyKey = some out' → out'.commitPosition = UInt64.ofNat rs.length := by
  rcases answer_ok hout with ⟨hd, hsame⟩ | ⟨hd, rfl, hnew⟩
  · have hhit := Tables.decide_hit hd
    rw [hsame]
    constructor
    · intro h out' hhit'
      rw [hhit] at hhit'
      cases hhit'
      exact h
    · exact fun h => h out hhit
  · have hmiss := (Tables.decide_write_new hd).1
    refine iff_of_true ?_ fun out' hhit => ?_
    · show nextPosition rs = _
      rw [hnew, nextPosition, List.length_append, List.length_singleton, UInt64.ofNat_add, UInt64.add_comm]
      rfl
    · rw [hmiss] at hhit
      cases hhit

variable (quote spec replicated) in
theorem length_append_arrival (rs : List Record) (x : Arrival) :
    rs.length ≤ (x.append quote spec replicated rs).length ∧ (x.append quote spec replicated rs).length ≤ rs.length + 1 := by
  unfold Arrival.append
  split
  · omega
  · next c _ =>
    rcases answer_history rs c with hsame | ⟨-, hnew⟩
    · rw [hsame]
      omega
    · rw [hnew, List.length_append, List.length_singleton]
      omega

variable (quote spec replicated) in
theorem length_history (rs : List Record) (xs : List Arrival) :
    rs.length ≤ (xs.foldl (Arrival.append quote spec replicated) rs).length ∧
      (xs.foldl (Arrival.append quote spec replicated) rs).length ≤ rs.length + xs.length := by
  induction xs generalizing rs with
  | nil => exact ⟨le_rfl, le_rfl⟩
  | cons x xs ih =>
      obtain ⟨hlow, hhigh⟩ := length_append_arrival quote spec replicated rs x
      obtain ⟨hlow', hhigh'⟩ := ih (x.append quote spec replicated rs)
      rw [List.foldl_cons, List.length_cons]
      omega

end History

/-! ## After every success -/

/-- Behind the mutations `before` of `xs`, the mutation `x` gets the response. -/
def StateServer.Succeeds (quote : String → String) (quoteBytes : Bytes → String) (s : StateServer) (xs before : List Arrival)
    (x : Arrival) (resp : MutationResponse) : Prop :=
  (∃ after, xs = before ++ x :: after) ∧ ((s.after quote quoteBytes before).serve quote quoteBytes x).1 = .ok resp

/-- What the engine remembers of the idempotency key of the request is the head of its log. -/
def StateServer.RemembersHead (s : StateServer) (x : Arrival) : Prop :=
  ∀ out, s.engine.dedupHit x.mutation.idempotencyKey = some out → out.commitPosition = s.engine.log.lastCommitPosition

theorem after_snoc (quote : String → String) (quoteBytes : Bytes → String) (s : StateServer) (xs : List Arrival)
    (x : Arrival) : s.after quote quoteBytes (xs ++ [x]) = ((s.after quote quoteBytes xs).serve quote quoteBytes x).2 := by
  rw [StateServer.after, run_append]
  rfl

section Gauge
variable {quote : String → String} {quoteBytes : Bytes → String} {spec : NamespaceSpec} {replicated : Bool} {s : StateServer}
  {rs : List Record} {xs before : List Arrival} {x : Arrival} {resp : MutationResponse}

theorem Tracks.dedupHit (h : Tracks spec replicated s rs) (idem : Bytes) :
    s.engine.dedupHit idem = (tablesOf rs).dedupHit idem := congrArg (Tables.dedupHit · idem) h.tables

variable (quote quoteBytes) in
theorem Tracks.upTo (h : Tracks spec replicated s rs) (hio : ∀ x ∈ xs, x.io = FsmIO.ok) (hbefore : before <+: xs) :
    Tracks spec replicated (s.after quote quoteBytes before) (before.foldl (Arrival.append quote spec replicated) rs) :=
  after_tracks quote quoteBytes h fun y hy => hio y (hbefore.subset hy)

theorem prefix_of_succeeds (h : s.Succeeds quote quoteBytes xs before x resp) : before ++ [x] <+: xs := by
  obtain ⟨⟨rest, rfl⟩, -⟩ := h
  exact ⟨rest, by simp⟩

/-- A success sets the gauge to the position of its response, and that is the head of the log unless it is the remembered
position of an older record. -/
theorem Tracks.succeeds (h : Tracks spec replicated s rs) (hio : ∀ x ∈ xs, x.io = FsmIO.ok)
    (hresp : s.Succeeds quote quoteBytes xs before x resp) :
    x.Answered quote spec replicated ∧ (s.after quote quoteBytes (before ++ [x])).gauge = some resp.commitPosition ∧
      ((s.after quote quoteBytes (before ++ [x])).engine.log.lastCommitPosition = resp.commitPosition ↔
        (s.after quote quoteBytes before).RemembersHead x) := by
  have hpre := prefix_of_succeeds hresp
  have hbefore : before <+: xs := (List.prefix_append before [x]).trans hpre
  have hx : x ∈ xs := hpre.subset (by simp)
  have hupTo := h.upTo quote quoteBytes hio hbefore
  have hserve := serve_tracks quote quoteBytes hupTo (hio x hx)
  obtain ⟨hanswered, c, out, hcall, hout, hposition, hgauge⟩ := hserve.success resp hresp.2
  have htracks := hserve.tracks
  rw [append_call hcall] at htracks
  rw [after_snoc, hgauge, lastCommitPosition_holds htracks.holds, hposition]
  refine ⟨hanswered, rfl, eq_comm.trans ((head_iff hout).trans ?_)⟩
  unfold StateServer.RemembersHead
  rw [hupTo.dedupHit, lastCommitPosition_holds hupTo.holds, Arrival.call_key _ _ _ hcall]

variable (quoteBytes) in
theorem Tracks.remembered (h : Tracks spec replicated s rs) (hio : x.io = FsmIO.ok) (hx : x.Answered quote spec replicated)
    {out : Outcome} (hhit : s.engine.dedupHit x.mutation.idempotencyKey = some out) :
    ∃ resp, (s.serve quote quoteBytes x).1 = .ok resp := by
  have hserve := serve_tracks quote quoteBytes h hio
  obtain ⟨c, hcall⟩ : ∃ c, x.call quote spec replicated = some c := by
    unfold Arrival.call
    rw [hx.1]
    cases replicated with
    | false => exact ⟨_, rfl⟩
    | true =>
        obtain ⟨term, now, hproposal⟩ := hx.2 rfl
        rw [hproposal]
        exact ⟨_, rfl⟩
  refine hserve.succeeds hx c out hcall ?_
  rw [h.dedupHit, ← Arrival.call_key _ _ _ hcall] at hhit
  rw [answer, Tables.decide, hhit]

theorem head_mono (h : Tracks spec replicated s rs) (hio : ∀ x ∈ xs, x.io = FsmIO.ok) (hlen : rs.length + xs.length < 2 ^ 63)
    {before' : List Arrival} (hle : before <+: before') (hbefore' : before' <+: xs) :
    (s.after quote quoteBytes before).engine.log.lastCommitPosition ≤
      (s.after quote quoteBytes before').engine.log.lastCommitPosition := by
  have hhead := lastCommitPosition_holds (h.upTo quote quoteBytes hio (hle.trans hbefore')).holds
  have hhead' := lastCommitPosition_holds (h.upTo quote quoteBytes hio hbefore').holds
  have hbound := (length_history quote spec replicated rs before').2
  have hshort := hbefore'.length_le
  obtain ⟨more, rfl⟩ := hle
  have hgrows := (length_history quote spec replicated (before.foldl (Arrival.append quote spec replicated) rs) more).1
  rw [← List.foldl_append] at hgrows
  have hsize : (2 : Nat) ^ 63 < UInt64.size := by decide
  rw [hhead, hhead', UInt64.le_iff_toNat_le, UInt64.toNat_ofNat_of_lt' (by omega), UInt64.toNat_ofNat_of_lt' (by omega)]
  exact hgrows

end Gauge

/-- The gauge shows the head of the log after every success. -/
def StateServer.ReportsHead (quote : String → String) (quoteBytes : Bytes → String) (s : StateServer) (xs : List Arrival) :
    Prop :=
  ∀ before x resp, s.Succeeds quote quoteBytes xs before x resp →
    (s.after quote quoteBytes (before ++ [x])).gauge =
      some (s.after quote quoteBytes (before ++ [x])).engine.log.lastCommitPosition

/-- **The commit-position gauge** of a server with metrics, over any sequence of mutations without faults, on a node with or
without replication: it shows the head of the log after every success exactly when, before every request that comes to be
answered, the position that the engine remembers of its idempotency key is the head of the log, if it remembers one; and then no
success passes a smaller position than an earlier one. -/
theorem gauge_head_iff (quote : String → String) (quoteBytes : Bytes → String) (s : StateServer) (rs : List Record)
    (hmetrics : s.metrics.isSome) (hholds : Holds s.engine.log rs) (htables : s.engine.toTables = tablesOf rs)
    (xs : List Arrival) (hio : ∀ x ∈ xs, x.io = FsmIO.ok) (hlen : rs.length + xs.length < 2 ^ 63) :
    (s.ReportsHead quote quoteBytes xs ↔ ∀ before x after, xs = before ++ x :: after →
        x.Answered quote s.spec s.replicated → (s.after quote quoteBytes before).RemembersHead x) ∧
      (s.ReportsHead quote quoteBytes xs → ∀ before x resp before' x' resp', s.Succeeds quote quoteBytes xs before x resp →
        s.Succeeds quote quoteBytes xs before' x' resp' → before.length ≤ before'.length →
        resp.commitPosition ≤ resp'.commitPosition) := by
  have h : Tracks s.spec s.replicated s rs := ⟨rfl, rfl, hmetrics, hholds, htables⟩
  refine ⟨⟨fun hreports before x after hxs hx => ?_, fun hremembers before x resp hresp => ?_⟩, ?_⟩
  · intro out hhit
    -- the request gets the remembered position for its answer
    have hbefore : before <+: xs := by rw [hxs]; exact List.prefix_append _ _
    have hupTo := h.upTo quote quoteBytes hio hbefore
    obtain ⟨resp, hok⟩ := hupTo.remembered quoteBytes (hio x (by rw [hxs]; simp)) hx hhit
    have hresp : s.Succeeds quote quoteBytes xs before x resp := ⟨⟨after, hxs⟩, hok⟩
    obtain ⟨-, hgauge, hhead⟩ := h.succeeds hio hresp
    rw [hreports before x resp hresp, Option.some_inj] at hgauge
    exact hhead.mp hgauge out hhit
  · obtain ⟨hx, hgauge, hhead⟩ := h.succeeds hio hresp
    obtain ⟨after, hxs⟩ := hresp.1
    rw [hgauge, hhead.mpr (hremembers before x after hxs hx)]
  · intro hreports before x resp before' x' resp' hresp hresp' hle
    -- both positions are heads of the log, the first of an earlier one
    have hposition : ∀ {ys y resp}, s.Succeeds quote quoteBytes xs ys y resp →
        resp.commitPosition = (s.after quote quoteBytes (ys ++ [y])).engine.log.lastCommitPosition := by
      intro ys y resp hys
      have hgauge := (h.succeeds hio hys).2.1
      rw [hreports ys y resp hys] at hgauge
      exact (Option.some.inj hgauge).symm
    have hearlier : before ++ [x] <+: before' ++ [x'] := by
      apply List.prefix_of_prefix_length_le (prefix_of_succeeds hresp) (prefix_of_succeeds hresp')
      rw [List.length_append, List.length_append, List.length_singleton, List.length_singleton]
      omega
    rw [hposition hresp, hposition hresp']
    exact head_mono h hio hlen hearlier (prefix_of_succeeds hresp')

/-- A new node without replication. -/
def newServer : StateServer := ⟨fresh, ⟨"ns", "local"⟩, some Metrics.new, false⟩

/-- A put of `key` with the idempotency key `idem`. -/
def putArrival (key idem : Bytes) : Arrival :=
  ⟨.put ⟨"ns", key, [0x76], 0, idem⟩ 0, .failed "" none, FsmIO.ok⟩

/-- A put and its retry. -/
theorem gauge_head_first :
    newServer.ReportsHead (fun s => s) (fun _ => "") [putArrival [0x61] [0x31], putArrival [0x61] [0x31]] := by
  refine (gauge_head_iff (fun s => s) (fun _ => "") newServer [] rfl freshWAL_holds rfl _ (by simp [putArrival])
    (by simp)).1.mpr ?_
  intro before x after hxs _ out hhit
  obtain ⟨rfl, hx⟩ | ⟨before, rfl, hrest⟩ := List.cons_eq_append_iff.mp hxs
  · cases hx
    cases hhit
  · obtain ⟨rfl, hx⟩ | ⟨before, rfl, hrest⟩ := List.cons_eq_append_iff.mp hrest
    · cases hx
      have hout : some (⟨1, 1, true⟩ : Outcome) = some out := hhit
      cases hout
      rfl
    · exact absurd hrest (by simp)

/-- The retry of an older put. -/
def retried : List Arrival := [putArrival [0x61] [0x31], putArrival [0x62] [0x32]]

theorem gauge_goes_back : ∃ resp, newServer.Succeeds (fun s => s) (fun _ => "") (retried ++ [putArrival [0x61] [0x31]]) retried
      (putArrival [0x61] [0x31]) resp ∧ resp.deduplicated = true ∧
    (newServer.after (fun s => s) (fun _ => "") retried).gauge = some 2 ∧
    (newServer.after (fun s => s) (fun _ => "") (retried ++ [putArrival [0x61] [0x31]])).gauge = some 1 ∧
    (newServer.after (fun s => s) (fun _ => "") (retried ++ [putArrival [0x61] [0x31]])).engine.log.lastCommitPosition = 2 :=
  ⟨⟨"ns", 0, 0, 1, "local", true, 1⟩, ⟨⟨[], rfl⟩, rfl⟩, rfl, rfl, rfl, rfl⟩

end Uddp

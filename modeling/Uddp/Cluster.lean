import Uddp.Api.Servers
import Uddp.Engine.Recovery
import Uddp.Resp.Server

/-!
# A cluster of replicated nodes

The nodes share a raft log. Each applies it to its own engine, at its own pace, while clients talk to its native and
admin API and to its RESP listener, which works on the engine itself.

* `Cluster`, `Action`, `Cluster.step` : the cluster and what can happen in it;
* `Driven` : every engine is what its part of the log makes of an empty one;
* `Cluster.Agree` : nodes that have applied equally much hold the same;
* **`raft_driven`** : as long as no RESP command writes, the nodes agree, and the next action parts two of them exactly
  when it is such a write on a node that has applied as much as another.
-/

namespace Uddp
open Uddp.Lib Uddp.Wal

variable {ι κ : Type*}

/-- A node: its engine, the number of log entries its FSM has applied, and its RESP connections. -/
structure Node (κ : Type*) where
  engine : Engine
  applied : Nat
  conns : κ → Resp.Task

/-- The cluster: the raft log as far as it is committed, and the nodes. -/
structure Cluster (ι κ : Type*) where
  log : List RaftLog
  node : ι → Node κ

inductive Action (ι κ : Type*)
  /-- A request to an API of node `i`. When it is proposed, `term` is what comes of it: the term of the log entry, or
  none when raft turns it down. -/
  | request (i : ι) (req : Request) (term : Option UInt64)
  /-- A connection of node `i` reads its next command. -/
  | command (i : ι) (c : κ) (cmd : Resp.Command)
  /-- A connection of node `i` makes its next engine call. -/
  | engineCall (i : ι) (c : κ) (now : Time)
  /-- The FSM of node `i` applies its next log entry. -/
  | apply (i : ι)

def Node.start : Node κ := ⟨fresh, 0, fun _ => .done (.simpleString (utf8 "PONG"))⟩

/-- All nodes are new. -/
def Cluster.start : Cluster ι κ := ⟨[], fun _ => Node.start⟩

section Steps
variable [DecidableEq ι] [DecidableEq κ]

def Cluster.setNode (s : Cluster ι κ) (i : ι) (n : Node κ) : Cluster ι κ := { s with node := Function.update s.node i n }

/-- What a handler of node `i` does. -/
def Cluster.enact (s : Cluster ι κ) (i : ι) (term : Option UInt64) : Handling → Cluster ι κ
  | .refuse _ => s
  | .propose cmd =>
      match term with
      | none => s
      | some term => { s with log := s.log ++ [⟨.ok cmd, term⟩] }
  | .call c => s.setNode i { s.node i with engine := (c.run (s.node i).engine AppendIO.ok).2 }
  | .reset => s.setNode i { s.node i with engine := ((s.node i).engine.reset ResetIO.ok).2 }
  | .load entries =>
      s.setNode i { s.node i with
        engine := (putEntries ((s.node i).engine.reset ResetIO.ok).2 (fun _ => AppendIO.ok) 0 entries).2 }

variable (quote : String → String) (spec : ι → NamespaceSpec) (clock : Nat → Time)

/-- One action; `clock k` is the reading of the clock when the `k`-th log entry is applied, on every node. -/
def Cluster.step (s : Cluster ι κ) : Action ι κ → Option (Cluster ι κ)
  | .request i req term => some (s.enact i term (req.handle quote (spec i) true))
  | .command i c cmd =>
      match (s.node i).conns c with
      | .done _ => some (s.setNode i { s.node i with conns := Function.update (s.node i).conns c (Resp.start cmd) })
      | _ => none
  | .engineCall i c now =>
      let r := ((s.node i).conns c).step (s.node i).engine now AppendIO.ok
      some (s.setNode i { s.node i with engine := r.2, conns := Function.update (s.node i).conns c r.1 })
  | .apply i =>
      match s.log[(s.node i).applied]? with
      | none => none
      | some log =>
          some (s.setNode i { s.node i with
            engine := (Fsm.apply (s.node i).engine (clock (s.node i).applied) FsmIO.ok log).2
            applied := (s.node i).applied + 1 })

end Steps

/-! ## Agreement -/

/-- Nodes that have applied equally much of the log hold the same. -/
def Cluster.Agree (s : Cluster ι κ) : Prop :=
  ∀ i j, (s.node i).applied = (s.node j).applied → SameState (s.node i).engine (s.node j).engine

/-- A RESP command of node `i` is about to write. -/
def RespWrite (s : Cluster ι κ) (i : ι) : Action ι κ → Prop
  | .engineCall i' c _ => i' = i ∧ ((s.node i).conns c).Writes
  | .request _ _ _ | .command _ _ _ | .apply _ => False

theorem RespWrite.engineCall {s : Cluster ι κ} {i : ι} {a : Action ι κ} (h : RespWrite s i a) :
    ∃ c now, a = .engineCall i c now ∧ ((s.node i).conns c).Writes := by
  cases a with
  | engineCall i' c now =>
      obtain ⟨rfl, hwrites⟩ := h
      exact ⟨c, now, rfl, hwrites⟩
  | request i' req term => exact h.elim
  | command i' c cmd => exact h.elim
  | apply i' => exact h.elim

/-- A RESP command is about to write on a node that has applied as much of the log as another. -/
def Parts (s : Cluster ι κ) (a : Action ι κ) : Prop :=
  ∃ i j, i ≠ j ∧ (s.node i).applied = (s.node j).applied ∧ RespWrite s i a

/-! ## Engines that the log has made -/

/-- The entries of the log as they are delivered. -/
def deliveries (clock : Nat → Time) (log : List RaftLog) : List Delivery := log.mapIdx fun k entry => ⟨entry, clock k⟩

/-- The history that the first `n` entries of the log make of an empty engine. -/
def replayed (clock : Nat → Time) (log : List RaftLog) (n : Nat) : List Record :=
  (run deliver [] ((deliveries clock log).take n)).2

theorem replayed_append (clock : Nat → Time) {log : List RaftLog} (more : List RaftLog) {n : Nat} (hn : n ≤ log.length) :
    replayed clock (log ++ more) n = replayed clock log n := by
  unfold replayed deliveries
  rw [List.mapIdx_append, List.take_append_of_le_length (by rw [List.length_mapIdx]; exact hn)]

theorem replayed_succ (clock : Nat → Time) {log : List RaftLog} {n : Nat} {entry : RaftLog} (hn : log[n]? = some entry) :
    replayed clock log (n + 1) = (deliver (replayed clock log n) ⟨entry, clock n⟩).2 := by
  have hget : (deliveries clock log)[n]? = some ⟨entry, clock n⟩ := by
    rw [deliveries, List.getElem?_mapIdx, hn, Option.map_some]
  unfold replayed
  rw [List.take_add_one, hget, Option.toList_some, run_append]
  rfl

/-- The engine of the node is what its part of the log has made of an empty one. -/
structure DrivenNode (clock : Nat → Time) (log : List RaftLog) (n : Node κ) : Prop where
  applied : n.applied ≤ log.length
  represents : Represents n.engine (replayed clock log n.applied)

theorem DrivenNode.apply {clock : Nat → Time} {log : List RaftLog} {n : Node κ} (h : DrivenNode clock log n)
    {entry : RaftLog} (hentry : log[n.applied]? = some entry) : DrivenNode clock log { n with
      engine := (Fsm.apply n.engine (clock n.applied) FsmIO.ok entry).2
      applied := n.applied + 1 } := by
  refine ⟨(List.getElem?_eq_some_iff.mp hentry).1, ?_⟩
  show Represents (Fsm.step n.engine ⟨entry, clock n.applied⟩).2 (replayed clock log (n.applied + 1))
  rw [replayed_succ clock hentry]
  exact (step_delivers h.represents _).2

def Driven (clock : Nat → Time) (s : Cluster ι κ) : Prop := ∀ i, DrivenNode clock s.log (s.node i)

theorem driven_start (clock : Nat → Time) : Driven clock (Cluster.start : Cluster ι κ) :=
  fun _ => ⟨Nat.le_refl 0, represents_fresh⟩

theorem Driven.agree {clock : Nat → Time} {s : Cluster ι κ} (h : Driven clock s) : s.Agree := by
  intro i j happlied
  have hi := (h i).represents
  rw [happlied] at hi
  exact sameState_of_holds hi.holds hi.tables (h j).represents

/-! ## One action -/

section Invariant
variable [DecidableEq ι] {clock : Nat → Time} {s : Cluster ι κ}

theorem Driven.setNode (h : Driven clock s) {i : ι} {n : Node κ} (hn : DrivenNode clock s.log n) :
    Driven clock (s.setNode i n) := by
  intro j
  show DrivenNode clock s.log (Function.update s.node i n j)
  by_cases hj : j = i
  · rw [hj, Function.update_self]
    exact hn
  · rw [Function.update_of_ne hj]
    exact h j

theorem Driven.enact (h : Driven clock s) (i : ι) (term : Option UInt64) {handling : Handling}
    (hindirect : handling.Indirect) : Driven clock (s.enact i term handling) := by
  cases handling with
  | refuse _ => exact h
  | propose cmd =>
      cases term with
      | none => exact h
      | some term =>
          intro j
          have hle := (h j).applied
          refine ⟨hle.trans ?_, ?_⟩
          · show s.log.length ≤ (s.log ++ _).length
            rw [List.length_append]
            exact Nat.le_add_right _ _
          · show Represents (s.node j).engine (replayed clock (s.log ++ _) (s.node j).applied)
            rw [replayed_append clock _ hle]
            exact (h j).represents
  | call c => exact hindirect.elim
  | reset => exact hindirect.elim
  | load entries => exact hindirect.elim

/-- **One action.** Only a RESP command that writes does something to an engine that the log has not. -/
theorem step_driven [DecidableEq κ] {quote : String → String} {spec : ι → NamespaceSpec} {s' : Cluster ι κ} {a : Action ι κ}
    (h : Driven clock s) (hquiet : ∀ i, ¬RespWrite s i a) (hstep : s.step quote spec clock a = some s') :
    Driven clock s' := by
  cases a with
  | request i req term =>
      cases hstep
      exact h.enact i term (replicated_proposes quote (spec i) req)
  | command i c cmd =>
      simp only [Cluster.step] at hstep
      split at hstep
      · cases hstep
        exact h.setNode ⟨(h i).applied, (h i).represents⟩
      · cases hstep
  | engineCall i c now =>
      cases hstep
      have hreads : ¬((s.node i).conns c).Writes := fun hwrites => hquiet i ⟨rfl, hwrites⟩
      refine h.setNode ⟨(h i).applied, ?_⟩
      show Represents (((s.node i).conns c).step (s.node i).engine now AppendIO.ok).2 _
      rw [Resp.step_reads hreads]
      exact (h i).represents
  | apply i =>
      simp only [Cluster.step] at hstep
      split at hstep
      · cases hstep
      · next entry hentry =>
        cases hstep
        exact h.setNode ((h i).apply hentry)

end Invariant

/-! ## A RESP command that writes -/

theorem respStep_set (e : Engine) (key value : Bytes) (ttlSeconds : Int64) (now : Time) :
    ((Resp.Task.set key value ttlSeconds).step e now AppendIO.ok).2 = (step e (.put key value ttlSeconds [] now)).2 := by
  show _ = (e.put key value ttlSeconds [] now AppendIO.ok).2
  unfold Resp.Task.step
  dsimp only
  split <;> simp [*]

theorem respStep_delete (e : Engine) (key : Bytes) (keys : List Bytes) (deleted : Int64) (now : Time) :
    ((Resp.Task.delete key keys deleted).step e now AppendIO.ok).2 = (step e (.delete key [])).2 := by
  show _ = (e.delete key [] AppendIO.ok).2
  unfold Resp.Task.step
  dsimp only
  split <;> simp [*]

/-- A RESP command carries no idempotency key, so its write always takes a position. -/
theorem writes_next {e : Engine} {rs : List Record} (h : Represents e rs) {t : Resp.Task} (ht : t.Writes) (now : Time) :
    (t.step e now AppendIO.ok).2.log.next ≠ e.log.next := by
  have hwrite : ∀ c : Call, (∃ r, (answer rs c).2 = rs ++ [r]) → (step e c).2.log.next ≠ e.log.next := by
    rintro c ⟨r, hr⟩
    have hafter := (step_represents h c).2.holds.next
    rw [hr] at hafter
    rw [hafter, h.holds.next]
    exact nextPosition_snoc_ne rs r
  cases t with
  | set key value ttlSeconds =>
      rw [respStep_set]
      exact hwrite _ ⟨_, rfl⟩
  | delete key keys deleted =>
      rw [respStep_delete]
      exact hwrite _ ⟨_, rfl⟩
  | done r => exact ht.elim
  | get key => exact ht.elim
  | del keys deleted => exact ht.elim

section Parting
variable [DecidableEq ι] [DecidableEq κ] {clock : Nat → Time} {quote : String → String} {spec : ι → NamespaceSpec}
  {s s' : Cluster ι κ} {a : Action ι κ}

theorem not_agree_of_parts (h : Driven clock s) (hparts : Parts s a) (hstep : s.step quote spec clock a = some s') :
    ¬s'.Agree := by
  obtain ⟨i, j, hij, happlied, hwrite⟩ := hparts
  obtain ⟨c, now, rfl, hwrites⟩ := hwrite.engineCall
  cases hstep
  intro hagree
  have hnext := (hagree i j (by simpa [Cluster.setNode, hij.symm] using happlied)).next
  simp only [Cluster.setNode, Function.update_self, Function.update_of_ne hij.symm] at hnext
  rw [← (h.agree i j happlied).next] at hnext
  exact writes_next (h i).represents hwrites now hnext

theorem agree_of_not_parts (h : Driven clock s) (hparts : ¬Parts s a) (hstep : s.step quote spec clock a = some s') :
    s'.Agree := by
  by_cases hquiet : ∀ i, ¬RespWrite s i a
  · exact (step_driven h hquiet hstep).agree
  obtain ⟨i, hwrite⟩ := not_forall_not.mp hquiet
  -- no other node has applied as much as `i`, and the others are as before
  have halone : ∀ j, j ≠ i → (s.node j).applied ≠ (s.node i).applied :=
    fun j hj heq => hparts ⟨i, j, Ne.symm hj, heq.symm, hwrite⟩
  obtain ⟨c, now, rfl, -⟩ := hwrite.engineCall
  cases hstep
  intro p q happlied
  by_cases hp : p = i <;> by_cases hq : q = i
  · rw [hp, hq]
    exact ⟨rfl, rfl, rfl⟩
  · simp only [Cluster.setNode, hp, Function.update_self, Function.update_of_ne hq] at happlied
    exact absurd happlied.symm (halone q hq)
  · simp only [Cluster.setNode, hq, Function.update_self, Function.update_of_ne hp] at happlied
    exact absurd happlied (halone p hp)
  · simp only [Cluster.setNode, Function.update_of_ne hp, Function.update_of_ne hq] at happlied ⊢
    exact h.agree p q happlied

/-- **Raft drives the engines** as long as no RESP command writes: in every such run nodes that have applied equally
much hold the same index, dedup map and next position. The next action, whatever it is, keeps this up exactly when it
is not a write of a RESP command on a node that has applied as much as another. -/
theorem raft_driven (quote : String → String) (spec : ι → NamespaceSpec) (clock : Nat → Time) (as : List (Action ι κ))
    {s : Cluster ι κ} (hrun : runActions (Cluster.step quote spec clock) Cluster.start as = some s)
    (hquiet : Along (Cluster.step quote spec clock) (fun s a => ∀ i, ¬RespWrite s i a) Cluster.start as) :
    s.Agree ∧ ∀ a s', s.step quote spec clock a = some s' → (s'.Agree ↔ ¬Parts s a) := by
  have hdriven : Driven clock s :=
    runActions_along (fun _ _ _ h hquiet hstep => step_driven h hquiet hstep) (driven_start clock) hquiet hrun
  refine ⟨hdriven.agree, fun a s' hstep => ⟨fun hagree hparts => ?_, fun hparts => ?_⟩⟩
  · exact not_agree_of_parts hdriven hparts hstep hagree
  · exact agree_of_not_parts hdriven hparts hstep

end Parting

/-- The namespace of the nodes of the runs below. -/
def demoSpec : NamespaceSpec := ⟨"ns", "cache"⟩

/-- A client sets a key over the RESP listener of one of two nodes. -/
def respSet : List (Action Bool Unit) :=
  [.command false () ⟨utf8 "SET", [[107], [118]]⟩, .engineCall false () 0]

/-- Both nodes have applied the same, empty part of the log, and only one of them has the key. -/
theorem resp_set_disagrees : ∃ s : Cluster Bool Unit,
    runActions (Cluster.step id (fun _ => demoSpec) (fun _ => 0)) Cluster.start respSet = some s ∧
      (s.node false).applied = 0 ∧ (s.node true).applied = 0 ∧
      (s.node false).engine.get [107] 0 = some ([118], 1) ∧ (s.node true).engine.get [107] 0 = none ∧
      (s.node false).engine.log.next = 2 ∧ (s.node true).engine.log.next = 1 :=
  ⟨_, rfl, rfl, rfl, by decide +kernel, rfl, by decide +kernel, rfl⟩

/-- A put is proposed on one node and applied on both; then a client reads the key over RESP. -/
def proposedPut : List (Action Bool Unit) :=
  [.request false (.put ⟨"ns", [107], [118], 0, []⟩ 0) (some 1), .apply false, .apply true,
    .command true () ⟨utf8 "GET", [[107]]⟩, .engineCall true () 0]

/-- Both nodes have applied the put and hold the same. -/
theorem proposed_put_agrees : ∃ s : Cluster Bool Unit,
    runActions (Cluster.step id (fun _ => demoSpec) (fun _ => 0)) Cluster.start proposedPut = some s ∧
      (s.node false).applied = 1 ∧ (s.node true).applied = 1 ∧
      SameState (s.node false).engine (s.node true).engine := by
  have hquiet : Along (Cluster.step id (fun _ => demoSpec) (fun _ => 0)) (fun s a => ∀ i, ¬RespWrite s i a)
      Cluster.start proposedPut := by
    refine ⟨fun _ h => h, ?_⟩
    rintro _ ⟨⟩
    refine ⟨fun _ h => h, ?_⟩
    rintro _ ⟨⟩
    refine ⟨fun _ h => h, ?_⟩
    rintro _ ⟨⟩
    refine ⟨fun _ h => h, ?_⟩
    rintro _ ⟨⟩
    refine ⟨?_, fun _ _ => trivial⟩
    rintro _ ⟨rfl, hwrites⟩
    exact hwrites
  obtain ⟨s, hrun, hfirst, hsecond⟩ : ∃ s : Cluster Bool Unit,
      runActions (Cluster.step id (fun _ => demoSpec) (fun _ => 0)) Cluster.start proposedPut = some s ∧
        (s.node false).applied = 1 ∧ (s.node true).applied = 1 := ⟨_, rfl, rfl, rfl⟩
  exact ⟨s, hrun, hfirst, hsecond, (raft_driven id (fun _ => demoSpec) (fun _ => 0) proposedPut hrun hquiet).1 false true
    (hfirst.trans hsecond.symm)⟩

end Uddp

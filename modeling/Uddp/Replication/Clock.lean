import Uddp.Replication.Fsm

/-!
# Replicas with different clocks

Two replicas apply the same log, each by its own clock. Of all operations only the conditional write reads it, to find
out whether the entry it is compared with has expired.

* `ClockSensitive` : a conditional write that the two readings decide differently;
* **`clock_independence`** : the replicas agree exactly when no entry of the log is clock-sensitive where it comes.
-/

namespace Uddp
open Uddp.Lib Uddp.Wal

/-- An entry of the log, with the readings of the clocks of two replicas that apply it. -/
structure Reading where
  log : RaftLog
  now : Time
  now' : Time

def Reading.first (x : Reading) : Delivery := ⟨x.log, x.now⟩

def Reading.second (x : Reading) : Delivery := ⟨x.log, x.now'⟩

/-- A conditional write that is not a retry, on a key with an entry that has expired by one reading and not by the
other, where exactly one of the entry's version and zero is the version that it expects. -/
def ClockSensitive (t : Tables) (x : Reading) : Prop :=
  ∃ cmd, x.log.data = .ok cmd ∧ cmd.op = OpCompareAndSet ∧ t.dedupHit cmd.idempotencyKey = none ∧
    ∃ ent, t.index.lookup cmd.key = some ent ∧ expired ent x.now ≠ expired ent x.now' ∧
      (ent.version = cmd.expectedVersion ↔ ¬0 = cmd.expectedVersion)

/-! ## One entry -/

theorem admits_ne_iff (t : Tables) (key : Bytes) (expected : UInt64) (now now' : Time) :
    t.admits key (some (expected, now)) ≠ t.admits key (some (expected, now')) ↔
      ∃ ent, t.index.lookup key = some ent ∧ expired ent now ≠ expired ent now' ∧
        (ent.version = expected ↔ ¬0 = expected) := by
  unfold Tables.admits Tables.currentVersion
  cases hent : t.index.lookup key with
  | none => simp
  | some ent =>
      simp only [Option.some.injEq, exists_eq_left']
      rcases Bool.eq_false_or_eq_true (expired ent now) with hnow | hnow <;>
        rcases Bool.eq_false_or_eq_true (expired ent now') with hnow' | hnow' <;>
          simp only [hnow, hnow', ne_eq, decide_eq_decide, not_true_eq_false, false_and, if_true, Bool.false_eq_true,
            if_false, iff_self, Bool.true_eq_false, not_false_eq_true, true_and] <;> tauto

section Conditional
variable {rs : List Record} {c c' : Call} (hrecord : c.record = c'.record)
include hrecord

theorem answer_eq_of_admits (h : (tablesOf rs).dedupHit c.record.idempotencyKey = none →
    (tablesOf rs).admits c.record.key c.condition = (tablesOf rs).admits c.record.key c'.condition) :
    answer rs c = answer rs c' := by
  have hdecide : (tablesOf rs).decide c = (tablesOf rs).decide c' := by
    unfold Tables.decide
    rw [← hrecord]
    cases hhit : (tablesOf rs).dedupHit c.record.idempotencyKey with
    | some out => rfl
    | none => rw [h hhit]
  unfold answer
  rw [hdecide]

theorem answer_ne_of_admits (hhit : (tablesOf rs).dedupHit c.record.idempotencyKey = none)
    (h : (tablesOf rs).admits c.record.key c.condition ≠ (tablesOf rs).admits c.record.key c'.condition) :
    Fsm.pairOf (answer rs c).1 ≠ Fsm.pairOf (answer rs c').1 := by
  unfold answer Tables.decide
  rw [← hrecord, hhit]
  rcases Bool.eq_false_or_eq_true ((tablesOf rs).admits c.record.key c.condition) with hc | hc <;>
    rcases Bool.eq_false_or_eq_true ((tablesOf rs).admits c.record.key c'.condition) with hc' | hc' <;>
      simp [hc, hc', Fsm.pairOf] at h ⊢

end Conditional

theorem Command.effect_clock {cmd : Command} (h : cmd.op ≠ OpCompareAndSet) (now now' : Time) :
    cmd.effect now = cmd.effect now' := by
  unfold Command.effect
  rw [if_neg h, if_neg h]

/-- The conditional write that a command asks for. -/
def Command.conditional (cmd : Command) (now : Time) : Call :=
  .applyCompareAndSet cmd.key cmd.value cmd.expectedVersion cmd.expiresAtUnixNano cmd.idempotencyKey now

theorem Command.effect_compareAndSet {cmd : Command} (h : cmd.op = OpCompareAndSet) (now : Time) :
    cmd.effect now = .call (cmd.conditional now) := by
  unfold Command.effect
  rw [h]
  rfl

/-- An entry that is not clock-sensitive does the same on both replicas. -/
theorem deliver_insensitive {rs : List Record} {x : Reading} (h : ¬ClockSensitive (tablesOf rs) x) :
    deliver rs x.first = deliver rs x.second := by
  have heffect : answerEffect rs x.first.effect = answerEffect rs x.second.effect := by
    unfold Delivery.effect Reading.first Reading.second
    cases hdata : x.log.data with
    | error err => rfl
    | ok cmd =>
        show answerEffect rs (cmd.effect x.now) = answerEffect rs (cmd.effect x.now')
        by_cases hop : cmd.op = OpCompareAndSet
        · rw [Command.effect_compareAndSet hop, Command.effect_compareAndSet hop]
          refine congrArg Fsm.resultOf (answer_eq_of_admits rfl fun hhit => ?_)
          by_contra hne
          exact h ⟨cmd, hdata, hop, hhit, (admits_ne_iff _ _ _ _ _).mp hne⟩
        · rw [Command.effect_clock hop]
  unfold deliver
  rw [heffect]
  rfl

/-- A clock-sensitive entry commits on one replica and is a version mismatch on the other. -/
theorem deliver_sensitive {rs : List Record} {x : Reading} (h : ClockSensitive (tablesOf rs) x) :
    (deliver rs x.first).1 ≠ (deliver rs x.second).1 := by
  obtain ⟨cmd, hdata, hop, hhit, hent⟩ := h
  have hfirst : x.first.effect = cmd.effect x.now := by
    unfold Delivery.effect Reading.first
    rw [hdata]
  have hsecond : x.second.effect = cmd.effect x.now' := by
    unfold Delivery.effect Reading.second
    rw [hdata]
  intro heq
  rw [deliver, deliver, hfirst, hsecond, Command.effect_compareAndSet hop, Command.effect_compareAndSet hop] at heq
  injection heq with hout herr _
  have hrecord : (cmd.conditional x.now).record = (cmd.conditional x.now').record := rfl
  exact answer_ne_of_admits hrecord hhit ((admits_ne_iff _ _ _ _ _).mpr hent) (Prod.ext hout herr)

/-! ## Whole logs -/

theorem deliver_answers_iff (rs : List Record) (x : Reading) :
    (deliver rs x.first).1 = (deliver rs x.second).1 ↔ ¬ClockSensitive (tablesOf rs) x := by
  constructor
  · intro heq hsens
    exact deliver_sensitive hsens heq
  · intro h
    rw [deliver_insensitive h]

/-- **Two clocks.** Two replicas apply the same log from the empty engine, each by its own clock. They return the same
result for every entry and end with the same index, dedup map, positions and log exactly when no entry is
clock-sensitive in the state in which it comes. -/
theorem clock_independence (xs : List Reading) :
    ((run Fsm.step fresh (xs.map Reading.first)).1 = (run Fsm.step fresh (xs.map Reading.second)).1 ∧
        SameReplica (run Fsm.step fresh (xs.map Reading.first)).2 (run Fsm.step fresh (xs.map Reading.second)).2) ↔
      ∀ before x after, xs = before ++ x :: after →
        ¬ClockSensitive (run Fsm.step fresh (before.map Reading.first)).2.toTables x := by
  obtain ⟨hout, hlast⟩ := run_delivers represents_fresh (xs.map Reading.first)
  obtain ⟨hout', hlast'⟩ := run_delivers represents_fresh (xs.map Reading.second)
  have hpart : ∀ rs (x : Reading), (deliver rs x.first).1 = (deliver rs x.second).1 → deliver rs x.first = deliver rs x.second :=
    fun rs x h => deliver_insensitive ((deliver_answers_iff rs x).mp h)
  have hiff := run_answers_iff hpart [] xs
  have htables : ∀ before : List Reading, (run Fsm.step fresh (before.map Reading.first)).2.toTables =
      tablesOf (run (fun rs x => deliver rs (Reading.first x)) [] before).2 := by
    intro before
    rw [(run_delivers represents_fresh (before.map Reading.first)).2.tables, run_map]
  rw [run_map deliver] at hout hout' hlast hlast'
  rw [hout, hout']
  constructor
  · rintro ⟨hsame, -⟩ before x after hxs
    rw [htables]
    exact (deliver_answers_iff _ x).mp (hiff.mp hsame before x after hxs)
  · intro h
    have hsame := hiff.mpr fun before x after hxs =>
      (deliver_answers_iff _ x).mpr (htables before ▸ h before x after hxs)
    refine ⟨hsame, sameReplica_of_represents hlast ?_⟩
    rw [run_eq_of_answers hpart hsame]
    exact hlast'

/-- A put that expires at time 100 and a conditional write that expects its version; the second replica applies the
conditional write at time `late`. -/
def expiringPut (late : Time) : List Reading :=
  [⟨⟨.ok ⟨OpPut, [107], [118], 100, 0, [], []⟩, 1⟩, 50, 50⟩,
    ⟨⟨.ok ⟨OpCompareAndSet, [107], [119], 0, 1, [], []⟩, 1⟩, 50, late⟩]

/-- A follower that applies the conditional write after the expiry answers a version mismatch and keeps the old value,
where the leader has committed the new one. -/
theorem late_follower_disagrees :
    (run Fsm.step fresh ((expiringPut 200).map Reading.first)).1 =
        [⟨⟨1, 1, false⟩, none, 1⟩, ⟨⟨2, 2, false⟩, none, 1⟩] ∧
      (run Fsm.step fresh ((expiringPut 200).map Reading.second)).1 =
        [⟨⟨1, 1, false⟩, none, 1⟩, ⟨⟨0, 0, false⟩, some (.engine .versionMismatch), 1⟩] ∧
      (run Fsm.step fresh ((expiringPut 200).map Reading.first)).2.index.lookup [107] = some ⟨[119], 2, zeroTime⟩ ∧
      (run Fsm.step fresh ((expiringPut 200).map Reading.second)).2.index.lookup [107] = some ⟨[118], 1, 100⟩ := by
  obtain ⟨hout, hlast⟩ := run_delivers represents_fresh ((expiringPut 200).map Reading.first)
  obtain ⟨hout', hlast'⟩ := run_delivers represents_fresh ((expiringPut 200).map Reading.second)
  rw [hout, hout', hlast.tables, hlast'.tables]
  decide +kernel

/-- By the two clocks 50 and 60 the conditional write does the same. -/
theorem early_follower_agrees : SameReplica (run Fsm.step fresh ((expiringPut 60).map Reading.first)).2
    (run Fsm.step fresh ((expiringPut 60).map Reading.second)).2 := by
  refine ((clock_independence (expiringPut 60)).mpr ?_).2
  rintro before x after hxs ⟨cmd, hdata, hop, -, ent, hent, hexpired, -⟩
  rcases before with _ | ⟨a, _ | ⟨b, before⟩⟩
  · -- the put is not a conditional write
    obtain ⟨rfl, -⟩ := List.cons.inj hxs
    cases hdata
    exact absurd hop (by decide)
  · -- the entry expires at 100, after both readings
    obtain ⟨rfl, hrest⟩ := List.cons.inj hxs
    obtain ⟨rfl, -⟩ := List.cons.inj hrest
    cases hdata
    rw [(run_delivers represents_fresh _).2.tables] at hent
    obtain rfl : ⟨[118], 1, 100⟩ = ent := Option.some.inj ((by decide +kernel : _ = _).symm.trans hent)
    exact hexpired (by decide)
  · simp [expiringPut] at hxs

end Uddp

import Uddp.Engine.Recovery
import Uddp.Engine.Stream
import Uddp.Replication.Fsm

/-!
# Restarting a replicated node

A node keeps two logs, that of raft and that of its engine. When it starts again, `engine.Open` brings back the whole
state from the engine's log, and then raft delivers every entry once more from the first on: `FSM.Apply` does not know
how far the engine has come.

* `Delivery.Resets` : a wipe or a load, after which nothing is left of the state before;
* `Idle t d` : an entry that writes nothing in the state `t`;
* **`redelivery_harmless_iff`** : re-delivery is harmless after a stop exactly when the entries so far have a reset or
  are all idle in the state at the stop.
-/

namespace Uddp
open Uddp.Lib Uddp.Wal

/-! ## What one entry does to the history -/

/-- The entry is a wipe or a load of a snapshot. -/
def Delivery.Resets (d : Delivery) : Prop :=
  match d.effect with
  | .wipe | .load _ => True
  | .call _ | .invalid _ => False

instance (d : Delivery) : Decidable d.Resets := by
  unfold Delivery.Resets
  split <;> infer_instance

/-- The entry writes nothing in the state `t`: it is not a command at all, a retry whose outcome is remembered, or a
conditional write whose condition fails. -/
def Idle (t : Tables) (d : Delivery) : Prop :=
  match d.effect with
  | .call c => t.dedupHit c.record.idempotencyKey ≠ none ∨ t.admits c.record.key c.condition = false
  | .invalid _ => True
  | .wipe | .load _ => False

/-- The records that the entry may write fit their length fields. -/
def Delivery.Fits (d : Delivery) : Prop :=
  match d.effect with
  | .call c => c.Fits
  | .load entries => ∀ ent ∈ entries, ent.call.Fits
  | .wipe | .invalid _ => True

instance (d : Delivery) : Decidable d.Fits := by
  unfold Delivery.Fits
  split <;> infer_instance

theorem deliver_fits {rs : List Record} {d : Delivery} (hd : d.Fits) (h : ∀ r ∈ rs, Wal.Fits r) :
    ∀ r ∈ (deliver rs d).2, Wal.Fits r := by
  unfold Delivery.Fits at hd
  show ∀ r ∈ (answerEffect rs d.effect).2, Wal.Fits r
  cases heff : d.effect with
  | call c =>
      rw [heff] at hd
      exact answer_fits hd h
  | wipe =>
      intro r hr
      cases hr
  | load entries =>
      rw [heff] at hd
      refine run_answer_fits (fun c hc => ?_) (by simp)
      obtain ⟨ent, hent, rfl⟩ := List.mem_map.mp hc
      exact hd ent hent
  | invalid err => exact h

theorem run_deliver_fits {rs : List Record} {ds : List Delivery} (hds : ∀ d ∈ ds, d.Fits) (h : ∀ r ∈ rs, Wal.Fits r) :
    ∀ r ∈ (run deliver rs ds).2, Wal.Fits r :=
  run_invariant (P := Delivery.Fits) (I := fun rs => ∀ r ∈ rs, Wal.Fits r) (fun _ _ hd h => deliver_fits hd h) h hds

/-- After a reset the history before it does not matter. -/
theorem deliver_resets {d : Delivery} (hd : d.Resets) (rs rs' : List Record) :
    (deliver rs d).2 = (deliver rs' d).2 := by
  unfold Delivery.Resets at hd
  show (answerEffect rs d.effect).2 = (answerEffect rs' d.effect).2
  split at hd
  · next heff => rw [heff]; rfl
  · next heff => rw [heff]; rfl
  · exact hd.elim
  · exact hd.elim

theorem run_resets {ds : List Delivery} (hds : ∃ d ∈ ds, d.Resets) (rs rs' : List Record) :
    (run deliver rs ds).2 = (run deliver rs' ds).2 := by
  obtain ⟨d, hd, hreset⟩ := hds
  obtain ⟨before, after, rfl⟩ := List.append_of_mem hd
  rw [run_append, run_append, run_cons, run_cons, deliver_resets hreset _ (run deliver rs' before).2]

/-- An entry that is not a reset extends the history, and by nothing exactly when it is idle. -/
theorem deliver_extends {d : Delivery} (hd : ¬d.Resets) (rs : List Record) :
    ∃ new, (deliver rs d).2 = rs ++ new ∧ (new = [] ↔ Idle (tablesOf rs) d) := by
  unfold Delivery.Resets at hd
  unfold Idle
  show ∃ new, (answerEffect rs d.effect).2 = rs ++ new ∧ _
  cases heff : d.effect with
  | call c =>
      show ∃ new, (answer rs c).2 = rs ++ new ∧ _
      unfold answer Tables.decide
      cases hhit : (tablesOf rs).dedupHit c.record.idempotencyKey with
      | some out => exact ⟨[], by simp, by simp [hhit]⟩
      | none =>
          by_cases hadmits : (tablesOf rs).admits c.record.key c.condition = true
          · exact ⟨[stamp c.record (nextPosition rs)], by simp [hadmits], by simp [hhit, hadmits]⟩
          · exact ⟨[], by simp [hadmits], by simp [hadmits]⟩
  | invalid err => exact ⟨[], by simp [answerEffect], by simp⟩
  | wipe => simp [heff] at hd
  | load entries => simp [heff] at hd

/-! ## What a whole delivery does to it -/

section NoReset
variable {ds : List Delivery} (hds : ∀ d ∈ ds, ¬d.Resets)
include hds

theorem run_extends (rs : List Record) : rs <+: (run deliver rs ds).2 := by
  induction ds generalizing rs with
  | nil => exact List.prefix_refl rs
  | cons d ds ih =>
      obtain ⟨new, hnew, -⟩ := deliver_extends (hds d (by simp)) rs
      refine List.IsPrefix.trans ?_ (ih (fun x hx => hds x (by simp [hx])) (deliver rs d).2)
      rw [hnew]
      exact List.prefix_append rs new

/-- Without a reset a delivery leaves the history as it is exactly when every entry is idle in it. -/
theorem run_idle_iff (rs : List Record) : (run deliver rs ds).2 = rs ↔ ∀ d ∈ ds, Idle (tablesOf rs) d := by
  induction ds with
  | nil => simp
  | cons d ds ih =>
      obtain ⟨new, hnew, hidle⟩ := deliver_extends (hds d (by simp)) rs
      have hrest : ∀ x ∈ ds, ¬x.Resets := fun x hx => hds x (by simp [hx])
      rw [List.forall_mem_cons, ← hidle, ← ih hrest, run_cons]
      constructor
      · intro hsame
        -- the history only grows, so the first entry cannot have written anything
        have hgrow := run_extends hrest (deliver rs d).2
        rw [hsame, hnew] at hgrow
        have hnil : new = [] := by
          have hlen := hgrow.length_le
          rw [List.length_append] at hlen
          exact List.length_eq_zero_iff.mp (by omega)
        refine ⟨hnil, ?_⟩
        rw [hnew, hnil, List.append_nil] at hsame
        exact hsame
      · rintro ⟨rfl, hsame⟩
        rw [hnew, List.append_nil]
        exact hsame

end NoReset

theorem SameStream.length_le {e e' : Engine} (hsame : SameStream e e') {rs rs' : List Record} (h : Represents e rs)
    (h' : Represents e' rs') (hfit : ∀ r ∈ rs, Wal.Fits r) (hfit' : ∀ r ∈ rs', Wal.Fits r) : rs.length ≤ rs'.length := by
  have hfetch := hsame.fetch 1 rs.length
  unfold Engine.fetch at hfetch
  rw [readRange_holds h.holds hfit, readRange_holds h'.holds hfit'] at hfetch
  injection hfetch with hrecs
  have hlen := congrArg List.length hrecs
  simp only [List.length_map, List.length_take, Int.toNat_natCast, Nat.min_self] at hlen
  omega

/-! ## Restarting -/

/-- **Re-delivery.** A replica applies the entries `ds`, stops with all of them durable and starts again, and raft
delivers the log from its first entry on. Whatever follows in the log, the replica ends as one that has seen every
entry once, exactly when `ds` has a reset or every entry of `ds` is idle in the state at the stop. It also does when a
reset follows. -/
theorem redelivery_harmless_iff (ds : List Delivery) (hds : ∀ d ∈ ds, d.Fits) (f : File)
    (hstop : Crash (run Fsm.step fresh ds).2.log.out.file f) :
    ∃ e, (openEngine f).1 = .ok e ∧
      ((∀ later, SameStream (run Fsm.step e (ds ++ later)).2 (run Fsm.step fresh (ds ++ later)).2) ↔
        (∃ d ∈ ds, d.Resets) ∨ ∀ d ∈ ds, Idle (run Fsm.step fresh ds).2.toTables d) ∧
      ∀ later, (∃ d ∈ later, d.Resets) →
        SameStream (run Fsm.step e (ds ++ later)).2 (run Fsm.step fresh (ds ++ later)).2 := by
  have hat := (run_delivers represents_fresh ds).2
  have hfit : ∀ r ∈ (run deliver [] ds).2, Wal.Fits r := run_deliver_fits hds (by simp)
  obtain ⟨e, hopen, he⟩ := represents_crash_idle hat hfit hstop
  have hagain : ∀ later, Represents (run Fsm.step e (ds ++ later)).2
      (run deliver (run deliver (run deliver [] ds).2 ds).2 later).2 := by
    intro later
    have := (run_delivers he (ds ++ later)).2
    rwa [run_append deliver] at this
  have honce : ∀ later, Represents (run Fsm.step fresh (ds ++ later)).2 (run deliver (run deliver [] ds).2 later).2 := by
    intro later
    have := (run_delivers represents_fresh (ds ++ later)).2
    rwa [run_append deliver] at this
  refine ⟨e, hopen, ⟨fun hsame => ?_, fun hcases later => ?_⟩, fun later hreset => ?_⟩
  · by_cases hreset : ∃ d ∈ ds, d.Resets
    · exact Or.inl hreset
    · refine Or.inr ?_
      have hnone : ∀ d ∈ ds, ¬d.Resets := fun d hd hr => hreset ⟨d, hd, hr⟩
      rw [hat.tables, ← run_idle_iff hnone]
      have htwice : Represents (run Fsm.step e (ds ++ [])).2 (run deliver (run deliver [] ds).2 ds).2 := hagain []
      have hlen := (hsame []).length_le htwice (honce []) (run_deliver_fits hds hfit) hfit
      exact ((run_extends hnone _).eq_of_length_le hlen).symm
  · have hback : (run deliver (run deliver [] ds).2 ds).2 = (run deliver [] ds).2 := by
      rcases hcases with hreset | hidle
      · exact run_resets hreset _ _
      · by_cases hreset : ∃ d ∈ ds, d.Resets
        · exact run_resets hreset _ _
        · rw [hat.tables] at hidle
          exact (run_idle_iff (fun d hd hr => hreset ⟨d, hd, hr⟩) _).mpr hidle
    have hlater := hagain later
    rw [hback] at hlater
    exact (sameReplica_of_represents hlater (honce later)).toSameStream
  · have hlater := hagain later
    rw [run_resets hreset _ (run deliver [] ds).2] at hlater
    exact (sameReplica_of_represents hlater (honce later)).toSameStream

/-- One put without an idempotency key. -/
def onePut : List Delivery := [⟨⟨.ok ⟨OpPut, [107], [118], 0, 0, [], []⟩, 1⟩, 0⟩]

/-- After a restart the put is applied a second time: it gets a new version and a second change record. -/
theorem redelivered_put_twice : ∃ e, (run Fsm.step fresh onePut).2.restart = .ok e ∧
    (run Fsm.step e onePut).2.index.lookup [107] = some ⟨[118], 2, zeroTime⟩ ∧
    (run Fsm.step fresh onePut).2.index.lookup [107] = some ⟨[118], 1, zeroTime⟩ ∧
    (run Fsm.step e onePut).2.fetch 1 10 = .ok [⟨1, KindPut, [107], [118]⟩, ⟨2, KindPut, [107], [118]⟩] ∧
    (run Fsm.step fresh onePut).2.fetch 1 10 = .ok [⟨1, KindPut, [107], [118]⟩] := by
  have hat := (run_delivers represents_fresh onePut).2
  have hfits : ∀ d ∈ onePut, d.Fits := by decide +kernel
  have hfit : ∀ r ∈ (run deliver [] onePut).2, Wal.Fits r := run_deliver_fits hfits (by simp)
  obtain ⟨e, hrestart, he⟩ := restart_represents hat hfit
  have hagain := (run_delivers he onePut).2
  refine ⟨e, hrestart, ?_, ?_, ?_, ?_⟩
  · rw [hagain.tables]
    decide +kernel
  · rw [hat.tables]
    decide +kernel
  · unfold Engine.fetch
    rw [readRange_holds hagain.holds (run_deliver_fits hfits hfit)]
    decide +kernel
  · unfold Engine.fetch
    rw [readRange_holds hat.holds hfit]
    decide +kernel

/-- One put with an idempotency key. -/
def oneKeyedPut : List Delivery := [⟨⟨.ok ⟨OpPut, [107], [118], 0, 0, [49], []⟩, 1⟩, 0⟩]

/-- A put with an idempotency key is a retry when it is delivered again. -/
theorem redelivered_put_keyed : ∃ e,
    (openEngine (run Fsm.step fresh oneKeyedPut).2.log.out.file).1 = .ok e ∧
      ∀ later, SameStream (run Fsm.step e (oneKeyedPut ++ later)).2 (run Fsm.step fresh (oneKeyedPut ++ later)).2 := by
  have hat := (run_delivers represents_fresh oneKeyedPut).2
  have hstop : Crash (run Fsm.step fresh oneKeyedPut).2.log.out.file (run Fsm.step fresh oneKeyedPut).2.log.out.file :=
    ⟨List.prefix_refl _, File.synced_le _, le_rfl, hat.holds.opened⟩
  obtain ⟨e, hopen, hiff, -⟩ := redelivery_harmless_iff oneKeyedPut (by decide +kernel) _ hstop
  refine ⟨e, hopen, hiff.mpr (Or.inr fun d hd => ?_)⟩
  obtain rfl := List.mem_singleton.mp hd
  rw [hat.tables]
  exact Or.inl (by decide +kernel)

end Uddp

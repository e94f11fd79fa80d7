import Uddp.Engine.Lives

/-!
# Idempotency keys

* `dedupHit_tablesOf` : the map of remembered outcomes is the log's last record of each key, whether `commit` or `replay`
  filled it;
* `KeysOnce rs` : no two records have the same non-empty key, which every mutation and every cut keep;
* **`idempotency_key_once`** : at most one record for each key in every state of every life, and every mutation that
  carries the key answers with it.
-/

namespace Uddp
open Uddp.Lib Uddp.Wal

/-! ## Remembered outcomes -/

theorem lookup_dedup_replay (t : Tables) (r : Record) {idem : Bytes} (hidem : idem ≠ []) :
    (replay t r).dedup.lookup idem =
      if r.idempotencyKey = idem then some (outcomeAt r.commitPosition) else t.dedup.lookup idem := by
  unfold replay
  dsimp only
  by_cases hr : r.idempotencyKey = idem
  · rw [if_pos hr, if_pos (by rwa [hr]), hr, Finmap.lookup_insert]
  · rw [if_neg hr]
    split
    · rw [Finmap.lookup_insert_of_ne _ (Ne.symm hr)]
    · rfl

theorem dedupHit_tablesOf (rs : List Record) {idem : Bytes} (hidem : idem ≠ []) :
    (tablesOf rs).dedupHit idem =
      (lastOf Record.idempotencyKey idem rs).map (fun r => ⟨r.commitPosition, r.commitPosition, true⟩) := by
  have hlookup : (tablesOf rs).dedup.lookup idem =
      (lastOf Record.idempotencyKey idem rs).bind (fun r => some (outcomeAt r.commitPosition)) :=
    lookup_foldl (P := fun _ => True) (fun t : Tables => t.dedup.lookup idem)
      (fun t r _ => lookup_dedup_replay t r hidem) (fun _ _ => trivial) (Finmap.lookup_empty idem)
  unfold Tables.dedupHit
  rw [if_pos hidem, hlookup]
  cases lastOf Record.idempotencyKey idem rs with
  | none => rfl
  | some r => rfl

/-! ## One record for each key -/

def KeysOnce (rs : List Record) : Prop :=
  rs.Pairwise (fun r r' => r.idempotencyKey ≠ [] → r.idempotencyKey ≠ r'.idempotencyKey)

theorem answer_keysOnce (rs : List Record) (c : Call) (h : KeysOnce rs) : KeysOnce (answer rs c).2 := by
  rcases answer_history rs c with hsame | ⟨hd, hnew⟩
  · rw [hsame]
    exact h
  · rw [hnew]
    refine List.pairwise_append.mpr ⟨h, List.pairwise_singleton _ _, ?_⟩
    intro r hr r' hr' hne heq
    rw [List.mem_singleton.mp hr'] at heq
    have hkey : c.record.idempotencyKey = r.idempotencyKey := heq.symm
    -- the record would be a remembered one
    have hmiss := (Tables.decide_write_new hd).1
    rw [hkey, dedupHit_tablesOf rs hne, Option.map_eq_none_iff, lastOf_eq_none] at hmiss
    exact hmiss r hr rfl

theorem answer_keyed {rs : List Record} {c : Call} (hidem : c.record.idempotencyKey ≠ []) {out : Outcome}
    (hout : (answer rs c).1 = .ok out) : ∃ r ∈ (answer rs c).2, r.idempotencyKey = c.record.idempotencyKey ∧
      out.commitPosition = r.commitPosition ∧ out.version = r.commitPosition ∧ (out.deduplicated = true ↔ r ∈ rs) := by
  rcases answer_ok hout with ⟨hd, hsame⟩ | ⟨hd, rfl, hnew⟩
  · have hhit := Tables.decide_hit hd
    rw [dedupHit_tablesOf rs hidem] at hhit
    obtain ⟨r, hlast, rfl⟩ := Option.map_eq_some_iff.mp hhit
    obtain ⟨hr, hkey⟩ := mem_of_lastOf hlast
    rw [hsame]
    exact ⟨r, hr, hkey, rfl, rfl, iff_of_true rfl hr⟩
  · rw [hnew]
    refine ⟨stamp c.record (nextPosition rs), by simp, rfl, rfl, rfl, iff_of_false (by simp [outcomeAt]) ?_⟩
    intro hr
    have hmiss := (Tables.decide_write_new hd).1
    rw [dedupHit_tablesOf rs hidem, Option.map_eq_none_iff, lastOf_eq_none] at hmiss
    exact hmiss _ hr rfl

/-- What a mutation has just committed, or found in a log that is durable, no later life takes back. -/
theorem Keeps.committed {e e' : Engine} {rs : List Record} {n : Nat} (h : Keeps e rs n) {c : Call} (hc : c.Fits)
    (hkept : (answer rs c).2 ≠ rs ∨ e.log.out.file.synced = e.log.out.file.data.length) {later : List Event}
    (hfits : ∀ ev ∈ later, ev.Fits) (hrun : runActions Engine.after (step e c).2 later = some e') :
    (answer rs c).2 <+: e'.stream := by
  have hall : Keeps (step e c).2 (answer rs c).2 (answer rs c).2.length := by
    rcases hkept with hnew | hdurable
    · obtain ⟨n', hkeeps, -, ⟨hsame, -⟩ | rfl⟩ := h.call hc
      · exact absurd hsame hnew
      · exact hkeeps
    · obtain ⟨n', hkeeps, hevolves⟩ := (h.all hdurable).call hc
      exact hevolves.lasting trivial ▸ hkeeps
  obtain ⟨rs', n', hkeeps', hpre, -⟩ := run_keeps hall hfits hrun
  rwa [List.take_length, ← hkeeps'.stream] at hpre

/-- **Idempotency keys commit at most once.** In every state of every life, whatever crashes and restarts it has had:
no two records of the log have the same non-empty key; a mutation that succeeds with such a key answers with the position of
the record of that key, `Deduplicated` exactly if the log had it before the call; and what the call committed, or found in a
log that had been written out, stays in the log for good. Reopening never fails. -/
theorem idempotency_key_once (evs : List Event) (hfits : ∀ ev ∈ evs, ev.Fits) (e : Engine)
    (hrun : runActions Engine.after fresh evs = some e) :
    e.stream.Pairwise (fun r r' => r.idempotencyKey ≠ [] → r.idempotencyKey ≠ r'.idempotencyKey) ∧
    (∀ c : Call, c.Fits → c.record.idempotencyKey ≠ [] → ∀ out, (step e c).1 = .ok out →
      ∃ r ∈ (step e c).2.stream, r.idempotencyKey = c.record.idempotencyKey ∧
        out.commitPosition = r.commitPosition ∧ out.version = r.commitPosition ∧
        (out.deduplicated = true ↔ r ∈ e.stream) ∧
        (out.deduplicated = false ∨ e.log.out.file.synced = e.log.out.file.data.length →
          ∀ later : List Event, (∀ ev ∈ later, ev.Fits) → ∀ e',
            runActions Engine.after (step e c).2 later = some e' → r ∈ e'.stream)) ∧
    (∃ e', e.after .restart = some e') ∧
    ∀ (c : Call) (s : Stage) (f : File), c.Fits → Crash (e.inFlight c s) f → ∃ e', e.after (.crash c s f) = some e' := by
  obtain ⟨rs, n, hkeeps, honce⟩ := run_history (I := KeysOnce) answer_keysOnce
    (fun rs k h => h.sublist (List.take_sublist k rs)) keeps_fresh List.Pairwise.nil hfits hrun
  refine ⟨hkeeps.stream.symm ▸ honce, ?_, (after_total hkeeps).1, (after_total hkeeps).2⟩
  intro c hc hidem out hout
  obtain ⟨n', hafter, -⟩ := hkeeps.call hc
  rw [(step_holds hkeeps.holds hkeeps.tables c).1] at hout
  obtain ⟨r, hr, hkey, hpos, hversion, hdedup⟩ := answer_keyed hidem hout
  refine ⟨r, hafter.stream.symm ▸ hr, hkey, hpos, hversion, hkeeps.stream.symm ▸ hdedup, ?_⟩
  intro hkept later hlater e' hrun'
  refine (hkeeps.committed hc ?_ hlater hrun').subset hr
  rcases hkept with hnew | hdurable
  · left
    intro hsame
    rw [hdedup.mpr (hsame ▸ hr)] at hnew
    cases hnew
  · exact Or.inr hdurable

/-- A put with the key `i`. -/
def putKeyed : Call := .applyPut [0x6b] [0x76] 0 [0x69]

/-- The put is answered, and a delete with its key comes back with the position of the put. -/
theorem idempotency_key_once_retry : runActions Engine.after fresh [.call putKeyed] = some (step fresh putKeyed).2 ∧
    (step (step fresh putKeyed).2 (.delete [0x6b] [0x69])).1 = .ok ⟨1, 1, true⟩ ∧
    ∃ r ∈ (step (step fresh putKeyed).2 (.delete [0x6b] [0x69])).2.stream, r.idempotencyKey = [0x69] ∧
      1 = r.commitPosition ∧ (true = true ↔ r ∈ (step fresh putKeyed).2.stream) := by
  have hrun : runActions Engine.after fresh [.call putKeyed] = some (step fresh putKeyed).2 := rfl
  have hretry : (step (step fresh putKeyed).2 (.delete [0x6b] [0x69])).1 = .ok ⟨1, 1, true⟩ := by
    decide
  obtain ⟨r, hr, hkey, hpos, -, hdedup, -⟩ := (idempotency_key_once [.call putKeyed]
    (by decide) _ hrun).2.1 (.delete [0x6b] [0x69]) (by decide) (by decide) _ hretry
  exact ⟨hrun, hretry, r, hr, hkey, hpos, hdedup⟩

end Uddp

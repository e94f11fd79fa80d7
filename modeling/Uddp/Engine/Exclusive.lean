import Uddp.Engine.Lives

/-!
# Compare-and-set

* `lastOf_same_position` : positions are never used twice, so a key whose last record has kept its position has had no
  record since, whatever deletes, expiries and restarts there were;
* `currentVersion_get` : a conditional write and `Get` judge the expiry of an entry alike;
* **`compareAndSet_exclusive`** : the four guarantees, over lives whose restarts lose nothing.
-/

namespace Uddp
open Uddp.Lib Uddp.Wal

/-! ## Versions -/

theorem currentVersion_get (t : Tables) (key : Bytes) (now : Time) :
    t.currentVersion key now = (t.get key now).elim 0 Prod.snd := by
  unfold Tables.currentVersion Tables.get
  cases t.index.lookup key with
  | none => rfl
  | some ent =>
      by_cases hexp : expired ent now = true
      · simp [hexp]
      · simp [hexp]

theorem lastOf_of_get {rs : List Record} (hs : Sound rs) {key value : Bytes} {now : Time} {version : UInt64}
    (h : (tablesOf rs).get key now = some (value, version)) :
    ∃ r, lastOf Record.key key rs = some r ∧ r.commitPosition = version := by
  obtain ⟨r, hlast, -, hpos, -⟩ := (get_iff (lookup_tablesOf hs.kind key) now value version).mp h
  exact ⟨r, hlast, hpos⟩

theorem lastOf_of_currentVersion {rs : List Record} (hs : Sound rs) {key : Bytes} {now : Time} {version : UInt64}
    (h : (tablesOf rs).currentVersion key now = version) (hne : version ≠ 0) :
    ∃ r, lastOf Record.key key rs = some r ∧ r.commitPosition = version := by
  rw [currentVersion_get] at h
  cases hget : (tablesOf rs).get key now with
  | none =>
      rw [hget] at h
      exact absurd h.symm hne
  | some found =>
      rw [hget] at h
      obtain rfl : found.2 = version := h
      exact lastOf_of_get hs hget

/-- A key whose last record has kept its position has had no record since. -/
theorem lastOf_same_position {rs ys : List Record} (hst : Stamped 1 (rs ++ ys)) (hlen : (rs ++ ys).length < 2 ^ 63)
    {key : Bytes} {r r' : Record} (h : lastOf Record.key key rs = some r) (h' : lastOf Record.key key (rs ++ ys) = some r')
    (hpos : r.commitPosition = r'.commitPosition) : ∀ y ∈ ys, y.key ≠ key := by
  obtain ⟨l, m, hrs, -⟩ := lastOf_split h
  obtain ⟨l', m', hrs', hm'⟩ := lastOf_split h'
  have hall : l ++ r :: (m ++ ys) = l' ++ r' :: m' := by
    rw [← hrs', hrs]
    simp
  have hl : r.commitPosition.toNat = l.length + 1 := stamped_position hst hlen (by rw [hrs', ← hall]; simp)
  have hl' : r'.commitPosition.toNat = l'.length + 1 := stamped_position hst hlen (by rw [hrs']; simp)
  rw [hpos] at hl
  obtain ⟨-, htail⟩ := List.append_inj hall (by omega)
  injection htail with _ htail
  intro y hy
  exact hm' y (htail ▸ List.mem_append_right m hy)

theorem position_ne_zero {rs : List Record} (hst : Stamped 1 rs) (hlen : rs.length < 2 ^ 63) {r : Record} (hr : r ∈ rs) :
    r.commitPosition ≠ 0 := by
  intro h0
  obtain ⟨i, hi⟩ := List.getElem?_of_mem hr
  have hpos := stamped_position hst hlen hi
  rw [h0] at hpos
  exact absurd hpos (by simp)

/-! ## Conditional writes -/

/-- A success that is not a retry is a write. -/
theorem answer_written {rs : List Record} {c : Call} {out : Outcome} (h : (answer rs c).1 = .ok out)
    (hnew : out.deduplicated = false) : (tablesOf rs).decide c = .write c.record := by
  rcases answer_ok h with ⟨hd, -⟩ | ⟨hd, -⟩
  · rw [Tables.dedupHit_flag (Tables.decide_hit hd)] at hnew
    cases hnew
  · exact hd

theorem answer_condition {rs : List Record} {c : Call} {out : Outcome} (h : (answer rs c).1 = .ok out)
    (hnew : out.deduplicated = false) {version : UInt64} {now : Time} (hcond : c.condition = some (version, now)) :
    (tablesOf rs).currentVersion c.record.key now = version := by
  have hadmits := (Tables.decide_write_new (answer_written h hnew)).2
  rw [hcond] at hadmits
  exact of_decide_eq_true hadmits

/-- A conditional write that is not a retry succeeds exactly if its condition holds. -/
theorem answer_condition_iff {rs : List Record} {c : Call} {version : UInt64} {now : Time}
    (hcond : c.condition = some (version, now)) (hnew : (tablesOf rs).dedupHit c.record.idempotencyKey = none) :
    (∃ out, (answer rs c).1 = .ok out) ↔ (tablesOf rs).currentVersion c.record.key now = version := by
  unfold answer Tables.decide
  rw [hnew, hcond]
  by_cases hv : (tablesOf rs).currentVersion c.record.key now = version
  · simp [Tables.admits, hv]
  · simp [Tables.admits, hv]

theorem step_versionMismatch {e : Engine} {c : Call} (h : (step e c).1 = .error .versionMismatch) : (step e c).2 = e := by
  unfold step at h ⊢
  rw [Call.run_eq] at h ⊢
  cases hd : e.decide c with
  | hit out => rfl
  | conflict => rfl
  | write rec =>
      rw [hd] at h
      simp only [Engine.enact, Engine.write] at h
      split at h
      · cases h
      · cases h

/-! ## Exclusivity -/

/-- **Compare-and-set is exclusive.** In every state `e` of every life without a loss, whatever the clock readings:
if `Get` finds version `v` and a conditional write that expects `v` commits later, no other mutation of the key has
committed in between; after a conditional write that expected `v ≠ 0` has committed, no other that expects `v` does; one
that expects 0 and is no retry succeeds exactly if `Get`, with its reading of the clock, finds nothing; and one that fails
on the version changes nothing. -/
theorem compareAndSet_exclusive (evs : List Event) (hfits : ∀ ev ∈ evs, ev.Fits) (hlasting : ∀ ev ∈ evs, ev.Lasting)
    (e : Engine) (hrun : runActions Engine.after fresh evs = some e) :
    (∀ (key value : Bytes) (v : UInt64) (now : Time), e.get key now = some (value, v) →
      ∀ later : List Event, (∀ ev ∈ later, ev.Fits) → (∀ ev ∈ later, ev.Lasting) → ∀ e',
        runActions Engine.after e later = some e' → e'.log.byteOffsets.length < 2 ^ 63 →
        ∀ (c : Call) (now' : Time) (out : Outcome), c.record.key = key → c.condition = some (v, now') →
          (step e' c).1 = .ok out → out.deduplicated = false →
          e.stream <+: e'.stream ∧ ∀ r ∈ e'.stream.drop e.stream.length, r.key ≠ key) ∧
    (∀ (c : Call) (v : UInt64) (now : Time) (out : Outcome), c.Fits → c.condition = some (v, now) → v ≠ 0 →
      (step e c).1 = .ok out → out.deduplicated = false →
      ∀ later : List Event, (∀ ev ∈ later, ev.Fits) → (∀ ev ∈ later, ev.Lasting) → ∀ e',
        runActions Engine.after (step e c).2 later = some e' → e'.log.byteOffsets.length < 2 ^ 63 →
        ∀ (c' : Call) (now' : Time) (out' : Outcome), c'.record.key = c.record.key → c'.condition = some (v, now') →
          (step e' c').1 = .ok out' → out'.deduplicated = true) ∧
    (e.log.byteOffsets.length < 2 ^ 63 → ∀ (c : Call) (now : Time), c.condition = some (0, now) →
      e.dedupHit c.record.idempotencyKey = none →
      ((∃ out, (step e c).1 = .ok out) ↔ e.get c.record.key now = none)) ∧
    ∀ c : Call, (step e c).1 = .error .versionMismatch → (step e c).2 = e := by
  obtain ⟨rs, hrs, hsound, -⟩ := run_represents_lasting represents_fresh ⟨by simp, by simp⟩ hfits hlasting hrun
  refine ⟨?_, ?_, ?_, fun c h => step_versionMismatch h⟩
  · intro key value v now hget later hlfits hllasting e' hrun' hlen c now' out hkey hcond hout hnew
    obtain ⟨rs', hrs', hsound', ys, rfl⟩ := run_represents_lasting hrs hsound hlfits hllasting hrun'
    rw [hrs'.holds.byteOffsets, length_offsetsFrom] at hlen
    rw [hrs.tables] at hget
    rw [(step_represents hrs' c).1] at hout
    obtain ⟨r, hr, hv⟩ := lastOf_of_get hsound hget
    have hne : v ≠ 0 := hv ▸ position_ne_zero hrs'.holds.stamped hlen (List.mem_append_left ys (mem_of_lastOf hr).1)
    obtain ⟨r', hr', hv'⟩ := lastOf_of_currentVersion hsound' (answer_condition hout hnew hcond) hne
    rw [hkey] at hr'
    rw [hrs.stream hsound.fits, hrs'.stream hsound'.fits, List.drop_left]
    exact ⟨List.prefix_append rs ys, lastOf_same_position hrs'.holds.stamped hlen hr hr' (hv.trans hv'.symm)⟩
  · intro c v now out hc hcond hne hout hnew later hlfits hllasting e' hrun' hlen c' now' out' hkey hcond' hout'
    by_contra hnew'
    rw [(step_represents hrs c).1] at hout
    have hwrite := answer_written hout hnew
    obtain ⟨rs', hrs', hsound', hpre⟩ :=
      run_represents_lasting (step_represents hrs c).2 (answer_sound hc hsound) hlfits hllasting hrun'
    have hafter : (answer rs c).2 = rs ++ [stamp c.record (nextPosition rs)] := by
      unfold answer
      rw [hwrite]
    obtain ⟨ys, rfl⟩ := hpre
    rw [hafter, List.append_assoc] at hrs' hsound'
    rw [hrs'.holds.byteOffsets, length_offsetsFrom] at hlen
    rw [(step_represents hrs' c').1] at hout'
    obtain ⟨r, hr, hv⟩ := lastOf_of_currentVersion hsound (answer_condition hout hnew hcond) hne
    obtain ⟨r', hr', hv'⟩ :=
      lastOf_of_currentVersion hsound' (answer_condition hout' (Bool.eq_false_iff.mpr hnew') hcond') hne
    rw [hkey] at hr'
    -- the first of the two writes stands between the two records
    exact lastOf_same_position hrs'.holds.stamped hlen hr hr' (hv.trans hv'.symm)
      (stamp c.record (nextPosition rs)) (by simp) rfl
  · intro hlen c now hcond hnew
    rw [hrs.holds.byteOffsets, length_offsetsFrom] at hlen
    rw [(step_represents hrs c).1, hrs.tables]
    rw [hrs.tables] at hnew
    rw [answer_condition_iff hcond hnew, currentVersion_get]
    cases hget : (tablesOf rs).get c.record.key now with
    | none => exact iff_of_true rfl rfl
    | some found =>
        obtain ⟨r, hr, hv⟩ := lastOf_of_get hsound hget
        refine iff_of_false ?_ (by simp)
        rw [Option.elim_some, ← hv]
        exact position_ne_zero hrs.holds.stamped hlen (mem_of_lastOf hr).1

/-- A first put, and a conditional write that expects its version. -/
def putFirst : Call := .applyPut [0x6b] [0x76] 0 []

def setExpectingFirst : Call := .applyCompareAndSet [0x6b] [0x77] 1 0 [] 0

/-- `Get` finds version 1 and the conditional write commits; a second one expecting version 1 would not. -/
theorem compareAndSet_exclusive_first : runActions Engine.after fresh [.call putFirst] = some (step fresh putFirst).2 ∧
    (step fresh putFirst).2.get [0x6b] 0 = some ([0x76], 1) ∧
    (step (step fresh putFirst).2 setExpectingFirst).1 = .ok ⟨2, 2, false⟩ ∧
    (∀ r ∈ (step fresh putFirst).2.stream.drop (step fresh putFirst).2.stream.length, r.key ≠ [0x6b]) ∧
    ∀ out, (step (step (step fresh putFirst).2 setExpectingFirst).2 setExpectingFirst).1 = .ok out →
      out.deduplicated = true := by
  have hrun : runActions Engine.after fresh [.call putFirst] = some (step fresh putFirst).2 := rfl
  have hget : (step fresh putFirst).2.get [0x6b] 0 = some ([0x76], 1) := by decide
  have hset : (step (step fresh putFirst).2 setExpectingFirst).1 = .ok ⟨2, 2, false⟩ := by decide
  obtain ⟨hbetween, honce, -, -⟩ := compareAndSet_exclusive [.call putFirst] (by decide) (by decide) _ hrun
  refine ⟨hrun, hget, hset, ?_, ?_⟩
  · exact (hbetween [0x6b] [0x76] 1 0 hget [] (by simp) (by simp) _ rfl (by decide) setExpectingFirst 0 _ rfl rfl hset rfl).2
  · intro out hout
    exact honce setExpectingFirst 1 0 _ (by decide) rfl (by decide) hset rfl [] (by simp) (by simp) _ rfl (by decide)
      setExpectingFirst 0 out rfl rfl hout

end Uddp

import Uddp.Lib.Machine
import Uddp.Streaming.Offsets

/-!
# Committed offsets only move forward

Commits of any groups, with any faults, and crashes at any point of one, in any order and number.

* `Tracked` : a store, with the last offset that each group has had acknowledged and the number of bytes that the last
  `streaming.Open` has replayed. These need not be durable: `wal.Open` makes nothing durable;
* `Floor g v d rs` : every part of the log that has its first `d` records holds `v` or more for the group `g`;
* `Kept` : the invariant. What was acknowledged is a floor from the durable records on, what is in memory is one from the
  durable and the replayed records on;
* **`offsets_forward`** : no acknowledged offset is ever lost, and no reported one as long as no crash comes while
  replayed records are not durable. `replayed_offset_lost` : the run of a crash that does.
-/

namespace Uddp.Streaming
open Uddp.Lib Uddp.Wal

/-! ## Runs -/

inductive OffsetEvent
  | commit (group : Bytes) (offset : UInt64) (io : AppendIO)
  /-- The process stops somewhere in the `Commit`, and `streaming.Open` finds the file `f`. -/
  | crash (group : Bytes) (offset : UInt64) (io : AppendIO) (f : File)

def OffsetEvent.Fits : OffsetEvent → Prop
  | .commit group offset _ => Wal.Fits (offsetRecord group offset)
  | .crash group offset _ _ => Wal.Fits (offsetRecord group offset)

structure Tracked where
  store : OffsetStore
  acked : Bytes → Option UInt64
  opened : Nat

namespace Tracked

def start : Tracked := ⟨.fresh, fun _ => none, headerSize⟩

/-- The state after an event, if the event can happen. -/
def after (t : Tracked) : OffsetEvent → Option Tracked
  | .commit group offset io =>
      let r := t.store.commit group offset io
      some { t with store := r.2
                    acked := if r.1.2 = none then Function.update t.acked group (some offset) else t.acked }
  | .crash group offset io f =>
      if Stops t.store group offset io f then
        match openOffsets f with
        | (.ok s, f') => some { t with store := s, opened := f'.data.length }
        | (.error _, _) => none
      else none

/-- All that `streaming.Open` has replayed is durable. -/
def Settled (t : Tracked) : Prop := t.opened ≤ t.store.log.out.file.synced

/-- The event is not a crash before the replayed records are durable. -/
def Safe (t : Tracked) : OffsetEvent → Prop
  | .commit _ _ _ => True
  | .crash _ _ _ _ => t.Settled

end Tracked

/-! ## Floors -/

theorem le_refl_offset (v : Option UInt64) : v ≤ v := by
  cases v with
  | none => exact Option.none_le
  | some v => exact Option.some_le_some.mpr (UInt64.le_refl v)

theorem le_trans_offset {u v w : Option UInt64} (h : u ≤ v) (h' : v ≤ w) : u ≤ w := by
  cases u with
  | none => exact Option.none_le
  | some u =>
      cases v with
      | none => exact absurd (Option.le_none.mp h) (by simp)
      | some v =>
          cases w with
          | none => exact absurd (Option.le_none.mp h') (by simp)
          | some w =>
              exact Option.some_le_some.mpr (UInt64.le_trans (Option.some_le_some.mp h) (Option.some_le_some.mp h'))

/-- Every part of the log that has its first `d` records holds `v` or more for `g`. -/
def Floor (g : Bytes) (v : Option UInt64) (d : Nat) (rs : List Record) : Prop := ∀ k, d ≤ k → v ≤ offsetIn g (rs.take k)

section Floors
variable {g : Bytes} {v : Option UInt64} {d : Nat} {rs : List Record}

theorem Floor.last (h : Floor g v d rs) (hd : d ≤ rs.length) : v ≤ offsetIn g rs := by
  have hall := h rs.length hd
  rwa [List.take_length] at hall

theorem floor_of_le (h : v ≤ offsetIn g rs) (hd : rs.length ≤ d) : Floor g v d rs := by
  intro k hk
  rwa [List.take_of_length_le (hd.trans hk)]

theorem Floor.take (h : Floor g v d rs) {k : Nat} (hk : d ≤ k) : Floor g v d (rs.take k) := by
  intro j hj
  rw [List.take_take]
  exact h _ (le_min hj hk)

theorem Floor.snoc (h : Floor g v d rs) {r : Record} (hr : r.key = g → v ≤ some (uint64 r.value)) :
    Floor g v d (rs ++ [r]) := by
  intro k hk
  by_cases hle : k ≤ rs.length
  · rw [List.take_append_of_le_length hle]
    exact h k hk
  · have hwhole : (rs ++ [r]).take k = rs ++ [r] := by
      apply List.take_of_length_le
      rw [List.length_append, List.length_singleton]
      omega
    rw [hwhole, offsetIn_snoc]
    by_cases hg : r.key = g
    · rw [if_pos hg]
      exact hr hg
    · rw [if_neg hg]
      have hold := h k hk
      rwa [List.take_of_length_le (by omega)] at hold

end Floors

/-! ## The invariant -/

/-- The log of the store is at `rs`; its first `d` records are durable and its first `b` were replayed. -/
structure Kept (t : Tracked) (rs : List Record) (d b : Nat) : Prop where
  log : LogState t.store.log rs
  written : Written rs
  durable : d ≤ rs.length ∧ (logBytes (rs.take d)).length ≤ t.store.log.out.file.synced
  replayed : b ≤ rs.length ∧ t.opened = (logBytes (rs.take b)).length
  le : ∀ g, t.acked g ≤ t.store.fetch g
  acked : ∀ g, Floor g (t.acked g) d rs
  memory : ∀ g, Floor g (t.store.fetch g) (max d b) rs

theorem kept_start : Kept .start [] 0 0 := by
  refine ⟨.working freshWAL_holds, ⟨by simp, by simp⟩, ⟨le_rfl, le_rfl⟩, ⟨le_rfl, rfl⟩, ?_, ?_, ?_⟩
  · intro g
    exact Option.none_le
  · intro g k _
    exact Option.none_le
  · intro g k _
    show (∅ : Offsets).lookup g ≤ _
    rw [Finmap.lookup_empty]
    exact Option.none_le

section Steps
variable {t t' : Tracked} {rs : List Record} {d b : Nat}

/-- A floor stays one when a `Commit` that is not behind writes its record. -/
theorem Floor.commit {g g' : Bytes} {v : Option UInt64} {n : Nat} (h : Floor g' v n rs) {o : UInt64}
    (ho : g = g' → v ≤ some o) (position : UInt64) : Floor g' v n (rs ++ [stamp (offsetRecord g o) position]) := by
  refine h.snoc fun hkey => ?_
  show v ≤ some (uint64 (putUint64 o))
  rw [uint64_putUint64]
  exact ho hkey

/-- What a `Commit` that is not behind can leave in the log keeps the floors. -/
theorem Kept.grow (h : Kept t rs d b) {g : Bytes} {o : UInt64} (hfit : Fits (offsetRecord g o))
    (ahead : t.store.fetch g ≤ some o) {position : UInt64} {rs' : List Record}
    (left : rs' = rs ∨ rs' = rs ++ [stamp (offsetRecord g o) position]) :
    rs <+: rs' ∧ Written rs' ∧ (∀ g', Floor g' (t.acked g') d rs') ∧ ∀ g', Floor g' (t.store.fetch g') (max d b) rs' := by
  rcases left with rfl | rfl
  · exact ⟨List.prefix_rfl, h.written, h.acked, h.memory⟩
  · refine ⟨List.prefix_append _ _, h.written.snoc hfit _, fun g' => (h.acked g').commit ?_ _,
      fun g' => (h.memory g').commit ?_ _⟩
    · rintro rfl
      exact le_trans_offset (h.le g) ahead
    · rintro rfl
      exact ahead

theorem Kept.commit (h : Kept t rs d b) {g : Bytes} {o : UInt64} (hfit : Fits (offsetRecord g o)) {io : AppendIO}
    (hafter : t.after (.commit g o io) = some t') : ∃ rs' d', Kept t' rs' d' b := by
  have hcases := commit_cases h.log hfit io
  obtain rfl := Option.some.inj hafter
  generalize t.store.commit g o io = r at hcases
  obtain ⟨hd, hdurable⟩ := h.durable
  obtain ⟨hb, hopened⟩ := h.replayed
  cases hcases with
  | regression current behind => exact ⟨rs, d, h⟩
  | done s' ahead holds durable set =>
      obtain ⟨hpre, hwritten, -, hmemory⟩ := h.grow hfit ahead (Or.inr rfl)
      have hfetch : ∀ g', s'.fetch g' ≤ offsetIn g' (rs ++ [stamp (offsetRecord g o) t.store.log.next]) := by
        intro g'
        rw [fetch_insert set, offsetIn_snoc]
        by_cases hg : g = g'
        · rw [if_pos hg, if_pos (show (stamp (offsetRecord g o) t.store.log.next).key = g' from hg)]
          show some o ≤ some (uint64 (putUint64 o))
          rw [uint64_putUint64]
          exact le_refl_offset _
        · rw [if_neg hg, if_neg (show (stamp (offsetRecord g o) t.store.log.next).key ≠ g' from hg)]
          exact (h.memory g').last (max_le hd hb)
      have hle : ∀ g', Function.update t.acked g (some o) g' ≤ s'.fetch g' := by
        intro g'
        rw [fetch_insert set, Function.update_apply]
        by_cases hg : g = g'
        · rw [if_pos hg, if_pos hg.symm]
          exact le_refl_offset _
        · rw [if_neg hg, if_neg (Ne.symm hg)]
          exact h.le g'
      refine ⟨_, (rs ++ [stamp (offsetRecord g o) t.store.log.next]).length, .working holds, hwritten, ⟨le_rfl, ?_⟩,
        ⟨hb.trans hpre.length_le, ?_⟩, hle, fun g' => floor_of_le (le_trans_offset (hle g') (hfetch g')) le_rfl,
        fun g' => floor_of_le (hfetch g') (le_max_left _ _)⟩
      · rw [List.take_length, ← holds.data]
        exact durable.ge
      · rw [take_of_part hpre hb]
        exact hopened
  | failed s' e rs' ahead left log synced same =>
      obtain ⟨hpre, hwritten, hacked, hmemory⟩ := h.grow hfit ahead left
      have hfetch : ∀ g', s'.fetch g' = t.store.fetch g' := by
        intro g'
        unfold OffsetStore.fetch
        rw [same]
      refine ⟨rs', d, log, hwritten, ⟨hd.trans hpre.length_le, ?_⟩, ⟨hb.trans hpre.length_le, ?_⟩, fun g' => ?_, hacked,
        fun g' => ?_⟩
      · rw [take_of_part hpre hd]
        exact synced.ge.trans' hdurable
      · rw [take_of_part hpre hb]
        exact hopened
      · show t.acked g' ≤ s'.fetch g'
        rw [hfetch]
        exact h.le g'
      · show Floor g' (s'.fetch g') (max d b) rs'
        rw [hfetch]
        exact hmemory g'

theorem Kept.inFlight (h : Kept t rs d b) {g : Bytes} {o : UInt64} (hfit : Fits (offsetRecord g o)) (io : AppendIO) :
    ∃ rs', LogState (t.store.commit g o io).2.log rs' ∧
      (rs' = rs ∨ rs' = rs ++ [stamp (offsetRecord g o) t.store.log.next]) ∧ rs <+: rs' ∧ Written rs' ∧
      (∀ g', Floor g' (t.acked g') d rs') ∧ ∀ g', Floor g' (t.store.fetch g') (max d b) rs' := by
  have hcases := commit_cases h.log hfit io
  generalize t.store.commit g o io = r at hcases
  cases hcases with
  | regression current behind => exact ⟨rs, h.log, Or.inl rfl, List.prefix_rfl, h.written, h.acked, h.memory⟩
  | done s' ahead holds durable set => exact ⟨_, .working holds, Or.inr rfl, h.grow hfit ahead (Or.inr rfl)⟩
  | failed s' e rs' ahead left log synced same => exact ⟨rs', log, left, h.grow hfit ahead left⟩

/-- **One crash**: what was acknowledged is found again, and so is what was in memory if it had settled. -/
theorem Kept.crash (h : Kept t rs d b) {g : Bytes} {o : UInt64} (hfit : Fits (offsetRecord g o)) {io : AppendIO}
    {f : File} (hstop : Stops t.store g o io f) :
    ∃ s rs' b', openOffsets f = (.ok s, s.log.out.file) ∧
      Kept { t with store := s, opened := s.log.out.file.data.length } rs' d b' ∧
      (t.Settled → ∀ g', t.store.fetch g' ≤ s.fetch g') := by
  obtain ⟨rs', hlog, -, hpre, hwritten, hacked, hmemory⟩ := h.inFlight hfit io
  obtain ⟨hd, hdurable⟩ := h.durable
  obtain ⟨hb, hopened⟩ := h.replayed
  obtain ⟨k, s, hk, hopen, hholds, hfetch, hsync, hwhole⟩ := openOffsets_part hlog hwritten hstop.kept
    (((headerSize_le_logBytes _).trans hdurable).trans hstop.durable) hstop.reopened
  have hlen : (rs'.take k).length = k := by rw [List.length_take, Nat.min_eq_left hk]
  have hdk : d ≤ k := by
    apply (hwhole d (hd.trans hpre.length_le)).mp
    rw [take_of_part hpre hd]
    exact hdurable.trans hstop.durable
  refine ⟨s, rs'.take k, k, hopen, ⟨.working hholds, hwritten.take k, ⟨hlen.symm ▸ hdk, ?_⟩, ⟨hlen.ge, ?_⟩, fun g' => ?_,
    fun g' => (hacked g').take hdk, fun g' => ?_⟩, fun hsettled g' => ?_⟩
  · rw [List.take_take, Nat.min_eq_left hdk, hsync]
    refine le_min ?_ (length_logBytes_mono (List.take_prefix_take_left hdk))
    rw [take_of_part hpre hd]
    exact hdurable.trans hstop.synced
  · rw [List.take_take, Nat.min_self, ← hholds.data]
  · show t.acked g' ≤ s.fetch g'
    rw [hfetch]
    exact hacked g' k hdk
  · show Floor g' (s.fetch g') (max d k) _
    exact floor_of_le (hfetch g' ▸ le_refl_offset _) (hlen.le.trans (le_max_right d k))
  · -- the replayed records are durable, so the part that is left has them
    have hbk : b ≤ k := by
      apply (hwhole b (hb.trans hpre.length_le)).mp
      rw [take_of_part hpre hb, ← hopened]
      exact le_trans hsettled hstop.durable
    rw [hfetch]
    exact hmemory g' k (max_le hdk hbk)

theorem commit_data {s : OffsetStore} (h : LogState s.log rs) (g : Bytes) (o : UInt64) (io : AppendIO) :
    s.log.out.file.data <+: (s.commit g o io).2.log.out.file.data := by
  have hdata := h.append_data (offsetRecord g o) io
  unfold OffsetStore.commit
  split
  · exact List.prefix_rfl
  · split
    · next happ => rwa [happ] at hdata
    · next happ => rwa [happ] at hdata

/-- A `Commit` on its way has no influence on what a crash leaves of the other groups: what `streaming.Open` finds for them
it could have found without it. -/
theorem Kept.crash_other (h : Kept t rs d b) {g g' : Bytes} (hne : g' ≠ g) {o : UInt64} (hfit : Fits (offsetRecord g o))
    {io : AppendIO} {f : File} (hstop : Stops t.store g o io f) {s : OffsetStore} (hs : (openOffsets f).1 = .ok s) :
    ∃ f' s', Crash t.store.log.out.file f' ∧ (openOffsets f').1 = .ok s' ∧ s'.fetch g' = s.fetch g' := by
  obtain ⟨rs', hlog, hrs', hpre, hwritten, -, -⟩ := h.inFlight hfit io
  have hheader : headerSize ≤ t.store.log.out.file.synced := (headerSize_le_logBytes _).trans h.durable.2
  obtain ⟨k, s₁, hk, hopen, -, hfetch, -, hwhole⟩ := openOffsets_part hlog hwritten hstop.kept
    (hheader.trans hstop.durable) hstop.reopened
  obtain rfl : s₁ = s := by
    rw [hopen] at hs
    exact Except.ok.inj hs
  -- without the call the file ends where it ended before
  have hcrash := crash_truncate (commit_data h.log g o io) hstop.kept hstop.durable hstop.synced hstop.reopened
  obtain ⟨k', s', hk', hopen', -, hfetch', -, hwhole'⟩ := openOffsets_part h.log h.written hcrash.kept
    (hheader.trans hcrash.durable) hcrash.reopened
  have hrs : (logBytes rs).length ≤ t.store.log.out.file.data.length := by
    obtain ⟨tail, hdata, -⟩ := h.log.readable.data
    rw [hdata, List.length_append]
    exact Nat.le_add_right _ _
  have hcount : ∀ n ≤ rs.length, n ≤ k' ↔ n ≤ k := by
    intro n hn
    have hpart := (length_logBytes_mono (List.take_prefix n rs)).trans hrs
    have hlen : (f.truncate t.store.log.out.file.data.length).data.length =
        min t.store.log.out.file.data.length f.data.length := List.length_take
    rw [← hwhole' n hn, ← hwhole n (hn.trans hpre.length_le), take_of_part hpre hn, hlen]
    omega
  refine ⟨_, s', hcrash, by rw [hopen'], ?_⟩
  rw [hfetch', hfetch]
  by_cases hle : k ≤ rs.length
  · have hkk : k' = k := le_antisymm ((hcount k' hk').mp le_rfl) ((hcount k hle).mpr le_rfl)
    rw [hkk, take_of_part hpre hle]
  · -- the new record is whole, and it is of another group
    have hkk : k' = rs.length := le_antisymm hk' ((hcount rs.length le_rfl).mpr (by omega))
    rcases hrs' with rfl | rfl
    · exact absurd hk hle
    · rw [hkk, List.take_length, List.take_of_length_le (by rw [List.length_append, List.length_singleton]; omega),
        offsetIn_snoc, if_neg (show (stamp (offsetRecord g o) t.store.log.next).key ≠ g' from hne.symm)]

/-- A `Commit` moves the offset of its own group only, and not back. -/
theorem commit_fetch {s : OffsetStore} (h : LogState s.log rs) {g : Bytes} {o : UInt64} (hfit : Fits (offsetRecord g o))
    (io : AppendIO) (g' : Bytes) :
    s.fetch g' ≤ (s.commit g o io).2.fetch g' ∧ (g' ≠ g → (s.commit g o io).2.fetch g' = s.fetch g') := by
  have hcases := commit_cases h hfit io
  generalize s.commit g o io = r at hcases
  cases hcases with
  | regression current behind => exact ⟨le_refl_offset _, fun _ => rfl⟩
  | done s' ahead holds durable set =>
      show s.fetch g' ≤ s'.fetch g' ∧ (g' ≠ g → s'.fetch g' = s.fetch g')
      rw [fetch_insert set]
      by_cases hg : g = g'
      · rw [if_pos hg]
        exact ⟨hg ▸ ahead, fun hne => absurd hg.symm hne⟩
      · rw [if_neg hg]
        exact ⟨le_refl_offset _, fun _ => rfl⟩
  | failed s' e rs' ahead left log synced same =>
      have hfetch : s'.fetch g' = s.fetch g' := by
        unfold OffsetStore.fetch
        rw [same]
      exact ⟨hfetch ▸ le_refl_offset _, fun _ => hfetch⟩

theorem commit_regression (s : OffsetStore) (g : Bytes) (o : UInt64) (io : AppendIO)
    (h : (s.commit g o io).1.2 = some .offsetRegression) : (s.commit g o io).2 = s := by
  unfold OffsetStore.commit at h ⊢
  split at h
  · rfl
  · split at h
    · cases h
    · cases h

theorem Kept.after (h : Kept t rs d b) {ev : OffsetEvent} (hfits : ev.Fits) (hafter : t.after ev = some t') :
    (∃ rs' d' b', Kept t' rs' d' b') ∧ (t.Safe ev → ∀ g, t.store.fetch g ≤ t'.store.fetch g) := by
  cases ev with
  | commit g o io =>
      obtain ⟨rs', d', hkept⟩ := h.commit hfits hafter
      obtain rfl := Option.some.inj hafter
      exact ⟨⟨rs', d', b, hkept⟩, fun _ g' => (commit_fetch h.log hfits io g').1⟩
  | crash g o io f =>
      simp only [Tracked.after] at hafter
      split at hafter
      · next hstop =>
        obtain ⟨s, rs', b', hopen, hkept, hfetch⟩ := h.crash hfits hstop
        rw [hopen] at hafter
        obtain rfl := Option.some.inj hafter
        exact ⟨⟨rs', d, b', hkept⟩, hfetch⟩
      · cases hafter

end Steps

/-! ## Whole runs -/

section Runs
variable {t t' : Tracked} {evs : List OffsetEvent}

theorem run_kept (hfits : ∀ ev ∈ evs, ev.Fits) (hrun : runActions Tracked.after .start evs = some t) :
    ∃ rs d b, Kept t rs d b :=
  runActions_along (P := fun _ ev => ev.Fits) (I := fun t => ∃ rs d b, Kept t rs d b)
    (fun _ _ _ ⟨_, _, _, hkept⟩ hfit hafter => (hkept.after hfit hafter).1) ⟨[], 0, 0, kept_start⟩
    (along_of_mem hfits Tracked.start) hrun

theorem run_forward {rs : List Record} {d b : Nat} (h : Kept t rs d b) (hfits : ∀ ev ∈ evs, ev.Fits)
    (hsafe : Along Tracked.after Tracked.Safe t evs) (hrun : runActions Tracked.after t evs = some t') (g : Bytes) :
    t.store.fetch g ≤ t'.store.fetch g := by
  have hinv := runActions_along (P := fun t ev => OffsetEvent.Fits ev ∧ Tracked.Safe t ev)
    (I := fun u => (∃ rs d b, Kept u rs d b) ∧ t.store.fetch g ≤ u.store.fetch g) ?_ ⟨⟨rs, d, b, h⟩, le_refl_offset _⟩
    ((along_of_mem hfits t).and hsafe) hrun
  · exact hinv.2
  · rintro u ev u' ⟨⟨rs, d, b, hkept⟩, hle⟩ ⟨hfit, hev⟩ hafter
    obtain ⟨hkept', hforward⟩ := hkept.after hfit hafter
    exact ⟨hkept', le_trans_offset hle (hforward hev g)⟩

/-- **Committed offsets.** After any run of commits with faults and of crashes:
every acknowledged offset is still reported, or a later one is; a refused `Commit` changes nothing; any other moves the
offset of its own group only, and not back; `streaming.Open` succeeds after every crash, finds what was acknowledged and,
once the records that it has replayed before are durable, also what was reported; the `Commit` that was on its way has no
influence on the other groups; and no reported offset decreases along a run without a crash before that. -/
theorem offsets_forward (hfits : ∀ ev ∈ evs, ev.Fits) (hrun : runActions Tracked.after .start evs = some t) :
    (∀ g, t.acked g ≤ t.store.fetch g) ∧
    (∀ g o io, (t.store.commit g o io).1.2 = some .offsetRegression → (t.store.commit g o io).2 = t.store) ∧
    (∀ g o io, Fits (offsetRecord g o) → ∀ g', t.store.fetch g' ≤ (t.store.commit g o io).2.fetch g' ∧
      (g' ≠ g → (t.store.commit g o io).2.fetch g' = t.store.fetch g')) ∧
    (∀ g o io f, Fits (offsetRecord g o) → Stops t.store g o io f → ∃ s, (openOffsets f).1 = .ok s ∧
      ∀ g', t.acked g' ≤ s.fetch g' ∧ (t.Settled → t.store.fetch g' ≤ s.fetch g') ∧
        (g' ≠ g → ∃ f' s', Crash t.store.log.out.file f' ∧ (openOffsets f').1 = .ok s' ∧ s'.fetch g' = s.fetch g')) ∧
    ∀ more t', (∀ ev ∈ more, OffsetEvent.Fits ev) → Along Tracked.after Tracked.Safe t more →
      runActions Tracked.after t more = some t' → ∀ g, t.store.fetch g ≤ t'.store.fetch g := by
  obtain ⟨rs, d, b, hkept⟩ := run_kept hfits hrun
  refine ⟨hkept.le, fun g o io => commit_regression t.store g o io, fun g o io hfit => commit_fetch hkept.log hfit io, ?_,
    fun more t' hmore hsafe hrun' => run_forward hkept hmore hsafe hrun'⟩
  intro g o io f hfit hstop
  obtain ⟨s, rs', b', hopen, hkept', hforward⟩ := hkept.crash hfit hstop
  refine ⟨s, by rw [hopen], fun g' => ⟨hkept'.le g', fun hsettled => hforward hsettled g', fun hne => ?_⟩⟩
  exact hkept.crash_other hne hfit hstop (by rw [hopen])

end Runs

/-! ## A replayed offset that a second crash takes back -/

def workers : Bytes := [0x77]

def failedSync : AppendIO := { AppendIO.ok with sync := some "input/output error" }

/-- The first commit is acknowledged, the fsync of the second one fails. -/
def twoCommits : List OffsetEvent := [.commit workers 5 AppendIO.ok, .commit workers 10 failedSync]

def offset5 : Record := stamp (offsetRecord workers 5) 1

def offset10 : Record := stamp (offsetRecord workers 10) 2

/-- The file that a stop of the process leaves, and the one that a loss of power then leaves. -/
def stoppedFile : File :=
  ⟨logBytes [offset5, offset10], (logBytes [offset5]).length, false, length_logBytes_mono ⟨[offset10], rfl⟩⟩

def powerLostFile : File := ⟨logBytes [offset5], (logBytes [offset5]).length, false, le_rfl⟩

/-- A crash after an acknowledged commit. -/
theorem offsets_forward_commit : ∃ t, runActions Tracked.after .start [.commit workers 5 AppendIO.ok] = some t ∧
    t.acked workers = some 5 ∧ ∃ s, (openOffsets t.store.log.out.file).1 = .ok s ∧ t.store.fetch workers ≤ s.fetch workers := by
  have hfits : ∀ ev ∈ [OffsetEvent.commit workers 5 AppendIO.ok], ev.Fits := by
    intro ev hev
    rw [List.mem_singleton.mp hev]
    show Fits (offsetRecord workers 5)
    decide +kernel
  obtain ⟨t, ht⟩ : ∃ t, Tracked.start.after (.commit workers 5 AppendIO.ok) = some t := ⟨_, rfl⟩
  have hrun : runActions Tracked.after .start [.commit workers 5 AppendIO.ok] = some t := by
    rw [runActions_cons _ ht]
    rfl
  have hstop : Stops t.store workers 5 AppendIO.ok t.store.log.out.file ∧ t.Settled ∧ t.acked workers = some 5 := by
    obtain rfl := Option.some.inj ht
    unfold Tracked.Settled
    decide +kernel
  obtain ⟨s, hopen, hs⟩ :=
    (offsets_forward hfits hrun).2.2.2.1 workers 5 AppendIO.ok _ (hfits _ (List.mem_singleton.mpr rfl)) hstop.1
  exact ⟨t, hrun, hstop.2.2, s, hopen, (hs workers).2.1 hstop.2.1⟩

/-- **A reported offset that decreases.** The offset whose fsync failed is reported after a restart, and `Open` has not
made it durable: after a loss of power the group is back at the offset before it. -/
theorem replayed_offset_lost : ∃ t u v, runActions Tracked.after .start twoCommits = some t ∧
    t.after (.crash workers 10 AppendIO.ok stoppedFile) = some u ∧ u.store.fetch workers = some 10 ∧
    u.after (.crash workers 5 AppendIO.ok powerLostFile) = some v ∧ v.store.fetch workers = some 5 := by
  have hwritten : Written [offset5, offset10] := by
    constructor
    · decide +kernel
    · decide +kernel
  obtain ⟨t, ht⟩ : ∃ t, runActions Tracked.after .start twoCommits = some t := ⟨_, rfl⟩
  have hstop : Stops t.store workers 10 AppendIO.ok stoppedFile := by
    obtain rfl := Option.some.inj ht
    decide +kernel
  obtain ⟨s, hopen, -, hfile, hfetch⟩ := openOffsets_log (f := stoppedFile) hwritten ⟨rfl, rfl, trivial⟩ rfl rfl
  have h10 : s.fetch workers = some 10 := (hfetch workers).trans (by decide +kernel)
  -- the retry of the first commit is refused, so the file stays as it is
  have hrefused : (s.commit workers 5 AppendIO.ok).2 = s := by
    unfold OffsetStore.commit
    rw [show s.offsets.lookup workers = some 10 from h10]
    rfl
  have hstop' : Stops s workers 5 AppendIO.ok powerLostFile := by
    refine ⟨?_, ?_, ?_, rfl⟩
    · rw [hrefused, hfile]
      decide +kernel
    · rw [hfile]
      exact le_rfl
    · rw [hfile]
      exact le_rfl
  obtain ⟨s', hopen', -, -, hfetch'⟩ :=
    openOffsets_log (f := powerLostFile) (hwritten.take 1) ⟨rfl, trivial⟩ rfl rfl
  refine ⟨t, { t with store := s, opened := stoppedFile.data.length },
    { t with store := s', opened := powerLostFile.data.length }, ht, ?_, h10, ?_, (hfetch' workers).trans ?_⟩
  · simp only [Tracked.after]
    rw [if_pos hstop, hopen]
  · simp only [Tracked.after]
    rw [if_pos hstop', hopen']
  · decide +kernel

end Uddp.Streaming

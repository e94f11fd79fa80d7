import Uddp.Wal.GroupCommit

/-!
# Nobody waits in vain

* `Phase.round` : the sequence number up to which the leader's round goes;
* `Waits` : the mark `leading` is set exactly while a leader is at work, everything is settled when it is not, and a
  closed file has no leader. Every interleaving keeps it (`step_waits`);
* **`no_stranded_waiter`** : a follower that still waits has a leader; `Close` never takes the file from an fsync.

That a closed file has no leader rests on `bufio`: a caller that arrives after `Close` has bytes in the buffer when it
flushes, and a closed file takes none.
-/

namespace Uddp.Wal
open Uddp.Lib

/-- The sequence number up to which the round of a leader goes. -/
def Phase.round : Phase → Option Nat
  | .flushed _ _ flushSeq => some flushSeq
  | .syncing _ _ flushSeq _ => some flushSeq
  | .synced _ _ flushSeq _ => some flushSeq
  | _ => none

theorem Phase.leads_iff (p : Phase) : p.Leads ↔ ∃ n, p.round = some n := by
  cases p with
  | flushed position mySeq flushSeq => exact iff_of_true trivial ⟨flushSeq, rfl⟩
  | syncing position mySeq flushSeq begun => exact iff_of_true trivial ⟨flushSeq, rfl⟩
  | synced position mySeq flushSeq syncErr => exact iff_of_true trivial ⟨flushSeq, rfl⟩
  | _ => exact iff_of_false (fun h => h) (by simp [Phase.round])

variable {ι : Type}

/-- What the marks of the leader stand for, whenever the lock is free. -/
structure Waits (s : Group ι) : Prop where
  leader : s.w.leading = true → ∃ i, (s.phase i).Leads
  settled : s.w.leading = false → s.w.flushedSeq = s.w.pendingSeq
  ahead : ∀ i n, (s.phase i).round = some n → s.w.flushedSeq ≤ n
  closed : s.w.out.file.closed = true → s.w.leading = false

theorem start_waits {w₀ : WAL} {rs₀ : List Record} (h : Holds w₀ rs₀) : Waits (Group.start w₀ : Group ι) := by
  refine ⟨fun hl => ?_, fun _ => h.seq, fun i n hn => ?_, fun _ => h.quiet⟩
  · have hquiet : w₀.leading = true := hl
    rw [h.quiet] at hquiet
    cases hquiet
  · exact absurd hn (by simp [Group.start, Phase.round])

/-! ## A closed file -/

/-- A frame that a closed log has taken is in the buffer. -/
theorem buffer_closed {w : WAL} {rec : Record} {l b : WriteFault × WriteFault} {position : UInt64} {mySeq : Nat} {w' : WAL}
    (hbuf : w.buffer rec l b = (.ok (position, mySeq), w')) (hc : w.out.file.closed = true) : w'.out.buf ≠ [] := by
  obtain ⟨o, ho, ⟨e, -, hfail | hfail⟩ | ⟨he, hok⟩⟩ := w.buffer_spec rec l b
  · rw [hfail] at hbuf
    cases hbuf
  · rw [hfail] at hbuf
    cases hbuf
  · have hfile : (w.buffer rec l b).2.out.file = w.out.file := by
      have h₁ := w.out.write_closed (putUint32 (UInt32.ofNat (body (stamp rec w.next)).length)) l hc
      have h₂ := (w.out.write (putUint32 (UInt32.ofNat (body (stamp rec w.next)).length)) l).write_closed
        (body (stamp rec w.next)) b (by rw [h₁, hc])
      unfold WAL.buffer
      dsimp only
      split
      · exact h₁
      · split
        · exact h₂.trans h₁
        · exact h₂.trans h₁
    have hstream := ho.stream he
    rw [hok] at hfile hbuf
    have hout : w'.out = o := by
      injection hbuf with _ hw'
      rw [← hw']
    rw [show o.file = w.out.file from hfile, List.append_assoc] at hstream
    rw [hout, List.append_cancel_left hstream]
    simp [frame_ne_nil]

/-- A flush that a closed file lets through has nothing to write. -/
theorem flushRound_closed {w w' : WAL} {flush : WriteFault} (h : w.flushRound flush = (none, w'))
    (hc : w.out.file.closed = true) : w.out.buf = [] := by
  by_contra hb
  have herr := w.out.flush_closed_err flush hc hb
  unfold WAL.flushRound at h
  dsimp only at h
  split at h
  · cases h
  · next he => exact herr he

/-! ## One step -/

section Steps
variable [DecidableEq ι] {s s' : Group ι} {i : ι}

theorem Waits.move (h : Waits s) {p : Phase} (hround : p.round = (s.phase i).round) {w : WAL}
    {arrivals : List (ι × Record)} {syncs : List Nat} (hleading : w.leading = s.w.leading)
    (hflushed : w.flushedSeq = s.w.flushedSeq) (hpending : w.leading = false → w.pendingSeq = s.w.pendingSeq)
    (hclosed : w.out.file.closed = s.w.out.file.closed) :
    Waits (Group.goto ⟨w, s.phase, arrivals, syncs⟩ i p) := by
  have hsame : ∀ j, ((Group.goto ⟨w, s.phase, arrivals, syncs⟩ i p).phase j).round = (s.phase j).round := by
    intro j
    by_cases hj : j = i
    · rw [hj, goto_self, hround]
    · rw [goto_of_ne _ hj]
  refine ⟨fun hl => ?_, fun hl => ?_, fun j n hn => ?_, fun hc => ?_⟩
  · obtain ⟨j, hj⟩ := h.leader (hleading ▸ hl)
    obtain ⟨n, hn⟩ := (Phase.leads_iff _).mp hj
    exact ⟨j, (Phase.leads_iff _).mpr ⟨n, (hsame j).trans hn⟩⟩
  · have hl' : w.leading = false := hl
    show w.flushedSeq = w.pendingSeq
    rw [hflushed, hpending hl', h.settled (hleading ▸ hl')]
  · show w.flushedSeq ≤ n
    rw [hflushed]
    exact h.ahead j n ((hsame j).symm.trans hn)
  · show w.leading = false
    rw [hleading]
    exact h.closed (hclosed ▸ hc)

theorem waits_over {phase : ι → Phase} (hothers : ∀ j, j ≠ i → ¬ (phase j).Leads) {p : Phase} (hp : ¬ p.Leads) {w : WAL}
    (hleading : w.leading = false) (hsettled : w.flushedSeq = w.pendingSeq) {arrivals : List (ι × Record)}
    {syncs : List Nat} : Waits (Group.goto ⟨w, phase, arrivals, syncs⟩ i p) := by
  refine ⟨fun hl => ?_, fun _ => hsettled, fun j n hn => ?_, fun _ => hleading⟩
  · rw [show w.leading = true from hl] at hleading
    cases hleading
  · have hj := (Phase.leads_iff _).mpr ⟨n, hn⟩
    by_cases hne : j = i
    · rw [hne, goto_self] at hj
      exact absurd hj hp
    · rw [goto_of_ne _ hne] at hj
      exact absurd hj (hothers j hne)

theorem lead_waits (hleading : s.w.leading = true) (hle : s.w.flushedSeq ≤ s.w.pendingSeq)
    (hothers : ∀ j, j ≠ i → ¬ (s.phase j).Leads) (hclosed : s.w.out.file.closed = true → s.w.out.buf ≠ [])
    (position : UInt64) (mySeq : Nat) (flush : WriteFault) :
    Waits (s.lead i position mySeq flush) ∧ s.w.flushedSeq ≤ (s.lead i position mySeq flush).w.flushedSeq := by
  obtain ⟨o, ho, hcases⟩ := s.lead_spec i position mySeq flush
  rcases hcases with ⟨e, -, hlead⟩ | ⟨-, -, hflush, hlead⟩
  · rw [hlead]
    refine ⟨waits_over hothers ?_ rfl rfl, hle⟩
    exact fun h => h
  · rw [hlead]
    refine ⟨⟨fun _ => ⟨i, ?_⟩, fun hl => ?_, fun j n hn => ?_, fun hc => ?_⟩, le_rfl⟩
    · rw [goto_self]
      trivial
    · rw [show s.w.leading = false from hl] at hleading
      cases hleading
    · show s.w.flushedSeq ≤ n
      by_cases hne : j = i
      · rw [hne, goto_self] at hn
        exact Option.some.inj hn ▸ hle
      · rw [goto_of_ne _ hne] at hn
        exact absurd ((Phase.leads_iff _).mpr ⟨n, hn⟩) (hothers j hne)
    · have hc' : s.w.out.file.closed = true := ho.closed ▸ hc
      exact absurd (flushRound_closed hflush hc') (hclosed hc')

theorem enter_waits {w₀ : WAL} {rs₀ : List Record} (hinv : Inv w₀ rs₀ s) (h : Waits s) (hidle : s.phase i = .idle)
    (rec : Record) (l b : WriteFault × WriteFault) (flush : WriteFault) :
    Waits (s.enter i rec l b flush) ∧ s.w.flushedSeq ≤ (s.enter i rec l b flush).w.flushedSeq := by
  have hnone : (s.phase i).round = none := by rw [hidle]; rfl
  obtain ⟨o, ho, hcases⟩ := s.enter_spec i rec l b flush
  rcases hcases with ⟨e, -, henter⟩ | ⟨-, hbuf, hcases⟩
  · rw [henter]
    refine ⟨h.move ?_ rfl rfl (fun _ => rfl) ho.closed, le_rfl⟩
    exact hnone.symm
  · rcases hcases with ⟨hleading, henter⟩ | ⟨hleading, henter⟩
    · rw [henter]
      refine ⟨h.move ?_ rfl rfl (fun hl => ?_) ho.closed, le_rfl⟩
      · exact hnone.symm
      · rw [show s.w.leading = false from hl] at hleading
        cases hleading
    · have hpending : s.w.out.file.closed = true → (s.w.taken rec o).out.buf ≠ [] := buffer_closed hbuf
      rw [henter]
      refine lead_waits ?_ ?_ ?_ ?_ _ _ flush
      · rfl
      · exact Nat.le_succ_of_le hinv.log.flushed_le
      · exact fun j _ => hinv.quiet hleading j
      · exact fun hc => hpending (ho.closed ▸ hc)

theorem post_waits {w₀ : WAL} {rs₀ : List Record} (hinv : Inv w₀ rs₀ s) (h : Waits s) {position : UInt64}
    {mySeq flushSeq : Nat} {syncErr : Option String} (hi : s.phase i = .synced position mySeq flushSeq syncErr)
    (flush : WriteFault) : Waits (s.post i position mySeq flushSeq syncErr flush) ∧
      s.w.flushedSeq ≤ (s.post i position mySeq flushSeq syncErr flush).w.flushedSeq := by
  have hlead : (s.phase i).Leads := by rw [hi]; trivial
  have hothers := (hinv.alone hlead).1
  have hleading : s.w.leading = true := by
    by_contra hl
    exact hinv.quiet (by simpa using hl) i hlead
  have hok := hinv.phases i
  rw [hi] at hok
  have hpend : flushSeq ≤ s.w.pendingSeq := hok.2.2.1
  have hahead : s.w.flushedSeq ≤ flushSeq := h.ahead i flushSeq (by rw [hi]; rfl)
  rcases s.post_spec i position mySeq flushSeq syncErr flush with ⟨e, hpost⟩ | ⟨-, ⟨hall, hpost⟩ | hpost⟩
  · rw [hpost]
    refine ⟨waits_over hothers ?_ rfl rfl, hinv.log.flushed_le⟩
    exact fun h => h
  · rw [hpost]
    refine ⟨waits_over hothers ?_ rfl hall.symm, hahead⟩
    exact fun h => h
  · rw [hpost]
    -- the leader is at work, so the file is open
    have hopen : s.w.out.file.closed = true → s.w.out.buf ≠ [] := by
      intro hc
      rw [h.closed hc] at hleading
      cases hleading
    obtain ⟨hwaits, hmono⟩ := lead_waits (i := i) (s := Group.mk { s.w with flushedSeq := flushSeq, flushErr := none } s.phase
      s.arrivals s.syncs) hleading hpend hothers hopen position mySeq flush
    exact ⟨hwaits, hahead.trans hmono⟩

/-- **One step** keeps the marks right, and `flushedSeq` does not go back. -/
theorem step_waits {w₀ : WAL} {rs₀ : List Record} (hinv : Inv w₀ rs₀ s) (h : Waits s) {a : Action ι}
    (hstep : s.step a = some s') : Waits s' ∧ s.w.flushedSeq ≤ s'.w.flushedSeq := by
  cases a with
  | enter i rec l b flush =>
      obtain ⟨hidle, rfl⟩ := Group.step_enter hstep
      exact enter_waits hinv h hidle rec l b flush
  | syncBegin i =>
      obtain ⟨position, mySeq, flushSeq, hi, rfl⟩ := Group.step_syncBegin hstep
      exact ⟨h.move (by rw [hi]; rfl) rfl rfl (fun _ => rfl) rfl, le_rfl⟩
  | syncEnd i syncErr =>
      obtain ⟨position, mySeq, flushSeq, begun, hi, rfl⟩ := Group.step_syncEnd hstep
      rcases s.syncEnd_spec i position mySeq flushSeq begun syncErr with ⟨e, hsync⟩ | hsync
      · rw [hsync]
        exact ⟨h.move (by rw [hi]; rfl) rfl rfl (fun _ => rfl) rfl, le_rfl⟩
      · rw [hsync]
        exact ⟨h.move (by rw [hi]; rfl) rfl rfl (fun _ => rfl) rfl, le_rfl⟩
  | post i flush =>
      obtain ⟨position, mySeq, flushSeq, syncErr, hi, rfl⟩ := Group.step_post hstep
      exact post_waits hinv h hi flush
  | wake i =>
      obtain ⟨position, mySeq, hi, -, rfl⟩ := Group.step_wake hstep
      exact ⟨h.move (by rw [hi]; rfl) rfl rfl (fun _ => rfl) rfl, le_rfl⟩
  | readErr i =>
      obtain ⟨hi, rfl⟩ := Group.step_readErr hstep
      exact ⟨h.move (by rw [hi]; rfl) rfl rfl (fun _ => rfl) rfl, le_rfl⟩
  | close flush closeErr =>
      obtain ⟨hquiet, rfl⟩ := Group.step_close hstep
      obtain ⟨o, -, ⟨e, -, hclose⟩ | ⟨-, hclose⟩⟩ := s.w.close_spec flush closeErr
      · rw [hclose]
        exact ⟨⟨h.leader, h.settled, h.ahead, fun _ => hquiet⟩, le_rfl⟩
      · rw [hclose]
        exact ⟨⟨h.leader, h.settled, h.ahead, fun _ => hquiet⟩, le_rfl⟩

end Steps

/-- **No waiter is stranded.** In every state that any interleaving of `Append` and `Close` callers with any faults can
reach: there is at most one leader, and one exactly while `leading` is set; `flushedSeq` is at most `pendingSeq` and never
decreases; without a leader everything is settled, so that a follower that still waits has a leader; and once `Close` has
closed the file nobody is on the way to its fsync or in it. -/
theorem no_stranded_waiter [DecidableEq ι] {w₀ : WAL} {rs₀ : List Record} (h : Holds w₀ rs₀) (as : List (Action ι))
    {s : Group ι} (hrun : runActions Group.step (Group.start w₀) as = some s) :
    (∀ i j, (s.phase i).Leads → (s.phase j).Leads → i = j) ∧
    (s.w.leading = true ↔ ∃ i, (s.phase i).Leads) ∧
    s.w.flushedSeq ≤ s.w.pendingSeq ∧
    (∀ (later : List (Action ι)) (s' : Group ι), runActions Group.step s later = some s' → s.w.flushedSeq ≤ s'.w.flushedSeq) ∧
    (s.w.leading = false → s.w.flushedSeq = s.w.pendingSeq) ∧
    (∀ i position mySeq, s.phase i = .waiting position mySeq → s.w.flushedSeq < mySeq → ∃ j, (s.phase j).Leads) ∧
    (s.w.out.file.closed = true → ∀ i, ¬ (s.phase i).Leads) := by
  have hkept : ∀ (s : Group ι) a s', Inv w₀ rs₀ s ∧ Waits s → s.step a = some s' →
      (Inv w₀ rs₀ s' ∧ Waits s') ∧ s.w.flushedSeq ≤ s'.w.flushedSeq := fun s a s' hs hstep =>
    ⟨⟨step_inv hs.1 hstep, (step_waits hs.1 hs.2 hstep).1⟩, (step_waits hs.1 hs.2 hstep).2⟩
  obtain ⟨hinv, hwaits⟩ := runActions_invariant (I := fun s => Inv w₀ rs₀ s ∧ Waits s)
    (fun s a s' hs hstep => (hkept s a s' hs hstep).1) ⟨start_inv h, start_waits h⟩ hrun
  have hleader : ∀ i, (s.phase i).Leads → s.w.leading = true := by
    intro i hi
    by_contra hl
    exact hinv.quiet (by simpa using hl) i hi
  refine ⟨hinv.unique, ⟨hwaits.leader, fun ⟨i, hi⟩ => hleader i hi⟩, hinv.log.flushed_le, ?_, hwaits.settled, ?_, ?_⟩
  · intro later s' hlater
    exact runActions_monotone (fun s : Group ι => s.w.flushedSeq) hkept ⟨hinv, hwaits⟩ hlater
  · intro i position mySeq hi hlt
    refine hwaits.leader ?_
    by_contra hl
    have hsettled := hwaits.settled (by simpa using hl)
    have hown := hinv.phases i
    rw [hi] at hown
    obtain ⟨_, _, -, -, -, hle⟩ := hown
    omega
  · intro hc i hi
    have := hleader i hi
    rw [hwaits.closed hc] at this
    cases this

/-- A follower waits while the leader is in its first fsync. -/
theorem no_stranded_waiter_two : ∃ s : Group Bool,
    runActions Group.step (Group.start freshWAL) (twoCallers.take 3) = some s ∧
      s.phase true = .waiting 2 2 ∧ s.w.flushedSeq < 2 ∧ ∃ j, (s.phase j).Leads := by
  obtain ⟨s, hs, hwaiting, hseq⟩ : ∃ s : Group Bool,
      runActions Group.step (Group.start freshWAL) (twoCallers.take 3) = some s ∧
        s.phase true = .waiting 2 2 ∧ s.w.flushedSeq < 2 := ⟨_, rfl, rfl, by decide⟩
  exact ⟨s, hs, hwaiting, hseq,
    (no_stranded_waiter freshWAL_holds (twoCallers.take 3) hs).2.2.2.2.2.1 true 2 2 hwaiting hseq⟩

end Uddp.Wal

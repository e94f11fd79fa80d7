import Uddp.Wal.Cut
import Uddp.Wal.GroupCommit

/-!
# The offsets of a range

`ReadRange` compares `int(from - 1)` with the length of the index and then indexes with `from - 1`.

* `Counted k s` : the positions that have been taken, `k` of them before the callers came, are at least the entries of the
  index; `step_counted`, `run_counted`;
* `readRange_panics_iff` : the index is left exactly by a position beyond `2 ^ 63`, which the conversion makes negative;
* **`readRange_bounds`** : what every log that callers of `Append` and `Close` can reach does with any position.
-/

namespace Uddp.Wal
open Uddp.Lib

/-! ## One range -/

theorem readUpTo_ne_panic (limit : Nat) (position : UInt64) (r : Bytes) : (readUpTo limit position r).2 ≠ some .panic := by
  induction limit generalizing position r with
  | zero => simp [readUpTo]
  | succ limit ih =>
      rw [readUpTo]
      cases readRecord r with
      | eof => simp
      | torn => simp
      | corrupt e => simp
      | record rec n rest => exact ih (position + 1) rest

/-- The bound check, with the conversion of `from - 1` written out. -/
theorem readRange_guard {fromPos : UInt64} (h : 1 ≤ fromPos.toNat) (n : Nat) :
    (fromPos - 1).toInt64.toInt ≥ n ↔ fromPos.toNat ≤ 2 ^ 63 ∧ n + 1 ≤ fromPos.toNat := by
  have hsub : (fromPos - 1).toNat = fromPos.toNat - 1 :=
    UInt64.toNat_sub_of_le fromPos 1 (UInt64.le_iff_toNat_le.mpr h)
  have hlt := fromPos.toNat_lt
  rw [toInt_toInt64, hsub]
  split_ifs with hsmall <;> omega

theorem readRange_empty_of_low {w : WAL} {fromPos : UInt64} {limit : Int} (h : fromPos.toNat < 1 ∨ limit ≤ 0) :
    w.readRange fromPos limit = ([], none) := by
  refine if_pos ?_
  rcases h with h | h
  · exact Or.inl (UInt64.lt_iff_toNat_lt.mpr h)
  · exact Or.inr (Or.inr h)

/-- Behind the index nothing is found, as long as the conversion keeps the sign. -/
theorem readRange_beyond {w : WAL} {fromPos : UInt64} (hfrom : w.byteOffsets.length < fromPos.toNat)
    (hsmall : fromPos.toNat ≤ 2 ^ 63) (limit : Int) : w.readRange fromPos limit = ([], none) :=
  if_pos (Or.inr (Or.inl ((readRange_guard (by omega) _).mpr ⟨hsmall, hfrom⟩)))

/-- **Where the index is left.** -/
theorem readRange_panics_iff {w : WAL} (hlen : w.byteOffsets.length < 2 ^ 63) (fromPos : UInt64) (limit : Int) :
    (w.readRange fromPos limit).2 = some .panic ↔ 2 ^ 63 < fromPos.toNat ∧ 0 < limit := by
  by_cases hlow : fromPos.toNat < 1 ∨ limit ≤ 0
  · rw [readRange_empty_of_low hlow]
    constructor
    · intro h
      cases h
    · rintro ⟨hbig, hpos⟩
      omega
  obtain ⟨hone, hlimit⟩ := not_or.mp hlow
  have hsub : (fromPos - 1).toNat = fromPos.toNat - 1 :=
    UInt64.toNat_sub_of_le fromPos 1 (UInt64.le_iff_toNat_le.mpr (Nat.not_lt.mp hone))
  have hguard := readRange_guard (Nat.not_lt.mp hone) w.byteOffsets.length
  have hpass (h : ¬(fromPos.toNat ≤ 2 ^ 63 ∧ w.byteOffsets.length + 1 ≤ fromPos.toNat)) :
      ¬(fromPos < 1 ∨ (fromPos - 1).toInt64.toInt ≥ w.byteOffsets.length ∨ limit ≤ 0) := by
    rintro (h1 | h2 | h3)
    · exact hone (UInt64.lt_iff_toNat_lt.mp h1)
    · exact h (hguard.mp h2)
    · exact hlimit h3
  by_cases hbig : 2 ^ 63 < fromPos.toNat
  · have hout : w.readRange fromPos limit = ([], some .panic) := by
      unfold WAL.readRange
      rw [if_neg (hpass (by omega)), hsub, List.getElem?_eq_none (by omega)]
    rw [hout]
    exact ⟨fun _ => ⟨hbig, Int.not_le.mp hlimit⟩, fun _ => rfl⟩
  · refine ⟨fun h => ?_, fun h => absurd h.1 hbig⟩
    by_cases hin : fromPos.toNat - 1 < w.byteOffsets.length
    · unfold WAL.readRange at h
      rw [if_neg (hpass (by omega)), hsub, List.getElem?_eq_getElem hin] at h
      dsimp only at h
      split at h
      · cases h
      · exact absurd h (readUpTo_ne_panic _ _ _)
    · rw [readRange_beyond (by omega) (Nat.not_lt.mp hbig)] at h
      cases h

/-! ## Every log that can be reached -/

theorem recoverFrom_counted {σ : Type} {replay : σ → Record → Except String σ} {st : σ} {next : UInt64} {offset : Nat}
    {byteOffsets : List Nat} {r : Bytes} {found : Recovered σ}
    (h : recoverFrom replay st next offset byteOffsets r = .ok found) :
    ∃ k, found.next = next + UInt64.ofNat k ∧ found.byteOffsets.length = byteOffsets.length + k := by
  fun_induction recoverFrom replay st next offset byteOffsets r with
  | case1 st next offset byteOffsets r hr =>
      cases h
      exact ⟨0, (UInt64.add_zero next).symm, rfl⟩
  | case2 st next offset byteOffsets r hr =>
      cases h
      exact ⟨0, (UInt64.add_zero next).symm, rfl⟩
  | case3 st next offset byteOffsets r e hr => cases h
  | case4 st next offset byteOffsets r rec n rest hr hne => cases h
  | case5 st next offset byteOffsets r rec n rest hr hpos e he => cases h
  | case6 st next offset byteOffsets r rec n rest hr hpos st' hst ih =>
      obtain ⟨k, hnext, hlen⟩ := ih h
      refine ⟨k + 1, by rw [hnext, position_succ], ?_⟩
      rw [hlen, List.length_append, List.length_singleton]
      omega

theorem openFile_counted {σ : Type} {replay : σ → Record → Except String σ} {st st' : σ} {f f' : File} {w : WAL}
    (h : openFile replay st f = (.ok (st', w), f')) : w.next = 1 + UInt64.ofNat w.byteOffsets.length := by
  unfold openFile at h
  cases hheader : ensureHeader f with
  | error e =>
      rw [hheader] at h
      cases h
  | ok f₁ =>
      rw [hheader] at h
      dsimp only at h
      cases hscan : recoverFrom replay st 1 headerSize [] (f₁.data.drop headerSize) with
      | error e =>
          rw [hscan] at h
          cases h
      | ok found =>
          rw [hscan] at h
          cases h
          obtain ⟨k, hnext, hlen⟩ := recoverFrom_counted hscan
          rw [List.length_nil, Nat.zero_add] at hlen
          show found.next = 1 + UInt64.ofNat found.byteOffsets.length
          rw [hnext, hlen]

section Reached
variable {ι : Type} [DecidableEq ι]

/-- The positions taken, `k` of them before the callers came, number the entries of the index and those of the calls whose
record did not get into the buffer. -/
structure Counted (k : Nat) (s : Group ι) : Prop where
  next : s.w.next = 1 + UInt64.ofNat (k + s.arrivals.length)
  index : s.w.byteOffsets.length ≤ k + s.arrivals.length

theorem lead_marks (s : Group ι) (i : ι) (position : UInt64) (mySeq : Nat) (flush : WriteFault) :
    (s.lead i position mySeq flush).arrivals = s.arrivals ∧ (s.lead i position mySeq flush).w.next = s.w.next ∧
      (s.lead i position mySeq flush).w.byteOffsets = s.w.byteOffsets := by
  obtain ⟨o, -, ⟨e, -, hlead⟩ | ⟨-, -, -, hlead⟩⟩ := Group.lead_spec s i position mySeq flush
  · rw [hlead]
    exact ⟨rfl, rfl, rfl⟩
  · rw [hlead]
    exact ⟨rfl, rfl, rfl⟩

/-- What a step does to the marks: an arrival takes a position, and nothing else does. -/
theorem step_marks {s s' : Group ι} {a : Action ι} (hstep : s.step a = some s') :
    s'.arrivals = s.arrivals ∧ s'.w.next = s.w.next ∧ s'.w.byteOffsets = s.w.byteOffsets ∨
      s'.arrivals.length = s.arrivals.length + 1 ∧ s'.w.next = s.w.next + 1 ∧
        s'.w.byteOffsets.length ≤ s.w.byteOffsets.length + 1 := by
  cases a with
  | enter i rec l b flush =>
      obtain ⟨-, rfl⟩ := Group.step_enter hstep
      right
      obtain ⟨o, -, ⟨e, -, henter⟩ | ⟨-, -, ⟨-, henter⟩ | ⟨-, henter⟩⟩⟩ := Group.enter_spec s i rec l b flush
      · rw [henter]
        exact ⟨List.length_append, rfl, Nat.le_succ _⟩
      · rw [henter]
        exact ⟨List.length_append, rfl, List.length_append.le⟩
      · obtain ⟨harr, hnext, hindex⟩ := lead_marks { s with
          w := { s.w.taken rec o with leading := true }, arrivals := s.arrivals ++ [(i, stamp rec s.w.next)] } i s.w.next
          (s.w.pendingSeq + 1) flush
        rw [henter, harr, hnext, hindex]
        exact ⟨List.length_append, rfl, List.length_append.le⟩
  | post i flush =>
      obtain ⟨position, mySeq, flushSeq, syncErr, -, rfl⟩ := Group.step_post hstep
      left
      obtain ⟨e, hpost⟩ | ⟨-, ⟨-, hpost⟩ | hpost⟩ := Group.post_spec s i position mySeq flushSeq syncErr flush
      · rw [hpost]
        exact ⟨rfl, rfl, rfl⟩
      · rw [hpost]
        exact ⟨rfl, rfl, rfl⟩
      · rw [hpost]
        exact lead_marks _ i position mySeq flush
  | syncBegin i =>
      obtain ⟨_, _, _, -, rfl⟩ := Group.step_syncBegin hstep
      exact Or.inl ⟨rfl, rfl, rfl⟩
  | syncEnd i syncErr =>
      obtain ⟨position, mySeq, flushSeq, begun, -, rfl⟩ := Group.step_syncEnd hstep
      left
      obtain ⟨e, hend⟩ | hend := Group.syncEnd_spec s i position mySeq flushSeq begun syncErr
      · rw [hend]
        exact ⟨rfl, rfl, rfl⟩
      · rw [hend]
        exact ⟨rfl, rfl, rfl⟩
  | wake i =>
      obtain ⟨_, _, -, -, rfl⟩ := Group.step_wake hstep
      exact Or.inl ⟨rfl, rfl, rfl⟩
  | readErr i =>
      obtain ⟨-, rfl⟩ := Group.step_readErr hstep
      exact Or.inl ⟨rfl, rfl, rfl⟩
  | close flush closeErr =>
      obtain ⟨-, rfl⟩ := Group.step_close hstep
      left
      obtain ⟨out, -, ⟨e, -, hclose⟩ | ⟨-, hclose⟩⟩ := s.w.close_spec flush closeErr
      · rw [hclose]
        exact ⟨rfl, rfl, rfl⟩
      · rw [hclose]
        exact ⟨rfl, rfl, rfl⟩

theorem step_counted {k : Nat} {s s' : Group ι} {a : Action ι} (h : Counted k s) (hstep : s.step a = some s') :
    Counted k s' := by
  rcases step_marks hstep with ⟨harr, hnext, hindex⟩ | ⟨harr, hnext, hindex⟩
  · exact ⟨by rw [harr, hnext, h.next], by rw [harr, hindex]; exact h.index⟩
  · refine ⟨?_, ?_⟩
    · rw [hnext, h.next, harr, ← Nat.add_assoc, ← position_succ, UInt64.add_assoc, UInt64.add_assoc, UInt64.add_comm 1 (UInt64.ofNat _)]
    · have := h.index
      omega

theorem run_counted {σ : Type} {replay : σ → Record → Except String σ} {st st' : σ} {f f' : File} {w₀ : WAL}
    (hopen : openFile replay st f = (.ok (st', w₀), f')) {as : List (Action ι)} {s : Group ι}
    (hrun : runActions Group.step (Group.start w₀) as = some s) : Counted w₀.byteOffsets.length s := by
  refine runActions_invariant (fun _ _ _ h hstep => step_counted h hstep) ?_ hrun
  exact ⟨openFile_counted hopen, Nat.le_refl _⟩

/-- **Any position, any log.** Let callers of `Append` and `Close` have done anything, with any faults, to a log that was
opened from any file; its index is a Go slice, and its positions have not run out. Then `ReadRange` leaves the index exactly
at a position beyond `2 ^ 63` with a positive limit. At every other position beyond the last commit position it returns
nothing and no error. -/
theorem readRange_bounds {σ : Type} {replay : σ → Record → Except String σ} {st st' : σ} {f f' : File} {w₀ : WAL}
    (hopen : openFile replay st f = (.ok (st', w₀), f')) (as : List (Action ι)) {s : Group ι}
    (hrun : runActions Group.step (Group.start w₀) as = some s) (hslice : s.w.byteOffsets.length < 2 ^ 63)
    (hpositions : w₀.byteOffsets.length + s.arrivals.length < 2 ^ 64) (fromPos : UInt64) (limit : Int) :
    ((s.w.readRange fromPos limit).2 = some .panic ↔ 2 ^ 63 < fromPos.toNat ∧ 0 < limit) ∧
      (s.w.lastCommitPosition < fromPos →
        (s.w.readRange fromPos limit = ([], none) ↔ ¬(2 ^ 63 < fromPos.toNat ∧ 0 < limit))) := by
  have hcounted := run_counted hopen hrun
  have hpanic := readRange_panics_iff hslice fromPos limit
  refine ⟨hpanic, fun hbeyond => ?_⟩
  rw [← hpanic]
  constructor
  · intro h
    rw [h]
    simp
  · intro h
    rw [hpanic] at h
    have hlast : s.w.lastCommitPosition.toNat = w₀.byteOffsets.length + s.arrivals.length := by
      rw [WAL.lastCommitPosition, hcounted.next, UInt64.add_comm, UInt64.add_sub_cancel, UInt64.toNat_ofNat_of_lt' hpositions]
    have hlt := UInt64.lt_iff_toNat_lt.mp hbeyond
    have hindex := hcounted.index
    by_cases hlimit : 0 < limit
    · exact readRange_beyond (by omega) (Nat.not_lt.mp fun hbig => h ⟨hbig, hlimit⟩) limit
    · exact readRange_empty_of_low (Or.inr (Int.not_lt.mp hlimit))

end Reached

/-- A caller on a new file whose flush fails after three bytes. -/
def tornCaller : List (Action Unit) :=
  [.enter () ⟨0, KindPut, [107], [118], 0, []⟩ (none, none) (none, none) (some (3, "EIO")), .readErr ()]

/-- Its position is the last one, and the position behind it finds nothing. -/
theorem readRange_bounds_torn : ∃ s : Group Unit, runActions Group.step (Group.start freshWAL) tornCaller = some s ∧
    s.w.lastCommitPosition = 1 ∧ s.w.readRange 2 1 = ([], none) := by
  have hrun : (runActions Group.step (Group.start freshWAL) tornCaller).map
      (fun s : Group Unit => (s.w.lastCommitPosition, s.w.byteOffsets.length, s.arrivals.length)) = some (1, 1, 1) := by
    decide +kernel
  obtain ⟨s, hs, hmarks⟩ := Option.map_eq_some_iff.mp hrun
  obtain ⟨hlast, hindex, harrivals⟩ : s.w.lastCommitPosition = 1 ∧ s.w.byteOffsets.length = 1 ∧ s.arrivals.length = 1 := by
    simpa using hmarks
  have hfresh : freshWAL.byteOffsets.length = 0 := rfl
  have hbounds := readRange_bounds (openFile_newFile collect []) tornCaller hs (by omega) (by omega) 2 1
  refine ⟨s, hs, hlast, (hbounds.2 (by rw [hlast]; decide)).mpr (by decide)⟩

end Uddp.Wal

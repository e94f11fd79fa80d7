import Uddp.Wal.Cut
import Uddp.Wal.Group

/-!
# Group commit

* `Covered`, `Owns`, `PhaseOk` : what `flushedSeq` and the local variables of a caller stand for;
* `Inv` : what every interleaving keeps (`step_inv`);
* **`group_commit`** : what a caller is told to be durable was flushed before an fsync that succeeded; positions
  grow in the order of arrival; the file is the header, whole frames and at most a part of one more.
-/

namespace Uddp.Wal
open Uddp.Lib

/-! ## What every interleaving keeps -/

section Invariant
variable {ι : Type} (w₀ : WAL) (rs₀ : List Record)

/-- The records in the order of their positions: those of the log at the start and those of the callers. -/
def Group.records (s : Group ι) : List Record := rs₀ ++ s.arrivals.map Prod.snd

/-- Where the frame of the `k`-th caller ends in the file. -/
def Group.endOf (s : Group ι) (k : Nat) : Nat := (logBytes (rs₀ ++ (s.arrivals.map Prod.snd).take k)).length

/-- An fsync that succeeded began behind every frame up to the sequence number `n`. -/
def Covered (s : Group ι) (n : Nat) : Prop := ∃ b ∈ s.syncs, s.endOf rs₀ (n - w₀.pendingSeq) ≤ b

/-- Caller `i` has the sequence number `mySeq` and the position `position`. -/
def Owns (s : Group ι) (i : ι) (position : UInt64) (mySeq : Nat) : Prop :=
  ∃ k r, mySeq = w₀.pendingSeq + (k + 1) ∧ s.arrivals[k]? = some (i, r) ∧ r.commitPosition = position ∧
    mySeq ≤ s.w.pendingSeq

/-- The log and the ghosts. -/
structure LogInv (s : Group ι) : Prop where
  next : s.w.next = 1 + UInt64.ofNat (s.records rs₀).length
  stamped : Stamped 1 (s.records rs₀)
  seq_le : w₀.pendingSeq ≤ s.w.pendingSeq
  taken_le : s.w.pendingSeq ≤ w₀.pendingSeq + s.arrivals.length
  /-- As long as nothing has failed, every caller's frame is in the file or in the buffer. -/
  whole : s.w.out.err = none → s.w.pendingSeq = w₀.pendingSeq + s.arrivals.length
  stream : s.w.out.err = none → s.w.out.file.data ++ s.w.out.buf = logBytes (s.records rs₀)
  offsets : s.w.byteOffsets.length = rs₀.length + (s.w.pendingSeq - w₀.pendingSeq)
  data : s.w.out.file.data <+: logBytes (s.records rs₀)
  base : logBytes rs₀ <+: s.w.out.file.data
  durable : ∀ b ∈ s.syncs, b ≤ s.w.out.file.synced
  flushed_le : s.w.flushedSeq ≤ s.w.pendingSeq
  /-- What `flushedSeq` says holds as long as `flushErr` is not set. -/
  flushed : s.w.flushErr = none → ∀ n, w₀.pendingSeq < n → n ≤ s.w.flushedSeq → Covered w₀ rs₀ s n

/-- The leader, from its flush to the lock after its fsync. -/
def Phase.Leads : Phase → Prop
  | .flushed _ _ _ => True
  | .syncing _ _ _ _ => True
  | .synced _ _ _ _ => True
  | _ => False

/-- What the local variables of caller `i` stand for. -/
def PhaseOk (s : Group ι) (i : ι) : Phase → Prop
  | .waiting position mySeq => Owns w₀ s i position mySeq
  | .flushed position mySeq flushSeq =>
      Owns w₀ s i position mySeq ∧ mySeq ≤ flushSeq ∧ flushSeq ≤ s.w.pendingSeq ∧
        s.endOf rs₀ (flushSeq - w₀.pendingSeq) ≤ s.w.out.file.data.length
  | .syncing position mySeq flushSeq begun =>
      Owns w₀ s i position mySeq ∧ mySeq ≤ flushSeq ∧ flushSeq ≤ s.w.pendingSeq ∧
        s.endOf rs₀ (flushSeq - w₀.pendingSeq) ≤ begun ∧ begun ≤ s.w.out.file.data.length
  | .synced position mySeq flushSeq syncErr =>
      Owns w₀ s i position mySeq ∧ mySeq ≤ flushSeq ∧ flushSeq ≤ s.w.pendingSeq ∧
        (syncErr = none → Covered w₀ rs₀ s flushSeq)
  | .returned (.ok position) => ∃ mySeq, Owns w₀ s i position mySeq ∧ Covered w₀ rs₀ s mySeq
  | _ => True

structure Inv (s : Group ι) : Prop where
  log : LogInv w₀ rs₀ s
  phases : ∀ i, PhaseOk w₀ rs₀ s i (s.phase i)
  quiet : s.w.leading = false → ∀ i, ¬ (s.phase i).Leads
  unique : ∀ i j, (s.phase i).Leads → (s.phase j).Leads → i = j
  /-- After a failed flush nothing succeeds, so `flushErr` stays. -/
  failing : ∀ i, s.phase i = .flushFailed → s.w.out.err ≠ none ∧ s.w.flushErr ≠ none ∧ s.w.leading = false
  once : (s.arrivals.map Prod.fst).Nodup
  absent : ∀ i, s.phase i = .idle → i ∉ s.arrivals.map Prod.fst

/-- What no step takes back. -/
structure Later (s s' : Group ι) : Prop where
  arrivals : s.arrivals <+: s'.arrivals
  pending : s.w.pendingSeq ≤ s'.w.pendingSeq
  syncs : ∀ b ∈ s.syncs, b ∈ s'.syncs
  data : s.w.out.file.data.length ≤ s'.w.out.file.data.length

variable {w₀ rs₀} {s s' : Group ι}

theorem Later.log (s : Group ι) {w : WAL} (hpend : s.w.pendingSeq ≤ w.pendingSeq)
    (hdata : s.w.out.file.data.length ≤ w.out.file.data.length) : Later s { s with w := w } :=
  ⟨List.prefix_refl _, hpend, fun _ hb => hb, hdata⟩

theorem Later.refl (s : Group ι) : Later s s := Later.log s le_rfl le_rfl

theorem endOf_later (h : s.arrivals <+: s'.arrivals) {k : Nat} (hk : k ≤ s.arrivals.length) :
    s'.endOf rs₀ k = s.endOf rs₀ k := by
  obtain ⟨t, ht⟩ := h
  unfold Group.endOf
  rw [← ht, List.map_append, List.take_append_of_le_length (by simpa using hk)]

theorem endOf_mono (s : Group ι) {k j : Nat} (h : k ≤ j) : s.endOf rs₀ k ≤ s.endOf rs₀ j := by
  obtain ⟨t, ht⟩ := List.take_prefix_take_left (l := s.arrivals.map Prod.snd) h
  unfold Group.endOf
  rw [← ht, ← List.append_assoc]
  simp only [logBytes, frames_append, List.length_append]
  omega

theorem Covered.mono {n m : Nat} (h : Covered w₀ rs₀ s n) (hm : m ≤ n) : Covered w₀ rs₀ s m := by
  obtain ⟨b, hb, hle⟩ := h
  exact ⟨b, hb, (endOf_mono s (Nat.sub_le_sub_right hm _)).trans hle⟩

theorem Covered.later {n : Nat} (h : Covered w₀ rs₀ s n) (hl : Later s s') (hn : n ≤ w₀.pendingSeq + s.arrivals.length) :
    Covered w₀ rs₀ s' n := by
  obtain ⟨b, hb, hle⟩ := h
  refine ⟨b, hl.syncs b hb, ?_⟩
  rwa [endOf_later hl.arrivals (by omega)]

theorem Owns.later {i : ι} {position : UInt64} {mySeq : Nat} (h : Owns w₀ s i position mySeq) (hl : Later s s') :
    Owns w₀ s' i position mySeq := by
  obtain ⟨k, r, hseq, hk, hr, hle⟩ := h
  obtain ⟨t, ht⟩ := hl.arrivals
  refine ⟨k, r, hseq, ?_, hr, hle.trans hl.pending⟩
  rw [← ht, List.getElem?_append_left (List.getElem?_eq_some_iff.mp hk).1]
  exact hk

theorem PhaseOk.later {i : ι} {p : Phase} (h : PhaseOk w₀ rs₀ s i p) (hs : LogInv w₀ rs₀ s) (hl : Later s s') :
    PhaseOk w₀ rs₀ s' i p := by
  have htaken := hs.taken_le
  cases p with
  | idle => trivial
  | waiting position mySeq => exact Owns.later h hl
  | flushed position mySeq flushSeq =>
      obtain ⟨hown, hle, hpend, hend⟩ := h
      refine ⟨hown.later hl, hle, hpend.trans hl.pending, ?_⟩
      rw [endOf_later hl.arrivals (by omega)]
      exact hend.trans hl.data
  | syncing position mySeq flushSeq begun =>
      obtain ⟨hown, hle, hpend, hend, hbegun⟩ := h
      refine ⟨hown.later hl, hle, hpend.trans hl.pending, ?_, hbegun.trans hl.data⟩
      rwa [endOf_later hl.arrivals (by omega)]
  | synced position mySeq flushSeq syncErr =>
      obtain ⟨hown, hle, hpend, hcov⟩ := h
      exact ⟨hown.later hl, hle, hpend.trans hl.pending, fun he => (hcov he).later hl (by omega)⟩
  | flushFailed => trivial
  | returned r =>
      cases r with
      | error e => trivial
      | ok position =>
          obtain ⟨mySeq, hown, hcov⟩ := h
          have hown' := hown
          obtain ⟨k, r, -, -, -, hle⟩ := hown'
          exact ⟨mySeq, hown.later hl, hcov.later hl (by omega)⟩

/-! ### The log -/

theorem LogInv.set_out (h : LogInv w₀ rs₀ s) {o : BufferedFile} (ho : Handed s.w.out [] o) :
    LogInv w₀ rs₀ { s with w := { s.w with out := o } } := by
  have hdata : o.file.data <+: logBytes (s.records rs₀) := by
    by_cases he : s.w.out.err = none
    · obtain ⟨q, hq, hgrow⟩ := ho.grows
      rw [List.append_nil] at hq
      rw [hgrow, ← h.stream he]
      exact (List.prefix_append_right_inj _).mpr hq
    · rw [ho.sticky he]
      exact h.data
  refine ⟨h.next, h.stamped, h.seq_le, h.taken_le, fun he => h.whole (ho.err_none he), fun he => ?_, h.offsets, hdata,
    h.base.trans ho.file_prefix, fun b hb => ?_, h.flushed_le, h.flushed⟩
  · show o.file.data ++ o.buf = _
    rw [ho.stream he, List.append_nil]
    exact h.stream (ho.err_none he)
  · show b ≤ o.file.synced
    rw [ho.synced]
    exact h.durable b hb

theorem LogInv.set_closed (h : LogInv w₀ rs₀ s) :
    LogInv w₀ rs₀ { s with w := { s.w with out := { s.w.out with file := { s.w.out.file with closed := true } } } } :=
  ⟨h.next, h.stamped, h.seq_le, h.taken_le, h.whole, h.stream, h.offsets, h.data, h.base, h.durable, h.flushed_le, h.flushed⟩

theorem LogInv.set_marks (h : LogInv w₀ rs₀ s) (flushErr : Option AppendError) (flushedSeq : Nat) (leading : Bool)
    (hle : flushedSeq ≤ s.w.pendingSeq)
    (hcov : flushErr = none → ∀ n, w₀.pendingSeq < n → n ≤ flushedSeq → Covered w₀ rs₀ s n) :
    LogInv w₀ rs₀ { s with w := { s.w with flushErr := flushErr, flushedSeq := flushedSeq, leading := leading } } :=
  ⟨h.next, h.stamped, h.seq_le, h.taken_le, h.whole, h.stream, h.offsets, h.data, h.base, h.durable, hle, hcov⟩

theorem records_snoc (s : Group ι) (w : WAL) (i : ι) (r : Record) :
    Group.records rs₀ { s with w := w, arrivals := s.arrivals ++ [(i, r)] } = s.records rs₀ ++ [r] := by
  simp [Group.records]

theorem LogInv.arrive_data (h : LogInv w₀ rs₀ s) {r : Record} {o : BufferedFile} (ho : Handed s.w.out (frame r) o) :
    o.file.data <+: logBytes (s.records rs₀ ++ [r]) := by
  rw [logBytes_snoc]
  by_cases he : s.w.out.err = none
  · obtain ⟨q, hq, hgrow⟩ := ho.grows
    rw [hgrow, ← h.stream he, List.append_assoc]
    exact (List.prefix_append_right_inj _).mpr hq
  · rw [ho.sticky he]
    exact h.data.trans (List.prefix_append _ _)

theorem LogInv.arrive (h : LogInv w₀ rs₀ s) (i : ι) {rec : Record} {o : BufferedFile}
    (ho : Handed s.w.out (frame (stamp rec s.w.next)) o) {w : WAL} (hout : w.out = o) (hnext : w.next = s.w.next + 1)
    (hmarks : w.flushErr = s.w.flushErr ∧ w.flushedSeq = s.w.flushedSeq)
    (hpend : o.err ≠ none ∧ w.pendingSeq = s.w.pendingSeq ∧ w.byteOffsets = s.w.byteOffsets ∨
      o.err = none ∧ w.pendingSeq = s.w.pendingSeq + 1 ∧ w.byteOffsets = s.w.byteOffsets ++ [s.w.writeOffset]) :
    LogInv w₀ rs₀ { s with w := w, arrivals := s.arrivals ++ [(i, stamp rec s.w.next)] } := by
  have hlater : ∀ n, n ≤ s.w.flushedSeq → Covered w₀ rs₀ s n →
      Covered w₀ rs₀ { s with w := w, arrivals := s.arrivals ++ [(i, stamp rec s.w.next)] } n := by
    intro n hn ⟨b, hb, hle⟩
    refine ⟨b, hb, ?_⟩
    rwa [endOf_later (s := s) (List.prefix_append _ _) (by have := h.flushed_le; have := h.taken_le; omega)]
  have hstamp : Stamped 1 (s.records rs₀ ++ [stamp rec s.w.next]) := by
    rw [h.next]
    exact stamped_snoc h.stamped rec
  have hlen : (s.arrivals ++ [(i, stamp rec s.w.next)]).length = s.arrivals.length + 1 := by simp
  have hseq := h.seq_le
  have htaken := h.taken_le
  have hflushed := h.flushed_le
  have hoffsets := h.offsets
  refine ⟨?_, by rw [records_snoc]; exact hstamp, ?_, ?_, ?_, ?_, ?_, ?_, ?_, ?_, ?_, ?_⟩
  · show w.next = _
    rw [hnext, records_snoc, List.length_append, List.length_singleton, UInt64.ofNat_add, ← UInt64.add_assoc, ← h.next]
    rfl
  · show w₀.pendingSeq ≤ w.pendingSeq
    omega
  · show w.pendingSeq ≤ w₀.pendingSeq + (s.arrivals ++ [(i, stamp rec s.w.next)]).length
    omega
  · intro he
    show w.pendingSeq = w₀.pendingSeq + (s.arrivals ++ [(i, stamp rec s.w.next)]).length
    have he' : o.err = none := hout ▸ he
    have hw := h.whole (ho.err_none he')
    rcases hpend with ⟨hne, -⟩ | ⟨-, hp, -⟩
    · exact absurd he' hne
    · omega
  · intro he
    have he' : o.err = none := hout ▸ he
    show w.out.file.data ++ w.out.buf = _
    rw [hout, ho.stream he', h.stream (ho.err_none he'), records_snoc, logBytes_snoc]
  · show w.byteOffsets.length = _ + (w.pendingSeq - _)
    rcases hpend with ⟨-, hp, hb⟩ | ⟨-, hp, hb⟩
    · rw [hp, hb, hoffsets]
    · rw [hp, hb, List.length_append, List.length_singleton, hoffsets]
      omega
  · show w.out.file.data <+: _
    rw [hout, records_snoc]
    exact h.arrive_data ho
  · show _ <+: w.out.file.data
    rw [hout]
    exact h.base.trans ho.file_prefix
  · intro b hb
    show b ≤ w.out.file.synced
    rw [hout, ho.synced]
    exact h.durable b hb
  · show w.flushedSeq ≤ w.pendingSeq
    omega
  · intro he n hlow hn
    have hn' : n ≤ s.w.flushedSeq := hmarks.2 ▸ hn
    exact hlater n hn' (h.flushed (hmarks.1 ▸ he) n hlow hn')

/-- Everything that is written is covered by a flush that finds no error. -/
theorem LogInv.flush_all (h : LogInv w₀ rs₀ s) (he : s.w.out.err = none) (hb : s.w.out.buf = []) :
    s.endOf rs₀ (s.w.pendingSeq - w₀.pendingSeq) ≤ s.w.out.file.data.length := by
  have hdata := h.stream he
  rw [hb, List.append_nil] at hdata
  have hk : s.w.pendingSeq - w₀.pendingSeq = (s.arrivals.map Prod.snd).length := by
    rw [List.length_map, h.whole he]
    omega
  unfold Group.endOf
  rw [hdata, hk, List.take_length]
  exact le_rfl

/-! ### The callers -/

/-- While `i` leads, no other caller does and no flush has failed. -/
theorem Inv.alone (h : Inv w₀ rs₀ s) {i : ι} (hi : (s.phase i).Leads) :
    (∀ j, j ≠ i → ¬ (s.phase j).Leads) ∧ ∀ j, s.phase j ≠ .flushFailed := by
  refine ⟨fun j hne hj => hne (h.unique j i hj hi), fun j hj => ?_⟩
  exact h.quiet (h.failing j hj).2.2 i hi

theorem close_inv (h : Inv w₀ rs₀ s) (flush : WriteFault) (closeErr : Option String) :
    Inv w₀ rs₀ { s with w := (s.w.close flush closeErr).2 } := by
  obtain ⟨o, ho, hcases⟩ := s.w.close_spec flush closeErr
  have hlog := h.log.set_out ho
  have hgrow := ho.file_prefix.length_le
  rcases hcases with ⟨e, he, hclose⟩ | ⟨he, hclose⟩
  · rw [hclose]
    exact ⟨hlog, fun j => (h.phases j).later h.log (Later.log s le_rfl hgrow), h.quiet, h.unique,
      fun j hj => ⟨by simp [he], (h.failing j hj).2⟩, h.once, h.absent⟩
  · rw [hclose]
    exact ⟨hlog.set_closed, fun j => (h.phases j).later h.log (Later.log s le_rfl hgrow), h.quiet,
      h.unique, fun j hj => absurd (ho.err_none he) (h.failing j hj).1, h.once, h.absent⟩

theorem start_inv (h : Holds w₀ rs₀) : Inv w₀ rs₀ (Group.start w₀ : Group ι) := by
  have hrecords : (Group.start w₀ : Group ι).records rs₀ = rs₀ := List.append_nil rs₀
  refine ⟨⟨?_, ?_, le_rfl, le_rfl, fun _ => rfl, fun _ => ?_, ?_, ?_, ?_, fun b hb => absurd hb List.not_mem_nil, h.seq.le,
    fun _ n hlow hn => ?_⟩, fun _ => trivial, fun _ _ hl => hl, fun _ _ hl => hl.elim, by simp [Group.start],
    List.nodup_nil, fun _ _ => List.not_mem_nil⟩
  · rw [hrecords]
    exact h.next
  · rw [hrecords]
    exact h.stamped
  · rw [hrecords]
    show w₀.out.file.data ++ w₀.out.buf = _
    rw [h.buf, List.append_nil, h.data]
  · show w₀.byteOffsets.length = _ + (w₀.pendingSeq - w₀.pendingSeq)
    rw [h.byteOffsets, length_offsetsFrom, Nat.sub_self, Nat.add_zero]
  · rw [hrecords]
    exact h.data ▸ List.prefix_refl _
  · exact h.data ▸ List.prefix_refl _
  · have hn' : n ≤ w₀.flushedSeq := hn
    have hseq := h.seq
    omega

variable [DecidableEq ι]

theorem LogInv.goto (h : LogInv w₀ rs₀ s) (i : ι) (p : Phase) : LogInv w₀ rs₀ (s.goto i p) :=
  ⟨h.next, h.stamped, h.seq_le, h.taken_le, h.whole, h.stream, h.offsets, h.data, h.base, h.durable, h.flushed_le, h.flushed⟩

theorem Inv.goto (h : Inv w₀ rs₀ s) (hlog : LogInv w₀ rs₀ s') (hl : Later s s') (hphase : s'.phase = s.phase) {i : ι}
    {p : Phase} (hp : PhaseOk w₀ rs₀ s' i p) (hquiet : s'.w.leading = false → ¬ p.Leads)
    (hlead : s'.w.leading = false ∨ p.Leads → ∀ j, j ≠ i → ¬ (s.phase j).Leads)
    (hfail : ∀ j, j ≠ i → s.phase j = .flushFailed →
      s'.w.out.err ≠ none ∧ s'.w.flushErr ≠ none ∧ s'.w.leading = false)
    (hself : p = .flushFailed → s'.w.out.err ≠ none ∧ s'.w.flushErr ≠ none ∧ s'.w.leading = false)
    (harr : s'.arrivals = s.arrivals ∨ s.phase i = .idle ∧ ∃ r, s'.arrivals = s.arrivals ++ [(i, r)]) (hmoved : p ≠ .idle) :
    Inv w₀ rs₀ (s'.goto i p) := by
  have hi : (s'.goto i p).phase i = p := by
    show Function.update s'.phase i p i = p
    rw [Function.update_self]
  have hj : ∀ j, j ≠ i → (s'.goto i p).phase j = s.phase j := by
    intro j hne
    show Function.update s'.phase i p j = _
    rw [Function.update_of_ne hne, hphase]
  refine ⟨hlog.goto i p, fun j => ?_, fun hl' j => ?_, fun j k hlj hlk => ?_, fun j hjf => ?_, ?_,
    fun j hidle => ?_⟩
  · by_cases hne : j = i
    · subst hne
      rw [hi]
      exact hp
    · rw [hj j hne]
      exact (h.phases j).later h.log ⟨hl.arrivals, hl.pending, hl.syncs, hl.data⟩
  · by_cases hne : j = i
    · subst hne
      rw [hi]
      exact hquiet hl'
    · rw [hj j hne]
      exact hlead (Or.inl hl') j hne
  · by_cases hne : j = i
    · by_cases hne' : k = i
      · rw [hne, hne']
      · rw [hne, hi] at hlj
        rw [hj k hne'] at hlk
        exact absurd hlk (hlead (Or.inr hlj) k hne')
    · rw [hj j hne] at hlj
      by_cases hne' : k = i
      · rw [hne', hi] at hlk
        exact absurd hlj (hlead (Or.inr hlk) j hne)
      · rw [hj k hne'] at hlk
        exact h.unique j k hlj hlk
  · by_cases hne : j = i
    · subst hne
      rw [hi] at hjf
      exact hself hjf
    · rw [hj j hne] at hjf
      exact hfail j hne hjf
  · show (s'.arrivals.map Prod.fst).Nodup
    rcases harr with harr | ⟨hidle, r, harr⟩
    · rw [harr]
      exact h.once
    · rw [harr, List.map_append, List.nodup_append]
      refine ⟨h.once, by simp, fun a ha c hc heq => h.absent i hidle ?_⟩
      have hci : c = i := by simpa using hc
      rw [← hci, ← heq]
      exact ha
  · show j ∉ s'.arrivals.map Prod.fst
    by_cases hne : j = i
    · rw [hne, hi] at hidle
      exact absurd hidle hmoved
    · rw [hj j hne] at hidle
      rcases harr with harr | ⟨-, r, harr⟩
      · rw [harr]
        exact h.absent j hidle
      · rw [harr, List.map_append, List.map_singleton, List.mem_append, List.mem_singleton]
        exact not_or.mpr ⟨h.absent j hidle, hne⟩

theorem Inv.lead (h : Inv w₀ rs₀ s) (hlog : LogInv w₀ rs₀ s') (hl : Later s s') (hphase : s'.phase = s.phase) {i : ι}
    {position : UInt64} {mySeq : Nat} (hown : Owns w₀ s' i position mySeq) (hleading : s'.w.leading = true)
    (hothers : ∀ j, j ≠ i → ¬ (s.phase j).Leads) (hnone : ∀ j, j ≠ i → s.phase j ≠ .flushFailed)
    (harr : s'.arrivals = s.arrivals ∨ s.phase i = .idle ∧ ∃ r, s'.arrivals = s.arrivals ++ [(i, r)]) (flush : WriteFault) :
    Inv w₀ rs₀ (s'.lead i position mySeq flush) := by
  have hmine : mySeq ≤ s'.w.pendingSeq := by
    obtain ⟨_, _, -, -, -, hle⟩ := hown
    exact hle
  obtain ⟨o, ho, hcases⟩ := s'.lead_spec i position mySeq flush
  have hout := hlog.set_out ho
  have hgrow := ho.file_prefix.length_le
  rcases hcases with ⟨e, he, hlead⟩ | ⟨he, hbuf, -, hlead⟩
  · rw [hlead]
    refine h.goto (hout.set_marks (some (.flush e)) s'.w.pendingSeq false le_rfl (by simp))
      ⟨hl.arrivals, hl.pending, hl.syncs, hl.data.trans hgrow⟩ hphase trivial (fun _ hlead => hlead)
      (fun _ => hothers) (fun j hne hj => absurd hj (hnone j hne)) (fun _ => ⟨by simp [he], by simp, rfl⟩) harr
      (by simp)
  · rw [hlead]
    have hflushed := hout.flush_all he hbuf
    refine h.goto hout ⟨hl.arrivals, hl.pending, hl.syncs, hl.data.trans hgrow⟩ hphase ⟨hown, hmine, le_rfl, hflushed⟩
      (fun hf => ?_) (fun _ => hothers) (fun j hne hj => absurd hj (hnone j hne)) (by simp) harr
      (by simp)
    rw [show s'.w.leading = false from hf] at hleading
    cases hleading

theorem enter_inv (h : Inv w₀ rs₀ s) {i : ι} (hidle : s.phase i = .idle) (rec : Record) (l b : WriteFault × WriteFault)
    (flush : WriteFault) : Inv w₀ rs₀ (s.enter i rec l b flush) := by
  obtain ⟨o, ho, hcases⟩ := s.enter_spec i rec l b flush
  have hgrow := ho.file_prefix.length_le
  rcases hcases with ⟨e, he, henter⟩ | ⟨he, -, hcases⟩
  · rw [henter]
    have hlog := h.log.arrive i ho (w := { s.w with next := s.w.next + 1, out := o }) rfl rfl ⟨rfl, rfl⟩
      (Or.inl ⟨he, rfl, rfl⟩)
    refine h.goto hlog ⟨List.prefix_append _ _, le_rfl, fun _ hb => hb, hgrow⟩ rfl trivial (fun _ hlead => hlead) ?_ ?_
      (by simp) (Or.inr ⟨hidle, _, rfl⟩) (by simp)
    · rintro (hq | hlead) j -
      · exact h.quiet hq j
      · exact absurd hlead (fun hf => hf)
    · intro j _ hj
      exact ⟨he, (h.failing j hj).2⟩
  · -- nothing has failed yet
    have hnone : ∀ j, s.phase j ≠ .flushFailed := fun j hj => (h.failing j hj).1 (ho.err_none he)
    have hlog := h.log.arrive i ho (w := s.w.taken rec o) rfl rfl ⟨rfl, rfl⟩ (Or.inr ⟨he, rfl, rfl⟩)
    have hwhole := h.log.whole (ho.err_none he)
    have hown : ∀ w : WAL, w.pendingSeq = s.w.pendingSeq + 1 →
        Owns w₀ { s with w := w, arrivals := s.arrivals ++ [(i, stamp rec s.w.next)] } i s.w.next (s.w.pendingSeq + 1) := by
      intro w hw
      exact ⟨s.arrivals.length, stamp rec s.w.next, by omega, List.getElem?_concat_length, rfl, hw.ge⟩
    have hl : ∀ w : WAL, w.pendingSeq = s.w.pendingSeq + 1 → w.out = o →
        Later s { s with w := w, arrivals := s.arrivals ++ [(i, stamp rec s.w.next)] } := by
      intro w hw hout
      refine ⟨List.prefix_append _ _, ?_, fun _ hb => hb, ?_⟩
      · show s.w.pendingSeq ≤ w.pendingSeq
        omega
      · show _ ≤ w.out.file.data.length
        rw [hout]
        exact hgrow
    rcases hcases with ⟨hleading, henter⟩ | ⟨hleading, henter⟩
    · rw [henter]
      refine h.goto hlog (hl _ rfl rfl) rfl (hown _ rfl) (fun _ hlead => hlead) ?_ (fun j _ hj => absurd hj (hnone j))
        (by simp) (Or.inr ⟨hidle, _, rfl⟩) (by simp)
      rintro (hq | hlead)
      · rw [show s.w.leading = false from hq] at hleading
        cases hleading
      · exact absurd hlead (fun hf => hf)
    · rw [henter]
      have hquiet := h.quiet hleading
      exact h.lead (hlog.set_marks s.w.flushErr s.w.flushedSeq true hlog.flushed_le hlog.flushed) (hl _ rfl rfl) rfl (hown _ rfl)
        rfl (fun j _ => hquiet j) (fun j _ => hnone j) (Or.inr ⟨hidle, _, rfl⟩) flush

theorem Inv.goto_leader (h : Inv w₀ rs₀ s) {i : ι} (hi : (s.phase i).Leads) (hlog : LogInv w₀ rs₀ s') (hl : Later s s')
    (hphase : s'.phase = s.phase) (hleading : s'.w.leading = s.w.leading) (harr : s'.arrivals = s.arrivals) {p : Phase}
    (hp : PhaseOk w₀ rs₀ s' i p) (hfine : p ≠ .flushFailed) (hmoved : p ≠ .idle) : Inv w₀ rs₀ (s'.goto i p) := by
  obtain ⟨hothers, hnone⟩ := h.alone hi
  refine h.goto hlog hl hphase hp (fun hf => ?_) (fun _ => hothers) (fun j _ hj => absurd hj (hnone j))
    (fun hfail => absurd hfail hfine) (Or.inl harr) hmoved
  exact absurd hi (h.quiet (hleading ▸ hf) i)

theorem syncEnd_inv (h : Inv w₀ rs₀ s) {i : ι} {position : UInt64} {mySeq flushSeq begun : Nat}
    (hi : s.phase i = .syncing position mySeq flushSeq begun) (syncErr : Option String) :
    Inv w₀ rs₀ (s.syncEnd i position mySeq flushSeq begun syncErr) := by
  have hlead : (s.phase i).Leads := by
    rw [hi]
    trivial
  have hok := h.phases i
  rw [hi] at hok
  obtain ⟨hown, hmine, hpend, hend, hbegun⟩ := hok
  rcases s.syncEnd_spec i position mySeq flushSeq begun syncErr with ⟨e, hsync⟩ | hsync
  · rw [hsync]
    exact h.goto_leader hlead h.log (Later.refl s) rfl rfl rfl ⟨hown, hmine, hpend, (by simp)⟩ (by simp) (by simp)
  · rw [hsync]
    obtain ⟨g, hg⟩ : ∃ g, g = { s with
      w := { s.w with out := { s.w.out with file := syncedTo s.w.out.file begun } }, syncs := s.syncs ++ [begun] } :=
      ⟨_, rfl⟩
    have hl : Later s g := by
      rw [hg]
      exact ⟨List.prefix_refl _, le_rfl, fun b hb => List.mem_append_left _ hb, le_rfl⟩
    have htaken := h.log.taken_le
    have hdurable : ∀ b ∈ s.syncs ++ [begun], b ≤ max s.w.out.file.synced (min begun s.w.out.file.data.length) := by
      intro b hb
      rcases List.mem_append.mp hb with hb | hb
      · exact (h.log.durable b hb).trans (le_max_left _ _)
      · rw [List.mem_singleton.mp hb, Nat.min_eq_left hbegun]
        exact le_max_right _ _
    have hlog : LogInv w₀ rs₀ g := by
      have hflushed := h.log.flushed_le
      have hcov : s.w.flushErr = none → ∀ n, w₀.pendingSeq < n → n ≤ s.w.flushedSeq → Covered w₀ rs₀ g n :=
        fun he n hlow hn => (h.log.flushed he n hlow hn).later hl (by omega)
      rw [hg] at hcov ⊢
      exact ⟨h.log.next, h.log.stamped, h.log.seq_le, htaken, h.log.whole, h.log.stream, h.log.offsets, h.log.data,
        h.log.base, hdurable, hflushed, hcov⟩
    have hcovered : Covered w₀ rs₀ g flushSeq := by
      refine ⟨begun, ?_, ?_⟩
      · rw [hg]
        exact List.mem_append_right _ (List.mem_singleton_self _)
      · rw [endOf_later hl.arrivals (by omega)]
        exact hend
    rw [← hg]
    exact h.goto_leader hlead hlog hl (by rw [hg]) (by rw [hg]) (by rw [hg])
      ⟨hown.later hl, hmine, hpend.trans hl.pending, fun _ => hcovered⟩ (by simp) (by simp)

theorem post_inv (h : Inv w₀ rs₀ s) {i : ι} {position : UInt64} {mySeq flushSeq : Nat} {syncErr : Option String}
    (hi : s.phase i = .synced position mySeq flushSeq syncErr) (flush : WriteFault) :
    Inv w₀ rs₀ (s.post i position mySeq flushSeq syncErr flush) := by
  have hlead : (s.phase i).Leads := by
    rw [hi]
    trivial
  obtain ⟨hothers, hnone⟩ := h.alone hlead
  have hok := h.phases i
  rw [hi] at hok
  obtain ⟨hown, hmine, hpend, hcov⟩ := hok
  have hleading : s.w.leading = true := by
    cases hl : s.w.leading with
    | true => rfl
    | false => exact absurd hlead (h.quiet hl i)
  rcases s.post_spec i position mySeq flushSeq syncErr flush with ⟨e, hpost⟩ | ⟨hsync, hpost⟩
  · rw [hpost]
    have hlog := h.log.set_marks (some (.fsync e)) s.w.pendingSeq false le_rfl (by simp)
    exact h.goto hlog (Later.log s le_rfl le_rfl) rfl trivial (fun _ hf => hf) (fun _ => hothers)
      (fun j _ hj => absurd hj (hnone j)) (by simp) (Or.inl rfl) (by simp)
  · have hcovered := hcov hsync
    have hlog := fun leading => h.log.set_marks none flushSeq leading hpend (fun _ n _ hn => hcovered.mono hn)
    rcases hpost with ⟨-, hpost⟩ | hpost
    · rw [hpost]
      exact h.goto (p := .returned (.ok position)) (hlog false) (Later.log s le_rfl le_rfl) rfl
        ⟨mySeq, hown, hcovered.mono hmine⟩ (fun _ hf => hf) (fun _ => hothers) (fun j _ hj => absurd hj (hnone j))
        (by simp) (Or.inl rfl) (by simp)
    · rw [hpost]
      exact h.lead (hlog s.w.leading) (Later.log s le_rfl le_rfl) rfl hown hleading hothers (fun j _ => hnone j)
        (Or.inl rfl) flush

theorem Inv.return (h : Inv w₀ rs₀ s) {i : ι} {r : Except AppendError UInt64} (hr : PhaseOk w₀ rs₀ s i (.returned r)) :
    Inv w₀ rs₀ (s.goto i (.returned r)) := by
  refine h.goto h.log (Later.refl s) rfl hr (fun _ hf => hf) ?_ (fun j _ hj => h.failing j hj) (by simp)
    (Or.inl rfl) (by simp)
  rintro (hq | hlead) j -
  · exact h.quiet hq j
  · exact absurd hlead (fun hf => hf)

theorem step_inv (h : Inv w₀ rs₀ s) {a : Action ι} (hstep : s.step a = some s') : Inv w₀ rs₀ s' := by
  cases a with
  | enter i rec l b flush =>
      obtain ⟨hidle, rfl⟩ := Group.step_enter hstep
      exact enter_inv h hidle rec l b flush
  | syncBegin i =>
      obtain ⟨position, mySeq, flushSeq, hi, rfl⟩ := Group.step_syncBegin hstep
      have hok := h.phases i
      rw [hi] at hok
      obtain ⟨hown, hmine, hpend, hend⟩ := hok
      exact h.goto_leader (by rw [hi]; trivial) h.log (Later.refl s) rfl rfl rfl ⟨hown, hmine, hpend, hend, le_rfl⟩
        (by simp) (by simp)
  | syncEnd i syncErr =>
      obtain ⟨position, mySeq, flushSeq, begun, hi, rfl⟩ := Group.step_syncEnd hstep
      exact syncEnd_inv h hi syncErr
  | post i flush =>
      obtain ⟨position, mySeq, flushSeq, syncErr, hi, rfl⟩ := Group.step_post hstep
      exact post_inv h hi flush
  | wake i =>
      obtain ⟨position, mySeq, hi, hle, rfl⟩ := Group.step_wake hstep
      have hown := h.phases i
      rw [hi] at hown
      apply h.return
      unfold Group.followerResult
      cases he : s.w.flushErr with
      | some e => trivial
      | none =>
          have hown' := hown
          obtain ⟨k, r, hseq, -⟩ := hown'
          exact ⟨mySeq, hown, h.log.flushed he mySeq (by omega) hle⟩
  | readErr i =>
      obtain ⟨hi, rfl⟩ := Group.step_readErr hstep
      apply h.return
      unfold Group.followerResult
      cases he : s.w.flushErr with
      | some e => trivial
      | none => exact absurd he (h.failing i hi).2.1
  | close flush closeErr =>
      obtain ⟨-, rfl⟩ := Group.step_close hstep
      exact close_inv h flush closeErr

end Invariant

/-! ## Group commit -/

section Runs
variable {ι : Type} {w₀ : WAL} {rs₀ : List Record} {s : Group ι}

theorem Inv.index_unique (h : Inv w₀ rs₀ s) {i : ι} {k l : Nat} {r r' : Record} (hk : s.arrivals[k]? = some (i, r))
    (hl : s.arrivals[l]? = some (i, r')) : k = l := by
  have h1 : (s.arrivals.map Prod.fst)[k]? = some i := by rw [List.getElem?_map, hk]; rfl
  have h2 : (s.arrivals.map Prod.fst)[l]? = some i := by rw [List.getElem?_map, hl]; rfl
  exact (List.getElem?_inj (by simpa using (List.getElem?_eq_some_iff.mp hk).1) h.once).mp (h1.trans h2.symm)

theorem Inv.owns_unique (h : Inv w₀ rs₀ s) {i : ι} {position : UInt64} {mySeq : Nat} (hown : Owns w₀ s i position mySeq)
    {k : Nat} {r : Record} (hk : s.arrivals[k]? = some (i, r)) :
    mySeq = w₀.pendingSeq + (k + 1) ∧ r.commitPosition = position ∧ mySeq ≤ s.w.pendingSeq := by
  obtain ⟨k', r', hseq, hk', hr', hle⟩ := hown
  obtain rfl := h.index_unique hk' hk
  rw [hk] at hk'
  cases hk'
  exact ⟨hseq, hr', hle⟩

theorem Inv.position (h : Inv w₀ rs₀ s) {i : ι} {p : UInt64} (hi : s.phase i = .returned (.ok p)) {k : Nat} {r : Record}
    (hk : s.arrivals[k]? = some (i, r)) :
    p = UInt64.ofNat (rs₀.length + k + 1) ∧ rs₀.length + k < s.w.byteOffsets.length ∧ r.commitPosition = p ∧
      Covered w₀ rs₀ s (w₀.pendingSeq + (k + 1)) := by
  have hok := h.phases i
  rw [hi] at hok
  obtain ⟨mySeq, hown, hcov⟩ := hok
  obtain ⟨hseq, hr, hle⟩ := h.owns_unique hown hk
  have hlt := (List.getElem?_eq_some_iff.mp hk).1
  have hrec : (s.records rs₀)[rs₀.length + k]? = some r := by
    rw [Group.records, List.getElem?_append_right (Nat.le_add_right _ _), Nat.add_sub_cancel_left, List.getElem?_map, hk]
    rfl
  have hoffsets := h.log.offsets
  refine ⟨?_, by omega, hr, hseq ▸ hcov⟩
  rw [← hr, stamped_getElem? h.log.stamped hrec, UInt64.ofNat_add (rs₀.length + k), UInt64.add_comm]
  rfl

/-- **Group commit.** After any interleaving of any number of `Append` calls with any faults, on a log that holds `rs₀`:
* a call that returned a position has its whole frame in front of where the file ended when some fsync began that then
  succeeded;
* of two calls that returned positions the one that arrived first has the smaller one;
* the file is the header, whole frames with consecutive positions, and at most a proper part of one more frame. -/
theorem group_commit [DecidableEq ι] (h : Holds w₀ rs₀) (as : List (Action ι))
    (hrun : runActions Group.step (Group.start w₀) as = some s) :
    (∀ i p, s.phase i = .returned (.ok p) → ∃ k r, s.arrivals[k]? = some (i, r) ∧ r.commitPosition = p ∧
      ∃ b ∈ s.syncs, b ≤ s.w.out.file.synced ∧
        logBytes (rs₀ ++ (s.arrivals.map Prod.snd).take (k + 1)) <+: s.w.out.file.data.take b) ∧
    (s.w.byteOffsets.length < 2 ^ 63 → ∀ (k l : Nat) (i j : ι) (r r' : Record) (p q : UInt64), k < l →
      s.arrivals[k]? = some (i, r) → s.arrivals[l]? = some (j, r') → s.phase i = .returned (.ok p) → s.phase j = .returned (.ok q) → p < q) ∧
    (s.arrivals.map Prod.fst).Nodup ∧ Stamped 1 (s.records rs₀) ∧
    ∃ k t, s.w.out.file.data = logBytes ((s.records rs₀).take k) ++ t ∧ Cut (s.records rs₀) k t := by
  have hinv : Inv w₀ rs₀ s := runActions_invariant (I := Inv w₀ rs₀) (fun _ _ _ hi hstep => step_inv hi hstep) (start_inv h) hrun
  refine ⟨?_, ?_, hinv.once, hinv.log.stamped, ?_⟩
  · intro i p hi
    have hok := hinv.phases i
    rw [hi] at hok
    obtain ⟨_, ⟨k, r, -, hk, -, -⟩, -⟩ := hok
    obtain ⟨-, -, hr, b, hb, hend⟩ := hinv.position hi hk
    have hle : b ≤ s.w.out.file.data.length := (hinv.log.durable b hb).trans s.w.out.file.synced_le
    refine ⟨k, r, hk, hr, b, hb, hinv.log.durable b hb, ?_⟩
    -- both are parts of the log of all records, and the frame ends before `b`
    have hall : logBytes (rs₀ ++ (s.arrivals.map Prod.snd).take (k + 1)) <+: logBytes (s.records rs₀) := by
      obtain ⟨t, ht⟩ := List.take_prefix (k + 1) (s.arrivals.map Prod.snd)
      refine ⟨frames t, ?_⟩
      rw [Group.records, ← ht, ← List.append_assoc, logBytes, logBytes, frames_append (rs₀ ++ _), List.append_assoc]
      rw [ht]
    refine List.prefix_of_prefix_length_le hall ((List.take_prefix b _).trans hinv.log.data) ?_
    rw [List.length_take, Nat.min_eq_left hle]
    rwa [Nat.add_sub_cancel_left] at hend
  · intro hlen k l i j r r' p q hkl hk hl hi hj
    obtain ⟨hp, hpl, -⟩ := hinv.position hi hk
    obtain ⟨hq, hql, -⟩ := hinv.position hj hl
    have hsize : UInt64.size = 2 ^ 64 := rfl
    rw [hp, hq, UInt64.lt_iff_toNat_lt, UInt64.toNat_ofNat_of_lt' (by omega), UInt64.toNat_ofNat_of_lt' (by omega)]
    omega
  · refine cut_of_log hinv.log.data (le_trans ?_ hinv.log.base.length_le)
    rw [logBytes, List.length_append, length_header]
    exact Nat.le_add_right _ _

end Runs

/-- Two callers: the second joins while the first has flushed only its own record, and is covered by a second round. -/
def twoCallers : List (Action Bool) :=
  [.enter false putA (none, none) (none, none) none, .enter true putB (none, none) (none, none) none, .syncBegin false,
    .syncEnd false none, .post false none, .syncBegin false, .syncEnd false none, .post false none, .wake true]

/-- Both callers return, and the follower's record is behind an fsync. -/
theorem group_commit_two : ∃ s : Group Bool, runActions Group.step (Group.start freshWAL) twoCallers = some s ∧
    s.phase false = .returned (.ok 1) ∧ s.phase true = .returned (.ok 2) ∧
    ∃ k r, s.arrivals[k]? = some (true, r) ∧ r.commitPosition = 2 ∧ ∃ b ∈ s.syncs, b ≤ s.w.out.file.synced ∧
      logBytes ([] ++ (s.arrivals.map Prod.snd).take (k + 1)) <+: s.w.out.file.data.take b := by
  obtain ⟨s, hs, hfirst, hsecond⟩ : ∃ s : Group Bool, runActions Group.step (Group.start freshWAL) twoCallers = some s ∧
      s.phase false = .returned (.ok 1) ∧ s.phase true = .returned (.ok 2) := ⟨_, rfl, rfl, rfl⟩
  exact ⟨s, hs, hfirst, hsecond, (group_commit freshWAL_holds twoCallers hs).1 true 2 hsecond⟩

end Uddp.Wal

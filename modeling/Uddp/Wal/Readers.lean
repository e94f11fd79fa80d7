import Uddp.Wal.GroupCommit

/-!
# Readers of a log that others append to

`ReadRange` holds the lock only while it looks up the offset of its first record. It then asks for the size of the file and
reads up to there, and all the while the callers of `Append` move.

* `Served ι κ` : the log with its callers, and any number of readers; `Served.step` : one step of either;
* `readRange_alone` : `WAL.readRange` is what a reader does while nobody else moves;
* `Indexed` : where the records start in the file, which `byteOffsets` says before they are written;
* `ReaderOk` : what a reader has found is a part of the log, in the file but not always durable;
* **`fetched_survives_iff`** : every crash leaves what a reader has returned exactly if the last record of it is durable.
-/

namespace Uddp.Wal
open Uddp.Lib

/-! ## The machine -/

inductive ReaderPhase
  | idle
  /-- It has the offset of its first record and has given the lock back. -/
  | located (fromPos : UInt64) (limit : Nat) (startOffset : Nat)
  /-- It knows the size of the file. -/
  | sized (fromPos : UInt64) (limit : Nat) (startOffset size : Nat)
  | returned (fromPos : UInt64) (recs : List Record) (err : Option RangeError)
  deriving DecidableEq, Repr

structure Served (ι κ : Type) where
  group : Group ι
  reader : κ → ReaderPhase

inductive ServedAction (ι κ : Type)
  | write (a : Action ι)
  | locate (j : κ) (fromPos : UInt64) (limit : Int)
  | stat (j : κ)
  /-- `m` is how many records the reader has when the file is closed under it, if it is. -/
  | read (j : κ) (m : Nat)

namespace Served

variable {ι κ : Type} [DecidableEq ι] [DecidableEq κ]

def start (w : WAL) : Served ι κ := ⟨Group.start w, fun _ => .idle⟩

def goto (s : Served ι κ) (j : κ) (p : ReaderPhase) : Served ι κ := { s with reader := Function.update s.reader j p }

/-- Lines 429 to 435 of `ReadRange`. -/
def locate (w : WAL) (fromPos : UInt64) (limit : Int) : ReaderPhase :=
  if fromPos < 1 ∨ (fromPos - 1).toInt64.toInt ≥ w.byteOffsets.length ∨ limit ≤ 0 then .returned fromPos [] none
  else
    match w.byteOffsets[(fromPos - 1).toNat]? with
    | none => .returned fromPos [] (some .panic)
    | some startOffset => .located fromPos limit.toNat startOffset

/-- The section of the file that the reader asks for. A read of a closed file fails, which `readRecord` takes for the end. -/
def readSection (f : File) (fromPos : UInt64) (limit startOffset size m : Nat) : List Record × Option RangeError :=
  let page := readUpTo limit fromPos ((f.data.take size).drop startOffset)
  if f.closed then (page.1.take m, none) else page

def step (s : Served ι κ) : ServedAction ι κ → Option (Served ι κ)
  | .write a => (s.group.step a).map (fun g => { s with group := g })
  | .locate j fromPos limit =>
      match s.reader j with
      | .idle => some (s.goto j (locate s.group.w fromPos limit))
      | _ => none
  | .stat j =>
      match s.reader j with
      | .located fromPos limit startOffset =>
          if s.group.w.out.file.closed then some (s.goto j (.returned fromPos [] (some (.stat errClosed))))
          else some (s.goto j (.sized fromPos limit startOffset s.group.w.out.file.data.length))
      | _ => none
  | .read j m =>
      match s.reader j with
      | .sized fromPos limit startOffset size =>
          let r := readSection s.group.w.out.file fromPos limit startOffset size m
          some (s.goto j (.returned fromPos r.1 r.2))
      | _ => none

section Enabled
variable {s s' : Served ι κ} {j : κ}

theorem step_write {a : Action ι} (h : s.step (.write a) = some s') :
    ∃ g, s.group.step a = some g ∧ s' = { s with group := g } := by
  obtain ⟨g, hg, rfl⟩ := Option.map_eq_some_iff.mp h
  exact ⟨g, hg, rfl⟩

theorem step_locate {fromPos : UInt64} {limit : Int} (h : s.step (.locate j fromPos limit) = some s') :
    s.reader j = .idle ∧ s' = s.goto j (locate s.group.w fromPos limit) := by
  simp only [step] at h
  split at h
  · next hidle => exact ⟨hidle, (Option.some.inj h).symm⟩
  · exact absurd h (by simp)

theorem step_stat (h : s.step (.stat j) = some s') : ∃ fromPos limit startOffset,
    s.reader j = .located fromPos limit startOffset ∧
      (s.group.w.out.file.closed = true ∧ s' = s.goto j (.returned fromPos [] (some (.stat errClosed))) ∨
        s.group.w.out.file.closed = false ∧
          s' = s.goto j (.sized fromPos limit startOffset s.group.w.out.file.data.length)) := by
  simp only [step] at h
  split at h
  · next fromPos limit startOffset hj =>
    split at h
    · next hc => exact ⟨fromPos, limit, startOffset, hj, Or.inl ⟨hc, (Option.some.inj h).symm⟩⟩
    · next hc =>
      exact ⟨fromPos, limit, startOffset, hj, Or.inr ⟨by simpa using hc, (Option.some.inj h).symm⟩⟩
  · exact absurd h (by simp)

theorem step_read {m : Nat} (h : s.step (.read j m) = some s') : ∃ fromPos limit startOffset size,
    s.reader j = .sized fromPos limit startOffset size ∧
      s' = s.goto j (.returned fromPos (readSection s.group.w.out.file fromPos limit startOffset size m).1
        (readSection s.group.w.out.file fromPos limit startOffset size m).2) := by
  simp only [step] at h
  split at h
  · next fromPos limit startOffset size hj => exact ⟨fromPos, limit, startOffset, size, hj, (Option.some.inj h).symm⟩
  · exact absurd h (by simp)

end Enabled

end Served

section Alone
variable {ι κ : Type} [DecidableEq κ]

theorem served_goto_self (s : Served ι κ) (j : κ) (p : ReaderPhase) : (s.goto j p).reader j = p := by
  show Function.update s.reader j p j = p
  rw [Function.update_self]

theorem served_goto_of_ne (s : Served ι κ) {j l : κ} (h : l ≠ j) (p : ReaderPhase) : (s.goto j p).reader l = s.reader l :=
  Function.update_of_ne h _ _

/-- **`WAL.readRange`** is what the machine does for a reader while nobody else moves. -/
theorem readRange_alone [DecidableEq ι] (w : WAL) (j : κ) (fromPos : UInt64) (limit : Int) :
    ∃ (as : List (ServedAction ι κ)) (s : Served ι κ), runActions Served.step (Served.start w) as = some s ∧
      s.reader j = .returned fromPos (w.readRange fromPos limit).1 (w.readRange fromPos limit).2 := by
  obtain ⟨g, hg⟩ : ∃ g : Served ι κ, g = (Served.start w).goto j (Served.locate w fromPos limit) := ⟨_, rfl⟩
  have hgw : g.group.w = w := by rw [hg]; rfl
  have hlocate : (Served.start w : Served ι κ).step (.locate j fromPos limit) = some g := by rw [hg]; rfl
  have hphase : g.reader j = Served.locate w fromPos limit := by rw [hg, served_goto_self]
  unfold Served.locate at hphase
  unfold WAL.readRange
  split at hphase
  · next hout =>
    rw [if_pos hout]
    exact ⟨_, g, runActions_cons Served.step hlocate [], hphase⟩
  · next hin =>
    rw [if_neg hin]
    cases hoffset : w.byteOffsets[(fromPos - 1).toNat]? with
    | none =>
      rw [hoffset] at hphase
      exact ⟨_, g, runActions_cons Served.step hlocate [], hphase⟩
    | some startOffset =>
      rw [hoffset] at hphase
      by_cases hc : w.out.file.closed = true
      · have hstat : g.step (.stat j) = some (g.goto j (.returned fromPos [] (some (.stat errClosed)))) := by
          simp only [Served.step, hphase, hgw, hc, if_true]
        refine ⟨[.locate j fromPos limit, .stat j], g.goto j (.returned fromPos [] (some (.stat errClosed))), ?_, ?_⟩
        · rw [runActions_cons Served.step hlocate, runActions_cons Served.step hstat]
          rfl
        · rw [served_goto_self]
          simp only [hc, if_true]
      · have hopen : w.out.file.closed = false := by simpa using hc
        obtain ⟨g₁, hg₁⟩ : ∃ g₁ : Served ι κ,
          g₁ = g.goto j (.sized fromPos limit.toNat startOffset w.out.file.data.length) := ⟨_, rfl⟩
        have hstat : g.step (.stat j) = some g₁ := by
          simp only [Served.step, hphase, hgw, hopen, Bool.false_eq_true, if_false, hg₁]
        have hphase₁ : g₁.reader j = .sized fromPos limit.toNat startOffset w.out.file.data.length := by
          rw [hg₁, served_goto_self]
        have hgw₁ : g₁.group.w = w := by rw [hg₁, ← hgw]; rfl
        have hpage : Served.readSection w.out.file fromPos limit.toNat startOffset w.out.file.data.length 0 =
            readUpTo limit.toNat fromPos (w.out.file.data.drop startOffset) := by
          simp only [Served.readSection, hopen, Bool.false_eq_true, if_false, List.take_length]
        obtain ⟨page, hpage'⟩ : ∃ page, page = readUpTo limit.toNat fromPos (w.out.file.data.drop startOffset) := ⟨_, rfl⟩
        rw [← hpage'] at hpage
        have hread : g₁.step (.read j 0) = some (g₁.goto j (.returned fromPos page.1 page.2)) := by
          simp only [Served.step, hphase₁, hgw₁, hpage]
        refine ⟨[.locate j fromPos limit, .stat j, .read j 0], g₁.goto j (.returned fromPos page.1 page.2), ?_, ?_⟩
        · rw [runActions_cons Served.step hlocate, runActions_cons Served.step hstat, runActions_cons Served.step hread]
          rfl
        · rw [served_goto_self]
          simp only [hopen, Bool.false_eq_true, if_false, hpage']

end Alone

/-! ## Where the records are -/

/-- `byteOffsets` says where each record starts, whether it is in the file yet or not, and `writeOffset` where the next one
will. -/
structure Indexed (w : WAL) (rs : List Record) : Prop where
  start : ∀ i < w.byteOffsets.length, w.byteOffsets[i]? = some (logBytes (rs.take i)).length
  le : w.byteOffsets.length ≤ rs.length
  next : w.out.err = none → w.byteOffsets.length = rs.length ∧ w.writeOffset = (logBytes rs).length

theorem Indexed.same {w w' : WAL} {rs : List Record} (h : Indexed w rs) (hoffs : w'.byteOffsets = w.byteOffsets)
    (hnext : w'.writeOffset = w.writeOffset) (herr : w'.out.err = none → w.out.err = none) : Indexed w' rs := by
  refine ⟨?_, ?_, ?_⟩
  · rw [hoffs]
    exact h.start
  · rw [hoffs]
    exact h.le
  · intro he
    rw [hoffs, hnext]
    exact h.next (herr he)

/-- A record more, which has no offset if its writes failed. -/
theorem Indexed.snoc {w w' : WAL} {rs : List Record} (h : Indexed w rs) (r : Record)
    (hcases : w'.out.err ≠ none ∧ w'.byteOffsets = w.byteOffsets ∨
      w.out.err = none ∧ w'.byteOffsets = w.byteOffsets ++ [w.writeOffset] ∧
        w'.writeOffset = w.writeOffset + (frame r).length) : Indexed w' (rs ++ [r]) := by
  have hlen : (rs ++ [r]).length = rs.length + 1 := by simp
  have htake : ∀ i ≤ rs.length, (rs ++ [r]).take i = rs.take i := fun i hi => List.take_append_of_le_length hi
  have hle := h.le
  rcases hcases with ⟨herr, hoffs⟩ | ⟨herr, hoffs, hnext⟩
  · refine ⟨fun i hi => ?_, ?_, fun he => absurd he herr⟩
    · rw [hoffs] at hi ⊢
      rw [h.start i hi, htake i (by omega)]
    · rw [hoffs]
      omega
  · obtain ⟨hall, hwrite⟩ := h.next herr
    refine ⟨fun i hi => ?_, ?_, fun _ => ?_⟩
    · rw [hoffs, List.length_append, List.length_singleton] at hi
      rw [hoffs, htake i (by omega)]
      by_cases hlast : i = w.byteOffsets.length
      · rw [hlast, List.getElem?_concat_length, hall, List.take_length, hwrite]
      · rw [List.getElem?_append_left (by omega), h.start i (by omega)]
    · rw [hoffs, List.length_append, List.length_singleton]
      omega
    · rw [hoffs, hnext, hwrite, logBytes_snoc, hlen]
      simp [hall]

/-- From `s` to `s'` the log and the file have only grown, and the index is right. -/
structure Grown {ι : Type} (rs₀ : List Record) (s s' : Group ι) : Prop where
  indexed : Indexed s'.w (s'.records rs₀)
  arrivals : s.arrivals <+: s'.arrivals
  data : s.w.out.file.data <+: s'.w.out.file.data

section Steps
variable {ι : Type} {rs₀ : List Record} {s s' g : Group ι}

theorem Grown.goto [DecidableEq ι] (h : Grown rs₀ s g) (i : ι) (p : Phase) : Grown rs₀ s (g.goto i p) :=
  ⟨h.indexed, h.arrivals, h.data⟩

theorem Grown.set_out (h : Grown rs₀ s g) {w : WAL} (ho : Handed g.w.out [] w.out) (hoffs : w.byteOffsets = g.w.byteOffsets)
    (hnext : w.writeOffset = g.w.writeOffset) : Grown rs₀ s { g with w := w } :=
  ⟨h.indexed.same hoffs hnext ho.err_none, h.arrivals, h.data.trans ho.file_prefix⟩

theorem Grown.lead [DecidableEq ι] (h : Grown rs₀ s g) (i : ι) (position : UInt64) (mySeq : Nat) (flush : WriteFault) :
    Grown rs₀ s (g.lead i position mySeq flush) := by
  obtain ⟨o, ho, ⟨e, -, hlead⟩ | ⟨-, -, -, hlead⟩⟩ := g.lead_spec i position mySeq flush
  · rw [hlead]
    refine Grown.goto (h.set_out ?_ ?_ ?_) i _
    · exact ho
    · rfl
    · rfl
  · rw [hlead]
    refine Grown.goto (h.set_out ?_ ?_ ?_) i _
    · exact ho
    · rfl
    · rfl

theorem grown_arrive (h : Indexed s.w (s.records rs₀)) (i : ι) {rec : Record} {o : BufferedFile}
    (ho : Handed s.w.out (frame (stamp rec s.w.next)) o) {w : WAL} (hout : w.out = o)
    (hcases : o.err ≠ none ∧ w.byteOffsets = s.w.byteOffsets ∨
      o.err = none ∧ w.byteOffsets = s.w.byteOffsets ++ [s.w.writeOffset] ∧
        w.writeOffset = s.w.writeOffset + (frame (stamp rec s.w.next)).length) :
    Grown rs₀ s { s with w := w, arrivals := s.arrivals ++ [(i, stamp rec s.w.next)] } := by
  refine ⟨?_, List.prefix_append _ _, ?_⟩
  · rw [records_snoc]
    refine h.snoc _ ?_
    rcases hcases with ⟨he, hoffs⟩ | ⟨he, hoffs, hnext⟩
    · exact Or.inl ⟨hout.symm ▸ he, hoffs⟩
    · exact Or.inr ⟨ho.err_none he, hoffs, hnext⟩
  · show _ <+: w.out.file.data
    rw [hout]
    exact ho.file_prefix

theorem step_grown [DecidableEq ι] (h : Indexed s.w (s.records rs₀)) {a : Action ι} (hstep : s.step a = some s') :
    Grown rs₀ s s' := by
  have hsame : Grown rs₀ s s := ⟨h, List.prefix_refl _, List.prefix_refl _⟩
  cases a with
  | enter i rec l b flush =>
      obtain ⟨-, rfl⟩ := Group.step_enter hstep
      obtain ⟨o, ho, ⟨e, he, henter⟩ | ⟨he, -, ⟨-, henter⟩ | ⟨-, henter⟩⟩⟩ := s.enter_spec i rec l b flush
      · rw [henter]
        exact (grown_arrive h i ho (w := { s.w with next := s.w.next + 1, out := o }) rfl (Or.inl ⟨he, rfl⟩)).goto i _
      · rw [henter]
        exact (grown_arrive h i ho rfl (Or.inr ⟨he, rfl, rfl⟩)).goto i _
      · rw [henter]
        exact (grown_arrive h i ho rfl (Or.inr ⟨he, rfl, rfl⟩)).lead i _ _ flush
  | syncBegin i =>
      obtain ⟨_, _, _, -, rfl⟩ := Group.step_syncBegin hstep
      exact hsame.goto i _
  | syncEnd i syncErr =>
      obtain ⟨_, _, _, _, -, rfl⟩ := Group.step_syncEnd hstep
      rcases s.syncEnd_spec i _ _ _ _ syncErr with ⟨e, hsync⟩ | hsync
      · rw [hsync]
        exact hsame.goto i _
      · rw [hsync]
        exact ⟨h.same rfl rfl (fun he => he), List.prefix_refl _, List.prefix_refl _⟩
  | post i flush =>
      obtain ⟨position, mySeq, flushSeq, syncErr, -, rfl⟩ := Group.step_post hstep
      have hmarks : ∀ (flushErr : Option AppendError) (flushedSeq : Nat) (leading : Bool), Grown rs₀ s { s with
          w := { s.w with flushErr := flushErr, flushedSeq := flushedSeq, leading := leading } } :=
        fun _ _ _ => ⟨h.same rfl rfl (fun he => he), List.prefix_refl _, List.prefix_refl _⟩
      rcases s.post_spec i position mySeq flushSeq syncErr flush with ⟨e, hpost⟩ | ⟨-, ⟨-, hpost⟩ | hpost⟩
      · rw [hpost]
        exact (hmarks _ _ _).goto i _
      · rw [hpost]
        exact (hmarks _ _ _).goto i _
      · rw [hpost]
        exact (hmarks none flushSeq s.w.leading).lead i position mySeq flush
  | wake i =>
      obtain ⟨_, _, -, -, rfl⟩ := Group.step_wake hstep
      exact hsame.goto i _
  | readErr i =>
      obtain ⟨-, rfl⟩ := Group.step_readErr hstep
      exact hsame.goto i _
  | close flush closeErr =>
      obtain ⟨-, rfl⟩ := Group.step_close hstep
      obtain ⟨o, ho, ⟨e, -, hclose⟩ | ⟨-, hclose⟩⟩ := s.w.close_spec flush closeErr
      · rw [hclose]
        exact hsame.set_out ho rfl rfl
      · rw [hclose]
        exact ⟨h.same rfl rfl ho.err_none, List.prefix_refl _, ho.file_prefix⟩

end Steps

theorem indexed_of_holds {w : WAL} {rs : List Record} (h : Holds w rs) : Indexed w rs := by
  have hlen : w.byteOffsets.length = rs.length := by rw [h.byteOffsets, length_offsetsFrom]
  refine ⟨fun i hi => ?_, hlen.le, fun _ => ⟨hlen, h.writeOffset⟩⟩
  rw [h.byteOffsets, offsetsFrom_getElem? rs headerSize i (by omega), logBytes, List.length_append, length_header]

/-! ## What a reader finds -/

theorem readUpTo_part {rs : List Record} (hfit : ∀ r ∈ rs, Fits r) {k : Nat} {t : Bytes} (hcut : Cut rs k t) (i limit : Nat)
    (position : UInt64) (hi : i ≤ rs.length) :
    readUpTo limit position ((logBytes (rs.take k) ++ t).drop (logBytes (rs.take i)).length) =
      (((rs.take k).drop i).take limit, none) := by
  have htorn := hcut.torn hfit
  by_cases hle : i ≤ k
  · have htake : rs.take i = (rs.take k).take i := by rw [List.take_take, Nat.min_eq_left hle]
    rw [htake, logBytes, List.length_append, length_header, drop_offset]
    exact readUpTo_frames (fun r hr => hfit r (List.mem_of_mem_take (List.mem_of_mem_drop hr))) htorn limit position
  · -- the record does not start in this part
    have hshort : ¬ (logBytes (rs.take i)).length ≤ (logBytes (rs.take k) ++ t).length := fun h =>
      hle ((le_cut_iff hcut hi).mp h)
    rw [List.drop_eq_nil_of_le (by omega), List.drop_eq_nil_of_le (by rw [List.length_take]; omega), List.take_nil]
    have hnone := readUpTo_frames (List.forall_mem_nil Fits) (Or.inl rfl : ([] : Bytes) = [] ∨ _) limit position
    rwa [List.take_nil] at hnone

section Found
variable {ι κ : Type} (rs₀ : List Record)

/-- What a reader knows about the log. -/
def ReaderOk (s : Group ι) : ReaderPhase → Prop
  | .idle => True
  | .located fromPos _ startOffset => ∃ i ≤ (s.records rs₀).length, fromPos.toNat = i + 1 ∧
      startOffset = (logBytes ((s.records rs₀).take i)).length
  | .sized fromPos _ startOffset size => ∃ i ≤ (s.records rs₀).length, fromPos.toNat = i + 1 ∧
      startOffset = (logBytes ((s.records rs₀).take i)).length ∧ headerSize ≤ size ∧ size ≤ s.w.out.file.data.length
  | .returned fromPos recs _ => recs = [] ∨ ∃ i, fromPos.toNat = i + 1 ∧ recs <+: (s.records rs₀).drop i ∧
      (logBytes ((s.records rs₀).take (i + recs.length))).length ≤ s.w.out.file.data.length

variable {rs₀} {s s' : Group ι}

theorem records_grown (h : Grown rs₀ s s') : s.records rs₀ <+: s'.records rs₀ := by
  obtain ⟨t, ht⟩ := h.arrivals
  refine ⟨t.map Prod.snd, ?_⟩
  rw [Group.records, Group.records, ← ht, List.map_append, List.append_assoc]

theorem ReaderOk.grown {p : ReaderPhase} (h : ReaderOk rs₀ s p) (hg : Grown rs₀ s s') : ReaderOk rs₀ s' p := by
  have hrecords := records_grown hg
  have hdata := hg.data.length_le
  cases p with
  | idle => trivial
  | located fromPos limit startOffset =>
      obtain ⟨i, hi, hpos, hstart⟩ := h
      exact ⟨i, hi.trans hrecords.length_le, hpos, by rw [take_of_part hrecords hi, hstart]⟩
  | sized fromPos limit startOffset size =>
      obtain ⟨i, hi, hpos, hstart, hlow, hhigh⟩ := h
      exact ⟨i, hi.trans hrecords.length_le, hpos, by rw [take_of_part hrecords hi, hstart], hlow, hhigh.trans hdata⟩
  | returned fromPos recs err =>
      rcases h with h0 | ⟨i, hpos, hrecs, hend⟩
      · exact Or.inl h0
      · by_cases h0 : recs = []
        · exact Or.inl h0
        · have hlen := hrecs.length_le
          have hne := List.length_pos_iff.mpr h0
          rw [List.length_drop] at hlen
          refine Or.inr ⟨i, hpos, hrecs.trans ?_, ?_⟩
          · obtain ⟨t, ht⟩ := hrecords
            rw [← ht, List.drop_append_of_le_length (by omega)]
            exact List.prefix_append _ _
          · rw [take_of_part hrecords (by omega)]
            exact hend.trans hdata

theorem locate_ok (h : Indexed s.w (s.records rs₀)) (fromPos : UInt64) (limit : Int) :
    ReaderOk rs₀ s (Served.locate s.w fromPos limit) := by
  unfold Served.locate
  split
  · exact Or.inl rfl
  · next hin =>
    split
    · exact Or.inl rfl
    · next startOffset hsome =>
      have hlt := (List.getElem?_eq_some_iff.mp hsome).1
      have hone : 1 ≤ fromPos.toNat := by
        have hnot := (not_or.mp hin).1
        rw [UInt64.lt_iff_toNat_lt] at hnot
        exact Nat.not_lt.mp hnot
      have hsub : (fromPos - 1).toNat = fromPos.toNat - 1 :=
        UInt64.toNat_sub_of_le fromPos 1 (UInt64.le_iff_toNat_le.mpr hone)
      refine ⟨(fromPos - 1).toNat, hlt.le.trans h.le, by omega, ?_⟩
      rw [h.start _ hlt] at hsome
      exact (Option.some.inj hsome).symm

/-- What a reader returns is a part of the log that is in the file. -/
theorem readSection_ok (hfit : ∀ r ∈ s.records rs₀, Fits r) (hdata : s.w.out.file.data <+: logBytes (s.records rs₀))
    {fromPos : UInt64} {limit startOffset size : Nat} (h : ReaderOk rs₀ s (.sized fromPos limit startOffset size)) (m : Nat) :
    ReaderOk rs₀ s (.returned fromPos (Served.readSection s.w.out.file fromPos limit startOffset size m).1
      (Served.readSection s.w.out.file fromPos limit startOffset size m).2) := by
  obtain ⟨i, hi, hpos, hstart, hlow, hhigh⟩ := h
  have hsize : (s.w.out.file.data.take size).length = size := by rw [List.length_take, Nat.min_eq_left hhigh]
  obtain ⟨k, t, hcutdata, hcut⟩ := cut_of_log ((List.take_prefix size _).trans hdata) (hsize.symm ▸ hlow)
  have hpage := readUpTo_part hfit hcut i limit fromPos hi
  have hfound : (Served.readSection s.w.out.file fromPos limit startOffset size m).1 <+:
      ((s.records rs₀).take k).drop i := by
    unfold Served.readSection
    rw [hcutdata, hstart, hpage]
    dsimp only
    split
    · exact (List.take_prefix m _).trans (List.take_prefix limit _)
    · exact List.take_prefix limit _
  obtain ⟨recs, hrecs⟩ : ∃ recs, recs = (Served.readSection s.w.out.file fromPos limit startOffset size m).1 := ⟨_, rfl⟩
  rw [← hrecs] at hfound ⊢
  by_cases h0 : recs = []
  · exact Or.inl h0
  · have hlen := hfound.length_le
    have hne := List.length_pos_iff.mpr h0
    rw [List.length_drop, List.length_take] at hlen
    refine Or.inr ⟨i, hpos, hfound.trans ?_, ?_⟩
    · rw [List.drop_take]
      exact List.take_prefix _ _
    · calc (logBytes ((s.records rs₀).take (i + recs.length))).length
          ≤ (logBytes ((s.records rs₀).take k) ++ t).length := (le_cut_iff hcut (by omega)).mpr (by omega)
        _ = size := by rw [← hcutdata, hsize]
        _ ≤ s.w.out.file.data.length := hhigh

end Found

/-! ## Whole runs -/

section Runs
variable {ι κ : Type} [DecidableEq ι] [DecidableEq κ] {w₀ : WAL} {rs₀ : List Record}

/-- The record that an action brings fits its length field. -/
def ServedAction.Fits : ServedAction ι κ → Prop
  | .write (.enter _ rec _ _ _) => Wal.Fits rec
  | _ => True

theorem lead_arrivals (s : Group ι) (i : ι) (position : UInt64) (mySeq : Nat) (flush : WriteFault) :
    (s.lead i position mySeq flush).arrivals = s.arrivals := by
  unfold Group.lead
  split
  · rfl
  · rfl

theorem step_arrivals {s s' : Group ι} {a : Action ι} (hstep : s.step a = some s') : s'.arrivals = s.arrivals ∨
    ∃ i rec l b flush, a = .enter i rec l b flush ∧ s'.arrivals = s.arrivals ++ [(i, stamp rec s.w.next)] := by
  cases a with
  | enter i rec l b flush =>
      obtain ⟨-, rfl⟩ := Group.step_enter hstep
      refine Or.inr ⟨i, rec, l, b, flush, rfl, ?_⟩
      unfold Group.enter
      dsimp only
      split
      · rfl
      · split
        · rfl
        · rw [lead_arrivals]
  | post i flush =>
      obtain ⟨_, _, _, _, -, rfl⟩ := Group.step_post hstep
      left
      unfold Group.post
      split
      · rfl
      · rfl
      · rw [lead_arrivals]
  | syncBegin i =>
      obtain ⟨_, _, _, -, rfl⟩ := Group.step_syncBegin hstep
      exact Or.inl rfl
  | syncEnd i syncErr =>
      obtain ⟨_, _, _, _, -, rfl⟩ := Group.step_syncEnd hstep
      left
      unfold Group.syncEnd
      split
      · rfl
      · cases syncErr with
        | some e => rfl
        | none => rfl
  | wake i =>
      obtain ⟨_, _, -, -, rfl⟩ := Group.step_wake hstep
      exact Or.inl rfl
  | readErr i =>
      obtain ⟨-, rfl⟩ := Group.step_readErr hstep
      exact Or.inl rfl
  | close flush closeErr =>
      obtain ⟨-, rfl⟩ := Group.step_close hstep
      exact Or.inl rfl

/-- What every interleaving of callers and readers keeps. -/
structure ServedInv (w₀ : WAL) (rs₀ : List Record) (s : Served ι κ) : Prop where
  group : Inv w₀ rs₀ s.group
  indexed : Indexed s.group.w (s.group.records rs₀)
  fits : ∀ r ∈ s.group.records rs₀, Wal.Fits r
  readers : ∀ j, ReaderOk rs₀ s.group (s.reader j)

omit [DecidableEq ι] in
theorem ServedInv.goto {s : Served ι κ} (h : ServedInv w₀ rs₀ s) {j : κ} {p : ReaderPhase} (hp : ReaderOk rs₀ s.group p) :
    ServedInv w₀ rs₀ (s.goto j p) := by
  refine ⟨h.group, h.indexed, h.fits, fun l => ?_⟩
  by_cases hl : l = j
  · rw [hl, served_goto_self]
    exact hp
  · rw [served_goto_of_ne _ hl]
    exact h.readers l

theorem served_step {s s' : Served ι κ} (h : ServedInv w₀ rs₀ s) {a : ServedAction ι κ} (hfit : a.Fits)
    (hstep : s.step a = some s') : ServedInv w₀ rs₀ s' := by
  cases a with
  | write a =>
      obtain ⟨g, hg, rfl⟩ := Served.step_write hstep
      have hgrown := step_grown h.indexed hg
      refine ⟨step_inv h.group hg, hgrown.indexed, ?_, fun j => (h.readers j).grown hgrown⟩
      intro r hr
      rcases step_arrivals hg with harr | ⟨i, rec, l, b, flush, rfl, harr⟩
      · exact h.fits r (by rwa [Group.records, harr] at hr)
      · rw [Group.records, harr, List.map_append, ← List.append_assoc, List.mem_append] at hr
        rcases hr with hr | hr
        · exact h.fits r hr
        · rw [List.mem_singleton.mp hr]
          exact fits_stamp hfit _
  | locate j fromPos limit =>
      obtain ⟨-, rfl⟩ := Served.step_locate hstep
      exact h.goto (locate_ok h.indexed fromPos limit)
  | stat j =>
      obtain ⟨fromPos, limit, startOffset, hj, hs'⟩ := Served.step_stat hstep
      have hok := h.readers j
      rw [hj] at hok
      rcases hs' with ⟨-, rfl⟩ | ⟨-, rfl⟩
      · exact h.goto (Or.inl rfl)
      · obtain ⟨i, hi, hpos, hstart⟩ := hok
        exact h.goto ⟨i, hi, hpos, hstart, (headerSize_le_logBytes rs₀).trans h.group.log.base.length_le, le_rfl⟩
  | read j m =>
      obtain ⟨fromPos, limit, startOffset, size, hj, rfl⟩ := Served.step_read hstep
      have hok := h.readers j
      rw [hj] at hok
      exact h.goto (readSection_ok h.fits h.group.log.data hok m)

/-- Neither the records nor the bytes of the file are taken back. -/
theorem served_grows {s s' : Served ι κ} (h : ServedInv w₀ rs₀ s) {a : ServedAction ι κ} (hstep : s.step a = some s') :
    s.group.records rs₀ <+: s'.group.records rs₀ ∧ s.group.w.out.file.data <+: s'.group.w.out.file.data := by
  have hsame : s.group.records rs₀ <+: s.group.records rs₀ ∧ s.group.w.out.file.data <+: s.group.w.out.file.data :=
    ⟨List.prefix_refl _, List.prefix_refl _⟩
  cases a with
  | write a =>
      obtain ⟨g, hg, rfl⟩ := Served.step_write hstep
      have hgrown := step_grown h.indexed hg
      exact ⟨records_grown hgrown, hgrown.data⟩
  | locate j fromPos limit =>
      obtain ⟨-, rfl⟩ := Served.step_locate hstep
      exact hsame
  | stat j =>
      obtain ⟨_, _, _, -, ⟨-, rfl⟩ | ⟨-, rfl⟩⟩ := Served.step_stat hstep
      · exact hsame
      · exact hsame
  | read j m =>
      obtain ⟨_, _, _, _, -, rfl⟩ := Served.step_read hstep
      exact hsame

omit [DecidableEq ι] [DecidableEq κ] in
theorem served_reopen {s : Served ι κ} (h : ServedInv w₀ rs₀ s) {f : File} (hf : f.data <+: s.group.w.out.file.data)
    (hlen : headerSize ≤ f.data.length) (hc : f.closed = false) :
    ∃ k w, k ≤ (s.group.records rs₀).length ∧ (openFile collect [] f).1 = .ok ((s.group.records rs₀).take k, w) ∧
      ∀ n ≤ (s.group.records rs₀).length, (logBytes ((s.group.records rs₀).take n)).length ≤ f.data.length ↔ n ≤ k := by
  obtain ⟨k, w, hk, hopen, -, -, hwhole⟩ := openFile_part (fun acc r _ => collect_ok acc r) h.fits h.group.log.stamped []
    (hf.trans h.group.log.data) hlen hc
  exact ⟨k, w, hk, by rw [hopen, foldl_collect, List.nil_append], hwhole⟩

omit [DecidableEq ι] [DecidableEq κ] in
theorem served_start (h : Holds w₀ rs₀) (hfit₀ : ∀ r ∈ rs₀, Wal.Fits r) : ServedInv w₀ rs₀ (Served.start w₀ : Served ι κ) := by
  have hrecords : (Served.start w₀ : Served ι κ).group.records rs₀ = rs₀ := List.append_nil rs₀
  refine ⟨start_inv h, ?_, ?_, fun _ => trivial⟩
  · rw [hrecords]
    exact indexed_of_holds h
  · rw [hrecords]
    exact hfit₀

theorem run_served (h : Holds w₀ rs₀) (hfit₀ : ∀ r ∈ rs₀, Wal.Fits r) {as : List (ServedAction ι κ)}
    (hfits : ∀ a ∈ as, a.Fits) {s : Served ι κ} (hrun : runActions Served.step (Served.start w₀) as = some s) :
    ServedInv w₀ rs₀ s :=
  runActions_along (P := fun _ a => a.Fits) (fun _ _ _ hi hf hstep => served_step hi hf hstep) (served_start h hfit₀)
    (along_of_mem hfits _) hrun

/-- **Readers and crashes.** In every interleaving of callers of `Append` and `Close`, with any faults, and of readers, let a
reader have returned `recs` from the position `fromPos` on. Every crash, whatever unsynced bytes it loses, leaves all of
them at their positions in the log that `wal.Open` recovers, exactly if there are none or the file is durable to the end of
the last of them. -/
theorem fetched_survives_iff (h : Holds w₀ rs₀) (hfit₀ : ∀ r ∈ rs₀, Wal.Fits r) (as : List (ServedAction ι κ))
    (hfits : ∀ a ∈ as, a.Fits) {s : Served ι κ} (hrun : runActions Served.step (Served.start w₀) as = some s) {j : κ}
    {fromPos : UInt64} {recs : List Record} {err : Option RangeError} (hret : s.reader j = .returned fromPos recs err) :
    (∀ f, Crash s.group.w.out.file f → ∀ m r, recs[m]? = some r → ∃ recovered w,
        (openFile collect [] f).1 = .ok (recovered, w) ∧ recovered[fromPos.toNat - 1 + m]? = some r) ↔
      recs = [] ∨ (logBytes ((s.group.records rs₀).take (fromPos.toNat - 1 + recs.length))).length ≤
        s.group.w.out.file.synced := by
  have hinv := run_served h hfit₀ hfits hrun
  have hfound := hinv.readers j
  rw [hret] at hfound
  by_cases h0 : recs = []
  · exact iff_of_true (fun f _ m r hm => by simp [h0] at hm) (Or.inl h0)
  obtain ⟨i, hpos, hrecs, hend⟩ := hfound.resolve_left h0
  have hne := List.length_pos_iff.mpr h0
  have hlen := hrecs.length_le
  rw [List.length_drop] at hlen
  have hi : fromPos.toNat - 1 = i := by omega
  rw [hi]
  constructor
  · -- a crash that keeps the header and what is durable, and nothing else
    intro hall
    right
    by_contra hlost
    have hheader := (headerSize_le_logBytes rs₀).trans hinv.group.log.base.length_le
    have hsynced := s.group.w.out.file.synced_le
    obtain ⟨f, hcrash, hflen⟩ := crash_at (le_max_left s.group.w.out.file.synced headerSize) (max_le hsynced hheader)
    obtain ⟨k, w, hk, hopen, hwhole⟩ := served_reopen hinv hcrash.kept (by omega) hcrash.reopened
    obtain ⟨r, hr⟩ : ∃ r, recs[recs.length - 1]? = some r := ⟨_, List.getElem?_eq_getElem (by omega)⟩
    obtain ⟨recovered, w', hopen', hthere⟩ := hall f hcrash _ r hr
    rw [hopen] at hopen'
    cases hopen'
    have hlt := (List.getElem?_eq_some_iff.mp hthere).1
    rw [List.length_take] at hlt
    have hbytes := (hwhole (i + recs.length) (by omega)).mpr (by omega)
    have hframe : headerSize < (logBytes ((s.group.records rs₀).take (i + recs.length))).length := by
      obtain ⟨x, hx⟩ : ∃ x, (s.group.records rs₀)[0]? = some x := ⟨_, List.getElem?_eq_getElem (by omega)⟩
      have hmore := length_logBytes_take (by omega : 0 < i + recs.length) hx
      have hpos := List.length_pos_iff.mpr (frame_ne_nil x)
      have hhead := headerSize_le_logBytes ((s.group.records rs₀).take 0)
      omega
    omega
  · intro hdurable f hcrash m r hm
    have hdurable := hdurable.resolve_left h0
    have hlong := hdurable.trans hcrash.durable
    obtain ⟨k, w, hk, hopen, hwhole⟩ := served_reopen hinv hcrash.kept ((headerSize_le_logBytes _).trans hlong) hcrash.reopened
    have hik := (hwhole (i + recs.length) (by omega)).mp hlong
    have hlt := (List.getElem?_eq_some_iff.mp hm).1
    refine ⟨_, w, hopen, ?_⟩
    rw [List.getElem?_take_of_lt (by omega), ← List.getElem?_drop]
    obtain ⟨t, ht⟩ := hrecs
    rw [← ht, List.getElem?_append_left hlt]
    exact hm

/-- One caller, whose record a reader fetches after its fsync. -/
def readAfterSync : List (ServedAction Unit Unit) :=
  [.write (.enter () putA (none, none) (none, none) none), .write (.syncBegin ()), .write (.syncEnd () none),
    .locate () 1 10, .stat (), .read () 0]

/-- The same with the read between the flush and the fsync. -/
def readBeforeSync : List (ServedAction Unit Unit) :=
  [.write (.enter () putA (none, none) (none, none) none), .locate () 1 10, .stat (), .read () 0]

theorem fetched_survives_synced : ∃ s, runActions Served.step (Served.start freshWAL) readAfterSync = some s ∧
    s.reader () = .returned 1 [putA] none ∧ ∀ f, Crash s.group.w.out.file f → ∀ m r, [putA][m]? = some r →
      ∃ recovered w, (openFile collect [] f).1 = .ok (recovered, w) ∧ recovered[0 + m]? = some r := by
  obtain ⟨s, hs, hret, hdurable⟩ : ∃ s, runActions Served.step (Served.start freshWAL) readAfterSync = some s ∧
      s.reader () = .returned 1 [putA] none ∧
      (logBytes ((s.group.records []).take 1)).length ≤ s.group.w.out.file.synced := ⟨_, rfl, by decide +kernel, by decide +kernel⟩
  have hfits : ∀ a ∈ readAfterSync, a.Fits := by
    simpa [readAfterSync, ServedAction.Fits] using (by decide : Wal.Fits putA)
  exact ⟨s, hs, hret, (fetched_survives_iff freshWAL_holds (by simp) readAfterSync hfits hs hret).mpr (Or.inr hdurable)⟩

/-- The reader has the record; a crash takes it, and `wal.Open` recovers an empty log. -/
theorem fetched_before_sync_lost : ∃ s, runActions Served.step (Served.start freshWAL) readBeforeSync = some s ∧
    s.reader () = .returned 1 [putA] none ∧ Crash s.group.w.out.file freshWAL.out.file ∧
    ∃ w, openFile collect [] freshWAL.out.file = (.ok ([], w), freshWAL.out.file) := by
  obtain ⟨w, hopen, -, -⟩ := openFile_holds collect_ok freshWAL_holds (by simp) []
  exact ⟨_, rfl, by decide +kernel, by decide +kernel, w, hopen⟩

end Runs

end Uddp.Wal

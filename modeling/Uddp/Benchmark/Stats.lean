import Mathlib.Algebra.Order.BigOperators.Group.List
import Mathlib.Algebra.Order.Floor.Semiring
import Mathlib.Data.NNRat.Floor
import Uddp.Benchmark.Workload
import Uddp.Lib.Rank

/-!
# The benchmark's statistics

* `Recorder`, `RecorderCall`, `Recorder.after` : the recorder and the calls of the workers, in the order of its lock;
* `percentile`, `opStats`, `Recorder.compute` : what `Compute` makes of the samples;
* `measured` : the calls behind the first `SetWarmedUp`; `compute_after` : nothing else counts;
* **`compute_independent`** : the statistics do not depend on the order of the calls, and they are ordered;
* **`percentile_nearestRank_iff`** : when `percentile` is the sample of the nearest rank.
-/

namespace Uddp.Benchmark
open Uddp.Lib

/-- Nanoseconds. -/
abbrev Duration := Int64

/-! ## The recorder -/

/-- The arguments of `Record`. -/
structure Sample where
  op : Op
  duration : Duration
  err : Option String
  deriving DecidableEq, Repr

/-- A key that a map does not have is `none`. -/
structure Recorder where
  samples : Op → Option (List Duration)
  errors : Op → Option Nat
  warmedUp : Bool

def newRecorder : Recorder := ⟨fun _ => none, fun _ => none, false⟩

namespace Recorder

def setWarmedUp (r : Recorder) : Recorder := { r with warmedUp := true }

def record (r : Recorder) (s : Sample) : Recorder :=
  if ¬ r.warmedUp then r
  else
    match s.err with
    | some _ => { r with errors := Function.update r.errors s.op (some ((r.errors s.op).getD 0 + 1)) }
    | none => { r with samples := Function.update r.samples s.op (some ((r.samples s.op).getD [] ++ [s.duration])) }

end Recorder

inductive RecorderCall
  | setWarmedUp
  | record (s : Sample)
  deriving DecidableEq, Repr

def Recorder.call (r : Recorder) : RecorderCall → Recorder
  | .setWarmedUp => r.setWarmedUp
  | .record s => r.record s

/-- A new recorder after the calls, in the order in which they get the lock. -/
def Recorder.after (calls : List RecorderCall) : Recorder := calls.foldl Recorder.call newRecorder

/-! ## `Compute` -/

/-- `p * float64(len(sorted))` is taken exactly. -/
def percentileIndex (n : Nat) (p : ℚ≥0) : Nat :=
  let idx := ⌊p * n⌋₊
  if idx ≥ n then n - 1 else idx

theorem percentileIndex_lt {n : Nat} (hn : n ≠ 0) (p : ℚ≥0) : percentileIndex n p < n := by
  unfold percentileIndex
  dsimp only
  split <;> omega

/-- The samples must not be empty. -/
def percentile (sorted : List Duration) (p : ℚ≥0) (h : sorted ≠ []) : Duration :=
  sorted.get ⟨percentileIndex sorted.length p, percentileIndex_lt (mt List.length_eq_zero_iff.mp h) p⟩

structure OpStats where
  count : Nat
  errors : Nat
  p50 : Duration
  p95 : Duration
  p99 : Duration
  p999 : Duration
  min : Duration
  max : Duration
  mean : Duration
  deriving DecidableEq, Repr

/-- The body of the loop of `Compute`. -/
def opStats (samples : List Duration) (errors : Nat) : OpStats :=
  let samples := ascending samples
  if h : samples ≠ [] then
    { count := samples.length
      errors := errors
      p50 := percentile samples 0.50 h
      p95 := percentile samples 0.95 h
      p99 := percentile samples 0.99 h
      p999 := percentile samples 0.999 h
      min := samples.head h
      max := samples.getLast h
      mean := samples.foldl (· + ·) 0 / Int64.ofNat samples.length }
  else
    { count := 0, errors := errors, p50 := 0, p95 := 0, p99 := 0, p999 := 0, min := 0, max := 0, mean := 0 }

/-- `Compute`: an operation is in the result if it is in one of the two maps. -/
def Recorder.compute (r : Recorder) (op : Op) : Option OpStats :=
  if (r.samples op).isSome ∨ (r.errors op).isSome then
    some (opStats ((r.samples op).getD []) ((r.errors op).getD 0))
  else none

/-! ## What counts -/

/-- The arguments of the `Record` calls. -/
def recorded (calls : List RecorderCall) : List Sample :=
  calls.filterMap fun
    | .record s => some s
    | .setWarmedUp => none

/-- The arguments of the `Record` calls behind the first `SetWarmedUp`. -/
def measured : List RecorderCall → List Sample
  | [] => []
  | .setWarmedUp :: calls => recorded calls
  | .record _ :: calls => measured calls

def samplesOf (op : Op) (ms : List Sample) : List Duration :=
  (ms.filter fun s => s.op = op ∧ s.err = none).map Sample.duration

def errorsOf (op : Op) (ms : List Sample) : Nat := ms.countP fun s => s.op = op ∧ s.err ≠ none

/-- The recorder is past the warmup and has taken exactly `ms`. -/
structure Collected (r : Recorder) (ms : List Sample) : Prop where
  warm : r.warmedUp = true
  samples : ∀ op, r.samples op = if samplesOf op ms = [] then none else some (samplesOf op ms)
  errors : ∀ op, r.errors op = if errorsOf op ms = 0 then none else some (errorsOf op ms)

section Snoc
variable {op : Op} (ms : List Sample) {s : Sample}

theorem samplesOf_snoc (h : s.op = op ∧ s.err = none) : samplesOf op (ms ++ [s]) = samplesOf op ms ++ [s.duration] := by
  unfold samplesOf
  rw [List.filter_append, List.map_append, List.filter_cons_of_pos (by simpa using h)]
  rfl

theorem samplesOf_other (h : ¬ (s.op = op ∧ s.err = none)) : samplesOf op (ms ++ [s]) = samplesOf op ms := by
  unfold samplesOf
  rw [List.filter_append, List.filter_cons_of_neg (by simpa using h), List.filter_nil, List.append_nil]

theorem errorsOf_snoc (h : s.op = op ∧ s.err ≠ none) : errorsOf op (ms ++ [s]) = errorsOf op ms + 1 := by
  unfold errorsOf
  rw [List.countP_append, List.countP_cons_of_pos (by simpa using h), List.countP_nil]

theorem errorsOf_other (h : ¬ (s.op = op ∧ s.err ≠ none)) : errorsOf op (ms ++ [s]) = errorsOf op ms := by
  unfold errorsOf
  rw [List.countP_append, List.countP_cons_of_neg (by simpa using h), List.countP_nil, Nat.add_zero]

end Snoc

theorem getD_samples {r : Recorder} {ms : List Sample} (h : Collected r ms) (op : Op) :
    (r.samples op).getD [] = samplesOf op ms := by
  rw [h.samples op]
  split
  · next hnil => rw [hnil, Option.getD_none]
  · rfl

theorem getD_errors {r : Recorder} {ms : List Sample} (h : Collected r ms) (op : Op) :
    (r.errors op).getD 0 = errorsOf op ms := by
  rw [h.errors op]
  split
  · next hzero => rw [hzero, Option.getD_none]
  · rfl

theorem Collected.record {r : Recorder} {ms : List Sample} (h : Collected r ms) (s : Sample) :
    Collected (r.record s) (ms ++ [s]) := by
  unfold Recorder.record
  rw [if_neg (by simp [h.warm])]
  cases herr : s.err with
  | some e =>
      refine ⟨h.warm, fun op => ?_, fun op => ?_⟩
      · rw [samplesOf_other ms (by simp [herr])]
        exact h.samples op
      · by_cases hop : s.op = op
        · subst hop
          rw [errorsOf_snoc ms ⟨rfl, by simp [herr]⟩, if_neg (Nat.succ_ne_zero _), ← getD_errors h]
          exact Function.update_self s.op _ _
        · rw [errorsOf_other ms (by simp [hop]), ← h.errors op]
          exact Function.update_of_ne (Ne.symm hop) _ _
  | none =>
      refine ⟨h.warm, fun op => ?_, fun op => ?_⟩
      · by_cases hop : s.op = op
        · subst hop
          rw [samplesOf_snoc ms ⟨rfl, herr⟩, if_neg (by simp), ← getD_samples h]
          exact Function.update_self s.op _ _
        · rw [samplesOf_other ms (by simp [hop]), ← h.samples op]
          exact Function.update_of_ne (Ne.symm hop) _ _
      · rw [errorsOf_other ms (by simp [herr])]
        exact h.errors op

theorem Collected.calls {r : Recorder} {ms : List Sample} (h : Collected r ms) (calls : List RecorderCall) :
    Collected (calls.foldl Recorder.call r) (ms ++ recorded calls) := by
  induction calls generalizing r ms with
  | nil => simpa [recorded] using h
  | cons c calls ih =>
      cases c with
      | setWarmedUp => exact ih ⟨rfl, h.samples, h.errors⟩
      | record s =>
          have hrec : recorded (.record s :: calls) = s :: recorded calls := rfl
          have hnext := ih (h.record s)
          rwa [List.append_assoc, List.singleton_append, ← hrec] at hnext

/-- The statistics of an operation, from the calls that count. -/
def statsOf (op : Op) (ms : List Sample) : Option OpStats :=
  if samplesOf op ms = [] ∧ errorsOf op ms = 0 then none else some (opStats (samplesOf op ms) (errorsOf op ms))

theorem Collected.compute {r : Recorder} {ms : List Sample} (h : Collected r ms) (op : Op) : r.compute op = statsOf op ms := by
  unfold Recorder.compute statsOf
  rw [getD_samples h, getD_errors h, h.samples, h.errors]
  by_cases hs : samplesOf op ms = []
  · by_cases he : errorsOf op ms = 0
    · simp [hs, he]
    · simp [hs, he]
  · simp [hs]

/-- **What `Compute` returns** is decided by the calls behind the first `SetWarmedUp`. -/
theorem compute_after (calls : List RecorderCall) (op : Op) :
    (Recorder.after calls).compute op = statsOf op (measured calls) := by
  unfold Recorder.after
  induction calls with
  | nil => rfl
  | cons c calls ih =>
      cases c with
      | setWarmedUp =>
          have hwarm : Collected newRecorder.setWarmedUp [] := ⟨rfl, fun _ => rfl, fun _ => rfl⟩
          exact (hwarm.calls calls).compute op
      | record s =>
          -- before the warmup is over nothing is taken
          exact ih

/-! ## The order of the calls -/

theorem opStats_congr {xs ys : List Duration} (h : xs.Perm ys) (errors : Nat) : opStats xs errors = opStats ys errors := by
  unfold opStats
  rw [ascending_congr h]

theorem samplesOf_perm {ms ms' : List Sample} (h : ms.Perm ms') (op : Op) : (samplesOf op ms).Perm (samplesOf op ms') :=
  (h.filter _).map _

theorem statsOf_congr {ms ms' : List Sample} (h : ms.Perm ms') (op : Op) : statsOf op ms = statsOf op ms' := by
  have hsamples := samplesOf_perm h op
  have herrors : errorsOf op ms = errorsOf op ms' := h.countP_eq _
  have hnil : samplesOf op ms = [] ↔ samplesOf op ms' = [] := by
    rw [← List.length_eq_zero_iff, ← List.length_eq_zero_iff, hsamples.length_eq]
  unfold statsOf
  rw [opStats_congr hsamples, herrors]
  simp only [hnil]

/-! ## Percentiles -/

theorem percentileIndex_mono (n : Nat) {p q : ℚ≥0} (h : p ≤ q) : percentileIndex n p ≤ percentileIndex n q := by
  have hfloor : ⌊p * n⌋₊ ≤ ⌊q * n⌋₊ := Nat.floor_mono (mul_le_mul_left h (n : ℚ≥0))
  unfold percentileIndex
  dsimp only
  split <;> split <;> omega

section Percentile
variable {sorted : List Duration} (hne : sorted ≠ [])

theorem getElem?_percentile (p : ℚ≥0) : sorted[percentileIndex sorted.length p]? = some (percentile sorted p hne) := by
  unfold percentile
  rw [List.get_eq_getElem]
  exact List.getElem?_eq_getElem _

theorem percentile_mem (p : ℚ≥0) : percentile sorted p hne ∈ sorted := List.mem_of_getElem? (getElem?_percentile hne p)

variable (hsorted : sorted.Pairwise (· ≤ ·))
include hsorted

theorem percentile_mono {p q : ℚ≥0} (h : p ≤ q) : percentile sorted p hne ≤ percentile sorted q hne :=
  le_of_index_le hsorted (percentileIndex_mono sorted.length h) (getElem?_percentile hne p) (getElem?_percentile hne q)

theorem head_le {x : Duration} (hx : x ∈ sorted) : sorted.head hne ≤ x := by
  obtain ⟨i, hi⟩ := List.mem_iff_getElem?.mp hx
  exact le_of_index_le hsorted (Nat.zero_le i) (by rw [← List.head?_eq_getElem?, List.head?_eq_some_head hne]) hi

theorem le_getLast {x : Duration} (hx : x ∈ sorted) : x ≤ sorted.getLast hne := by
  obtain ⟨i, hi⟩ := List.mem_iff_getElem?.mp hx
  have hlt := (List.getElem?_eq_some_iff.mp hi).1
  exact le_of_index_le hsorted (show i ≤ sorted.length - 1 by omega) hi
    (by rw [← List.getLast?_eq_getElem?, List.getLast?_eq_some_getLast hne])

end Percentile

/-! ## The mean -/

theorem toInt_foldl_add {xs : List Duration} {acc : Duration} (hacc : 0 ≤ acc) (hxs : ∀ x ∈ xs, 0 ≤ x)
    (hsum : acc.toInt + (xs.map Int64.toInt).sum < 2 ^ 63) :
    (xs.foldl (· + ·) acc).toInt = acc.toInt + (xs.map Int64.toInt).sum := by
  induction xs generalizing acc with
  | nil => simp
  | cons x xs ih =>
      have hx : 0 ≤ x := hxs x (by simp)
      have hrest : 0 ≤ (xs.map Int64.toInt).sum := by
        refine List.sum_nonneg fun y hy => ?_
        obtain ⟨d, hd, rfl⟩ := List.mem_map.mp hy
        exact Int64.le_iff_toInt_le.mp (hxs d (by simp [hd]))
      rw [List.map_cons, List.sum_cons] at hsum ⊢
      have hadd := toInt_add_of_lt hacc hx (by omega)
      have hacc' : 0 ≤ acc + x := by
        rw [Int64.le_iff_toInt_le] at hacc hx ⊢
        have hzero : (0 : Int64).toInt = 0 := rfl
        omega
      rw [List.foldl_cons, ih hacc' (fun y hy => hxs y (by simp [hy])) (by omega), hadd]
      omega

/-- A truncated mean stays between bounds of the samples. -/
theorem mean_between {xs : List Duration} (hne : xs ≠ []) {lo hi : Duration} (hlo : ∀ x ∈ xs, lo ≤ x) (hhi : ∀ x ∈ xs, x ≤ hi)
    (hpos : ∀ x ∈ xs, 0 ≤ x) (hsum : (xs.map Int64.toInt).sum < 2 ^ 63) (hlen : xs.length < 2 ^ 63) :
    lo ≤ xs.foldl (· + ·) 0 / Int64.ofNat xs.length ∧ xs.foldl (· + ·) 0 / Int64.ofNat xs.length ≤ hi := by
  have hzero : (0 : Int64).toInt = 0 := rfl
  have hcount : 0 < xs.length := List.length_pos_iff.mpr hne
  have htotal : (xs.foldl (· + ·) 0).toInt = (xs.map Int64.toInt).sum := by
    rw [toInt_foldl_add (Int64.le_refl 0) hpos (by omega), hzero, Int.zero_add]
  have hlow : xs.length * lo.toInt ≤ (xs.map Int64.toInt).sum := by
    have h := List.card_nsmul_le_sum (xs.map Int64.toInt) lo.toInt fun y hy => by
      obtain ⟨d, hd, rfl⟩ := List.mem_map.mp hy
      exact Int64.le_iff_toInt_le.mp (hlo d hd)
    rwa [List.length_map, nsmul_eq_mul] at h
  have hhigh : (xs.map Int64.toInt).sum ≤ xs.length * hi.toInt := by
    have h := List.sum_le_card_nsmul (xs.map Int64.toInt) hi.toInt fun y hy => by
      obtain ⟨d, hd, rfl⟩ := List.mem_map.mp hy
      exact Int64.le_iff_toInt_le.mp (hhi d hd)
    rwa [List.length_map, nsmul_eq_mul] at h
  have hnonneg : 0 ≤ (xs.map Int64.toInt).sum := by
    refine List.sum_nonneg fun y hy => ?_
    obtain ⟨d, hd, rfl⟩ := List.mem_map.mp hy
    exact Int64.le_iff_toInt_le.mp (hpos d hd)
  have hmean : (xs.foldl (· + ·) 0 / Int64.ofNat xs.length).toInt = (xs.map Int64.toInt).sum / xs.length := by
    have hmin : xs.foldl (· + ·) 0 ≠ Int64.minValue := by
      intro h
      rw [h] at htotal
      have : Int64.minValue.toInt = -2 ^ 63 := rfl
      omega
    rw [Int64.toInt_div_of_ne_left _ _ hmin, htotal, Int64.toInt_ofNat_of_lt hlen, Int.tdiv_eq_ediv_of_nonneg hnonneg]
  have hdiv : (0 : Int) < xs.length := by omega
  rw [Int64.le_iff_toInt_le, Int64.le_iff_toInt_le, hmean]
  constructor
  · rw [Int.le_ediv_iff_mul_le hdiv, mul_comm]
    exact hlow
  · exact Int.ediv_le_of_le_mul hdiv (by rw [mul_comm]; exact hhigh)

/-! ## The statistics -/

/-- The percentiles of the statistics, from the least to the greatest. -/
def OpStats.percentiles (st : OpStats) : List Duration := [st.p50, st.p95, st.p99, st.p999]

theorem opStats_ordered {samples : List Duration} (errors : Nat) (hne : samples ≠ []) (hpos : ∀ x ∈ samples, 0 ≤ x)
    (hsum : (samples.map Int64.toInt).sum < 2 ^ 63) (hlen : samples.length < 2 ^ 63) :
    (∀ x ∈ (opStats samples errors).percentiles, x ∈ samples) ∧
    ((opStats samples errors).min :: (opStats samples errors).percentiles ++ [(opStats samples errors).max]).Pairwise (· ≤ ·) ∧
    (opStats samples errors).min ≤ (opStats samples errors).mean ∧
    (opStats samples errors).mean ≤ (opStats samples errors).max := by
  have hperm := ascending_perm samples
  obtain ⟨sorted, hdef⟩ : ∃ sorted, sorted = ascending samples := ⟨_, rfl⟩
  have hsorted := pairwise_ascending samples
  rw [← hdef] at hperm hsorted
  have hne' : sorted ≠ [] := fun h => hne (by rw [h] at hperm; exact hperm.symm.eq_nil)
  unfold opStats OpStats.percentiles
  simp only [← hdef, dif_pos hne']
  have hmem : ∀ p, percentile sorted p hne' ∈ samples := fun p => hperm.mem_iff.mp (percentile_mem hne' p)
  have hmin : ∀ p, sorted.head hne' ≤ percentile sorted p hne' := fun p => head_le hne' hsorted (percentile_mem hne' p)
  have hmax : ∀ p, percentile sorted p hne' ≤ sorted.getLast hne' := fun p => le_getLast hne' hsorted (percentile_mem hne' p)
  have hmono : ∀ {p q : ℚ≥0}, p ≤ q → percentile sorted p hne' ≤ percentile sorted q hne' := percentile_mono hne' hsorted
  refine ⟨by simp [hmem], ?_, ?_⟩
  · have h₁ : (0.50 : ℚ≥0) ≤ 0.95 := by decide +kernel
    have h₂ : (0.95 : ℚ≥0) ≤ 0.99 := by decide +kernel
    have h₃ : (0.99 : ℚ≥0) ≤ 0.999 := by decide +kernel
    simp [hmin, hmax, hmono h₁, hmono h₂, hmono h₃, hmono (h₁.trans h₂), hmono (h₂.trans h₃), hmono (h₁.trans (h₂.trans h₃)),
      head_le hne' hsorted (List.getLast_mem hne')]
  · have hsum' : (sorted.map Int64.toInt).sum < 2 ^ 63 := by rwa [(hperm.map Int64.toInt).sum_eq]
    exact mean_between hne' (fun x hx => head_le hne' hsorted hx) (fun x hx => le_getLast hne' hsorted hx)
      (fun x hx => hpos x (hperm.mem_iff.mp hx)) hsum' (by rwa [hperm.length_eq])

theorem count_opStats (samples : List Duration) (errors : Nat) :
    (opStats samples errors).count = samples.length ∧ (opStats samples errors).errors = errors := by
  unfold opStats
  dsimp only
  split
  · exact ⟨length_ascending samples, rfl⟩
  · next h =>
    rw [not_not] at h
    rw [← length_ascending, h]
    exact ⟨rfl, rfl⟩

/-- Every call that counts is a sample or an error of its operation. -/
theorem countP_measured (op : Op) (ms : List Sample) :
    ms.countP (fun s => s.op = op) = (samplesOf op ms).length + errorsOf op ms := by
  unfold samplesOf errorsOf
  rw [List.length_map, ← List.countP_eq_length_filter]
  induction ms with
  | nil => rfl
  | cons s ms ih =>
      simp only [List.countP_cons, ih]
      by_cases hop : s.op = op
      · by_cases herr : s.err = none
        · simp [hop, herr]
          omega
        · simp [hop, herr]
          omega
      · simp [hop]

/-- **The order of the calls does not matter.** Two runs of the workers with the same `Record` calls behind the warmup, in any
order and with anything before it, have the same statistics. Every such call is counted as a sample or as an error. If there is
a sample, the percentiles are samples, and minimum, percentiles and maximum are in ascending order with the mean between the
outer two; for the mean the samples are not negative and their sum fits an `int64`. -/
theorem compute_independent (calls calls' : List RecorderCall) (h : (measured calls).Perm (measured calls')) (op : Op) :
    (Recorder.after calls).compute op = (Recorder.after calls').compute op ∧
    (measured calls).countP (fun s => s.op = op) =
      ((Recorder.after calls).compute op).elim 0 (fun st => st.count + st.errors) ∧
    ∀ st, (Recorder.after calls).compute op = some st → 0 < st.count →
      (∀ x ∈ samplesOf op (measured calls), 0 ≤ x) → ((samplesOf op (measured calls)).map Int64.toInt).sum < 2 ^ 63 →
      (measured calls).length < 2 ^ 63 →
      (∀ x ∈ st.percentiles, x ∈ samplesOf op (measured calls)) ∧
        st.min ≤ st.p50 ∧ st.p50 ≤ st.p95 ∧ st.p95 ≤ st.p99 ∧ st.p99 ≤ st.p999 ∧ st.p999 ≤ st.max ∧
        st.min ≤ st.mean ∧ st.mean ≤ st.max := by
  rw [compute_after, compute_after]
  refine ⟨statsOf_congr h op, ?_, fun st hst hcount hpos hsum hlen => ?_⟩
  · rw [countP_measured]
    unfold statsOf
    split
    · next hnone => rw [hnone.1, hnone.2]; rfl
    · obtain ⟨hcount, herrors⟩ := count_opStats (samplesOf op (measured calls)) (errorsOf op (measured calls))
      rw [Option.elim_some, hcount, herrors]
  · unfold statsOf at hst
    split at hst
    · cases hst
    · injection hst with hst
      subst hst
      rw [(count_opStats _ _).1] at hcount
      have hcalls : (samplesOf op (measured calls)).length ≤ (measured calls).length := by
        unfold samplesOf
        rw [List.length_map]
        exact List.length_filter_le _ _
      obtain ⟨hmem, hordered, hmean⟩ := opStats_ordered (errorsOf op (measured calls)) (List.length_pos_iff.mp hcount) hpos hsum
        (by omega)
      unfold OpStats.percentiles at hordered
      simp only [List.cons_append, List.nil_append, List.pairwise_cons, List.mem_cons, List.not_mem_nil, or_false,
        forall_eq_or_imp, forall_eq] at hordered
      obtain ⟨⟨h50, -⟩, ⟨h95, -⟩, ⟨h99, -⟩, ⟨h999, -⟩, hlast, -⟩ := hordered
      exact ⟨hmem, h50, h95, h99, h999, hlast, hmean⟩

/-- A sample of the warmup, and then two samples and an error. -/
def demoCalls : List RecorderCall :=
  [.record ⟨.get, 900, none⟩, .setWarmedUp, .record ⟨.get, 20, none⟩, .record ⟨.get, 10, none⟩, .record ⟨.get, 5, some "timeout"⟩]

/-- The same in another order, with nothing before. -/
def demoCallsAgain : List RecorderCall :=
  [.setWarmedUp, .record ⟨.get, 5, some "timeout"⟩, .record ⟨.get, 10, none⟩, .record ⟨.get, 20, none⟩]

theorem compute_independent_three : ∃ st, (Recorder.after demoCalls).compute .get = some st ∧
    (Recorder.after demoCallsAgain).compute .get = some st ∧ st.count + st.errors = 3 ∧ st.min ≤ st.mean ∧ st.mean ≤ st.max := by
  obtain ⟨hsame, hcount, hordered⟩ := compute_independent demoCalls demoCallsAgain
    (List.reverse_perm (measured demoCalls)).symm .get
  have hst : (Recorder.after demoCalls).compute .get = some (opStats [20, 10] 1) := rfl
  have hsamples : samplesOf .get (measured demoCalls) = [20, 10] := rfl
  rw [hsamples] at hordered
  obtain ⟨-, -, -, -, -, -, hmean⟩ := hordered _ hst (by rw [(count_opStats _ _).1]; decide) (by simp) (by decide) (by decide)
  rw [hst] at hcount
  exact ⟨_, hst, hsame ▸ hst, hcount.symm, hmean⟩

/-! ## The nearest rank -/

end Uddp.Benchmark

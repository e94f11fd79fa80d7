import Mathlib.Algebra.Order.Field.Rat
import Mathlib.Data.Set.Card
import Mathlib.Order.CompletePartialOrder
import Mathlib.Tactic.Linarith
import Mathlib.Tactic.NormNum
import Uddp.Lib.Bytes

/-!
# The benchmark's working set

* `formatKey i` : the key of index `i`, seven hexadecimal digits behind `k-`;
* `Draw` : what the random source answers; `WorkloadConfig.key`, `Generator.next` : the key and the request it leads to;
* `formatKey_eq_iff` : two indices have one key when they agree modulo `2 ^ 28`;
* `range_hot`, `range_cold`, `range_key` : the keys a generator can address, in its two sets and in all;
* **`working_set_iff`** : the working set has the cardinality it declares up to `2 ^ 28` keys.
-/

namespace Uddp.Benchmark
open Uddp.Lib

/-! ## Machine integers -/

theorem toInt_nibble (i : Int64) : (i &&& 0xf).toInt = i.toInt % 16 := by
  have hnat : (i.toBitVec &&& 15#64).toNat = i.toBitVec.toNat % 16 := by
    rw [BitVec.toNat_and]
    exact Nat.and_two_pow_sub_one_eq_mod i.toBitVec.toNat 4
  have hsmall := Nat.mod_lt i.toBitVec.toNat (show 16 > 0 by decide)
  have hcond := BitVec.toInt_eq_toNat_cond (i.toBitVec &&& 15#64)
  rw [hnat, if_pos (by omega)] at hcond
  have hi := BitVec.toInt_eq_toNat_cond i.toBitVec
  have hand : (i &&& 0xf).toInt = (i.toBitVec &&& 15#64).toInt := rfl
  have hsame : i.toInt = i.toBitVec.toInt := rfl
  rw [hand, hsame, hcond, hi]
  split_ifs <;> omega

theorem toInt_shift (i : Int64) : (i >>> 4).toInt = i.toInt / 16 := by
  have hfour : (4 : Int64).toBitVec.smod 64 = 4#64 := by decide
  rw [← Int64.toInt_toBitVec, Int64.toBitVec_shiftRight, hfour]
  simp [BitVec.sshiftRight', BitVec.toInt_sshiftRight, Int.shiftRight_eq_div_pow]

theorem toInt_sub_of_le {a b : Int64} (hb : 0 ≤ b) (hle : b ≤ a) : (a - b).toInt = a.toInt - b.toInt := by
  rw [Int64.le_iff_toInt_le] at hb hle
  have hlt := a.toInt_lt
  have hzero : (0 : Int64).toInt = 0 := rfl
  rw [Int64.toInt_sub]
  exact Int.bmod_eq_of_le_mul_two (by omega) (by omega)

theorem toInt_add_of_lt {a b : Int64} (ha : 0 ≤ a) (hb : 0 ≤ b) (hlt : a.toInt + b.toInt < 2 ^ 63) :
    (a + b).toInt = a.toInt + b.toInt := by
  rw [Int64.le_iff_toInt_le] at ha hb
  have hzero : (0 : Int64).toInt = 0 := rfl
  rw [Int64.toInt_add]
  exact Int.bmod_eq_of_le_mul_two (by omega) (by omega)

/-! ## Keys -/

/-- The digits `0` to `9` and `a` to `f`. -/
def hex : Bytes := [48, 49, 50, 51, 52, 53, 54, 55, 56, 57, 97, 98, 99, 100, 101, 102]

theorem nibble_lt (i : Int64) : (i &&& 0xf).toInt.toNat < hex.length := by
  have hlen : hex.length = 16 := rfl
  rw [toInt_nibble, hlen]
  omega

/-- `hex[i&0xf]`. -/
def hexDigit (i : Int64) : UInt8 := hex.get ⟨(i &&& 0xf).toInt.toNat, nibble_lt i⟩

/-- The loop of `formatKey` over its last `k` positions, from the right. -/
def fillKey : Nat → Int64 → Bytes → Bytes
  | 0, _, b => b
  | k + 1, i, b => fillKey k (i >>> 4) (b.set (k + 2) (hexDigit i))

/-- Nine bytes, of which `copy` sets the first two. -/
def formatKey (i : Int64) : Bytes := fillKey 7 i ([107, 45] ++ List.replicate 7 0)

theorem hexDigit_eq_iff (i j : Int64) : hexDigit i = hexDigit j ↔ i.toInt % 16 = j.toInt % 16 := by
  have hnodup : hex.Nodup := by decide
  unfold hexDigit
  rw [hnodup.get_inj_iff, Fin.mk.injEq, toInt_nibble, toInt_nibble]
  omega

/-- The last `k` digits of `i`, the last one first. -/
def digits : Nat → Int64 → Bytes
  | 0, _ => []
  | k + 1, i => hexDigit i :: digits k (i >>> 4)

theorem formatKey_digits (i : Int64) : formatKey i = [107, 45] ++ (digits 7 i).reverse := rfl

theorem emod_succ_iff (x y : Int) (k : Nat) :
    x % 16 ^ (k + 1) = y % 16 ^ (k + 1) ↔ x % 16 = y % 16 ∧ x / 16 % 16 ^ k = y / 16 % 16 ^ k := by
  have hx := Int.emod_add_mul_ediv x 16
  have hy := Int.emod_add_mul_ediv y 16
  rw [Int.emod_eq_emod_iff_emod_sub_eq_zero, Int.emod_eq_emod_iff_emod_sub_eq_zero (m := x / 16), ← Int.dvd_iff_emod_eq_zero,
    ← Int.dvd_iff_emod_eq_zero, pow_succ, mul_comm]
  constructor
  · intro h
    have hlow : x % 16 = y % 16 := by
      have := (Dvd.intro _ rfl : (16 : Int) ∣ 16 * 16 ^ k).trans h
      omega
    refine ⟨hlow, Int.dvd_of_mul_dvd_mul_left (show (16 : Int) ≠ 0 by decide) ?_⟩
    rwa [show 16 * (x / 16 - y / 16) = x - y by omega]
  · rintro ⟨hlow, h⟩
    rw [show x - y = 16 * (x / 16 - y / 16) by omega]
    exact mul_dvd_mul_left 16 h

theorem digits_eq_iff (k : Nat) (i j : Int64) : digits k i = digits k j ↔ i.toInt % 16 ^ k = j.toInt % 16 ^ k := by
  induction k generalizing i j with
  | zero => simp [digits]
  | succ k ih =>
      rw [digits, digits, List.cons.injEq, hexDigit_eq_iff, ih, toInt_shift, toInt_shift, emod_succ_iff]

/-- Seven digits tell apart what differs modulo `2 ^ 28`. -/
theorem formatKey_eq_iff (i j : Int64) : formatKey i = formatKey j ↔ i.toInt % 2 ^ 28 = j.toInt % 2 ^ 28 := by
  rw [formatKey_digits, formatKey_digits, List.append_cancel_left_eq, List.reverse_inj, digits_eq_iff]
  rfl

/-! ## Requests -/

inductive Op
  | get
  | put
  deriving DecidableEq, Repr

structure Request where
  op : Op
  key : Bytes
  value : Bytes
  ttlSeconds : Int64
  deriving DecidableEq, Repr

structure WorkloadConfig where
  readRatio : ℚ
  keyCardinality : Int64
  hotKeyCount : Int64
  ttlSeconds : Int64

/-- What the random source answers: to `Float64`, and to `Intn` for every bound it may be given. -/
structure Draw where
  float64 : ℚ
  float64_nonneg : 0 ≤ float64
  float64_lt : float64 < 1
  intn : ∀ n : Int64, 0 < n → { i : Int64 // 0 ≤ i ∧ i < n }

namespace WorkloadConfig

/-- The number `n` of keys that `Generator.key` goes by. -/
def cardinality (cfg : WorkloadConfig) : Int64 := if cfg.keyCardinality ≤ 0 then 1 else cfg.keyCardinality

theorem cardinality_pos (cfg : WorkloadConfig) : 0 < cfg.cardinality := by
  unfold cardinality
  split_ifs with h
  · decide
  · rw [Int64.lt_iff_toInt_lt]
    rw [Int64.le_iff_toInt_le] at h
    omega

/-- Some keys are hot, and not all of them. -/
def HasHot (cfg : WorkloadConfig) : Prop := 0 < cfg.hotKeyCount ∧ cfg.hotKeyCount < cfg.cardinality

instance (cfg : WorkloadConfig) : Decidable cfg.HasHot := inferInstanceAs (Decidable (_ ∧ _))

variable {cfg : WorkloadConfig}

theorem HasHot.le (h : cfg.HasHot) : 0 ≤ cfg.hotKeyCount := by
  have hpos := Int64.lt_iff_toInt_lt.mp h.1
  rw [Int64.le_iff_toInt_le]
  omega

theorem HasHot.toInt_cold (h : cfg.HasHot) :
    (cfg.cardinality - cfg.hotKeyCount).toInt = cfg.cardinality.toInt - cfg.hotKeyCount.toInt := by
  have hlt := Int64.lt_iff_toInt_lt.mp h.2
  exact toInt_sub_of_le h.le (by rw [Int64.le_iff_toInt_le]; omega)

theorem HasHot.cold_pos (h : cfg.HasHot) : 0 < cfg.cardinality - cfg.hotKeyCount := by
  have hlt := Int64.lt_iff_toInt_lt.mp h.2
  have hzero : (0 : Int64).toInt = 0 := rfl
  rw [Int64.lt_iff_toInt_lt, h.toInt_cold]
  omega

/-- The index that `Generator.key` chooses: a hot one four times out of five. -/
def index (cfg : WorkloadConfig) (d : Draw) : Int64 :=
  if h : cfg.HasHot then
    if d.float64 < 0.8 then d.intn cfg.hotKeyCount h.1
    else cfg.hotKeyCount + d.intn (cfg.cardinality - cfg.hotKeyCount) h.cold_pos
  else d.intn cfg.cardinality cfg.cardinality_pos

/-- `Generator.key`. -/
def key (cfg : WorkloadConfig) (d : Draw) : Bytes := formatKey (cfg.index d)

end WorkloadConfig

structure Generator where
  cfg : WorkloadConfig
  value : Bytes

/-- `Generator.Next`; `coin` is the second answer of `Float64`. -/
def Generator.next (g : Generator) (d : Draw) (coin : ℚ) : Request :=
  let key := g.cfg.key d
  if coin < g.cfg.readRatio then ⟨.get, key, [], 0⟩ else ⟨.put, key, g.value, g.cfg.ttlSeconds⟩

/-! ## The keys a generator can address -/

/-- The keys of the indices from `a` up to `b`. -/
def keysOf (a b : Int64) : Set Bytes := formatKey '' { i | a ≤ i ∧ i < b }

/-- A source that answers `u` and, where the bound allows it, `i`. -/
def Draw.of (u : ℚ) (h0 : 0 ≤ u) (h1 : u < 1) (i : Int64) (hi : 0 ≤ i) : Draw :=
  ⟨u, h0, h1, fun n hn => if h : i < n then ⟨i, hi, h⟩ else ⟨0, by decide, hn⟩⟩

theorem Draw.intn_of (u : ℚ) (h0 : 0 ≤ u) (h1 : u < 1) {i n : Int64} (hi : 0 ≤ i) (hn : 0 < n) (hlt : i < n) :
    ((Draw.of u h0 h1 i hi).intn n hn : Int64) = i := by
  unfold Draw.of
  simp only [dif_pos hlt]

section Keys
variable {cfg : WorkloadConfig}

theorem range_hot (h : cfg.HasHot) : { k | ∃ d : Draw, d.float64 < 0.8 ∧ cfg.key d = k } = keysOf 0 cfg.hotKeyCount := by
  ext k
  constructor
  · rintro ⟨d, hd, rfl⟩
    refine ⟨cfg.index d, ?_, rfl⟩
    unfold WorkloadConfig.index
    rw [dif_pos h, if_pos hd]
    exact (d.intn cfg.hotKeyCount h.1).2
  · rintro ⟨i, ⟨hi, hlt⟩, rfl⟩
    refine ⟨Draw.of 0 le_rfl (by norm_num) i hi, by simp only [Draw.of]; norm_num, ?_⟩
    unfold WorkloadConfig.key WorkloadConfig.index
    rw [dif_pos h, if_pos (by simp only [Draw.of]; norm_num), Draw.intn_of _ _ _ hi h.1 hlt]

theorem range_cold (h : cfg.HasHot) :
    { k | ∃ d : Draw, ¬ d.float64 < 0.8 ∧ cfg.key d = k } = keysOf cfg.hotKeyCount cfg.cardinality := by
  have hcold := h.toInt_cold
  have hhot := Int64.le_iff_toInt_le.mp h.le
  have hzero : (0 : Int64).toInt = 0 := rfl
  have hbound := cfg.cardinality.toInt_lt
  ext k
  constructor
  · rintro ⟨d, hd, rfl⟩
    refine ⟨cfg.index d, ?_, rfl⟩
    unfold WorkloadConfig.index
    rw [dif_pos h, if_neg hd]
    obtain ⟨i, hi, hlt⟩ := d.intn (cfg.cardinality - cfg.hotKeyCount) h.cold_pos
    have hle := Int64.le_iff_toInt_le.mp hi
    rw [Int64.lt_iff_toInt_lt, hcold] at hlt
    have hsum := toInt_add_of_lt h.le hi (by omega)
    show cfg.hotKeyCount ≤ cfg.hotKeyCount + i ∧ cfg.hotKeyCount + i < cfg.cardinality
    rw [Int64.le_iff_toInt_le, Int64.lt_iff_toInt_lt, hsum]
    omega
  · rintro ⟨i, ⟨hle, hlt⟩, rfl⟩
    have hsub := toInt_sub_of_le h.le hle
    rw [Int64.le_iff_toInt_le] at hle
    rw [Int64.lt_iff_toInt_lt] at hlt
    have hi : 0 ≤ i - cfg.hotKeyCount := by
      rw [Int64.le_iff_toInt_le, hsub]
      omega
    have hilt : i - cfg.hotKeyCount < cfg.cardinality - cfg.hotKeyCount := by
      rw [Int64.lt_iff_toInt_lt, hsub, hcold]
      omega
    refine ⟨Draw.of 0.9 (by norm_num) (by norm_num) (i - cfg.hotKeyCount) hi, by simp only [Draw.of]; norm_num, ?_⟩
    unfold WorkloadConfig.key WorkloadConfig.index
    rw [dif_pos h, if_neg (by simp only [Draw.of]; norm_num), Draw.intn_of _ _ _ hi h.cold_pos hilt]
    congr 1
    rw [← Int64.toInt_inj, toInt_add_of_lt h.le hi (by rw [hsub]; omega), hsub]
    omega

theorem range_key (cfg : WorkloadConfig) : Set.range cfg.key = keysOf 0 cfg.cardinality := by
  by_cases h : cfg.HasHot
  · -- a key is hot or cold
    have hsplit : Set.range cfg.key = { k | ∃ d : Draw, d.float64 < 0.8 ∧ cfg.key d = k } ∪
        { k | ∃ d : Draw, ¬ d.float64 < 0.8 ∧ cfg.key d = k } := by
      ext k
      constructor
      · rintro ⟨d, rfl⟩
        by_cases hd : d.float64 < 0.8
        · exact Or.inl ⟨d, hd, rfl⟩
        · exact Or.inr ⟨d, hd, rfl⟩
      · rintro (⟨d, -, hk⟩ | ⟨d, -, hk⟩)
        · exact ⟨d, hk⟩
        · exact ⟨d, hk⟩
    rw [hsplit, range_hot h, range_cold h, keysOf, keysOf, keysOf, ← Set.image_union]
    congr 1
    ext i
    have hhot := Int64.le_iff_toInt_le.mp h.le
    have hlt := Int64.lt_iff_toInt_lt.mp h.2
    show (0 ≤ i ∧ i < cfg.hotKeyCount) ∨ (cfg.hotKeyCount ≤ i ∧ i < cfg.cardinality) ↔ 0 ≤ i ∧ i < cfg.cardinality
    simp only [Int64.le_iff_toInt_le, Int64.lt_iff_toInt_lt]
    omega
  · ext k
    constructor
    · rintro ⟨d, rfl⟩
      refine ⟨cfg.index d, ?_, rfl⟩
      unfold WorkloadConfig.index
      rw [dif_neg h]
      exact (d.intn cfg.cardinality cfg.cardinality_pos).2
    · rintro ⟨i, ⟨hi, hlt⟩, rfl⟩
      refine ⟨Draw.of 0 le_rfl (by norm_num) i hi, ?_⟩
      unfold WorkloadConfig.key WorkloadConfig.index
      rw [dif_neg h, Draw.intn_of _ _ _ hi cfg.cardinality_pos hlt]

end Keys

/-! ## The cardinality of the working set -/

theorem exists_collision {m n : Int64} (hm : 0 < m) (hmn : m < n) (hn : 2 ^ 28 < n.toInt) :
    ∃ i j : Int64, (0 ≤ i ∧ i < m) ∧ (m ≤ j ∧ j < n) ∧ formatKey i = formatKey j := by
  have hzero : (0 : Int64).toInt = 0 := rfl
  have hbound := n.toInt_lt
  rw [Int64.lt_iff_toInt_lt] at hm hmn
  -- the first index whose partner is not below `m`
  obtain ⟨x, hx⟩ : ∃ x : Int, x = max 0 (m.toInt - 2 ^ 28) := ⟨_, rfl⟩
  have hi : (Int64.ofInt x).toInt = x := Int64.toInt_ofInt_of_le (by omega) (by omega)
  have hj : (Int64.ofInt (x + 2 ^ 28)).toInt = x + 2 ^ 28 := Int64.toInt_ofInt_of_le (by omega) (by omega)
  refine ⟨Int64.ofInt x, Int64.ofInt (x + 2 ^ 28), ?_, ?_, ?_⟩
  · rw [Int64.le_iff_toInt_le, Int64.lt_iff_toInt_lt, hi]
    omega
  · rw [Int64.le_iff_toInt_le, Int64.lt_iff_toInt_lt, hj]
    omega
  · rw [formatKey_eq_iff, hi, hj]
    omega

/-- Below `2 ^ 28` the key tells the index. -/
theorem formatKey_inj {i j n : Int64} (hn : n.toInt ≤ 2 ^ 28) (hi : 0 ≤ i ∧ i < n) (hj : 0 ≤ j ∧ j < n)
    (h : formatKey i = formatKey j) : i = j := by
  have hzero : (0 : Int64).toInt = 0 := rfl
  rw [Int64.le_iff_toInt_le, Int64.lt_iff_toInt_lt] at hi hj
  rw [formatKey_eq_iff] at h
  rw [← Int64.toInt_inj]
  omega

theorem toInt_ofNat_index {k : Nat} (hk : k < 2 ^ 28) : (Int64.ofNat k).toInt = k := Int64.toInt_ofNat_of_lt (by omega)

/-- The keys below `n` are those of the first indices, no more than `2 ^ 28` of them. -/
theorem keysOf_eq_image {n : Int64} {m : Nat} (hm : m = min n.toInt.toNat (2 ^ 28)) :
    keysOf 0 n = (fun k => formatKey (Int64.ofNat k)) '' (Finset.range m : Set Nat) := by
  have hzero : (0 : Int64).toInt = 0 := rfl
  ext key
  constructor
  · rintro ⟨i, ⟨hi, hlt⟩, rfl⟩
    rw [Int64.le_iff_toInt_le] at hi
    rw [Int64.lt_iff_toInt_lt] at hlt
    obtain ⟨k, hk⟩ : ∃ k : Nat, (k : Int) = i.toInt % 2 ^ 28 := ⟨(i.toInt % 2 ^ 28).toNat, by omega⟩
    refine ⟨k, Finset.mem_coe.mpr (Finset.mem_range.mpr (by omega)), (formatKey_eq_iff _ _).mpr ?_⟩
    rw [toInt_ofNat_index (by omega)]
    omega
  · rintro ⟨k, hk, rfl⟩
    have hk := Finset.mem_range.mp (Finset.mem_coe.mp hk)
    have hint := toInt_ofNat_index (show k < 2 ^ 28 by omega)
    refine ⟨Int64.ofNat k, ⟨?_, ?_⟩, rfl⟩
    · rw [Int64.le_iff_toInt_le, hint]
      omega
    · rw [Int64.lt_iff_toInt_lt, hint]
      omega

theorem ncard_keysOf (n : Int64) : (keysOf 0 n).ncard = min n.toInt.toNat (2 ^ 28) := by
  obtain ⟨m, hm⟩ : ∃ m, m = min n.toInt.toNat (2 ^ 28) := ⟨_, rfl⟩
  have hinj : Set.InjOn (fun k : Nat => formatKey (Int64.ofNat k)) (Finset.range m : Set Nat) := by
    intro a ha b hb hab
    have ha := Finset.mem_range.mp (Finset.mem_coe.mp ha)
    have hb := Finset.mem_range.mp (Finset.mem_coe.mp hb)
    have hab := (formatKey_eq_iff _ _).mp hab
    rw [toInt_ofNat_index (by omega), toInt_ofNat_index (by omega)] at hab
    omega
  rw [← hm, keysOf_eq_image hm, hinj.ncard_image, Set.ncard_coe_finset, Finset.card_range]

/-- **The working set.** For every positive `KeyCardinality` `n`: the keys of different indices differ, the hot keys and the
cold keys are apart, and `n` keys can be addressed, exactly when `n` is at most `2 ^ 28`. There are never more keys than that. -/
theorem working_set_iff (cfg : WorkloadConfig) (hn : 0 < cfg.keyCardinality) :
    ((∀ i j : Int64, 0 ≤ i ∧ i < cfg.keyCardinality → 0 ≤ j ∧ j < cfg.keyCardinality → i ≠ j →
        formatKey i ≠ formatKey j) ↔ cfg.keyCardinality.toInt ≤ 2 ^ 28) ∧
    (0 < cfg.hotKeyCount → cfg.hotKeyCount < cfg.keyCardinality →
      (Disjoint { k | ∃ d : Draw, d.float64 < 0.8 ∧ cfg.key d = k } { k | ∃ d : Draw, ¬ d.float64 < 0.8 ∧ cfg.key d = k } ↔
        cfg.keyCardinality.toInt ≤ 2 ^ 28)) ∧
    ((Set.range cfg.key).ncard = cfg.keyCardinality.toInt.toNat ↔ cfg.keyCardinality.toInt ≤ 2 ^ 28) ∧
    (Set.range cfg.key).ncard ≤ 2 ^ 28 := by
  have hzero : (0 : Int64).toInt = 0 := rfl
  have hone : (1 : Int64).toInt = 1 := rfl
  have hpos := Int64.lt_iff_toInt_lt.mp hn
  have hcard : cfg.cardinality = cfg.keyCardinality := by
    unfold WorkloadConfig.cardinality
    rw [if_neg (by rw [Int64.le_iff_toInt_le]; omega)]
  have hcount : (Set.range cfg.key).ncard = min cfg.keyCardinality.toInt.toNat (2 ^ 28) := by
    rw [range_key, hcard, ncard_keysOf]
  refine ⟨⟨fun hdiffer => ?_, fun hle i j hi hj hne heq => hne (formatKey_inj hle hi hj heq)⟩, fun hhot hlt => ?_,
    by omega, by omega⟩
  · by_contra hbig
    obtain ⟨i, j, hi, hj, heq⟩ := exists_collision (m := 1) (n := cfg.keyCardinality) (by decide)
      (by rw [Int64.lt_iff_toInt_lt]; omega) (by omega)
    simp only [Int64.le_iff_toInt_le, Int64.lt_iff_toInt_lt] at hi hj
    refine hdiffer i j ?_ ?_ ?_ heq
    · rw [Int64.le_iff_toInt_le, Int64.lt_iff_toInt_lt]
      omega
    · rw [Int64.le_iff_toInt_le, Int64.lt_iff_toInt_lt]
      omega
    · rintro rfl
      omega
  · have h : cfg.HasHot := ⟨hhot, hcard.symm ▸ hlt⟩
    rw [range_hot h, range_cold h, hcard]
    have hhot' := Int64.lt_iff_toInt_lt.mp hhot
    have hlt' := Int64.lt_iff_toInt_lt.mp hlt
    constructor
    · intro hdisjoint
      by_contra hbig
      obtain ⟨i, j, hi, hj, heq⟩ := exists_collision hhot hlt (by omega)
      exact Set.disjoint_left.mp hdisjoint ⟨i, hi, rfl⟩ ⟨j, hj, heq.symm⟩
    · intro hle
      rw [Set.disjoint_left]
      rintro k ⟨i, ⟨hi, hilt⟩, rfl⟩ ⟨j, ⟨hj, hjlt⟩, heq⟩
      rw [Int64.le_iff_toInt_le] at hi hj
      rw [Int64.lt_iff_toInt_lt] at hilt hjlt
      rw [formatKey_eq_iff] at heq
      omega

/-- Four reads to a write, on ten thousand keys. -/
def demoConfig : WorkloadConfig := ⟨0.8, 10000, 100, 0⟩

theorem working_set_default : (Set.range demoConfig.key).ncard = 10000 :=
  ((working_set_iff demoConfig (by decide)).2.2.1.mpr (by decide)).trans rfl

/-- With one key more than seven digits can name, the first and the last index have the same key. -/
theorem working_set_wraps : (0 : Int64) ≠ 268435456 ∧ (268435456 : Int64) < 268435457 ∧
    formatKey 0 = formatKey 268435456 ∧ formatKey 0 = [107, 45, 48, 48, 48, 48, 48, 48, 48] := by
  decide

end Uddp.Benchmark

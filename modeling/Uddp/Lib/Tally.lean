import Mathlib.Algebra.BigOperators.Group.Finset.Basic
import Mathlib.Data.Set.Card

/-!
# Counting threads

Threads `ω` go through phases `π`, one step of one thread at a time.

* `Tally Q phase n` : there are `n` threads `o` for which `Q o (phase o)` holds;
* `Tally.none`, `Tally.stay`, `Tally.enter` : at the start, after a step that `Q` does not notice, and after one that lets a
  thread in;
* `sum_rank_move` : how a sum over the threads changes when one of them goes on.
-/

namespace Uddp.Lib

variable {ω π : Type*} {Q : ω → π → Prop}

structure Tally (Q : ω → π → Prop) (phase : ω → π) (n : Nat) : Prop where
  finite : {o | Q o (phase o)}.Finite
  card : {o | Q o (phase o)}.ncard = n

theorem Tally.none {phase : ω → π} (h : ∀ o, ¬Q o (phase o)) : Tally Q phase 0 := by
  have hempty : {o | Q o (phase o)} = ∅ := Set.eq_empty_of_forall_notMem h
  refine ⟨?_, ?_⟩
  · rw [hempty]
    exact Set.finite_empty
  · rw [hempty]
    exact Set.ncard_empty ω

variable [DecidableEq ω] {phase : ω → π} {n : Nat} {o : ω} {p : π}

theorem Tally.stay (h : Tally Q phase n) (hsame : Q o p ↔ Q o (phase o)) : Tally Q (Function.update phase o p) n := by
  have hset : {j | Q j (Function.update phase o p j)} = {j | Q j (phase j)} := by
    ext j
    by_cases hj : j = o
    · subst hj
      simpa only [Set.mem_ofPred_eq, Function.update_self] using hsame
    · simp only [Set.mem_ofPred_eq, Function.update_of_ne hj]
  exact ⟨by rw [hset]; exact h.finite, by rw [hset]; exact h.card⟩

theorem Tally.enter (h : Tally Q phase n) (hold : ¬Q o (phase o)) (hnew : Q o p) :
    Tally Q (Function.update phase o p) (n + 1) := by
  have hset : {j | Q j (Function.update phase o p j)} = insert o {j | Q j (phase j)} := by
    ext j
    by_cases hj : j = o
    · subst hj
      simpa only [Set.mem_ofPred_eq, Function.update_self, Set.mem_insert_iff, true_or, iff_true] using hnew
    · simp only [Set.mem_ofPred_eq, Function.update_of_ne hj, Set.mem_insert_iff, hj, false_or]
  have hout : o ∉ {j | Q j (phase j)} := hold
  refine ⟨?_, ?_⟩
  · rw [hset]
    exact h.finite.insert o
  · rw [hset, Set.ncard_insert_of_notMem hout h.finite, h.card]

theorem sum_rank_move (S : Finset ω) (rank : π → Nat) (ho : o ∈ S) (phase : ω → π) (p : π) :
    ∑ j ∈ S, rank (Function.update phase o p j) + rank (phase o) = ∑ j ∈ S, rank (phase j) + rank p := by
  have hrest : ∑ j ∈ S.erase o, rank (Function.update phase o p j) = ∑ j ∈ S.erase o, rank (phase j) := by
    apply Finset.sum_congr rfl
    intro j hj
    rw [Function.update_of_ne (Finset.ne_of_mem_erase hj)]
  have hnew := Finset.add_sum_erase S (fun j => rank (Function.update phase o p j)) ho
  have hold := Finset.add_sum_erase S (fun j => rank (phase j)) ho
  rw [Function.update_self] at hnew
  omega

end Uddp.Lib

import Mathlib.Data.List.Induction

/-!
# The last write of a key

A table that replays a list of writes holds, for every key, what the last write of that key says.

* `lastOf key k xs` : the last element of `xs` whose key is `k`;
* `lookup_foldl` : the table after all of `xs`, for any way of looking up `k` that sees one write at a time.
-/

namespace Uddp.Lib

variable {α κ σ β : Type*} [DecidableEq κ] {key : α → κ} {k : κ} {xs : List α}

def lastOf (key : α → κ) (k : κ) (xs : List α) : Option α := xs.reverse.find? (fun x => key x = k)

@[simp] theorem lastOf_nil (key : α → κ) (k : κ) : lastOf key k [] = none := rfl

theorem lastOf_snoc (key : α → κ) (k : κ) (xs : List α) (x : α) :
    lastOf key k (xs ++ [x]) = if key x = k then some x else lastOf key k xs := by
  unfold lastOf
  rw [List.reverse_append, List.reverse_singleton, List.singleton_append, List.find?_cons]
  by_cases h : key x = k
  · rw [if_pos h]
    simp [h]
  · rw [if_neg h]
    simp [h]

theorem mem_of_lastOf {x : α} (h : lastOf key k xs = some x) : x ∈ xs ∧ key x = k :=
  ⟨List.mem_reverse.mp (List.mem_of_find?_eq_some h), by simpa using List.find?_some h⟩

theorem lastOf_eq_none : lastOf key k xs = none ↔ ∀ x ∈ xs, key x ≠ k := by
  simp [lastOf]

theorem lastOf_split {x : α} (h : lastOf key k xs = some x) : ∃ l m, xs = l ++ x :: m ∧ ∀ y ∈ m, key y ≠ k := by
  obtain ⟨-, m, l, hxs, hm⟩ := List.find?_eq_some_iff_append.mp h
  refine ⟨l.reverse, m.reverse, ?_, ?_⟩
  · rw [← List.reverse_reverse xs, hxs]
    simp
  · intro y hy
    simpa using hm y (List.mem_reverse.mp hy)

theorem lastOf_of_split (l : List α) {x : α} {m : List α} (hm : ∀ y ∈ m, key y ≠ key x) :
    lastOf key (key x) (l ++ x :: m) = some x := by
  have hnone : m.reverse.find? (fun y => key y = key x) = none := by simpa using hm
  unfold lastOf
  rw [List.reverse_append, List.reverse_cons, List.append_assoc, List.find?_append, hnone, Option.none_or,
    List.singleton_append, List.find?_cons_of_pos (by simp)]

/-- A table, seen through `look`, that every write of `k` sets to its `val` and every other write leaves alone. -/
theorem lookup_foldl (look : σ → Option β) {write : σ → α → σ} {val : α → Option β} {P : α → Prop}
    (hwrite : ∀ s x, P x → look (write s x) = if key x = k then val x else look s) (hxs : ∀ x ∈ xs, P x) {s : σ}
    (hs : look s = none) : look (xs.foldl write s) = (lastOf key k xs).bind val := by
  induction xs using List.reverseRecOn with
  | nil => exact hs
  | append_singleton xs x ih =>
      rw [List.foldl_append, List.foldl_cons, List.foldl_nil, hwrite _ x (hxs x (by simp)), lastOf_snoc,
        ih (fun y hy => hxs y (by simp [hy]))]
      by_cases h : key x = k
      · rw [if_pos h, if_pos h, Option.bind_some]
      · rw [if_neg h, if_neg h]

end Uddp.Lib

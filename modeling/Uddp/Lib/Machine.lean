import Mathlib.Data.List.Basic
import Mathlib.Order.Defs.PartialOrder

/-!
# Runs of a machine

A machine answers each input and goes to its next state.

* `run step s xs` : the answers to the inputs `xs` and the last state;
* `run_invariant` : what every step keeps, every run keeps;
* `run_simulates` : two machines whose steps answer alike answer alike for good;
* `run_answers_iff` : two machines that stay together as long as they answer alike, and where they part;
* `runActions step s as` : the state after actions that may be disabled, with `runActions_invariant`;
* `Along step P s as` : `P` holds of every action in the state in which it is taken, with `runActions_along`;
* `runActions_countP_le` : how many actions of a kind a run can have;
* `runActions_filter` : a run without the actions that leave no trace.
-/

namespace Uddp.Lib

variable {σ τ ι ο : Type*}

/-- The answers to the inputs, in order, and the state after them. -/
def run (step : σ → ι → ο × σ) : σ → List ι → List ο × σ
  | s, [] => ([], s)
  | s, x :: xs => ((step s x).1 :: (run step (step s x).2 xs).1, (run step (step s x).2 xs).2)

@[simp] theorem run_nil (step : σ → ι → ο × σ) (s : σ) : run step s [] = ([], s) := rfl

theorem run_cons (step : σ → ι → ο × σ) (s : σ) (x : ι) (xs : List ι) :
    run step s (x :: xs) = ((step s x).1 :: (run step (step s x).2 xs).1, (run step (step s x).2 xs).2) := rfl

theorem run_append (step : σ → ι → ο × σ) (s : σ) (xs ys : List ι) :
    run step s (xs ++ ys) =
      ((run step s xs).1 ++ (run step (run step s xs).2 ys).1, (run step (run step s xs).2 ys).2) := by
  induction xs generalizing s with
  | nil => rfl
  | cons x xs ih => rw [List.cons_append, run_cons, ih, run_cons, List.cons_append]

theorem length_run (step : σ → ι → ο × σ) (s : σ) (xs : List ι) : (run step s xs).1.length = xs.length := by
  induction xs generalizing s with
  | nil => rfl
  | cons x xs ih => rw [run_cons, List.length_cons, ih, List.length_cons]

theorem run_map {κ : Type*} (step : σ → ι → ο × σ) (f : κ → ι) (s : σ) (xs : List κ) :
    run step s (xs.map f) = run (fun s x => step s (f x)) s xs := by
  induction xs generalizing s with
  | nil => rfl
  | cons x xs ih => rw [List.map_cons, run_cons, ih, run_cons]

section Rules
variable {step : σ → ι → ο × σ} {step' : τ → ι → ο × τ} {P : ι → Prop}

theorem run_invariant {I : σ → Prop} (hstep : ∀ s x, P x → I s → I (step s x).2) {s : σ} (hs : I s) {xs : List ι}
    (hxs : ∀ x ∈ xs, P x) : I (run step s xs).2 := by
  induction xs generalizing s with
  | nil => exact hs
  | cons x xs ih => exact ih (hstep s x (hxs x (by simp)) hs) (fun y hy => hxs y (by simp [hy]))

theorem run_simulates {R : σ → τ → Prop}
    (hstep : ∀ s t x, P x → R s t → (step s x).1 = (step' t x).1 ∧ R (step s x).2 (step' t x).2) {s : σ} {t : τ}
    (hst : R s t) {xs : List ι} (hxs : ∀ x ∈ xs, P x) :
    (run step s xs).1 = (run step' t xs).1 ∧ R (run step s xs).2 (run step' t xs).2 := by
  induction xs generalizing s t with
  | nil => exact ⟨rfl, hst⟩
  | cons x xs ih =>
      obtain ⟨hout, hnext⟩ := hstep s t x (hxs x (by simp)) hst
      obtain ⟨houts, hlast⟩ := ih hnext (fun y hy => hxs y (by simp [hy]))
      exact ⟨by rw [run_cons, run_cons, hout, houts], hlast⟩

end Rules

section Parting
variable {step step' : σ → ι → ο × σ} (hpart : ∀ s x, (step s x).1 = (step' s x).1 → step s x = step' s x)
include hpart

theorem run_eq_of_answers {s : σ} {xs : List ι} (h : (run step s xs).1 = (run step' s xs).1) :
    run step s xs = run step' s xs := by
  induction xs generalizing s with
  | nil => rfl
  | cons x xs ih =>
      rw [run_cons, run_cons] at h
      obtain ⟨hhead, htail⟩ := List.cons.inj h
      have hx := hpart s x hhead
      rw [← hx] at htail
      rw [run_cons, run_cons, ← hx, ih htail]

/-- Two machines that stay together as long as they answer alike: they answer a whole run alike exactly when no input
of it, in the state in which it comes, parts them. -/
theorem run_answers_iff (s : σ) (xs : List ι) : (run step s xs).1 = (run step' s xs).1 ↔
    ∀ before x after, xs = before ++ x :: after →
      (step (run step s before).2 x).1 = (step' (run step s before).2 x).1 := by
  constructor
  · rintro h before x after rfl
    rw [run_append, run_append] at h
    obtain ⟨hbefore, hrest⟩ := List.append_inj h (by rw [length_run, length_run])
    rw [← run_eq_of_answers hpart hbefore] at hrest
    exact (List.cons.inj hrest).1
  · intro h
    induction xs generalizing s with
    | nil => rfl
    | cons x xs ih =>
        have hx := hpart s x (h [] x xs rfl)
        rw [run_cons, run_cons, ← hx]
        refine congrArg (List.cons _) (ih _ ?_)
        rintro before y after rfl
        exact h (x :: before) y after rfl

end Parting

/-! ## Actions that may be disabled -/

/-- The state after the actions, if each of them is enabled in its turn. -/
def runActions (step : σ → ι → Option σ) (s : σ) (as : List ι) : Option σ := as.foldlM step s

theorem runActions_cons (step : σ → ι → Option σ) {s s' : σ} {a : ι} (h : step s a = some s') (as : List ι) :
    runActions step s (a :: as) = runActions step s' as := by
  rw [runActions, List.foldlM_cons, h]
  rfl

theorem runActions_cons_iff {step : σ → ι → Option σ} {s s' : σ} {a : ι} {as : List ι} :
    runActions step s (a :: as) = some s' ↔ ∃ mid, step s a = some mid ∧ runActions step mid as = some s' := by
  rw [runActions, List.foldlM_cons]
  exact Option.bind_eq_some_iff

theorem runActions_append (step : σ → ι → Option σ) {s s' : σ} {as : List ι} (h : runActions step s as = some s')
    (bs : List ι) : runActions step s (as ++ bs) = runActions step s' bs := by
  rw [runActions, List.foldlM_append, show as.foldlM step s = some s' from h]
  rfl

theorem runActions_snoc (step : σ → ι → Option σ) {s s' : σ} {as : List ι} {a : ι} :
    runActions step s (as ++ [a]) = some s' ↔ ∃ mid, runActions step s as = some mid ∧ step mid a = some s' := by
  constructor
  · intro h
    rw [runActions, List.foldlM_append] at h
    obtain ⟨mid, hmid, hlast⟩ := Option.bind_eq_some_iff.mp h
    rw [List.foldlM_cons] at hlast
    obtain ⟨last, hstep, hnil⟩ := Option.bind_eq_some_iff.mp hlast
    cases hnil
    exact ⟨mid, hmid, hstep⟩
  · rintro ⟨mid, hmid, hstep⟩
    rw [runActions_append step hmid, runActions_cons step hstep]
    rfl

/-- `P` holds of every action of the run, in the state in which it is taken. -/
def Along (step : σ → ι → Option σ) (P : σ → ι → Prop) : σ → List ι → Prop
  | _, [] => True
  | s, a :: as => P s a ∧ ∀ s', step s a = some s' → Along step P s' as

theorem runActions_along {step : σ → ι → Option σ} {P : σ → ι → Prop} {I : σ → Prop}
    (hstep : ∀ s a s', I s → P s a → step s a = some s' → I s') {s s' : σ} (hs : I s) {as : List ι}
    (halong : Along step P s as) (hrun : runActions step s as = some s') : I s' := by
  induction as generalizing s with
  | nil =>
      cases hrun
      exact hs
  | cons a as ih =>
      obtain ⟨mid, hmid, hrest⟩ := runActions_cons_iff.mp hrun
      exact ih (hstep s a mid hs halong.1 hmid) (halong.2 mid hmid) hrest

theorem Along.and {step : σ → ι → Option σ} {P Q : σ → ι → Prop} {s : σ} {as : List ι} (hp : Along step P s as)
    (hq : Along step Q s as) : Along step (fun s a => P s a ∧ Q s a) s as := by
  induction as generalizing s with
  | nil => trivial
  | cons a as ih => exact ⟨⟨hp.1, hq.1⟩, fun s' h => ih (hp.2 s' h) (hq.2 s' h)⟩

theorem along_of_mem {step : σ → ι → Option σ} {P : ι → Prop} {as : List ι} (h : ∀ a ∈ as, P a) (s : σ) :
    Along step (fun _ => P) s as := by
  induction as generalizing s with
  | nil => trivial
  | cons a as ih => exact ⟨h a (by simp), fun s' _ => ih (fun x hx => h x (by simp [hx])) s'⟩

theorem along_of_forall {step : σ → ι → Option σ} {P : σ → ι → Prop} (h : ∀ s a, P s a) (s : σ) (as : List ι) :
    Along step P s as := by
  induction as generalizing s with
  | nil => trivial
  | cons a as ih => exact ⟨h s a, fun s' _ => ih s'⟩

theorem runActions_invariant {step : σ → ι → Option σ} {I : σ → Prop}
    (hstep : ∀ s a s', I s → step s a = some s' → I s') {s s' : σ} (hs : I s) {as : List ι}
    (hrun : runActions step s as = some s') : I s' :=
  runActions_along (P := fun _ _ => True) (fun s a s' h _ => hstep s a s' h) hs (along_of_forall (fun _ _ => trivial) s as)
    hrun

/-- A run has no more busy actions than it has paid for: each of them lowers the measure, and only paying actions raise it, by at
most `k`. -/
theorem runActions_countP_le {step : σ → ι → Option σ} {I : σ → Prop} (μ : σ → Nat) (busy pays : ι → Bool) (k : Nat)
    (hstep : ∀ s a s', I s → step s a = some s' → I s' ∧ μ s' + (busy a).toNat ≤ μ s + k * (pays a).toNat) {s s' : σ}
    (hs : I s) {as : List ι} (hrun : runActions step s as = some s') :
    I s' ∧ as.countP busy + μ s' ≤ μ s + k * as.countP pays := by
  have hcons : ∀ (f : ι → Bool) a as, (a :: as).countP f = as.countP f + (f a).toNat := by
    intro f a as
    rw [List.countP_cons]
    cases f a <;> rfl
  induction as generalizing s with
  | nil =>
      cases hrun
      exact ⟨hs, by simp⟩
  | cons a as ih =>
      obtain ⟨mid, hmid, hrest⟩ := runActions_cons_iff.mp hrun
      obtain ⟨hI, hless⟩ := hstep s a mid hs hmid
      obtain ⟨hlast, hcount⟩ := ih hI hrest
      refine ⟨hlast, ?_⟩
      rw [hcons, hcons, Nat.mul_add]
      omega

/-- The run without the actions that `keep` leaves out, if these cannot be seen from the states that `R` puts beside. -/
theorem runActions_filter {step : σ → ι → Option σ} {step' : τ → ι → Option τ} {R : σ → τ → Prop} (keep : ι → Bool)
    (hkeep : ∀ s t a s', keep a = true → R s t → step s a = some s' → ∃ t', step' t a = some t' ∧ R s' t')
    (hdrop : ∀ s t a s', keep a = false → R s t → step s a = some s' → R s' t) {s s' : σ} {t : τ} (hst : R s t)
    {as : List ι} (hrun : runActions step s as = some s') :
    ∃ t', runActions step' t (as.filter keep) = some t' ∧ R s' t' := by
  induction as generalizing s t with
  | nil =>
      cases hrun
      exact ⟨t, rfl, hst⟩
  | cons a as ih =>
      obtain ⟨mid, hmid, hrest⟩ := runActions_cons_iff.mp hrun
      cases ha : keep a with
      | true =>
          obtain ⟨t₁, hstep, hR⟩ := hkeep s t a mid ha hst hmid
          obtain ⟨t', hrun', hR'⟩ := ih hR hrest
          refine ⟨t', ?_, hR'⟩
          rw [List.filter_cons_of_pos ha, runActions_cons step' hstep]
          exact hrun'
      | false =>
          obtain ⟨t', hrun', hR'⟩ := ih (hdrop s t a mid ha hst hmid) hrest
          refine ⟨t', ?_, hR'⟩
          rw [List.filter_cons_of_neg (by rw [ha]; exact Bool.false_ne_true)]
          exact hrun'

theorem runActions_monotone {α : Type*} [Preorder α] (f : σ → α) {step : σ → ι → Option σ} {I : σ → Prop}
    (hstep : ∀ s a s', I s → step s a = some s' → I s' ∧ f s ≤ f s') {s s' : σ} (hs : I s) {as : List ι}
    (hrun : runActions step s as = some s') : f s ≤ f s' := by
  have h := runActions_invariant (I := fun t => I t ∧ f s ≤ f t)
    (fun t a t' ht hta => ⟨(hstep t a t' ht.1 hta).1, le_trans ht.2 (hstep t a t' ht.1 hta).2⟩) ⟨hs, le_rfl⟩ hrun
  exact h.2

end Uddp.Lib

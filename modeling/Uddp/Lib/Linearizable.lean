import Mathlib.Data.List.Nodup
import Mathlib.Logic.Function.Basic
import Uddp.Lib.Machine

/-!
# Linearizable histories

An object answers operations that overlap. Its history is what its clients see: the calls and the answers, in the order in
which they happen. The history is linearizable if the operations can be put into one order, each between its call and its
answer, in which a sequential object gives the same answers.

* `ClientEvent`, `WellFormed` : histories in which every operation is called once and answered at most once;
* `SpecRun spec s L s'` : the sequential object, given by the relation `spec`, goes from `s` to `s'` through `L`;
* `Linearizes spec s₀ H L s` : the order `L` explains the history `H`;
* `Atomic` : the object that does each operation at one moment between call and answer, with its steps `AtomicStep`;
* `AtomicRun.linearizes` : its histories are linearizable, by the order of these moments;
* **`linearizes_of_simulation`** : so are those of every machine whose steps the atomic object can follow.
-/

namespace Uddp.Lib
open scoped List

variable {ι ο ρ σ : Type*}

/-! ## Histories -/

/-- What the clients see. `ι` names the operations, each of which happens once. -/
inductive ClientEvent (ι ο ρ : Type*)
  | invoke (i : ι) (op : ο)
  | respond (i : ι) (r : ρ)

def ClientEvent.invoked : ClientEvent ι ο ρ → Option ι
  | .invoke i _ => some i
  | .respond _ _ => none

def ClientEvent.responded : ClientEvent ι ο ρ → Option ι
  | .invoke _ _ => none
  | .respond i _ => some i

/-- No operation is called twice or answered twice, and none is answered before it is called. -/
structure WellFormed (H : List (ClientEvent ι ο ρ)) : Prop where
  invokes : (H.filterMap ClientEvent.invoked).Nodup
  responds : (H.filterMap ClientEvent.responded).Nodup
  order : ∀ i r, .respond i r ∈ H → ∃ op, [.invoke i op, .respond i r] <+ H

/-- The sequential object goes from `s` to the last state through the operations with their answers. -/
inductive SpecRun (spec : σ → ο → ρ → σ → Prop) (s₀ : σ) : List (ι × ο × ρ) → σ → Prop
  | start : SpecRun spec s₀ [] s₀
  | snoc {L : List (ι × ο × ρ)} {s s' : σ} {i : ι} {op : ο} {r : ρ} (before : SpecRun spec s₀ L s) (last : spec s op r s') :
      SpecRun spec s₀ (L ++ [(i, op, r)]) s'

/-- The order `L` explains the history `H` and leaves the sequential object in `s`. It has every operation that has been
answered, with its answer, and of those that have not been answered the ones that have taken effect. -/
structure Linearizes (spec : σ → ο → ρ → σ → Prop) (s₀ : σ) (H : List (ClientEvent ι ο ρ)) (L : List (ι × ο × ρ)) (s : σ) :
    Prop where
  wellFormed : WellFormed H
  legal : SpecRun spec s₀ L s
  once : (L.map Prod.fst).Nodup
  invoked : ∀ i op r, (i, op, r) ∈ L → .invoke i op ∈ H
  responded : ∀ i r, .respond i r ∈ H → ∃ op, (i, op, r) ∈ L
  /-- What is called after an answer comes later in the order. -/
  realTime : ∀ i r j op, [.respond i r, .invoke j op] <+ H → j ∈ L.map Prod.fst → [i, j] <+ L.map Prod.fst

/-! ### Two in a row -/

section Pairs
variable {α : Type*} {a b c : α} {l : List α}

theorem pair_sublist_snoc : [a, b] <+ l ++ [c] ↔ [a, b] <+ l ∨ a ∈ l ∧ b = c := by
  rw [show [a, b] = [a] ++ [b] from rfl, List.sublist_append_iff]
  constructor
  · rintro ⟨l₁, l₂, heq, h₁, h₂⟩
    rcases List.sublist_singleton.mp h₂ with rfl | rfl
    · rw [List.append_nil] at heq
      exact Or.inl (heq ▸ h₁)
    · obtain ⟨rfl, hb⟩ := List.append_inj' heq rfl
      exact Or.inr ⟨List.singleton_sublist.mp h₁, List.singleton_inj.mp hb⟩
  · rintro (h | ⟨ha, rfl⟩)
    · exact ⟨[a, b], [], rfl, h, List.nil_sublist _⟩
    · exact ⟨[a], [b], rfl, List.singleton_sublist.mpr ha, List.Sublist.refl _⟩

end Pairs

/-! ## The atomic object -/

inductive OpStatus (ο ρ : Type*)
  | fresh
  | pending (op : ο)
  /-- It has taken effect, and its answer is settled. -/
  | effective (op : ο) (r : ρ)
  | closed (op : ο) (r : ρ)

theorem OpStatus.ne_fresh_of_pending {st : OpStatus ο ρ} {op : ο} (h : st = .pending op) : st ≠ .fresh := by
  rw [h]
  simp

theorem OpStatus.ne_fresh_of_effective {st : OpStatus ο ρ} {op : ο} {r : ρ} (h : st = .effective op r) : st ≠ .fresh := by
  rw [h]
  simp

structure Atomic (σ ι ο ρ : Type*) where
  state : σ
  status : ι → OpStatus ο ρ

def Atomic.start (s₀ : σ) : Atomic σ ι ο ρ := ⟨s₀, fun _ => .fresh⟩

/-- What happens to the atomic object. Its clients do not see the commits. -/
inductive Mark (ι ο ρ : Type*)
  | invoke (i : ι) (op : ο)
  | commit (i : ι) (op : ο) (r : ρ)
  | respond (i : ι) (r : ρ)

def Mark.event : Mark ι ο ρ → Option (ClientEvent ι ο ρ)
  | .invoke i op => some (.invoke i op)
  | .commit _ _ _ => none
  | .respond i r => some (.respond i r)

def Mark.committed : Mark ι ο ρ → Option (ι × ο × ρ)
  | .commit i op r => some (i, op, r)
  | _ => none

/-! ### What the status of an operation says about the past -/

/-- `H` is the history so far and `L` what has taken effect. -/
def OpStatus.Agrees (H : List (ClientEvent ι ο ρ)) (L : List (ι × ο × ρ)) (i : ι) : OpStatus ο ρ → Prop
  | .fresh => (∀ op, .invoke i op ∉ H) ∧ (∀ r, .respond i r ∉ H) ∧ ∀ op r, (i, op, r) ∉ L
  | .pending op => .invoke i op ∈ H ∧ (∀ r, .respond i r ∉ H) ∧ ∀ op r, (i, op, r) ∉ L
  | .effective op r => .invoke i op ∈ H ∧ (∀ r, .respond i r ∉ H) ∧ (i, op, r) ∈ L
  | .closed _ _ => True

theorem OpStatus.Agrees.of_same {H H' : List (ClientEvent ι ο ρ)} {L L' : List (ι × ο × ρ)} {i : ι} {st : OpStatus ο ρ}
    (h : st.Agrees H L i) (hinvoke : ∀ op, .invoke i op ∈ H' ↔ .invoke i op ∈ H)
    (hrespond : ∀ r, .respond i r ∈ H' ↔ .respond i r ∈ H) (hcommit : ∀ op r, (i, op, r) ∈ L' ↔ (i, op, r) ∈ L) :
    st.Agrees H' L' i := by
  cases st with
  | fresh => simpa only [OpStatus.Agrees, hinvoke, hrespond, hcommit] using h
  | pending op => simpa only [OpStatus.Agrees, hinvoke, hrespond, hcommit] using h
  | effective op r => simpa only [OpStatus.Agrees, hinvoke, hrespond, hcommit] using h
  | closed op r => trivial

/-! ### One event more -/

theorem mem_invoked {H : List (ClientEvent ι ο ρ)} {i : ι} :
    i ∈ H.filterMap ClientEvent.invoked ↔ ∃ op, .invoke i op ∈ H := by
  rw [List.mem_filterMap]
  constructor
  · rintro ⟨ev, hev, heq⟩
    cases ev with
    | invoke j op =>
        cases heq
        exact ⟨op, hev⟩
    | respond j r => cases heq
  · rintro ⟨op, hop⟩
    exact ⟨_, hop, rfl⟩

theorem mem_responded {H : List (ClientEvent ι ο ρ)} {i : ι} :
    i ∈ H.filterMap ClientEvent.responded ↔ ∃ r, .respond i r ∈ H := by
  rw [List.mem_filterMap]
  constructor
  · rintro ⟨ev, hev, heq⟩
    cases ev with
    | invoke j op => cases heq
    | respond j r =>
        cases heq
        exact ⟨r, hev⟩
  · rintro ⟨r, hr⟩
    exact ⟨_, hr, rfl⟩

theorem WellFormed.invoke_unique {H : List (ClientEvent ι ο ρ)} (h : WellFormed H) {i : ι} {op op' : ο}
    (hop : .invoke i op ∈ H) (hop' : .invoke i op' ∈ H) : op = op' := by
  have hnodup := h.invokes
  clear h
  induction H with
  | nil => exact absurd hop List.not_mem_nil
  | cons ev H ih =>
      cases ev with
      | respond j r => exact ih (by simpa using hop) (by simpa using hop') hnodup
      | invoke j op'' =>
          obtain ⟨hj, hrest⟩ := List.nodup_cons.mp hnodup
          rcases List.mem_cons.mp hop with heq | hmem
          · rcases List.mem_cons.mp hop' with heq' | hmem'
            · cases heq
              cases heq'
              rfl
            · cases heq
              exact absurd (mem_invoked.mpr ⟨op', hmem'⟩) hj
          · rcases List.mem_cons.mp hop' with heq' | hmem'
            · cases heq'
              exact absurd (mem_invoked.mpr ⟨op, hmem⟩) hj
            · exact ih hmem hmem' hrest

theorem nodup_snoc {α : Type*} {l : List α} {a : α} (h : l.Nodup) (ha : a ∉ l) : (l ++ [a]).Nodup :=
  List.nodup_append_comm.mpr (List.nodup_cons.mpr ⟨ha, h⟩)

section Growth
variable {spec : σ → ο → ρ → σ → Prop} {s₀ s s' : σ} {H : List (ClientEvent ι ο ρ)} {L : List (ι × ο × ρ)} {i : ι} {op : ο}
  {r : ρ} (h : Linearizes spec s₀ H L s)
include h

theorem Linearizes.invoke (hagrees : (OpStatus.fresh : OpStatus ο ρ).Agrees H L i) :
    Linearizes spec s₀ (H ++ [.invoke i op]) L s := by
  obtain ⟨hnew, -, hnone⟩ := hagrees
  refine ⟨⟨?_, ?_, ?_⟩, h.legal, h.once, ?_, ?_, ?_⟩
  · rw [List.filterMap_append]
    refine nodup_snoc h.wellFormed.invokes (fun hmem => ?_)
    obtain ⟨op', hop'⟩ := mem_invoked.mp hmem
    exact hnew op' hop'
  · rw [List.filterMap_append]
    exact (List.append_nil _).symm ▸ h.wellFormed.responds
  · intro j r' hmem
    have hold : .respond j r' ∈ H := by simpa using hmem
    obtain ⟨op', hop'⟩ := h.wellFormed.order j r' hold
    exact ⟨op', hop'.trans (List.sublist_append_left _ _)⟩
  · exact fun j op' r' hmem => List.mem_append_left _ (h.invoked j op' r' hmem)
  · exact fun j r' hmem => h.responded j r' (by simpa using hmem)
  · intro j r' l op' hpair hl
    rcases pair_sublist_snoc.mp hpair with hold | ⟨-, heq⟩
    · exact h.realTime j r' l op' hold hl
    · -- the operation that begins has not taken effect
      cases heq
      obtain ⟨⟨l', op'', r''⟩, hmem, rfl⟩ := List.mem_map.mp hl
      exact absurd hmem (hnone op'' r'')

theorem Linearizes.commit (hagrees : (OpStatus.pending op : OpStatus ο ρ).Agrees H L i) (hspec : spec s op r s') :
    Linearizes spec s₀ H (L ++ [(i, op, r)]) s' := by
  obtain ⟨hinvoked, -, hnone⟩ := hagrees
  have hids : (L ++ [(i, op, r)]).map Prod.fst = L.map Prod.fst ++ [i] := by simp
  have hi : i ∉ L.map Prod.fst := by
    intro hmem
    obtain ⟨⟨l, op', r'⟩, hl, rfl⟩ := List.mem_map.mp hmem
    exact hnone op' r' hl
  refine ⟨h.wellFormed, h.legal.snoc hspec, ?_, ?_, ?_, ?_⟩
  · rw [hids]
    exact nodup_snoc h.once hi
  · intro j op' r' hmem
    rcases List.mem_append.mp hmem with hold | hlast
    · exact h.invoked j op' r' hold
    · cases List.mem_singleton.mp hlast
      exact hinvoked
  · intro j r' hmem
    obtain ⟨op', hop'⟩ := h.responded j r' hmem
    exact ⟨op', List.mem_append_left _ hop'⟩
  · intro j r' l op' hpair hl
    rw [hids] at hl ⊢
    rw [pair_sublist_snoc]
    rcases List.mem_append.mp hl with hold | hlast
    · exact Or.inl (h.realTime j r' l op' hpair hold)
    · -- what has been answered is in the order already
      have hj : .respond j r' ∈ H := hpair.subset (List.mem_cons_self ..)
      obtain ⟨op'', hop''⟩ := h.responded j r' hj
      exact Or.inr ⟨List.mem_map.mpr ⟨_, hop'', rfl⟩, List.mem_singleton.mp hlast⟩

theorem Linearizes.respond (hagrees : (OpStatus.effective op r).Agrees H L i) :
    Linearizes spec s₀ (H ++ [.respond i r]) L s := by
  obtain ⟨hinvoked, hnew, hmem⟩ := hagrees
  refine ⟨⟨?_, ?_, ?_⟩, h.legal, h.once, ?_, ?_, ?_⟩
  · rw [List.filterMap_append]
    exact (List.append_nil _).symm ▸ h.wellFormed.invokes
  · rw [List.filterMap_append]
    refine nodup_snoc h.wellFormed.responds (fun hmem => ?_)
    obtain ⟨r', hr'⟩ := mem_responded.mp hmem
    exact hnew r' hr'
  · intro j r' hj
    rcases List.mem_append.mp hj with hold | hlast
    · obtain ⟨op', hop'⟩ := h.wellFormed.order j r' hold
      exact ⟨op', hop'.trans (List.sublist_append_left _ _)⟩
    · cases List.mem_singleton.mp hlast
      exact ⟨op, pair_sublist_snoc.mpr (Or.inr ⟨hinvoked, rfl⟩)⟩
  · exact fun j op' r' hmem => List.mem_append_left _ (h.invoked j op' r' hmem)
  · intro j r' hj
    rcases List.mem_append.mp hj with hold | hlast
    · exact h.responded j r' hold
    · cases List.mem_singleton.mp hlast
      exact ⟨op, hmem⟩
  · intro j r' l op' hpair hl
    rcases pair_sublist_snoc.mp hpair with hold | ⟨-, heq⟩
    · exact h.realTime j r' l op' hold hl
    · cases heq

end Growth

/-! ### Its steps and its runs -/

section Object
variable [DecidableEq ι]

def Atomic.put (t : Atomic σ ι ο ρ) (i : ι) (st : OpStatus ο ρ) : Atomic σ ι ο ρ :=
  { t with status := Function.update t.status i st }

@[simp] theorem Atomic.put_state (t : Atomic σ ι ο ρ) (i : ι) (st : OpStatus ο ρ) : (t.put i st).state = t.state := rfl

@[simp] theorem Atomic.put_self (t : Atomic σ ι ο ρ) (i : ι) (st : OpStatus ο ρ) : (t.put i st).status i = st :=
  Function.update_self _ _ _

@[simp] theorem Atomic.put_same (t : Atomic σ ι ο ρ) (i : ι) : t.put i (t.status i) = t := by
  rw [Atomic.put, Function.update_eq_self]

theorem Atomic.put_of_ne (t : Atomic σ ι ο ρ) {i l : ι} (h : l ≠ i) (st : OpStatus ο ρ) :
    (t.put i st).status l = t.status l := Function.update_of_ne h _ _

inductive AtomicStep (spec : σ → ο → ρ → σ → Prop) : Atomic σ ι ο ρ → Mark ι ο ρ → Atomic σ ι ο ρ → Prop
  | invoke {t : Atomic σ ι ο ρ} {i : ι} (op : ο) (h : t.status i = .fresh) :
      AtomicStep spec t (.invoke i op) (t.put i (.pending op))
  | commit {t : Atomic σ ι ο ρ} {i : ι} {op : ο} {r : ρ} {s' : σ} (h : t.status i = .pending op)
      (hspec : spec t.state op r s') : AtomicStep spec t (.commit i op r) ({ t with state := s' }.put i (.effective op r))
  | respond {t : Atomic σ ι ο ρ} {i : ι} {op : ο} {r : ρ} (h : t.status i = .effective op r) :
      AtomicStep spec t (.respond i r) (t.put i (.closed op r))

inductive AtomicRun (spec : σ → ο → ρ → σ → Prop) (s₀ : σ) : List (Mark ι ο ρ) → Atomic σ ι ο ρ → Prop
  | start : AtomicRun spec s₀ [] (Atomic.start s₀)
  | snoc {T : List (Mark ι ο ρ)} {t t' : Atomic σ ι ο ρ} {m : Mark ι ο ρ} (before : AtomicRun spec s₀ T t)
      (last : AtomicStep spec t m t') : AtomicRun spec s₀ (T ++ [m]) t'

theorem agrees_put {t : Atomic σ ι ο ρ} {H H' : List (ClientEvent ι ο ρ)} {L L' : List (ι × ο × ρ)} {i : ι}
    {st : OpStatus ο ρ} (h : ∀ l, (t.status l).Agrees H L l) (hi : st.Agrees H' L' i)
    (hinvoke : ∀ l ≠ i, ∀ op, .invoke l op ∈ H' ↔ .invoke l op ∈ H)
    (hrespond : ∀ l ≠ i, ∀ r, .respond l r ∈ H' ↔ .respond l r ∈ H)
    (hcommit : ∀ l ≠ i, ∀ op r, (l, op, r) ∈ L' ↔ (l, op, r) ∈ L) (l : ι) : ((t.put i st).status l).Agrees H' L' l := by
  by_cases hl : l = i
  · subst hl
    rw [Atomic.put_self]
    exact hi
  · rw [Atomic.put_of_ne t hl]
    exact (h l).of_same (hinvoke l hl) (hrespond l hl) (hcommit l hl)

/-- The history of a run and the order of its commits. -/
structure Explained (spec : σ → ο → ρ → σ → Prop) (s₀ : σ) (T : List (Mark ι ο ρ)) (t : Atomic σ ι ο ρ) : Prop where
  linearizes : Linearizes spec s₀ (T.filterMap Mark.event) (T.filterMap Mark.committed) t.state
  agrees : ∀ i, (t.status i).Agrees (T.filterMap Mark.event) (T.filterMap Mark.committed) i

omit [DecidableEq ι] in
theorem explained_start (spec : σ → ο → ρ → σ → Prop) (s₀ : σ) :
    Explained spec s₀ ([] : List (Mark ι ο ρ)) (Atomic.start s₀) := by
  refine ⟨⟨⟨?_, ?_, ?_⟩, .start, ?_, ?_, ?_, ?_⟩, fun i => ?_⟩
  · exact List.nodup_nil
  · exact List.nodup_nil
  · exact fun i r h => absurd h List.not_mem_nil
  · exact List.nodup_nil
  · exact fun i op r h => absurd h List.not_mem_nil
  · exact fun i r h => absurd h List.not_mem_nil
  · exact fun i r j op _ h => absurd h List.not_mem_nil
  · exact ⟨fun _ => List.not_mem_nil, fun _ => List.not_mem_nil, fun _ _ => List.not_mem_nil⟩

theorem Explained.step {spec : σ → ο → ρ → σ → Prop} {s₀ : σ} {T : List (Mark ι ο ρ)} {t t' : Atomic σ ι ο ρ}
    {m : Mark ι ο ρ} (h : Explained spec s₀ T t) (hstep : AtomicStep spec t m t') : Explained spec s₀ (T ++ [m]) t' := by
  cases hstep with
  | @invoke i op hfresh =>
      have hagrees := h.agrees i
      rw [hfresh] at hagrees
      have hevents : (T ++ [Mark.invoke i op]).filterMap Mark.event = T.filterMap Mark.event ++ [.invoke i op] := by
        rw [List.filterMap_append]
        rfl
      have hcommits : (T ++ [Mark.invoke i op]).filterMap Mark.committed = T.filterMap Mark.committed := by
        rw [List.filterMap_append]
        exact List.append_nil _
      refine ⟨?_, ?_⟩
      · rw [hevents, hcommits]
        exact h.linearizes.invoke hagrees
      · rw [hevents, hcommits]
        refine agrees_put h.agrees ⟨by simp, ?_, hagrees.2.2⟩ (fun l hl op' => ?_) (fun l hl r => by simp) (fun l hl op r => Iff.rfl)
        · exact fun r hr => hagrees.2.1 r (by simpa using hr)
        · simp [hl]
  | @commit i op r s' hpending hspec =>
      have hagrees := h.agrees i
      rw [hpending] at hagrees
      have hevents : (T ++ [Mark.commit i op r]).filterMap Mark.event = T.filterMap Mark.event := by
        rw [List.filterMap_append]
        exact List.append_nil _
      have hcommits : (T ++ [Mark.commit i op r]).filterMap Mark.committed = T.filterMap Mark.committed ++ [(i, op, r)] := by
        rw [List.filterMap_append]
        rfl
      refine ⟨?_, ?_⟩
      · rw [hevents, hcommits]
        exact h.linearizes.commit hagrees hspec
      · rw [hevents, hcommits]
        refine agrees_put h.agrees ⟨hagrees.1, hagrees.2.1, by simp⟩ (fun l hl op' => Iff.rfl) (fun l hl r => Iff.rfl)
          (fun l hl op' r' => ?_)
        simp [hl]
  | @respond i op r heffective =>
      have hagrees := h.agrees i
      rw [heffective] at hagrees
      have hevents : (T ++ [Mark.respond i r]).filterMap Mark.event = T.filterMap Mark.event ++ [ClientEvent.respond i r] := by
        rw [List.filterMap_append]
        rfl
      have hcommits : (T ++ [Mark.respond i r]).filterMap Mark.committed = T.filterMap Mark.committed := by
        rw [List.filterMap_append]
        exact List.append_nil _
      refine ⟨?_, ?_⟩
      · rw [hevents, hcommits]
        exact h.linearizes.respond hagrees
      · rw [hevents, hcommits]
        refine agrees_put h.agrees trivial (fun l hl op' => by simp) (fun l hl r' => ?_) (fun l hl op r => Iff.rfl)
        simp [hl]

theorem AtomicRun.explained {spec : σ → ο → ρ → σ → Prop} {s₀ : σ} {T : List (Mark ι ο ρ)} {t : Atomic σ ι ο ρ}
    (h : AtomicRun spec s₀ T t) : Explained spec s₀ T t := by
  induction h with
  | start => exact explained_start spec s₀
  | snoc _ hlast ih => exact ih.step hlast

/-! ## Machines that the atomic object follows -/

/-- A step of the machine is nothing to the atomic object, or one step of it with the same event. -/
def AtomicFollows (spec : σ → ο → ρ → σ → Prop) (ev : Option (ClientEvent ι ο ρ)) (t t' : Atomic σ ι ο ρ) : Prop :=
  t' = t ∧ ev = none ∨ ∃ m, AtomicStep spec t m t' ∧ m.event = ev

/-- **Forward simulation.** If the atomic object can follow every step of a machine, the machine's histories are linearizable,
and the sequential object ends where the atomic object does. -/
theorem linearizes_of_simulation {S α : Type*} {spec : σ → ο → ρ → σ → Prop} {step : S → α → Option S}
    {seen : α → Option (ClientEvent ι ο ρ)} {P : α → Prop} {R : S → Atomic σ ι ο ρ → Prop}
    (hstep : ∀ x a x' t, R x t → P a → step x a = some x' → ∃ t', R x' t' ∧ AtomicFollows spec (seen a) t t') {x₀ x : S} {s₀ : σ}
    (hstart : R x₀ (Atomic.start s₀)) {as : List α} (has : ∀ a ∈ as, P a) (hrun : runActions step x₀ as = some x) :
    ∃ t L, R x t ∧ Linearizes spec s₀ (as.filterMap seen) L t.state := by
  have hwhole : ∀ (as : List α) (x₁ : S) (T : List (Mark ι ο ρ)) (t₁ : Atomic σ ι ο ρ), R x₁ t₁ → AtomicRun spec s₀ T t₁ →
      (∀ a ∈ as, P a) → runActions step x₁ as = some x →
      ∃ T' t, R x t ∧ AtomicRun spec s₀ (T ++ T') t ∧ T'.filterMap Mark.event = as.filterMap seen := by
    intro as
    induction as with
    | nil =>
        intro x₁ T t₁ hR hrunT _ hrun
        cases hrun
        exact ⟨[], t₁, hR, (List.append_nil T).symm ▸ hrunT, rfl⟩
    | cons a as ih =>
        intro x₁ T t₁ hR hrunT has hrun
        obtain ⟨x₂, hx₂, hrest⟩ := runActions_cons_iff.mp hrun
        obtain ⟨t₂, hR₂, ⟨rfl, hnone⟩ | ⟨m, hm, hevent⟩⟩ := hstep x₁ a x₂ t₁ hR (has a (by simp)) hx₂
        · obtain ⟨T', t, hRt, hT', hsame⟩ := ih x₂ T t₂ hR₂ hrunT (fun b hb => has b (by simp [hb])) hrest
          refine ⟨T', t, hRt, hT', ?_⟩
          rw [List.filterMap_cons_none hnone, hsame]
        · obtain ⟨T', t, hRt, hT', hsame⟩ := ih x₂ (T ++ [m]) t₂ hR₂ (hrunT.snoc hm) (fun b hb => has b (by simp [hb])) hrest
          refine ⟨m :: T', t, hRt, ?_, ?_⟩
          · rwa [List.append_assoc] at hT'
          · rw [List.filterMap_cons, List.filterMap_cons, hevent, hsame]
  obtain ⟨T, t, hR, hT, hsame⟩ := hwhole as x₀ [] (Atomic.start s₀) hstart .start has hrun
  have hexplained := hT.explained.linearizes
  rw [List.nil_append, hsame] at hexplained
  exact ⟨t, _, hR, hexplained⟩

end Object
end Uddp.Lib

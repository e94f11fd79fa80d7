import Uddp.Lib.Tally
import Uddp.Wal.Waiters

/-!
# Every `Append` returns

* `Phase.rank`, `Group.left` : the steps that are left to the callers that have arrived;
* `post_again` : the leader goes round again only for callers that have arrived since its flush, who pay for it;
* **`left_step`** : a caller pays four steps when it arrives, and every other step takes one away;
* `enabled` : a caller that has not returned has a step, or waits for one that has;
* **`appends_return`** : however the callers are scheduled, they all return.
-/

namespace Uddp.Wal
open Uddp.Lib

variable {ι : Type}

/-- The arrival of a caller. -/
def Action.enters : Action ι → Bool
  | .enter _ _ _ _ _ => true
  | _ => false

/-- A step of a caller that has arrived. -/
def Action.follows : Action ι → Bool
  | .enter _ _ _ _ _ => false
  | .close _ _ => false
  | _ => true

/-- The steps of a caller to its return; three more for each record that the leader's round does not cover. -/
def Phase.rank (pending : Nat) : Phase → Nat
  | .idle => 0
  | .waiting _ _ => 1
  | .flushed _ _ flushSeq => 3 + 3 * (pending - flushSeq)
  | .syncing _ _ flushSeq _ => 2 + 3 * (pending - flushSeq)
  | .synced _ _ flushSeq _ => 1 + 3 * (pending - flushSeq)
  | .flushFailed => 1
  | .returned _ => 0

theorem Phase.rank_succ_le (n : Nat) (p : Phase) : p.rank (n + 1) ≤ p.rank n + 3 := by
  cases p with
  | flushed position mySeq flushSeq | syncing position mySeq flushSeq begun | synced position mySeq flushSeq syncErr =>
      simp only [rank]
      omega
  | idle | waiting position mySeq | flushFailed | returned r => exact Nat.le_add_right _ _

theorem Phase.rank_of_not_leads {p : Phase} (h : ¬ p.Leads) (n m : Nat) : p.rank n = p.rank m := by
  cases p with
  | flushed position mySeq flushSeq | syncing position mySeq flushSeq begun | synced position mySeq flushSeq syncErr =>
      exact absurd trivial h
  | idle | waiting position mySeq | flushFailed | returned r => rfl

section Left
variable [DecidableEq ι] {s s' : Group ι} {i : ι}

def Group.callers (s : Group ι) : Finset ι := (s.arrivals.map Prod.fst).toFinset

/-- The steps that are left to the callers that have arrived. -/
def Group.left (s : Group ι) : Nat := ∑ j ∈ s.callers, (s.phase j).rank s.w.pendingSeq

/-- Everybody who is on the way has arrived. -/
def Present (s : Group ι) : Prop := ∀ j, s.phase j ≠ .idle → j ∈ s.callers

theorem Present.goto (h : Present s) (hi : i ∈ s.callers) (w : WAL) (p : Phase) : Present ({ s with w := w }.goto i p) := by
  intro j hj
  by_cases hji : j = i
  · subst hji
    exact hi
  · rw [goto_of_ne _ hji] at hj
    exact h j hj

theorem left_goto (hi : i ∈ s.callers) {w : WAL} (hw : w.pendingSeq = s.w.pendingSeq) (p : Phase) :
    ({ s with w := w }.goto i p).left + (s.phase i).rank s.w.pendingSeq = s.left + p.rank s.w.pendingSeq := by
  have hsum := sum_rank_move s.callers (Phase.rank s.w.pendingSeq) hi s.phase p
  have hgoto : ({ s with w := w }.goto i p).left =
      ∑ j ∈ s.callers, (Function.update s.phase i p j).rank w.pendingSeq := rfl
  rw [hgoto, hw, Group.left]
  exact hsum

/-- A record more is three steps more for the leader, if there is one. -/
theorem left_pending (hunique : ∀ j k, (s.phase j).Leads → (s.phase k).Leads → j = k) (S : Finset ι) (n : Nat) :
    ∑ j ∈ S, (s.phase j).rank (n + 1) ≤ ∑ j ∈ S, (s.phase j).rank n + 3 := by
  by_cases hleader : ∃ l ∈ S, (s.phase l).Leads
  · obtain ⟨l, hl, hleads⟩ := hleader
    have hrest : ∑ j ∈ S.erase l, (s.phase j).rank (n + 1) = ∑ j ∈ S.erase l, (s.phase j).rank n := by
      apply Finset.sum_congr rfl
      intro j hj
      refine Phase.rank_of_not_leads (fun hj' => ?_) _ _
      exact Finset.ne_of_mem_erase hj (hunique j l hj' hleads)
    have hnew := Finset.add_sum_erase S (fun j => (s.phase j).rank (n + 1)) hl
    have hold := Finset.add_sum_erase S (fun j => (s.phase j).rank n) hl
    have hone := (s.phase l).rank_succ_le n
    omega
  · have hsame : ∑ j ∈ S, (s.phase j).rank (n + 1) = ∑ j ∈ S, (s.phase j).rank n := by
      apply Finset.sum_congr rfl
      intro j hj
      exact Phase.rank_of_not_leads (fun hj' => hleader ⟨j, hj, hj'⟩) _ _
    omega

theorem left_enter (hi : i ∉ s.callers) (r : Record) (w : WAL) (p : Phase) :
    ({ s with w := w, arrivals := s.arrivals ++ [(i, r)] }.goto i p).left =
      p.rank w.pendingSeq + ∑ j ∈ s.callers, (s.phase j).rank w.pendingSeq := by
  have hcallers : ({ s with w := w, arrivals := s.arrivals ++ [(i, r)] }.goto i p).callers = insert i s.callers := by
    unfold Group.callers
    show ((s.arrivals ++ [(i, r)]).map Prod.fst).toFinset = _
    ext j
    simp
  unfold Group.left
  rw [hcallers, Finset.sum_insert hi, goto_self]
  congr 1
  apply Finset.sum_congr rfl
  intro j hj
  have hne : j ≠ i := fun h => hi (h ▸ hj)
  rw [goto_of_ne _ hne]
  rfl

theorem Present.enter (h : Present s) (r : Record) (w : WAL) (p : Phase) :
    Present ({ s with w := w, arrivals := s.arrivals ++ [(i, r)] }.goto i p) := by
  intro j hj
  show j ∈ ((s.arrivals ++ [(i, r)]).map Prod.fst).toFinset
  by_cases hji : j = i
  · subst hji
    simp
  · rw [goto_of_ne _ hji] at hj
    have hold := List.mem_toFinset.mp (h j hj)
    rw [List.mem_toFinset, List.map_append]
    exact List.mem_append_left _ hold

/-! ## The steps -/

theorem post_again (s : Group ι) (i : ι) (position : UInt64) (mySeq flushSeq : Nat) (syncErr : Option String)
    (flush : WriteFault) :
    (∃ w r, s.post i position mySeq flushSeq syncErr flush = { s with w := w }.goto i (.returned r) ∧
      w.pendingSeq = s.w.pendingSeq) ∨
    s.w.pendingSeq ≠ flushSeq ∧ ∃ w p, s.post i position mySeq flushSeq syncErr flush = { s with w := w }.goto i p ∧
      w.pendingSeq = s.w.pendingSeq ∧ (p = .flushFailed ∨ p = .flushed position mySeq s.w.pendingSeq) := by
  rcases s.post_spec i position mySeq flushSeq syncErr flush with ⟨e, hpost⟩ | ⟨rfl, ⟨-, hpost⟩ | hpost⟩
  · exact Or.inl ⟨_, _, hpost, rfl⟩
  · exact Or.inl ⟨_, _, hpost, rfl⟩
  · by_cases hall : s.w.pendingSeq = flushSeq
    · left
      unfold Group.post WAL.postSync
      simp only [if_pos hall]
      exact ⟨_, _, rfl, rfl⟩
    · right
      refine ⟨hall, ?_⟩
      obtain ⟨o, -, ⟨e, -, hlead⟩ | ⟨-, -, -, hlead⟩⟩ := Group.lead_spec
        { s with w := { s.w with flushedSeq := flushSeq, flushErr := none } } i position mySeq flush
      · exact ⟨_, _, hpost.trans hlead, rfl, Or.inl rfl⟩
      · exact ⟨_, _, hpost.trans hlead, rfl, Or.inr rfl⟩

variable {w₀ : WAL} {rs₀ : List Record}

/-- The one who arrives pays for itself and, as a follower, for the round that will cover it. -/
theorem left_arrive (hinv : Inv w₀ rs₀ s) (hpresent : Present s) (hidle : s.phase i = .idle) (rec : Record)
    (l b : WriteFault × WriteFault) (flush : WriteFault) :
    Present (s.enter i rec l b flush) ∧ (s.enter i rec l b flush).left ≤ s.left + 4 := by
  have hi : i ∉ s.callers := fun h => hinv.absent i hidle (List.mem_toFinset.mp h)
  have hquiet : s.w.leading = false → ∀ n m, ∑ j ∈ s.callers, (s.phase j).rank n = ∑ j ∈ s.callers, (s.phase j).rank m :=
    fun hl n m => Finset.sum_congr rfl fun j _ => Phase.rank_of_not_leads (hinv.quiet hl j) n m
  obtain ⟨o, -, ⟨e, -, henter⟩ | ⟨-, -, ⟨-, henter⟩ | ⟨hl, henter⟩⟩⟩ := s.enter_spec i rec l b flush
  · -- its record does not get into the buffer
    rw [henter]
    refine ⟨hpresent.enter _ _ _, ?_⟩
    rw [left_enter hi]
    simp only [Phase.rank]
    show 0 + s.left ≤ s.left + 4
    omega
  · -- it follows
    rw [henter]
    refine ⟨hpresent.enter _ _ _, ?_⟩
    rw [left_enter hi]
    have hpending := left_pending hinv.unique s.callers s.w.pendingSeq
    show 1 + ∑ j ∈ s.callers, (s.phase j).rank (s.w.pendingSeq + 1) ≤ s.left + 4
    unfold Group.left
    omega
  · -- it leads
    have hsame := hquiet hl (s.w.pendingSeq + 1) s.w.pendingSeq
    rw [henter]
    obtain ⟨o', -, ⟨e, -, hlead⟩ | ⟨-, -, -, hlead⟩⟩ := Group.lead_spec
      { s with w := { s.w.taken rec o with leading := true }, arrivals := s.arrivals ++ [(i, stamp rec s.w.next)] } i s.w.next
      (s.w.pendingSeq + 1) flush
    · rw [hlead]
      refine ⟨hpresent.enter _ _ _, ?_⟩
      rw [left_enter hi]
      show 1 + ∑ j ∈ s.callers, (s.phase j).rank (s.w.pendingSeq + 1) ≤ s.left + 4
      unfold Group.left
      omega
    · rw [hlead]
      refine ⟨hpresent.enter _ _ _, ?_⟩
      rw [left_enter hi]
      show 3 + 3 * (s.w.pendingSeq + 1 - (s.w.pendingSeq + 1)) + ∑ j ∈ s.callers, (s.phase j).rank (s.w.pendingSeq + 1) ≤
        s.left + 4
      unfold Group.left
      omega

/-- **A step** takes one of the steps that are left, unless it is an arrival or a `Close`. -/
theorem left_step (hinv : Inv w₀ rs₀ s) (hpresent : Present s) {a : Action ι} (hstep : s.step a = some s') :
    Present s' ∧ s'.left + a.follows.toNat ≤ s.left + 4 * a.enters.toNat := by
  have hgoes : ∀ i w p, s.phase i ≠ .idle → w.pendingSeq = s.w.pendingSeq →
      p.rank s.w.pendingSeq < (s.phase i).rank s.w.pendingSeq →
      Present ({ s with w := w }.goto i p) ∧ ({ s with w := w }.goto i p).left + 1 ≤ s.left := by
    intro i w p hi hw hless
    have hmem := hpresent i hi
    have hleft := left_goto hmem hw p
    exact ⟨hpresent.goto hmem w p, by omega⟩
  cases a with
  | enter i rec l b flush =>
      obtain ⟨hidle, rfl⟩ := Group.step_enter hstep
      exact left_arrive hinv hpresent hidle rec l b flush
  | syncBegin i =>
      obtain ⟨position, mySeq, flushSeq, hi, rfl⟩ := Group.step_syncBegin hstep
      refine hgoes i s.w _ (by simp [hi]) rfl ?_
      simp only [hi, Phase.rank]
      omega
  | syncEnd i syncErr =>
      obtain ⟨position, mySeq, flushSeq, begun, hi, rfl⟩ := Group.step_syncEnd hstep
      rcases s.syncEnd_spec i position mySeq flushSeq begun syncErr with ⟨e, hsync⟩ | hsync
      · rw [hsync]
        refine hgoes i s.w _ (by simp [hi]) rfl ?_
        simp only [hi, Phase.rank]
        omega
      · rw [hsync]
        have hless := hgoes i { s.w with out := { s.w.out with file := syncedTo s.w.out.file begun } }
          (.synced position mySeq flushSeq none) (by simp [hi]) rfl (by simp only [hi, Phase.rank]; omega)
        exact hless
  | post i flush =>
      obtain ⟨position, mySeq, flushSeq, syncErr, hi, rfl⟩ := Group.step_post hstep
      have hphase := hinv.phases i
      rw [hi] at hphase
      obtain ⟨-, -, hle, -⟩ := hphase
      rcases post_again s i position mySeq flushSeq syncErr flush with ⟨w, r, hpost, hw⟩ | ⟨hne, w, p, hpost, hw, rfl | rfl⟩
      · rw [hpost]
        refine hgoes i w _ (by simp [hi]) hw ?_
        simp only [hi, Phase.rank]
        omega
      · rw [hpost]
        refine hgoes i w _ (by simp [hi]) hw ?_
        simp only [hi, Phase.rank]
        omega
      · rw [hpost]
        refine hgoes i w _ (by simp [hi]) hw ?_
        simp only [hi, Phase.rank]
        omega
  | wake i =>
      obtain ⟨position, mySeq, hi, -, rfl⟩ := Group.step_wake hstep
      exact hgoes i s.w _ (by simp [hi]) rfl (by simp [hi, Phase.rank])
  | readErr i =>
      obtain ⟨hi, rfl⟩ := Group.step_readErr hstep
      exact hgoes i s.w _ (by simp [hi]) rfl (by simp [hi, Phase.rank])
  | close flush closeErr =>
      obtain ⟨-, rfl⟩ := Group.step_close hstep
      have hpending : (s.w.close flush closeErr).2.pendingSeq = s.w.pendingSeq := by
        obtain ⟨o, -, ⟨e, -, hclose⟩ | ⟨-, hclose⟩⟩ := s.w.close_spec flush closeErr
        · rw [hclose]
        · rw [hclose]
      refine ⟨hpresent, ?_⟩
      show ∑ j ∈ s.callers, (s.phase j).rank (s.w.close flush closeErr).2.pendingSeq + 0 ≤ s.left + 0
      rw [hpending]
      exact le_rfl

/-- **Somebody can go on**, as long as a caller that has arrived has not returned. -/
theorem enabled (hinv : Inv w₀ rs₀ s) (hwaits : Waits s) :
    (∃ a : Action ι, a.follows = true ∧ (s.step a).isSome) ∨ ∀ i, s.phase i = .idle ∨ ∃ r, s.phase i = .returned r := by
  have hleader : ∀ i, (s.phase i).Leads → ∃ a : Action ι, a.follows = true ∧ (s.step a).isSome := by
    intro i hi
    cases hphase : s.phase i with
    | flushed position mySeq flushSeq => exact ⟨.syncBegin i, rfl, by simp only [Group.step, hphase, Option.isSome_some]⟩
    | syncing position mySeq flushSeq begun =>
        exact ⟨.syncEnd i none, rfl, by simp only [Group.step, hphase, Option.isSome_some]⟩
    | synced position mySeq flushSeq syncErr =>
        exact ⟨.post i none, rfl, by simp only [Group.step, hphase, Option.isSome_some]⟩
    | idle | waiting position mySeq | flushFailed | returned r =>
        rw [hphase] at hi
        exact absurd hi (fun h => h)
  by_cases hdone : ∀ i, s.phase i = .idle ∨ ∃ r, s.phase i = .returned r
  · exact Or.inr hdone
  · left
    rw [not_forall] at hdone
    obtain ⟨i, hi⟩ := hdone
    cases hphase : s.phase i with
    | idle => exact absurd (Or.inl hphase) hi
    | returned r => exact absurd (Or.inr ⟨r, hphase⟩) hi
    | flushFailed => exact ⟨.readErr i, rfl, by simp only [Group.step, hphase, Option.isSome_some]⟩
    | waiting position mySeq =>
        by_cases hcovered : s.w.flushedSeq < mySeq
        · -- without a leader everything would be settled
          have hown := hinv.phases i
          rw [hphase] at hown
          obtain ⟨k, r, -, -, -, hle⟩ := hown
          have hleading : s.w.leading = true := by
            by_contra hl
            have hsettled := hwaits.settled (by simpa using hl)
            omega
          obtain ⟨j, hj⟩ := hwaits.leader hleading
          exact hleader j hj
        · exact ⟨.wake i, rfl, by simp only [Group.step, hphase, if_neg hcovered, Option.isSome_some]⟩
    | flushed position mySeq flushSeq | syncing position mySeq flushSeq begun | synced position mySeq flushSeq syncErr =>
        exact hleader i (by rw [hphase]; trivial)

/-- **Every `Append` returns.** On a log that holds `rs₀`, whatever the interleaving of `Append` and `Close` callers and whatever
fails: the callers that have arrived take at most four further steps each, all told; as long as one of them has not returned,
somebody can take a step; and when nobody can, `Close` can go on. -/
theorem appends_return (h : Holds w₀ rs₀) (as : List (Action ι)) {s : Group ι}
    (hrun : runActions Group.step (Group.start w₀) as = some s) :
    as.countP Action.follows ≤ 4 * as.countP Action.enters ∧
    ((∃ a : Action ι, a.follows = true ∧ (s.step a).isSome) ∨
      (∀ i, s.phase i = .idle ∨ ∃ r, s.phase i = .returned r) ∧
        ∀ flush closeErr, (s.step (.close flush closeErr)).isSome) := by
  obtain ⟨⟨hinv, hwaits, -⟩, hcount⟩ := runActions_countP_le (I := fun s : Group ι => Inv w₀ rs₀ s ∧ Waits s ∧ Present s)
    Group.left Action.follows Action.enters 4 (fun s a s' hs hstep =>
      ⟨⟨step_inv hs.1 hstep, (step_waits hs.1 hs.2.1 hstep).1, (left_step hs.1 hs.2.2 hstep).1⟩,
        (left_step hs.1 hs.2.2 hstep).2⟩)
    ⟨start_inv h, start_waits h, fun i hi => absurd rfl hi⟩ hrun
  have hzero : (Group.start w₀ : Group ι).left = 0 := rfl
  refine ⟨by omega, ?_⟩
  rcases enabled hinv hwaits with hstep | hdone
  · exact Or.inl hstep
  · refine Or.inr ⟨hdone, fun flush closeErr => ?_⟩
    have hquiet : ¬ s.w.leading = true := by
      intro hl
      obtain ⟨i, hi⟩ := hwaits.leader hl
      rcases hdone i with hidle | ⟨r, hr⟩
      · rw [hidle] at hi
        exact hi
      · rw [hr] at hi
        exact hi
    simp only [Group.step, if_neg hquiet, Option.isSome_some]

end Left

end Uddp.Wal

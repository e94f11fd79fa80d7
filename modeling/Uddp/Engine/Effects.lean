import Uddp.Engine.Callers

/-!
# When calls take effect

An atomic engine follows the callers. A mutation that writes is in the file before the maps have it, so that there are two
moments at which it can be said to take effect; all the rest is the same for both.

* `EffectRule` : how the history of the atomic engine stands to the log, and what a mutation inside `Append` says about its
  status;
* `CallOk` : where a call is, and its status; `Tracked` : an atomic engine follows the callers by a rule;
* `Tracked.turn`, `Tracked.drive` : a call goes on by itself, or makes a step in the engine;
* `tracked_invoke` to `tracked_respond`, `tracked_lock`, `tracked_check`, `tracked_release` : the steps that do not depend on
  the rule.
-/

namespace Uddp
open Uddp.Lib Uddp.Wal

/-! ## Rules -/

/-- Nobody is inside `Append`. -/
def NobodyInside {ι : Type} (s : SharedEngine ι ι) : Prop := ∀ i c, s.mutation i = .appending c → s.log.group.phase i = .idle

/-- How the history of an atomic engine stands to the log, and what a mutation inside `Append` says about its status. -/
structure EffectRule (ι : Type) (rs₀ : List Record) where
  history : SharedEngine ι ι → Engine → Prop
  inside : SharedEngine ι ι → ι → Call → OpStatus EngineOp EngineAnswer → Prop
  /-- While nobody is inside `Append`, the atomic engine has the history of the log. -/
  quiet : ∀ {s e}, history s e → NobodyInside s →
    Holds e.log (s.log.group.records rs₀) ∧ e.toTables = tablesOf (s.log.group.records rs₀)
  /-- Who has the lock does not matter, nor where the mutations are, as long as nobody is inside `Append`. -/
  turns : ∀ {s s' e}, history s e → s'.log = s.log → NobodyInside s → NobodyInside s' → history s' e
  frame : ∀ {s s' i c st}, inside s i c st → s'.log.group = s.log.group → s'.tables = s.tables → inside s' i c st
  begun : ∀ {s i c st}, inside s i c st → st ≠ .fresh

section Tracked
variable {ι : Type} (w₀ : WAL) {rs₀ : List Record} (R : EffectRule ι rs₀)

/-- Where mutation `c` is. Outside `Append`, it has taken effect exactly if it has its answer. -/
def MutateOk (s : SharedEngine ι ι) (i : ι) (c : Call) (st : OpStatus EngineOp EngineAnswer) : Prop :=
  match s.mutation i, s.log.group.phase i with
  | .idle, _ => c.Fits ∧ st = .pending (.mutate c)
  | .locked c', _ => c' = c ∧ st = .pending (.mutate c)
  | .appending c', .idle => c' = c ∧ s.tables.decide c = .write c.record ∧ st = .pending (.mutate c)
  | .appending c', _ => c' = c ∧ R.inside s i c st
  | .decided r, _ | .returned r, _ => st = .effective (.mutate c) (.outcome r)

/-- Where a call is, and its status. -/
def CallOk (s : SharedEngine ι ι) (i : ι) : CallPhase → OpStatus EngineOp EngineAnswer → Prop
  | .fresh, st => s.mutation i = .idle ∧ s.log.reader i = .idle ∧ st = .fresh
  | .running (.mutate c), st => MutateOk R s i c st
  | .running (.fetch fromPos limit), st => FetchOk s.log.group.w fromPos limit (s.log.reader i) st
  | .running op, st | .reading op, st => st = .pending op
  | .read op r, st | .ready op r, st => st = .effective op r
  | .returned, st => st ≠ .fresh

/-- An atomic engine follows the machine. -/
structure Tracked (x : Callers ι) (t : Atomic Engine ι EngineOp EngineAnswer) : Prop where
  shared : SharedInv w₀ rs₀ x.shared
  history : R.history x.shared t.state
  readers : ∀ i, i ∈ x.readers ↔ (x.phase i).Reads
  free : x.readers ≠ ∅ → x.shared.holder = none
  owner : ∀ i, (x.shared.mutation i).Locks → ∃ c, x.phase i = .running (.mutate c)
  calls : ∀ i, CallOk R x.shared i (x.phase i) (t.status i)

variable {w₀ R} {x : Callers ι} {t : Atomic Engine ι EngineOp EngineAnswer} {i : ι} {s' : SharedEngine ι ι}

theorem MutateOk.untouched {s : SharedEngine ι ι} {c : Call} {st : OpStatus EngineOp EngineAnswer} (h : MutateOk R s i c st)
    (hu : Untouched i s s') : MutateOk R s' i c st := by
  unfold MutateOk at h ⊢
  rw [hu.mutation, hu.phase]
  by_cases hlocks : (s.mutation i).Locks
  · obtain ⟨hgroup, htables⟩ := hu.held hlocks
    rw [htables]
    revert h
    cases s.mutation i with
    | appending c' =>
        cases s.log.group.phase i with
        | idle => exact id
        | _ => exact fun h => ⟨h.1, R.frame h.2 hgroup htables⟩
    | _ => exact id
  · revert h hlocks
    -- a mutation without the lock knows nothing that others could change
    cases s.mutation i with
    | appending c' => exact fun _ hlocks => absurd trivial hlocks
    | _ => exact fun h _ => h

theorem MutateOk.ended {s : SharedEngine ι ι} {c : Call} {st : OpStatus EngineOp EngineAnswer} (h : MutateOk R s i c st)
    {r : Except EngineError Outcome} (hr : s.mutation i = .returned r) : st = .effective (.mutate c) (.outcome r) := by
  unfold MutateOk at h
  rwa [hr] at h

theorem mutateOk_waiting {s : SharedEngine ι ι} {c c' : Call} {st : OpStatus EngineOp EngineAnswer}
    (happending : s.mutation i = .appending c') (hphase : s.log.group.phase i = .idle) : MutateOk R s i c st ↔
      c' = c ∧ s.tables.decide c = .write c.record ∧ st = .pending (.mutate c) := by
  unfold MutateOk
  rw [happending, hphase]

theorem mutateOk_inside {s : SharedEngine ι ι} {c c' : Call} {st : OpStatus EngineOp EngineAnswer}
    (happending : s.mutation i = .appending c') (hphase : s.log.group.phase i ≠ .idle) :
    MutateOk R s i c st ↔ c' = c ∧ R.inside s i c st := by
  unfold MutateOk
  rw [happending]
  cases hp : s.log.group.phase i with
  | idle => exact absurd hp hphase
  | _ => exact Iff.rfl

theorem CallOk.untouched {s : SharedEngine ι ι} {l : ι} {p : CallPhase} {st : OpStatus EngineOp EngineAnswer}
    (h : CallOk R s l p st) (hu : Untouched l s s') : CallOk R s' l p st := by
  cases p with
  | fresh => exact ⟨hu.mutation.trans h.1, hu.reader.trans h.2.1, h.2.2⟩
  | running op =>
      cases op with
      | mutate c => exact MutateOk.untouched h hu
      | fetch fromPos limit =>
          show FetchOk s'.log.group.w fromPos limit (s'.log.reader l) st
          rw [hu.reader]
          exact FetchOk.grown h hu.data hu.byteOffsets
      | get key now => exact h
      | snapshot now => exact h
      | lastCommitPosition => exact h
  | reading op => exact h
  | read op r => exact h
  | ready op r => exact h
  | returned => exact h

theorem CallOk.running {s : SharedEngine ι ι} {op : EngineOp} {st : OpStatus EngineOp EngineAnswer}
    (h : CallOk R s i (.running op) st) (hop : op.underReadLock = true) : st = .pending op := by
  cases op with
  | get key now => exact h
  | snapshot now => exact h
  | _ => cases hop

theorem MutateOk.begun {s : SharedEngine ι ι} {c : Call} {st : OpStatus EngineOp EngineAnswer} (h : MutateOk R s i c st) :
    st ≠ .fresh := by
  unfold MutateOk at h
  split at h
  · exact OpStatus.ne_fresh_of_pending h.2
  · exact OpStatus.ne_fresh_of_pending h.2
  · exact OpStatus.ne_fresh_of_pending h.2.2
  · exact R.begun h.2
  · exact OpStatus.ne_fresh_of_effective h
  · exact OpStatus.ne_fresh_of_effective h

theorem CallOk.begun {s : SharedEngine ι ι} {p : CallPhase} {st : OpStatus EngineOp EngineAnswer} (h : CallOk R s i p st)
    (hp : p ≠ .fresh) : st ≠ .fresh := by
  cases p with
  | fresh => exact absurd rfl hp
  | running op =>
      cases op with
      | mutate c => exact MutateOk.begun h
      | fetch fromPos limit => exact FetchOk.begun h
      | get key now => exact OpStatus.ne_fresh_of_pending h
      | snapshot now => exact OpStatus.ne_fresh_of_pending h
      | lastCommitPosition => exact OpStatus.ne_fresh_of_pending h
  | reading op => exact OpStatus.ne_fresh_of_pending h
  | read op r => exact OpStatus.ne_fresh_of_effective h
  | ready op r => exact OpStatus.ne_fresh_of_effective h
  | returned => exact h

theorem SharedInv.nobodyInside {s : SharedEngine ι ι} (h : SharedInv w₀ rs₀ s)
    (hi : ∀ i c, s.holder = some i → s.mutation i = .appending c → s.log.group.phase i = .idle) : NobodyInside s :=
  fun i c happending => hi i c (h.holder i (happending ▸ trivial)) happending

/-- Whoever takes the lock for reading sees the atomic engine. -/
theorem Tracked.seen (h : Tracked w₀ R x t) (hfree : x.shared.holder = none) : t.state.toTables = x.shared.tables := by
  have hnobody := h.shared.nobodyInside (fun i c hi => absurd (hfree.symm.trans hi) (by simp))
  exact (R.quiet h.history hnobody).2.trans (h.shared.tables hfree).symm

theorem Tracked.seen_locked (h : Tracked w₀ R x t) {c : Call} (hlocked : x.shared.mutation i = .locked c) :
    NobodyInside x.shared ∧ t.state.toTables = x.shared.tables := by
  have hholder := h.shared.holder i (hlocked ▸ trivial)
  have hnobody : NobodyInside x.shared := h.shared.nobodyInside (fun j c' hj happending => by
    obtain rfl : i = j := Option.some.inj (hholder.symm.trans hj)
    rw [hlocked] at happending
    cases happending)
  have hmut := h.shared.mutations i
  rw [hlocked] at hmut
  exact ⟨hnobody, (R.quiet h.history hnobody).2.trans hmut.locked.2.2.tables.symm⟩

section Moves
variable [DecidableEq ι]

theorem Tracked.turn (h : Tracked w₀ R x t) {p : CallPhase} (st : OpStatus EngineOp EngineAnswer) (readers : Finset ι)
    (hok : CallOk R x.shared i p st) (hi : i ∈ readers ↔ p.Reads) (hothers : ∀ l ≠ i, l ∈ readers ↔ l ∈ x.readers)
    (hfree : readers ≠ ∅ → x.shared.holder = none) (hunlocked : ¬(x.shared.mutation i).Locks) :
    Tracked w₀ R ({ x with readers := readers }.goto i p) (t.put i st) := by
  refine ⟨h.shared, h.history, fun l => ?_, hfree, fun l hlocks => ?_, fun l => ?_⟩
  · by_cases hl : l = i
    · subst hl
      rw [Callers.goto_self]
      exact hi
    · rw [Callers.goto_of_ne _ hl]
      exact (hothers l hl).trans (h.readers l)
  · have hl : l ≠ i := fun hl => hunlocked (hl ▸ hlocks)
    rw [Callers.goto_of_ne _ hl]
    exact h.owner l hlocks
  · by_cases hl : l = i
    · subst hl
      rw [Callers.goto_self, Atomic.put_self]
      exact hok
    · rw [Callers.goto_of_ne _ hl, Atomic.put_of_ne _ hl]
      exact h.calls l

theorem Tracked.pass (h : Tracked w₀ R x t) {p : CallPhase} {st : OpStatus EngineOp EngineAnswer}
    (hok : CallOk R x.shared i p st) (hreads : (x.phase i).Reads ↔ p.Reads) (hunlocked : ¬(x.shared.mutation i).Locks) :
    Tracked w₀ R (x.goto i p) (t.put i st) :=
  h.turn st x.readers hok ((h.readers i).trans hreads) (fun _ _ => Iff.rfl) h.free hunlocked

omit [DecidableEq ι] in
theorem Tracked.unlocked (h : Tracked w₀ R x t) (hi : ∀ c, x.phase i ≠ .running (.mutate c)) : ¬(x.shared.mutation i).Locks := by
  intro hlocks
  obtain ⟨c, hc⟩ := h.owner i hlocks
  exact hi c hc

theorem Tracked.drive (h : Tracked w₀ R x t) {a : EngineAction ι ι} (hstep : x.shared.step a = some s')
    (hs' : SharedInv w₀ rs₀ s') {op : EngineOp} (hrunning : x.phase a.caller = .running op)
    {t' : Atomic Engine ι EngineOp EngineAnswer}
    (hothers : ∀ l ≠ a.caller, t'.status l = t.status l) (hhistory : R.history s' t'.state)
    (hfree : x.readers ≠ ∅ → s'.holder = none) (howner : (s'.mutation a.caller).Locks → ∃ c, op = .mutate c)
    (hok : CallOk R s' a.caller (.running op) (t'.status a.caller)) : Tracked w₀ R { x with shared := s' } t' := by
  refine ⟨hs', hhistory, h.readers, hfree, fun l hlocks => ?_, fun l => ?_⟩
  · by_cases hl : l = a.caller
    · subst hl
      obtain ⟨c, rfl⟩ := howner hlocks
      exact ⟨c, hrunning⟩
    · rw [(step_places hstep hl).1] at hlocks
      exact h.owner l hlocks
  by_cases hl : l = a.caller
  · subst hl
    show CallOk R s' _ (x.phase a.caller) _
    rw [hrunning]
    exact hok
  · rw [hothers l hl]
    exact (h.calls l).untouched (step_untouched h.shared hstep hs' hl)

/-! ### Calls that do not write -/

theorem tracked_invoke (h : Tracked w₀ R x t) {op : EngineOp} (hfits : ∀ c, op = .mutate c → c.Fits) {x' : Callers ι}
    (hstep : x.step (.invoke i op) = some x') : Tracked w₀ R x' (t.put i (.pending op)) ∧ t.status i = .fresh := by
  obtain ⟨hfresh, rfl⟩ := Callers.step_invoke hstep
  have hok := h.calls i
  rw [hfresh] at hok
  obtain ⟨hmutation, hreader, hst⟩ := hok
  refine ⟨h.pass ?_ (by rw [hfresh]; exact Iff.rfl) (by rw [hmutation]; exact id), hst⟩
  cases op with
  | mutate c =>
      show MutateOk R x.shared i c _
      unfold MutateOk
      rw [hmutation]
      exact ⟨hfits c rfl, rfl⟩
  | fetch fromPos limit =>
      show FetchOk _ fromPos limit (x.shared.log.reader i) _
      rw [hreader]
      rfl
  | get key now => rfl
  | snapshot now => rfl
  | lastCommitPosition => rfl

theorem tracked_rlock (h : Tracked w₀ R x t) {x' : Callers ι} (hstep : x.step (.rlock i) = some x') :
    Tracked w₀ R x' t := by
  obtain ⟨op, hrunning, hfree, hunder, rfl⟩ := Callers.step_rlock hstep
  have hok := h.calls i
  rw [hrunning] at hok
  have hturn := h.turn (i := i) (p := .reading op) (t.status i) (insert i x.readers) (hok.running hunder)
    (iff_of_true (Finset.mem_insert_self i _) trivial) (fun l hl => by simp [hl]) (fun _ => hfree)
    (h.unlocked (fun c hc => by rw [hrunning] at hc; cases hc; cases hunder))
  rwa [Atomic.put_same] at hturn

/-- What a call reads under the read lock is what the sequential engine answers. -/
theorem look_answers {e : Engine} {tables : Tables} (ht : e.toTables = tables) {order : List (Σ _ : Bytes, Entry)} {op : EngineOp}
    {r : EngineAnswer} (h : tables.look order op = some r) : e.Answers op r e := by
  subst ht
  cases op with
  | get key now =>
      cases h
      exact ⟨rfl, rfl⟩
  | snapshot now =>
      simp only [Tables.look] at h
      split at h
      · next horder =>
        cases h
        exact ⟨⟨order, horder, rfl⟩, rfl⟩
      · cases h
  | _ => cases h

theorem tracked_look (h : Tracked w₀ R x t) {order : List (Σ _ : Bytes, Entry)} {x' : Callers ι}
    (hstep : x.step (.look i order) = some x') : ∃ op r, Tracked w₀ R x' (t.put i (.effective op r)) ∧
      t.status i = .pending op ∧ t.state.Answers op r t.state := by
  obtain ⟨op, r, hreading, hlook, rfl⟩ := Callers.step_look hstep
  have hok := h.calls i
  rw [hreading] at hok
  have hmem : i ∈ x.readers := by
    rw [h.readers i, hreading]
    trivial
  -- nobody writes while somebody has the read lock
  have hfree : x.shared.holder = none := h.free (Finset.ne_empty_of_mem hmem)
  refine ⟨op, r, h.pass rfl (by rw [hreading]; exact Iff.rfl) (h.unlocked (by simp [hreading])), hok, look_answers ?_ hlook⟩
  exact h.seen hfree

theorem tracked_runlock (h : Tracked w₀ R x t) {x' : Callers ι} (hstep : x.step (.runlock i) = some x') :
    Tracked w₀ R x' t := by
  obtain ⟨op, r, hread, rfl⟩ := Callers.step_runlock hstep
  have hok := h.calls i
  rw [hread] at hok
  have hturn := h.turn (i := i) (p := .ready op r) (t.status i) (x.readers.erase i) hok
    (iff_of_false (Finset.notMem_erase i _) id) (fun l hl => by simp [hl])
    (fun hne => h.free (fun h0 => hne (by rw [h0, Finset.erase_empty])))
    (h.unlocked (fun c hc => by rw [hread] at hc; cases hc))
  rwa [Atomic.put_same] at hturn

/-- An answer is that of the moment at which the call has taken effect. -/
theorem tracked_respond (h : Tracked w₀ R x t) {r : EngineAnswer} {x' : Callers ι}
    (hstep : x.step (.respond i r) = some x') : ∃ op, Tracked w₀ R x' (t.put i (.closed op r)) ∧ t.status i = .effective op r := by
  obtain ⟨hanswered, rfl⟩ := Callers.step_respond hstep
  have hok := h.calls i
  unfold Callers.answered at hanswered
  split at hanswered
  · next op r' hready =>
    cases hanswered
    rw [hready] at hok
    exact ⟨op, h.pass (by simp [CallOk]) (by rw [hready]; exact Iff.rfl) (h.unlocked (by simp [hready])), hok⟩
  · next c hrunning =>
    rw [hrunning] at hok
    split at hanswered
    · next r' hreturned =>
      cases hanswered
      exact ⟨.mutate c, h.pass (by simp [CallOk]) (by rw [hrunning]; exact Iff.rfl) (by rw [hreturned]; exact id),
        MutateOk.ended hok hreturned⟩
    · cases hanswered
  · next fromPos limit hrunning =>
    rw [hrunning] at hok
    obtain ⟨result, hfetched, rfl⟩ := Option.map_eq_some_iff.mp hanswered
    obtain ⟨p, recs, err, hreturned, rfl⟩ := SharedEngine.fetched_some hfetched
    have hst : FetchOk _ fromPos limit (x.shared.log.reader i) _ := hok
    rw [hreturned] at hst
    exact ⟨.fetch fromPos limit, h.pass (by simp [CallOk]) (by rw [hrunning]; exact Iff.rfl) (h.unlocked (by simp [hrunning])), hst⟩
  · cases hanswered

/-! ### Mutations outside `Append` -/

omit [DecidableEq ι] in
theorem Tracked.mutation (h : Tracked w₀ R x t) {c : Call} (hrunning : x.phase i = .running (.mutate c)) :
    MutateOk R x.shared i c (t.status i) := by
  have hok := h.calls i
  rwa [hrunning] at hok

theorem Tracked.mutates (h : Tracked w₀ R x t) {a : EngineAction ι ι} (hstep : x.shared.step a = some s')
    (hs' : SharedInv w₀ rs₀ s') {c : Call} (hrunning : x.phase a.caller = .running (.mutate c)) (holder : Option ι)
    {p : MutationPhase} (hs : s' = { x.shared with holder := holder }.goto a.caller p) (hnobody : NobodyInside x.shared)
    (hp : ∀ c, p = .appending c → x.shared.log.group.phase a.caller = .idle) (hfree : x.readers ≠ ∅ → holder = none)
    (st : OpStatus EngineOp EngineAnswer) (hok : MutateOk R s' a.caller c st) :
    Tracked w₀ R { x with shared := s' } (t.put a.caller st) := by
  have hnobody' : NobodyInside s' := by
    intro l c' happending
    rw [hs] at happending ⊢
    by_cases hl : l = a.caller
    · subst hl
      rw [SharedEngine.goto_self] at happending
      exact hp c' happending
    · rw [SharedEngine.goto_of_ne _ hl] at happending
      exact hnobody l c' happending
  refine h.drive hstep hs' hrunning (fun l hl => Atomic.put_of_ne _ hl _) ?_ ?_ (fun _ => ⟨c, rfl⟩) ?_
  · exact R.turns h.history (by rw [hs]; rfl) hnobody hnobody'
  · rw [hs]
    exact hfree
  · rw [Atomic.put_self]
    exact hok

theorem tracked_lock (h : Tracked w₀ R x t) {c : Call} (hrunning : x.phase i = .running (.mutate c)) (hempty : x.readers = ∅)
    (hstep : x.shared.step (.lock i c) = some s') : Tracked w₀ R { x with shared := s' } t := by
  have hok := h.mutation hrunning
  obtain ⟨hidle, hfree, hs⟩ := SharedEngine.step_lock hstep
  unfold MutateOk at hok
  rw [hidle] at hok
  have hnobody := h.shared.nobodyInside (fun j c' hj => absurd (hfree.symm.trans hj) (by simp))
  have htracked := h.mutates hstep (shared_lock h.shared hok.1 hstep) hrunning (some i) hs hnobody (fun _ hp => by cases hp)
    (fun hne => absurd hempty hne) (t.status i) ?_
  · rwa [show EngineAction.caller (.lock i c) = i from rfl, Atomic.put_same] at htracked
  · show MutateOk R s' i c _
    unfold MutateOk
    rw [hs, SharedEngine.goto_self]
    exact ⟨rfl, hok.2⟩

theorem tracked_check (h : Tracked w₀ R x t) {c : Call} (hrunning : x.phase i = .running (.mutate c))
    (hstep : x.shared.step (.check i) = some s') : Tracked w₀ R { x with shared := s' } t ∨
      ∃ r, Tracked w₀ R { x with shared := s' } (t.put i (.effective (.mutate c) r)) ∧ t.status i = .pending (.mutate c) ∧
        t.state.Answers (.mutate c) r t.state := by
  have hok := h.mutation hrunning
  have hs' := shared_check h.shared hstep
  obtain ⟨c', hlocked, hcases⟩ := step_check_decides hstep
  unfold MutateOk at hok
  rw [hlocked] at hok
  obtain ⟨rfl, hpending⟩ := hok
  obtain ⟨hnobody, hseen⟩ := h.seen_locked hlocked
  obtain ⟨hhit, hconflict⟩ := run_decided hseen (c := c')
  have hphase : x.shared.log.group.phase i = .idle := by
    have hmut := h.shared.mutations i
    rw [hlocked] at hmut
    exact hmut.locked.1
  -- the two ends and the write differ only in the place
  have hgoto : ∀ (p : MutationPhase) (st : OpStatus EngineOp EngineAnswer), s' = x.shared.goto i p → MutateOk R s' i c' st →
      Tracked w₀ R { x with shared := s' } (t.put i st) := fun p st hs hp =>
    h.mutates hstep hs' hrunning x.shared.holder hs hnobody (fun _ _ => hphase) h.free st hp
  rcases hcases with ⟨out, hd, hs⟩ | ⟨hd, hs⟩ | ⟨hd, hs⟩
  · refine Or.inr ⟨.outcome (.ok out), hgoto _ _ hs ?_, hpending, hhit out hd⟩
    unfold MutateOk
    rw [hs, SharedEngine.goto_self]
  · refine Or.inr ⟨.outcome (.error .versionMismatch), hgoto _ _ hs ?_, hpending, hconflict hd⟩
    unfold MutateOk
    rw [hs, SharedEngine.goto_self]
  · have htracked := hgoto (.appending c') (t.status i) hs ?_
    · rw [Atomic.put_same] at htracked
      exact Or.inl htracked
    · rw [hs, mutateOk_waiting (SharedEngine.goto_self _ _ _) hphase]
      exact ⟨rfl, hd, hpending⟩

theorem tracked_release (h : Tracked w₀ R x t) {c : Call} (hrunning : x.phase i = .running (.mutate c))
    (hstep : x.shared.step (.release i) = some s') : Tracked w₀ R { x with shared := s' } t := by
  have hok := h.mutation hrunning
  obtain ⟨r, hdecided, hs⟩ := SharedEngine.step_release hstep
  unfold MutateOk at hok
  rw [hdecided] at hok
  have hholder := h.shared.holder i (hdecided ▸ trivial)
  have hnobody : NobodyInside x.shared := h.shared.nobodyInside (fun j c' hj happending => by
    obtain rfl : i = j := Option.some.inj (hholder.symm.trans hj)
    rw [hdecided] at happending
    cases happending)
  have htracked := h.mutates hstep (shared_release h.shared hstep) hrunning none hs hnobody (fun _ hp => by cases hp)
    (fun _ => rfl) (t.status i) ?_
  · rwa [show EngineAction.caller (EngineAction.release i) = i from rfl, Atomic.put_same] at htracked
  · show MutateOk R s' i c _
    unfold MutateOk
    rw [hs, SharedEngine.goto_self]
    exact hok

theorem follows_commit {op : EngineOp} {r : EngineAnswer} {e' : Engine} (hpending : t.status i = .pending op)
    (hanswers : t.state.Answers op r e') : AtomicFollows Engine.Answers none t ({ t with state := e' }.put i (.effective op r)) :=
  Or.inr ⟨.commit i op r, .commit hpending hanswers, rfl⟩

theorem follows_nothing : AtomicFollows Engine.Answers none t t := Or.inl ⟨rfl, rfl⟩

end Moves
end Tracked
end Uddp

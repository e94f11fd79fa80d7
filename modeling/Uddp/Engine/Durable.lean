import Uddp.Engine.Effects

/-!
# Linearizable across power failures

The machine can lose its power at any moment, and `engine.Open` then finds what is on the disk: everything that was durable and
perhaps more. The calls that were on their way never return. `Fetch` and `LastCommitPosition` tell of records that are not
durable yet, so only the other calls are considered.

* `PowerAction`, `Callers.stepPower` : the callers, and power failures between any two of their steps;
* `mapsRule` : a record counts when the maps have it. Everything that counts is durable;
* `tracked_crash` : what counts survives, and of the mutation inside `Append` the record can survive or not;
* **`engine_durably_linearizable`** : the history of all calls, before and after any number of power failures, is linearizable.
-/

namespace Uddp
open Uddp.Lib Uddp.Wal

/-! ## Power failures -/

inductive PowerAction (ι : Type)
  | call (a : CallerAction ι)
  /-- `engine.Open` finds the file `f`. -/
  | crash (f : File)

def PowerAction.seen {ι : Type} : PowerAction ι → Option (ClientEvent ι EngineOp EngineAnswer)
  | .call a => a.seen
  | .crash _ => none

/-- The calls that go by the maps. -/
def EngineOp.byMaps : EngineOp → Bool
  | .mutate _ | .get _ _ | .snapshot _ => true
  | .fetch _ _ | .lastCommitPosition => false

/-- Only calls that go by the maps are made, and their records fit. -/
def PowerAction.Allowed {ι : Type} : PowerAction ι → Prop
  | .call (.invoke i op) => op.byMaps = true ∧ (CallerAction.invoke i op).Fits
  | _ => True

instance {ι : Type} : DecidablePred (PowerAction.Allowed (ι := ι))
  | .call (.invoke i op) => inferInstanceAs (Decidable (op.byMaps = true ∧ (CallerAction.invoke i op).Fits))
  | .call (.engine _) | .call (.rlock _) | .call (.look _ _) | .call (.runlock _) | .call (.position _) | .call (.respond _ _)
  | .crash _ => inferInstanceAs (Decidable True)

namespace Callers
variable {ι : Type} [DecidableEq ι]

/-- The calls of a new process: those that were on their way are gone. -/
def recovered (x : Callers ι) (e : Engine) : Callers ι :=
  ⟨.start e, fun i => match x.phase i with | .fresh => .fresh | _ => .returned, ∅⟩

def stepPower (x : Callers ι) : PowerAction ι → Option (Callers ι)
  | .call a => x.step a
  | .crash f =>
      if Crash x.shared.log.group.w.out.file f ∧ f.synced = f.data.length then (openEngine f).1.toOption.map x.recovered else none

theorem stepPower_crash {x x' : Callers ι} {f : File} (h : x.stepPower (.crash f) = some x') :
    Crash x.shared.log.group.w.out.file f ∧ f.synced = f.data.length ∧ ∃ e, (openEngine f).1 = .ok e ∧ x' = x.recovered e := by
  simp only [stepPower] at h
  split at h
  · next hcrash =>
    obtain ⟨e, he, rfl⟩ := Option.map_eq_some_iff.mp h
    refine ⟨hcrash.1, hcrash.2, e, ?_, rfl⟩
    cases hopen : (openEngine f).1 with
    | error err =>
        rw [hopen] at he
        cases he
    | ok e' =>
        rw [hopen] at he
        cases he
        rfl
  · cases h

end Callers

/-! ## The rule -/

section Rule
variable {ι : Type} (rs₀ : List Record)

/-- `A` is what the maps have: all records of the log, or all but that of the mutation inside `Append`. It is durable. -/
structure Applied (s : SharedEngine ι ι) (e : Engine) (A : List Record) : Prop where
  holds : Holds e.log A
  tables : e.toTables = tablesOf A
  durable : (logBytes A).length ≤ s.log.group.w.out.file.synced
  whole : NobodyInside s → s.log.group.records rs₀ = A
  ahead : ∀ i c, s.mutation i = .appending c → s.log.group.phase i ≠ .idle →
    s.log.group.records rs₀ = A ++ [stamp c.record (nextPosition A)]

/-- A record counts when the maps have it. -/
def mapsRule (ι : Type) (rs₀ : List Record) : EffectRule ι rs₀ where
  history s e := ∃ A, Applied rs₀ s e A
  inside s i c st := s.tables.decide c = .write c.record ∧ st = .pending (.mutate c) ∧
    ∀ r, s.log.group.phase i = .returned r → (logBytes (s.log.group.records rs₀)).length ≤ s.log.group.w.out.file.synced
  quiet h hnobody := by
    obtain ⟨A, hA⟩ := h
    rw [hA.whole hnobody]
    exact ⟨hA.holds, hA.tables⟩
  turns h hlog hnobody hnobody' := by
    obtain ⟨A, hA⟩ := h
    refine ⟨A, hA.holds, hA.tables, ?_, fun _ => ?_, fun i c happending hphase => absurd (hnobody' i c happending) hphase⟩
    · rw [hlog]
      exact hA.durable
    · rw [hlog]
      exact hA.whole hnobody
  frame h hgroup htables := by
    rw [hgroup, htables]
    exact h
  begun h := by
    rw [h.2.1]
    simp

end Rule

section Durable
variable {ι : Type} {w₀ : WAL} {rs₀ : List Record} {x : Callers ι} {t : Atomic Engine ι EngineOp EngineAnswer} {i : ι}
  {s s' : SharedEngine ι ι}

theorem SharedInv.synced (h : SharedInv w₀ rs₀ s) {position : UInt64} {mySeq flushSeq : Nat} {syncErr : Option String}
    (hphase : s.log.group.phase i = .synced position mySeq flushSeq syncErr) :
    (logBytes (s.log.group.records rs₀)).length ≤ s.log.group.w.out.file.synced := by
  obtain ⟨c, -, -, hseq, rfl⟩ := h.inside hphase trivial
  have hok := h.served.group.phases i
  rw [hphase] at hok
  obtain ⟨b, hb, hend⟩ := hok.2.2.2 rfl
  have hwhole := h.served.group.log.whole h.flushed.err
  have hall : flushSeq - w₀.pendingSeq = (s.log.group.arrivals.map Prod.snd).length := by
    rw [List.length_map]
    omega
  rw [Group.endOf, hall, List.take_length] at hend
  exact hend.trans (h.served.group.log.durable b hb)

/-- The mutation inside `Append` is one record ahead of the maps, at the next position. -/
theorem Applied.position {e : Engine} {A : List Record} (hA : Applied rs₀ s e A) (h : SharedInv w₀ rs₀ s) {c : Call}
    (happending : s.mutation i = .appending c) {position : UInt64} (hphase : s.log.group.phase i = .returned (.ok position)) :
    s.log.group.records rs₀ = A ++ [stamp c.record (nextPosition A)] ∧ s.tables = tablesOf A ∧ position = nextPosition A := by
  have hahead := hA.ahead i c happending (by rw [hphase]; simp)
  have hmut := h.mutations i
  rw [happending, hphase] at hmut
  obtain ⟨⟨rs, hrecords, htables⟩, -⟩ := hmut
  obtain ⟨rfl, hlast⟩ := List.append_inj' (hrecords.symm.trans hahead) rfl
  exact ⟨hahead, htables, congrArg Record.commitPosition (List.singleton_inj.mp hlast)⟩

theorem MutationOk.behind {g : Wal.Group ι} {tables : Tables} {c : Call} {p : Phase}
    (h : MutationOk rs₀ g tables (.appending c) p) (hp : p ≠ .idle) {A : List Record} {r : Record}
    (hrecords : g.records rs₀ = A ++ [r]) : tables = tablesOf A := by
  have hpending : ∀ position, Pending rs₀ g tables c position → tables = tablesOf A := by
    rintro position ⟨rs, hrs, htables⟩
    obtain ⟨rfl, -⟩ := List.append_inj' (hrs.symm.trans hrecords) rfl
    exact htables
  cases p with
  | idle => exact absurd rfl hp
  | flushed position a b => exact hpending position h.1
  | syncing position a b d => exact hpending position h.1
  | synced position a b d => exact hpending position h.1
  | returned r =>
      cases r with
      | ok position => exact hpending position h.1
      | error e => exact h.elim
  | _ => exact h.elim

variable [DecidableEq ι]

/-! ## Mutations inside `Append` -/

theorem within_durable (h : SharedInv w₀ rs₀ s) {a : EngineAction ι ι}
    (ha : a = .syncBegin i ∨ a = .syncEnd i ∨ a = .post i) (hstep : s.step a = some s') :
    ∀ r, s'.log.group.phase i = .returned r → (logBytes (s'.log.group.records rs₀)).length ≤ s'.log.group.w.out.file.synced := by
  intro r hr
  rcases ha with rfl | rfl | rfl
  · obtain ⟨log, hlog, rfl⟩ := SharedEngine.logStep_some hstep
    obtain ⟨g, hg, rfl⟩ := Served.step_write hlog
    obtain ⟨_, _, _, -, rfl⟩ := Group.step_syncBegin hg
    exact absurd ((Wal.goto_self _ _ _).symm.trans hr) (by simp)
  · obtain ⟨log, hlog, rfl⟩ := SharedEngine.logStep_some hstep
    obtain ⟨g, hg, rfl⟩ := Served.step_write hlog
    obtain ⟨_, _, _, _, -, rfl⟩ := Group.step_syncEnd hg
    rw [syncEnd_single h.flushed] at hr
    exact absurd ((Wal.goto_self _ _ _).symm.trans hr) (by simp)
  · have hwithin := within_post h hstep
    rw [hwithin.records]
    refine le_trans ?_ hwithin.synced
    obtain ⟨log, hlog, -⟩ := SharedEngine.logStep_some hstep
    obtain ⟨g, hg, -⟩ := Served.step_write hlog
    obtain ⟨_, _, _, _, hphase, -⟩ := Group.step_post hg
    exact h.synced hphase

section Steps
variable (h : Tracked w₀ (mapsRule ι rs₀) x t)
include h

theorem mapped_buffer {c : Call} (hrunning : x.phase i = .running (.mutate c)) (hstep : x.shared.step (.buffer i) = some s') :
    Tracked w₀ (mapsRule ι rs₀) { x with shared := s' } t := by
  have hok := h.mutation hrunning
  have hs' := shared_buffer h.shared hstep
  obtain ⟨c', happending, hphase, hrecords, ⟨mySeq, flushSeq, hflushed⟩, hmutation, htables, hholder, hsynced⟩ :=
    buffer_effect h.shared hstep
  obtain ⟨rfl, hd, hpending⟩ := (mutateOk_waiting happending hphase).mp hok
  have hlock := h.shared.holder i (happending ▸ trivial)
  have hnobody : NobodyInside x.shared := h.shared.nobodyInside (fun j c hj _ => by
    obtain rfl : i = j := Option.some.inj (hlock.symm.trans hj)
    exact hphase)
  refine h.drive hstep hs' hrunning (fun _ _ => rfl) ?_ ?_ (fun _ => ⟨c', rfl⟩) ?_
  · obtain ⟨A, hA⟩ := h.history
    refine ⟨A, hA.holds, hA.tables, by rw [hsynced]; exact hA.durable, fun hnobody' => ?_, fun j c happending' _ => ?_⟩
    · -- it is inside itself
      have hidle := hnobody' i c' (hmutation ▸ happending)
      rw [hflushed] at hidle
      cases hidle
    · obtain rfl : i = j := by
        have hj := h.shared.holder j (by rw [hmutation] at happending'; rw [happending']; trivial)
        exact Option.some.inj (hlock.symm.trans hj)
      rw [hmutation, happending] at happending'
      cases happending'
      rw [hrecords, hA.whole hnobody]
  · rw [hholder]
    exact h.free
  · show MutateOk _ s' i c' (t.status i)
    refine (mutateOk_inside (hmutation ▸ happending) (by rw [hflushed]; simp)).mpr ⟨rfl, ?_, hpending, ?_⟩
    · rw [htables]
      exact hd
    · intro r hr
      rw [hflushed] at hr
      cases hr

theorem mapped_within {c : Call} {a : EngineAction ι ι} (hrunning : x.phase a.caller = .running (.mutate c))
    (hstep : x.shared.step a = some s') (hs' : SharedInv w₀ rs₀ s') (hwithin : Within rs₀ a.caller x.shared s')
    (hdurable : ∀ r, s'.log.group.phase a.caller = .returned r →
      (logBytes (s'.log.group.records rs₀)).length ≤ s'.log.group.w.out.file.synced) :
    Tracked w₀ (mapsRule ι rs₀) { x with shared := s' } t := by
  have hok := h.mutation hrunning
  obtain ⟨c', position, happending, hat, hat'⟩ := hwithin.appending
  obtain ⟨rfl, hd, hpending, -⟩ := (mutateOk_inside happending hat.ne_idle).mp hok
  refine h.drive hstep hs' hrunning (fun _ _ => rfl) ?_ ?_ (fun _ => ⟨c', rfl⟩) ?_
  · obtain ⟨A, hA⟩ := h.history
    refine ⟨A, hA.holds, hA.tables, hA.durable.trans hwithin.synced, fun hnobody => ?_, fun j c happending' _ => ?_⟩
    · exact absurd (hnobody _ c' (hwithin.mutation ▸ happending)) hat'.ne_idle
    · rw [hwithin.mutation] at happending'
      have hlock := h.shared.holder _ (happending ▸ trivial : (x.shared.mutation a.caller).Locks)
      obtain rfl : a.caller = j := Option.some.inj (hlock.symm.trans (h.shared.holder j (happending' ▸ trivial)))
      rw [happending] at happending'
      cases happending'
      rw [hwithin.records]
      exact hA.ahead _ _ happending hat.ne_idle
  · rw [hwithin.holder]
    exact h.free
  · refine (mutateOk_inside (hwithin.mutation ▸ happending) hat'.ne_idle).mpr ⟨rfl, ?_, hpending, hdurable⟩
    rw [hwithin.tables]
    exact hd

theorem mapped_update {c : Call} (hrunning : x.phase i = .running (.mutate c)) (hstep : x.shared.step (.update i) = some s') :
    ∃ r e', Tracked w₀ (mapsRule ι rs₀) { x with shared := s' } ({ t with state := e' }.put i (.effective (.mutate c) r)) ∧
      t.status i = .pending (.mutate c) ∧ t.state.Answers (.mutate c) r e' := by
  have hok := h.mutation hrunning
  have hs' := shared_update h.shared hstep
  obtain ⟨c', happending, ⟨position, hphase, hs⟩ | ⟨err, hphase, -⟩⟩ := SharedEngine.step_update hstep
  · obtain ⟨rfl, hd, hpending, hdurable⟩ := (mutateOk_inside happending (by rw [hphase]; simp)).mp hok
    obtain ⟨A, hA⟩ := h.history
    obtain ⟨hrecords, htables, rfl⟩ := hA.position h.shared happending hphase
    rw [htables] at hd
    obtain ⟨e', hrun, hholds, htables'⟩ := run_writes hA.holds hA.tables hd
    have hlog : s'.log = x.shared.log := by rw [hs]; rfl
    refine ⟨.outcome (.ok (outcomeAt (nextPosition A))), e',
      h.drive hstep hs' hrunning (fun l hl => Atomic.put_of_ne _ hl _) ?_ ?_ (fun _ => ⟨c', rfl⟩) ?_, hpending, hrun⟩
    · refine ⟨A ++ [stamp c'.record (nextPosition A)], hholds, htables', ?_, fun _ => ?_, fun j c'' happending' _ => ?_⟩
      · rw [hlog, ← hrecords]
        exact hdurable _ hphase
      · rw [hlog]
        exact hrecords
      · -- it was the only one with the lock, and it has an answer now
        have hj := hs'.holder j (happending' ▸ trivial)
        have hi := hs'.holder i (by rw [hs, SharedEngine.goto_self]; trivial)
        obtain rfl : i = j := Option.some.inj (hi.symm.trans hj)
        rw [hs, SharedEngine.goto_self] at happending'
        cases happending'
    · rw [hs]
      exact h.free
    · show MutateOk _ s' i c' ((Atomic.put _ i _).status i)
      rw [Atomic.put_self]
      unfold MutateOk
      rw [hs, SharedEngine.goto_self]
  · have hmut := h.shared.mutations i
    rw [happending, hphase] at hmut
    exact hmut.elim

end Steps

/-! ## A power failure -/

omit [DecidableEq ι] in
theorem recovered_tracked {e : Engine} {A : List Record} (hkeeps : Keeps e A A.length)
    {t' : Atomic Engine ι EngineOp EngineAnswer} (hholds : Holds t'.state.log A) (htables : t'.state.toTables = tablesOf A)
    (hfresh : ∀ i, x.phase i = .fresh → t'.status i = .fresh) (hbegun : ∀ i, x.phase i ≠ .fresh → t'.status i ≠ .fresh) :
    Tracked e.log (mapsRule ι A) (x.recovered e) t' := by
  have hrecords : (x.recovered e).shared.log.group.records A = A := List.append_nil A
  have hdurable := hkeeps.durable
  rw [List.take_length] at hdurable
  refine ⟨shared_start hkeeps, ⟨A, hholds, htables, hdurable, fun _ => hrecords, fun i c h => by cases h⟩, fun i => ?_,
    fun hne => absurd rfl hne, fun i hi => hi.elim, fun i => ?_⟩
  · refine iff_of_false (Finset.notMem_empty i) ?_
    show ¬CallPhase.Reads (match x.phase i with | .fresh => .fresh | _ => .returned)
    cases x.phase i with
    | fresh => exact id
    | _ => exact id
  · show CallOk _ _ i (match x.phase i with | .fresh => .fresh | _ => .returned) _
    cases hphase : x.phase i with
    | fresh => exact ⟨rfl, rfl, hfresh i hphase⟩
    | _ => exact hbegun i (by simp [hphase])

section Crash
variable (h : Tracked w₀ (mapsRule ι rs₀) x t)
include h

omit [DecidableEq ι] in
/-- `engine.Open` finds everything that the maps have had, and at most the record of the mutation inside `Append` more. -/
theorem Tracked.reopens {A : List Record} (hA : Applied rs₀ x.shared t.state A) {f : File}
    (hcrash : Crash x.shared.log.group.w.out.file f) : ∃ e k n', (openEngine f).1 = .ok e ∧ A.length ≤ k ∧
      k ≤ (x.shared.log.group.records rs₀).length ∧ Keeps e ((x.shared.log.group.records rs₀).take k) n' ∧
      (f.synced = f.data.length → n' = ((x.shared.log.group.records rs₀).take k).length) := by
  have hpart : A <+: x.shared.log.group.records rs₀ := by
    by_cases hnobody : NobodyInside x.shared
    · rw [hA.whole hnobody]
    · simp only [NobodyInside, not_forall] at hnobody
      obtain ⟨i, c, happending, hphase⟩ := hnobody
      rw [hA.ahead i c happending hphase]
      exact List.prefix_append _ _
  have htake : (x.shared.log.group.records rs₀).take A.length = A := (List.prefix_iff_eq_take.mp hpart).symm
  have hlen : (logBytes A).length ≤ f.data.length := hA.durable.trans hcrash.durable
  obtain ⟨e, k, n', hopen, hk, hkle, hkeeps, -, hall⟩ := open_keeps ⟨h.shared.served.fits, h.shared.kind⟩
    h.shared.served.group.log.stamped hpart.length_le (f := f) (h.shared.data ▸ hcrash.kept) (by rw [htake]; exact hlen)
    (by rw [htake]; exact hA.durable.trans hcrash.synced) hcrash.reopened
  exact ⟨e, k, n', hopen, hk, hkle, hkeeps, hall⟩

/-- **A power failure**, which the atomic engine does not notice, or at which the mutation inside `Append` takes effect. -/
theorem mapped_crash {f : File} (hcrash : Crash x.shared.log.group.w.out.file f) (hsync : f.synced = f.data.length) {e : Engine}
    (hopen : (openEngine f).1 = .ok e) : ∃ rs t', Tracked e.log (mapsRule ι rs) (x.recovered e) t' ∧
      AtomicFollows Engine.Answers none t t' := by
  obtain ⟨A, hA⟩ := h.history
  obtain ⟨e', k, n', hopen', hk, hkle, hkeeps, hall⟩ := h.reopens hA hcrash
  obtain rfl : e' = e := Except.ok.inj (hopen'.symm.trans hopen)
  rw [hall hsync] at hkeeps
  have hfresh : ∀ i, x.phase i = .fresh → t.status i = .fresh := by
    intro i hi
    have hok := h.calls i
    rw [hi] at hok
    exact hok.2.2
  have hbegun : ∀ i, x.phase i ≠ .fresh → t.status i ≠ .fresh := fun i hi => (h.calls i).begun hi
  -- no more than the maps have had
  have hnone : (x.shared.log.group.records rs₀).take k = A → ∃ rs t', Tracked e'.log (mapsRule ι rs) (x.recovered e') t' ∧
      AtomicFollows Engine.Answers none t t' := by
    intro htake
    rw [htake] at hkeeps
    exact ⟨A, t, recovered_tracked hkeeps hA.holds hA.tables hfresh hbegun, follows_nothing⟩
  by_cases hnobody : NobodyInside x.shared
  · have hrecords := hA.whole hnobody
    refine hnone ?_
    rw [hrecords] at hkle ⊢
    exact List.take_of_length_le hk
  · simp only [NobodyInside, not_forall] at hnobody
    obtain ⟨i, c, happending, hphase⟩ := hnobody
    have hrecords := hA.ahead i c happending hphase
    obtain ⟨c', hrunning⟩ := h.owner i (happending ▸ trivial)
    obtain ⟨rfl, hd, hpending, -⟩ := (mutateOk_inside happending hphase).mp (h.mutation hrunning)
    rw [hrecords, List.length_append, List.length_singleton] at hkle
    rcases Nat.lt_or_ge A.length k with hlt | hge
    · -- its record has survived
      have htables : x.shared.tables = tablesOf A := by
        have hmut := h.shared.mutations i
        rw [happending] at hmut
        exact hmut.behind hphase hrecords
      rw [htables] at hd
      obtain ⟨e'', hrun, hholds, htables'⟩ := run_writes hA.holds hA.tables hd
      have htake : (x.shared.log.group.records rs₀).take k = A ++ [stamp c.record (nextPosition A)] := by
        rw [hrecords]
        exact List.take_of_length_le (by simp; omega)
      rw [htake] at hkeeps
      obtain ⟨t', ht'⟩ : ∃ t', t' = ({ t with state := e'' }.put i (.effective (.mutate c) (.outcome (.ok (outcomeAt
        (nextPosition A)))))) := ⟨_, rfl⟩
      have hsame : ∀ l ≠ i, t'.status l = t.status l := fun l hl => by rw [ht', Atomic.put_of_ne _ hl]
      have hstate : t'.state = e'' := by rw [ht']; rfl
      refine ⟨_, t', recovered_tracked hkeeps (by rw [hstate]; exact hholds) (by rw [hstate]; exact htables') ?_ ?_, ?_⟩
      · intro l hl
        have hne : l ≠ i := by
          rintro rfl
          rw [hrunning] at hl
          cases hl
        rw [hsame l hne]
        exact hfresh l hl
      · intro l hl
        by_cases hne : l = i
        · subst hne
          rw [ht', Atomic.put_self]
          simp
        · rw [hsame l hne]
          exact hbegun l hl
      · rw [ht']
        exact follows_commit hpending hrun
    · refine hnone ?_
      rw [hrecords, List.take_append_of_le_length hge, List.take_of_length_le hk]

end Crash

/-! ## Every step, and every run -/

/-- An atomic engine follows the callers, who make no calls but those that go by the maps. -/
def Mapped (x : Callers ι) (t : Atomic Engine ι EngineOp EngineAnswer) : Prop :=
  (∃ w₀ rs₀, Tracked w₀ (mapsRule ι rs₀) x t) ∧ ∀ i op, x.phase i = .running op → op.byMaps = true

theorem mapped_engine (h : Tracked w₀ (mapsRule ι rs₀) x t) {a : EngineAction ι ι} {op : EngineOp}
    (hrunning : x.phase a.caller = .running op) (hmaps : op.byMaps = true) (hadmits : op.admits x.readers a = true)
    (hstep : x.shared.step a = some s') :
    ∃ t', Tracked w₀ (mapsRule ι rs₀) { x with shared := s' } t' ∧ AtomicFollows Engine.Answers none t t' := by
  cases op with
  | mutate c =>
      cases a with
      | lock i c' =>
          obtain ⟨rfl, hempty⟩ := of_decide_eq_true hadmits
          exact ⟨t, tracked_lock h hrunning hempty hstep, follows_nothing⟩
      | check i =>
          rcases tracked_check h hrunning hstep with htracked | ⟨r, htracked, hpending, hanswers⟩
          · exact ⟨t, htracked, follows_nothing⟩
          · exact ⟨_, htracked, follows_commit hpending hanswers⟩
      | buffer i => exact ⟨t, mapped_buffer h hrunning hstep, follows_nothing⟩
      | syncBegin i =>
          exact ⟨t, mapped_within h hrunning hstep (shared_syncBegin h.shared hstep) (within_syncBegin h.shared hstep)
            (within_durable h.shared (Or.inl rfl) hstep), follows_nothing⟩
      | syncEnd i =>
          exact ⟨t, mapped_within h hrunning hstep (shared_syncEnd h.shared hstep) (within_syncEnd h.shared hstep)
            (within_durable h.shared (Or.inr (Or.inl rfl)) hstep), follows_nothing⟩
      | post i =>
          exact ⟨t, mapped_within h hrunning hstep (shared_post h.shared hstep) (within_post h.shared hstep)
            (within_durable h.shared (Or.inr (Or.inr rfl)) hstep), follows_nothing⟩
      | update i =>
          obtain ⟨r, e', htracked, hpending, hanswers⟩ := mapped_update h hrunning hstep
          exact ⟨_, htracked, follows_commit hpending hanswers⟩
      | release i => exact ⟨t, tracked_release h hrunning hstep, follows_nothing⟩
      | _ => cases hadmits
  | fetch fromPos limit => cases hmaps
  | _ =>
      cases a with
      | _ => cases hadmits

omit [DecidableEq ι] in
theorem byMaps_goto [DecidableEq ι] (h : ∀ i op, x.phase i = .running op → op.byMaps = true) {p : CallPhase} {readers : Finset ι}
    (hp : ∀ op, p = .running op → op.byMaps = true) :
    ∀ l op, ({ x with readers := readers }.goto i p).phase l = .running op → op.byMaps = true := by
  intro l op hl
  by_cases hli : l = i
  · subst hli
    rw [Callers.goto_self] at hl
    exact hp op hl
  · rw [Callers.goto_of_ne _ hli] at hl
    exact h l op hl

theorem mapped_step (h : Mapped x t) {a : PowerAction ι} (hallowed : a.Allowed) {x' : Callers ι}
    (hstep : x.stepPower a = some x') : ∃ t', Mapped x' t' ∧ AtomicFollows Engine.Answers a.seen t t' := by
  obtain ⟨⟨w₀, rs₀, h⟩, hmaps⟩ := h
  cases a with
  | crash f =>
      obtain ⟨hcrash, hsync, e, hopen, rfl⟩ := Callers.stepPower_crash hstep
      obtain ⟨rs, t', htracked, hfollows⟩ := mapped_crash h hcrash hsync hopen
      refine ⟨t', ⟨⟨_, rs, htracked⟩, fun i op hi => ?_⟩, hfollows⟩
      -- no call of the new process is on its way
      have hnone : (match x.phase i with | .fresh => CallPhase.fresh | _ => .returned) = .running op := hi
      revert hnone
      cases x.phase i with
      | _ => exact fun hnone => by cases hnone
  | call a =>
      cases a with
      | invoke i op =>
          obtain ⟨htracked, hfresh⟩ := tracked_invoke h (fun c hc => by subst hc; exact hallowed.2) hstep
          obtain ⟨-, rfl⟩ := Callers.step_invoke hstep
          refine ⟨_, ⟨⟨_, _, htracked⟩, byMaps_goto hmaps (fun op' hop' => ?_)⟩, Or.inr ⟨.invoke i op, .invoke op hfresh, rfl⟩⟩
          cases hop'
          exact hallowed.1
      | engine a =>
          obtain ⟨op, s', hrunning, hadmits, hs', rfl⟩ := Callers.step_engine hstep
          obtain ⟨t', htracked, hfollows⟩ := mapped_engine h hrunning (hmaps _ op hrunning) hadmits hs'
          exact ⟨t', ⟨⟨_, _, htracked⟩, hmaps⟩, hfollows⟩
      | rlock i =>
          have htracked := tracked_rlock h hstep
          obtain ⟨op, -, -, -, rfl⟩ := Callers.step_rlock hstep
          exact ⟨t, ⟨⟨_, _, htracked⟩, byMaps_goto hmaps (fun _ hop => by cases hop)⟩, follows_nothing⟩
      | look i order =>
          obtain ⟨op, r, htracked, hpending, hanswers⟩ := tracked_look h hstep
          obtain ⟨op', r', -, -, rfl⟩ := Callers.step_look hstep
          exact ⟨_, ⟨⟨_, _, htracked⟩, byMaps_goto hmaps (fun _ hop => by cases hop)⟩, follows_commit hpending hanswers⟩
      | runlock i =>
          have htracked := tracked_runlock h hstep
          obtain ⟨op, r, -, rfl⟩ := Callers.step_runlock hstep
          exact ⟨t, ⟨⟨_, _, htracked⟩, byMaps_goto hmaps (fun _ hop => by cases hop)⟩, follows_nothing⟩
      | position i => cases hmaps i _ (Callers.step_position hstep).1
      | respond i r =>
          obtain ⟨op, htracked, heffective⟩ := tracked_respond h hstep
          obtain ⟨-, rfl⟩ := Callers.step_respond hstep
          exact ⟨_, ⟨⟨_, _, htracked⟩, byMaps_goto hmaps (fun _ hop => by cases hop)⟩,
            Or.inr ⟨.respond i r, .respond heffective, rfl⟩⟩

end Durable

/-- **The engine is linearizable across power failures.** Let mutations, `Get`s and `Snapshot`s go on at once, and let the
machine lose its power any number of times, at any moments. The history of all calls is that of one engine that never failed:
no answer is taken back, and a call that was cut off has happened or it has not. After every such run the engine can be
opened on whatever a power failure leaves. -/
theorem engine_durably_linearizable {ι : Type} [DecidableEq ι] {e : Engine} {rs : List Record} (h : Represents e rs)
    (hs : Sound rs) {as : List (PowerAction ι)} (hallowed : ∀ a ∈ as, a.Allowed) {x : Callers ι}
    (hrun : runActions Callers.stepPower (Callers.start e) as = some x) :
    (∃ L e', Linearizes Engine.Answers e (as.filterMap PowerAction.seen) L e') ∧
      ∀ f, Crash x.shared.log.group.w.out.file f → f.synced = f.data.length → ∃ x', x.stepPower (.crash f) = some x' := by
  have hstart : Mapped (Callers.start e : Callers ι) (Atomic.start e) := by
    refine ⟨⟨e.log, rs, ?_⟩, fun i op hi => by cases hi⟩
    exact recovered_tracked (x := Callers.start e) (h.keeps hs) h.holds h.tables (fun _ _ => rfl) (fun i hi => absurd rfl hi)
  have hsim : ∀ (y : Callers ι) a y' t, Mapped y t → a.Allowed → y.stepPower a = some y' →
      ∃ t', Mapped y' t' ∧ AtomicFollows Engine.Answers a.seen t t' := fun _ _ _ _ hm ha hstep => mapped_step hm ha hstep
  obtain ⟨t, L, ⟨⟨w₀, rs₀, htracked⟩, -⟩, hlinearizes⟩ := linearizes_of_simulation hsim hstart hallowed hrun
  refine ⟨⟨L, t.state, hlinearizes⟩, fun f hcrash hsync => ?_⟩
  obtain ⟨A, hA⟩ := htracked.history
  obtain ⟨e', -, -, hopen, -⟩ := htracked.reopens hA hcrash
  refine ⟨x.recovered e', ?_⟩
  simp only [Callers.stepPower, if_pos (And.intro hcrash hsync), hopen]
  rfl

/-- The file with these records, all of it on the disk. -/
def onDisk (rs : List Record) : File := ⟨logBytes rs, (logBytes rs).length, false, le_rfl⟩

/-- Two puts of one key. The first is answered; the second has its record in the file when the power fails, and the record is
on the disk by then. A `Get` of the new process finds the value of the second. -/
def cutOff : List (PowerAction Nat) :=
  [.call (.invoke 0 (.mutate (.applyPut [0x6b] [0x61] 0 []))), .call (.engine (.lock 0 (.applyPut [0x6b] [0x61] 0 []))),
    .call (.engine (.check 0)), .call (.engine (.buffer 0)), .call (.engine (.syncBegin 0)), .call (.engine (.syncEnd 0)),
    .call (.engine (.post 0)), .call (.engine (.update 0)), .call (.engine (.release 0)),
    .call (.respond 0 (.outcome (.ok (outcomeAt 1)))), .call (.invoke 1 (.mutate (.applyPut [0x6b] [0x62] 0 []))),
    .call (.engine (.lock 1 (.applyPut [0x6b] [0x62] 0 []))), .call (.engine (.check 1)), .call (.engine (.buffer 1)),
    .crash (onDisk [stamp (putRecord [0x6b] [0x61] 0 []) 1, stamp (putRecord [0x6b] [0x62] 0 []) 2]),
    .call (.invoke 2 (.get [0x6b] 0)), .call (.rlock 2), .call (.look 2 []), .call (.runlock 2),
    .call (.respond 2 (.value (some ([0x62], 2))))]

theorem engine_durably_linearizable_cutOff : ∃ (x : Callers Nat) (L : List (Nat × EngineOp × EngineAnswer)) (e' : Engine),
    runActions Callers.stepPower (Callers.start fresh) cutOff = some x ∧
      Linearizes Engine.Answers fresh (cutOff.filterMap PowerAction.seen) L e' := by
  have hrun : (runActions Callers.stepPower (Callers.start fresh) cutOff).isSome = true := by decide +kernel
  obtain ⟨x, hx⟩ := Option.isSome_iff_exists.mp hrun
  obtain ⟨⟨L, e', hlinearizes⟩, -⟩ := engine_durably_linearizable represents_fresh ⟨by simp, by simp⟩ (by decide) hx
  exact ⟨x, L, e', hx, hlinearizes⟩

end Uddp

import Uddp.Engine.Lives
import Uddp.Wal.Single

/-!
# Mutations and readers at once

The engine's lock lets one mutation in at a time, from its look at the maps to its change of them. `Get` and `Snapshot`
take the lock for reading; `Fetch` and `LastCommitPosition` do not take it, and see the log while a mutation is inside
`Append`. The I/O of the log succeeds, and nobody calls `Reset`.

* `SharedEngine ι κ` : the log with its callers and readers, the maps, and who has the lock; `SharedEngine.step`;
* `SharedEngine.get` : what `Get` answers, if it gets the lock; `SharedEngine.fetched` : what a `Fetch` has answered;
* `Calm`, `Pending` : the maps are those of the log, or the log is one record ahead of them;
* `SharedInv` : what every interleaving keeps, with `shared_step` and **`run_shared`**; `run_grows` : no record is lost;
* `SharedInv.stream`, `.lastCommitPosition`, `.tables` : what `Fetch`, `LastCommitPosition` and `Get` go by;
* **`mutation_alone`** : `Call.run` is what the machine does for one mutation.
-/

namespace Uddp
open Uddp.Lib Uddp.Wal

/-! ## The machine -/

/-- Where a mutation is. -/
inductive MutationPhase
  | idle
  /-- It has the engine's lock. -/
  | locked (c : Call)
  /-- It has looked at the maps and is about to call `Append`, or inside it. -/
  | appending (c : Call)
  /-- The maps are as it leaves them. It still has the lock. -/
  | decided (r : Except EngineError Outcome)
  | returned (r : Except EngineError Outcome)

/-- It has the lock. -/
def MutationPhase.Locks : MutationPhase → Prop
  | .locked _ | .appending _ | .decided _ => True
  | .idle | .returned _ => False

structure SharedEngine (ι κ : Type) where
  log : Wal.Served ι κ
  tables : Tables
  holder : Option ι
  mutation : ι → MutationPhase

inductive EngineAction (ι κ : Type)
  | lock (i : ι) (c : Call)
  | check (i : ι)
  /-- The first critical section of `Append`: the record takes a position and goes to the file. -/
  | buffer (i : ι)
  | syncBegin (i : ι)
  | syncEnd (i : ι)
  | post (i : ι)
  | update (i : ι)
  | release (i : ι)
  | locate (j : κ) (fromPos : UInt64) (limit : Int)
  | stat (j : κ)
  | read (j : κ)

/-- A mutation that writes, from its first step to its last. -/
def EngineAction.writeThrough {ι κ : Type} (i : ι) (c : Call) : List (EngineAction ι κ) :=
  [.lock i c, .check i, .buffer i, .syncBegin i, .syncEnd i, .post i, .update i, .release i]

namespace SharedEngine
variable {ι κ : Type} [DecidableEq ι] [DecidableEq κ]

def start (e : Engine) : SharedEngine ι κ := ⟨.start e.log, e.toTables, none, fun _ => .idle⟩

/-- The engine as it is at the moment. -/
def engine (s : SharedEngine ι κ) : Engine := { s.tables with log := s.log.group.w }

def goto (s : SharedEngine ι κ) (i : ι) (p : MutationPhase) : SharedEngine ι κ :=
  { s with mutation := Function.update s.mutation i p }

/-- A step of the log. -/
def logStep (s : SharedEngine ι κ) (a : ServedAction ι κ) : Option (SharedEngine ι κ) :=
  (s.log.step a).map (fun log => { s with log := log })

def step (s : SharedEngine ι κ) : EngineAction ι κ → Option (SharedEngine ι κ)
  | .lock i c =>
      match s.mutation i, s.holder with
      | .idle, none => some ({ s with holder := some i }.goto i (.locked c))
      | _, _ => none
  | .check i =>
      match s.mutation i with
      | .locked c =>
          match s.tables.decide c with
          | .hit out => some (s.goto i (.decided (.ok out)))
          | .conflict => some (s.goto i (.decided (.error .versionMismatch)))
          | .write _ => some (s.goto i (.appending c))
      | _ => none
  | .buffer i =>
      match s.mutation i with
      | .appending c => s.logStep (.write (.enter i c.record (none, none) (none, none) none))
      | _ => none
  | .syncBegin i => s.logStep (.write (.syncBegin i))
  | .syncEnd i => s.logStep (.write (.syncEnd i none))
  | .post i => s.logStep (.write (.post i none))
  | .update i =>
      match s.mutation i, s.log.group.phase i with
      -- the change of the maps is that of `replay`, see `commit_put` and `commit_delete`
      | .appending c, .returned (.ok position) =>
          some ({ s with tables := replay s.tables (stamp c.record position) }.goto i (.decided (.ok (outcomeAt position))))
      | .appending _, .returned (.error err) => some (s.goto i (.decided (.error (.wal err))))
      | _, _ => none
  | .release i =>
      match s.mutation i with
      | .decided r => some ({ s with holder := none }.goto i (.returned r))
      | _ => none
  | .locate j fromPos limit => s.logStep (.locate j fromPos limit)
  | .stat j => s.logStep (.stat j)
  | .read j => s.logStep (.read j 0)

/-- What `Get` answers, unless a mutation has the lock. -/
def get (s : SharedEngine ι κ) (key : Bytes) (now : Time) : Option (Option (Bytes × UInt64)) :=
  match s.holder with
  | none => some (s.tables.get key now)
  | some _ => none

/-- What a `Fetch` has answered, if it has. -/
def fetched (s : SharedEngine ι κ) (j : κ) : Option (Except RangeError (List ChangeRecord)) :=
  match s.log.reader j with
  | .returned _ _ (some err) => some (.error err)
  | .returned _ recs none => some (.ok (recs.map changeOf))
  | _ => none

/-! ### When a step is enabled, and what it then does -/

section Enabled
variable {s s' : SharedEngine ι κ} {i : ι}

theorem logStep_some {a : ServedAction ι κ} (h : s.logStep a = some s') :
    ∃ log, s.log.step a = some log ∧ s' = { s with log := log } := by
  obtain ⟨log, hlog, rfl⟩ := Option.map_eq_some_iff.mp h
  exact ⟨log, hlog, rfl⟩

theorem step_lock {c : Call} (h : s.step (.lock i c) = some s') :
    s.mutation i = .idle ∧ s.holder = none ∧ s' = { s with holder := some i }.goto i (.locked c) := by
  simp only [step] at h
  split at h
  · next hidle hfree => exact ⟨hidle, hfree, (Option.some.inj h).symm⟩
  · exact absurd h (by simp)

theorem step_check (h : s.step (.check i) = some s') : ∃ c, s.mutation i = .locked c ∧
    (s' = s.goto i (.appending c) ∨ ∃ r, s' = s.goto i (.decided r)) := by
  simp only [step] at h
  split at h
  · next c hlocked =>
    refine ⟨c, hlocked, ?_⟩
    split at h
    · exact Or.inr ⟨_, (Option.some.inj h).symm⟩
    · exact Or.inr ⟨_, (Option.some.inj h).symm⟩
    · exact Or.inl (Option.some.inj h).symm
  · exact absurd h (by simp)

theorem step_buffer (h : s.step (.buffer i) = some s') : ∃ c log, s.mutation i = .appending c ∧
    s.log.step (.write (.enter i c.record (none, none) (none, none) none)) = some log ∧ s' = { s with log := log } := by
  simp only [step] at h
  split at h
  · next c happending =>
    obtain ⟨log, hlog, hs'⟩ := logStep_some h
    exact ⟨c, log, happending, hlog, hs'⟩
  · exact absurd h (by simp)

theorem step_update (h : s.step (.update i) = some s') : ∃ c, s.mutation i = .appending c ∧
    ((∃ position, s.log.group.phase i = .returned (.ok position) ∧
        s' = { s with tables := replay s.tables (stamp c.record position) }.goto i (.decided (.ok (outcomeAt position)))) ∨
      ∃ err, s.log.group.phase i = .returned (.error err) ∧ s' = s.goto i (.decided (.error (.wal err)))) := by
  simp only [step] at h
  split at h
  · next c position happending hphase => exact ⟨c, happending, Or.inl ⟨position, hphase, (Option.some.inj h).symm⟩⟩
  · next c err happending hphase => exact ⟨c, happending, Or.inr ⟨err, hphase, (Option.some.inj h).symm⟩⟩
  · exact absurd h (by simp)

theorem step_release (h : s.step (.release i) = some s') :
    ∃ r, s.mutation i = .decided r ∧ s' = { s with holder := none }.goto i (.returned r) := by
  simp only [step] at h
  split at h
  · next r hdecided => exact ⟨r, hdecided, (Option.some.inj h).symm⟩
  · exact absurd h (by simp)

theorem logStep_write {a : Wal.Action ι} {g : Wal.Group ι} (h : s.log.group.step a = some g) :
    s.logStep (.write a) = some { s with log := { s.log with group := g } } := by
  simp only [logStep, Wal.Served.step, h, Option.map_some]

theorem step_log {a : EngineAction ι κ} (h : s.step a = some s') : s'.log = s.log ∨ ∃ b, s.log.step b = some s'.log := by
  have hlog : ∀ b, s.logStep b = some s' → ∃ b, s.log.step b = some s'.log := by
    intro b hb
    obtain ⟨log, hlog, rfl⟩ := logStep_some hb
    exact ⟨b, hlog⟩
  cases a with
  | lock i c =>
      obtain ⟨-, -, rfl⟩ := step_lock h
      exact Or.inl rfl
  | check i =>
      obtain ⟨c, -, rfl | ⟨r, rfl⟩⟩ := step_check h
      · exact Or.inl rfl
      · exact Or.inl rfl
  | buffer i =>
      obtain ⟨c, log, -, hb, rfl⟩ := step_buffer h
      exact Or.inr ⟨_, hb⟩
  | update i =>
      obtain ⟨c, -, ⟨position, -, rfl⟩ | ⟨err, -, rfl⟩⟩ := step_update h
      · exact Or.inl rfl
      · exact Or.inl rfl
  | release i =>
      obtain ⟨r, -, rfl⟩ := step_release h
      exact Or.inl rfl
  | syncBegin i => exact Or.inr (hlog _ h)
  | syncEnd i => exact Or.inr (hlog _ h)
  | post i => exact Or.inr (hlog _ h)
  | locate j fromPos limit => exact Or.inr (hlog _ h)
  | stat j => exact Or.inr (hlog _ h)
  | read j => exact Or.inr (hlog _ h)

omit [DecidableEq ι] [DecidableEq κ] in
theorem get_some {key : Bytes} {now : Time} {answer : Option (Bytes × UInt64)} (h : s.get key now = some answer) :
    s.holder = none ∧ s.tables.get key now = answer := by
  unfold get at h
  split at h
  · next hfree => exact ⟨hfree, Option.some.inj h⟩
  · cases h

omit [DecidableEq ι] [DecidableEq κ] in
theorem fetched_some {j : κ} {result : Except RangeError (List ChangeRecord)} (h : s.fetched j = some result) :
    ∃ fromPos recs err, s.log.reader j = .returned fromPos recs err ∧
      result = err.elim (.ok (recs.map changeOf)) Except.error := by
  unfold fetched at h
  split at h
  · next fromPos recs err hj => exact ⟨fromPos, recs, some err, hj, (Option.some.inj h).symm⟩
  · next fromPos recs hj => exact ⟨fromPos, recs, none, hj, (Option.some.inj h).symm⟩
  · cases h

omit [DecidableEq ι] [DecidableEq κ] in
theorem fetched_returned {j : κ} {fromPos : UInt64} {recs : List Record} {err : Option RangeError}
    (h : s.log.reader j = .returned fromPos recs err) : s.fetched j = some (err.elim (.ok (recs.map changeOf)) Except.error) := by
  unfold fetched
  rw [h]
  cases err with
  | none => rfl
  | some err => rfl

end Enabled

omit [DecidableEq κ] in
theorem goto_self (s : SharedEngine ι κ) (i : ι) (p : MutationPhase) : (s.goto i p).mutation i = p := by
  show Function.update s.mutation i p i = p
  rw [Function.update_self]

omit [DecidableEq κ] in
theorem goto_of_ne (s : SharedEngine ι κ) {i l : ι} (h : l ≠ i) (p : MutationPhase) :
    (s.goto i p).mutation l = s.mutation l := Function.update_of_ne h _ _

end SharedEngine

/-! ## What every interleaving keeps -/

section Invariant
variable {ι κ : Type} (w₀ : WAL) (rs₀ : List Record)

/-- The maps are those of the log, and nobody is inside `Append`. -/
structure Calm (g : Wal.Group ι) (t : Tables) : Prop where
  quiet : g.w.leading = false
  tables : t = tablesOf (g.records rs₀)

/-- The log is one record ahead of the maps, that of `c` at `position`. -/
def Pending (g : Wal.Group ι) (t : Tables) (c : Call) (position : UInt64) : Prop :=
  ∃ rs, g.records rs₀ = rs ++ [stamp c.record position] ∧ t = tablesOf rs

/-- Where a mutation is in the engine, and where in `Append`. -/
def MutationOk (g : Wal.Group ι) (t : Tables) : MutationPhase → Phase → Prop
  | .idle, .idle => True
  | .locked c, .idle => c.Fits ∧ Calm rs₀ g t
  | .appending c, .idle => c.Fits ∧ Calm rs₀ g t
  | .appending c, .flushed position _ flushSeq => Pending rs₀ g t c position ∧ g.w.pendingSeq = flushSeq
  | .appending c, .syncing position _ flushSeq _ => Pending rs₀ g t c position ∧ g.w.pendingSeq = flushSeq
  | .appending c, .synced position _ flushSeq syncErr =>
      Pending rs₀ g t c position ∧ g.w.pendingSeq = flushSeq ∧ syncErr = none
  | .appending c, .returned (.ok position) => Pending rs₀ g t c position ∧ g.w.leading = false
  | .decided _, p => ¬p.Leads ∧ Calm rs₀ g t
  | .returned _, p => ¬p.Leads
  | _, _ => False

structure SharedInv (s : SharedEngine ι κ) : Prop where
  served : ServedInv w₀ rs₀ s.log
  kind : ∀ r ∈ s.log.group.records rs₀, r.kind = KindPut ∨ r.kind = KindDelete
  flushed : Flushed s.log.group.w
  holder : ∀ i, (s.mutation i).Locks → s.holder = some i
  mutations : ∀ i, MutationOk rs₀ s.log.group s.tables (s.mutation i) (s.log.group.phase i)
  free : s.holder = none → Calm rs₀ s.log.group s.tables

variable {w₀ rs₀} {s s' : SharedEngine ι κ} {g g' : Wal.Group ι} {t t' : Tables}

theorem MutationOk.other {p : MutationPhase} {q : Phase} (h : MutationOk rs₀ g t p q) (hp : ¬p.Locks) :
    MutationOk rs₀ g' t' p q := by
  cases p with
  | idle =>
      cases q with
      | idle => trivial
      | _ => exact h
  | returned r => exact h
  | _ => exact absurd trivial hp

theorem MutationOk.idle {q : Phase} (h : MutationOk rs₀ g t .idle q) : q = .idle := by
  cases q with
  | idle => rfl
  | _ => exact h.elim

theorem MutationOk.locked {c : Call} {q : Phase} (h : MutationOk rs₀ g t (.locked c) q) :
    q = .idle ∧ c.Fits ∧ Calm rs₀ g t := by
  cases q with
  | idle => exact ⟨rfl, h⟩
  | _ => exact h.elim

/-- Only a mutation inside `Append` leads. -/
theorem MutationOk.leads {p : MutationPhase} {q : Phase} (h : MutationOk rs₀ g t p q) (hq : q.Leads) :
    ∃ c, p = .appending c := by
  cases p with
  | appending c => exact ⟨c, rfl⟩
  | idle =>
      rw [h.idle] at hq
      exact hq.elim
  | locked c =>
      rw [h.locked.1] at hq
      exact hq.elim
  | decided r => exact absurd hq h.1
  | returned r => exact absurd hq h

theorem SharedInv.move (h : SharedInv w₀ rs₀ s) (i : ι) (hserved : ServedInv w₀ rs₀ s'.log)
    (hkind : ∀ r ∈ s'.log.group.records rs₀, r.kind = KindPut ∨ r.kind = KindDelete) (hflushed : Flushed s'.log.group.w)
    (halone : ∀ l ≠ i, ¬(s.mutation l).Locks)
    (hmutation : ∀ l ≠ i, s'.mutation l = s.mutation l) (hphase : ∀ l ≠ i, s'.log.group.phase l = s.log.group.phase l)
    (hholder : (s'.mutation i).Locks → s'.holder = some i) (hfree : s'.holder = none → Calm rs₀ s'.log.group s'.tables)
    (hok : MutationOk rs₀ s'.log.group s'.tables (s'.mutation i) (s'.log.group.phase i)) : SharedInv w₀ rs₀ s' := by
  refine ⟨hserved, hkind, hflushed, fun l hl => ?_, fun l => ?_, hfree⟩
  · by_cases hli : l = i
    · subst hli
      exact hholder hl
    · rw [hmutation l hli] at hl
      exact absurd hl (halone l hli)
  · by_cases hli : l = i
    · subst hli
      exact hok
    · rw [hmutation l hli, hphase l hli]
      exact (h.mutations l).other (halone l hli)

theorem SharedInv.alone (h : SharedInv w₀ rs₀ s) {i : ι} (hi : s.holder = some i) : ∀ l ≠ i, ¬(s.mutation l).Locks := by
  intro l hl hlocks
  exact hl (Option.some.inj ((h.holder l hlocks).symm.trans hi))

theorem SharedInv.goto [DecidableEq ι] (h : SharedInv w₀ rs₀ s) {i : ι} (hi : s.holder = some i) (t : Tables)
    {p : MutationPhase} (hok : MutationOk rs₀ s.log.group t p (s.log.group.phase i)) :
    SharedInv w₀ rs₀ ({ s with tables := t }.goto i p) := by
  refine h.move i h.served h.kind h.flushed (h.alone hi) (fun l hl => SharedEngine.goto_of_ne _ hl p) (fun _ _ => rfl)
    (fun _ => hi) (fun hnone => ?_) ?_
  · exact absurd (hi.symm.trans hnone) (by simp)
  · rw [SharedEngine.goto_self]
    exact hok

theorem SharedInv.append [DecidableEq ι] [DecidableEq κ] (h : SharedInv w₀ rs₀ s) {i : ι} {c : Call}
    (hi : s.mutation i = .appending c) {a : Wal.Action ι} (ha : a.caller = some i) {log : Wal.Served ι κ}
    (hstep : s.log.step (.write a) = some log) (hfit : (ServedAction.write a : ServedAction ι κ).Fits)
    (hkind : ∀ r ∈ log.group.records rs₀, r.kind = KindPut ∨ r.kind = KindDelete) (hflushed : Flushed log.group.w)
    (hok : MutationOk rs₀ log.group s.tables (.appending c) (log.group.phase i)) :
    SharedInv w₀ rs₀ { s with log := log } := by
  have hholder : s.holder = some i := h.holder i (hi ▸ trivial)
  obtain ⟨g, hg, rfl⟩ := Served.step_write hstep
  refine h.move i (served_step h.served hfit hstep) hkind hflushed (h.alone hholder) (fun _ _ => rfl) (fun l hl => ?_)
    (fun _ => hholder) (fun hnone => ?_) ?_
  · exact step_phase_of_ne hg (fun hl' => hl (Option.some.inj (ha.symm.trans hl')).symm)
  · exact absurd (hholder.symm.trans hnone) (by simp)
  · rw [show ({ s with log := { s.log with group := g } } : SharedEngine ι κ).mutation i = .appending c from hi]
    exact hok

theorem SharedInv.within [DecidableEq ι] [DecidableEq κ] (h : SharedInv w₀ rs₀ s) {i : ι} {c : Call}
    (hi : s.mutation i = .appending c) {a : Wal.Action ι} (ha : a.caller = some i) {log : Wal.Served ι κ}
    (hstep : s.log.step (.write a) = some log) (hfit : (ServedAction.write a : ServedAction ι κ).Fits)
    (hrecords : log.group.records rs₀ = s.log.group.records rs₀) (hflushed : Flushed log.group.w)
    (hok : MutationOk rs₀ log.group s.tables (.appending c) (log.group.phase i)) :
    SharedInv w₀ rs₀ { s with log := log } := h.append hi ha hstep hfit (hrecords ▸ h.kind) hflushed hok

theorem SharedInv.inside (h : SharedInv w₀ rs₀ s) {i : ι} {q : Phase} (hphase : s.log.group.phase i = q) (hq : q.Leads) :
    ∃ c, s.mutation i = .appending c ∧ MutationOk rs₀ s.log.group s.tables (.appending c) q := by
  have hok := h.mutations i
  rw [hphase] at hok
  obtain ⟨c, happending⟩ := hok.leads hq
  rw [happending] at hok
  exact ⟨c, happending, hok⟩

theorem SharedInv.reads [DecidableEq ι] [DecidableEq κ] (h : SharedInv w₀ rs₀ s) {a : ServedAction ι κ} {log : Wal.Served ι κ}
    (hstep : s.log.step a = some log) (hfit : a.Fits) (hgroup : log.group = s.log.group) :
    SharedInv w₀ rs₀ { s with log := log } := by
  refine ⟨served_step h.served hfit hstep, ?_, ?_, h.holder, ?_, ?_⟩
  · show ∀ r ∈ log.group.records rs₀, _
    rw [hgroup]
    exact h.kind
  · show Flushed log.group.w
    rw [hgroup]
    exact h.flushed
  · show ∀ i, MutationOk rs₀ log.group s.tables (s.mutation i) (log.group.phase i)
    rw [hgroup]
    exact h.mutations
  · show s.holder = none → Calm rs₀ log.group s.tables
    rw [hgroup]
    exact h.free

end Invariant

/-! ## One step -/

section Step
variable {ι κ : Type} [DecidableEq ι] [DecidableEq κ] {w₀ : WAL} {rs₀ : List Record} {s s' : SharedEngine ι κ} {i : ι}

/-- The record that an action brings fits its length field. -/
def EngineAction.Fits : EngineAction ι κ → Prop
  | .lock _ c => c.Fits
  | _ => True

theorem shared_lock (h : SharedInv w₀ rs₀ s) {c : Call} (hc : c.Fits) (hstep : s.step (.lock i c) = some s') :
    SharedInv w₀ rs₀ s' := by
  obtain ⟨hidle, hfree, rfl⟩ := SharedEngine.step_lock hstep
  have hphase : s.log.group.phase i = .idle := by
    have hok := h.mutations i
    rw [hidle] at hok
    exact hok.idle
  refine h.move i h.served h.kind h.flushed (fun l _ hl => ?_) (fun l hl => SharedEngine.goto_of_ne _ hl _) (fun _ _ => rfl)
    (fun _ => rfl) (fun hnone => ?_) ?_
  · exact absurd (hfree.symm.trans (h.holder l hl)) (by simp)
  · exact absurd hnone (by simp [SharedEngine.goto])
  · rw [SharedEngine.goto_self]
    show MutationOk rs₀ s.log.group s.tables (.locked c) (s.log.group.phase i)
    rw [hphase]
    exact ⟨hc, h.free hfree⟩

theorem shared_check (h : SharedInv w₀ rs₀ s) (hstep : s.step (.check i) = some s') : SharedInv w₀ rs₀ s' := by
  obtain ⟨c, hlocked, hs'⟩ := SharedEngine.step_check hstep
  have hholder := h.holder i (hlocked ▸ trivial)
  have hok := h.mutations i
  rw [hlocked] at hok
  obtain ⟨hphase, hc, hcalm⟩ := hok.locked
  rcases hs' with rfl | ⟨r, rfl⟩
  · refine h.goto hholder s.tables ?_
    rw [hphase]
    exact ⟨hc, hcalm⟩
  · refine h.goto hholder s.tables ⟨?_, hcalm⟩
    rw [hphase]
    exact id

/-- The record is in the file, and the maps do not know it yet. -/
theorem shared_buffer (h : SharedInv w₀ rs₀ s) (hstep : s.step (.buffer i) = some s') : SharedInv w₀ rs₀ s' := by
  obtain ⟨c, log, happending, hlog, rfl⟩ := SharedEngine.step_buffer hstep
  obtain ⟨g, hg, hlog'⟩ := Served.step_write hlog
  obtain ⟨hphase, rfl⟩ := Group.step_enter hg
  have hok := h.mutations i
  rw [happending, hphase] at hok
  obtain ⟨hc, hcalm⟩ := hok
  obtain ⟨taken, flushed, hround⟩ := exists_singleRound h.flushed c.record
  rw [enter_single hround hcalm.quiet] at hlog'
  have hrecords : log.group.records rs₀ = s.log.group.records rs₀ ++ [stamp c.record s.log.group.w.next] := by
    rw [hlog']
    exact records_snoc s.log.group s.log.group.w i _
  refine h.append happending rfl hlog hc ?_ ?_ ?_
  · rw [hrecords]
    exact (Sound.snoc ⟨h.served.fits, h.kind⟩ hc _).kind
  · rw [hlog']
    exact ⟨hround.err, hround.buf, hround.opened⟩
  · have hphase' : log.group.phase i =
        .flushed s.log.group.w.next (s.log.group.w.pendingSeq + 1) (s.log.group.w.pendingSeq + 1) := by
      rw [hlog']
      exact Wal.goto_self _ _ _
    rw [hphase']
    refine ⟨⟨_, hrecords, hcalm.tables⟩, ?_⟩
    rw [hlog']
    rfl

theorem shared_syncBegin (h : SharedInv w₀ rs₀ s) (hstep : s.step (.syncBegin i) = some s') : SharedInv w₀ rs₀ s' := by
  obtain ⟨log, hlog, rfl⟩ := SharedEngine.logStep_some hstep
  obtain ⟨g, hg, hlog'⟩ := Served.step_write hlog
  obtain ⟨position, mySeq, flushSeq, hphase, rfl⟩ := Group.step_syncBegin hg
  obtain ⟨c, happending, hok⟩ := h.inside hphase trivial
  refine h.within happending rfl hlog trivial (by rw [hlog']; rfl) ?_ ?_
  · rw [hlog']
    exact h.flushed
  · rw [hlog']
    show MutationOk rs₀ _ _ _ ((s.log.group.goto i _).phase i)
    rw [Wal.goto_self]
    exact hok

theorem shared_syncEnd (h : SharedInv w₀ rs₀ s) (hstep : s.step (.syncEnd i) = some s') : SharedInv w₀ rs₀ s' := by
  obtain ⟨log, hlog, rfl⟩ := SharedEngine.logStep_some hstep
  obtain ⟨g, hg, hlog'⟩ := Served.step_write hlog
  obtain ⟨position, mySeq, flushSeq, begun, hphase, rfl⟩ := Group.step_syncEnd hg
  rw [syncEnd_single h.flushed] at hlog'
  obtain ⟨c, happending, hpending, hseq⟩ := h.inside hphase trivial
  refine h.within happending rfl hlog trivial (by rw [hlog']; rfl) ?_ ?_
  · rw [hlog']
    exact ⟨h.flushed.err, h.flushed.buf, h.flushed.opened⟩
  · have hphase' : log.group.phase i = .synced position mySeq flushSeq none := by
      rw [hlog']
      exact Wal.goto_self _ _ _
    rw [hphase', hlog']
    exact ⟨hpending, hseq, rfl⟩

theorem shared_post (h : SharedInv w₀ rs₀ s) (hstep : s.step (.post i) = some s') : SharedInv w₀ rs₀ s' := by
  obtain ⟨log, hlog, rfl⟩ := SharedEngine.logStep_some hstep
  obtain ⟨g, hg, hlog'⟩ := Served.step_write hlog
  obtain ⟨position, mySeq, flushSeq, syncErr, hphase, rfl⟩ := Group.step_post hg
  obtain ⟨c, happending, hpending, hseq, rfl⟩ := h.inside hphase trivial
  rw [post_single hseq] at hlog'
  refine h.within happending rfl hlog trivial (by rw [hlog']; rfl) ?_ ?_
  · rw [hlog']
    exact ⟨h.flushed.err, h.flushed.buf, h.flushed.opened⟩
  · have hphase' : log.group.phase i = .returned (.ok position) := by
      rw [hlog']
      exact Wal.goto_self _ _ _
    rw [hphase', hlog']
    exact ⟨hpending, rfl⟩

theorem shared_update (h : SharedInv w₀ rs₀ s) (hstep : s.step (.update i) = some s') : SharedInv w₀ rs₀ s' := by
  obtain ⟨c, happending, hcases⟩ := SharedEngine.step_update hstep
  have hholder := h.holder i (happending ▸ trivial)
  have hok := h.mutations i
  rw [happending] at hok
  rcases hcases with ⟨position, hphase, rfl⟩ | ⟨err, hphase, -⟩
  · rw [hphase] at hok
    obtain ⟨⟨rs, hrecords, htables⟩, hquiet⟩ := hok
    refine h.goto hholder _ ⟨?_, hquiet, ?_⟩
    · rw [hphase]
      exact id
    · rw [hrecords, htables, tablesOf_snoc]
  · rw [hphase] at hok
    exact hok.elim

theorem shared_release (h : SharedInv w₀ rs₀ s) (hstep : s.step (.release i) = some s') : SharedInv w₀ rs₀ s' := by
  obtain ⟨r, hdecided, rfl⟩ := SharedEngine.step_release hstep
  have hholder := h.holder i (hdecided ▸ trivial)
  have hok := h.mutations i
  rw [hdecided] at hok
  refine h.move i h.served h.kind h.flushed (h.alone hholder) (fun l hl => SharedEngine.goto_of_ne _ hl _) (fun _ _ => rfl)
    (fun hlocks => ?_) (fun _ => hok.2) ?_
  · rw [SharedEngine.goto_self] at hlocks
    exact hlocks.elim
  · rw [SharedEngine.goto_self]
    exact hok.1

theorem shared_step (h : SharedInv w₀ rs₀ s) {a : EngineAction ι κ} (hfit : a.Fits) (hstep : s.step a = some s') :
    SharedInv w₀ rs₀ s' := by
  cases a with
  | lock i c => exact shared_lock h hfit hstep
  | check i => exact shared_check h hstep
  | buffer i => exact shared_buffer h hstep
  | syncBegin i => exact shared_syncBegin h hstep
  | syncEnd i => exact shared_syncEnd h hstep
  | post i => exact shared_post h hstep
  | update i => exact shared_update h hstep
  | release i => exact shared_release h hstep
  | locate j fromPos limit =>
      obtain ⟨log, hlog, rfl⟩ := SharedEngine.logStep_some hstep
      exact h.reads hlog trivial (by rw [(Served.step_locate hlog).2]; rfl)
  | stat j =>
      obtain ⟨log, hlog, rfl⟩ := SharedEngine.logStep_some hstep
      obtain ⟨_, _, _, -, ⟨-, hlog'⟩ | ⟨-, hlog'⟩⟩ := Served.step_stat hlog
      · exact h.reads hlog trivial (by rw [hlog']; rfl)
      · exact h.reads hlog trivial (by rw [hlog']; rfl)
  | read j =>
      obtain ⟨log, hlog, rfl⟩ := SharedEngine.logStep_some hstep
      obtain ⟨_, _, _, _, -, hlog'⟩ := Served.step_read hlog
      exact h.reads hlog trivial (by rw [hlog']; rfl)

end Step

/-! ## Whole runs -/

section Runs
variable {ι κ : Type} [DecidableEq ι] [DecidableEq κ] {e : Engine} {w₀ : WAL} {rs₀ : List Record} {s s' : SharedEngine ι κ}
  {as : List (EngineAction ι κ)}

omit [DecidableEq ι] [DecidableEq κ] in
theorem shared_start {n : Nat} (h : Keeps e rs₀ n) : SharedInv e.log rs₀ (SharedEngine.start e : SharedEngine ι κ) := by
  have hrecords : (SharedEngine.start e : SharedEngine ι κ).log.group.records rs₀ = rs₀ := List.append_nil rs₀
  have hcalm : Calm rs₀ (SharedEngine.start e : SharedEngine ι κ).log.group e.toTables := by
    refine ⟨h.holds.quiet, ?_⟩
    rw [hrecords]
    exact h.tables
  refine ⟨served_start h.holds h.sound.fits, ?_, h.holds.flushed, fun i hi => hi.elim, fun i => trivial, fun _ => hcalm⟩
  rw [hrecords]
  exact h.sound.kind

theorem run_shared (h : SharedInv w₀ rs₀ s) (hfits : ∀ a ∈ as, a.Fits)
    (hrun : runActions SharedEngine.step s as = some s') : SharedInv w₀ rs₀ s' :=
  runActions_along (P := fun _ a => a.Fits) (fun _ _ _ hi hf hstep => shared_step hi hf hstep) h (along_of_mem hfits _) hrun

theorem step_grows (h : SharedInv w₀ rs₀ s) {a : EngineAction ι κ} (hstep : s.step a = some s') :
    s.log.group.records rs₀ <+: s'.log.group.records rs₀ := by
  rcases SharedEngine.step_log hstep with hsame | ⟨b, hb⟩
  · rw [hsame]
  · exact (served_grows h.served hb).1

theorem run_grows (h : SharedInv w₀ rs₀ s) (hfits : ∀ a ∈ as, a.Fits)
    (hrun : runActions SharedEngine.step s as = some s') : s.log.group.records rs₀ <+: s'.log.group.records rs₀ := by
  have hboth := runActions_along (P := fun _ a => a.Fits)
    (I := fun x => SharedInv w₀ rs₀ x ∧ s.log.group.records rs₀ <+: x.log.group.records rs₀)
    (fun x a x' hx hfit hstep => ⟨shared_step hx.1 hfit hstep, hx.2.trans (step_grows hx.1 hstep)⟩) ⟨h, List.prefix_refl _⟩
    (along_of_mem hfits _) hrun
  exact hboth.2

end Runs

/-! ## What the log holds -/

section Facts
variable {ι κ : Type} {w₀ : WAL} {rs₀ : List Record} {s : SharedEngine ι κ} (h : SharedInv w₀ rs₀ s)
include h

theorem SharedInv.data : s.log.group.w.out.file.data = logBytes (s.log.group.records rs₀) := by
  have hstream := h.served.group.log.stream h.flushed.err
  rwa [h.flushed.buf, List.append_nil] at hstream

theorem SharedInv.byteOffsets : s.log.group.w.byteOffsets = offsetsFrom headerSize (s.log.group.records rs₀) := by
  have hlen := (h.served.indexed.next h.flushed.err).1
  refine List.ext_getElem? fun i => ?_
  by_cases hi : i < s.log.group.w.byteOffsets.length
  · rw [h.served.indexed.start i hi, offsetsFrom_getElem? _ headerSize i (by omega), logBytes, List.length_append,
      length_header]
  · rw [List.getElem?_eq_none (by omega), List.getElem?_eq_none (by rw [length_offsetsFrom]; omega)]

theorem SharedInv.stream : s.engine.stream = s.log.group.records rs₀ :=
  stream_whole h.data h.flushed.opened h.byteOffsets h.served.fits

theorem SharedInv.lastCommitPosition :
    s.engine.log.lastCommitPosition = UInt64.ofNat (s.log.group.records rs₀).length := by
  show s.log.group.w.next - 1 = _
  rw [h.served.group.log.next, UInt64.add_comm, UInt64.add_sub_cancel]

theorem SharedInv.tables (hfree : s.holder = none) : s.tables = tablesOf (s.log.group.records rs₀) := (h.free hfree).tables

end Facts

/-! ## One mutation -/

section Mutation
variable {ι κ : Type} [DecidableEq ι] [DecidableEq κ] {s : SharedEngine ι κ} {i : ι} {c : Call}

theorem release_decided {r : Except EngineError Outcome} (h : s.mutation i = .decided r) :
    ∃ s', s.step (.release i) = some s' ∧ s'.mutation i = .returned r ∧ s'.engine = s.engine := by
  refine ⟨{ s with holder := none }.goto i (.returned r), ?_, SharedEngine.goto_self _ _ _, rfl⟩
  simp only [SharedEngine.step, h]

theorem write_alone (h : s.mutation i = .appending c) (hflushed : Flushed s.log.group.w)
    (hquiet : s.log.group.w.leading = false) (hidle : s.log.group.phase i = .idle) : ∃ s',
      runActions SharedEngine.step s [.buffer i, .syncBegin i, .syncEnd i, .post i, .update i] = some s' ∧
      s'.mutation i = .decided (s.engine.write c.record AppendIO.ok).1 ∧
      s'.engine = (s.engine.write c.record AppendIO.ok).2 := by
  obtain ⟨taken, flushed, hround⟩ := exists_singleRound hflushed c.record
  obtain ⟨g₁, g₂, g₃, g₄, henter, hbegin, hend, hpost, hphase, hw⟩ := round_single hround hquiet hidle
  have happend : s.log.group.w.append c.record AppendIO.ok = (.ok s.log.group.w.next, g₄.w) := by
    rw [hw, append_single hround]
  have hwrite : s.engine.write c.record AppendIO.ok = (.ok (outcomeAt s.log.group.w.next),
      { replay s.tables (stamp c.record s.log.group.w.next) with log := g₄.w }) := by
    unfold Engine.write
    rw [show s.engine.log.append c.record AppendIO.ok = _ from happend]
    rfl
  obtain ⟨x, hx⟩ : ∃ x : Wal.Group ι → SharedEngine ι κ, x = fun g => { s with log := { s.log with group := g } } := ⟨_, rfl⟩
  have hx₁ : s.step (.buffer i) = some (x g₁) := by
    simp only [SharedEngine.step, h, SharedEngine.logStep_write henter, hx]
  have hx₂ : (x g₁).step (.syncBegin i) = some (x g₂) := by rw [hx]; exact SharedEngine.logStep_write hbegin
  have hx₃ : (x g₂).step (.syncEnd i) = some (x g₃) := by rw [hx]; exact SharedEngine.logStep_write hend
  have hx₄ : (x g₃).step (.post i) = some (x g₄) := by rw [hx]; exact SharedEngine.logStep_write hpost
  obtain ⟨s', hs'⟩ : ∃ s', s' = ({ x g₄ with
    tables := replay s.tables (stamp c.record s.log.group.w.next) } : SharedEngine ι κ).goto i
      (.decided (.ok (outcomeAt s.log.group.w.next))) := ⟨_, rfl⟩
  have hx₅ : (x g₄).step (.update i) = some s' := by
    rw [hs', hx]
    simp only [SharedEngine.step, h, hphase]
  refine ⟨s', ?_, ?_, ?_⟩
  · rw [runActions_cons _ hx₁, runActions_cons _ hx₂, runActions_cons _ hx₃, runActions_cons _ hx₄, runActions_cons _ hx₅]
    rfl
  · rw [hs', SharedEngine.goto_self, hwrite]
  · rw [hs', hx, hwrite]
    rfl

/-- **`Call.run`** is what the machine does for a mutation while nobody else moves. -/
theorem mutation_alone {e : Engine} {rs : List Record} {n : Nat} (h : Keeps e rs n) (i : ι) (c : Call) :
    ∃ (as : List (EngineAction ι κ)) (s : SharedEngine ι κ), runActions SharedEngine.step (.start e) as = some s ∧
      s.mutation i = .returned (c.run e AppendIO.ok).1 ∧ s.engine = (c.run e AppendIO.ok).2 := by
  obtain ⟨s₁, hs₁⟩ : ∃ s₁ : SharedEngine ι κ, s₁ = { SharedEngine.start e with holder := some i }.goto i (.locked c) := ⟨_, rfl⟩
  have hlock : (SharedEngine.start e : SharedEngine ι κ).step (.lock i c) = some s₁ := by rw [hs₁]; rfl
  have hlocked : s₁.mutation i = .locked c := by rw [hs₁, SharedEngine.goto_self]
  have htables : s₁.tables = e.toTables := by rw [hs₁]; rfl
  have hengine : s₁.engine = e := by rw [hs₁]; rfl
  -- it has decided, and gives the lock back
  have hdecided : ∀ (as : List (EngineAction ι κ)) (x : SharedEngine ι κ) (r : Except EngineError Outcome) (e' : Engine),
      runActions SharedEngine.step s₁ as = some x → x.mutation i = .decided r → x.engine = e' →
      ∃ (as : List (EngineAction ι κ)) (s : SharedEngine ι κ), runActions SharedEngine.step (.start e) as = some s ∧
        s.mutation i = .returned r ∧ s.engine = e' := by
    intro as x r e' hrun hx he'
    obtain ⟨s, hs, hreturned, hsame⟩ := release_decided hx
    refine ⟨.lock i c :: (as ++ [.release i]), s, ?_, hreturned, hsame.trans he'⟩
    rw [runActions_cons _ hlock, runActions_append _ hrun, runActions_cons _ hs]
    rfl
  rw [Call.run_eq]
  cases hd : e.decide c with
  | hit out =>
      have hcheck : s₁.step (.check i) = some (s₁.goto i (.decided (.ok out))) := by
        simp only [SharedEngine.step, hlocked, htables, hd]
      exact hdecided _ _ _ _ (runActions_cons _ hcheck []) (SharedEngine.goto_self _ _ _) hengine
  | conflict =>
      have hcheck : s₁.step (.check i) = some (s₁.goto i (.decided (.error .versionMismatch))) := by
        simp only [SharedEngine.step, hlocked, htables, hd]
      exact hdecided _ _ _ _ (runActions_cons _ hcheck []) (SharedEngine.goto_self _ _ _) hengine
  | write rec =>
      obtain rfl := Tables.decide_write hd
      obtain ⟨s₂, hs₂⟩ : ∃ s₂, s₂ = s₁.goto i (.appending c) := ⟨_, rfl⟩
      have hcheck : s₁.step (.check i) = some s₂ := by
        rw [hs₂]
        simp only [SharedEngine.step, hlocked, htables, hd]
      have hengine₂ : s₂.engine = e := by rw [hs₂]; exact hengine
      have hgroup : s₂.log.group = .start e.log := by rw [hs₂, hs₁]; rfl
      obtain ⟨x, hrun, hx, hxe⟩ := write_alone (s := s₂) (by rw [hs₂, SharedEngine.goto_self])
        (by rw [hgroup]; exact h.holds.flushed) (by rw [hgroup]; exact h.holds.quiet) (by rw [hgroup]; rfl)
      rw [hengine₂] at hx hxe
      exact hdecided _ x _ _ ((runActions_cons _ hcheck _).trans hrun) hx hxe

end Mutation

end Uddp

import Uddp.Engine.Shared
import Uddp.Lib.Linearizable

/-!
# Callers of the engine

Any number of calls of the engine at once: mutations, `Get` and `Snapshot` under the read lock, `Fetch` and
`LastCommitPosition` without it. The I/O of the log succeeds and nobody calls `Reset`.

* `EngineOp`, `EngineAnswer`, `Engine.Answers` : the sequential engine, which is the code run by one caller at a time;
* `Callers`, `Callers.step` : the machine, in which every call goes through the engine's lock and the log step by step;
* `FetchOk` : how far a `Fetch` has got; it takes effect when it asks for the size of the file;
* `Untouched` : what a step of another call leaves alone (`step_untouched`);
* `step_check_decides`, `buffer_effect`, `Within` : what a mutation does, from its look at the maps to the end of `Append`.
-/

namespace Uddp
open Uddp.Lib Uddp.Wal

/-! ## The sequential engine -/

/-- A call, with its arguments and its readings of the clock. -/
inductive EngineOp
  | mutate (c : Call)
  | get (key : Bytes) (now : Time)
  | snapshot (now : Bytes → Time)
  | fetch (fromPos : UInt64) (limit : Int)
  | lastCommitPosition

inductive EngineAnswer
  | outcome (r : Except EngineError Outcome)
  | value (r : Option (Bytes × UInt64))
  | entries (out : List SnapshotEntry)
  | records (r : Except RangeError (List ChangeRecord))
  | position (p : UInt64)
  deriving DecidableEq

/-- What the code answers, and the engine it leaves, if it is run by one caller at a time. -/
def Engine.Answers (e : Engine) : EngineOp → EngineAnswer → Engine → Prop
  | .mutate c, .outcome r, e' => c.run e AppendIO.ok = (r, e')
  | .get key now, .value r, e' => e.get key now = r ∧ e' = e
  | .snapshot now, .entries out, e' => e.Snapshot now out ∧ e' = e
  | .fetch fromPos limit, .records r, e' => e.fetch fromPos limit = r ∧ e' = e
  | .lastCommitPosition, .position p, e' => e.log.lastCommitPosition = p ∧ e' = e
  | _, _, _ => False

/-! ## The machine -/

/-- Where a call is. Mutations and `Fetch` run until they have an answer in the engine below. -/
inductive CallPhase
  | fresh
  | running (op : EngineOp)
  /-- It has the read lock. -/
  | reading (op : EngineOp)
  /-- It has read the maps, and still has the read lock. -/
  | read (op : EngineOp) (r : EngineAnswer)
  | ready (op : EngineOp) (r : EngineAnswer)
  | returned

/-- It has the read lock. -/
def CallPhase.Reads : CallPhase → Prop
  | .reading _ | .read _ _ => True
  | _ => False

structure Callers (ι : Type) where
  shared : SharedEngine ι ι
  phase : ι → CallPhase
  /-- Those with the read lock. -/
  readers : Finset ι

inductive CallerAction (ι : Type)
  | invoke (i : ι) (op : EngineOp)
  /-- A step of a mutation or of a `Fetch`. -/
  | engine (a : EngineAction ι ι)
  | rlock (i : ι)
  /-- `order` is the order in which the map gives its entries to `Snapshot`. -/
  | look (i : ι) (order : List (Σ _ : Bytes, Entry))
  | runlock (i : ι)
  | position (i : ι)
  | respond (i : ι) (r : EngineAnswer)

def CallerAction.seen {ι : Type} : CallerAction ι → Option (ClientEvent ι EngineOp EngineAnswer)
  | .invoke i op => some (.invoke i op)
  | .respond i r => some (.respond i r)
  | _ => none

/-- The record of a mutation fits its length field. -/
def CallerAction.Fits {ι : Type} : CallerAction ι → Prop
  | .invoke _ (.mutate c) => c.Fits
  | _ => True

instance {ι : Type} : DecidablePred (CallerAction.Fits (ι := ι))
  | .invoke _ (.mutate c) => inferInstanceAs (Decidable c.Fits)
  | .invoke _ (.get _ _) | .invoke _ (.snapshot _) | .invoke _ (.fetch _ _) | .invoke _ .lastCommitPosition
  | .engine _ | .rlock _ | .look _ _ | .runlock _ | .position _ | .respond _ _ => inferInstanceAs (Decidable True)

/-- The call whose step it is. -/
def EngineAction.caller {ι : Type} : EngineAction ι ι → ι
  | .lock i _ | .check i | .buffer i | .syncBegin i | .syncEnd i | .post i | .update i | .release i => i
  | .locate j _ _ | .stat j | .read j => j

/-- `Get` and `Snapshot` under the read lock. -/
def Tables.look (t : Tables) (order : List (Σ _ : Bytes, Entry)) : EngineOp → Option EngineAnswer
  | .get key now => some (.value (t.get key now))
  | .snapshot now =>
      if (order : Multiset (Σ _ : Bytes, Entry)) = t.index.entries then some (.entries (snapshotOf now order)) else none
  | _ => none

namespace EngineOp

def underReadLock : EngineOp → Bool
  | .get _ _ | .snapshot _ => true
  | _ => false

/-- The step is one that the call makes. A mutation gets the lock only while nobody has it for reading. -/
def admits {ι : Type} [DecidableEq ι] (readers : Finset ι) : EngineOp → EngineAction ι ι → Bool
  | .mutate c, .lock _ c' => c' = c ∧ readers = ∅
  | .mutate _, .check _ | .mutate _, .buffer _ | .mutate _, .syncBegin _ | .mutate _, .syncEnd _ | .mutate _, .post _
  | .mutate _, .update _ | .mutate _, .release _ => true
  | .fetch fromPos limit, .locate _ fromPos' limit' => fromPos' = fromPos ∧ limit' = limit
  | .fetch _ _, .stat _ | .fetch _ _, .read _ => true
  | _, _ => false

end EngineOp

namespace Callers
variable {ι : Type} [DecidableEq ι]

def start (e : Engine) : Callers ι := ⟨.start e, fun _ => .fresh, ∅⟩

def goto (x : Callers ι) (i : ι) (p : CallPhase) : Callers ι := { x with phase := Function.update x.phase i p }

/-- What the call `i` can return, if it is done. -/
def answered (x : Callers ι) (i : ι) : Option EngineAnswer :=
  match x.phase i with
  | .ready _ r => some r
  | .running (.mutate _) =>
      match x.shared.mutation i with
      | .returned r => some (.outcome r)
      | _ => none
  | .running (.fetch _ _) => (x.shared.fetched i).map .records
  | _ => none

def step (x : Callers ι) : CallerAction ι → Option (Callers ι)
  | .invoke i op =>
      match x.phase i with
      | .fresh => some (x.goto i (.running op))
      | _ => none
  | .engine a =>
      match x.phase a.caller with
      | .running op => if op.admits x.readers a then (x.shared.step a).map (fun s => { x with shared := s }) else none
      | _ => none
  | .rlock i =>
      match x.phase i, x.shared.holder with
      | .running op, none =>
          if op.underReadLock then some ({ x with readers := insert i x.readers }.goto i (.reading op)) else none
      | _, _ => none
  | .look i order =>
      match x.phase i with
      | .reading op => (x.shared.tables.look order op).map (fun r => x.goto i (.read op r))
      | _ => none
  | .runlock i =>
      match x.phase i with
      | .read op r => some ({ x with readers := x.readers.erase i }.goto i (.ready op r))
      | _ => none
  | .position i =>
      match x.phase i with
      | .running .lastCommitPosition =>
          some (x.goto i (.ready .lastCommitPosition (.position x.shared.log.group.w.lastCommitPosition)))
      | _ => none
  | .respond i r => if x.answered i = some r then some (x.goto i .returned) else none

/-! ### When a step is enabled, and what it then does -/

section Enabled
variable {x x' : Callers ι} {i : ι}

theorem goto_self (x : Callers ι) (i : ι) (p : CallPhase) : (x.goto i p).phase i = p := Function.update_self _ _ _

theorem goto_of_ne (x : Callers ι) {i l : ι} (h : l ≠ i) (p : CallPhase) : (x.goto i p).phase l = x.phase l :=
  Function.update_of_ne h _ _

theorem step_invoke {op : EngineOp} (h : x.step (.invoke i op) = some x') :
    x.phase i = .fresh ∧ x' = x.goto i (.running op) := by
  simp only [step] at h
  split at h
  · next hfresh => exact ⟨hfresh, (Option.some.inj h).symm⟩
  · cases h

theorem step_engine {a : EngineAction ι ι} (h : x.step (.engine a) = some x') : ∃ op s,
    x.phase a.caller = .running op ∧ op.admits x.readers a = true ∧ x.shared.step a = some s ∧ x' = { x with shared := s } := by
  simp only [step] at h
  split at h
  · next op hrunning =>
    split at h
    · next hadmits =>
      obtain ⟨s, hs, rfl⟩ := Option.map_eq_some_iff.mp h
      exact ⟨op, s, hrunning, hadmits, hs, rfl⟩
    · cases h
  · cases h

theorem step_rlock (h : x.step (.rlock i) = some x') : ∃ op, x.phase i = .running op ∧ x.shared.holder = none ∧
    op.underReadLock = true ∧ x' = { x with readers := insert i x.readers }.goto i (.reading op) := by
  simp only [step] at h
  split at h
  · next op hrunning hfree =>
    split at h
    · next hunder => exact ⟨op, hrunning, hfree, hunder, (Option.some.inj h).symm⟩
    · cases h
  · cases h

theorem step_look {order : List (Σ _ : Bytes, Entry)} (h : x.step (.look i order) = some x') : ∃ op r,
    x.phase i = .reading op ∧ x.shared.tables.look order op = some r ∧ x' = x.goto i (.read op r) := by
  simp only [step] at h
  split at h
  · next op hreading =>
    obtain ⟨r, hr, rfl⟩ := Option.map_eq_some_iff.mp h
    exact ⟨op, r, hreading, hr, rfl⟩
  · cases h

theorem step_runlock (h : x.step (.runlock i) = some x') : ∃ op r, x.phase i = .read op r ∧
    x' = { x with readers := x.readers.erase i }.goto i (.ready op r) := by
  simp only [step] at h
  split at h
  · next op r hread => exact ⟨op, r, hread, (Option.some.inj h).symm⟩
  · cases h

theorem step_position (h : x.step (.position i) = some x') : x.phase i = .running .lastCommitPosition ∧
    x' = x.goto i (.ready .lastCommitPosition (.position x.shared.log.group.w.lastCommitPosition)) := by
  simp only [step] at h
  split at h
  · next hrunning => exact ⟨hrunning, (Option.some.inj h).symm⟩
  · cases h

theorem step_respond {r : EngineAnswer} (h : x.step (.respond i r) = some x') :
    x.answered i = some r ∧ x' = x.goto i .returned := by
  simp only [step] at h
  split at h
  · next hr => exact ⟨hr, (Option.some.inj h).symm⟩
  · cases h

end Enabled

end Callers

/-! ## How far a call has got -/

/-- The position that a caller of `Append` has. -/
def Wal.Phase.At (position : UInt64) : Phase → Prop
  | .flushed p _ _ | .syncing p _ _ _ | .synced p _ _ _ | .returned (.ok p) => p = position
  | _ => False

theorem Wal.Phase.At.unique {p : Phase} {position position' : UInt64} (h : p.At position) (h' : p.At position') :
    position = position' := by
  cases p with
  | flushed p a b => exact h.symm.trans h'
  | syncing p a b c => exact h.symm.trans h'
  | synced p a b c => exact h.symm.trans h'
  | returned r =>
      cases r with
      | ok p => exact h.symm.trans h'
      | error e => exact h.elim
  | _ => exact h.elim

theorem Wal.Phase.At.ne_idle {p : Phase} {position : UInt64} (h : p.At position) : p ≠ .idle := by
  rintro rfl
  exact h

/-- A page of the log, or the error of `ReadRange`, as `Fetch` returns it. -/
def fetchResult (page : List Record × Option RangeError) : Except RangeError (List ChangeRecord) :=
  page.2.elim (.ok (page.1.map changeOf)) Except.error

/-- `Fetch` of `limit` records from `fromPos`: it takes effect when it finds that there is nothing to read, or when it asks for
the size of the file. -/
def FetchOk (w : WAL) (fromPos : UInt64) (limit : Int) : ReaderPhase → OpStatus EngineOp EngineAnswer → Prop
  | .idle, st => st = .pending (.fetch fromPos limit)
  -- it would find the same record now
  | .located p l o, st => Served.locate w fromPos limit = .located p l o ∧ st = .pending (.fetch fromPos limit)
  | .sized p l o size, st => size ≤ w.out.file.data.length ∧ st = .effective (.fetch fromPos limit)
      (.records (fetchResult (readUpTo l p ((w.out.file.data.take size).drop o))))
  | .returned _ recs err, st => st = .effective (.fetch fromPos limit) (.records (fetchResult (recs, err)))

/-- A reader that has found its first record would find it in a longer log. -/
theorem locate_grown {w w' : WAL} (h : w.byteOffsets <+: w'.byteOffsets) {fromPos : UInt64} {limit : Int} {p : UInt64}
    {l o : Nat} (hlocate : Served.locate w fromPos limit = .located p l o) :
    Served.locate w' fromPos limit = .located p l o := by
  unfold Served.locate at hlocate ⊢
  split at hlocate
  · cases hlocate
  · next hin =>
    rw [not_or, not_or] at hin
    obtain ⟨hone, hlt, hlimit⟩ := hin
    have hlen := h.length_le
    rw [if_neg (by rw [not_or, not_or]; exact ⟨hone, by omega, hlimit⟩)]
    split at hlocate
    · cases hlocate
    · next offset hoffset =>
      obtain ⟨t, ht⟩ := h
      rw [← ht, List.getElem?_append_left (List.getElem?_eq_some_iff.mp hoffset).1, hoffset]
      exact hlocate

theorem FetchOk.grown {w w' : WAL} {fromPos : UInt64} {limit : Int} {p : ReaderPhase} {st : OpStatus EngineOp EngineAnswer}
    (h : FetchOk w fromPos limit p st) (hdata : w.out.file.data <+: w'.out.file.data)
    (hoffsets : w.byteOffsets <+: w'.byteOffsets) : FetchOk w' fromPos limit p st := by
  cases p with
  | idle => exact h
  | located p l o => exact ⟨locate_grown hoffsets h.1, h.2⟩
  | sized p l o size =>
      obtain ⟨hsize, hst⟩ := h
      refine ⟨hsize.trans hdata.length_le, ?_⟩
      obtain ⟨t, ht⟩ := hdata
      rw [hst, ← ht, List.take_append_of_le_length hsize]
  | returned p recs err => exact h

theorem FetchOk.begun {w : WAL} {fromPos : UInt64} {limit : Int} {p : ReaderPhase} {st : OpStatus EngineOp EngineAnswer}
    (h : FetchOk w fromPos limit p st) : st ≠ .fresh := by
  cases p with
  | idle => exact OpStatus.ne_fresh_of_pending h
  | located p l o => exact OpStatus.ne_fresh_of_pending h.2
  | sized p l o size => exact OpStatus.ne_fresh_of_effective h.2
  | returned p recs err => exact OpStatus.ne_fresh_of_effective h

/-! ## `Fetch` alone -/

theorem fetch_eq (e : Engine) (fromPos : UInt64) (limit : Int) :
    e.fetch fromPos limit = fetchResult (e.log.readRange fromPos limit) := by
  unfold Engine.fetch
  cases e.log.readRange fromPos limit with
  | mk recs err =>
      cases err with
      | none => rfl
      | some err => rfl

theorem locate_congr {w w' : WAL} (h : w.byteOffsets = w'.byteOffsets) (fromPos : UInt64) (limit : Int) :
    Served.locate w fromPos limit = Served.locate w' fromPos limit := by
  unfold Served.locate
  rw [h]

theorem readRange_of_returned {w : WAL} {fromPos p : UInt64} {limit : Int} {recs : List Record} {err : Option RangeError}
    (h : Served.locate w fromPos limit = .returned p recs err) : w.readRange fromPos limit = (recs, err) := by
  unfold Served.locate at h
  unfold WAL.readRange
  split at h
  · next hout =>
    cases h
    rw [if_pos hout]
  · next hin =>
    rw [if_neg hin]
    cases hoffset : w.byteOffsets[(fromPos - 1).toNat]? with
    | none =>
        rw [hoffset] at h
        cases h
        rfl
    | some offset =>
        rw [hoffset] at h
        cases h

theorem readRange_of_located {w : WAL} (hopen : w.out.file.closed = false) {fromPos p : UInt64} {limit : Int} {l o : Nat}
    (h : Served.locate w fromPos limit = .located p l o) :
    w.readRange fromPos limit = readUpTo l p (w.out.file.data.drop o) := by
  unfold Served.locate at h
  unfold WAL.readRange
  split at h
  · cases h
  · next hin =>
    rw [if_neg hin]
    cases hoffset : w.byteOffsets[(fromPos - 1).toNat]? with
    | none =>
        rw [hoffset] at h
        cases h
    | some offset =>
        rw [hoffset] at h
        cases h
        simp only [hopen, Bool.false_eq_true, if_false]

theorem locate_ne (w : WAL) (fromPos : UInt64) (limit : Int) : Served.locate w fromPos limit ≠ .idle ∧
    ∀ p l o size, Served.locate w fromPos limit ≠ .sized p l o size := by
  unfold Served.locate
  split
  · simp
  · split
    · simp
    · simp

/-! ## Steps of others -/

/-- From `s` to `s'` the call `l` makes no step. -/
structure Untouched {ι : Type} (l : ι) (s s' : SharedEngine ι ι) : Prop where
  mutation : s'.mutation l = s.mutation l
  phase : s'.log.group.phase l = s.log.group.phase l
  reader : s'.log.reader l = s.log.reader l
  /-- While it has the lock, nobody writes. -/
  held : (s.mutation l).Locks → s'.log.group = s.log.group ∧ s'.tables = s.tables
  data : s.log.group.w.out.file.data <+: s'.log.group.w.out.file.data
  byteOffsets : s.log.group.w.byteOffsets <+: s'.log.group.w.byteOffsets

section Steps
variable {ι : Type} [DecidableEq ι] {w₀ : WAL} {rs₀ : List Record} {s s' : SharedEngine ι ι} {i : ι}

theorem step_holder (h : SharedInv w₀ rs₀ s) {a : EngineAction ι ι} (hstep : s.step a = some s') :
    (s.holder = none ∨ s.holder = some a.caller) ∨ s'.log.group = s.log.group ∧ s'.tables = s.tables := by
  have hinside : ∀ {q : Phase}, s.log.group.phase a.caller = q → q.Leads → s.holder = some a.caller := by
    intro q hphase hq
    obtain ⟨c, happending, -⟩ := h.inside hphase hq
    exact h.holder _ (happending ▸ trivial)
  cases a with
  | lock i c => exact Or.inl (Or.inl (SharedEngine.step_lock hstep).2.1)
  | check i =>
      obtain ⟨c, hlocked, -⟩ := SharedEngine.step_check hstep
      exact Or.inl (Or.inr (h.holder i (hlocked ▸ trivial)))
  | buffer i =>
      obtain ⟨c, log, happending, -⟩ := SharedEngine.step_buffer hstep
      exact Or.inl (Or.inr (h.holder i (happending ▸ trivial)))
  | syncBegin i =>
      obtain ⟨log, hlog, -⟩ := SharedEngine.logStep_some hstep
      obtain ⟨g, hg, -⟩ := Served.step_write hlog
      obtain ⟨_, _, _, hphase, -⟩ := Group.step_syncBegin hg
      exact Or.inl (Or.inr (hinside hphase trivial))
  | syncEnd i =>
      obtain ⟨log, hlog, -⟩ := SharedEngine.logStep_some hstep
      obtain ⟨g, hg, -⟩ := Served.step_write hlog
      obtain ⟨_, _, _, _, hphase, -⟩ := Group.step_syncEnd hg
      exact Or.inl (Or.inr (hinside hphase trivial))
  | post i =>
      obtain ⟨log, hlog, -⟩ := SharedEngine.logStep_some hstep
      obtain ⟨g, hg, -⟩ := Served.step_write hlog
      obtain ⟨_, _, _, _, hphase, -⟩ := Group.step_post hg
      exact Or.inl (Or.inr (hinside hphase trivial))
  | update i =>
      obtain ⟨c, happending, -⟩ := SharedEngine.step_update hstep
      exact Or.inl (Or.inr (h.holder i (happending ▸ trivial)))
  | release i =>
      obtain ⟨r, hdecided, -⟩ := SharedEngine.step_release hstep
      exact Or.inl (Or.inr (h.holder i (hdecided ▸ trivial)))
  | locate j fromPos limit =>
      obtain ⟨log, hlog, rfl⟩ := SharedEngine.logStep_some hstep
      obtain ⟨-, rfl⟩ := Served.step_locate hlog
      exact Or.inr ⟨rfl, rfl⟩
  | stat j =>
      obtain ⟨log, hlog, rfl⟩ := SharedEngine.logStep_some hstep
      obtain ⟨_, _, _, -, ⟨-, rfl⟩ | ⟨-, rfl⟩⟩ := Served.step_stat hlog
      · exact Or.inr ⟨rfl, rfl⟩
      · exact Or.inr ⟨rfl, rfl⟩
  | read j =>
      obtain ⟨log, hlog, rfl⟩ := SharedEngine.logStep_some hstep
      obtain ⟨_, _, _, _, -, rfl⟩ := Served.step_read hlog
      exact Or.inr ⟨rfl, rfl⟩

theorem step_places {a : EngineAction ι ι} (hstep : s.step a = some s') {l : ι} (hl : l ≠ a.caller) :
    s'.mutation l = s.mutation l ∧ s'.log.group.phase l = s.log.group.phase l ∧ s'.log.reader l = s.log.reader l := by
  have hwrite : ∀ b : Wal.Action ι, b.caller = some a.caller → s.logStep (.write b) = some s' →
      s'.mutation l = s.mutation l ∧ s'.log.group.phase l = s.log.group.phase l ∧ s'.log.reader l = s.log.reader l := by
    intro b hb hb'
    obtain ⟨log, hlog, rfl⟩ := SharedEngine.logStep_some hb'
    obtain ⟨g, hg, rfl⟩ := Served.step_write hlog
    refine ⟨rfl, step_phase_of_ne hg ?_, rfl⟩
    rw [hb]
    exact fun heq => hl (Option.some.inj heq).symm
  have hgoto : ∀ {u : SharedEngine ι ι} {p : MutationPhase}, s' = u.goto a.caller p → u.log = s.log →
      u.mutation = s.mutation →
      s'.mutation l = s.mutation l ∧ s'.log.group.phase l = s.log.group.phase l ∧ s'.log.reader l = s.log.reader l := by
    rintro u p rfl hlog hmutation
    refine ⟨?_, congrArg (fun g : Wal.Served ι ι => g.group.phase l) hlog, congrArg (fun g : Wal.Served ι ι => g.reader l) hlog⟩
    rw [SharedEngine.goto_of_ne u hl, hmutation]
  cases a with
  | lock i c =>
      obtain ⟨-, -, rfl⟩ := SharedEngine.step_lock hstep
      exact hgoto rfl rfl rfl
  | check i =>
      obtain ⟨c, -, rfl | ⟨r, rfl⟩⟩ := SharedEngine.step_check hstep
      · exact hgoto rfl rfl rfl
      · exact hgoto rfl rfl rfl
  | buffer i =>
      obtain ⟨c, log, -, hlog, rfl⟩ := SharedEngine.step_buffer hstep
      exact hwrite (.enter i c.record (none, none) (none, none) none) rfl (by rw [SharedEngine.logStep, hlog]; rfl)
  | syncBegin i => exact hwrite _ rfl hstep
  | syncEnd i => exact hwrite _ rfl hstep
  | post i => exact hwrite _ rfl hstep
  | update i =>
      obtain ⟨c, -, ⟨position, -, rfl⟩ | ⟨err, -, rfl⟩⟩ := SharedEngine.step_update hstep
      · exact hgoto rfl rfl rfl
      · exact hgoto rfl rfl rfl
  | release i =>
      obtain ⟨r, -, rfl⟩ := SharedEngine.step_release hstep
      exact hgoto rfl rfl rfl
  | locate j fromPos limit =>
      obtain ⟨log, hlog, rfl⟩ := SharedEngine.logStep_some hstep
      obtain ⟨-, rfl⟩ := Served.step_locate hlog
      exact ⟨rfl, rfl, served_goto_of_ne _ hl _⟩
  | stat j =>
      obtain ⟨log, hlog, rfl⟩ := SharedEngine.logStep_some hstep
      obtain ⟨_, _, _, -, ⟨-, rfl⟩ | ⟨-, rfl⟩⟩ := Served.step_stat hlog
      · exact ⟨rfl, rfl, served_goto_of_ne _ hl _⟩
      · exact ⟨rfl, rfl, served_goto_of_ne _ hl _⟩
  | read j =>
      obtain ⟨log, hlog, rfl⟩ := SharedEngine.logStep_some hstep
      obtain ⟨_, _, _, _, -, rfl⟩ := Served.step_read hlog
      exact ⟨rfl, rfl, served_goto_of_ne _ hl _⟩

theorem step_untouched (h : SharedInv w₀ rs₀ s) {a : EngineAction ι ι} (hstep : s.step a = some s')
    (hs' : SharedInv w₀ rs₀ s') {l : ι} (hl : l ≠ a.caller) : Untouched l s s' := by
  obtain ⟨hmutation, hphase, hreader⟩ := step_places hstep hl
  have hrecords := step_grows h hstep
  refine ⟨hmutation, hphase, hreader, fun hlocks => ?_, ?_, ?_⟩
  · rcases step_holder h hstep with (hnone | hsome) | hsame
    · exact absurd ((h.holder l hlocks).symm.trans hnone) (by simp)
    · exact absurd (Option.some.inj ((h.holder l hlocks).symm.trans hsome)) hl
    · exact hsame
  · obtain ⟨u, hu⟩ := hrecords
    rw [h.data, hs'.data, ← hu, logBytes, logBytes, frames_append, ← List.append_assoc]
    exact List.prefix_append _ _
  · obtain ⟨u, hu⟩ := hrecords
    rw [h.byteOffsets, hs'.byteOffsets, ← hu, offsetsFrom_append]
    exact List.prefix_append _ _

/-! ### What a mutation does -/

theorem step_check_decides (h : s.step (.check i) = some s') : ∃ c, s.mutation i = .locked c ∧
    ((∃ out, s.tables.decide c = .hit out ∧ s' = s.goto i (.decided (.ok out))) ∨
      s.tables.decide c = .conflict ∧ s' = s.goto i (.decided (.error .versionMismatch)) ∨
      s.tables.decide c = .write c.record ∧ s' = s.goto i (.appending c)) := by
  simp only [SharedEngine.step] at h
  split at h
  · next c hlocked =>
    refine ⟨c, hlocked, ?_⟩
    split at h
    · next out hd => exact Or.inl ⟨out, hd, (Option.some.inj h).symm⟩
    · next hd => exact Or.inr (Or.inl ⟨hd, (Option.some.inj h).symm⟩)
    · next rec hd =>
      obtain rfl := Tables.decide_write hd
      exact Or.inr (Or.inr ⟨hd, (Option.some.inj h).symm⟩)
  · cases h

/-- A step inside `Append` that leaves the records as they are. -/
structure Within (rs₀ : List Record) (i : ι) (s s' : SharedEngine ι ι) : Prop where
  appending : ∃ c position, s.mutation i = .appending c ∧ (s.log.group.phase i).At position ∧
    (s'.log.group.phase i).At position
  records : s'.log.group.records rs₀ = s.log.group.records rs₀
  mutation : s'.mutation = s.mutation
  tables : s'.tables = s.tables
  holder : s'.holder = s.holder
  synced : s.log.group.w.out.file.synced ≤ s'.log.group.w.out.file.synced

theorem within_syncBegin (h : SharedInv w₀ rs₀ s) (hstep : s.step (.syncBegin i) = some s') :
    Within rs₀ i s s' := by
  obtain ⟨log, hlog, rfl⟩ := SharedEngine.logStep_some hstep
  obtain ⟨g, hg, rfl⟩ := Served.step_write hlog
  obtain ⟨position, mySeq, flushSeq, hphase, rfl⟩ := Group.step_syncBegin hg
  obtain ⟨c, happending, -⟩ := h.inside hphase trivial
  refine ⟨⟨c, position, happending, by rw [hphase]; rfl, ?_⟩, rfl, rfl, rfl, rfl, le_rfl⟩
  show ((s.log.group.goto i _).phase i).At position
  rw [Wal.goto_self]
  rfl

theorem within_syncEnd (h : SharedInv w₀ rs₀ s) (hstep : s.step (.syncEnd i) = some s') :
    Within rs₀ i s s' := by
  obtain ⟨log, hlog, rfl⟩ := SharedEngine.logStep_some hstep
  obtain ⟨g, hg, rfl⟩ := Served.step_write hlog
  obtain ⟨position, mySeq, flushSeq, begun, hphase, rfl⟩ := Group.step_syncEnd hg
  obtain ⟨c, happending, -⟩ := h.inside hphase trivial
  rw [syncEnd_single h.flushed]
  refine ⟨⟨c, position, happending, by rw [hphase]; rfl, ?_⟩, rfl, rfl, rfl, rfl, le_max_left _ _⟩
  show ((Wal.Group.goto _ i _).phase i).At position
  rw [Wal.goto_self]
  rfl

theorem within_post (h : SharedInv w₀ rs₀ s) (hstep : s.step (.post i) = some s') :
    Within rs₀ i s s' := by
  obtain ⟨log, hlog, rfl⟩ := SharedEngine.logStep_some hstep
  obtain ⟨g, hg, rfl⟩ := Served.step_write hlog
  obtain ⟨position, mySeq, flushSeq, syncErr, hphase, rfl⟩ := Group.step_post hg
  obtain ⟨c, happending, -, hseq, rfl⟩ := h.inside hphase trivial
  rw [post_single hseq]
  refine ⟨⟨c, position, happending, by rw [hphase]; rfl, ?_⟩, rfl, rfl, rfl, rfl, le_rfl⟩
  show ((Wal.Group.goto _ i _).phase i).At position
  rw [Wal.goto_self]
  rfl

/-- No record is durable when it goes to the file. -/
theorem enter_synced (g : Wal.Group ι) (i : ι) (rec : Record) (l b : WriteFault × WriteFault) (flush : WriteFault) :
    (g.enter i rec l b flush).w.out.file.synced = g.w.out.file.synced := by
  obtain ⟨o, ho, ⟨e, -, henter⟩ | ⟨-, -, ⟨-, henter⟩ | ⟨-, henter⟩⟩⟩ := g.enter_spec i rec l b flush
  · rw [henter]
    exact ho.synced
  · rw [henter]
    exact ho.synced
  · obtain ⟨o', ho', ⟨e, -, hlead⟩ | ⟨-, -, -, hlead⟩⟩ := Wal.Group.lead_spec
      { g with w := { g.w.taken rec o with leading := true }, arrivals := g.arrivals ++ [(i, stamp rec g.w.next)] } i g.w.next
      (g.w.pendingSeq + 1) flush
    · rw [henter, hlead]
      exact ho'.synced.trans ho.synced
    · rw [henter, hlead]
      exact ho'.synced.trans ho.synced

theorem buffer_effect (h : SharedInv w₀ rs₀ s) (hstep : s.step (.buffer i) = some s') :
    ∃ c, s.mutation i = .appending c ∧ s.log.group.phase i = .idle ∧
      s'.log.group.records rs₀ = s.log.group.records rs₀ ++ [stamp c.record (nextPosition (s.log.group.records rs₀))] ∧
      (∃ mySeq flushSeq, s'.log.group.phase i = .flushed (nextPosition (s.log.group.records rs₀)) mySeq flushSeq) ∧
      s'.mutation = s.mutation ∧ s'.tables = s.tables ∧ s'.holder = s.holder ∧
      s'.log.group.w.out.file.synced = s.log.group.w.out.file.synced := by
  obtain ⟨c, log, happending, hlog, rfl⟩ := SharedEngine.step_buffer hstep
  obtain ⟨g, hg, rfl⟩ := Served.step_write hlog
  obtain ⟨hphase, rfl⟩ := Group.step_enter hg
  have hok := h.mutations i
  rw [happending, hphase] at hok
  obtain ⟨taken, flushed, hround⟩ := exists_singleRound h.flushed c.record
  have hnext : s.log.group.w.next = nextPosition (s.log.group.records rs₀) := h.served.group.log.next
  have hsynced := enter_synced s.log.group i c.record (none, none) (none, none) none
  rw [enter_single hround hok.2.quiet] at hsynced ⊢
  rw [← hnext]
  refine ⟨c, happending, hphase, records_snoc s.log.group s.log.group.w i _, ⟨_, _, Wal.goto_self _ _ _⟩, rfl, rfl, rfl, hsynced⟩

end Steps

theorem run_decided {e : Engine} {tables : Tables} (ht : e.toTables = tables) {c : Call} :
    (∀ out, tables.decide c = .hit out → c.run e AppendIO.ok = (.ok out, e)) ∧
      (tables.decide c = .conflict → c.run e AppendIO.ok = (.error .versionMismatch, e)) := by
  subst ht
  refine ⟨fun out hd => ?_, fun hd => ?_⟩
  · rw [Call.run_eq, hd]
    rfl
  · rw [Call.run_eq, hd]
    rfl

theorem run_writes {e : Engine} {rs : List Record} (h : Holds e.log rs) (ht : e.toTables = tablesOf rs) {c : Call}
    (hd : (tablesOf rs).decide c = .write c.record) : ∃ e', c.run e AppendIO.ok = (.ok (outcomeAt (nextPosition rs)), e') ∧
      Holds e'.log (rs ++ [stamp c.record (nextPosition rs)]) ∧
      e'.toTables = tablesOf (rs ++ [stamp c.record (nextPosition rs)]) := by
  obtain ⟨hout, hholds, htables, -⟩ := step_holds h ht c
  have hanswer : answer rs c = (.ok (outcomeAt (nextPosition rs)), rs ++ [stamp c.record (nextPosition rs)]) := by
    rw [answer, hd]
  rw [hanswer] at hout hholds htables
  exact ⟨(step e c).2, Prod.ext hout rfl, hholds, htables⟩

end Uddp

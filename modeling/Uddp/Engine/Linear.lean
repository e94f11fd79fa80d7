import Uddp.Engine.Effects

/-!
# The engine is linearizable

* `recordRule` : a record counts when it goes to the file, although the maps do not know it yet and it is not durable;
* `tracked_buffer`, `tracked_within`, `tracked_update` : a mutation inside `Append`; `tracked_locate`, `tracked_stat`,
  `tracked_read` : a `Fetch`;
* **`engine_linearizable`** : every history of the callers is linearizable.
-/

namespace Uddp
open Uddp.Lib Uddp.Wal

/-! ## The rule -/

/-- A record counts when it is in the file. -/
def recordRule (ι : Type) (rs₀ : List Record) : EffectRule ι rs₀ where
  history s e := Holds e.log (s.log.group.records rs₀) ∧ e.toTables = tablesOf (s.log.group.records rs₀)
  inside s i c st := ∃ position, (s.log.group.phase i).At position ∧
    st = .effective (.mutate c) (.outcome (.ok (outcomeAt position)))
  quiet h _ := h
  turns h hlog _ _ := by rwa [hlog]
  frame h hgroup _ := by rwa [hgroup]
  begun h := by
    obtain ⟨position, -, rfl⟩ := h
    simp

section Linear
variable {ι : Type} {w₀ : WAL} {rs₀ : List Record} {x : Callers ι} {t : Atomic Engine ι EngineOp EngineAnswer} {i : ι}
  {s s' : SharedEngine ι ι}

theorem mutateOk_at {c c' : Call} {position : UInt64} {st : OpStatus EngineOp EngineAnswer}
    (happending : s.mutation i = .appending c') (hat : (s.log.group.phase i).At position) :
    MutateOk (recordRule ι rs₀) s i c st ↔ c' = c ∧ st = .effective (.mutate c) (.outcome (.ok (outcomeAt position))) := by
  rw [mutateOk_inside happending hat.ne_idle]
  constructor
  · rintro ⟨hc, position', hat', hst⟩
    rw [hat'.unique hat] at hst
    exact ⟨hc, hst⟩
  · rintro ⟨hc, hst⟩
    exact ⟨hc, position, hat, hst⟩

theorem Tracked.fetch (h : Tracked w₀ (recordRule ι rs₀) x t) {fromPos : UInt64} {limit : Int}
    (hrunning : x.phase i = .running (.fetch fromPos limit)) :
    FetchOk x.shared.log.group.w fromPos limit (x.shared.log.reader i) (t.status i) := by
  have hok := h.calls i
  rwa [hrunning] at hok

theorem Tracked.locate (h : Tracked w₀ (recordRule ι rs₀) x t) (fromPos : UInt64) (limit : Int) :
    Served.locate t.state.log fromPos limit = Served.locate x.shared.log.group.w fromPos limit :=
  locate_congr (h.history.1.byteOffsets.trans h.shared.byteOffsets.symm) _ _

variable [DecidableEq ι] (h : Tracked w₀ (recordRule ι rs₀) x t)
include h

theorem tracked_position {x' : Callers ι} (hstep : x.step (.position i) = some x') :
    ∃ op r, Tracked w₀ (recordRule ι rs₀) x' (t.put i (.effective op r)) ∧ t.status i = .pending op ∧
      t.state.Answers op r t.state := by
  obtain ⟨hrunning, rfl⟩ := Callers.step_position hstep
  have hok := h.calls i
  rw [hrunning] at hok
  refine ⟨_, _, h.pass rfl (by rw [hrunning]; exact Iff.rfl) (h.unlocked (by simp [hrunning])), hok, ?_, rfl⟩
  have hnext : t.state.log.next = x.shared.log.group.w.next := by rw [h.history.1.next, h.shared.served.group.log.next]
  rw [WAL.lastCommitPosition, hnext, WAL.lastCommitPosition]

/-! ## Mutations inside `Append` -/

theorem tracked_buffer {c : Call} (hrunning : x.phase i = .running (.mutate c)) (hstep : x.shared.step (.buffer i) = some s') :
    ∃ r e', Tracked w₀ (recordRule ι rs₀) { x with shared := s' } ({ t with state := e' }.put i (.effective (.mutate c) r)) ∧
      t.status i = .pending (.mutate c) ∧ t.state.Answers (.mutate c) r e' := by
  have hok := h.mutation hrunning
  obtain ⟨c', happending, hphase, hrecords, ⟨mySeq, flushSeq, hflushed⟩, hmutation, -, hholder, -⟩ := buffer_effect h.shared hstep
  have hat : (s'.log.group.phase i).At (nextPosition (x.shared.log.group.records rs₀)) := by rw [hflushed]; rfl
  obtain ⟨rfl, hd, hpending⟩ := (mutateOk_waiting happending hphase).mp hok
  have htables : x.shared.tables = tablesOf (x.shared.log.group.records rs₀) := by
    have hmut := h.shared.mutations i
    rw [happending, hphase] at hmut
    exact hmut.2.tables
  rw [htables] at hd
  obtain ⟨e', hrun, hholds, htables'⟩ := run_writes h.history.1 h.history.2 hd
  refine ⟨.outcome (.ok (outcomeAt (nextPosition (x.shared.log.group.records rs₀)))), e',
    h.drive hstep (shared_buffer h.shared hstep) hrunning (fun l hl => Atomic.put_of_ne _ hl _) ?_ ?_
      (fun _ => ⟨c', rfl⟩) ?_, hpending, hrun⟩
  · show Holds e'.log (s'.log.group.records rs₀) ∧ e'.toTables = tablesOf (s'.log.group.records rs₀)
    rw [hrecords]
    exact ⟨hholds, htables'⟩
  · rw [hholder]
    exact h.free
  · show MutateOk _ s' i c' ((Atomic.put _ i _).status i)
    rw [Atomic.put_self, mutateOk_at (hmutation ▸ happending) hat]
    exact ⟨rfl, rfl⟩

theorem tracked_within {c : Call} {a : EngineAction ι ι} (hrunning : x.phase a.caller = .running (.mutate c))
    (hstep : x.shared.step a = some s') (hs' : SharedInv w₀ rs₀ s') (hwithin : Within rs₀ a.caller x.shared s') :
    Tracked w₀ (recordRule ι rs₀) { x with shared := s' } t := by
  have hok := h.mutation hrunning
  obtain ⟨c', position, happending, hat, hat'⟩ := hwithin.appending
  refine h.drive hstep hs' hrunning (fun _ _ => rfl) ?_ ?_ (fun _ => ⟨c, rfl⟩) ?_
  · show Holds t.state.log (s'.log.group.records rs₀) ∧ t.state.toTables = tablesOf (s'.log.group.records rs₀)
    rw [hwithin.records]
    exact h.history
  · rw [hwithin.holder]
    exact h.free
  · exact (mutateOk_at (hwithin.mutation ▸ happending) hat').mpr ((mutateOk_at happending hat).mp hok)

theorem tracked_update {c : Call} (hrunning : x.phase i = .running (.mutate c)) (hstep : x.shared.step (.update i) = some s') :
    Tracked w₀ (recordRule ι rs₀) { x with shared := s' } t := by
  have hok := h.mutation hrunning
  obtain ⟨c', happending, ⟨position, hphase, hs⟩ | ⟨err, hphase, -⟩⟩ := SharedEngine.step_update hstep
  · have hat : (x.shared.log.group.phase i).At position := by rw [hphase]; rfl
    obtain ⟨rfl, heffective⟩ := (mutateOk_at happending hat).mp hok
    refine h.drive hstep (shared_update h.shared hstep) hrunning (fun _ _ => rfl) ?_ ?_ (fun _ => ⟨c', rfl⟩) ?_
    · rw [hs]
      exact h.history
    · rw [hs]
      exact h.free
    · show MutateOk _ s' i c' _
      unfold MutateOk
      rw [hs, SharedEngine.goto_self]
      exact heffective
  · have hmut := h.shared.mutations i
    rw [happending, hphase] at hmut
    exact hmut.elim

/-! ## `Fetch` -/

theorem Tracked.reads {fromPos : UInt64} {limit : Int} {a : EngineAction ι ι} (hstep : x.shared.step a = some s') (hs' : SharedInv w₀ rs₀ s')
    (hrunning : x.phase a.caller = .running (.fetch fromPos limit)) {p : ReaderPhase}
    (hs : s' = { x.shared with log := x.shared.log.goto a.caller p }) (st : OpStatus EngineOp EngineAnswer)
    (hok : FetchOk x.shared.log.group.w fromPos limit p st) :
    Tracked w₀ (recordRule ι rs₀) { x with shared := s' } (t.put a.caller st) := by
  refine h.drive hstep hs' hrunning (fun l hl => Atomic.put_of_ne _ hl _) ?_ ?_ ?_ ?_
  · rw [hs]
    exact h.history
  · rw [hs]
    exact h.free
  · rw [hs]
    exact fun hlocks => absurd hlocks (h.unlocked (by simp [hrunning]))
  · rw [hs, Atomic.put_self]
    show FetchOk x.shared.log.group.w fromPos limit ((x.shared.log.goto a.caller p).reader a.caller) st
    rw [served_goto_self]
    exact hok

theorem tracked_locate {fromPos : UInt64} {limit : Int} (hrunning : x.phase i = .running (.fetch fromPos limit))
    (hstep : x.shared.step (.locate i fromPos limit) = some s') :
    Tracked w₀ (recordRule ι rs₀) { x with shared := s' } t ∨ ∃ r,
      Tracked w₀ (recordRule ι rs₀) { x with shared := s' } (t.put i (.effective (.fetch fromPos limit) r)) ∧
      t.status i = .pending (.fetch fromPos limit) ∧ t.state.Answers (.fetch fromPos limit) r t.state := by
  have hok := h.fetch hrunning
  have hs' := shared_step h.shared (by trivial) hstep
  obtain ⟨log, hlog, hs⟩ := SharedEngine.logStep_some hstep
  obtain ⟨hidle, rfl⟩ := Served.step_locate hlog
  rw [hidle] at hok
  have hpending : t.status i = .pending (.fetch fromPos limit) := hok
  cases hphase : Served.locate x.shared.log.group.w fromPos limit with
  | idle => exact absurd hphase (locate_ne _ _ _).1
  | sized p l o size => exact absurd hphase ((locate_ne _ _ _).2 p l o size)
  | located p l o =>
      rw [hphase] at hs
      have hlinked := h.reads hstep hs' hrunning hs (t.status i) ⟨hphase, hpending⟩
      rw [show EngineAction.caller (.locate i fromPos limit) = i from rfl, Atomic.put_same] at hlinked
      exact Or.inl hlinked
  | returned p recs err =>
      rw [hphase] at hs
      refine Or.inr ⟨_, h.reads hstep hs' hrunning hs _ rfl, hpending, ?_, rfl⟩
      rw [fetch_eq, readRange_of_returned ((h.locate _ _).trans hphase)]

/-- The size of the file says which records the reader is going to find. -/
theorem tracked_stat {fromPos : UInt64} {limit : Int} (hrunning : x.phase i = .running (.fetch fromPos limit)) (hstep : x.shared.step (.stat i) = some s') :
    ∃ r, Tracked w₀ (recordRule ι rs₀) { x with shared := s' } (t.put i (.effective (.fetch fromPos limit) r)) ∧
      t.status i = .pending (.fetch fromPos limit) ∧ t.state.Answers (.fetch fromPos limit) r t.state := by
  have hok := h.fetch hrunning
  have hs' := shared_step h.shared (by trivial) hstep
  obtain ⟨log, hlog, hs⟩ := SharedEngine.logStep_some hstep
  obtain ⟨p, l, o, hlocated, ⟨hclosed, -⟩ | ⟨-, rfl⟩⟩ := Served.step_stat hlog
  · exact absurd (hclosed.symm.trans h.shared.flushed.opened) (by simp)
  · rw [hlocated] at hok
    obtain ⟨hagain, hpending⟩ := hok
    refine ⟨_, h.reads hstep hs' hrunning hs _ ⟨le_rfl, rfl⟩, hpending, ?_, rfl⟩
    rw [fetch_eq, readRange_of_located h.history.1.opened ((h.locate _ _).trans hagain), h.history.1.data, h.shared.data, List.take_length]

theorem tracked_read {fromPos : UInt64} {limit : Int} (hrunning : x.phase i = .running (.fetch fromPos limit)) (hstep : x.shared.step (.read i) = some s') :
    Tracked w₀ (recordRule ι rs₀) { x with shared := s' } t := by
  have hok := h.fetch hrunning
  have hs' := shared_step h.shared (by trivial) hstep
  obtain ⟨log, hlog, hs⟩ := SharedEngine.logStep_some hstep
  obtain ⟨p, l, o, size, hsized, rfl⟩ := Served.step_read hlog
  rw [hsized] at hok
  have hpage : Served.readSection x.shared.log.group.w.out.file p l o size 0 =
      readUpTo l p ((x.shared.log.group.w.out.file.data.take size).drop o) := by
    simp only [Served.readSection, h.shared.flushed.opened, Bool.false_eq_true, if_false]
  rw [hpage] at hs
  have hlinked := h.reads hstep hs' hrunning hs (t.status i) hok.2
  rwa [show EngineAction.caller (EngineAction.read i) = i from rfl, Atomic.put_same] at hlinked

/-! ## Every step, and every run -/

theorem tracked_engine {a : EngineAction ι ι} {op : EngineOp} (hrunning : x.phase a.caller = .running op)
    (hadmits : op.admits x.readers a = true) (hstep : x.shared.step a = some s') :
    ∃ t', Tracked w₀ (recordRule ι rs₀) { x with shared := s' } t' ∧ AtomicFollows Engine.Answers none t t' := by
  cases op with
  | mutate c =>
      cases a with
      | lock i c' =>
          obtain ⟨rfl, hempty⟩ := of_decide_eq_true hadmits
          exact ⟨t, tracked_lock h hrunning hempty hstep, follows_nothing⟩
      | check i =>
          rcases tracked_check h hrunning hstep with hlinked | ⟨r, hlinked, hpending, hanswers⟩
          · exact ⟨t, hlinked, follows_nothing⟩
          · exact ⟨_, hlinked, follows_commit hpending hanswers⟩
      | buffer i =>
          obtain ⟨r, e', hlinked, hpending, hanswers⟩ := tracked_buffer h hrunning hstep
          exact ⟨_, hlinked, follows_commit hpending hanswers⟩
      | syncBegin i =>
          exact ⟨t, tracked_within h hrunning hstep (shared_syncBegin h.shared hstep) (within_syncBegin h.shared hstep),
            follows_nothing⟩
      | syncEnd i =>
          exact ⟨t, tracked_within h hrunning hstep (shared_syncEnd h.shared hstep) (within_syncEnd h.shared hstep),
            follows_nothing⟩
      | post i =>
          exact ⟨t, tracked_within h hrunning hstep (shared_post h.shared hstep) (within_post h.shared hstep),
            follows_nothing⟩
      | update i => exact ⟨t, tracked_update h hrunning hstep, follows_nothing⟩
      | release i => exact ⟨t, tracked_release h hrunning hstep, follows_nothing⟩
      | _ => cases hadmits
  | fetch fromPos limit =>
      cases a with
      | locate j fromPos' limit' =>
          obtain ⟨rfl, rfl⟩ := of_decide_eq_true hadmits
          rcases tracked_locate h hrunning hstep with hlinked | ⟨r, hlinked, hpending, hanswers⟩
          · exact ⟨t, hlinked, follows_nothing⟩
          · exact ⟨_, hlinked, follows_commit hpending hanswers⟩
      | stat j =>
          obtain ⟨r, hlinked, hpending, hanswers⟩ := tracked_stat h hrunning hstep
          exact ⟨_, hlinked, follows_commit hpending hanswers⟩
      | read j => exact ⟨t, tracked_read h hrunning hstep, follows_nothing⟩
      | _ => cases hadmits
  | _ =>
      cases a with
      | _ => cases hadmits

theorem tracked_step {a : CallerAction ι} (hfits : a.Fits) {x' : Callers ι}
    (hstep : x.step a = some x') : ∃ t', Tracked w₀ (recordRule ι rs₀) x' t' ∧ AtomicFollows Engine.Answers a.seen t t' := by
  cases a with
  | invoke i op =>
      obtain ⟨hlinked, hfresh⟩ := tracked_invoke h (fun c hc => by subst hc; exact hfits) hstep
      exact ⟨_, hlinked, Or.inr ⟨.invoke i op, .invoke op hfresh, rfl⟩⟩
  | engine a =>
      obtain ⟨op, s', hrunning, hadmits, hs', rfl⟩ := Callers.step_engine hstep
      exact tracked_engine h hrunning hadmits hs'
  | rlock i => exact ⟨t, tracked_rlock h hstep, follows_nothing⟩
  | look i order =>
      obtain ⟨op, r, hlinked, hpending, hanswers⟩ := tracked_look h hstep
      exact ⟨_, hlinked, follows_commit hpending hanswers⟩
  | runlock i => exact ⟨t, tracked_runlock h hstep, follows_nothing⟩
  | position i =>
      obtain ⟨op, r, hlinked, hpending, hanswers⟩ := tracked_position h hstep
      exact ⟨_, hlinked, follows_commit hpending hanswers⟩
  | respond i r =>
      obtain ⟨op, hlinked, heffective⟩ := tracked_respond h hstep
      exact ⟨_, hlinked, Or.inr ⟨.respond i r, .respond heffective, rfl⟩⟩

omit [DecidableEq ι] h in
theorem tracked_start {e : Engine} {n : Nat} (h : Keeps e rs₀ n) :
    Tracked e.log (recordRule ι rs₀) (Callers.start e : Callers ι) (Atomic.start e) := by
  have hrecords : (Callers.start e : Callers ι).shared.log.group.records rs₀ = rs₀ := List.append_nil rs₀
  refine ⟨shared_start h, ⟨?_, ?_⟩, fun i => ?_, fun hne => absurd rfl hne, fun i hi => hi.elim, fun i => ⟨rfl, rfl, rfl⟩⟩
  · rw [hrecords]
    exact h.holds
  · rw [hrecords]
    exact h.tables
  · exact iff_of_false (Finset.notMem_empty i) id

end Linear

/-- **The engine is linearizable.** Let any number of mutations, `Get`s, `Snapshot`s, `Fetch`es and `LastCommitPosition`s go on
at once. There is one order of those that have been answered, and of some that have not, that agrees with the order in
which they were called and answered, and in which the code, run by one caller at a time, gives the same answers; the log then
has the records that this run would have written. -/
theorem engine_linearizable {ι : Type} [DecidableEq ι] {e : Engine} {rs : List Record} {n : Nat} (h : Keeps e rs n)
    {as : List (CallerAction ι)} (hfits : ∀ a ∈ as, a.Fits) {x : Callers ι}
    (hrun : runActions Callers.step (Callers.start e) as = some x) :
    ∃ L e', Linearizes Engine.Answers e (as.filterMap CallerAction.seen) L e' ∧ x.shared.engine.stream = e'.stream := by
  have hsim : ∀ (y : Callers ι) a y' t, Tracked e.log (recordRule ι rs) y t → a.Fits → y.step a = some y' →
      ∃ t', Tracked e.log (recordRule ι rs) y' t' ∧ AtomicFollows Engine.Answers a.seen t t' := fun _ _ _ _ hl hf hs => tracked_step hl hf hs
  obtain ⟨t, L, hlinked, hlinearizes⟩ := linearizes_of_simulation hsim (tracked_start h) hfits hrun
  refine ⟨L, t.state, hlinearizes, ?_⟩
  rw [hlinked.shared.stream, stream_holds hlinked.history.1 hlinked.shared.served.fits]

/-- A put and a `Get` of the same key, called at once. The `Get` reads the maps before the put gets the lock. While the record
of the put is in the file but not yet durable, a `Fetch` finds it, is answered, and the put goes on. -/
def overlapping : List (CallerAction Nat) :=
  [.invoke 0 (.mutate (.applyPut [0x6b] [0x76] 0 [])), .invoke 1 (.get [0x6b] 0), .rlock 1, .look 1 [], .runlock 1,
    .engine (.lock 0 (.applyPut [0x6b] [0x76] 0 [])), .engine (.check 0), .engine (.buffer 0), .invoke 2 (.fetch 1 10),
    .engine (.locate 2 1 10), .engine (.stat 2), .engine (.syncBegin 0), .engine (.read 2),
    .respond 2 (.records (.ok [⟨1, KindPut, [0x6b], [0x76]⟩])), .engine (.syncEnd 0), .engine (.post 0), .engine (.update 0),
    .engine (.release 0), .respond 1 (.value none), .respond 0 (.outcome (.ok (outcomeAt 1)))]

theorem engine_linearizable_overlapping : ∃ (x : Callers Nat) (L : List (Nat × EngineOp × EngineAnswer)) (e' : Engine),
    runActions Callers.step (Callers.start fresh) overlapping = some x ∧
      Linearizes Engine.Answers fresh (overlapping.filterMap CallerAction.seen) L e' ∧ x.shared.engine.stream = e'.stream := by
  have hrun : (runActions Callers.step (Callers.start fresh) overlapping).isSome = true := by decide +kernel
  obtain ⟨x, hx⟩ := Option.isSome_iff_exists.mp hrun
  have hfits : ∀ a ∈ overlapping, a.Fits := by decide
  obtain ⟨L, e', hlinearizes, hstream⟩ := engine_linearizable keeps_fresh hfits hx
  exact ⟨x, L, e', hx, hlinearizes, hstream⟩

end Uddp

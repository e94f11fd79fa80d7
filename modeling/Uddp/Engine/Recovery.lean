import Uddp.Engine.History

/-!
# Crash recovery

A process stops while one mutation is on its way, at any of the `Stage`s of its `Append`, and the machine
keeps any prefix of the bytes written that has everything durable (`Crash`).

* `Engine.inFlight e c s` : the file of `e` while it executes `c`, at the stage `s`;
* `inFlight_data` : at every stage it is the log of the history and a part of the new frame;
* **`crash_recovery`** : `engine.Open` finds the state before the mutation or the state after it, and a
  clean restart changes nothing.
-/

namespace Uddp
open Uddp.Lib Uddp.Wal

/-! ## The file while a mutation is on its way -/

/-- How far an `Append` has come. -/
inductive Stage
  | started
  | lengthWritten
  | bodyWritten
  | flushed
  | synced
  deriving DecidableEq, Repr

namespace Wal.WAL

/-- The writer of an `Append` after its first buffered write. -/
def outAfterLength (w : WAL) (rec : Record) : BufferedFile :=
  w.out.write (putUint32 (UInt32.ofNat (body (stamp rec w.next)).length)) (none, none)

def outAfterBody (w : WAL) (rec : Record) : BufferedFile :=
  (w.outAfterLength rec).write (body (stamp rec w.next)) (none, none)

def outAfterFlush (w : WAL) (rec : Record) : BufferedFile := (w.outAfterBody rec).flush none

/-- The file during an `Append`. -/
def fileAt (w : WAL) (rec : Record) : Stage → File
  | .started => w.out.file
  | .lengthWritten => (w.outAfterLength rec).file
  | .bodyWritten => (w.outAfterBody rec).file
  | .flushed => (w.outAfterFlush rec).file
  | .synced => ((w.outAfterFlush rec).file.sync none).1

end Wal.WAL

/-- The file of `e` while it executes `c`: a mutation that writes nothing leaves it alone. -/
def Engine.inFlight (e : Engine) (c : Call) (s : Stage) : File :=
  match e.decide c with
  | .write rec => e.log.fileAt rec s
  | _ => e.log.out.file

section Stages
variable {w : WAL} (he : w.out.err = none) (hc : w.out.file.closed = false) (rec : Record)
include he hc

theorem outAfterLength_ok : (w.outAfterLength rec).err = none := BufferedFile.write_ok w.out _ he hc

theorem outAfterBody_handed : Handed w.out (frame (stamp rec w.next)) (w.outAfterBody rec) :=
  (BufferedFile.write_handed w.out _ _).trans (BufferedFile.write_handed _ _ _) (outAfterLength_ok he hc rec)

theorem outAfterBody_ok : (w.outAfterBody rec).err = none :=
  BufferedFile.write_ok _ _ (outAfterLength_ok he hc rec) ((BufferedFile.write_handed w.out _ _).closed.trans hc)

theorem outAfterFlush_handed : Handed w.out (frame (stamp rec w.next)) (w.outAfterFlush rec) := by
  have h := (outAfterBody_handed he hc rec).trans (BufferedFile.flush_handed (w.outAfterBody rec) none)
    (outAfterBody_ok he hc rec)
  rwa [List.append_nil] at h

theorem outAfterFlush_ok : (w.outAfterFlush rec).err = none :=
  BufferedFile.flush_ok _ (outAfterBody_ok he hc rec) ((outAfterBody_handed he hc rec).closed.trans hc)

theorem fileAt_synced : (w.append rec AppendIO.ok).2.out.file = w.fileAt rec .synced := by
  have h₁ := outAfterLength_ok he hc rec
  have h₂ := outAfterBody_ok he hc rec
  have h₃ := outAfterFlush_ok he hc rec
  have c₃ : (w.outAfterFlush rec).file.closed = false := (outAfterFlush_handed he hc rec).closed.trans hc
  unfold WAL.outAfterFlush WAL.outAfterBody WAL.outAfterLength at h₃ c₃
  unfold WAL.outAfterBody WAL.outAfterLength at h₂
  unfold WAL.outAfterLength at h₁
  unfold WAL.append WAL.buffer WAL.flushRound WAL.postSync WAL.fileAt WAL.outAfterFlush WAL.outAfterBody WAL.outAfterLength
  simp only [ AppendIO.ok, h₁, h₂, h₃, File.sync, c₃, Bool.false_eq_true, if_false, if_true]

end Stages

/-- At every stage the file is the log and a part of the new frame, and nothing durable is lost. -/
theorem fileAt_data {w : WAL} {rs : List Record} (h : Holds w rs) (rec : Record) (s : Stage) :
    ∃ q, q <+: frame (stamp rec w.next) ∧ (w.fileAt rec s).data = logBytes rs ++ q ∧
      w.out.file.synced ≤ (w.fileAt rec s).synced := by
  have hgrows : ∀ (p : Bytes) (o : BufferedFile), p <+: frame (stamp rec w.next) → Handed w.out p o →
      ∃ q, q <+: frame (stamp rec w.next) ∧ o.file.data = logBytes rs ++ q ∧ w.out.file.synced ≤ o.file.synced := by
    intro p o hp ho
    obtain ⟨q, hq, hdata⟩ := ho.grows
    rw [h.buf, List.nil_append] at hq
    exact ⟨q, hq.trans hp, by rw [hdata, h.data], ho.synced.ge⟩
  cases s with
  | started => exact ⟨[], List.nil_prefix, by rw [List.append_nil]; exact h.data, le_rfl⟩
  | lengthWritten => exact hgrows _ _ (List.prefix_append _ _) (BufferedFile.write_handed w.out _ _)
  | bodyWritten => exact hgrows _ _ (List.prefix_refl _) (outAfterBody_handed h.err h.opened rec)
  | flushed => exact hgrows _ _ (List.prefix_refl _) (outAfterFlush_handed h.err h.opened rec)
  | synced =>
      obtain ⟨q, hq, hdata, hsync⟩ := hgrows _ _ (List.prefix_refl _) (outAfterFlush_handed h.err h.opened rec)
      have hopen := (outAfterFlush_handed h.err h.opened rec).closed.trans h.opened
      refine ⟨q, hq, ?_, hsync.trans ?_⟩
      · simp only [WAL.fileAt, File.sync, hopen, Bool.false_eq_true, if_false]
        exact hdata
      · simp only [WAL.fileAt, File.sync, hopen, Bool.false_eq_true, if_false]
        exact (w.outAfterFlush rec).file.synced_le

/-! ## Recovery -/

/-- The maps and the next position agree. -/
structure SameState (e e' : Engine) : Prop where
  index : e.index = e'.index
  dedup : e.dedup = e'.dedup
  next : e.log.next = e'.log.next

theorem sameState_of_holds {e e' : Engine} {rs : List Record} (hlog : Holds e.log rs) (htables : e.toTables = tablesOf rs)
    (h' : Represents e' rs) : SameState e e' := by
  have ht : e.toTables = e'.toTables := htables.trans h'.tables.symm
  exact ⟨congrArg Tables.index ht, congrArg Tables.dedup ht, hlog.next.trans h'.holds.next.symm⟩

/-- A file that holds the whole history and a part of one more frame recovers to one of the two histories. -/
theorem open_part {rs : List Record} {r : Record} (hfit : ∀ x ∈ rs ++ [r], Wal.Fits x) (hst : Stamped 1 (rs ++ [r])) {q : Bytes}
    (hq : q <+: frame r) (f : File) (hf : f.data = logBytes rs ++ q) (hc : f.closed = false) :
    ∃ e, (openEngine f).1 = .ok e ∧ (Holds e.log rs ∧ e.toTables = tablesOf rs ∨
      Holds e.log (rs ++ [r]) ∧ e.toTables = tablesOf (rs ++ [r])) := by
  by_cases hwhole : q = frame r
  · have hdata : f.data = logBytes (rs ++ [r]) ++ [] := by rw [hf, hwhole, logBytes_snoc, List.append_nil]
    obtain ⟨e, hopen, hlog, htables, -⟩ := openEngine_log hfit hst (Or.inl rfl) f hdata hc
    exact ⟨e, by rw [hopen], Or.inr ⟨hlog, htables⟩⟩
  · have htorn := torn_of_part (hfit r (by simp)) hq hwhole
    have hstrs := ((stamped_append 1 rs [r]).mp hst).1
    obtain ⟨e, hopen, hlog, htables, -⟩ :=
      openEngine_log (fun x hx => hfit x (List.mem_append_left _ hx)) hstrs htorn f hf hc
    exact ⟨e, by rw [hopen], Or.inl ⟨hlog, htables⟩⟩

theorem crash_data {f f' : File} {d q : Bytes} (h : Crash f f') (hf : f.data = d ++ q) (hd : d.length ≤ f.synced) :
    ∃ q', q' <+: q ∧ f'.data = d ++ q' := by
  have hle : d.length ≤ f'.data.length := hd.trans h.durable
  have hkept := h.kept
  rw [hf] at hkept
  obtain ⟨q', hq'⟩ := List.prefix_of_prefix_length_le (List.prefix_append d q) hkept hle
  rw [← hq'] at hkept
  exact ⟨q', (List.prefix_append_right_inj d).mp hkept, hq'.symm⟩

/-- A crash between two mutations loses nothing. -/
theorem represents_crash_idle {e : Engine} {rs : List Record} (h : Represents e rs) (hfit : ∀ r ∈ rs, Wal.Fits r) {f : File}
    (hcrash : Crash e.log.out.file f) : ∃ e', (openEngine f).1 = .ok e' ∧ Represents e' rs := by
  obtain ⟨q, hq, hf⟩ := crash_data hcrash (q := []) (by rw [List.append_nil, h.holds.data]) (by rw [h.durable, h.holds.data])
  rw [List.prefix_nil.mp hq] at hf
  obtain ⟨e', hopen, hlog, htables, hsync⟩ := openEngine_log hfit h.holds.stamped (Or.inl rfl) f hf hcrash.reopened
  refine ⟨e', by rw [hopen], hlog, htables, ?_⟩
  have hsynced := hcrash.synced
  rw [h.durable, h.holds.data] at hsynced
  rw [hsync, hlog.data, Nat.min_eq_right hsynced]

/-- **Recovery from one crash**: before or after the mutation that was on its way. -/
theorem represents_crash {e : Engine} {rs : List Record} (h : Represents e rs) (hfit : ∀ r ∈ rs, Wal.Fits r) {c : Call}
    (hc : c.Fits) {s : Stage} {f : File} (hcrash : Crash (e.inFlight c s) f) :
    ∃ e', (openEngine f).1 = .ok e' ∧ (SameState e' e ∨ SameState e' (step e c).2) := by
  have hdurable : (logBytes rs).length ≤ e.log.out.file.synced := by rw [h.durable, h.holds.data]
  have hafter := (step_represents h c).2
  unfold Engine.inFlight at hcrash
  unfold answer at hafter
  rw [← h.tables] at hafter
  cases hd : e.decide c with
  | write rec =>
      rw [hd] at hcrash hafter
      obtain ⟨q, hq, hdata, hsync⟩ := fileAt_data h.holds rec s
      obtain ⟨q', hq', hf⟩ := crash_data hcrash hdata (hdurable.trans hsync)
      have hfits : ∀ x ∈ rs ++ [stamp rec (nextPosition rs)], Wal.Fits x := by
        rw [Tables.decide_write hd]
        exact fits_snoc hfit hc _
      rw [show e.log.next = nextPosition rs from h.holds.next] at hq
      obtain ⟨e', hopen, hbefore | hlater⟩ := open_part hfits (stamped_snoc h.holds.stamped rec) (hq'.trans hq) f hf
        hcrash.reopened
      · exact ⟨e', hopen, Or.inl (sameState_of_holds hbefore.1 hbefore.2 h)⟩
      · exact ⟨e', hopen, Or.inr (sameState_of_holds hlater.1 hlater.2 hafter)⟩
  | hit out =>
      rw [hd] at hcrash
      obtain ⟨e', hopen, he'⟩ := represents_crash_idle h hfit hcrash
      exact ⟨e', hopen, Or.inl (sameState_of_holds he'.holds he'.tables h)⟩
  | conflict =>
      rw [hd] at hcrash
      obtain ⟨e', hopen, he'⟩ := represents_crash_idle h hfit hcrash
      exact ⟨e', hopen, Or.inl (sameState_of_holds he'.holds he'.tables h)⟩

/-- Two engines with one history answer every later mutation alike. -/
theorem run_agree {e e' : Engine} {rs : List Record} (h : Represents e rs) (h' : Represents e' rs) (later : List Call) :
    (run step e later).1 = (run step e' later).1 ∧ SameState (run step e later).2 (run step e' later).2 := by
  obtain ⟨hout, hlast⟩ := run_represents h later
  obtain ⟨hout', hlast'⟩ := run_represents h' later
  exact ⟨hout.trans hout'.symm, sameState_of_holds hlast.holds hlast.tables hlast'⟩

/-- **Crash recovery.** After any run of mutations `cs` that were all acknowledged, the process stops at any
stage of one more mutation `c` and the machine keeps any prefix of the file that has everything durable:
`engine.Open` finds the state after `cs` or the one after `cs` and `c`. A clean `Close` and `engine.Open` gives back the
state after `cs`, and every later run of mutations is answered as if there had been no restart. -/
theorem crash_recovery (cs : List Call) (hcs : ∀ c ∈ cs, c.Fits) :
    (∀ c : Call, c.Fits → ∀ (s : Stage) (f : File), Crash ((run step fresh cs).2.inFlight c s) f →
      ∃ e', (openEngine f).1 = .ok e' ∧
        (SameState e' (run step fresh cs).2 ∨ SameState e' (run step fresh (cs ++ [c])).2)) ∧
    ((run step fresh cs).2.log.close none none).1 = none ∧
    ∃ e', (run step fresh cs).2.restart = .ok e' ∧ SameState e' (run step fresh cs).2 ∧
      ∀ later : List Call, (run step e' later).1 = (run step (run step fresh cs).2 later).1 ∧
        SameState (run step e' later).2 (run step (run step fresh cs).2 later).2 := by
  have h := (run_represents represents_fresh cs).2
  have hfit : ∀ r ∈ (run answer [] cs).2, Wal.Fits r := run_answer_fits hcs (by simp)
  refine ⟨?_, ?_, ?_⟩
  · intro c hc s f hcrash
    rw [run_append]
    exact represents_crash h hfit hc hcrash
  · exact (close_holds h.holds).1
  · obtain ⟨e', hrestart, h'⟩ := restart_represents h hfit
    exact ⟨e', hrestart, sameState_of_holds h'.holds h'.tables h, fun later => run_agree h' h later⟩

theorem crash_reopen (f : File) : Crash f (reopen f) := ⟨List.prefix_refl _, f.synced_le, le_rfl, rfl⟩

/-- One put acknowledged, a delete stopped behind its flush. -/
theorem crash_recovery_put_delete :
    ∃ e', (openEngine (reopen ((run step fresh [.applyPut [0x6b] [0x76] 0 []]).2.inFlight (.delete [0x6b] []) .flushed))).1 =
        .ok e' ∧
      (SameState e' (run step fresh [.applyPut [0x6b] [0x76] 0 []]).2 ∨
        SameState e' (run step fresh ([.applyPut [0x6b] [0x76] 0 []] ++ [.delete [0x6b] []])).2) :=
  (crash_recovery [.applyPut [0x6b] [0x76] 0 []] (by decide)).1 (.delete [0x6b] []) (by decide) .flushed _ (crash_reopen _)

end Uddp

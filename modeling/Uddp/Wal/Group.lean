import Uddp.Lib.Machine
import Uddp.Wal.Append

/-!
# Concurrent callers of `Append`

Any number of callers are inside `Append` at once. Each of the steps below is what one of them does while it holds the
lock, or what the operating system does to the fsync that the leader runs without it.

* `Group ι` : the log, where each caller is (`Phase`), and two ghosts: the callers in the order in which they took
  their positions, and the length that the file had when each successful fsync began;
* `Group.step` : one critical section, or the begin or the end of an fsync;
* **`append_alone`** : `WAL.append` is what the machine does for a caller that is alone.
-/

namespace Uddp.Wal
open Uddp.Lib

/-! ## The machine -/

/-- Where a caller of `Append` is. Positions and sequence numbers are its local variables. -/
inductive Phase
  | idle
  /-- A follower, in `cond.Wait`. -/
  | waiting (position : UInt64) (mySeq : Nat)
  /-- The leader has flushed everything up to `flushSeq` and given the lock back. -/
  | flushed (position : UInt64) (mySeq flushSeq : Nat)
  /-- Its fsync is running; the file had `begun` bytes when it began. -/
  | syncing (position : UInt64) (mySeq flushSeq begun : Nat)
  /-- Its fsync has ended and it waits for the lock. -/
  | synced (position : UInt64) (mySeq flushSeq : Nat) (syncErr : Option String)
  /-- Its flush has failed; it has given the lock back and not yet read `flushErr`. -/
  | flushFailed
  | returned (r : Except AppendError UInt64)
  deriving Repr

structure Group (ι : Type) where
  w : WAL
  phase : ι → Phase
  /-- Ghost: the callers in the order of arrival, with their records. -/
  arrivals : List (ι × Record)
  /-- Ghost: how long the file was when each successful fsync began. -/
  syncs : List Nat

inductive Action (ι : Type)
  | enter (i : ι) (rec : Record) (lenWrite bodyWrite : WriteFault × WriteFault) (flush : WriteFault)
  | syncBegin (i : ι)
  | syncEnd (i : ι) (syncErr : Option String)
  | post (i : ι) (flush : WriteFault)
  | wake (i : ι)
  | readErr (i : ι)
  | close (flush : WriteFault) (closeErr : Option String)

/-- An fsync that began when the file had `n` bytes has succeeded. -/
def syncedTo (f : File) (n : Nat) : File :=
  { f with synced := max f.synced (min n f.data.length), synced_le := max_le f.synced_le (min_le_right _ _) }

/-- The log that has taken a record into its buffer. -/
def WAL.taken (w : WAL) (rec : Record) (o : BufferedFile) : WAL :=
  { w with next := w.next + 1, out := o, writeOffset := w.writeOffset + (frame (stamp rec w.next)).length
           byteOffsets := w.byteOffsets ++ [w.writeOffset], pendingSeq := w.pendingSeq + 1 }

namespace Group

variable {ι : Type} [DecidableEq ι]

/-- Every caller is idle. -/
def start (w : WAL) : Group ι := ⟨w, fun _ => .idle, [], []⟩

/-- Caller `i` goes to the phase `p`. -/
def goto (s : Group ι) (i : ι) (p : Phase) : Group ι := { s with phase := Function.update s.phase i p }

/-- The top of the leader's loop. -/
def lead (s : Group ι) (i : ι) (position : UInt64) (mySeq : Nat) (flush : WriteFault) : Group ι :=
  match s.w.flushRound flush with
  | (some _, w) => { s with w := w }.goto i .flushFailed
  | (none, w) => { s with w := w }.goto i (.flushed position mySeq w.pendingSeq)

/-- From the first `Lock` on: buffer the record, then wait for the leader or become it. -/
def enter (s : Group ι) (i : ι) (rec : Record) (lenWrite bodyWrite : WriteFault × WriteFault) (flush : WriteFault) :
    Group ι :=
  let arrivals := s.arrivals ++ [(i, stamp rec s.w.next)]
  match s.w.buffer rec lenWrite bodyWrite with
  | (.error e, w) => { s with w := w, arrivals := arrivals }.goto i (.returned (.error e))
  | (.ok (position, mySeq), w) =>
      if w.leading then { s with w := w, arrivals := arrivals }.goto i (.waiting position mySeq)
      else { s with w := { w with leading := true }, arrivals := arrivals }.lead i position mySeq flush

/-- The end of an fsync. -/
def syncEnd (s : Group ι) (i : ι) (position : UInt64) (mySeq flushSeq begun : Nat) (syncErr : Option String) : Group ι :=
  if s.w.out.file.closed then s.goto i (.synced position mySeq flushSeq (some errClosed))
  else
    match syncErr with
    | some e => s.goto i (.synced position mySeq flushSeq (some e))
    | none =>
        { s with w := { s.w with out := { s.w.out with file := syncedTo s.w.out.file begun } }
                 syncs := s.syncs ++ [begun] }.goto i (.synced position mySeq flushSeq none)

/-- From the `Lock` after the fsync on. -/
def post (s : Group ι) (i : ι) (position : UInt64) (mySeq flushSeq : Nat) (syncErr : Option String) (flush : WriteFault) :
    Group ι :=
  match s.w.postSync flushSeq syncErr with
  | (.failed e, w) => { s with w := w }.goto i (.returned (.error e))
  | (.stepDown, w) => { s with w := w }.goto i (.returned (.ok position))
  | (.again, w) => { s with w := w }.lead i position mySeq flush

/-- What a follower returns once it is covered. -/
def followerResult (w : WAL) (position : UInt64) : Except AppendError UInt64 :=
  match w.flushErr with
  | some e => .error e
  | none => .ok position

def step (s : Group ι) : Action ι → Option (Group ι)
  | .enter i rec lenWrite bodyWrite flush =>
      match s.phase i with
      | .idle => some (s.enter i rec lenWrite bodyWrite flush)
      | _ => none
  | .syncBegin i =>
      match s.phase i with
      | .flushed position mySeq flushSeq => some (s.goto i (.syncing position mySeq flushSeq s.w.out.file.data.length))
      | _ => none
  | .syncEnd i syncErr =>
      match s.phase i with
      | .syncing position mySeq flushSeq begun => some (s.syncEnd i position mySeq flushSeq begun syncErr)
      | _ => none
  | .post i flush =>
      match s.phase i with
      | .synced position mySeq flushSeq syncErr => some (s.post i position mySeq flushSeq syncErr flush)
      | _ => none
  | .wake i =>
      match s.phase i with
      | .waiting position mySeq =>
          if s.w.flushedSeq < mySeq then none else some (s.goto i (.returned (followerResult s.w position)))
      | _ => none
  | .readErr i =>
      match s.phase i with
      -- `return 0, w.flushErr` after the unlock: position 0 should the error be gone by then
      | .flushFailed => some (s.goto i (.returned (followerResult s.w 0)))
      | _ => none
  | .close flush closeErr => if s.w.leading then none else some { s with w := (s.w.close flush closeErr).2 }

/-! ### When a step is enabled, and what it then does -/

section Enabled
variable {s s' : Group ι} {i : ι}

theorem step_enter {rec : Record} {l b : WriteFault × WriteFault} {flush : WriteFault}
    (h : s.step (.enter i rec l b flush) = some s') : s.phase i = .idle ∧ s' = s.enter i rec l b flush := by
  simp only [step] at h
  split at h
  · next hidle => exact ⟨hidle, (Option.some.inj h).symm⟩
  · exact absurd h (by simp)

theorem step_syncBegin (h : s.step (.syncBegin i) = some s') : ∃ position mySeq flushSeq,
    s.phase i = .flushed position mySeq flushSeq ∧
      s' = s.goto i (.syncing position mySeq flushSeq s.w.out.file.data.length) := by
  simp only [step] at h
  split at h
  · next position mySeq flushSeq hi => exact ⟨position, mySeq, flushSeq, hi, (Option.some.inj h).symm⟩
  · exact absurd h (by simp)

theorem step_syncEnd {syncErr : Option String} (h : s.step (.syncEnd i syncErr) = some s') :
    ∃ position mySeq flushSeq begun, s.phase i = .syncing position mySeq flushSeq begun ∧
      s' = s.syncEnd i position mySeq flushSeq begun syncErr := by
  simp only [step] at h
  split at h
  · next position mySeq flushSeq begun hi => exact ⟨position, mySeq, flushSeq, begun, hi, (Option.some.inj h).symm⟩
  · exact absurd h (by simp)

theorem step_post {flush : WriteFault} (h : s.step (.post i flush) = some s') :
    ∃ position mySeq flushSeq syncErr, s.phase i = .synced position mySeq flushSeq syncErr ∧
      s' = s.post i position mySeq flushSeq syncErr flush := by
  simp only [step] at h
  split at h
  · next position mySeq flushSeq syncErr hi => exact ⟨position, mySeq, flushSeq, syncErr, hi, (Option.some.inj h).symm⟩
  · exact absurd h (by simp)

theorem step_wake (h : s.step (.wake i) = some s') : ∃ position mySeq, s.phase i = .waiting position mySeq ∧
    mySeq ≤ s.w.flushedSeq ∧ s' = s.goto i (.returned (followerResult s.w position)) := by
  simp only [step] at h
  split at h
  · next position mySeq hi =>
    split at h
    · exact absurd h (by simp)
    · next hle => exact ⟨position, mySeq, hi, Nat.le_of_not_lt hle, (Option.some.inj h).symm⟩
  · exact absurd h (by simp)

theorem step_readErr (h : s.step (.readErr i) = some s') :
    s.phase i = .flushFailed ∧ s' = s.goto i (.returned (followerResult s.w 0)) := by
  simp only [step] at h
  split at h
  · next hi => exact ⟨hi, (Option.some.inj h).symm⟩
  · exact absurd h (by simp)

theorem step_close {flush : WriteFault} {closeErr : Option String} (h : s.step (.close flush closeErr) = some s') :
    s.w.leading = false ∧ s' = { s with w := (s.w.close flush closeErr).2 } := by
  simp only [step] at h
  split at h
  · exact absurd h (by simp)
  · next hleading => exact ⟨by simpa using hleading, (Option.some.inj h).symm⟩

end Enabled

/-! ### What the critical sections do to the group -/

section Outcomes
variable (s : Group ι) (i : ι)

theorem lead_spec (position : UInt64) (mySeq : Nat) (flush : WriteFault) : ∃ o, Handed s.w.out [] o ∧
    ((∃ e, o.err = some e ∧ s.lead i position mySeq flush = { s with w := { s.w with
        out := o, leading := false, flushErr := some (.flush e), flushedSeq := s.w.pendingSeq } }.goto i .flushFailed) ∨
      o.err = none ∧ o.buf = [] ∧ s.w.flushRound flush = (none, { s.w with out := o }) ∧
        s.lead i position mySeq flush =
          { s with w := { s.w with out := o } }.goto i (.flushed position mySeq s.w.pendingSeq)) := by
  obtain ⟨o, ho, hcases⟩ := s.w.flushRound_spec flush
  refine ⟨o, ho, ?_⟩
  unfold lead
  rcases hcases with ⟨e, he, hflush⟩ | ⟨he, hbuf, hflush⟩
  · exact Or.inl ⟨e, he, by rw [hflush]⟩
  · exact Or.inr ⟨he, hbuf, hflush, by rw [hflush]⟩

/-- A caller whose record does not get into the buffer leaves at once; the others wait or lead. -/
theorem enter_spec (rec : Record) (l b : WriteFault × WriteFault) (flush : WriteFault) :
    ∃ o, Handed s.w.out (frame (stamp rec s.w.next)) o ∧
      ((∃ e, o.err ≠ none ∧ s.enter i rec l b flush = { s with
          w := { s.w with next := s.w.next + 1, out := o }
          arrivals := s.arrivals ++ [(i, stamp rec s.w.next)] }.goto i (.returned (.error e))) ∨
        o.err = none ∧ s.w.buffer rec l b = (.ok (s.w.next, s.w.pendingSeq + 1), s.w.taken rec o) ∧
          (s.w.leading = true ∧ s.enter i rec l b flush = { s with
              w := s.w.taken rec o, arrivals := s.arrivals ++ [(i, stamp rec s.w.next)] }.goto i
                (.waiting s.w.next (s.w.pendingSeq + 1)) ∨
            s.w.leading = false ∧ s.enter i rec l b flush = { s with
              w := { s.w.taken rec o with leading := true }, arrivals := s.arrivals ++ [(i, stamp rec s.w.next)] }.lead i
                s.w.next (s.w.pendingSeq + 1) flush)) := by
  obtain ⟨o, ho, hcases⟩ := s.w.buffer_spec rec l b
  refine ⟨o, ho, ?_⟩
  unfold enter
  rcases hcases with ⟨e, he, hbuf | hbuf⟩ | ⟨he, hbuf⟩
  · exact Or.inl ⟨.writeLength e, by simp [he], by rw [hbuf]⟩
  · exact Or.inl ⟨.writeBody e, by simp [he], by rw [hbuf]⟩
  · refine Or.inr ⟨he, hbuf, ?_⟩
    rw [hbuf]
    by_cases hleading : s.w.leading = true
    · exact Or.inl ⟨hleading, if_pos hleading⟩
    · exact Or.inr ⟨by simpa using hleading, if_neg hleading⟩

theorem syncEnd_spec (position : UInt64) (mySeq flushSeq begun : Nat) (syncErr : Option String) :
    (∃ e, s.syncEnd i position mySeq flushSeq begun syncErr = s.goto i (.synced position mySeq flushSeq (some e))) ∨
      s.syncEnd i position mySeq flushSeq begun syncErr = { s with
        w := { s.w with out := { s.w.out with file := syncedTo s.w.out.file begun } }
        syncs := s.syncs ++ [begun] }.goto i (.synced position mySeq flushSeq none) := by
  unfold syncEnd
  split
  · exact Or.inl ⟨_, rfl⟩
  · cases syncErr with
    | some e => exact Or.inl ⟨e, rfl⟩
    | none => exact Or.inr rfl

/-- A leader whose fsync has failed leaves, one that has synced everything steps down, and any other leads again. -/
theorem post_spec (position : UInt64) (mySeq flushSeq : Nat) (syncErr : Option String) (flush : WriteFault) :
    (∃ e, s.post i position mySeq flushSeq syncErr flush = { s with w := { s.w with
        flushErr := some (.fsync e), flushedSeq := s.w.pendingSeq, leading := false } }.goto i
          (.returned (.error (.fsync e)))) ∨
      syncErr = none ∧
        (s.w.pendingSeq = flushSeq ∧ s.post i position mySeq flushSeq syncErr flush = { s with w := { s.w with
            flushedSeq := flushSeq, flushErr := none, leading := false } }.goto i (.returned (.ok position)) ∨
          s.post i position mySeq flushSeq syncErr flush = { s with w := { s.w with
            flushedSeq := flushSeq, flushErr := none } }.lead i position mySeq flush) := by
  unfold post WAL.postSync
  cases syncErr with
  | some e => exact Or.inl ⟨e, rfl⟩
  | none =>
      refine Or.inr ⟨rfl, ?_⟩
      by_cases hall : s.w.pendingSeq = flushSeq
      · exact Or.inl ⟨hall, by simp only [if_pos hall]⟩
      · exact Or.inr (by simp only [if_neg hall])

end Outcomes

end Group

/-! ## A caller that is alone -/

section Alone
variable {ι : Type} [DecidableEq ι]

theorem syncedTo_all (f : File) (hc : f.closed = false) : (f.sync none).1 = syncedTo f f.data.length := by
  unfold File.sync syncedTo
  simp [hc, f.synced_le]

theorem goto_self (s : Group ι) (i : ι) (p : Phase) : (s.goto i p).phase i = p := by
  show Function.update s.phase i p i = p
  rw [Function.update_self]

theorem goto_of_ne (s : Group ι) {i j : ι} (h : j ≠ i) (p : Phase) : (s.goto i p).phase j = s.phase j :=
  Function.update_of_ne h _ _

theorem lead_flush_failed (g : Group ι) (i : ι) (position : UInt64) (mySeq : Nat) {flush : WriteFault} {e : AppendError} {w : WAL}
    (hflush : g.w.flushRound flush = (some e, w)) (he : w.flushErr = some e) :
    ∃ s, runActions Group.step (g.lead i position mySeq flush) [.readErr i] = some s ∧
      s.phase i = .returned (.error e) ∧ s.w = w := by
  obtain ⟨g₁, hg₁⟩ : ∃ g₁ : Group ι, g₁ = { g with w := w }.goto i .flushFailed := ⟨_, rfl⟩
  have hw₁ : g₁.w = w := by rw [hg₁]; rfl
  have hlead : g.lead i position mySeq flush = g₁ := by
    unfold Group.lead
    rw [hflush, hg₁]
  have hread : g₁.step (.readErr i) = some (g₁.goto i (.returned (.error e))) := by
    have hphase : g₁.phase i = .flushFailed := by rw [hg₁, goto_self]
    simp only [Group.step, hphase, Group.followerResult, hw₁, he]
  rw [hlead, runActions_cons Group.step hread]
  exact ⟨_, rfl, goto_self _ _ _, hw₁⟩

theorem lead_synced (g : Group ι) (i : ι) (position : UInt64) (mySeq : Nat) {flush : WriteFault} {w : WAL}
    (hflush : g.w.flushRound flush = (none, w)) (hc : w.out.file.closed = false) (sync : Option String) :
    ∃ s, runActions Group.step (g.lead i position mySeq flush) [.syncBegin i, .syncEnd i sync, .post i none] = some s ∧
      (∀ e, sync = some e → s.phase i = .returned (.error (.fsync e)) ∧
        s.w = { w with flushErr := some (.fsync e), flushedSeq := w.pendingSeq, leading := false }) ∧
      (sync = none → s.phase i = .returned (.ok position) ∧
        s.w = { w with out := { w.out with file := syncedTo w.out.file w.out.file.data.length }, flushErr := none
                       flushedSeq := w.pendingSeq, leading := false }) := by
  obtain ⟨g₁, hg₁⟩ : ∃ g₁ : Group ι, g₁ = { g with w := w }.goto i (.flushed position mySeq w.pendingSeq) := ⟨_, rfl⟩
  obtain ⟨g₂, hg₂⟩ : ∃ g₂ : Group ι, g₂ = g₁.goto i (.syncing position mySeq w.pendingSeq w.out.file.data.length) := ⟨_, rfl⟩
  have hw₁ : g₁.w = w := by rw [hg₁]; rfl
  have hw₂ : g₂.w = w := by rw [hg₂, ← hw₁]; rfl
  have hlead : g.lead i position mySeq flush = g₁ := by
    unfold Group.lead
    rw [hflush, hg₁]
  have hbegin : g₁.step (.syncBegin i) = some g₂ := by
    have hphase : g₁.phase i = .flushed position mySeq w.pendingSeq := by rw [hg₁, goto_self]
    simp only [Group.step, hphase, hg₂, hw₁]
  have hphase₂ : g₂.phase i = .syncing position mySeq w.pendingSeq w.out.file.data.length := by rw [hg₂, goto_self]
  rw [hlead, runActions_cons Group.step hbegin]
  cases sync with
  | some e =>
      have hend : g₂.step (.syncEnd i (some e)) = some (g₂.goto i (.synced position mySeq w.pendingSeq (some e))) := by
        simp only [Group.step, hphase₂, Group.syncEnd, hw₂, hc, Bool.false_eq_true, if_false]
      have hpost : (g₂.goto i (.synced position mySeq w.pendingSeq (some e))).step (.post i none) =
          some ({ g₂ with w := { g₂.w with flushErr := some (.fsync e), flushedSeq := g₂.w.pendingSeq, leading := false } }.goto i
            (.synced position mySeq w.pendingSeq (some e)) |>.goto i (.returned (.error (.fsync e)))) := by
        simp only [Group.step, goto_self]
        rfl
      rw [runActions_cons Group.step hend, runActions_cons Group.step hpost]
      refine ⟨_, rfl, fun e' he' => ?_, fun hn => by cases hn⟩
      cases he'
      refine ⟨goto_self _ _ _, ?_⟩
      rw [← hw₂]
      rfl
  | none =>
      obtain ⟨g₃, hg₃⟩ : ∃ g₃ : Group ι, g₃ = { g₂ with
        w := { w with out := { w.out with file := syncedTo w.out.file w.out.file.data.length } }
        syncs := g₂.syncs ++ [w.out.file.data.length] }.goto i (.synced position mySeq w.pendingSeq none) := ⟨_, rfl⟩
      have hend : g₂.step (.syncEnd i none) = some g₃ := by
        simp only [Group.step, hphase₂, Group.syncEnd, hw₂, hc, Bool.false_eq_true, if_false, hg₃]
      have hphase₃ : g₃.phase i = .synced position mySeq w.pendingSeq none := by rw [hg₃, goto_self]
      have hpost : g₃.step (.post i none) = some (g₃.post i position mySeq w.pendingSeq none none) := by
        simp only [Group.step, hphase₃]
      have hdone : g₃.post i position mySeq w.pendingSeq none none =
          { g₃ with w := { g₃.w with flushedSeq := w.pendingSeq, flushErr := none, leading := false } }.goto i
            (.returned (.ok position)) := by
        have hpend : g₃.w.pendingSeq = w.pendingSeq := by rw [hg₃]; rfl
        unfold Group.post WAL.postSync
        simp only [hpend, if_true]
      rw [runActions_cons Group.step hend, runActions_cons Group.step hpost, hdone]
      refine ⟨_, rfl, fun e he => (by cases he), fun _ => ⟨goto_self _ _ _, ?_⟩⟩
      rw [hg₃]
      rfl

/-- **`WAL.append`** is what the machine does when one caller goes through it alone. -/
theorem append_alone {w : WAL} {rs : List Record} (h : Holds w rs) (i : ι) (rec : Record) (io : AppendIO) :
    ∃ (as : List (Action ι)) (s : Group ι), runActions Group.step (Group.start w) as = some s ∧
      s.phase i = .returned (w.append rec io).1 ∧ s.w = (w.append rec io).2 := by
  obtain ⟨o, ho, hbuf⟩ := w.buffer_spec rec io.lenWrite io.bodyWrite
  have henter : (Group.start w : Group ι).step (.enter i rec io.lenWrite io.bodyWrite io.flush) =
      some ((Group.start w).enter i rec io.lenWrite io.bodyWrite io.flush) := rfl
  unfold WAL.append
  rcases hbuf with ⟨e, -, hbuf⟩ | ⟨he, hbuf⟩
  · -- a buffered write fails
    rcases hbuf with hbuf | hbuf
    all_goals
      refine ⟨_, _, runActions_cons Group.step henter [], ?_, ?_⟩
      · unfold Group.enter
        simp only [Group.start, hbuf, goto_self]
      · unfold Group.enter
        simp only [Group.start, hbuf]
        rfl
  · obtain ⟨w₁, hw₁⟩ : ∃ w₁, w₁ = { w with
        next := w.next + 1, out := o, writeOffset := w.writeOffset + (frame (stamp rec w.next)).length
        byteOffsets := w.byteOffsets ++ [w.writeOffset], pendingSeq := w.pendingSeq + 1 } := ⟨_, rfl⟩
    rw [← hw₁] at hbuf
    have hquiet : w₁.leading = false := by
      rw [hw₁]
      exact h.quiet
    obtain ⟨g, hg⟩ : ∃ g : Group ι, g = { (Group.start w) with
        w := { w₁ with leading := true }, arrivals := [] ++ [(i, stamp rec w.next)] } := ⟨_, rfl⟩
    have hlead : (Group.start w : Group ι).enter i rec io.lenWrite io.bodyWrite io.flush =
        g.lead i w.next (w.pendingSeq + 1) io.flush := by
      unfold Group.enter
      simp only [Group.start, hbuf, hquiet, Bool.false_eq_true, if_false, hg]
    have hgw : g.w = { w₁ with leading := true } := by rw [hg]
    have hopen : g.w.out.file.closed = false := by
      rw [hgw, hw₁]
      exact ho.closed.trans h.opened
    rw [hlead] at henter
    rw [hbuf]
    dsimp only
    rw [← hgw]
    obtain ⟨o₂, ho₂, hflush⟩ := g.w.flushRound_spec io.flush
    rcases hflush with ⟨e, -, hflush⟩ | ⟨he₂, -, hflush⟩
    · obtain ⟨s, hs, hphase, hw⟩ := lead_flush_failed g i w.next (w.pendingSeq + 1) hflush rfl
      refine ⟨_ :: [.readErr i], s, (runActions_cons Group.step henter _).trans hs, ?_, ?_⟩
      · rw [hphase, hflush]
      · rw [hw, hflush]
    · have hclosed : o₂.file.closed = false := ho₂.closed.trans hopen
      obtain ⟨s, hs, hfail, hok⟩ := lead_synced g i w.next (w.pendingSeq + 1) hflush hclosed io.sync
      refine ⟨_ :: _, s, (runActions_cons Group.step henter _).trans hs, ?_⟩
      rw [hflush]
      dsimp only
      cases hsync : io.sync with
      | some e =>
          obtain ⟨hphase, hw⟩ := hfail e hsync
          simp only [File.sync, hclosed, Bool.false_eq_true, if_false, WAL.postSync]
          exact ⟨hphase, hw⟩
      | none =>
          obtain ⟨hphase, hw⟩ := hok hsync
          rw [← syncedTo_all _ hclosed] at hw
          simp only [File.sync, hclosed, Bool.false_eq_true, if_false, WAL.postSync, if_true] at hw ⊢
          exact ⟨hphase, hw⟩

end Alone

end Uddp.Wal

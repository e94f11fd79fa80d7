import Uddp.Wal.Progress

/-!
# Sleepers and wakeups

In `Group` a follower can go on whenever its record is covered. In the source it sleeps in `cond.Wait` until a `Broadcast`, and
so does a caller of `Close` while somebody leads. Here is the group with its sleepers.

* `Group.broadcasts` : the critical sections with a `Broadcast`;
* `Monitor`, `Monitor.step` : the group, the callers of `Close`, and who is asleep;
* `step_group`, `run_group` : to the log it is all the same, a run of the group;
* `Alert` : whoever sleeps has a reason to; **`alert_step`** : no wakeup is lost;
* `again_step`, `recheck_step` : nobody wakes without a `Broadcast`;
* **`sleepers_return`** : every `Append` and every `Close` returns.
-/

namespace Uddp.Wal
open Uddp.Lib

variable {ι κ : Type}

/-! ## The machine -/

/-- The condition of the loop around `cond.Wait` in `Append`. -/
def Phase.sleeps (flushedSeq : Nat) : Phase → Bool
  | .waiting _ mySeq => flushedSeq < mySeq
  | _ => false

/-- A call of `Close`. -/
inductive Closer
  | idle
  /-- In the `cond.Wait` of the loop `for w.leading`. -/
  | asleep
  /-- There has been a `Broadcast` since. -/
  | awake
  | returned (err : Option String)
  deriving DecidableEq, Repr

def Closer.woken : Closer → Closer
  | .asleep => .awake
  | p => p

structure Monitor (ι κ : Type) where
  group : Group ι
  /-- The followers in `cond.Wait` without a `Broadcast` since. -/
  asleep : ι → Bool
  closer : κ → Closer

inductive WaitAction (ι κ : Type)
  /-- A step of `Append`; the wakeup of a follower is one only if its record is covered. -/
  | append (a : Action ι)
  /-- A follower that has been woken finds that its record is not covered, and waits again. -/
  | again (i : ι)
  /-- `Close` is called. -/
  | call (c : κ) (flush : WriteFault) (closeErr : Option String)
  /-- `Close` has been woken, and looks for a leader again. -/
  | recheck (c : κ) (flush : WriteFault) (closeErr : Option String)

section Machine
variable [DecidableEq ι] [DecidableEq κ]

/-- There is a `Broadcast` behind a flush that fails, and behind every fsync, whether it fails or not. -/
def Group.broadcasts (s : Group ι) : Action ι → Bool
  | .enter i rec lenWrite bodyWrite flush =>
      match (s.enter i rec lenWrite bodyWrite flush).phase i with
      | .flushFailed => true
      | _ => false
  | .post _ _ => true
  | _ => false

namespace Monitor

def start (w : WAL) : Monitor ι κ := ⟨Group.start w, fun _ => false, fun _ => .idle⟩

/-- Only a follower that has been woken wakes, and `Close` has steps of its own. -/
def ready (m : Monitor ι κ) : Action ι → Bool
  | .wake i => !m.asleep i
  | .close _ _ => false
  | _ => true

/-- After a step of `Append` that has led to `g`. -/
def after (m : Monitor ι κ) (g : Group ι) (a : Action ι) : Monitor ι κ :=
  -- the lock is held to the end of the step: whoever wakes finds `leading` as it is then, though the source clears it behind
  -- the `Broadcast`
  if m.group.broadcasts a then ⟨g, fun _ => false, fun c => (m.closer c).woken⟩
  else
    match a with
    | .enter i _ _ _ _ => { m with group := g, asleep := Function.update m.asleep i ((g.phase i).sleeps g.w.flushedSeq) }
    | _ => { m with group := g }

/-- The loop of `Close`, and what comes after it. -/
def tryClose (m : Monitor ι κ) (c : κ) (flush : WriteFault) (closeErr : Option String) : Monitor ι κ :=
  if m.group.w.leading then { m with closer := Function.update m.closer c .asleep }
  else
    { m with group := { m.group with w := (m.group.w.close flush closeErr).2 }
             closer := Function.update m.closer c (.returned (m.group.w.close flush closeErr).1) }

def step (m : Monitor ι κ) : WaitAction ι κ → Option (Monitor ι κ)
  | .append a => if m.ready a then (m.group.step a).map fun g => m.after g a else none
  | .again i =>
      if (m.group.phase i).sleeps m.group.w.flushedSeq && !m.asleep i then
        some { m with asleep := Function.update m.asleep i true }
      else none
  | .call c flush closeErr =>
      match m.closer c with
      | .idle => some (m.tryClose c flush closeErr)
      | _ => none
  | .recheck c flush closeErr =>
      match m.closer c with
      | .awake => some (m.tryClose c flush closeErr)
      | _ => none

end Monitor

/-! ### When a step is enabled, and what it then does -/

section Enabled
variable {m m' : Monitor ι κ}

theorem step_append {a : Action ι} (h : m.step (.append a) = some m') : m.ready a = true ∧
    ∃ g, m.group.step a = some g ∧ m' = m.after g a := by
  simp only [Monitor.step] at h
  split at h
  · next hready =>
    obtain ⟨g, hg, hm'⟩ := Option.map_eq_some_iff.mp h
    exact ⟨hready, g, hg, hm'.symm⟩
  · cases h

theorem step_again {i : ι} (h : m.step (.again i) = some m') :
    (m.group.phase i).sleeps m.group.w.flushedSeq = true ∧ m.asleep i = false ∧
      m' = { m with asleep := Function.update m.asleep i true } := by
  simp only [Monitor.step] at h
  split at h
  · next hcond =>
    obtain ⟨hsleeps, hawake⟩ := Bool.and_eq_true_iff.mp hcond
    exact ⟨hsleeps, by simpa using hawake, (Option.some.inj h).symm⟩
  · cases h

theorem step_call {c : κ} {flush : WriteFault} {closeErr : Option String}
    (h : m.step (.call c flush closeErr) = some m') : m.closer c = .idle ∧ m' = m.tryClose c flush closeErr := by
  simp only [Monitor.step] at h
  split at h
  · next hc => exact ⟨hc, (Option.some.inj h).symm⟩
  · cases h

theorem step_recheck {c : κ} {flush : WriteFault} {closeErr : Option String}
    (h : m.step (.recheck c flush closeErr) = some m') : m.closer c = .awake ∧ m' = m.tryClose c flush closeErr := by
  simp only [Monitor.step] at h
  split at h
  · next hc => exact ⟨hc, (Option.some.inj h).symm⟩
  · cases h

omit [DecidableEq κ] in
theorem after_group (m : Monitor ι κ) (g : Group ι) (a : Action ι) : (m.after g a).group = g := by
  unfold Monitor.after
  split
  · rfl
  · split
    · rfl
    · rfl

omit [DecidableEq κ] in
theorem after_loud (m : Monitor ι κ) (g : Group ι) {a : Action ι} (h : m.group.broadcasts a = true) :
    m.after g a = ⟨g, fun _ => false, fun c => (m.closer c).woken⟩ := if_pos h

omit [DecidableEq κ] in
theorem after_closer (m : Monitor ι κ) (g : Group ι) {a : Action ι} (h : m.group.broadcasts a = false) :
    (m.after g a).closer = m.closer := by
  unfold Monitor.after
  rw [h]
  cases a with
  | enter i rec l b flush | syncBegin i | syncEnd i syncErr | post i flush | wake i | readErr i | close flush closeErr => rfl

omit [DecidableEq κ] in
theorem after_asleep (m : Monitor ι κ) (g : Group ι) {a : Action ι} (h : m.group.broadcasts a = false) (i : ι) :
    (m.after g a).asleep i = m.asleep i ∨ a.enters = true ∧ (m.after g a).asleep i = (g.phase i).sleeps g.w.flushedSeq := by
  unfold Monitor.after
  rw [h]
  cases a with
  | enter j rec l b flush =>
      by_cases hij : i = j
      · subst hij
        exact Or.inr ⟨rfl, Function.update_self ..⟩
      · exact Or.inl (Function.update_of_ne hij ..)
  | syncBegin j | syncEnd j syncErr | post j flush | wake j | readErr j | close flush closeErr => exact Or.inl rfl

end Enabled

/-! ## The group behind it -/

/-- A step of `Append` that is not an arrival, nor in vain. -/
def WaitAction.works : WaitAction ι κ → Bool
  | .append a => a.follows
  | _ => false

def WaitAction.enters : WaitAction ι κ → Bool
  | .append a => a.enters
  | _ => false

variable {m m' : Monitor ι κ} {w₀ : WAL} {rs₀ : List Record}

theorem tryClose_group (m : Monitor ι κ) (c : κ) (flush : WriteFault) (closeErr : Option String) :
    (m.tryClose c flush closeErr).group = m.group ∨
      m.group.step (.close flush closeErr) = some (m.tryClose c flush closeErr).group := by
  unfold Monitor.tryClose
  split
  · exact Or.inl rfl
  · next hquiet =>
    right
    simp only [Group.step, if_neg hquiet]

/-- **One step** is a step of the group, or the group does not notice it. -/
theorem step_group {a : WaitAction ι κ} (h : m.step a = some m') :
    (m'.group = m.group ∧ a.works = false ∧ a.enters = false) ∨
      ∃ b : Action ι, m.group.step b = some m'.group ∧ b.follows = a.works ∧ b.enters = a.enters := by
  cases a with
  | append a =>
      obtain ⟨-, g, hg, rfl⟩ := step_append h
      exact Or.inr ⟨a, by rwa [after_group], rfl, rfl⟩
  | again i =>
      obtain ⟨-, -, rfl⟩ := step_again h
      exact Or.inl ⟨rfl, rfl, rfl⟩
  | call c flush closeErr =>
      obtain ⟨-, rfl⟩ := step_call h
      rcases tryClose_group m c flush closeErr with hsame | hclose
      · exact Or.inl ⟨hsame, rfl, rfl⟩
      · exact Or.inr ⟨.close flush closeErr, hclose, rfl, rfl⟩
  | recheck c flush closeErr =>
      obtain ⟨-, rfl⟩ := step_recheck h
      rcases tryClose_group m c flush closeErr with hsame | hclose
      · exact Or.inl ⟨hsame, rfl, rfl⟩
      · exact Or.inr ⟨.close flush closeErr, hclose, rfl, rfl⟩

/-- **A run** with sleepers is a run of the group, with the same arrivals and as many steps. -/
theorem run_group {as : List (WaitAction ι κ)} (hrun : runActions Monitor.step m as = some m') :
    ∃ bs : List (Action ι), runActions Group.step m.group bs = some m'.group ∧
      bs.countP Action.follows = as.countP WaitAction.works ∧ bs.countP Action.enters = as.countP WaitAction.enters := by
  induction as generalizing m with
  | nil =>
      cases hrun
      exact ⟨[], rfl, rfl, rfl⟩
  | cons a as ih =>
      obtain ⟨mid, hstep, hrest⟩ := runActions_cons_iff.mp hrun
      obtain ⟨bs, hbs, hfollows, henters⟩ := ih hrest
      rcases step_group hstep with ⟨hsame, hworks, hnew⟩ | ⟨b, hb, hworks, hnew⟩
      · refine ⟨bs, hsame ▸ hbs, ?_, ?_⟩
        · rw [List.countP_cons, hworks, hfollows]
          rfl
        · rw [List.countP_cons, hnew, henters]
          rfl
      · refine ⟨b :: bs, (runActions_cons Group.step hb bs).trans hbs, ?_, ?_⟩
        · rw [List.countP_cons, List.countP_cons, hworks, hfollows]
        · rw [List.countP_cons, List.countP_cons, hnew, henters]

/-! ## No wakeup is lost -/

/-- Whoever is asleep would not get on if it were awake. -/
structure Alert (m : Monitor ι κ) : Prop where
  follower : ∀ i, m.asleep i = true → (m.group.phase i).sleeps m.group.w.flushedSeq = true
  closer : ∀ c, m.closer c = .asleep → m.group.w.leading = true

omit [DecidableEq κ] in
/-- Without a `Broadcast` the two conditions stay as they are for all who sleep. -/
theorem quiet_step {s s' : Group ι} {a : Action ι} (hstep : s.step a = some s') (hquiet : s.broadcasts a = false)
    (hclose : ∀ flush closeErr, a ≠ .close flush closeErr) :
    s'.w.flushedSeq = s.w.flushedSeq ∧ (s.w.leading = true → s'.w.leading = true) ∧
      ∀ i, a ≠ .wake i → (s.phase i).sleeps s.w.flushedSeq = true → s'.phase i = s.phase i := by
  -- the phase of a caller that moves is not `waiting`
  have hother : ∀ (g : Group ι) i p, g.phase = s.phase → (s.phase i).sleeps s.w.flushedSeq = false →
      ∀ j, (s.phase j).sleeps s.w.flushedSeq = true → (g.goto i p).phase j = s.phase j := by
    intro g i p hg hi j hj
    have hne : j ≠ i := by
      rintro rfl
      rw [hi] at hj
      cases hj
    rw [goto_of_ne _ hne, hg]
  cases a with
  | enter i rec l b flush =>
      obtain ⟨hidle, rfl⟩ := Group.step_enter hstep
      have hi : (s.phase i).sleeps s.w.flushedSeq = false := by rw [hidle]; rfl
      unfold Group.broadcasts at hquiet
      dsimp only at hquiet
      obtain ⟨o, -, ⟨e, -, henter⟩ | ⟨-, -, ⟨-, henter⟩ | ⟨hl, henter⟩⟩⟩ := s.enter_spec i rec l b flush
      · rw [henter]
        exact ⟨rfl, fun hl => hl, fun j _ => hother { s with w := _, arrivals := _ } i _ rfl hi j⟩
      · rw [henter]
        exact ⟨rfl, fun hl => hl, fun j _ => hother { s with w := _, arrivals := _ } i _ rfl hi j⟩
      · rw [henter] at hquiet ⊢
        obtain ⟨o', -, ⟨e, -, hlead⟩ | ⟨-, -, -, hlead⟩⟩ := Group.lead_spec
          { s with w := { s.w.taken rec o with leading := true }, arrivals := s.arrivals ++ [(i, stamp rec s.w.next)] } i
          s.w.next (s.w.pendingSeq + 1) flush
        · -- its flush has failed
          rw [hlead, goto_self] at hquiet
          cases hquiet
        · rw [hlead]
          exact ⟨rfl, fun _ => rfl, fun j _ => hother { s with w := _, arrivals := _ } i _ rfl hi j⟩
  | syncBegin i =>
      obtain ⟨position, mySeq, flushSeq, hi, rfl⟩ := Group.step_syncBegin hstep
      exact ⟨rfl, fun hl => hl, fun j _ => hother s i _ rfl (by rw [hi]; rfl) j⟩
  | syncEnd i syncErr =>
      obtain ⟨position, mySeq, flushSeq, begun, hi, rfl⟩ := Group.step_syncEnd hstep
      rcases s.syncEnd_spec i position mySeq flushSeq begun syncErr with ⟨e, hsync⟩ | hsync
      · rw [hsync]
        exact ⟨rfl, fun hl => hl, fun j _ => hother s i _ rfl (by rw [hi]; rfl) j⟩
      · rw [hsync]
        exact ⟨rfl, fun hl => hl, fun j _ => hother { s with w := _, syncs := _ } i _ rfl (by rw [hi]; rfl) j⟩
  | post i flush => cases hquiet
  | wake i =>
      obtain ⟨position, mySeq, -, -, rfl⟩ := Group.step_wake hstep
      refine ⟨rfl, fun hl => hl, fun j hj _ => ?_⟩
      have hne : j ≠ i := by
        rintro rfl
        exact hj rfl
      exact goto_of_ne _ hne _
  | readErr i =>
      obtain ⟨hi, rfl⟩ := Group.step_readErr hstep
      exact ⟨rfl, fun hl => hl, fun j _ => hother s i _ rfl (by rw [hi]; rfl) j⟩
  | close flush closeErr => exact absurd rfl (hclose flush closeErr)

theorem Closer.woken_ne_asleep (p : Closer) : p.woken ≠ .asleep := by
  cases p <;> simp [Closer.woken]

theorem Alert.append {a : Action ι} (h : Alert m) (hstep : m.step (.append a) = some m') : Alert m' := by
  obtain ⟨hready, g, hg, rfl⟩ := step_append hstep
  cases hquiet : m.group.broadcasts a with
  | true =>
      -- everybody is awake
      rw [after_loud m g hquiet]
      exact ⟨fun i hi => (by cases hi), fun c hc => absurd hc (Closer.woken_ne_asleep _)⟩
  | false =>
      have hclose : ∀ flush closeErr, a ≠ .close flush closeErr := by
        rintro flush closeErr rfl
        cases hready
      obtain ⟨hflushed, hleading, hsame⟩ := quiet_step hg hquiet hclose
      refine ⟨fun i hi => ?_, fun c hc => ?_⟩
      · rw [after_group]
        rcases after_asleep m g hquiet i with hold | ⟨-, hnew⟩
        · rw [hold] at hi
          have hwake : a ≠ .wake i := by
            rintro rfl
            simp [Monitor.ready, hi] at hready
          have hsleeps := h.follower i hi
          rw [hsame i hwake hsleeps, hflushed]
          exact hsleeps
        · rw [← hnew]
          exact hi
      · rw [after_closer m g hquiet] at hc
        rw [after_group]
        exact hleading (h.closer c hc)

omit [DecidableEq ι] in
theorem Alert.tryClose (h : Alert m) (c : κ) (flush : WriteFault) (closeErr : Option String) :
    Alert (m.tryClose c flush closeErr) := by
  unfold Monitor.tryClose
  split
  · next hleading => exact ⟨h.follower, fun _ _ => hleading⟩
  · next hquiet =>
    have hflushed : (m.group.w.close flush closeErr).2.flushedSeq = m.group.w.flushedSeq := by
      obtain ⟨o, -, ⟨e, -, hclose⟩ | ⟨-, hclose⟩⟩ := m.group.w.close_spec flush closeErr
      · rw [hclose]
      · rw [hclose]
    refine ⟨fun i hi => ?_, fun d hd => absurd ?_ hquiet⟩
    · show (m.group.phase i).sleeps (m.group.w.close flush closeErr).2.flushedSeq = true
      rw [hflushed]
      exact h.follower i hi
    · by_cases hdc : d = c
      · subst hdc
        cases (Function.update_self d _ m.closer).symm.trans hd
      · exact h.closer d ((Function.update_of_ne hdc _ m.closer).symm.trans hd)

/-- **One step.** What a sleeper waits for comes with a `Broadcast`. -/
theorem alert_step {a : WaitAction ι κ} (h : Alert m) (hstep : m.step a = some m') : Alert m' := by
  cases a with
  | append a => exact h.append hstep
  | again i =>
      obtain ⟨hsleeps, -, rfl⟩ := step_again hstep
      refine ⟨fun j hj => ?_, h.closer⟩
      by_cases hji : j = i
      · subst hji
        exact hsleeps
      · exact h.follower j ((Function.update_of_ne hji _ m.asleep).symm.trans hj)
  | call c flush closeErr =>
      obtain ⟨-, rfl⟩ := step_call hstep
      exact h.tryClose c flush closeErr
  | recheck c flush closeErr =>
      obtain ⟨-, rfl⟩ := step_recheck hstep
      exact h.tryClose c flush closeErr

/-! ## Wakeups -/

/-- There may be a `Broadcast`. -/
def WaitAction.rings : WaitAction ι κ → Bool
  | .append (.enter _ _ _ _ _) | .append (.post _ _) => true
  | _ => false

/-- The follower `i` wakes in vain. -/
def WaitAction.isAgain (i : ι) : WaitAction ι κ → Bool
  | .again j => j = i
  | _ => false

/-- The caller `c` of `Close` wakes. -/
def WaitAction.isRecheck (c : κ) : WaitAction ι κ → Bool
  | .recheck d _ _ => d = c
  | _ => false

omit [DecidableEq ι] [DecidableEq κ] in
theorem rings_le (as : List (WaitAction ι κ)) :
    as.countP WaitAction.rings ≤ as.countP WaitAction.enters + as.countP WaitAction.works := by
  induction as with
  | nil => exact Nat.le_refl 0
  | cons a as ih =>
      have hone : a.rings = true → a.enters = true ∨ a.works = true := by
        unfold WaitAction.rings
        split
        · exact fun _ => Or.inl rfl
        · exact fun _ => Or.inr rfl
        · intro h
          cases h
      simp only [List.countP_cons]
      split
      · next hrings =>
        rcases hone hrings with h | h
        · rw [if_pos h]
          omega
        · rw [if_pos h]
          omega
      · omega

omit [DecidableEq κ] in
theorem not_broadcasts {s : Group ι} {a : Action ι} (h : (WaitAction.append a : WaitAction ι κ).rings = false) :
    s.broadcasts a = false ∧ a.enters = false := by
  cases a with
  | enter i rec l b flush | post i flush => cases h
  | syncBegin i | syncEnd i syncErr | wake i | readErr i | close flush closeErr => exact ⟨rfl, rfl⟩

omit [DecidableEq ι] in
theorem tryClose_asleep (m : Monitor ι κ) (c : κ) (flush : WriteFault) (closeErr : Option String) :
    (m.tryClose c flush closeErr).asleep = m.asleep := by
  unfold Monitor.tryClose
  split
  · rfl
  · rfl

/-- **A follower** that wakes in vain goes to sleep, and only a `Broadcast` wakes it. -/
theorem again_step {a : WaitAction ι κ} (hstep : m.step a = some m') (i : ι) :
    (!m'.asleep i).toNat + (a.isAgain i).toNat ≤ (!m.asleep i).toNat + 1 * a.rings.toNat := by
  cases a with
  | append a =>
      obtain ⟨-, g, -, rfl⟩ := step_append hstep
      cases hrings : (WaitAction.append a : WaitAction ι κ).rings with
      | true =>
          have hle := Bool.toNat_le (!(m.after g a).asleep i)
          show _ + 0 ≤ _ + 1
          omega
      | false =>
          obtain ⟨hquiet, henters⟩ := not_broadcasts (s := m.group) hrings
          rcases after_asleep m g hquiet i with hsame | ⟨hnew, -⟩
          · rw [hsame]
            exact Nat.le_refl _
          · rw [henters] at hnew
            cases hnew
  | again j =>
      obtain ⟨-, hawake, rfl⟩ := step_again hstep
      by_cases hji : j = i
      · subst hji
        simp [hawake, WaitAction.isAgain]
      · simp [hji, Ne.symm hji, WaitAction.isAgain]
  | call c flush closeErr =>
      obtain ⟨-, rfl⟩ := step_call hstep
      rw [tryClose_asleep]
      exact Nat.le_refl _
  | recheck c flush closeErr =>
      obtain ⟨-, rfl⟩ := step_recheck hstep
      rw [tryClose_asleep]
      exact Nat.le_refl _

omit [DecidableEq ι] in
theorem tryClose_closer (m : Monitor ι κ) (c : κ) (flush : WriteFault) (closeErr : Option String) :
    (m.tryClose c flush closeErr).closer c ≠ .awake ∧
      ∀ d, d ≠ c → (m.tryClose c flush closeErr).closer d = m.closer d := by
  unfold Monitor.tryClose
  split
  · exact ⟨by simp, fun d hd => Function.update_of_ne hd ..⟩
  · exact ⟨by simp, fun d hd => Function.update_of_ne hd ..⟩

/-- **A caller of `Close`** that wakes returns or goes to sleep, and only a `Broadcast` wakes it. -/
theorem recheck_step {a : WaitAction ι κ} (hstep : m.step a = some m') (c : κ) :
    (decide (m'.closer c = .awake)).toNat + (a.isRecheck c).toNat ≤
      (decide (m.closer c = .awake)).toNat + 1 * a.rings.toNat := by
  cases a with
  | append a =>
      obtain ⟨-, g, -, rfl⟩ := step_append hstep
      cases hrings : (WaitAction.append a : WaitAction ι κ).rings with
      | true =>
          have hle := Bool.toNat_le (decide ((m.after g a).closer c = .awake))
          show _ + 0 ≤ _ + 1
          omega
      | false =>
          rw [after_closer m g (not_broadcasts hrings).1]
          exact Nat.le_refl _
  | again j =>
      obtain ⟨-, -, rfl⟩ := step_again hstep
      exact Nat.le_refl _
  | call d flush closeErr =>
      obtain ⟨-, rfl⟩ := step_call hstep
      obtain ⟨hself, hother⟩ := tryClose_closer m d flush closeErr
      by_cases hcd : c = d
      · subst hcd
        simp [hself, WaitAction.isRecheck]
      · rw [hother c hcd]
        exact Nat.le_refl _
  | recheck d flush closeErr =>
      obtain ⟨hawake, rfl⟩ := step_recheck hstep
      obtain ⟨hself, hother⟩ := tryClose_closer m d flush closeErr
      by_cases hcd : c = d
      · subst hcd
        simp [hself, hawake, WaitAction.isRecheck]
      · simp [hother c hcd, Ne.symm hcd, WaitAction.isRecheck]

/-! ## Everybody returns -/

/-- A step of somebody who has arrived. -/
def WaitAction.follows : WaitAction ι κ → Bool
  | .append a => a.follows
  | .again _ | .recheck _ _ _ => true
  | .call _ _ _ => false

/-- A follower that could return is awake. -/
theorem Alert.enabled (h : Alert m) {a : Action ι} (hfollows : a.follows = true) (ha : (m.group.step a).isSome) :
    (m.step (.append a)).isSome := by
  obtain ⟨g, hg⟩ := Option.isSome_iff_exists.mp ha
  have hready : m.ready a = true := by
    cases a with
    | wake i =>
        obtain ⟨position, mySeq, hi, hle, -⟩ := Group.step_wake hg
        cases hasleep : m.asleep i with
        | false => simp [Monitor.ready, hasleep]
        | true =>
            have hsleeps := h.follower i hasleep
            rw [hi] at hsleeps
            have hlt : m.group.w.flushedSeq < mySeq := by simpa [Phase.sleeps] using hsleeps
            omega
    | enter i rec l b flush | close flush closeErr => cases hfollows
    | syncBegin i | syncEnd i syncErr | post i flush | readErr i => rfl
  simp only [Monitor.step, if_pos hready, hg, Option.map_some, Option.isSome_some]

/-- **Every `Append` and every `Close` returns.** On a log that holds `rs₀`, whatever the interleaving of the callers and whatever
fails: who sleeps in `cond.Wait` has a reason to, for its record is not covered or, in `Close`, somebody leads. The callers of
`Append` that have arrived take at most four further steps each, all told, besides waking in vain; and nobody wakes in vain more
than a few times for each of them. As long as one of the callers has not returned, one that is not asleep can take a step. -/
theorem sleepers_return (h : Holds w₀ rs₀) (as : List (WaitAction ι κ))
    (hrun : runActions Monitor.step (Monitor.start w₀) as = some m) :
    ((∀ i, m.asleep i = true → ∃ position mySeq, m.group.phase i = .waiting position mySeq ∧ m.group.w.flushedSeq < mySeq) ∧
      ∀ c, m.closer c = .asleep → m.group.w.leading = true) ∧
    (as.countP WaitAction.works ≤ 4 * as.countP WaitAction.enters ∧
      (∀ i, as.countP (WaitAction.isAgain i) ≤ 5 * as.countP WaitAction.enters + 1) ∧
      ∀ c, as.countP (WaitAction.isRecheck c) ≤ 5 * as.countP WaitAction.enters) ∧
    ((∃ a : WaitAction ι κ, a.follows = true ∧ (m.step a).isSome) ∨
      (∀ i, m.group.phase i = .idle ∨ ∃ r, m.group.phase i = .returned r) ∧
        ∀ c, m.closer c = .idle ∨ ∃ err, m.closer c = .returned err) := by
  have halert : Alert m := runActions_invariant (fun _ _ _ h hstep => alert_step h hstep)
    ⟨fun _ hi => (by cases hi), fun _ hc => (by cases hc)⟩ hrun
  obtain ⟨bs, hbs, hworks, henters⟩ := run_group hrun
  obtain ⟨hcount, hgroup⟩ := appends_return h bs hbs
  rw [hworks, henters] at hcount
  have hrings := rings_le as
  refine ⟨⟨fun i hi => ?_, halert.closer⟩, ⟨hcount, fun i => ?_, fun c => ?_⟩, ?_⟩
  · have hsleeps := halert.follower i hi
    cases hphase : m.group.phase i with
    | waiting position mySeq =>
        rw [hphase] at hsleeps
        exact ⟨position, mySeq, rfl, by simpa [Phase.sleeps] using hsleeps⟩
    | idle | flushed position mySeq flushSeq | syncing position mySeq flushSeq begun | synced position mySeq flushSeq syncErr
      | flushFailed | returned r =>
        rw [hphase] at hsleeps
        cases hsleeps
  · have hle := (runActions_countP_le (I := fun _ : Monitor ι κ => True) (fun m => (!m.asleep i).toNat)
      (WaitAction.isAgain i) WaitAction.rings 1 (fun _ _ _ _ hstep => ⟨trivial, again_step hstep i⟩) trivial hrun).2
    have hstart : (!(Monitor.start w₀ : Monitor ι κ).asleep i).toNat = 1 := rfl
    omega
  · have hle := (runActions_countP_le (I := fun _ : Monitor ι κ => True) (fun m => (decide (m.closer c = .awake)).toNat)
      (WaitAction.isRecheck c) WaitAction.rings 1 (fun _ _ _ _ hstep => ⟨trivial, recheck_step hstep c⟩) trivial hrun).2
    have hstart : (decide ((Monitor.start w₀ : Monitor ι κ).closer c = .awake)).toNat = 0 := rfl
    omega
  · rcases hgroup with ⟨a, hfollows, ha⟩ | ⟨hdone, hclose⟩
    · exact Or.inl ⟨.append a, hfollows, halert.enabled hfollows ha⟩
    · by_cases hup : ∃ c, m.closer c = .awake
      · obtain ⟨c, hc⟩ := hup
        exact Or.inl ⟨.recheck c none none, rfl, by simp only [Monitor.step, hc, Option.isSome_some]⟩
      · -- nobody leads, so nobody sleeps in `Close`
        refine Or.inr ⟨hdone, fun c => ?_⟩
        cases hphase : m.closer c with
        | idle => exact Or.inl rfl
        | returned err => exact Or.inr ⟨err, rfl⟩
        | awake => exact absurd ⟨c, hphase⟩ hup
        | asleep =>
            obtain ⟨g, hg⟩ := Option.isSome_iff_exists.mp (hclose none none)
            have hquiet := (Group.step_close hg).1
            rw [halert.closer c hphase] at hquiet
            cases hquiet

end Machine

/-- Two callers and a `Close`, which sleeps and wakes in vain while the second caller is covered by a second round. -/
def closeBetween : List (WaitAction Bool Unit) :=
  [.append (.enter false putA (none, none) (none, none) none), .append (.enter true putB (none, none) (none, none) none),
    .call () none none, .append (.syncBegin false), .append (.syncEnd false none), .append (.post false none), .again true,
    .recheck () none none, .append (.syncBegin false), .append (.syncEnd false none), .append (.post false none)]

/-- The follower and `Close` are awake, and have yet to return. -/
theorem sleepers_return_close : ∃ m : Monitor Bool Unit,
    runActions Monitor.step (Monitor.start freshWAL) closeBetween = some m ∧ m.closer () = .awake ∧ m.asleep true = false ∧
      ((∃ a : WaitAction Bool Unit, a.follows = true ∧ (m.step a).isSome) ∨
        (∀ i, m.group.phase i = .idle ∨ ∃ r, m.group.phase i = .returned r) ∧
          ∀ c, m.closer c = .idle ∨ ∃ err, m.closer c = .returned err) := by
  obtain ⟨m, hm⟩ : ∃ m : Monitor Bool Unit, runActions Monitor.step (Monitor.start freshWAL) closeBetween = some m := ⟨_, rfl⟩
  refine ⟨m, hm, ?_, ?_, (sleepers_return freshWAL_holds closeBetween hm).2.2⟩
  · cases hm
    rfl
  · cases hm
    rfl

end Uddp.Wal

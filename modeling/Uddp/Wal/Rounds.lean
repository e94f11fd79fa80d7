import Uddp.Wal.Waiters

/-!
# Which round an `Append` reports

All callers share one `flushErr`, which every round overwrites.

* `Completed` : a round that is over, with the sequence number up to which it released its callers and its error;
  `Group.completes s a` : the rounds that the action `a` brings to an end. One `post` can end two: a success, and the failed
  flush of the next one;
* `Group.stepRecorded` : the machine with the rounds so far as a ghost;
* **`reports_last_round`** : an `Append` returns the outcome of the last round that is over by then, which is that of its
  own round, the first that released it, exactly if the two have the same error.
-/

namespace Uddp.Wal
open Uddp.Lib

/-- A round that is over. -/
structure Completed where
  upto : Nat
  err : Option AppendError
  deriving DecidableEq, Repr

/-- What a caller at `position` learns from a round. -/
def Completed.result (c : Completed) (position : UInt64) : Except AppendError UInt64 :=
  match c.err with
  | some e => .error e
  | none => .ok position

theorem Completed.result_eq_iff (c d : Completed) (position : UInt64) : c.result position = d.result position ↔ c.err = d.err := by
  unfold Completed.result
  cases c.err with
  | none =>
      cases d.err with
      | none => simp
      | some e => simp
  | some e =>
      cases d.err with
      | none => simp
      | some e' => simp

/-- The round that the leader's flush ends, if it fails. -/
def WAL.flushCompletes (w : WAL) (flush : WriteFault) : List Completed :=
  match w.flushRound flush with
  | (some e, w) => [⟨w.flushedSeq, some e⟩]
  | (none, _) => []

variable {ι : Type} [DecidableEq ι]

namespace Group

/-- The rounds that an action brings to an end. -/
def completes (s : Group ι) : Action ι → List Completed
  | .enter _ rec lenWrite bodyWrite flush =>
      match s.w.buffer rec lenWrite bodyWrite with
      | (.error _, _) => []
      | (.ok _, w) => if w.leading then [] else { w with leading := true }.flushCompletes flush
  | .post i flush =>
      match s.phase i with
      | .synced _ _ flushSeq syncErr =>
          match s.w.postSync flushSeq syncErr with
          | (.failed e, w) => [⟨w.flushedSeq, some e⟩]
          | (.stepDown, w) => [⟨w.flushedSeq, none⟩]
          | (.again, w) => ⟨w.flushedSeq, none⟩ :: w.flushCompletes flush
      | _ => []
  | _ => []

/-- One step, and the rounds so far. -/
def stepRecorded (s : Group ι × List Completed) (a : Action ι) : Option (Group ι × List Completed) :=
  (s.1.step a).map (fun s' => (s', s.2 ++ s.1.completes a))

end Group

/-! ## The marks are those of the last round -/

/-- `flushErr` and `flushedSeq` are what the last round left, or those of the start. -/
def Marked (w₀ w : WAL) (rounds : List Completed) : Prop :=
  (rounds = [] → w.flushedSeq = w₀.flushedSeq) ∧
    ∀ last, rounds.getLast? = some last → w.flushErr = last.err ∧ w.flushedSeq = last.upto

section Marks
variable {w₀ w : WAL} {rounds : List Completed}

theorem Marked.same (h : Marked w₀ w rounds) {w' : WAL} (herr : w'.flushErr = w.flushErr)
    (hseq : w'.flushedSeq = w.flushedSeq) : Marked w₀ w' (rounds ++ []) := by
  rw [List.append_nil]
  unfold Marked
  rwa [herr, hseq]

theorem marked_snoc (rounds : List Completed) {c : Completed} (herr : w.flushErr = c.err) (hseq : w.flushedSeq = c.upto) :
    Marked w₀ w (rounds ++ [c]) := by
  refine ⟨fun hnil => by simp at hnil, fun last hlast => ?_⟩
  rw [List.getLast?_concat] at hlast
  obtain rfl := Option.some.inj hlast
  exact ⟨herr, hseq⟩

/-- A caller with a sequence number that is covered has a round that covered it. -/
theorem Marked.last (h : Marked w₀ w rounds) (h₀ : w₀.flushedSeq = w₀.pendingSeq) {n : Nat} (hlow : w₀.pendingSeq < n)
    (hn : n ≤ w.flushedSeq) : ∃ last, rounds.getLast? = some last ∧ w.flushErr = last.err ∧ n ≤ last.upto := by
  cases hlast : rounds.getLast? with
  | none =>
      have hseq := h.1 (List.getLast?_eq_none_iff.mp hlast)
      omega
  | some last =>
      obtain ⟨herr, hseq⟩ := h.2 last hlast
      exact ⟨last, rfl, herr, hseq ▸ hn⟩

theorem lead_marked {s : Group ι} (h : Marked w₀ s.w rounds) (i : ι) (position : UInt64) (mySeq : Nat) (flush : WriteFault) :
    Marked w₀ (s.lead i position mySeq flush).w (rounds ++ s.w.flushCompletes flush) := by
  obtain ⟨o, -, hcases⟩ := s.w.flushRound_spec flush
  unfold Group.lead WAL.flushCompletes
  rcases hcases with ⟨e, -, hflush⟩ | ⟨-, -, hflush⟩
  · rw [hflush]
    exact marked_snoc rounds rfl rfl
  · rw [hflush]
    exact h.same rfl rfl

/-- **One step** keeps the marks and the rounds together. -/
theorem step_marked {s s' : Group ι} (h : Marked w₀ s.w rounds) {a : Action ι} (hstep : s.step a = some s') :
    Marked w₀ s'.w (rounds ++ s.completes a) := by
  cases a with
  | enter i rec l b flush =>
      obtain ⟨-, rfl⟩ := Group.step_enter hstep
      obtain ⟨o, -, hcases⟩ := s.w.buffer_spec rec l b
      unfold Group.enter
      simp only [Group.completes]
      rcases hcases with ⟨e, -, hbuf | hbuf⟩ | ⟨-, hbuf⟩
      · rw [hbuf]
        exact h.same rfl rfl
      · rw [hbuf]
        exact h.same rfl rfl
      · rw [hbuf]
        dsimp only
        by_cases hleading : s.w.leading = true
        · rw [if_pos hleading, if_pos hleading]
          exact h.same rfl rfl
        · rw [if_neg hleading, if_neg hleading]
          exact lead_marked (by exact h) i _ _ flush
  | post i flush =>
      obtain ⟨position, mySeq, flushSeq, syncErr, hi, rfl⟩ := Group.step_post hstep
      unfold Group.post WAL.postSync
      simp only [Group.completes, hi, WAL.postSync]
      cases syncErr with
      | some e => exact marked_snoc rounds rfl rfl
      | none =>
          dsimp only
          by_cases hall : s.w.pendingSeq = flushSeq
          · rw [if_pos hall]
            exact marked_snoc rounds rfl rfl
          · rw [if_neg hall]
            dsimp only
            rw [List.append_cons]
            exact lead_marked (marked_snoc rounds rfl rfl) i position mySeq flush
  | syncBegin i =>
      obtain ⟨_, _, _, -, rfl⟩ := Group.step_syncBegin hstep
      exact h.same rfl rfl
  | syncEnd i syncErr =>
      obtain ⟨_, _, _, _, -, rfl⟩ := Group.step_syncEnd hstep
      rcases s.syncEnd_spec i _ _ _ _ syncErr with ⟨e, hsync⟩ | hsync
      · rw [hsync]
        exact h.same rfl rfl
      · rw [hsync]
        exact h.same rfl rfl
  | wake i =>
      obtain ⟨_, _, -, -, rfl⟩ := Group.step_wake hstep
      exact h.same rfl rfl
  | readErr i =>
      obtain ⟨-, rfl⟩ := Group.step_readErr hstep
      exact h.same rfl rfl
  | close flush closeErr =>
      obtain ⟨-, rfl⟩ := Group.step_close hstep
      obtain ⟨o, -, ⟨e, -, hclose⟩ | ⟨-, hclose⟩⟩ := s.w.close_spec flush closeErr
      · rw [hclose]
        exact h.same rfl rfl
      · rw [hclose]
        exact h.same rfl rfl

end Marks

/-! ## What a caller returns -/

/-- The caller that an action moves. -/
def Action.caller : Action ι → Option ι
  | .enter i _ _ _ _ => some i
  | .syncBegin i => some i
  | .syncEnd i _ => some i
  | .post i _ => some i
  | .wake i => some i
  | .readErr i => some i
  | .close _ _ => none

section Returns
variable {w₀ : WAL} {rs₀ : List Record} {s s' : Group ι} {rounds : List Completed} {i : ι}

theorem lead_phase_of_ne (s : Group ι) {j : ι} (h : j ≠ i) (position : UInt64) (mySeq : Nat) (flush : WriteFault) :
    (s.lead i position mySeq flush).phase j = s.phase j := by
  obtain ⟨o, -, ⟨e, -, hlead⟩ | ⟨-, -, -, hlead⟩⟩ := s.lead_spec i position mySeq flush
  · rw [hlead, goto_of_ne _ h]
  · rw [hlead, goto_of_ne _ h]

theorem lead_not_returned (s : Group ι) (position : UInt64) (mySeq : Nat) (flush : WriteFault)
    (r : Except AppendError UInt64) : (s.lead i position mySeq flush).phase i ≠ .returned r := by
  obtain ⟨o, -, ⟨e, -, hlead⟩ | ⟨-, -, -, hlead⟩⟩ := s.lead_spec i position mySeq flush
  · rw [hlead, goto_self]
    exact fun h => by cases h
  · rw [hlead, goto_self]
    exact fun h => by cases h

theorem step_phase_of_ne {a : Action ι} (hstep : s.step a = some s') (h : a.caller ≠ some i) : s'.phase i = s.phase i := by
  have hne : ∀ j, a.caller = some j → i ≠ j := fun j hj heq => h (heq ▸ hj)
  cases a with
  | enter j rec l b flush =>
      obtain ⟨-, rfl⟩ := Group.step_enter hstep
      obtain ⟨o, -, ⟨e, -, henter⟩ | ⟨-, -, ⟨-, henter⟩ | ⟨-, henter⟩⟩⟩ := s.enter_spec j rec l b flush
      · rw [henter, goto_of_ne _ (hne j rfl)]
      · rw [henter, goto_of_ne _ (hne j rfl)]
      · rw [henter, lead_phase_of_ne _ (hne j rfl)]
  | post j flush =>
      obtain ⟨_, _, _, _, -, rfl⟩ := Group.step_post hstep
      rcases s.post_spec j _ _ _ _ flush with ⟨e, hpost⟩ | ⟨-, ⟨-, hpost⟩ | hpost⟩
      · rw [hpost, goto_of_ne _ (hne j rfl)]
      · rw [hpost, goto_of_ne _ (hne j rfl)]
      · rw [hpost, lead_phase_of_ne _ (hne j rfl)]
  | syncBegin j =>
      obtain ⟨_, _, _, -, rfl⟩ := Group.step_syncBegin hstep
      exact goto_of_ne _ (hne j rfl) _
  | syncEnd j syncErr =>
      obtain ⟨_, _, _, _, -, rfl⟩ := Group.step_syncEnd hstep
      rcases s.syncEnd_spec j _ _ _ _ syncErr with ⟨e, hsync⟩ | hsync
      · rw [hsync, goto_of_ne _ (hne j rfl)]
      · rw [hsync, goto_of_ne _ (hne j rfl)]
  | wake j =>
      obtain ⟨_, _, -, -, rfl⟩ := Group.step_wake hstep
      exact goto_of_ne _ (hne j rfl) _
  | readErr j =>
      obtain ⟨-, rfl⟩ := Group.step_readErr hstep
      exact goto_of_ne _ (hne j rfl) _
  | close flush closeErr =>
      obtain ⟨-, rfl⟩ := Group.step_close hstep
      rfl

/-- A caller whose buffered write fails gets no sequence number. -/
theorem enter_returned (hinv : Inv w₀ rs₀ s) {rec : Record} {l b : WriteFault × WriteFault} {flush : WriteFault}
    {r : Except AppendError UInt64} (hret : (s.enter i rec l b flush).phase i = .returned r) :
    (s.enter i rec l b flush).arrivals = s.arrivals ++ [(i, stamp rec s.w.next)] ∧
      (s.enter i rec l b flush).w.pendingSeq ≤ w₀.pendingSeq + s.arrivals.length := by
  obtain ⟨o, -, ⟨e, -, henter⟩ | ⟨-, -, ⟨-, henter⟩ | ⟨-, henter⟩⟩⟩ := s.enter_spec i rec l b flush
  · rw [henter]
    exact ⟨rfl, hinv.log.taken_le⟩
  · rw [henter, goto_self] at hret
    cases hret
  · rw [henter] at hret
    exact absurd hret (lead_not_returned _ _ _ _ _)

theorem post_returned (hinv : Inv w₀ rs₀ s) {position : UInt64} {mySeq flushSeq : Nat} {syncErr : Option String}
    (hi : s.phase i = .synced position mySeq flushSeq syncErr) (rounds : List Completed) {flush : WriteFault}
    {r : Except AppendError UInt64} (hret : (s.post i position mySeq flushSeq syncErr flush).phase i = .returned r)
    {k : Nat} {rec : Record} (hk : (s.post i position mySeq flushSeq syncErr flush).arrivals[k]? = some (i, rec)) :
    ∃ last, (rounds ++ s.completes (.post i flush)).getLast? = some last ∧ w₀.pendingSeq + (k + 1) ≤ last.upto ∧
      r = last.result rec.commitPosition := by
  have hok := hinv.phases i
  rw [hi] at hok
  obtain ⟨hown, hmine, hpend, -⟩ := hok
  unfold Group.post WAL.postSync at hret hk
  simp only [Group.completes, hi, WAL.postSync]
  cases syncErr with
  | some e =>
      rw [goto_self] at hret
      cases hret
      obtain ⟨rfl, -⟩ := hinv.owns_unique hown hk
      exact ⟨_, List.getLast?_concat, hmine.trans hpend, rfl⟩
  | none =>
      dsimp only at hret hk ⊢
      by_cases hall : s.w.pendingSeq = flushSeq
      · rw [if_pos hall] at hret hk ⊢
        rw [goto_self] at hret
        cases hret
        obtain ⟨rfl, rfl, -⟩ := hinv.owns_unique hown hk
        exact ⟨_, List.getLast?_concat, hmine, rfl⟩
      · rw [if_neg hall] at hret
        exact absurd hret (lead_not_returned _ _ _ _ _)

/-- What `followerResult` reads is the last round. -/
theorem followerResult_eq {w : WAL} {last : Completed} (h : w.flushErr = last.err) (position : UInt64) :
    Group.followerResult w position = last.result position := by
  cases hlast : last.err with
  | none =>
      rw [hlast] at h
      simp only [Group.followerResult, Completed.result, h, hlast]
  | some e =>
      rw [hlast] at h
      simp only [Group.followerResult, Completed.result, h, hlast]

/-- **A return.** The caller reports the last round that is over. -/
theorem returned_last (hinv : Inv w₀ rs₀ s) (hwaits : Waits s) (h₀ : w₀.flushedSeq = w₀.pendingSeq)
    (hmarked : Marked w₀ s.w rounds) {a : Action ι} (hstep : s.step a = some s') {r : Except AppendError UInt64}
    (hbefore : ∀ r', s.phase i ≠ .returned r') (hret : s'.phase i = .returned r) {k : Nat} {rec : Record}
    (hk : s'.arrivals[k]? = some (i, rec)) (hseq : w₀.pendingSeq + (k + 1) ≤ s'.w.pendingSeq) :
    ∃ last, (rounds ++ s.completes a).getLast? = some last ∧ w₀.pendingSeq + (k + 1) ≤ last.upto ∧
      r = last.result rec.commitPosition := by
  have hcaller : a.caller = some i := by
    by_contra hne
    exact hbefore r (step_phase_of_ne hstep hne ▸ hret)
  cases a with
  | enter j rec' l b flush =>
      obtain rfl := Option.some.inj hcaller
      obtain ⟨hidle, rfl⟩ := Group.step_enter hstep
      obtain ⟨harr, hpend⟩ := enter_returned hinv hret
      -- the caller is the last to arrive, behind all that have a sequence number
      have hlast : k = s.arrivals.length := by
        have hnew : (s.enter j rec' l b flush).arrivals[s.arrivals.length]? = some (j, stamp rec' s.w.next) := by
          rw [harr]
          exact List.getElem?_concat_length
        exact (enter_inv hinv hidle rec' l b flush).index_unique hk hnew
      omega
  | syncBegin j =>
      obtain rfl := Option.some.inj hcaller
      obtain ⟨_, _, _, -, rfl⟩ := Group.step_syncBegin hstep
      rw [goto_self] at hret
      cases hret
  | syncEnd j syncErr =>
      obtain rfl := Option.some.inj hcaller
      obtain ⟨_, _, _, _, -, rfl⟩ := Group.step_syncEnd hstep
      rcases s.syncEnd_spec j _ _ _ _ syncErr with ⟨e, hsync⟩ | hsync
      · rw [hsync, goto_self] at hret
        cases hret
      · rw [hsync, goto_self] at hret
        cases hret
  | post j flush =>
      obtain rfl := Option.some.inj hcaller
      obtain ⟨position, mySeq, flushSeq, syncErr, hi, rfl⟩ := Group.step_post hstep
      exact post_returned hinv hi rounds hret hk
  | wake j =>
      obtain rfl := Option.some.inj hcaller
      obtain ⟨position, mySeq, hi, hle, rfl⟩ := Group.step_wake hstep
      have hown := hinv.phases j
      rw [hi] at hown
      obtain ⟨rfl, rfl, -⟩ := hinv.owns_unique hown hk
      rw [goto_self] at hret
      cases hret
      obtain ⟨last, hlast, herr, hn⟩ := hmarked.last h₀ (by omega) hle
      exact ⟨last, by simpa [Group.completes] using hlast, hn, followerResult_eq herr _⟩
  | readErr j =>
      obtain rfl := Option.some.inj hcaller
      obtain ⟨hi, rfl⟩ := Group.step_readErr hstep
      obtain ⟨-, hfail, hquiet⟩ := hinv.failing j hi
      rw [goto_self] at hret
      cases hret
      -- nobody leads, so every caller with a sequence number is covered
      have hsettled := hwaits.settled hquiet
      obtain ⟨last, hlast, herr, hn⟩ := hmarked.last (n := w₀.pendingSeq + (k + 1)) h₀ (by omega) (hsettled ▸ hseq)
      refine ⟨last, by simpa [Group.completes] using hlast, hn, ?_⟩
      obtain ⟨e, he⟩ := Option.ne_none_iff_exists'.mp hfail
      unfold Group.followerResult Completed.result
      rw [← herr, he]
  | close flush closeErr => cases hcaller

end Returns

/-- **An `Append` reports the last round.** After any interleaving with any faults, let caller `i`, whose record was
buffered with the sequence number `n`, return `r`. Then `r` is the outcome of the last round that is over, and it is that of
the caller's own round, the first that released `n`, exactly if these two rounds have the same error or none. -/
theorem reports_last_round {w₀ : WAL} {rs₀ : List Record} (h : Holds w₀ rs₀) (as : List (Action ι)) {s : Group ι}
    {rounds : List Completed} (hrun : runActions Group.stepRecorded (Group.start w₀, []) as = some (s, rounds))
    {a : Action ι} {s' : Group ι} {rounds' : List Completed} (hstep : Group.stepRecorded (s, rounds) a = some (s', rounds'))
    {i : ι} {r : Except AppendError UInt64} (hbefore : ∀ r', s.phase i ≠ .returned r') (hret : s'.phase i = .returned r)
    {k : Nat} {rec : Record} (hk : s'.arrivals[k]? = some (i, rec)) {n : Nat} (hn : n = w₀.pendingSeq + (k + 1))
    (hseq : n ≤ s'.w.pendingSeq) :
    ∃ own last, rounds'.find? (fun c => n ≤ c.upto) = some own ∧ rounds'.getLast? = some last ∧
      r = last.result rec.commitPosition ∧ (r = own.result rec.commitPosition ↔ last.err = own.err) := by
  obtain ⟨hinv, hwaits, hmarked⟩ :=
    runActions_invariant (I := fun x : Group ι × List Completed => Inv w₀ rs₀ x.1 ∧ Waits x.1 ∧ Marked w₀ x.1.w x.2)
      (fun x a x' hx hstep => by
        obtain ⟨t, ht, rfl⟩ := Option.map_eq_some_iff.mp hstep
        exact ⟨step_inv hx.1 ht, (step_waits hx.1 hx.2.1 ht).1, step_marked hx.2.2 ht⟩)
      ⟨start_inv h, start_waits h, fun _ => rfl, by simp⟩ hrun
  obtain ⟨t, ht, heq⟩ := Option.map_eq_some_iff.mp hstep
  cases heq
  subst hn
  obtain ⟨last, hlast, hcov, hr⟩ := returned_last hinv hwaits h.seq hmarked ht hbefore hret hk hseq
  obtain ⟨own, hown⟩ : ∃ own, (rounds ++ s.completes a).find? (fun c => w₀.pendingSeq + (k + 1) ≤ c.upto) = some own := by
    apply Option.isSome_iff_exists.mp
    rw [List.find?_isSome]
    exact ⟨last, List.mem_of_getLast? hlast, by simpa using hcov⟩
  exact ⟨own, last, hown, hlast, hr, by rw [hr, Completed.result_eq_iff]⟩

/-- The follower of `twoCallers` returns after two rounds without an error, the second of them its own. -/
theorem reports_last_round_two : ∃ (s s' : Group Bool) (rounds : List Completed),
    runActions Group.stepRecorded (Group.start freshWAL, []) (twoCallers.take 8) = some (s, rounds) ∧
    Group.stepRecorded (s, rounds) (.wake true) = some (s', rounds) ∧ rounds = [⟨1, none⟩, ⟨2, none⟩] ∧
    s'.phase true = .returned (.ok 2) ∧
    ∃ own last, rounds.find? (fun c => 2 ≤ c.upto) = some own ∧ rounds.getLast? = some last ∧
      .ok 2 = last.result 2 ∧ (Except.ok 2 = own.result 2 ↔ last.err = own.err) := by
  obtain ⟨s, s', rounds, hrun, hstep, hrounds, hbefore, hret, hk, hseq⟩ : ∃ (s s' : Group Bool) (rounds : List Completed),
      runActions Group.stepRecorded (Group.start freshWAL, []) (twoCallers.take 8) = some (s, rounds) ∧
      Group.stepRecorded (s, rounds) (.wake true) = some (s', rounds) ∧ rounds = [⟨1, none⟩, ⟨2, none⟩] ∧
      s.phase true = .waiting 2 2 ∧ s'.phase true = .returned (.ok 2) ∧ s'.arrivals[1]? = some (true, stamp putB 2) ∧
      2 ≤ s'.w.pendingSeq := ⟨_, _, _, rfl, rfl, rfl, rfl, rfl, rfl, by decide⟩
  exact ⟨s, s', rounds, hrun, hstep, hrounds, hret,
    reports_last_round freshWAL_holds (twoCallers.take 8) hrun hstep (by simp [hbefore]) hret hk rfl hseq⟩

/-- The leader's own round succeeds, the round that it then runs for the second caller does not. -/
def leaderOutlivesRound : List (Action Bool) :=
  [.enter false putA (none, none) (none, none) none, .enter true putB (none, none) (none, none) none, .syncBegin false,
    .syncEnd false none, .post false none, .syncBegin false, .syncEnd false (some "input/output error"), .post false none]

/-- The follower's own round fails; before it wakes up, a third caller has led a round that succeeds. -/
def followerWakesLate : List (Action (Fin 3)) :=
  [.enter 0 putA (none, none) (none, none) none, .enter 1 putB (none, none) (none, none) none, .syncBegin 0,
    .syncEnd 0 (some "input/output error"), .post 0 none, .enter 2 putA (none, none) (none, none) none, .syncBegin 2,
    .syncEnd 2 none, .post 2 none, .wake 1]

/-- A caller covered by a round whose fsync succeeded gets an error, and one released by a round whose fsync failed gets
none. -/
theorem other_round_reported :
    (∃ s, runActions Group.stepRecorded (Group.start freshWAL, []) leaderOutlivesRound =
        some (s, [⟨1, none⟩, ⟨2, some (.fsync "input/output error")⟩]) ∧
      s.phase false = .returned (.error (.fsync "input/output error"))) ∧
    ∃ s, runActions Group.stepRecorded (Group.start freshWAL, []) followerWakesLate =
        some (s, [⟨2, some (.fsync "input/output error")⟩, ⟨3, none⟩]) ∧
      s.phase 1 = .returned (.ok 2) :=
  ⟨⟨_, rfl, rfl⟩, ⟨_, rfl, rfl⟩⟩

end Uddp.Wal

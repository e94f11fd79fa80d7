import Uddp.Engine.Recovery
import Uddp.Engine.Stream

/-!
# The life of an engine

Mutations that return, clean restarts, and crashes at any stage of a mutation, in any order and number.

* `Event`, `Engine.after` : one of these, and the engine after it;
* `Keeps e rs n` : the engine `e` holds the history `rs`, of which the first `n` records are durable. `engine.Open` makes
  nothing durable, so after a crash `n` can be smaller than the number of records it has replayed;
* `Evolves rs n ev rs' n'` : what an event does to a history;
* **`after_keeps`** : one event; **`run_keeps`** : a whole life. `after_total` : every event can happen.
-/

namespace Uddp
open Uddp.Lib Uddp.Wal

/-! ## Events -/

inductive Event
  | call (c : Call)
  | restart
  /-- The process stops at the stage `s` of `c`, and `engine.Open` finds the file `f`. -/
  | crash (c : Call) (s : Stage) (f : File)

/-- The engine after an event, if the event can happen. -/
def Engine.after (e : Engine) : Event → Option Engine
  | .call c => some (step e c).2
  | .restart => e.restart.toOption
  | .crash c s f => if Crash (e.inFlight c s) f then (openEngine f).1.toOption else none

def Event.Fits : Event → Prop
  | .call c => c.Fits
  | .restart => True
  | .crash c _ _ => c.Fits

instance : DecidablePred Event.Fits
  | .call c => inferInstanceAs (Decidable c.Fits)
  | .restart => inferInstanceAs (Decidable True)
  | .crash c _ _ => inferInstanceAs (Decidable c.Fits)

/-- What the event leaves in the file is on the disk: a machine that lost its power, or had written everything out. -/
def Event.Lasting : Event → Prop
  | .crash _ _ f => f.synced = f.data.length
  | _ => True

instance : DecidablePred Event.Lasting
  | .call _ => inferInstanceAs (Decidable True)
  | .restart => inferInstanceAs (Decidable True)
  | .crash _ _ f => inferInstanceAs (Decidable (f.synced = f.data.length))

/-! ## Histories that are durable in part -/

/-- The engine `e` holds the history `rs`, of which the first `n` records are durable. -/
structure Keeps (e : Engine) (rs : List Record) (n : Nat) : Prop where
  holds : Holds e.log rs
  tables : e.toTables = tablesOf rs
  sound : Sound rs
  le : n ≤ rs.length
  durable : (logBytes (rs.take n)).length ≤ e.log.out.file.synced

theorem keeps_fresh : Keeps fresh [] 0 := ⟨freshWAL_holds, rfl, ⟨by simp, by simp⟩, le_rfl, le_rfl⟩

theorem Represents.keeps {e : Engine} {rs : List Record} (h : Represents e rs) (hs : Sound rs) : Keeps e rs rs.length :=
  ⟨h.holds, h.tables, hs, le_rfl, by rw [List.take_length, h.durable, h.holds.data]⟩

theorem Keeps.represents {e : Engine} {rs : List Record} (h : Keeps e rs rs.length) : Represents e rs := by
  refine ⟨h.holds, h.tables, le_antisymm e.log.out.file.synced_le ?_⟩
  have hdurable := h.durable
  rwa [List.take_length, ← h.holds.data] at hdurable

theorem Keeps.all {e : Engine} {rs : List Record} {n : Nat} (h : Keeps e rs n)
    (hsync : e.log.out.file.synced = e.log.out.file.data.length) : Keeps e rs rs.length :=
  Represents.keeps ⟨h.holds, h.tables, hsync⟩ h.sound

theorem Keeps.stream {e : Engine} {rs : List Record} {n : Nat} (h : Keeps e rs n) : e.stream = rs :=
  stream_holds h.holds h.sound.fits

/-! ## What an event does to a history -/

/-- The history `rs'`, of which `n'` records are durable, comes from `rs` and `n` by the event. -/
def Evolves (rs : List Record) (n : Nat) : Event → List Record → Nat → Prop
  | .call c, rs', n' => rs' = (answer rs c).2 ∧ (rs' = rs ∧ n' = n ∨ n' = rs'.length)
  | .restart, rs', n' => rs' = rs ∧ n' = n
  | .crash c _ f, rs', n' => (∃ k, n ≤ k ∧ k ≤ (answer rs c).2.length ∧ rs' = (answer rs c).2.take k) ∧ n ≤ n' ∧
      (f.synced = f.data.length → n' = rs'.length)

theorem answer_extends (rs : List Record) (c : Call) : rs <+: (answer rs c).2 := by
  rcases answer_history rs c with hsame | ⟨-, hnew⟩
  · rw [hsame]
  · rw [hnew]
    exact List.prefix_append rs _

/-- The file while a mutation is on its way is a part of the log after it. -/
theorem inFlight_part {e : Engine} {rs : List Record} (h : Holds e.log rs) (ht : e.toTables = tablesOf rs) (c : Call)
    (s : Stage) : (e.inFlight c s).data <+: logBytes (answer rs c).2 ∧ e.log.out.file.synced ≤ (e.inFlight c s).synced := by
  unfold Engine.inFlight answer
  rw [← ht]
  cases e.decide c with
  | hit out => exact ⟨h.data ▸ List.prefix_refl _, le_rfl⟩
  | conflict => exact ⟨h.data ▸ List.prefix_refl _, le_rfl⟩
  | write rec =>
      obtain ⟨q, hq, hdata, hsync⟩ := fileAt_data h rec s
      refine ⟨?_, hsync⟩
      show (e.log.fileAt rec s).data <+: logBytes (rs ++ [stamp rec (nextPosition rs)])
      rw [hdata, logBytes_snoc, show nextPosition rs = e.log.next from h.next.symm]
      exact (List.prefix_append_right_inj _).mpr hq

/-- **`engine.Open`** on any part of a log that has its first `n` records durable. -/
theorem open_keeps {rs : List Record} {n : Nat} (hs : Sound rs) (hst : Stamped 1 rs) (hn : n ≤ rs.length) {f : File}
    (hf : f.data <+: logBytes rs) (hlen : (logBytes (rs.take n)).length ≤ f.data.length)
    (hsync : (logBytes (rs.take n)).length ≤ f.synced) (hc : f.closed = false) :
    ∃ e k n', (openEngine f).1 = .ok e ∧ n ≤ k ∧ k ≤ rs.length ∧ Keeps e (rs.take k) n' ∧ n ≤ n' ∧
      (f.synced = f.data.length → n' = (rs.take k).length) := by
  obtain ⟨k, w, hk, hopen, hw, hsynced, hwhole⟩ := openFile_part (fun t r _ => replayCallback_ok t r) hs.fits hst
    Tables.empty hf ((headerSize_le_logBytes _).trans hlen) hc
  have hnk : n ≤ k := (hwhole n hn).mp hlen
  have hlenk : (rs.take k).length = k := by rw [List.length_take, Nat.min_eq_left hk]
  have hengine : (openEngine f).1 = .ok { tablesOf (rs.take k) with log := w } := by
    unfold openEngine
    rw [hopen]
    rfl
  by_cases hall : f.synced = f.data.length
  · refine ⟨_, k, k, hengine, hnk, hk, ⟨hw, rfl, hs.take k, hlenk.ge, ?_⟩, hnk, fun _ => hlenk.symm⟩
    rw [List.take_take, Nat.min_self]
    show _ ≤ w.out.file.synced
    rw [hsynced, hall]
    exact le_min ((hwhole k hk).mpr le_rfl) le_rfl
  · refine ⟨_, k, n, hengine, hnk, hk, ⟨hw, rfl, hs.take k, hlenk.symm ▸ hnk, ?_⟩, le_rfl, fun h => absurd h hall⟩
    rw [List.take_take, Nat.min_eq_left hnk]
    show _ ≤ w.out.file.synced
    rw [hsynced]
    exact le_min hsync (length_logBytes_mono (List.take_prefix_take_left hnk))

section Steps
variable {e e' : Engine} {rs : List Record} {n : Nat}

theorem Keeps.call (h : Keeps e rs n) {c : Call} (hc : c.Fits) :
    ∃ n', Keeps (step e c).2 (answer rs c).2 n' ∧ Evolves rs n (.call c) (answer rs c).2 n' := by
  obtain ⟨-, hholds, htables, hsame⟩ := step_holds h.holds h.tables c
  have hsound := answer_sound hc h.sound
  rcases hsame with ⟨hsame, hrs⟩ | hsync
  · refine ⟨n, ?_, rfl, Or.inl ⟨hrs, rfl⟩⟩
    rw [hsame, hrs]
    exact h
  · exact ⟨_, Represents.keeps ⟨hholds, htables, hsync⟩ hsound, rfl, Or.inr rfl⟩

theorem Keeps.restart (h : Keeps e rs n) : ∃ e', e.restart = .ok e' ∧ Keeps e' rs n := by
  obtain ⟨e', hopen, hholds, htables, hsync⟩ := openEngine_log h.sound.fits h.holds.stamped (Or.inl rfl) e.log.out.file
    (by rw [h.holds.data, List.append_nil]) h.holds.opened
  refine ⟨e', ?_, hholds, htables, h.sound, h.le, ?_⟩
  · unfold Engine.restart
    rw [(close_holds h.holds).2, hopen]
  · rw [hsync]
    exact le_min h.durable (length_logBytes_mono (List.take_prefix n rs))

theorem Keeps.crash (h : Keeps e rs n) {c : Call} (hc : c.Fits) {s : Stage} {f : File}
    (hcrash : Crash (e.inFlight c s) f) :
    ∃ e' rs' n', (openEngine f).1 = .ok e' ∧ Keeps e' rs' n' ∧ Evolves rs n (.crash c s f) rs' n' := by
  obtain ⟨hdata, hsync⟩ := inFlight_part h.holds h.tables c s
  have hafter := (step_holds h.holds h.tables c).2.1
  have hpre := answer_extends rs c
  have hn := h.le.trans hpre.length_le
  have htake : (answer rs c).2.take n = rs.take n := take_of_part hpre h.le
  have hlen : (logBytes ((answer rs c).2.take n)).length ≤ (e.inFlight c s).synced := htake ▸ h.durable.trans hsync
  obtain ⟨e', k, n', hopen, hnk, hk, hkeeps, hn', hall⟩ := open_keeps (answer_sound hc h.sound) hafter.stamped hn
    (hcrash.kept.trans hdata) (hlen.trans hcrash.durable) (hlen.trans hcrash.synced) hcrash.reopened
  exact ⟨e', _, n', hopen, hkeeps, ⟨k, hnk, hk, rfl⟩, hn', hall⟩

theorem after_keeps (h : Keeps e rs n) {ev : Event} (hfits : ev.Fits) (hafter : e.after ev = some e') :
    ∃ rs' n', Keeps e' rs' n' ∧ Evolves rs n ev rs' n' := by
  cases ev with
  | call c =>
      obtain ⟨n', hkeeps, hevolves⟩ := h.call hfits
      obtain rfl := Option.some.inj hafter
      exact ⟨_, n', hkeeps, hevolves⟩
  | restart =>
      obtain ⟨e₁, hrestart, hkeeps⟩ := h.restart
      simp only [Engine.after, hrestart] at hafter
      obtain rfl := Option.some.inj hafter
      exact ⟨rs, n, hkeeps, rfl, rfl⟩
  | crash c s f =>
      simp only [Engine.after] at hafter
      split at hafter
      · next hcrash =>
        obtain ⟨e₁, rs', n', hopen, hkeeps, hevolves⟩ := h.crash hfits hcrash
        rw [hopen] at hafter
        obtain rfl := Option.some.inj hafter
        exact ⟨rs', n', hkeeps, hevolves⟩
      · exact absurd hafter (by simp)

/-- Nothing stands in the way of an event: restarts and `engine.Open` after a crash succeed. -/
theorem after_total (h : Keeps e rs n) : (∃ e', e.after .restart = some e') ∧
    ∀ (c : Call) (s : Stage) (f : File), c.Fits → Crash (e.inFlight c s) f → ∃ e', e.after (.crash c s f) = some e' := by
  constructor
  · obtain ⟨e', hrestart, -⟩ := h.restart
    exact ⟨e', by simp only [Engine.after, hrestart]; rfl⟩
  · intro c s f hc hcrash
    obtain ⟨e', -, -, hopen, -⟩ := h.crash hc hcrash
    exact ⟨e', by simp only [Engine.after, if_pos hcrash, hopen]; rfl⟩

end Steps

/-! ## What no event takes back -/

section Kept
variable {rs rs' : List Record} {n n' : Nat} {ev : Event}

theorem Evolves.le (h : Evolves rs n ev rs' n') (hn : n ≤ rs.length) : n ≤ n' := by
  cases ev with
  | call c =>
      obtain ⟨rfl, ⟨-, rfl⟩ | rfl⟩ := h
      · exact le_rfl
      · exact hn.trans (answer_extends rs c).length_le
  | restart => exact h.2.ge
  | crash c s f => exact h.2.1

theorem Evolves.take (h : Evolves rs n ev rs' n') (hn : n ≤ rs.length) : rs.take n <+: rs' := by
  cases ev with
  | call c =>
      obtain ⟨rfl, -⟩ := h
      exact (List.take_prefix n rs).trans (answer_extends rs c)
  | restart =>
      obtain ⟨rfl, -⟩ := h
      exact List.take_prefix n _
  | crash c s f =>
      obtain ⟨⟨k, hnk, -, rfl⟩, -⟩ := h
      refine List.prefix_take_iff.mpr ⟨(List.take_prefix n rs).trans (answer_extends rs c), ?_⟩
      rw [List.length_take]
      omega

theorem Evolves.lasting (h : Evolves rs rs.length ev rs' n') (hev : ev.Lasting) : n' = rs'.length := by
  cases ev with
  | call c =>
      obtain ⟨-, ⟨rfl, rfl⟩ | rfl⟩ := h
      · rfl
      · rfl
  | restart =>
      obtain ⟨rfl, rfl⟩ := h
      rfl
  | crash c s f => exact h.2.2 hev

/-- What every mutation and every cut keeps, every event keeps. -/
theorem Evolves.invariant {I : List Record → Prop} (hanswer : ∀ rs c, I rs → I (answer rs c).2)
    (htake : ∀ rs k, I rs → I (rs.take k)) (h : Evolves rs n ev rs' n') (hi : I rs) : I rs' := by
  cases ev with
  | call c => exact h.1 ▸ hanswer rs c hi
  | restart => exact h.1 ▸ hi
  | crash c s f =>
      obtain ⟨⟨k, -, -, rfl⟩, -⟩ := h
      exact htake _ k (hanswer rs c hi)

end Kept

/-! ## Whole lives -/

section Runs
variable {e e' : Engine} {rs : List Record} {n : Nat} {evs : List Event}

/-- **A whole life** keeps what was durable when it began. -/
theorem run_keeps (h : Keeps e rs n) (hfits : ∀ ev ∈ evs, ev.Fits) (hrun : runActions Engine.after e evs = some e') :
    ∃ rs' n', Keeps e' rs' n' ∧ rs.take n <+: rs' ∧ n ≤ n' := by
  induction evs generalizing e rs n with
  | nil =>
      obtain rfl := Option.some.inj hrun
      exact ⟨rs, n, h, List.take_prefix n rs, le_rfl⟩
  | cons ev evs ih =>
      obtain ⟨mid, hmid, hrest⟩ := runActions_cons_iff.mp hrun
      obtain ⟨rs₁, n₁, h₁, hevolves⟩ := after_keeps h (hfits ev (by simp)) hmid
      obtain ⟨rs', n', h', hpre, hle⟩ := ih h₁ (fun x hx => hfits x (by simp [hx])) hrest
      have hn := hevolves.le h.le
      refine ⟨rs', n', h', List.IsPrefix.trans ?_ hpre, hn.trans hle⟩
      refine List.prefix_take_iff.mpr ⟨hevolves.take h.le, ?_⟩
      rw [List.length_take]
      omega

theorem after_represents_lasting {ev : Event} (h : Represents e rs) (hs : Sound rs) (hfits : ev.Fits) (hlasting : ev.Lasting)
    (hafter : e.after ev = some e') : ∃ rs', Represents e' rs' ∧ Sound rs' ∧ rs <+: rs' := by
  obtain ⟨rs', n', h', hevolves⟩ := after_keeps (h.keeps hs) hfits hafter
  obtain rfl := hevolves.lasting hlasting
  have hpre := hevolves.take le_rfl
  rw [List.take_length] at hpre
  exact ⟨rs', h'.represents, h'.sound, hpre⟩

theorem run_represents_lasting (h : Represents e rs) (hs : Sound rs) (hfits : ∀ ev ∈ evs, ev.Fits)
    (hlasting : ∀ ev ∈ evs, ev.Lasting) (hrun : runActions Engine.after e evs = some e') :
    ∃ rs', Represents e' rs' ∧ Sound rs' ∧ rs <+: rs' := by
  induction evs generalizing e rs with
  | nil =>
      obtain rfl := Option.some.inj hrun
      exact ⟨rs, h, hs, List.prefix_refl rs⟩
  | cons ev evs ih =>
      obtain ⟨mid, hmid, hrest⟩ := runActions_cons_iff.mp hrun
      obtain ⟨rs₁, h₁, hs₁, hpre⟩ := after_represents_lasting h hs (hfits ev (by simp)) (hlasting ev (by simp)) hmid
      obtain ⟨rs', h', hs', hpre'⟩ :=
        ih h₁ hs₁ (fun x hx => hfits x (by simp [hx])) (fun x hx => hlasting x (by simp [hx])) hrest
      exact ⟨rs', h', hs', hpre.trans hpre'⟩

theorem run_history {I : List Record → Prop} (hanswer : ∀ rs c, I rs → I (answer rs c).2)
    (htake : ∀ rs k, I rs → I (rs.take k)) (h : Keeps e rs n) (hi : I rs) (hfits : ∀ ev ∈ evs, ev.Fits)
    (hrun : runActions Engine.after e evs = some e') : ∃ rs' n', Keeps e' rs' n' ∧ I rs' := by
  have hinv := runActions_along (P := fun _ ev => ev.Fits) (I := fun e => ∃ rs n, Keeps e rs n ∧ I rs)
    (fun e ev e' ⟨rs, n, hkeeps, hi⟩ hfit hafter => ?_) ⟨rs, n, h, hi⟩ ?_ hrun
  · exact hinv
  · obtain ⟨rs', n', hkeeps', hevolves⟩ := after_keeps hkeeps hfit hafter
    exact ⟨rs', n', hkeeps', hevolves.invariant hanswer htake hi⟩
  · exact along_of_mem hfits e

end Runs

end Uddp

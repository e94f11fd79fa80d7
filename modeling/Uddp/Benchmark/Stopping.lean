import Mathlib.Algebra.Order.BigOperators.Group.Finset
import Uddp.Benchmark.Accounts
import Uddp.Lib.Tally

/-!
# How a run of the benchmark ends

* `Worker.rank`, `Main.rank`, `Bench.left` : the steps that are left when nobody starts another request;
* `Halting`, **`halting_step`** : then every step of a worker or of `Run` is one step less;
* `halting_enabled` : and there is one, unless `Run` has returned;
* **`run_stops`** : `Run` comes to its end behind a cancellation, and behind its measurement.
-/

namespace Uddp.Benchmark
open Uddp.Lib

/-- The steps of a worker to its return, if it is told to stop at its next `select`. -/
def Worker.rank : Worker → Nat
  | .unborn => 2
  | .selecting _ => 1
  | .drawing _ _ => 4
  | .executing _ _ _ _ => 3
  | .recording _ _ => 2
  | .returned _ => 0

/-- The steps of `Run` to its return, behind its loop. -/
def Main.rank : Main → Nat
  | .spawning _ => 6
  | .warming _ => 5
  | .warmed _ => 4
  | .measuring _ _ _ => 3
  | .closing _ _ => 2
  | .waiting _ _ => 1
  | .returned _ _ => 0

def Bench.left (cfg : RunConfig) (x : Bench) : Nat := x.main.rank + ∑ w ∈ Finset.range cfg.workers, (x.workers w).rank

/-- A step of `Run` or of a worker. -/
def BenchAction.busy : BenchAction → Bool
  | .tick _ => false
  | .cancel => false
  | _ => true

section Stopping
variable {src : Source} {cfg : RunConfig} {x y : Bench}

theorem rank_le (p : Worker) : p.rank ≤ 4 := by
  cases p <;> simp [Worker.rank]

theorem left_le (cfg : RunConfig) (x : Bench) : x.left cfg ≤ 6 + 4 * cfg.workers := by
  have hworkers : ∑ w ∈ Finset.range cfg.workers, (x.workers w).rank ≤ ∑ _w ∈ Finset.range cfg.workers, 4 :=
    Finset.sum_le_sum fun w _ => rank_le (x.workers w)
  rw [Finset.sum_const_nat fun _ _ => rfl, Finset.card_range] at hworkers
  have hmain : x.main.rank ≤ 6 := by
    cases x.main <;> simp [Main.rank]
  unfold Bench.left
  omega

theorem left_goto {w : Nat} (hw : w < cfg.workers) (p : Worker) :
    (x.goto w p).left cfg + (x.workers w).rank = x.left cfg + p.rank := by
  have hsum := sum_rank_move (Finset.range cfg.workers) Worker.rank (Finset.mem_range.mpr hw) x.workers p
  have hgoto : (x.goto w p).left cfg =
      x.main.rank + ∑ v ∈ Finset.range cfg.workers, (Function.update x.workers w p v).rank := rfl
  rw [hgoto, Bench.left]
  omega

/-- No worker starts another request. -/
structure Halting (cfg : RunConfig) (begun : Int) (x : Bench) : Prop where
  born : Born cfg x
  main : x.main.Ok cfg begun x
  halt : x.cancelled = true ∨ x.main.rank ≤ 1

theorem Born.lt {w : Nat} (h : Born cfg x) (hw : x.workers w ≠ .unborn) : w < cfg.workers := by
  by_contra hge
  have hle := h.le
  exact hw ((h.unborn w).mpr (by omega))

theorem Halting.stops {begun : Int} (h : Halting cfg begun x) : x.stopAt.isSome ∨ x.cancelled := by
  rcases h.halt with hcancel | hrank
  · exact Or.inr hcancel
  · have hmain := h.main
    cases hphase : x.main with
    | waiting measured window =>
        rw [hphase] at hmain
        obtain ⟨-, t, hstop, -⟩ := hmain
        exact Or.inl (by rw [hstop]; rfl)
    | returned result window =>
        rw [hphase] at hmain
        obtain ⟨-, ⟨t, hstop, -⟩, -⟩ := hmain
        exact Or.inl (by rw [hstop]; rfl)
    | spawning i | warming timer | warmed start | measuring start warm timer | closing measured window =>
        rw [hphase] at hrank
        exact absurd hrank (by simp [Main.rank])

/-- **A step** of a worker or of `Run` is one step less. -/
theorem halting_step {begun : Int} {a : BenchAction} (h : Halting cfg begun x) (hstep : x.step src cfg a = some y) :
    Halting cfg begun y ∧ y.left cfg + a.busy.toNat ≤ x.left cfg := by
  have hhalt : (x.cancelled = true → y.cancelled = true) → y.main.rank ≤ x.main.rank → Halting cfg begun y :=
    fun hcancel hrank => ⟨born_step h.born hstep, main_step h.born h.main hstep, h.halt.imp hcancel hrank.trans⟩
  have hworker : ∀ (z : Bench) w p, z.workers = x.workers → z.main = x.main → x.workers w ≠ .unborn →
      p.rank < (x.workers w).rank → (z.goto w p).left cfg + 1 ≤ x.left cfg := by
    intro z w p hworkers hmain hunborn hless
    have hgoto := left_goto (x := z) (h.born.lt hunborn) p
    have hleft : z.left cfg = x.left cfg := by
      unfold Bench.left
      rw [hworkers, hmain]
    rw [hworkers] at hgoto
    omega
  have hrun : ∀ z : Bench, z.workers = x.workers → z.main.rank < x.main.rank → z.left cfg + 1 ≤ x.left cfg := by
    intro z hworkers hless
    unfold Bench.left
    rw [hworkers]
    omega
  cases moves_of_step hstep with
  | tick d => exact ⟨hhalt id le_rfl, le_rfl⟩
  | cancel => exact ⟨hhalt (fun _ => rfl) le_rfl, le_rfl⟩
  | spawn i hi hlt =>
      have hunborn : x.workers i = .unborn := (h.born.unborn i).mpr (by rw [hi]; exact le_rfl)
      have hgoto := left_goto (x := x) hlt (.selecting 0)
      have hsame : Bench.left cfg { x.goto i (.selecting 0) with main := .spawning (i + 1) } =
          (x.goto i (.selecting 0)).left cfg := by
        have hmain : (x.goto i (.selecting 0)).main = .spawning i := hi
        unfold Bench.left
        rw [hmain]
        rfl
      refine ⟨hhalt id (by rw [hi]; exact le_rfl), ?_⟩
      rw [hsame]
      rw [hunborn] at hgoto
      simp only [Worker.rank] at hgoto
      simp only [BenchAction.busy, Bool.toNat_true]
      omega
  | spawned i hi hle => exact ⟨hhalt id (by simp [hi, Main.rank]), hrun _ rfl (by simp [hi, Main.rank])⟩
  | stop w n hw hstop => exact ⟨hhalt id le_rfl, hworker x w _ rfl rfl (by simp [hw]) (by simp [hw, Worker.rank])⟩
  | choose w n hw hgo =>
      have hstops := h.stops
      rw [hgo.1, hgo.2] at hstops
      simp at hstops
  | begin w n chosen hw => exact ⟨hhalt id le_rfl, hworker x w _ rfl rfl (by simp [hw]) (by simp [hw, Worker.rank])⟩
  | finish w n req chosen start err hw =>
      exact ⟨hhalt id le_rfl, hworker x w _ rfl rfl (by simp [hw]) (by simp [hw, Worker.rank])⟩
  | record w n a hw => exact ⟨hhalt id le_rfl, hworker (x.took a) w _ rfl rfl (by simp [hw]) (by simp [hw, Worker.rank])⟩
  | warm timer hi hle => exact ⟨hhalt id (by simp [hi, Main.rank]), hrun _ rfl (by simp [hi, Main.rank])⟩
  | abort timer hi hcancel => exact ⟨hhalt id (by simp [hi, Main.rank]), hrun _ rfl (by simp [hi, Main.rank])⟩
  | setWarmedUp start hi => exact ⟨hhalt id (by simp [hi, Main.rank]), hrun _ rfl (by simp [hi, Main.rank])⟩
  | measured a ha start warm timer hi hend =>
      refine ⟨hhalt id (by simp [hi, Main.rank]), ?_⟩
      have hless := hrun { x with main := .closing (sub x.now start) (some ⟨start, warm, x.now⟩) } rfl (by simp [hi, Main.rank])
      have hbusy : a.busy.toNat ≤ 1 := Bool.toNat_le a.busy
      omega
  | close measured window hi => exact ⟨hhalt id (by simp [hi, Main.rank]), hrun _ rfl (by simp [hi, Main.rank])⟩
  | wait measured window hi hall => exact ⟨hhalt id (by simp [hi, Main.rank]), hrun _ rfl (by simp [hi, Main.rank])⟩

theorem worker_enabled {w : Nat} (hborn : x.workers w ≠ .unborn) (hreturned : (x.workers w).hasReturned ≠ true) :
    ∃ a : BenchAction, a.busy = true ∧ (x.step src cfg a).isSome := by
  cases hw : x.workers w with
  | unborn => exact absurd hw hborn
  | selecting n =>
      refine ⟨.select w, rfl, ?_⟩
      simp only [Bench.step, hw]
      split
      · rfl
      · rfl
  | drawing n chosen => exact ⟨.begin w, rfl, by simp only [Bench.step, hw, Option.isSome_some]⟩
  | executing n req chosen start => exact ⟨.finish w none, rfl, by simp only [Bench.step, hw, Option.isSome_some]⟩
  | recording n a => exact ⟨.record w, rfl, by simp only [Bench.step, hw, Option.isSome_some]⟩
  | returned n =>
      rw [hw] at hreturned
      exact absurd rfl hreturned

/-- Unless `Run` has returned, there is a step that the clock does not have to wait for. -/
theorem halting_enabled {begun : Int} (h : Halting cfg begun x) :
    (∃ result window, x.main = .returned result window) ∨ ∃ a : BenchAction, a.busy = true ∧ (x.step src cfg a).isSome := by
  cases hmain : x.main with
  | returned result window => exact Or.inl ⟨result, window, rfl⟩
  | spawning i =>
      refine Or.inr ⟨.spawn, rfl, ?_⟩
      simp only [Bench.step, hmain]
      split
      · rfl
      · rfl
  | warming timer =>
      have hcancel : x.cancelled = true := h.halt.resolve_right (by simp [hmain, Main.rank])
      exact Or.inr ⟨.abort, rfl, by simp only [Bench.step, hmain, hcancel, if_true, Option.isSome_some]⟩
  | warmed start => exact Or.inr ⟨.setWarmedUp, rfl, by simp only [Bench.step, hmain, Option.isSome_some]⟩
  | measuring start warm timer =>
      have hcancel : x.cancelled = true := h.halt.resolve_right (by simp [hmain, Main.rank])
      exact Or.inr ⟨.interrupt, rfl, by simp only [Bench.step, hmain, hcancel, if_true, Option.isSome_some]⟩
  | closing measured window => exact Or.inr ⟨.close, rfl, by simp only [Bench.step, hmain, Option.isSome_some]⟩
  | waiting measured window =>
      -- `wg.Wait` goes on, or one of those it waits for does
      by_cases hall : (List.range cfg.workers).all fun w => (x.workers w).hasReturned
      · exact Or.inr ⟨.wait, rfl, by simp only [Bench.step, hmain, hall, if_true, Option.isSome_some]⟩
      · obtain ⟨w, hw, hreturned⟩ : ∃ w < cfg.workers, (x.workers w).hasReturned ≠ true := by
          simpa using hall
        refine Or.inr (worker_enabled (w := w) (fun hunborn => ?_) hreturned)
        have hle := (h.born.unborn w).mp hunborn
        rw [hmain] at hle
        exact absurd hle (Nat.not_le_of_lt hw)

/-- **`Run` comes to its end.** Once the context is cancelled, or `stop` is closed, at most six steps and four for each worker
follow, those of `Run`, its spawns among them, and those of the workers together, in whatever order they are taken, provided that
`Execute` returns; and as long as `Run` has not returned, somebody can take a step. -/
theorem run_stops {begun : Int} {as bs : List BenchAction}
    (hrun : runActions (Bench.step src cfg) (Bench.start begun) as = some x)
    (hhalt : x.cancelled = true ∨ ∃ measured window, x.main = .waiting measured window)
    (hrest : runActions (Bench.step src cfg) x bs = some y) :
    bs.countP BenchAction.busy ≤ 6 + 4 * cfg.workers ∧
    ((∃ result window, y.main = .returned result window) ∨
      ∃ a : BenchAction, a.busy = true ∧ (y.step src cfg a).isSome) := by
  obtain ⟨hborn, -, -, hmain⟩ := bench_run hrun
  have hrank : x.cancelled = true ∨ x.main.rank ≤ 1 := by
    rcases hhalt with hcancel | ⟨measured, window, hwaiting⟩
    · exact Or.inl hcancel
    · exact Or.inr (by simp [hwaiting, Main.rank])
  obtain ⟨hlast, hcount⟩ := runActions_countP_le (I := Halting cfg begun) (Bench.left cfg) BenchAction.busy (fun _ => false) 0
    (fun _ _ _ h hstep => halting_step h hstep) ⟨hborn, hmain, hrank⟩ hrest
  have hle := left_le cfg x
  exact ⟨by omega, halting_enabled hlast⟩

end Stopping

theorem run_stops_oneWorker : ∃ x y : Bench,
    runActions (Bench.step evenSource oneWorker) (Bench.start 0) [.spawn, .select 0, .begin 0, .cancel] = some x ∧
    x.cancelled = true ∧
    runActions (Bench.step evenSource oneWorker) x [.finish 0 none, .record 0, .spawn] = some y ∧
    ((∃ result window, y.main = .returned result window) ∨
      ∃ a : BenchAction, a.busy = true ∧ (y.step evenSource oneWorker a).isSome) := by
  let x := (runActions (Bench.step evenSource oneWorker) (Bench.start 0) [.spawn, .select 0, .begin 0, .cancel]).get rfl
  let y := (runActions (Bench.step evenSource oneWorker) x [.finish 0 none, .record 0, .spawn]).get rfl
  have hx : runActions (Bench.step evenSource oneWorker) (Bench.start 0) [.spawn, .select 0, .begin 0, .cancel] = some x :=
    (Option.some_get _).symm
  have hy : runActions (Bench.step evenSource oneWorker) x [.finish 0 none, .record 0, .spawn] = some y :=
    (Option.some_get _).symm
  exact ⟨x, y, hx, rfl, hy, (run_stops hx (Or.inl rfl) hy).2⟩

end Uddp.Benchmark

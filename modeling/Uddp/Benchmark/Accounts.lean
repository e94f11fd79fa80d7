import Uddp.Benchmark.Runner

/-!
# What a report of the benchmark counts

* `Recorded`, `recorded_step` : the recorder holds what came behind `SetWarmedUp`;
* `Measured`, `Main.Ok`, `main_step` : the window in which `Run` measures; `bench_run` : every state of a run;
* `newReport` : the report;
* **`report_accounts`** : the requests that it counts.
-/

namespace Uddp.Benchmark
open Uddp.Lib

/-! ## The recorder and `Run` -/

section Windows
variable {src : Source} {cfg : RunConfig} {x y : Bench}

/-- When the recorder was told that the workers are warm. -/
def Main.warmAt : Main → Option Int
  | .spawning _ => none
  | .warming _ => none
  | .warmed _ => none
  | .measuring _ warm _ => some warm
  | .closing _ window => window.map Window.warm
  | .waiting _ window => window.map Window.warm
  | .returned _ window => window.map Window.warm

/-- What the recorder holds after `early` and `counted`, if it was told at `warm`. -/
structure Took (r : Recorder) (warm : Int) (early counted : List Attempt) : Prop where
  collected : Collected r (counted.map Attempt.sample)
  early : ∀ a ∈ early, a.recorded ≤ warm
  counted : ∀ a ∈ counted, warm ≤ a.recorded

/-- The recorder holds what was recorded since it was told, and nothing before. -/
def Recorded (x : Bench) : Prop :=
  match x.main.warmAt with
  | none => x.recorder = newRecorder
  | some warm => warm ≤ x.now ∧ ∃ early counted, x.attempts = early ++ counted ∧ Took x.recorder warm early counted

theorem Recorded.of_eq (h : Recorded x) (hnow : x.now ≤ y.now) (hrecorder : y.recorder = x.recorder)
    (hattempts : y.attempts = x.attempts) (hwarm : y.main.warmAt = x.main.warmAt) : Recorded y := by
  unfold Recorded at h ⊢
  rw [hwarm, hrecorder, hattempts]
  cases hmain : x.main.warmAt with
  | none =>
      rw [hmain] at h
      exact h
  | some warm =>
      rw [hmain] at h
      exact ⟨h.1.trans hnow, h.2⟩

theorem Recorded.took {w : Nat} {p : Worker} {a : Attempt} (h : Recorded x) : Recorded ((x.took a).goto w p) := by
  unfold Recorded at h ⊢
  have hmain : ((x.took a).goto w p).main = x.main := rfl
  rw [hmain]
  cases hwarm : x.main.warmAt with
  | none =>
      rw [hwarm] at h
      show x.recorder.record a.sample = newRecorder
      rw [h]
      rfl
  | some warm =>
      rw [hwarm] at h
      obtain ⟨hle, early, counted, hattempts, htook⟩ := h
      refine ⟨hle, early, counted ++ [{ a with recorded := x.now }], ?_, ?_, htook.early, ?_⟩
      · show x.attempts ++ _ = _
        rw [hattempts, List.append_assoc]
      · rw [List.map_append]
        exact htook.collected.record a.sample
      · intro b hb
        rcases List.mem_append.mp hb with hold | hnew
        · exact htook.counted b hold
        · rw [List.mem_singleton] at hnew
          subst hnew
          exact hle

theorem recorded_step {a : BenchAction} (hattempted : Attempted src cfg x) (h : Recorded x)
    (hstep : x.step src cfg a = some y) : Recorded y := by
  cases moves_of_step hstep with
  | tick d => exact h.of_eq (Int.le_add_of_nonneg_right (Int.natCast_nonneg d)) rfl rfl rfl
  | cancel => exact h.of_eq le_rfl rfl rfl rfl
  | spawn i hmain hlt => exact h.of_eq le_rfl rfl rfl (by rw [hmain]; rfl)
  | spawned i hmain hle => exact h.of_eq le_rfl rfl rfl (by rw [hmain]; rfl)
  | stop w n hw hstop => exact h.of_eq le_rfl rfl rfl rfl
  | choose w n hw hgo => exact h.of_eq le_rfl rfl rfl rfl
  | begin w n chosen hw => exact h.of_eq le_rfl rfl rfl rfl
  | finish w n req chosen start err hw => exact h.of_eq le_rfl rfl rfl rfl
  | record w n a hw => exact h.took
  | warm timer hmain hle => exact h.of_eq le_rfl rfl rfl (by rw [hmain]; rfl)
  | abort timer hmain hcancel => exact h.of_eq le_rfl rfl rfl (by rw [hmain]; rfl)
  | setWarmedUp start hmain =>
      unfold Recorded at h
      rw [hmain] at h
      have hfresh : x.recorder = newRecorder := h
      refine ⟨le_rfl, x.attempts, [], (List.append_nil _).symm, ⟨rfl, fun op => ?_, fun op => ?_⟩, ?_, ?_⟩
      · show x.recorder.samples op = none
        rw [hfresh]
        rfl
      · show x.recorder.errors op = none
        rw [hfresh]
        rfl
      · exact fun a ha => (hattempted.attempt a ha).recorded_now
      · exact fun a ha => absurd ha List.not_mem_nil
  | measured a ha start warm timer hmain hend => exact h.of_eq le_rfl rfl rfl (by rw [hmain]; rfl)
  | close measured window hmain => exact h.of_eq le_rfl rfl rfl (by rw [hmain]; rfl)
  | wait measured window hmain hall => exact h.of_eq le_rfl rfl rfl (by rw [hmain]; rfl)

/-- The measured duration, and its window. Without one, `Run` was cancelled before it measured. -/
def Measured (cfg : RunConfig) (begun : Int) (cancelled : Bool) (measured : Duration) : Option Window → Prop
  | none => cancelled = true ∧ measured = 0
  | some window => begun + cfg.warmup.toInt ≤ window.start ∧ window.start ≤ window.warm ∧ window.warm ≤ window.finish ∧
      (cancelled = true ∨ window.warm + cfg.duration.toInt ≤ window.finish) ∧ measured = sub window.finish window.start

/-- Where `Run` is, and what it has behind it. -/
def Main.Ok (cfg : RunConfig) (begun : Int) (x : Bench) : Main → Prop
  | .spawning _ => begun ≤ x.now
  | .warming timer => begun + cfg.warmup.toInt ≤ timer
  | .warmed start => begun + cfg.warmup.toInt ≤ start ∧ start ≤ x.now
  | .measuring start warm timer => begun + cfg.warmup.toInt ≤ start ∧ start ≤ warm ∧ warm ≤ x.now ∧
      warm + cfg.duration.toInt ≤ timer
  | .closing measured window => Measured cfg begun x.cancelled measured window ∧ ∀ w ∈ window, w.finish ≤ x.now
  | .waiting measured window => Measured cfg begun x.cancelled measured window ∧
      ∃ t, x.stopAt = some t ∧ ∀ w ∈ window, w.finish ≤ t
  | .returned result window => Measured cfg begun x.cancelled result.measuredDuration window ∧
      (∃ t, x.stopAt = some t ∧ ∀ w ∈ window, w.finish ≤ t) ∧
      (∀ w < cfg.workers, (x.workers w).hasReturned = true) ∧ result.config = cfg ∧ result.stats = x.recorder.compute

theorem le_timerAt (now : Int) (d : Duration) : now + d.toInt ≤ timerAt now d := by
  unfold timerAt
  omega

theorem Measured.cancel {begun : Int} {cancelled cancelled' : Bool} {measured : Duration} {window : Option Window}
    (h : Measured cfg begun cancelled measured window) (hcancel : cancelled = true → cancelled' = true) :
    Measured cfg begun cancelled' measured window := by
  cases window with
  | none => exact ⟨hcancel h.1, h.2⟩
  | some window =>
      obtain ⟨hstart, hwarm, hfinish, hend, hmeasured⟩ := h
      exact ⟨hstart, hwarm, hfinish, hend.imp_left hcancel, hmeasured⟩

theorem Main.Ok.later {begun : Int} {m : Main} (h : m.Ok cfg begun x) (hnow : x.now ≤ y.now)
    (hcancel : x.cancelled = true → y.cancelled = true) (hstop : y.stopAt = x.stopAt)
    (hend : ∀ result window, m = .returned result window → y.workers = x.workers ∧ y.recorder = x.recorder) :
    m.Ok cfg begun y := by
  cases m with
  | spawning i => exact Int.le_trans h hnow
  | warming timer => exact h
  | warmed start => exact ⟨h.1, h.2.trans hnow⟩
  | measuring start warm timer => exact ⟨h.1, h.2.1, h.2.2.1.trans hnow, h.2.2.2⟩
  | closing measured window => exact ⟨h.1.cancel hcancel, fun w hw => (h.2 w hw).trans hnow⟩
  | waiting measured window =>
      refine ⟨h.1.cancel hcancel, ?_⟩
      rw [hstop]
      exact h.2
  | returned result window =>
      obtain ⟨hworkers, hrecorder⟩ := hend result window rfl
      obtain ⟨hmeasured, hstopped, hall, hconfig, hstats⟩ := h
      refine ⟨hmeasured.cancel hcancel, ?_, ?_, hconfig, ?_⟩
      · rw [hstop]
        exact hstopped
      · rw [hworkers]
        exact hall
      · rw [hrecorder]
        exact hstats

theorem settled {begun : Int} {result : Result} {window : Option Window} (hborn : Born cfg x)
    (h : x.main.Ok cfg begun x) (hmain : x.main = .returned result window) (w : Nat) :
    x.workers w = .unborn ∨ (x.workers w).hasReturned = true := by
  have hunborn := hborn.unborn w
  rw [hmain] at h hunborn
  by_cases hw : w < cfg.workers
  · exact Or.inr (h.2.2.1 w hw)
  · exact Or.inl (hunborn.mpr (Nat.le_of_not_lt hw))

theorem main_step {begun : Int} {a : BenchAction} (hborn : Born cfg x) (h : x.main.Ok cfg begun x)
    (hstep : x.step src cfg a = some y) : y.main.Ok cfg begun y := by
  -- a worker that takes a step has not returned, and neither has `Run`
  have hbusy : ∀ w p, x.workers w = p → p ≠ .unborn → p.hasReturned = false →
      ∀ result window, x.main = .returned result window → y.workers = x.workers ∧ y.recorder = x.recorder := by
    rintro w p rfl hunborn hreturned result window hmain
    rcases settled hborn h hmain w with hw | hw
    · exact absurd hw hunborn
    · rw [hreturned] at hw
      cases hw
  cases moves_of_step hstep with
  | tick d => exact h.later (Int.le_add_of_nonneg_right (Int.natCast_nonneg d)) id rfl (fun _ _ _ => ⟨rfl, rfl⟩)
  | cancel => exact h.later le_rfl (fun _ => rfl) rfl (fun _ _ _ => ⟨rfl, rfl⟩)
  | stop w n hw hstop => exact h.later le_rfl id rfl (hbusy w _ hw (by simp) rfl)
  | choose w n hw hgo => exact h.later le_rfl id rfl (hbusy w _ hw (by simp) rfl)
  | begin w n chosen hw => exact h.later le_rfl id rfl (hbusy w _ hw (by simp) rfl)
  | finish w n req chosen start err hw => exact h.later le_rfl id rfl (hbusy w _ hw (by simp) rfl)
  | record w n a hw => exact h.later le_rfl id rfl (hbusy w _ hw (by simp) rfl)
  | spawn i hmain hlt =>
      rw [hmain] at h
      exact h
  | spawned i hmain hle =>
      rw [hmain] at h
      have hbegun : begun ≤ x.now := h
      have htimer := le_timerAt x.now cfg.warmup
      show begun + cfg.warmup.toInt ≤ timerAt x.now cfg.warmup
      omega
  | warm timer hmain hle =>
      rw [hmain] at h
      exact ⟨Int.le_trans h hle, le_rfl⟩
  | abort timer hmain hcancel => exact ⟨⟨hcancel, rfl⟩, fun w hw => by cases hw⟩
  | setWarmedUp start hmain =>
      rw [hmain] at h
      exact ⟨h.1, h.2, le_rfl, le_timerAt _ _⟩
  | measured a ha start warm timer hmain hend =>
      rw [hmain] at h
      obtain ⟨hstart, hwarm, hnow, htimer⟩ := h
      refine ⟨⟨hstart, hwarm, hnow, ?_, rfl⟩, fun w hw => ?_⟩
      · rcases hend with hle | hcancel
        · exact Or.inr (htimer.trans hle)
        · exact Or.inl hcancel
      · cases hw
        exact le_rfl
  | close measured window hmain =>
      rw [hmain] at h
      exact ⟨h.1, x.now, rfl, h.2⟩
  | wait measured window hmain hall =>
      rw [hmain] at h
      exact ⟨h.1, h.2, hall, rfl, rfl⟩

theorem bench_run {begun : Int} {as : List BenchAction}
    (hrun : runActions (Bench.step src cfg) (Bench.start begun) as = some x) :
    Born cfg x ∧ Attempted src cfg x ∧ Recorded x ∧ x.main.Ok cfg begun x := by
  refine runActions_invariant
    (I := fun x => Born cfg x ∧ Attempted src cfg x ∧ Recorded x ∧ x.main.Ok cfg begun x) ?_ ?_ hrun
  · rintro x a y ⟨hborn, hattempted, hrecorded, hmain⟩ hstep
    exact ⟨born_step hborn hstep, attempted_step hborn hattempted hstep, recorded_step hattempted hrecorded hstep,
      main_step hborn hmain hstep⟩
  · exact ⟨born_start cfg begun, attempted_start begun, rfl, le_rfl⟩

end Windows

/-! ## The report -/

/-- `Throughput`; quotients of floats are taken exactly. -/
def OpStats.throughput (s : OpStats) (measuredDuration : Duration) : ℚ :=
  let total := s.count + s.errors
  if measuredDuration ≤ 0 ∨ total = 0 then 0 else total / (measuredDuration.toInt / 10 ^ 9)

structure OpReport where
  count : Nat
  errors : Nat
  throughput : ℚ
  p50Ns : Int64
  p95Ns : Int64
  p99Ns : Int64
  p999Ns : Int64
  minNs : Int64
  maxNs : Int64
  meanNs : Int64
  deriving DecidableEq, Repr

def opName : Op → String
  | .get => "get"
  | .put => "put"

def opReport (measuredDuration : Duration) (s : OpStats) : OpReport :=
  { count := s.count
    errors := s.errors
    throughput := s.throughput measuredDuration
    p50Ns := s.p50
    p95Ns := s.p95
    p99Ns := s.p99
    p999Ns := s.p999
    minNs := s.min
    maxNs := s.max
    meanNs := s.mean }

structure Report where
  workload : WorkloadConfig
  concurrency : Int64
  warmup : Duration
  duration : Duration
  measured : Duration
  ops : String → Option OpReport

/-- `NewReport`, without the environment. -/
def newReport (result : Result) : Report :=
  { workload := result.config.workload
    concurrency := result.config.concurrency
    warmup := result.config.warmup
    duration := result.config.duration
    measured := result.measuredDuration
    ops := fun name =>
      ([Op.get, Op.put].find? fun op => opName op = name).bind fun op =>
        (result.stats op).map (opReport result.measuredDuration) }

theorem newReport_ops (result : Result) (op : Op) :
    (newReport result).ops (opName op) = (result.stats op).map (opReport result.measuredDuration) := by
  cases op with
  | get => rfl
  | put => rfl

/-! ## What the report counts -/

section Accounts
variable {src : Source} {cfg : RunConfig} {x : Bench}

theorem Attempted.worker_lt {result : Result} {window : Option Window} (hborn : Born cfg x) (h : Attempted src cfg x)
    (hdone : x.main = .returned result window) {a : Attempt} (ha : a ∈ x.attempts) : a.worker < cfg.workers := by
  by_contra hge
  have hunborn : x.workers a.worker = .unborn := (hborn.unborn a.worker).mpr (by rw [hdone]; exact Nat.le_of_not_lt hge)
  have hsent := h.worker a.worker
  rw [hunborn] at hsent
  have hnil : own a.worker x.attempts = [] := List.map_eq_nil_iff.mp hsent
  have hmem : a ∈ own a.worker x.attempts := List.mem_filter.mpr ⟨ha, by simp⟩
  rw [hnil] at hmem
  exact List.not_mem_nil hmem

/-- At most one attempt of each worker is on its way when `stop` is closed. -/
theorem Attempted.late {stop : Int} (h : Attempted src cfg x) (hstop : x.stopAt = some stop)
    (hworker : ∀ a ∈ x.attempts, a.worker < cfg.workers) :
    (x.attempts.filter fun a => stop < a.finish).length ≤ cfg.workers := by
  have hdistinct : ((x.attempts.filter fun a => stop < a.finish).map Attempt.worker).Nodup := by
    rw [List.Nodup, List.pairwise_map]
    refine (h.order.filter _).imp_of_mem ?_
    intro a b ha hb hab hsame
    obtain ⟨ha, hlate⟩ := List.mem_filter.mp ha
    have hrecorded := (h.attempt a ha).finish_recorded
    have hchosen := (h.attempt b (List.mem_filter.mp hb).1).before stop hstop
    have hbehind := hab hsame
    have hlate : stop < a.finish := by simpa using hlate
    omega
  have hsubset : (x.attempts.filter fun a => stop < a.finish).map Attempt.worker ⊆ List.range cfg.workers := by
    intro w hw
    obtain ⟨a, ha, rfl⟩ := List.mem_map.mp hw
    exact List.mem_range.mpr (hworker a (List.mem_filter.mp ha).1)
  have hlength := (hdistinct.subperm hsubset).length_le
  rwa [List.length_map, List.length_range] at hlength

theorem newRecorder_compute (op : Op) : newRecorder.compute op = statsOf op [] := rfl

theorem Recorded.returned {result : Result} {window : Option Window} (h : Recorded x)
    (hdone : x.main = .returned result window) :
    ∃ early counted, x.attempts = early ++ counted ∧
      (∀ op, x.recorder.compute op = statsOf op (counted.map Attempt.sample)) ∧ (window = none → counted = []) ∧
      ∀ span ∈ window, (∀ a ∈ early, a.recorded ≤ span.warm) ∧ ∀ a ∈ counted, span.warm ≤ a.recorded := by
  unfold Recorded at h
  rw [hdone] at h
  cases window with
  | none =>
      have hfresh : x.recorder = newRecorder := h
      refine ⟨x.attempts, [], (List.append_nil _).symm, fun op => ?_, fun _ => rfl, fun span hspan => by cases hspan⟩
      rw [hfresh]
      exact newRecorder_compute op
  | some span =>
      obtain ⟨-, early, counted, hattempts, htook⟩ := h
      refine ⟨early, counted, hattempts, fun op => htook.collected.compute op, nofun, ?_⟩
      intro span' hspan
      cases hspan
      exact ⟨htook.early, htook.counted⟩

/-- **What a report counts.** When `Run` has returned, in whatever order its workers, itself and the clock took their steps:
every worker has returned, and each request that it drew was executed and recorded, once and in order. Those recorded behind
`SetWarmedUp` are counted and make up the report, and no others are. The measured window begins behind the warmup and is as long as
was asked for, unless the context was cancelled; and no more requests than there are workers end after `stop` was closed. -/
theorem report_accounts {begun : Int} {as : List BenchAction}
    (hrun : runActions (Bench.step src cfg) (Bench.start begun) as = some x) {result : Result} {window : Option Window}
    (hdone : x.main = .returned result window) :
    (∀ w < cfg.workers, ∃ n, x.workers w = .returned n ∧ Sent src cfg w n x.attempts) ∧
    (∀ a ∈ x.attempts, a.worker < cfg.workers ∧ a.start ≤ a.finish ∧ a.finish ≤ a.recorded) ∧
    Measured cfg begun x.cancelled result.measuredDuration window ∧
    (∃ early counted, x.attempts = early ++ counted ∧
      (∀ op, (newReport result).ops (opName op) =
        (statsOf op (counted.map Attempt.sample)).map (opReport result.measuredDuration)) ∧
      (window = none → counted = []) ∧
      ∀ span ∈ window, (∀ a ∈ early, a.recorded ≤ span.warm) ∧ ∀ a ∈ counted, span.warm ≤ a.recorded) ∧
    ∃ stop, x.stopAt = some stop ∧ (∀ span ∈ window, span.finish ≤ stop) ∧ (∀ a ∈ x.attempts, a.chosen ≤ stop) ∧
      (x.attempts.filter fun a => stop < a.finish).length ≤ cfg.workers := by
  obtain ⟨hborn, hattempted, hrecorded, hmain⟩ := bench_run hrun
  have hlt : ∀ a ∈ x.attempts, a.worker < cfg.workers := fun a ha => hattempted.worker_lt hborn hdone ha
  obtain ⟨early, counted, hattempts, hcompute, hnone, hspan⟩ := hrecorded.returned hdone
  rw [hdone] at hmain
  obtain ⟨hmeasured, ⟨stop, hstop, hfinish⟩, hall, -, hstats⟩ := hmain
  refine ⟨fun w hw => ?_, fun a ha => ?_, hmeasured, ⟨early, counted, hattempts, fun op => ?_, hnone, hspan⟩,
    stop, hstop, hfinish, fun a ha => ?_, hattempted.late hstop hlt⟩
  · have hok := hattempted.worker w
    have hreturned := hall w hw
    cases hphase : x.workers w with
    | returned n =>
        rw [hphase] at hok
        exact ⟨n, rfl, hok⟩
    | unborn | selecting n | drawing n chosen | executing n req chosen start | recording n a =>
        rw [hphase] at hreturned
        cases hreturned
  · exact ⟨hlt a ha, (hattempted.attempt a ha).start_finish, (hattempted.attempt a ha).finish_recorded⟩
  · rw [newReport_ops, hstats, hcompute]
  · exact (hattempted.attempt a ha).before stop hstop

end Accounts

/-- A source that always gives the first key, and reads it. -/
def evenSource : Source :=
  { value := fun _ => []
    draw := fun _ _ => Draw.of 0 le_rfl zero_lt_one 0 (by decide)
    coin := fun _ _ => 0 }

/-- One worker, no warmup. -/
def oneWorker : RunConfig := ⟨⟨1, 1, 0, 0⟩, 1, 0, 10⟩

/-- One request is recorded while the worker warms up, one is measured, and one is on its way when the worker is stopped. -/
def oneWorkerActions : List BenchAction :=
  [.spawn, .spawn, .select 0, .begin 0, .tick 3, .finish 0 none, .record 0, .warm, .setWarmedUp, .select 0, .begin 0, .tick 4,
    .finish 0 (some "unavailable"), .record 0, .select 0, .tick 6, .elapse, .close, .begin 0, .tick 5, .finish 0 none,
    .record 0, .select 0, .wait]

theorem report_accounts_oneWorker : ∃ (x : Bench) (result : Result) (window : Option Window),
    runActions (Bench.step evenSource oneWorker) (Bench.start 0) oneWorkerActions = some x ∧
    x.main = .returned result window ∧ Measured oneWorker 0 x.cancelled result.measuredDuration window := by
  have hmain : ∃ result window, (runActions (Bench.step evenSource oneWorker) (Bench.start 0) oneWorkerActions).map Bench.main =
      some (.returned result window) := ⟨_, _, rfl⟩
  obtain ⟨result, window, hmain⟩ := hmain
  obtain ⟨x, hx, hdone⟩ := Option.map_eq_some_iff.mp hmain
  exact ⟨x, result, window, hx, hdone, (report_accounts hx hdone).2.2.1⟩

end Uddp.Benchmark

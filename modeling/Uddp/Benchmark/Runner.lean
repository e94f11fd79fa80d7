import Uddp.Benchmark.Stats
import Uddp.Lib.Machine

/-!
# A run of the benchmark

`Run` starts its workers, lets them warm up, measures, and stops them. The workers, `Run` itself and the recorder that they
share take one step at a time, in any order, and the clock goes on in between.

* `RunConfig`, `Source`, `Attempt` : what is to be run, what the workers draw, and what becomes of a request;
* `Worker`, `Main`, `Bench`, `Bench.step` : the machine; `Moves`, **`moves_of_step`** : its steps, one constructor for each way
  of taking one;
* `Born`, `born_step` : the workers that the loop of `Run` has started;
* `Attempted`, **`attempted_step`** : the requests, one at a time in each worker.
-/

namespace Uddp.Benchmark
open Uddp.Lib

/-! ## The machine -/

structure RunConfig where
  workload : WorkloadConfig
  concurrency : Int64
  warmup : Duration
  duration : Duration

/-- How often the loop of `Run` starts a worker. -/
def RunConfig.workers (cfg : RunConfig) : Nat := cfg.concurrency.toInt.toNat

structure Result where
  config : RunConfig
  measuredDuration : Duration
  stats : Op → Option OpStats

/-- The random sources, by their seeds. -/
structure Source where
  value : Int64 → Bytes
  draw : Int64 → Nat → Draw
  coin : Int64 → Nat → ℚ

def newGenerator (src : Source) (cfg : WorkloadConfig) (seed : Int64) : Generator := ⟨cfg, src.value seed⟩

/-- The `n`-th request of the worker `w`, whose seed is `w + 1`. -/
def Source.request (src : Source) (cfg : WorkloadConfig) (w n : Nat) : Request :=
  let seed := Int64.ofNat w + 1
  (newGenerator src cfg seed).next (src.draw seed n) (src.coin seed n)

/-- `Time.Sub`, which saturates; moments are in nanoseconds. -/
def sub (t u : Int) : Duration :=
  if t - u ≥ 2 ^ 63 then Int64.maxValue else if t - u < -2 ^ 63 then Int64.minValue else Int64.ofInt (t - u)

/-- When a timer of this duration, made at `now`, fires. -/
def timerAt (now : Int) (d : Duration) : Int := now + max d.toInt 0

/-- A request that a worker has executed: when it went past its `select`, when `Execute` was called and when it returned, and
when the recorder took the sample. -/
structure Attempt where
  worker : Nat
  req : Request
  chosen : Int
  start : Int
  finish : Int
  err : Option String
  recorded : Int

/-- What `Record` is called with. -/
def Attempt.sample (a : Attempt) : Sample := ⟨a.req.op, sub a.finish a.start, a.err⟩

/-- Where a worker is; `n` counts its requests. -/
inductive Worker
  | unborn
  | selecting (n : Nat)
  /-- Behind the `select`. -/
  | drawing (n : Nat) (chosen : Int)
  | executing (n : Nat) (req : Request) (chosen start : Int)
  /-- It waits for the lock of the recorder. -/
  | recording (n : Nat) (a : Attempt)
  | returned (n : Nat)

def Worker.hasReturned : Worker → Bool
  | .returned _ => true
  | _ => false

/-- `measuredStart`, the moment of `SetWarmedUp` and the moment at which `measured` was taken. -/
structure Window where
  start : Int
  warm : Int
  finish : Int

/-- Where `Run` is. Behind the measurement it has its window, unless it was cancelled while it warmed up. -/
inductive Main
  | spawning (i : Nat)
  | warming (timer : Int)
  | warmed (start : Int)
  | measuring (start warm timer : Int)
  | closing (measured : Duration) (window : Option Window)
  | waiting (measured : Duration) (window : Option Window)
  | returned (result : Result) (window : Option Window)

/-- The context may be cancelled, and `stop` is closed at some moment. The attempts are in the order in which the recorder took
them; the program does not keep them. -/
structure Bench where
  now : Int
  cancelled : Bool
  stopAt : Option Int
  recorder : Recorder
  attempts : List Attempt
  workers : Nat → Worker
  main : Main

def Bench.start (now : Int) : Bench := ⟨now, false, none, newRecorder, [], fun _ => .unborn, .spawning 0⟩

inductive BenchAction
  | tick (d : Nat)
  | cancel
  | spawn
  | select (w : Nat)
  | begin (w : Nat)
  | finish (w : Nat) (err : Option String)
  | record (w : Nat)
  | warm
  | abort
  | setWarmedUp
  | elapse
  | interrupt
  | close
  | wait

def Bench.goto (x : Bench) (w : Nat) (p : Worker) : Bench := { x with workers := Function.update x.workers w p }

@[simp] theorem Bench.goto_self (x : Bench) (w : Nat) (p : Worker) : (x.goto w p).workers w = p :=
  Function.update_self _ _ _

theorem Bench.goto_of_ne (x : Bench) {w v : Nat} (h : v ≠ w) (p : Worker) : (x.goto w p).workers v = x.workers v :=
  Function.update_of_ne h _ _

/-- The sample of `a` is recorded. -/
def Bench.took (x : Bench) (a : Attempt) : Bench :=
  { x with recorder := x.recorder.record a.sample, attempts := x.attempts ++ [{ a with recorded := x.now }] }

/-- A step of a worker, of `Run`, or of the world around them. -/
def Bench.step (src : Source) (cfg : RunConfig) (x : Bench) : BenchAction → Option Bench
  | .tick d => some { x with now := x.now + d }
  | .cancel => some { x with cancelled := true }
  | .spawn =>
      match x.main with
      | .spawning i =>
          if i < cfg.concurrency.toInt then some { x.goto i (.selecting 0) with main := .spawning (i + 1) }
          else some { x with main := .warming (timerAt x.now cfg.warmup) }
      | _ => none
  | .select w =>
      match x.workers w with
      | .selecting n =>
          if x.stopAt.isSome ∨ x.cancelled then some (x.goto w (.returned n))
          else some (x.goto w (.drawing n x.now))
      | _ => none
  | .begin w =>
      match x.workers w with
      | .drawing n chosen => some (x.goto w (.executing n (src.request cfg.workload w n) chosen x.now))
      | _ => none
  | .finish w err =>
      match x.workers w with
      | .executing n req chosen start => some (x.goto w (.recording n ⟨w, req, chosen, start, x.now, err, x.now⟩))
      | _ => none
  | .record w =>
      match x.workers w with
      | .recording n a => some ((x.took a).goto w (.selecting (n + 1)))
      | _ => none
  | .warm =>
      match x.main with
      | .warming timer => if timer ≤ x.now then some { x with main := .warmed x.now } else none
      | _ => none
  | .abort =>
      match x.main with
      | .warming _ => if x.cancelled then some { x with main := .closing 0 none } else none
      | _ => none
  | .setWarmedUp =>
      match x.main with
      | .warmed start =>
          some { x with recorder := x.recorder.setWarmedUp, main := .measuring start x.now (timerAt x.now cfg.duration) }
      | _ => none
  | .elapse =>
      match x.main with
      | .measuring start warm timer =>
          if timer ≤ x.now then some { x with main := .closing (sub x.now start) (some ⟨start, warm, x.now⟩) } else none
      | _ => none
  | .interrupt =>
      match x.main with
      | .measuring start warm _ =>
          if x.cancelled then some { x with main := .closing (sub x.now start) (some ⟨start, warm, x.now⟩) } else none
      | _ => none
  | .close =>
      match x.main with
      | .closing measured window => some { x with stopAt := some x.now, main := .waiting measured window }
      | _ => none
  | .wait =>
      match x.main with
      | .waiting measured window =>
          if (List.range cfg.workers).all fun w => (x.workers w).hasReturned then
            some { x with main := .returned ⟨cfg, measured, x.recorder.compute⟩ window }
          else none
      | _ => none

section Steps
variable {src : Source} {cfg : RunConfig}

/-- The ways of taking a step. -/
inductive Moves (src : Source) (cfg : RunConfig) (x : Bench) : BenchAction → Bench → Prop
  | tick (d : Nat) : Moves src cfg x (.tick d) { x with now := x.now + d }
  | cancel : Moves src cfg x .cancel { x with cancelled := true }
  | spawn (i : Nat) (h : x.main = .spawning i) (hlt : i < cfg.workers) :
      Moves src cfg x .spawn { x.goto i (.selecting 0) with main := .spawning (i + 1) }
  | spawned (i : Nat) (h : x.main = .spawning i) (hle : cfg.workers ≤ i) :
      Moves src cfg x .spawn { x with main := .warming (timerAt x.now cfg.warmup) }
  | stop (w n : Nat) (h : x.workers w = .selecting n) (hstop : x.stopAt.isSome ∨ x.cancelled) :
      Moves src cfg x (.select w) (x.goto w (.returned n))
  | choose (w n : Nat) (h : x.workers w = .selecting n) (hgo : x.stopAt = none ∧ x.cancelled = false) :
      Moves src cfg x (.select w) (x.goto w (.drawing n x.now))
  | begin (w n : Nat) (chosen : Int) (h : x.workers w = .drawing n chosen) :
      Moves src cfg x (.begin w) (x.goto w (.executing n (src.request cfg.workload w n) chosen x.now))
  | finish (w n : Nat) (req : Request) (chosen start : Int) (err : Option String)
      (h : x.workers w = .executing n req chosen start) :
      Moves src cfg x (.finish w err) (x.goto w (.recording n ⟨w, req, chosen, start, x.now, err, x.now⟩))
  | record (w n : Nat) (a : Attempt) (h : x.workers w = .recording n a) :
      Moves src cfg x (.record w) ((x.took a).goto w (.selecting (n + 1)))
  | warm (timer : Int) (h : x.main = .warming timer) (hle : timer ≤ x.now) :
      Moves src cfg x .warm { x with main := .warmed x.now }
  | abort (timer : Int) (h : x.main = .warming timer) (hcancel : x.cancelled = true) :
      Moves src cfg x .abort { x with main := .closing 0 none }
  | setWarmedUp (start : Int) (h : x.main = .warmed start) :
      Moves src cfg x .setWarmedUp
        { x with recorder := x.recorder.setWarmedUp, main := .measuring start x.now (timerAt x.now cfg.duration) }
  | measured (a : BenchAction) (ha : a = .elapse ∨ a = .interrupt) (start warm timer : Int)
      (h : x.main = .measuring start warm timer) (hend : timer ≤ x.now ∨ x.cancelled = true) :
      Moves src cfg x a { x with main := .closing (sub x.now start) (some ⟨start, warm, x.now⟩) }
  | close (measured : Duration) (window : Option Window) (h : x.main = .closing measured window) :
      Moves src cfg x .close { x with stopAt := some x.now, main := .waiting measured window }
  | wait (measured : Duration) (window : Option Window) (h : x.main = .waiting measured window)
      (hall : ∀ w < cfg.workers, (x.workers w).hasReturned = true) :
      Moves src cfg x .wait { x with main := .returned ⟨cfg, measured, x.recorder.compute⟩ window }

theorem lt_workers_iff (cfg : RunConfig) (i : Nat) : (i : Int) < cfg.concurrency.toInt ↔ i < cfg.workers := by
  unfold RunConfig.workers
  omega

theorem moves_of_step {x y : Bench} {a : BenchAction} (h : x.step src cfg a = some y) : Moves src cfg x a y := by
  cases a with
  | tick d =>
      cases h
      exact .tick d
  | cancel =>
      cases h
      exact .cancel
  | spawn =>
      simp only [Bench.step] at h
      split at h
      · next i hmain =>
        split at h
        · next hlt =>
          cases h
          exact .spawn i hmain ((lt_workers_iff cfg i).mp hlt)
        · next hlt =>
          cases h
          exact .spawned i hmain (Nat.le_of_not_lt (mt (lt_workers_iff cfg i).mpr hlt))
      · cases h
  | select w =>
      simp only [Bench.step] at h
      split at h
      · next n hw =>
        split at h
        · next hstop =>
          cases h
          exact .stop w n hw hstop
        · next hgo =>
          cases h
          exact .choose w n hw (by simpa using hgo)
      · cases h
  | begin w =>
      simp only [Bench.step] at h
      split at h
      · next n chosen hw =>
        cases h
        exact .begin w n chosen hw
      · cases h
  | finish w err =>
      simp only [Bench.step] at h
      split at h
      · next n req chosen start hw =>
        cases h
        exact .finish w n req chosen start err hw
      · cases h
  | record w =>
      simp only [Bench.step] at h
      split at h
      · next n a hw =>
        cases h
        exact .record w n a hw
      · cases h
  | warm =>
      simp only [Bench.step] at h
      split at h
      · next timer hmain =>
        obtain ⟨hle, h⟩ := Option.ite_none_right_eq_some.mp h
        cases h
        exact .warm timer hmain hle
      · cases h
  | abort =>
      simp only [Bench.step] at h
      split at h
      · next timer hmain =>
        obtain ⟨hcancel, h⟩ := Option.ite_none_right_eq_some.mp h
        cases h
        exact .abort timer hmain hcancel
      · cases h
  | setWarmedUp =>
      simp only [Bench.step] at h
      split at h
      · next start hmain =>
        cases h
        exact .setWarmedUp start hmain
      · cases h
  | elapse =>
      simp only [Bench.step] at h
      split at h
      · next start warm timer hmain =>
        obtain ⟨hle, h⟩ := Option.ite_none_right_eq_some.mp h
        cases h
        exact .measured _ (Or.inl rfl) start warm timer hmain (Or.inl hle)
      · cases h
  | interrupt =>
      simp only [Bench.step] at h
      split at h
      · next start warm timer hmain =>
        obtain ⟨hcancel, h⟩ := Option.ite_none_right_eq_some.mp h
        cases h
        exact .measured _ (Or.inr rfl) start warm timer hmain (Or.inr hcancel)
      · cases h
  | close =>
      simp only [Bench.step] at h
      split at h
      · next measured window hmain =>
        cases h
        exact .close measured window hmain
      · cases h
  | wait =>
      simp only [Bench.step] at h
      split at h
      · next measured window hmain =>
        obtain ⟨hall, h⟩ := Option.ite_none_right_eq_some.mp h
        cases h
        refine .wait measured window hmain (fun w hw => ?_)
        exact List.all_eq_true.mp hall w (List.mem_range.mpr hw)
      · cases h

end Steps

/-! ## The workers -/

section Workers
variable {src : Source} {cfg : RunConfig} {x y : Bench}

/-- How many workers the loop has started. -/
def Main.spawned (cfg : RunConfig) : Main → Nat
  | .spawning i => i
  | _ => cfg.workers

structure Born (cfg : RunConfig) (x : Bench) : Prop where
  le : x.main.spawned cfg ≤ cfg.workers
  unborn : ∀ w, x.workers w = .unborn ↔ x.main.spawned cfg ≤ w

theorem born_start (cfg : RunConfig) (now : Int) : Born cfg (Bench.start now) :=
  ⟨Nat.zero_le _, fun w => iff_of_true rfl (Nat.zero_le w)⟩

theorem Born.goto {w : Nat} {p : Worker} (h : Born cfg x) (hold : x.workers w ≠ .unborn) (hp : p ≠ .unborn) :
    Born cfg (x.goto w p) := by
  refine ⟨h.le, fun v => ?_⟩
  by_cases hv : v = w
  · subst hv
    rw [Bench.goto_self]
    exact iff_of_false hp (mt (h.unborn v).mpr hold)
  · rw [Bench.goto_of_ne x hv]
    exact h.unborn v

/-- Behind its loop, `Run` starts no more workers. -/
theorem Born.later (h : Born cfg x) (hworkers : y.workers = x.workers) (hx : x.main.spawned cfg = cfg.workers)
    (hy : y.main.spawned cfg = cfg.workers) : Born cfg y := by
  refine ⟨hy.le, fun w => ?_⟩
  rw [hworkers, hy, ← hx]
  exact h.unborn w

theorem born_step {a : BenchAction} (h : Born cfg x) (hstep : x.step src cfg a = some y) : Born cfg y := by
  cases moves_of_step hstep with
  | tick d => exact ⟨h.le, h.unborn⟩
  | cancel => exact ⟨h.le, h.unborn⟩
  | spawn i hi hlt =>
      have hunborn := h.unborn
      rw [hi] at hunborn
      refine ⟨hlt, fun v => ?_⟩
      show (x.goto i (.selecting 0)).workers v = .unborn ↔ i + 1 ≤ v
      by_cases hv : v = i
      · subst hv
        rw [Bench.goto_self]
        exact iff_of_false (by simp) (by omega)
      · rw [Bench.goto_of_ne x hv, hunborn v]
        show i ≤ v ↔ i + 1 ≤ v
        omega
  | spawned i hi hle =>
      have hunborn := h.unborn
      have hbound := h.le
      rw [hi] at hunborn hbound
      obtain rfl : i = cfg.workers := Nat.le_antisymm hbound hle
      exact ⟨le_rfl, hunborn⟩
  | stop w n hw hstop => exact h.goto (by simp [hw]) (by simp)
  | choose w n hw hgo => exact h.goto (by simp [hw]) (by simp)
  | begin w n chosen hw => exact h.goto (by simp [hw]) (by simp)
  | finish w n req chosen start err hw => exact h.goto (by simp [hw]) (by simp)
  | record w n a hw =>
      have htook : Born cfg (x.took a) := ⟨h.le, h.unborn⟩
      exact htook.goto (by simp [Bench.took, hw]) (by simp)
  | warm timer hi hle => exact h.later rfl (by rw [hi]; rfl) rfl
  | abort timer hi hcancel => exact h.later rfl (by rw [hi]; rfl) rfl
  | setWarmedUp start hi => exact h.later rfl (by rw [hi]; rfl) rfl
  | measured a ha start warm timer hi hend => exact h.later rfl (by rw [hi]; rfl) rfl
  | close measured window hi => exact h.later rfl (by rw [hi]; rfl) rfl
  | wait measured window hi hall => exact h.later rfl (by rw [hi]; rfl) rfl

end Workers

/-! ## The requests -/

/-- The attempts of one worker. -/
def own (w : Nat) (as : List Attempt) : List Attempt := as.filter fun a => a.worker = w

theorem own_snoc_self (as : List Attempt) (a : Attempt) : own a.worker (as ++ [a]) = own a.worker as ++ [a] := by
  unfold own
  rw [List.filter_append, List.filter_cons_of_pos (by simp)]
  rfl

theorem own_snoc_of_ne (as : List Attempt) {a : Attempt} {w : Nat} (h : a.worker ≠ w) : own w (as ++ [a]) = own w as := by
  unfold own
  rw [List.filter_append, List.filter_cons_of_neg (by simpa using h), List.filter_nil, List.append_nil]

section Requests
variable {src : Source} {cfg : RunConfig} {x y : Bench}

/-- The attempts of `w` are the first `n` requests of its generator. -/
def Sent (src : Source) (cfg : RunConfig) (w n : Nat) (as : List Attempt) : Prop :=
  (own w as).map Attempt.req = (List.range n).map (src.request cfg.workload w)

/-- A worker went past its `select` at this moment: before `stop` was closed, and behind its earlier attempts. -/
structure Chosen (x : Bench) (w : Nat) (t : Int) : Prop where
  le : t ≤ x.now
  before : ∀ s ∈ x.stopAt, t ≤ s
  behind : ∀ a ∈ own w x.attempts, a.recorded ≤ t

/-- Where a worker is, and what it has behind it. -/
def Worker.Ok (src : Source) (cfg : RunConfig) (x : Bench) (w : Nat) : Worker → Prop
  | .unborn => Sent src cfg w 0 x.attempts
  | .selecting n => Sent src cfg w n x.attempts
  | .drawing n chosen => Sent src cfg w n x.attempts ∧ Chosen x w chosen
  | .executing n req chosen start => Sent src cfg w n x.attempts ∧ Chosen x w chosen ∧
      req = src.request cfg.workload w n ∧ chosen ≤ start ∧ start ≤ x.now
  | .recording n a => Sent src cfg w n x.attempts ∧ Chosen x w a.chosen ∧ a.req = src.request cfg.workload w n ∧
      a.worker = w ∧ a.chosen ≤ a.start ∧ a.start ≤ a.finish ∧ a.finish ≤ x.now
  | .returned n => Sent src cfg w n x.attempts

/-- The moments of an attempt. -/
structure Attempt.Ok (x : Bench) (a : Attempt) : Prop where
  chosen_start : a.chosen ≤ a.start
  start_finish : a.start ≤ a.finish
  finish_recorded : a.finish ≤ a.recorded
  recorded_now : a.recorded ≤ x.now
  before : ∀ s ∈ x.stopAt, a.chosen ≤ s

/-- The requests of a run. -/
structure Attempted (src : Source) (cfg : RunConfig) (x : Bench) : Prop where
  worker : ∀ w, (x.workers w).Ok src cfg x w
  attempt : ∀ a ∈ x.attempts, a.Ok x
  /-- A worker has one request at a time. -/
  order : x.attempts.Pairwise fun a b => a.worker = b.worker → a.recorded ≤ b.chosen

theorem attempted_start (now : Int) : Attempted src cfg (Bench.start now) :=
  ⟨fun _ => rfl, fun _ h => absurd h List.not_mem_nil, List.Pairwise.nil⟩

/-- As far as its own attempts, the clock and `stop` go, only later moments and an open `stop` come. -/
structure Goes (w : Nat) (x y : Bench) : Prop where
  now : x.now ≤ y.now
  stopAt : ∀ s ∈ y.stopAt, s ∈ x.stopAt ∨ x.now ≤ s
  own : own w y.attempts = own w x.attempts

theorem Chosen.goes {w : Nat} {t : Int} (h : Chosen x w t) (hgoes : Goes w x y) : Chosen y w t := by
  refine ⟨h.le.trans hgoes.now, fun s hs => ?_, ?_⟩
  · rcases hgoes.stopAt s hs with hold | hlate
    · exact h.before s hold
    · exact h.le.trans hlate
  · rw [hgoes.own]
    exact h.behind

theorem Worker.Ok.goes {w : Nat} {p : Worker} (h : p.Ok src cfg x w) (hgoes : Goes w x y) : p.Ok src cfg y w := by
  have hsent : ∀ {n}, Sent src cfg w n x.attempts → Sent src cfg w n y.attempts := by
    intro n hn
    unfold Sent
    rw [hgoes.own]
    exact hn
  cases p with
  | unborn => exact hsent h
  | selecting n => exact hsent h
  | drawing n chosen => exact ⟨hsent h.1, h.2.goes hgoes⟩
  | executing n req chosen start =>
      obtain ⟨hn, hchosen, hreq, hle, hnow⟩ := h
      exact ⟨hsent hn, hchosen.goes hgoes, hreq, hle, hnow.trans hgoes.now⟩
  | recording n a =>
      obtain ⟨hn, hchosen, hreq, hw, hstart, hfinish, hnow⟩ := h
      exact ⟨hsent hn, hchosen.goes hgoes, hreq, hw, hstart, hfinish, hnow.trans hgoes.now⟩
  | returned n => exact hsent h

theorem Attempt.Ok.goes {a : Attempt} (h : a.Ok x) (hnow : x.now ≤ y.now)
    (hstop : ∀ s ∈ y.stopAt, s ∈ x.stopAt ∨ x.now ≤ s) : a.Ok y := by
  refine ⟨h.chosen_start, h.start_finish, h.finish_recorded, h.recorded_now.trans hnow, fun s hs => ?_⟩
  rcases hstop s hs with hold | hlate
  · exact h.before s hold
  · have hnow := h.recorded_now
    have hstart := h.chosen_start
    have hfinish := h.start_finish
    have hrecorded := h.finish_recorded
    omega

theorem Attempted.goes (h : Attempted src cfg x) (hnow : x.now ≤ y.now) (hstop : ∀ s ∈ y.stopAt, s ∈ x.stopAt ∨ x.now ≤ s)
    (hattempts : y.attempts = x.attempts) (hworkers : ∀ w, y.workers w = x.workers w ∨ (y.workers w).Ok src cfg y w) :
    Attempted src cfg y := by
  have hgoes : ∀ w, Goes w x y := fun w => ⟨hnow, hstop, by rw [hattempts]⟩
  refine ⟨fun w => ?_, fun a ha => ?_, ?_⟩
  · rcases hworkers w with hsame | hok
    · rw [hsame]
      exact (h.worker w).goes (hgoes w)
    · exact hok
  · rw [hattempts] at ha
    exact (h.attempt a ha).goes hnow hstop
  · rw [hattempts]
    exact h.order

theorem Attempted.goto {w : Nat} {p : Worker} (h : Attempted src cfg x) (hp : p.Ok src cfg x w) :
    Attempted src cfg (x.goto w p) := by
  refine h.goes le_rfl (fun s hs => Or.inl hs) rfl (fun v => ?_)
  by_cases hv : v = w
  · subst hv
    right
    rw [Bench.goto_self]
    exact hp.goes ⟨le_rfl, fun s hs => Or.inl hs, rfl⟩
  · left
    exact Function.update_of_ne hv _ _

theorem Attempted.took {w n : Nat} {a : Attempt} (h : Attempted src cfg x) (hw : x.workers w = .recording n a) :
    Attempted src cfg ((x.took a).goto w (.selecting (n + 1))) := by
  have hok := h.worker w
  rw [hw] at hok
  obtain ⟨hn, hchosen, hreq, rfl, hstart, hfinish, hnow⟩ := hok
  refine ⟨fun v => ?_, fun b hb => ?_, ?_⟩
  · by_cases hv : v = a.worker
    · subst hv
      rw [Bench.goto_self]
      show (own a.worker (x.attempts ++ [{ a with recorded := x.now }])).map Attempt.req = _
      rw [own_snoc_self x.attempts { a with recorded := x.now }, List.map_append, hn, List.range_succ, List.map_append,
        List.map_singleton, List.map_singleton, hreq]
    · rw [Bench.goto_of_ne _ hv]
      refine (h.worker v).goes ⟨le_rfl, fun s hs => Or.inl hs, ?_⟩
      exact own_snoc_of_ne x.attempts (Ne.symm hv)
  · rcases List.mem_append.mp hb with hold | hnew
    · exact (h.attempt b hold).goes le_rfl (fun s hs => Or.inl hs)
    · rw [List.mem_singleton] at hnew
      subst hnew
      exact ⟨hstart, hfinish, hnow, le_rfl, hchosen.before⟩
  · refine List.pairwise_append.mpr ⟨h.order, List.pairwise_singleton _ _, fun b hb c hc hworker => ?_⟩
    rw [List.mem_singleton] at hc
    subst hc
    exact hchosen.behind b (List.mem_filter.mpr ⟨hb, by simpa using hworker⟩)

/-- **A step** keeps the requests in order. -/
theorem attempted_step {a : BenchAction} (hborn : Born cfg x) (h : Attempted src cfg x)
    (hstep : x.step src cfg a = some y) : Attempted src cfg y := by
  have hbehind : ∀ w, ∀ a ∈ own w x.attempts, a.recorded ≤ x.now := fun w a ha =>
    (h.attempt a (List.mem_filter.mp ha).1).recorded_now
  cases moves_of_step hstep with
  | tick d => exact h.goes (Int.le_add_of_nonneg_right (Int.natCast_nonneg d)) (fun s hs => Or.inl hs) rfl (fun w => Or.inl rfl)
  | cancel => exact h.goes le_rfl (fun s hs => Or.inl hs) rfl (fun w => Or.inl rfl)
  | spawn i hmain hlt =>
      have hok := h.worker i
      rw [(hborn.unborn i).mpr (by rw [hmain]; exact le_rfl)] at hok
      exact (h.goto (p := .selecting 0) hok).goes le_rfl (fun s hs => Or.inl hs) rfl (fun w => Or.inl rfl)
  | spawned i hmain hle => exact h.goes le_rfl (fun s hs => Or.inl hs) rfl (fun w => Or.inl rfl)
  | stop w n hw hstop =>
      have hok := h.worker w
      rw [hw] at hok
      exact h.goto hok
  | choose w n hw hgo =>
      have hok := h.worker w
      rw [hw] at hok
      refine h.goto ⟨hok, le_rfl, fun s hs => ?_, hbehind w⟩
      rw [hgo.1] at hs
      cases hs
  | begin w n chosen hw =>
      have hok := h.worker w
      rw [hw] at hok
      exact h.goto ⟨hok.1, hok.2, rfl, hok.2.le, le_rfl⟩
  | finish w n req chosen start err hw =>
      have hok := h.worker w
      rw [hw] at hok
      obtain ⟨hn, hchosen, hreq, hle, hnow⟩ := hok
      exact h.goto ⟨hn, hchosen, hreq, rfl, hle, hnow, le_rfl⟩
  | record w n a hw => exact h.took hw
  | warm timer hmain hle => exact h.goes le_rfl (fun s hs => Or.inl hs) rfl (fun w => Or.inl rfl)
  | abort timer hmain hcancel => exact h.goes le_rfl (fun s hs => Or.inl hs) rfl (fun w => Or.inl rfl)
  | setWarmedUp start hmain => exact h.goes le_rfl (fun s hs => Or.inl hs) rfl (fun w => Or.inl rfl)
  | measured a ha start warm timer hmain hend => exact h.goes le_rfl (fun s hs => Or.inl hs) rfl (fun w => Or.inl rfl)
  | close measured window hmain =>
      refine h.goes le_rfl (fun s hs => Or.inr ?_) rfl (fun w => Or.inl rfl)
      cases hs
      exact le_rfl
  | wait measured window hmain hall => exact h.goes le_rfl (fun s hs => Or.inl hs) rfl (fun w => Or.inl rfl)

end Requests

end Uddp.Benchmark

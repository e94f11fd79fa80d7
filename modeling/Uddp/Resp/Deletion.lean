import Mathlib.Algebra.BigOperators.Group.Finset.Piecewise
import Mathlib.Data.Set.Card
import Uddp.Engine.Stream
import Uddp.Resp.Server
import Uddp.Wal.Single

/-!
# `DEL`

`DEL` looks for each of its keys and deletes those it finds, with two engine calls for each.

* `tombstones n keys` : the delete records of the keys; `Deleted e keys e'` : what deleting them does to an engine;
* **`del_exact`** : a `DEL` that nobody comes between;
* `Connections`, `DelAction` : connections that run `DEL` commands over one engine, one engine call at a time;
* `strays` : how many of their deletes find the key gone;
* **`del_counts_iff`** : the replies add up to the keys that were deleted, and one more for every stray delete.
-/

namespace Uddp.Resp
open Uddp.Lib Uddp.Wal

/-! ## What deleting does to an engine -/

/-- The delete records of the keys, from position `n` on. -/
def tombstones (n : UInt64) (keys : List Bytes) : List Record := stampFrom n (keys.map fun key => deleteRecord key [])

theorem length_tombstones (n : UInt64) (keys : List Bytes) : (tombstones n keys).length = keys.length := by
  rw [tombstones, length_stampFrom, List.length_map]

theorem tombstones_append (n : UInt64) (keys keys' : List Bytes) :
    tombstones n (keys ++ keys') = tombstones n keys ++ tombstones (n + UInt64.ofNat keys.length) keys' := by
  rw [tombstones, List.map_append, stampFrom_append, List.length_map, tombstones, tombstones]

/-- The keys were deleted one after the other. -/
structure Deleted (e : Engine) (keys : List Bytes) (e' : Engine) : Prop where
  log : Extended e.log (tombstones e.log.next keys) e'.log
  get : ∀ k now, e'.get k now = if k ∈ keys then none else e.get k now

theorem Deleted.refl {e : Engine} (h : Flushed e.log) : Deleted e [] e := ⟨.refl h, fun _ _ => by simp⟩

theorem Deleted.trans {e e' e'' : Engine} {keys keys' : List Bytes} (h : Deleted e keys e') (h' : Deleted e' keys' e'') :
    Deleted e (keys ++ keys') e'' := by
  refine ⟨?_, fun k now => ?_⟩
  · have hnext := h.log.next
    rw [length_tombstones] at hnext
    rw [tombstones_append, ← hnext]
    exact h.log.trans h'.log
  · rw [h'.get, h.get]
    by_cases hk' : k ∈ keys'
    · simp [hk']
    · simp [hk']

theorem get_erase (t : Tables) (key k : Bytes) (now : Time) :
    Tables.get { t with index := t.index.erase key } k now = if k = key then none else t.get k now := by
  unfold Tables.get
  by_cases hk : k = key
  · subst hk
    simp only [Finmap.lookup_erase, if_pos]
  · simp only [Finmap.lookup_erase_ne hk, if_neg hk]

theorem delete_deleted {e : Engine} (h : Flushed e.log) (key : Bytes) :
    ∃ e', e.delete key [] AppendIO.ok = (.ok (outcomeAt e.log.next), e') ∧ Deleted e [key] e' := by
  obtain ⟨w, happ, hw⟩ := append_extended h (deleteRecord key [])
  refine ⟨{ index := e.index.erase key, dedup := e.dedup, log := w }, ?_, hw, fun k now => ?_⟩
  · have hmiss : e.dedupHit [] = none := rfl
    unfold Engine.delete Engine.commit
    simp only [hmiss, happ]
    rfl
  · simp only [List.mem_singleton]
    exact get_erase e.toTables key k now

/-! ## A command that nobody comes between -/

/-- The loop finds every live key once: after its delete it is gone. -/
theorem delLoop_deleted {e : Engine} (h : Flushed e.log) (now : Time) (i : Nat) (keys : List Bytes) (deleted : Int64) :
    ∃ counted e', delLoop e (fun _ => now) (fun _ => AppendIO.ok) i keys deleted =
        (.integer (deleted + Int64.ofNat counted.length), e') ∧
      Deleted e counted e' ∧ counted.Nodup ∧ ∀ k, k ∈ counted ↔ k ∈ keys ∧ (e.get k now).isSome := by
  induction keys generalizing e i deleted with
  | nil =>
      refine ⟨[], e, ?_, .refl h, List.nodup_nil, by simp⟩
      rw [delLoop, List.length_nil, show Int64.ofNat 0 = 0 from rfl, Int64.add_zero]
  | cons key keys ih =>
      cases hget : e.get key now with
      | none =>
          obtain ⟨counted, e', hloop, hdel, hnodup, hmem⟩ := ih h (i + 1) deleted
          refine ⟨counted, e', ?_, hdel, hnodup, fun k => ?_⟩
          · rw [delLoop]
            simp only [hget]
            exact hloop
          · rw [hmem, List.mem_cons]
            constructor
            · exact fun hk => ⟨Or.inr hk.1, hk.2⟩
            · rintro ⟨rfl | hk, hlive⟩
              · rw [hget] at hlive
                cases hlive
              · exact ⟨hk, hlive⟩
      | some found =>
          obtain ⟨e₁, hdelete, h₁⟩ := delete_deleted h key
          obtain ⟨counted, e', hloop, hdel, hnodup, hmem⟩ := ih h₁.log.flushed (i + 1) (deleted + 1)
          have hget₁ : ∀ k, e₁.get k now = if k = key then none else e.get k now := by
            intro k
            rw [h₁.get k now]
            simp only [List.mem_singleton]
          have hgone : key ∉ counted := by
            rw [hmem, hget₁, if_pos rfl]
            simp
          refine ⟨key :: counted, e', ?_, h₁.trans hdel, List.nodup_cons.mpr ⟨hgone, hnodup⟩, fun k => ?_⟩
          · rw [delLoop]
            simp only [hget, hdelete]
            rw [hloop, List.length_cons, Int64.ofNat_add, Int64.add_assoc, Int64.add_comm 1]
            rfl
          · rw [List.mem_cons, hmem, hget₁, List.mem_cons]
            by_cases hk : k = key
            · subst hk
              simp [hget]
            · simp [hk]

/-- **`DEL`**, with the clock at `now` and nobody else at work, on any engine whose log works: the reply is the number of
different arguments that were live; no argument is found afterwards, and every other key is as it was; and the log has got one
delete record for each counted key and nothing else, which is then the end of the change stream. -/
theorem del_exact (e : Engine) (hlog : Flushed e.log) (now : Time) (cmd : Command) (hname : toUpper cmd.name = utf8 "DEL")
    (hargs : cmd.args ≠ []) :
    ∃ counted e', dispatch e (fun _ => now) (fun _ => AppendIO.ok) cmd =
        (.integer (Int64.ofNat (cmd.args.toFinset.filter fun k => (e.get k now).isSome).card), e') ∧
      (∀ k ∈ cmd.args, e'.get k now = none) ∧ (∀ k, k ∉ cmd.args → ∀ t, e'.get k t = e.get k t) ∧
      counted.Nodup ∧ counted.toFinset = (cmd.args.toFinset.filter fun k => (e.get k now).isSome) ∧
      Extended e.log (tombstones e.log.next counted) e'.log ∧
      ∀ rs, Holds e.log rs → (∀ r ∈ rs ++ tombstones e.log.next counted, Wal.Fits r) →
        e.stream = rs ∧ e'.stream = rs ++ tombstones e.log.next counted := by
  obtain ⟨counted, e', hloop, hdel, hnodup, hmem⟩ := delLoop_deleted hlog now 0 cmd.args 0
  have hset : counted.toFinset = (cmd.args.toFinset.filter fun k => (e.get k now).isSome) := by
    ext k
    rw [List.mem_toFinset, hmem, Finset.mem_filter, List.mem_toFinset]
  refine ⟨counted, e', ?_, fun k hk => ?_, fun k hk t => ?_, hnodup, hset, hdel.log, fun rs hrs hfit => ⟨?_, ?_⟩⟩
  · have hdispatch : dispatch e (fun _ => now) (fun _ => AppendIO.ok) cmd =
        delLoop e (fun _ => now) (fun _ => AppendIO.ok) 0 cmd.args 0 := by
      unfold dispatch
      rw [hname, if_neg (by decide), if_neg (by decide), if_neg (by decide), if_pos rfl]
      split
      · next hnil => exact absurd hnil hargs
      · rfl
    rw [hdispatch, hloop, ← hset, List.toFinset_card_of_nodup hnodup, Int64.zero_add]
  · rw [hdel.get]
    split
    · rfl
    · next hnot =>
      rw [hmem, not_and, Option.not_isSome_iff_eq_none] at hnot
      exact hnot hk
  · rw [hdel.get, if_neg fun hc => hk ((hmem k).mp hc).1]
  · exact stream_holds hrs fun r hr => hfit r (List.mem_append_left _ hr)
  · obtain ⟨hdata, hoffs⟩ := hdel.log.whole hrs
    exact stream_whole hdata hdel.log.flushed.opened hoffs hfit

/-- An engine that holds one key, `k`. -/
def keyK : Engine := (fresh.put [0x6b] [0x76] 0 [] 0 AppendIO.ok).2

theorem flushed_keyK : Flushed keyK.log := ⟨rfl, rfl, rfl⟩

theorem del_exact_twice : ∃ e', dispatch keyK (fun _ => 0) (fun _ => AppendIO.ok) ⟨utf8 "del", [[0x6b], [0x61], [0x6b]]⟩ =
      (.integer 1, e') ∧ e'.get [0x6b] 0 = none := by
  obtain ⟨counted, e', hdispatch, hgone, -⟩ := del_exact keyK flushed_keyK 0 ⟨utf8 "del", [[0x6b], [0x61], [0x6b]]⟩
    (by decide +kernel) (by simp)
  refine ⟨e', hdispatch.trans ?_, hgone _ (by simp)⟩
  have hcard : ([[0x6b], [0x61], [0x6b]] : List Bytes).toFinset.filter (fun k => (keyK.get k 0).isSome) = {[0x6b]} := by
    decide +kernel
  rw [hcard]
  rfl

/-! ## Several connections -/

/-- The connections of one listener, and what has been replied on them. -/
structure Connections (ι : Type) where
  engine : Engine
  task : ι → Task
  replies : List Reply

inductive DelAction (ι : Type)
  /-- A free connection reads a `DEL` command. -/
  | command (i : ι) (cmd : Command)
  /-- A connection makes the next engine call of its command, with the clock at `now`. -/
  | call (i : ι) (now : Time)

/-- What the task has replied. -/
def Task.replied : Task → List Reply
  | .done r => [r]
  | .get _ | .set _ _ _ | .del _ _ | .delete _ _ _ => []

namespace Connections
variable {ι : Type}

/-- Every connection waits for a command. -/
def Idle (s : Connections ι) : Prop := ∀ i, ∃ r, s.task i = .done r

variable [DecidableEq ι]

/-- Connection `i` has made a step, to the task and the engine of `t`. -/
def goto (s : Connections ι) (i : ι) (t : Task × Engine) : Connections ι :=
  { engine := t.2, task := Function.update s.task i t.1, replies := s.replies ++ t.1.replied }

def step (s : Connections ι) : DelAction ι → Option (Connections ι)
  | .command i cmd =>
      match s.task i with
      | .done _ => if toUpper cmd.name = utf8 "DEL" then some (s.goto i (start cmd, s.engine)) else none
      | _ => none
  | .call i now =>
      match s.task i with
      | .done _ => none
      | t => some (s.goto i (t.step s.engine now AppendIO.ok))

end Connections

/-- The call deletes a key that is gone: another connection has deleted it since this one found it. -/
def DelAction.stray {ι : Type} (s : Connections ι) : DelAction ι → Bool
  | .command _ _ => false
  | .call i now =>
      match s.task i with
      | .delete key _ _ => (s.engine.get key now).isNone
      | _ => false

/-- How many deletes of the run find their key gone. -/
def strays {ι : Type} [DecidableEq ι] : Connections ι → List (DelAction ι) → Nat
  | _, [] => 0
  | s, a :: as => (a.stray s).toNat + (match s.step a with
      | none => 0
      | some s' => strays s' as)

/-- The number that a reply counts. -/
def Reply.count : Reply → Int
  | .integer n => n.toInt
  | .simpleString _ | .error _ | .bulkString _ | .nullBulkString => 0

/-- The sum of the integers replied. -/
def Connections.replied {ι : Type} (s : Connections ι) : Int := (s.replies.map Reply.count).sum

/-! ## The count -/

section Count
variable {ι : Type} [DecidableEq ι]

/-- What a task has counted and not replied yet. -/
def Task.pending : Task → Int
  | .del _ deleted | .delete _ _ deleted => deleted.toInt
  | .done _ | .get _ | .set _ _ _ => 0

/-- The task is at work on a `DEL`: the key it is about to delete was live in `e`, and its count cannot overflow. -/
def Task.Deletes (e : Engine) (now : Time) : Task → Prop
  | .done _ => True
  | .get _ | .set _ _ _ => False
  | .del keys deleted => deleted.toInt + keys.length < 2 ^ 63
  | .delete key keys deleted => (e.get key now).isSome ∧ deleted.toInt + keys.length + 1 < 2 ^ 63

/-- A command has fewer than `2 ^ 63` arguments, as every slice has, and a clock reading finds the keys of `e` that are live
at `now`: nothing expires. -/
def DelAction.Regular (e : Engine) (now : Time) : DelAction ι → Prop
  | .command _ cmd => cmd.args.length < 2 ^ 63
  | .call _ t => ∀ k, (e.get k t).isSome = (e.get k now).isSome

/-- The keys `gone` of `e` have been deleted, and the connections have counted them once, and one more for each of `n` stray
deletes. -/
structure Counted [Fintype ι] (e : Engine) (now : Time) (gone : Finset Bytes) (n : Nat) (s : Connections ι) : Prop where
  flushed : Flushed s.engine.log
  get : ∀ k t, s.engine.get k t = if k ∈ gone then none else e.get k t
  live : ∀ k ∈ gone, (e.get k now).isSome
  task : ∀ i, (s.task i).Deletes e now
  count : s.replied + ∑ i, (s.task i).pending = gone.card + n

theorem toInt_add_one {n : Int64} (h : n.toInt + 1 < 2 ^ 63) : (n + 1).toInt = n.toInt + 1 := by
  have hlow := n.le_toInt
  rw [Int64.toInt_add, show (1 : Int64).toInt = 1 from rfl]
  apply Int.bmod_eq_of_le_mul_two
  · omega
  · omega

theorem start_del {cmd : Command} (hname : toUpper cmd.name = utf8 "DEL") :
    start cmd = if cmd.args = [] then .done (wrongNumber "del") else .del cmd.args 0 := by
  unfold start
  rw [hname, if_neg (by decide), if_neg (by decide), if_neg (by decide), if_pos rfl]
  split
  · next hnil => rw [if_pos hnil]
  · next hne => rw [if_neg hne]

theorem replied_goto (s : Connections ι) (i : ι) (t : Task × Engine) :
    (s.goto i t).replied = s.replied + (t.1.replied.map Reply.count).sum := by
  show ((s.replies ++ t.1.replied).map Reply.count).sum = _
  rw [List.map_append, List.sum_append]
  rfl

theorem step_command {s s' : Connections ι} {i : ι} {cmd : Command} (h : s.step (.command i cmd) = some s') :
    (∃ r, s.task i = .done r) ∧ toUpper cmd.name = utf8 "DEL" ∧ s' = s.goto i (start cmd, s.engine) := by
  simp only [Connections.step] at h
  split at h
  · next r hfree =>
    split at h
    · next hname => exact ⟨⟨r, hfree⟩, hname, (Option.some.inj h).symm⟩
    · cases h
  · cases h

theorem step_call {s s' : Connections ι} {i : ι} {now : Time} (h : s.step (.call i now) = some s') :
    (∀ r, s.task i ≠ .done r) ∧ s' = s.goto i ((s.task i).step s.engine now AppendIO.ok) := by
  simp only [Connections.step] at h
  split at h
  · cases h
  · next hbusy => exact ⟨hbusy, (Option.some.inj h).symm⟩

variable [Fintype ι]

theorem sum_pending_goto (s : Connections ι) (i : ι) (t : Task × Engine) :
    ∑ j, ((s.goto i t).task j).pending = ∑ j, (s.task j).pending - (s.task i).pending + t.1.pending := by
  have hcomp : (fun j => ((s.goto i t).task j).pending) =
      Function.update (fun j => (s.task j).pending) i t.1.pending := by
    funext j
    show (Function.update s.task i t.1 j).pending = _
    rw [Function.update_apply, Function.update_apply]
    split
    · rfl
    · rfl
  have hsplit := Finset.add_sum_erase Finset.univ (fun j => (s.task j).pending) (Finset.mem_univ i)
  rw [hcomp, Finset.sum_update_of_mem (Finset.mem_univ i), Finset.sdiff_singleton_eq_erase]
  omega

variable {e : Engine} {now : Time} {gone : Finset Bytes} {n : Nat} {s s' : Connections ι}

/-- A connection goes on: what it replies and what it has counted by then is what it had counted before, and `m` more. -/
theorem Counted.goto (h : Counted e now gone n s) (i : ι) (t : Task × Engine) {gone' : Finset Bytes} {m : Nat}
    (hlog : Flushed t.2.log) (hget : ∀ k t', t.2.get k t' = if k ∈ gone' then none else e.get k t')
    (hlive : ∀ k ∈ gone', (e.get k now).isSome) (htask : t.1.Deletes e now)
    (hcount : (t.1.replied.map Reply.count).sum + t.1.pending + gone.card + n = (s.task i).pending + gone'.card + m) :
    Counted e now gone' m (s.goto i t) := by
  refine ⟨hlog, hget, hlive, fun j => ?_, ?_⟩
  · show (Function.update s.task i t.1 j).Deletes e now
    rw [Function.update_apply]
    split
    · exact htask
    · exact h.task j
  · have hold := h.count
    rw [replied_goto, sum_pending_goto]
    omega

theorem Counted.command (h : Counted e now gone n s) {i : ι} {cmd : Command} (hargs : cmd.args.length < 2 ^ 63)
    (hstep : s.step (.command i cmd) = some s') : Counted e now gone n s' := by
  obtain ⟨⟨r, hfree⟩, hname, rfl⟩ := step_command hstep
  apply h.goto i _ h.flushed h.get h.live
  · rw [start_del hname]
    split
    · trivial
    · show (0 : Int64).toInt + (cmd.args.length : Int) < 2 ^ 63
      rw [Int64.toInt_zero]
      omega
  · rw [hfree, start_del hname]
    split
    · simp [Task.replied, wrongNumber, Reply.count, Task.pending]
    · simp [Task.replied, Task.pending]

omit [DecidableEq ι] in
/-- A key that is looked for is found exactly when it was live and nobody has deleted it. -/
theorem Counted.isSome_get (h : Counted e now gone n s) {t : Time} (hclock : ∀ k, (e.get k t).isSome = (e.get k now).isSome)
    (k : Bytes) : (s.engine.get k t).isSome ↔ k ∉ gone ∧ (e.get k now).isSome := by
  rw [h.get]
  split
  · next hk => simp [hk]
  · next hk => simp [hk, hclock]

theorem Counted.look (h : Counted e now gone n s) {i : ι} {t : Time}
    (hclock : ∀ k, (e.get k t).isSome = (e.get k now).isSome) {keys : List Bytes} {deleted : Int64}
    (hi : s.task i = .del keys deleted) : Counted e now gone n (s.goto i ((s.task i).step s.engine t AppendIO.ok)) := by
  have htask := h.task i
  rw [hi] at htask ⊢
  cases keys with
  | nil =>
      apply h.goto i _ h.flushed h.get h.live
      · trivial
      · simp [Task.step, Task.replied, Task.pending, Reply.count, hi]
  | cons key keys =>
      have hbound : deleted.toInt + (keys.length + 1 : Nat) < 2 ^ 63 := htask
      cases hget : s.engine.get key t with
      | none =>
          have hnext : Task.step s.engine t AppendIO.ok (.del (key :: keys) deleted) = (.del keys deleted, s.engine) := by
            simp only [Task.step, hget]
          rw [hnext]
          apply h.goto i _ h.flushed h.get h.live
          · show deleted.toInt + (keys.length : Int) < 2 ^ 63
            omega
          · simp [Task.replied, Task.pending, hi]
      | some found =>
          have hnext : Task.step s.engine t AppendIO.ok (.del (key :: keys) deleted) =
              (.delete key keys deleted, s.engine) := by
            simp only [Task.step, hget]
          have hfound : (s.engine.get key t).isSome := by
            rw [hget]
            rfl
          rw [hnext]
          apply h.goto i _ h.flushed h.get h.live
          · refine ⟨((h.isSome_get hclock key).mp hfound).2, ?_⟩
            omega
          · simp [Task.replied, Task.pending, hi]

/-- A key that was found is deleted. Whoever deletes it first is counted for it; whoever comes later is a stray. -/
theorem Counted.remove (h : Counted e now gone n s) {i : ι} (t : Time) {key : Bytes} {keys : List Bytes} {deleted : Int64}
    (hi : s.task i = .delete key keys deleted) :
    Counted e now (insert key gone) (n + (decide (key ∈ gone)).toNat)
      (s.goto i ((s.task i).step s.engine t AppendIO.ok)) := by
  have htask := h.task i
  rw [hi] at htask ⊢
  obtain ⟨hlive, hbound⟩ := htask
  obtain ⟨e', hdelete, hdel⟩ := delete_deleted h.flushed key
  have hnext : Task.step s.engine t AppendIO.ok (.delete key keys deleted) = (.del keys (deleted + 1), e') := by
    simp only [Task.step, hdelete]
  have hone : (deleted + 1).toInt = deleted.toInt + 1 := toInt_add_one (by omega)
  have hcard : (insert key gone).card + (decide (key ∈ gone)).toNat = gone.card + 1 := by
    by_cases hk : key ∈ gone
    · rw [Finset.insert_eq_of_mem hk, decide_eq_true hk]
      rfl
    · rw [Finset.card_insert_of_notMem hk, decide_eq_false hk]
      rfl
  rw [hnext]
  apply h.goto i _ hdel.log.flushed
  · intro k t'
    rw [hdel.get, h.get]
    by_cases hk : k = key
    · simp [hk]
    · simp [hk]
  · intro k hk
    rcases Finset.mem_insert.mp hk with rfl | hk
    · exact hlive
    · exact h.live k hk
  · show (deleted + 1).toInt + (keys.length : Int) < 2 ^ 63
    omega
  · have hreplied : ((Task.del keys (deleted + 1)).replied.map Reply.count).sum = 0 := rfl
    have hpending : (Task.del keys (deleted + 1)).pending = (deleted + 1).toInt := rfl
    have hbefore : (Task.delete key keys deleted).pending = deleted.toInt := rfl
    rw [hi, hreplied, hpending, hbefore, hone]
    omega

omit [DecidableEq ι] in
theorem Counted.stray_delete (h : Counted e now gone n s) {i : ι} {t : Time}
    (hclock : ∀ k, (e.get k t).isSome = (e.get k now).isSome) {key : Bytes} {keys : List Bytes} {deleted : Int64}
    (hi : s.task i = .delete key keys deleted) : (DelAction.call i t).stray s = decide (key ∈ gone) := by
  have hlive := h.task i
  rw [hi] at hlive
  simp only [DelAction.stray, hi]
  by_cases hk : key ∈ gone
  · rw [h.get, if_pos hk, decide_eq_true hk]
    rfl
  · rw [decide_eq_false hk, Option.isNone_eq_false_iff]
    exact (h.isSome_get hclock key).mpr ⟨hk, hlive.1⟩

theorem Counted.call (h : Counted e now gone n s) {i : ι} {t : Time}
    (hclock : ∀ k, (e.get k t).isSome = (e.get k now).isSome) (hstep : s.step (.call i t) = some s') :
    ∃ gone', Counted e now gone' (n + ((DelAction.call i t).stray s).toNat) s' := by
  have htask := h.task i
  obtain ⟨hbusy, rfl⟩ := step_call hstep
  cases hi : s.task i with
  | done r => exact absurd hi (hbusy r)
  | get key =>
      rw [hi] at htask
      exact htask.elim
  | set key value ttlSeconds =>
      rw [hi] at htask
      exact htask.elim
  | del keys deleted =>
      have hstray : (DelAction.call i t).stray s = false := by simp only [DelAction.stray, hi]
      rw [hstray, ← hi]
      exact ⟨gone, h.look hclock hi⟩
  | delete key keys deleted =>
      rw [h.stray_delete hclock hi, ← hi]
      exact ⟨insert key gone, h.remove t hi⟩

theorem Counted.run (h : Counted e now gone n s) {as : List (DelAction ι)} (has : ∀ a ∈ as, a.Regular e now)
    (hrun : runActions Connections.step s as = some s') : ∃ gone', Counted e now gone' (n + strays s as) s' := by
  induction as generalizing s gone n with
  | nil =>
      cases hrun
      exact ⟨gone, h⟩
  | cons a as ih =>
      obtain ⟨mid, hmid, hrest⟩ := runActions_cons_iff.mp hrun
      have hstrays : strays s (a :: as) = (a.stray s).toNat + strays mid as := by rw [strays, hmid]
      have hregular := has a (by simp)
      have hnext : ∃ gone', Counted e now gone' (n + (a.stray s).toNat) mid := by
        cases a with
        | command i cmd => exact ⟨gone, h.command hregular hmid⟩
        | call i t => exact h.call hregular hmid
      obtain ⟨gone', h'⟩ := hnext
      rw [hstrays, ← Nat.add_assoc]
      exact ih h' (fun b hb => has b (by simp [hb])) hrest

end Count

theorem strays_eq_zero_iff {ι : Type} [DecidableEq ι] (s : Connections ι) (as : List (DelAction ι)) :
    strays s as = 0 ↔ Along Connections.step (fun s a => a.stray s = false) s as := by
  induction as generalizing s with
  | nil => exact ⟨fun _ => trivial, fun _ => rfl⟩
  | cons a as ih =>
      rw [strays, Along, Nat.add_eq_zero_iff]
      apply and_congr
      · cases a.stray s <;> simp
      · cases hstep : s.step a with
        | none => simp
        | some mid => simp [ih]

/-- **`DEL` on several connections**, with their engine calls in any order, from the time they are all free to the time they
are all free again: the integers replied add up to the number of keys that were there before and are not afterwards, and one
more for every delete of a key that another connection has deleted since this one found it. So the sum is right exactly when
there is no such delete. -/
theorem del_counts_iff {ι : Type} [Fintype ι] [DecidableEq ι] (s s' : Connections ι) (now : Time) (as : List (DelAction ι))
    (hlog : Flushed s.engine.log) (hidle : s.Idle) (hreplies : s.replies = []) (has : ∀ a ∈ as, a.Regular s.engine now)
    (hrun : runActions Connections.step s as = some s') (hidle' : s'.Idle) :
    s'.replied = {k | (s.engine.get k now).isSome ∧ s'.engine.get k now = none}.ncard + strays s as ∧
      (s'.replied = {k | (s.engine.get k now).isSome ∧ s'.engine.get k now = none}.ncard ↔
        Along Connections.step (fun s a => a.stray s = false) s as) := by
  have hnone : ∀ (u : Connections ι), u.Idle → ∑ i, (u.task i).pending = 0 := by
    intro u hu
    apply Finset.sum_eq_zero
    intro i _
    obtain ⟨r, hr⟩ := hu i
    rw [hr]
    rfl
  have hstart : Counted s.engine now ∅ 0 s := by
    refine ⟨hlog, fun k t => by simp, by simp, fun i => ?_, ?_⟩
    · obtain ⟨r, hr⟩ := hidle i
      rw [hr]
      trivial
    · rw [hnone s hidle, Connections.replied, hreplies]
      rfl
  obtain ⟨gone, hend⟩ := hstart.run has hrun
  have hgone : {k | (s.engine.get k now).isSome ∧ s'.engine.get k now = none} = (gone : Set Bytes) := by
    ext k
    show (s.engine.get k now).isSome ∧ s'.engine.get k now = none ↔ k ∈ gone
    rw [hend.get]
    constructor
    · intro hk
      by_contra hnot
      rw [if_neg hnot] at hk
      rw [hk.2] at hk
      exact absurd hk.1 (by simp)
    · exact fun hk => ⟨hend.live k hk, if_pos hk⟩
  have hsum : s'.replied = (gone.card : Int) + strays s as := by
    have hcount := hend.count
    rw [hnone s' hidle'] at hcount
    omega
  rw [hgone, Set.ncard_coe_finset, ← strays_eq_zero_iff]
  refine ⟨hsum, ?_⟩
  omega

/-- Connections that have just been accepted. -/
def accepted (ι : Type) (e : Engine) : Connections ι := ⟨e, fun _ => .done (.simpleString []), []⟩

theorem idle_accepted (ι : Type) (e : Engine) : (accepted ι e).Idle := fun _ => ⟨_, rfl⟩

/-- Two connections delete the key; the second looks for it after the first has deleted it. -/
def delApart : List (DelAction Bool) :=
  [.command false ⟨utf8 "DEL", [[0x6b]]⟩, .command true ⟨utf8 "DEL", [[0x6b]]⟩, .call false 0, .call false 0, .call true 0,
    .call true 0, .call false 0]

theorem del_counts_apart : ∃ s', runActions Connections.step (accepted Bool keyK) delApart = some s' ∧
    s'.replies = [.integer 0, .integer 1] ∧ s'.replied = {k | (keyK.get k 0).isSome ∧ s'.engine.get k 0 = none}.ncard := by
  have hend : (runActions Connections.step (accepted Bool keyK) delApart).map
      (fun s => (s.task false, s.task true, s.replies)) =
      some (.done (.integer 1), .done (.integer 0), [.integer 0, .integer 1]) := by decide +kernel
  obtain ⟨s', hrun, hs'⟩ := Option.map_eq_some_iff.mp hend
  simp only [Prod.mk.injEq] at hs'
  obtain ⟨hfalse, htrue, hreplies⟩ := hs'
  have hregular : ∀ a ∈ delApart, a.Regular keyK 0 := by
    intro a ha
    simp only [delApart, List.mem_cons, List.not_mem_nil, or_false] at ha
    rcases ha with rfl | rfl | rfl | rfl | rfl | rfl | rfl
    · show 1 < 2 ^ 63
      omega
    · show 1 < 2 ^ 63
      omega
    all_goals exact fun _ => rfl
  have hidle : s'.Idle
    | false => ⟨_, hfalse⟩
    | true => ⟨_, htrue⟩
  have hstrays : strays (accepted Bool keyK) delApart = 0 := by decide +kernel
  exact ⟨s', hrun, hreplies, (del_counts_iff (accepted Bool keyK) s' 0 delApart flushed_keyK (idle_accepted Bool keyK) rfl
    hregular hrun hidle).2.mpr ((strays_eq_zero_iff _ _).mp hstrays)⟩

/-- Both connections look for the key before either of them deletes it. -/
def delBoth : List (DelAction Bool) :=
  [.command false ⟨utf8 "DEL", [[0x6b]]⟩, .command true ⟨utf8 "DEL", [[0x6b]]⟩, .call false 0, .call true 0,
    .call false 0, .call true 0, .call false 0, .call true 0]

theorem del_counted_twice : ∃ s', runActions Connections.step (accepted Bool keyK) delBoth = some s' ∧ s'.Idle ∧
    s'.replies = [.integer 1, .integer 1] ∧ {k | (keyK.get k 0).isSome ∧ s'.engine.get k 0 = none} = {[0x6b]} ∧
    s'.replied ≠ {k | (keyK.get k 0).isSome ∧ s'.engine.get k 0 = none}.ncard := by
  have hend : (runActions Connections.step (accepted Bool keyK) delBoth).map
      (fun s => (s.task false, s.task true, s.replies, (s.engine.get [0x6b] 0).isNone)) =
      some (.done (.integer 1), .done (.integer 1), [.integer 1, .integer 1], true) := by decide +kernel
  obtain ⟨s', hrun, hs'⟩ := Option.map_eq_some_iff.mp hend
  simp only [Prod.mk.injEq, Option.isNone_iff_eq_none] at hs'
  obtain ⟨hfalse, htrue, hreplies, hgone⟩ := hs'
  have honly : ∀ k, (keyK.get k 0).isSome → k = [0x6b] := by
    intro k hk
    by_contra hne
    have hlookup : keyK.index.lookup k = none := Finmap.lookup_insert_of_ne ∅ hne
    rw [Tables.get, hlookup] at hk
    cases hk
  have hset : {k | (keyK.get k 0).isSome ∧ s'.engine.get k 0 = none} = {[0x6b]} := by
    ext k
    show (keyK.get k 0).isSome ∧ s'.engine.get k 0 = none ↔ k = [0x6b]
    constructor
    · exact fun hk => honly k hk.1
    · rintro rfl
      exact ⟨by decide +kernel, hgone⟩
  refine ⟨s', hrun, ?_, hreplies, hset, ?_⟩
  · intro i
    cases i
    · exact ⟨_, hfalse⟩
    · exact ⟨_, htrue⟩
  · rw [hset, Set.ncard_singleton, Connections.replied, hreplies]
    decide

end Uddp.Resp

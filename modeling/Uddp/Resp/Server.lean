import Uddp.Engine.Basic
import Uddp.Lib.Machine
import Uddp.Lib.Text

/-!
# The RESP listener

`Server.dispatch` serves one command of a connection. Each engine call takes the engine's lock on its own, so other
callers come between the calls of one command.

* `dispatch` : the switch over the commands, from its first to its last engine call;
* `Task`, `start`, `Task.step` : the same, one engine call at a time;
* **`dispatch_steps`** : a command that nobody comes between is `dispatch`.
-/

namespace Uddp.Resp
open Uddp.Lib Uddp.Wal

structure Command where
  name : Bytes
  args : List Bytes
  deriving DecidableEq, Repr

/-- The replies that the writers of the protocol write. -/
inductive Reply
  | simpleString (s : Bytes)
  | error (msg : Bytes)
  | integer (n : Int64)
  | bulkString (b : Bytes)
  | nullBulkString
  deriving DecidableEq, Repr

def wrongNumber (command : String) : Reply :=
  .error (utf8 ("wrong number of arguments for '" ++ command ++ "' command"))

def unknownCommand (name : Bytes) : Reply :=
  .error (utf8 "unknown command '" ++ name ++ utf8 ("' (unsupported: this adapter implements a declared subset only " ++
    "— see docs/REDIS_COMPATIBILITY.md)"))

/-- What the arguments of `SET` ask for: a key, a value and the seconds to live. -/
def parseSet : List Bytes → Except Reply (Bytes × Bytes × Int64)
  | [key, value] => .ok (key, value, 0)
  | key :: value :: opt :: n :: _ =>
      if equalFold opt (utf8 "EX") then
        match parseInt n with
        | none => .error (.error (utf8 "invalid expire time in 'set' command"))
        | some n => if n ≤ 0 then .error (.error (utf8 "invalid expire time in 'set' command")) else .ok (key, value, n)
      else .error (.error (utf8 "unsupported SET option (only EX is implemented)"))
  | [_, _, _] => .error (.error (utf8 "unsupported SET option (only EX is implemented)"))
  | [_] | [] => .error (wrongNumber "set")

theorem parseSet_error {args : List Bytes} {r : Reply} (h : parseSet args = .error r) :
    r = .error (utf8 "invalid expire time in 'set' command") ∨
      r = .error (utf8 "unsupported SET option (only EX is implemented)") ∨ r = wrongNumber "set" := by
  unfold parseSet at h
  split at h
  · cases h
  · split at h
    · split at h
      · cases h
        exact Or.inl rfl
      · split at h
        · cases h
          exact Or.inl rfl
        · cases h
    · cases h
      exact Or.inr (Or.inl rfl)
  · cases h
    exact Or.inr (Or.inl rfl)
  · cases h
    exact Or.inr (Or.inr rfl)
  · cases h
    exact Or.inr (Or.inr rfl)

/-! ## A command from its first engine call to its last -/

def getReply : Option (Bytes × UInt64) → Reply
  | none => .nullBulkString
  | some (value, _) => .bulkString value

/-- The loop of `DEL`; `now i` and `io i` are what the `i`-th key meets. -/
def delLoop (e : Engine) (now : Nat → Time) (io : Nat → AppendIO) : Nat → List Bytes → Int64 → Reply × Engine
  | _, [], deleted => (.integer deleted, e)
  | i, key :: keys, deleted =>
      match e.get key (now i) with
      | none => delLoop e now io (i + 1) keys deleted
      | some _ =>
          match e.delete key [] (io i) with
          | (.error err, e') => (.error (utf8 err.text), e')
          | (.ok _, e') => delLoop e' now io (i + 1) keys (deleted + 1)

def dispatch (e : Engine) (now : Nat → Time) (io : Nat → AppendIO) (cmd : Command) : Reply × Engine :=
  if toUpper cmd.name = utf8 "PING" then (.simpleString (utf8 "PONG"), e)
  else if toUpper cmd.name = utf8 "GET" then
    match cmd.args with
    | [key] => (getReply (e.get key (now 0)), e)
    | _ => (wrongNumber "get", e)
  else if toUpper cmd.name = utf8 "SET" then
    match parseSet cmd.args with
    | .error r => (r, e)
    | .ok (key, value, ttlSeconds) =>
        match e.put key value ttlSeconds [] (now 0) (io 0) with
        | (.error err, e') => (.error (utf8 err.text), e')
        | (.ok _, e') => (.simpleString (utf8 "OK"), e')
  else if toUpper cmd.name = utf8 "DEL" then
    match cmd.args with
    | [] => (wrongNumber "del", e)
    | keys => delLoop e now io 0 keys 0
  else (unknownCommand cmd.name, e)

/-! ## One engine call at a time -/

/-- What a connection has still to do for its command. -/
inductive Task
  /-- The reply is written; the connection is free. -/
  | done (r : Reply)
  | get (key : Bytes)
  | set (key value : Bytes) (ttlSeconds : Int64)
  /-- `DEL` is about to look for the first of the keys. -/
  | del (keys : List Bytes) (deleted : Int64)
  /-- `DEL` has found the key and is about to delete it. -/
  | delete (key : Bytes) (keys : List Bytes) (deleted : Int64)
  deriving DecidableEq, Repr

/-- The command up to its first engine call. -/
def start (cmd : Command) : Task :=
  if toUpper cmd.name = utf8 "PING" then .done (.simpleString (utf8 "PONG"))
  else if toUpper cmd.name = utf8 "GET" then
    match cmd.args with
    | [key] => .get key
    | _ => .done (wrongNumber "get")
  else if toUpper cmd.name = utf8 "SET" then
    match parseSet cmd.args with
    | .error r => .done r
    | .ok (key, value, ttlSeconds) => .set key value ttlSeconds
  else if toUpper cmd.name = utf8 "DEL" then
    match cmd.args with
    | [] => .done (wrongNumber "del")
    | keys => .del keys 0
  else .done (unknownCommand cmd.name)

/-- The next engine call of the task, and what follows up to the one after it. -/
def Task.step (e : Engine) (now : Time) (io : AppendIO) : Task → Task × Engine
  | .done r => (.done r, e)
  | .get key => (.done (getReply (e.get key now)), e)
  | .set key value ttlSeconds =>
      match e.put key value ttlSeconds [] now io with
      | (.error err, e') => (.done (.error (utf8 err.text)), e')
      | (.ok _, e') => (.done (.simpleString (utf8 "OK")), e')
  | .del [] deleted => (.done (.integer deleted), e)
  | .del (key :: keys) deleted =>
      match e.get key now with
      | none => (.del keys deleted, e)
      | some _ => (.delete key keys deleted, e)
  | .delete key keys deleted =>
      match e.delete key [] io with
      | (.error err, e') => (.done (.error (utf8 err.text)), e')
      | (.ok _, e') => (.del keys (deleted + 1), e')

/-- The task is about to change the engine. -/
def Task.Writes : Task → Prop
  | .set _ _ _ | .delete _ _ _ => True
  | .done _ | .get _ | .del _ _ => False

instance (t : Task) : Decidable t.Writes := by
  unfold Task.Writes
  split <;> infer_instance

/-- Only a task that is about to write changes the engine. -/
theorem step_reads {t : Task} (h : ¬t.Writes) (e : Engine) (now : Time) (io : AppendIO) : (t.step e now io).2 = e := by
  unfold Task.step
  split
  · rfl
  · rfl
  · exact absurd trivial h
  · rfl
  · split <;> rfl
  · exact absurd trivial h

/-! ## Alone -/

/-- The connection and the engine, with nobody else. -/
def alone (s : Task × Engine) (x : Time × AppendIO) : Unit × (Task × Engine) := ((), s.1.step s.2 x.1 x.2)

theorem delLoop_steps (e : Engine) (now : Nat → Time) (io : Nat → AppendIO) (i : Nat) (keys : List Bytes)
    (deleted : Int64) : ∃ xs, (run alone (.del keys deleted, e) xs).2 =
      (.done (delLoop e now io i keys deleted).1, (delLoop e now io i keys deleted).2) := by
  induction keys generalizing e i deleted with
  | nil => exact ⟨[(now 0, io 0)], rfl⟩
  | cons key keys ih =>
      unfold delLoop
      cases hget : e.get key (now i) with
      | none =>
          obtain ⟨xs, hxs⟩ := ih e (i + 1) deleted
          refine ⟨(now i, io i) :: xs, ?_⟩
          rw [run_cons]
          simp only [alone, Task.step, hget]
          exact hxs
      | some found =>
          cases hdel : e.delete key [] (io i) with
          | mk result e' =>
              cases result with
              | error err =>
                  refine ⟨[(now i, io i), (now i, io i)], ?_⟩
                  rw [run_cons, run_cons]
                  simp only [alone, Task.step, hget, hdel, run_nil]
              | ok out =>
                  obtain ⟨xs, hxs⟩ := ih e' (i + 1) (deleted + 1)
                  refine ⟨(now i, io i) :: (now i, io i) :: xs, ?_⟩
                  rw [run_cons, run_cons]
                  simp only [alone, Task.step, hget, hdel]
                  exact hxs

/-- **A command that nobody comes between** is served as `dispatch` says. -/
theorem dispatch_steps (e : Engine) (now : Nat → Time) (io : Nat → AppendIO) (cmd : Command) :
    ∃ xs, (run alone (start cmd, e) xs).2 = (.done (dispatch e now io cmd).1, (dispatch e now io cmd).2) := by
  unfold start dispatch
  by_cases hping : toUpper cmd.name = utf8 "PING"
  · exact ⟨[], by simp only [if_pos hping, run_nil]⟩
  by_cases hget : toUpper cmd.name = utf8 "GET"
  · simp only [if_neg hping, if_pos hget]
    split
    · exact ⟨[(now 0, io 0)], rfl⟩
    · exact ⟨[], rfl⟩
  by_cases hset : toUpper cmd.name = utf8 "SET"
  · simp only [if_neg hping, if_neg hget, if_pos hset]
    split
    · exact ⟨[], rfl⟩
    · next key value ttlSeconds hparse =>
      refine ⟨[(now 0, io 0)], ?_⟩
      rw [run_cons]
      simp only [alone, Task.step, run_nil]
      split <;> rfl
  by_cases hdel : toUpper cmd.name = utf8 "DEL"
  · simp only [if_neg hping, if_neg hget, if_neg hset, if_pos hdel]
    split
    · exact ⟨[], rfl⟩
    · exact delLoop_steps e now io 0 cmd.args 0
  · exact ⟨[], by simp only [if_neg hping, if_neg hget, if_neg hset, if_neg hdel, run_nil]⟩

end Uddp.Resp

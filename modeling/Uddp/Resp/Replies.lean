import Uddp.Resp.Requests

/-!
# Replies

The writers put a reply on the connection: a line for a simple string, an error or an integer, and a length with a body for
a bulk string. A client finds the end of a line at its first CR LF.

* `Reply.bytes` : what the writers write; `parseReply` : how a client reads it; `OneReply` : one complete reply;
* `parseReply_bytes`, `framed_of_parseReply`, `oneReply_iff` : a reply is read as it was meant exactly if it is framed;
* `handleConn` : the loop of a connection, and `handleConn_pipeline` : what it writes for a pipeline;
* **`replies_in_order_iff`** : when the replies of a pipeline are read as the answers to its commands.
-/

namespace Uddp.Resp
open Uddp.Lib Uddp.Lib.Reader Uddp.Wal

/-! ## The writers -/

def Reply.bytes : Reply → Bytes
  | .simpleString s => 43 :: s ++ crlf
  | .error msg => 45 :: (utf8 "ERR " ++ msg) ++ crlf
  | .integer n => 58 :: formatInt n.toInt ++ crlf
  | .bulkString b => writeBulkString b
  | .nullBulkString => utf8 "$-1\r\n"

/-! ## A client -/

/-- A reply as a client of the protocol reads it. -/
inductive Seen
  | simple (text : Bytes)
  | error (text : Bytes)
  | integer (n : Int)
  | bulk (b : Bytes)
  | null
  deriving DecidableEq, Repr

/-- What a reply is meant to say. -/
def Reply.seen : Reply → Seen
  | .simpleString s => .simple s
  | .error msg => .error (utf8 "ERR " ++ msg)
  | .integer n => .integer n.toInt
  | .bulkString b => .bulk b
  | .nullBulkString => .null

/-- The line up to the first CR LF, and what follows it. -/
def splitLine : Bytes → Option (Bytes × Bytes)
  | [] => none
  | b :: bs =>
      if b = 13 ∧ bs.head? = some 10 then some ([], bs.tail)
      else (splitLine bs).map (fun p => (b :: p.1, p.2))

/-- The body of a bulk string of `n` bytes. -/
def parseBulk (n : Int) (bs : Bytes) : Option (Seen × Bytes) :=
  if n = -1 then some (.null, bs)
  else if 0 ≤ n ∧ (bs.drop n.toNat).take 2 = crlf then some (.bulk (bs.take n.toNat), bs.drop (n.toNat + 2))
  else none

/-- What a line of the kind `kind` says, with what follows it. -/
def interpret (kind : UInt8) (line rest : Bytes) : Option (Seen × Bytes) :=
  if kind = 43 then some (.simple line, rest)
  else if kind = 45 then some (.error line, rest)
  else if kind = 58 then (parseNumber line).map (fun n => (.integer n, rest))
  else if kind = 36 then (parseNumber line).bind (fun n => parseBulk n rest)
  else none

/-- One reply, and what follows it. -/
def parseReply : Bytes → Option (Seen × Bytes)
  | [] => none
  | kind :: bs => (splitLine bs).bind (fun p => interpret kind p.1 p.2)

/-- The bytes are one complete reply. -/
def OneReply (bs : Bytes) : Prop := ∃ seen, parseReply bs = some (seen, [])

/-! ## Lines -/

theorem crlf_infix_cons {b : UInt8} {l : Bytes} : crlf <:+: b :: l ↔ b = 13 ∧ l.head? = some 10 ∨ crlf <:+: l := by
  rw [List.infix_cons_iff]
  refine or_congr_left ?_
  cases l with
  | nil => simp [crlf]
  | cons y l => simp [crlf, List.cons_prefix_cons, eq_comm]

theorem crlf_infix_append {a b : Bytes} : crlf <:+: a ++ b ↔
    crlf <:+: a ∨ crlf <:+: b ∨ a.getLast? = some 13 ∧ b.head? = some 10 := by
  induction a with
  | nil => simp [crlf]
  | cons x a ih =>
      rw [List.cons_append, crlf_infix_cons, crlf_infix_cons, ih]
      cases a with
      | nil => simp [crlf, or_comm]
      | cons y a => simp [or_assoc]

/-- Only the CR LF behind a line can come before one in the line. -/
theorem head_line {line : Bytes} (rest : Bytes) : (line ++ (crlf ++ rest)).head? = some 10 ↔ line.head? = some 10 := by
  cases line with
  | nil => simp [crlf]
  | cons x line => simp

theorem splitLine_iff {bs line rest : Bytes} :
    splitLine bs = some (line, rest) ↔ bs = line ++ (crlf ++ rest) ∧ ¬crlf <:+: line := by
  induction bs generalizing line with
  | nil =>
      constructor
      · intro h
        cases h
      · rintro ⟨h, -⟩
        exact absurd h (by simp [crlf])
  | cons b bs ih =>
      rw [splitLine]
      by_cases hend : b = 13 ∧ bs.head? = some 10
      · rw [if_pos hend]
        constructor
        · intro h
          cases h
          obtain ⟨rfl, hhead⟩ := hend
          obtain ⟨bs, rfl⟩ := List.head?_eq_some_iff.mp hhead
          exact ⟨rfl, by decide⟩
        · rintro ⟨h, hclean⟩
          cases line with
          | nil =>
              cases h
              rfl
          | cons x line =>
              -- a longer line would have this CR LF in it
              cases h
              exact absurd (crlf_infix_cons.mpr (Or.inl ⟨hend.1, (head_line rest).mp hend.2⟩)) hclean
      · rw [if_neg hend, Option.map_eq_some_iff]
        constructor
        · rintro ⟨⟨line', rest'⟩, hline, h⟩
          cases h
          obtain ⟨rfl, hclean⟩ := ih.mp hline
          refine ⟨rfl, fun hinfix => ?_⟩
          rcases crlf_infix_cons.mp hinfix with ⟨hb, hhead⟩ | hinfix
          · exact hend ⟨hb, (head_line _).mpr hhead⟩
          · exact hclean hinfix
        · rintro ⟨h, hclean⟩
          cases line with
          | nil =>
              cases h
              exact absurd ⟨rfl, rfl⟩ hend
          | cons x line =>
              cases h
              exact ⟨(line, rest), ih.mpr ⟨rfl, fun hinfix => hclean (crlf_infix_cons.mpr (Or.inr hinfix))⟩, rfl⟩

/-! ## Replies that are read as they are meant -/

/-- The line of the reply has no CR LF in it. -/
def Reply.Framed : Reply → Prop
  | .simpleString s => ¬crlf <:+: s
  | .error msg => ¬crlf <:+: msg
  | .integer _ | .bulkString _ | .nullBulkString => True

theorem crlf_infix_err {msg : Bytes} : crlf <:+: utf8 "ERR " ++ msg ↔ crlf <:+: msg := by
  have htext : utf8 "ERR " = [69, 82, 82, 32] := by decide +kernel
  rw [htext]
  simp [crlf_infix_cons]

theorem not_crlf_infix_number {s : Bytes} {n : Int} (h : parseNumber s = some n) : ¬crlf <:+: s := by
  intro hinfix
  have hmem : (10 : UInt8) ∈ s := hinfix.subset (by decide)
  exact ((parseNumber_bytes h).2 10 hmem).1 rfl

theorem parseReply_line {line : Bytes} (h : ¬crlf <:+: line) (kind : UInt8) (rest : Bytes) :
    parseReply (kind :: line ++ crlf ++ rest) = interpret kind line rest := by
  have hsplit : splitLine (line ++ crlf ++ rest) = some (line, rest) :=
    splitLine_iff.mpr ⟨List.append_assoc _ _ _, h⟩
  show (splitLine (line ++ crlf ++ rest)).bind _ = _
  rw [hsplit, Option.bind_some]

theorem parseReply_text {kind : UInt8} {f : Bytes → Seen} (hf : ∀ line rest, interpret kind line rest = some (f line, rest))
    {line rest rest' : Bytes} {seen : Seen} (h : parseReply (kind :: line ++ crlf ++ rest) = some (seen, rest')) :
    ∃ front, seen = f front ∧ ¬crlf <:+: front ∧ line ++ (crlf ++ rest) = front ++ (crlf ++ rest') := by
  obtain ⟨⟨front, rest''⟩, hsplit, hseen⟩ := Option.bind_eq_some_iff.mp h
  rw [hf] at hseen
  cases hseen
  obtain ⟨hbs, hclean⟩ := splitLine_iff.mp hsplit
  exact ⟨front, rfl, hclean, (List.append_assoc line crlf rest).symm.trans hbs⟩

theorem parseBulk_body (b rest : Bytes) : parseBulk b.length (b ++ (crlf ++ rest)) = some (.bulk b, rest) := by
  have hdrop : (b ++ (crlf ++ rest)).drop (b.length + 2) = rest := by
    rw [← List.drop_drop, List.drop_left]
    rfl
  unfold parseBulk
  rw [if_neg (by omega), Int.toNat_natCast, List.drop_left, List.take_left, hdrop]
  exact if_pos ⟨Int.natCast_nonneg _, rfl⟩

/-- **A framed reply** is read as it is meant, whatever follows it. -/
theorem parseReply_bytes {r : Reply} (h : r.Framed) (rest : Bytes) : parseReply (r.bytes ++ rest) = some (r.seen, rest) := by
  cases r with
  | simpleString s => exact parseReply_line h 43 rest
  | error msg => exact parseReply_line (fun hinfix => h (crlf_infix_err.mp hinfix)) 45 rest
  | integer n =>
      have hn := parseNumber_formatInt n.toInt
      rw [Reply.bytes, parseReply_line (not_crlf_infix_number hn)]
      show (parseNumber (formatInt n.toInt)).map (fun n => (Seen.integer n, rest)) = _
      rw [hn]
      rfl
  | bulkString b =>
      have hlen := parseNumber_formatInt (b.length : Int)
      rw [formatInt_natCast] at hlen
      rw [Reply.bytes, writeBulkString, List.append_assoc _ b, List.append_assoc _ (b ++ crlf),
        parseReply_line (not_crlf_infix_number hlen)]
      show (parseNumber (decimal b.length)).bind (fun n => parseBulk n (b ++ crlf ++ rest)) = _
      rw [hlen, Option.bind_some, List.append_assoc, parseBulk_body]
      rfl
  | nullBulkString =>
      have hbytes : utf8 "$-1\r\n" = 36 :: utf8 "-1" ++ crlf := by decide +kernel
      have hnull : parseNumber (utf8 "-1") = some (-1) := by decide +kernel
      rw [Reply.bytes, hbytes, parseReply_line (not_crlf_infix_number hnull)]
      show (parseNumber (utf8 "-1")).bind (fun n => parseBulk n rest) = _
      rw [hnull]
      rfl

/-- **A reply that is not framed** is never read as it is meant. -/
theorem framed_of_parseReply {r : Reply} {rest rest' : Bytes} (h : parseReply (r.bytes ++ rest) = some (r.seen, rest')) :
    r.Framed := by
  cases r with
  | simpleString s =>
      obtain ⟨front, hseen, hclean, -⟩ := parseReply_text (f := .simple) (fun _ _ => rfl) h
      cases hseen
      exact hclean
  | error msg =>
      obtain ⟨front, hseen, hclean, -⟩ := parseReply_text (f := .error) (fun _ _ => rfl) h
      cases hseen
      exact fun hinfix => hclean (crlf_infix_err.mpr hinfix)
  | integer n => trivial
  | bulkString b => trivial
  | nullBulkString => trivial

/-- The writers write one complete reply exactly if it is framed. -/
theorem oneReply_iff (r : Reply) : OneReply r.bytes ↔ r.Framed := by
  constructor
  · rintro ⟨seen, h⟩
    rw [← List.append_nil r.bytes] at h
    cases r with
    | simpleString s =>
        obtain ⟨front, -, hclean, hbs⟩ := parseReply_text (f := .simple) (fun _ _ => rfl) h
        rwa [← List.append_cancel_right hbs] at hclean
    | error msg =>
        obtain ⟨front, -, hclean, hbs⟩ := parseReply_text (f := .error) (fun _ _ => rfl) h
        rw [← List.append_cancel_right hbs] at hclean
        exact fun hinfix => hclean (crlf_infix_err.mpr hinfix)
    | integer n => trivial
    | bulkString b => trivial
    | nullBulkString => trivial
  · intro h
    have hparse := parseReply_bytes h []
    rw [List.append_nil] at hparse
    exact ⟨r.seen, hparse⟩

/-! ## The replies of the server -/

/-- The name is none of the four. -/
def Unknown (name : Bytes) : Prop :=
  toUpper name ≠ utf8 "PING" ∧ toUpper name ≠ utf8 "GET" ∧ toUpper name ≠ utf8 "SET" ∧ toUpper name ≠ utf8 "DEL"

theorem parseSet_framed {args : List Bytes} {r : Reply} (h : parseSet args = .error r) : r.Framed := by
  rcases parseSet_error h with rfl | rfl | rfl
  · show ¬crlf <:+: _
    decide +kernel
  · show ¬crlf <:+: _
    decide +kernel
  · show ¬crlf <:+: _
    decide +kernel

/-- The `Delete` of the loop of `DEL` that fails. -/
def delError (e : Engine) (now : Nat → Time) (io : Nat → AppendIO) : Nat → List Bytes → Option EngineError
  | _, [] => none
  | i, key :: keys =>
      match e.get key (now i) with
      | none => delError e now io (i + 1) keys
      | some _ =>
          match e.delete key [] (io i) with
          | (.error err, _) => some err
          | (.ok _, e') => delError e' now io (i + 1) keys

/-- The error of the engine call of a command that fails, if one does. -/
def engineError (e : Engine) (now : Nat → Time) (io : Nat → AppendIO) (cmd : Command) : Option EngineError :=
  if toUpper cmd.name = utf8 "SET" then
    match parseSet cmd.args with
    | .error _ => none
    | .ok (key, value, ttlSeconds) =>
        match e.put key value ttlSeconds [] (now 0) (io 0) with
        | (.error err, _) => some err
        | (.ok _, _) => none
  else if toUpper cmd.name = utf8 "DEL" then delError e now io 0 cmd.args
  else none

theorem delLoop_reply (e : Engine) (now : Nat → Time) (io : Nat → AppendIO) (i : Nat) (keys : List Bytes) (deleted : Int64) :
    (delError e now io i keys = none ∧ ∃ n, (delLoop e now io i keys deleted).1 = .integer n) ∨
      ∃ err, delError e now io i keys = some err ∧ (delLoop e now io i keys deleted).1 = .error (utf8 err.text) := by
  induction keys generalizing e i deleted with
  | nil => exact Or.inl ⟨rfl, deleted, rfl⟩
  | cons key keys ih =>
      unfold delLoop delError
      cases e.get key (now i) with
      | none => exact ih e (i + 1) deleted
      | some found =>
          cases e.delete key [] (io i) with
          | mk result e' =>
              cases result with
              | error err => exact Or.inr ⟨err, rfl, rfl⟩
              | ok out => exact ih e' (i + 1) (deleted + 1)

/-- Every reply tells the error of an engine call, or none fails and the reply is framed or tells that the name is unknown. -/
theorem dispatch_reply (e : Engine) (now : Nat → Time) (io : Nat → AppendIO) (cmd : Command) :
    (∃ err, engineError e now io cmd = some err ∧ (dispatch e now io cmd).1 = .error (utf8 err.text)) ∨
      engineError e now io cmd = none ∧ ((dispatch e now io cmd).1.Framed ∨
        Unknown cmd.name ∧ (dispatch e now io cmd).1 = unknownCommand cmd.name) := by
  unfold dispatch engineError
  have hnames : utf8 "PING" ≠ utf8 "SET" ∧ utf8 "PING" ≠ utf8 "DEL" ∧ utf8 "GET" ≠ utf8 "SET" ∧ utf8 "GET" ≠ utf8 "DEL" := by
    decide +kernel
  by_cases hping : toUpper cmd.name = utf8 "PING"
  · rw [if_pos hping, hping, if_neg hnames.1, if_neg hnames.2.1]
    refine Or.inr ⟨rfl, Or.inl ?_⟩
    show ¬crlf <:+: utf8 "PONG"
    decide +kernel
  by_cases hget : toUpper cmd.name = utf8 "GET"
  · rw [if_neg hping, if_pos hget, hget, if_neg hnames.2.2.1, if_neg hnames.2.2.2]
    refine Or.inr ⟨rfl, Or.inl ?_⟩
    split
    · next key _ =>
      cases e.get key (now 0) with
      | none => trivial
      | some found => trivial
    · show ¬crlf <:+: _
      decide +kernel
  by_cases hset : toUpper cmd.name = utf8 "SET"
  · rw [if_neg hping, if_neg hget, if_pos hset, if_pos hset]
    cases hargs : parseSet cmd.args with
    | error r => exact Or.inr ⟨rfl, Or.inl (parseSet_framed hargs)⟩
    | ok set =>
        obtain ⟨key, value, ttlSeconds⟩ := set
        dsimp only
        cases e.put key value ttlSeconds [] (now 0) (io 0) with
        | mk result e' =>
            cases result with
            | error err => exact Or.inl ⟨err, rfl, rfl⟩
            | ok out =>
                refine Or.inr ⟨rfl, Or.inl ?_⟩
                show ¬crlf <:+: utf8 "OK"
                decide +kernel
  by_cases hdel : toUpper cmd.name = utf8 "DEL"
  · rw [if_neg hping, if_neg hget, if_neg hset, if_pos hdel, if_neg hset, if_pos hdel]
    split
    · next hargs =>
      rw [hargs]
      refine Or.inr ⟨rfl, Or.inl ?_⟩
      show ¬crlf <:+: _
      decide +kernel
    · rcases delLoop_reply e now io 0 cmd.args 0 with ⟨hnone, n, hn⟩ | herr
      · rw [hn]
        exact Or.inr ⟨hnone, Or.inl trivial⟩
      · exact Or.inl herr
  · rw [if_neg hping, if_neg hget, if_neg hset, if_neg hdel, if_neg hset, if_neg hdel]
    exact Or.inr ⟨rfl, Or.inr ⟨⟨hping, hget, hset, hdel⟩, rfl⟩⟩

theorem dispatch_unknown {cmd : Command} (h : Unknown cmd.name) (e : Engine) (now : Nat → Time) (io : Nat → AppendIO) :
    dispatch e now io cmd = (unknownCommand cmd.name, e) := by
  obtain ⟨hping, hget, hset, hdel⟩ := h
  rw [dispatch, if_neg hping, if_neg hget, if_neg hset, if_neg hdel]

theorem unknownCommand_framed_iff (name : Bytes) : (unknownCommand name).Framed ↔ ¬crlf <:+: name := by
  obtain ⟨front, hfront⟩ : ∃ front, front = utf8 "unknown command '" := ⟨_, rfl⟩
  obtain ⟨back, hback⟩ : ∃ back, back = utf8 ("' (unsupported: this adapter implements a declared subset only " ++
    "— see docs/REDIS_COMPATIBILITY.md)") := ⟨_, rfl⟩
  have hf : ¬crlf <:+: front ∧ front.getLast? ≠ some 13 := by
    rw [hfront]
    decide +kernel
  have hb : ¬crlf <:+: back ∧ back.head? ≠ some 10 := by
    rw [hback]
    decide +kernel
  rw [unknownCommand, ← hfront, ← hback, Reply.Framed, crlf_infix_append, crlf_infix_append, not_iff_not]
  constructor
  · rintro ((h | h | h) | h | h)
    · exact absurd h hf.1
    · exact h
    · exact absurd h.1 hf.2
    · exact absurd h hb.1
    · exact absurd h.2 hb.2
  · intro h
    exact Or.inl (Or.inr (Or.inl h))

/-- What a command meets: the engine, which other connections change as well, the clock and the disk. -/
structure World where
  engine : Engine
  now : Nat → Time
  io : Nat → AppendIO

/-- A turn of a connection. -/
structure Turn extends World where
  cmd : Command

def Turn.reply (t : Turn) : Reply := (dispatch t.engine t.now t.io t.cmd).1

/-- What the operating system has said in an error of the engine. -/
def causeOf : EngineError → String
  | .versionMismatch => ""
  | .wal (.writeLength e) | .wal (.writeBody e) | .wal (.flush e) | .wal (.fsync e) => e

theorem crlf_infix_text (err : EngineError) : crlf <:+: utf8 err.text ↔ crlf <:+: utf8 (causeOf err) := by
  have htext : ∀ front : String, ¬crlf <:+: utf8 front ∧ (utf8 front).getLast? ≠ some 13 → ∀ e : String,
      crlf <:+: utf8 (front ++ e) ↔ crlf <:+: utf8 e := by
    intro front hfront e
    rw [utf8_append, crlf_infix_append]
    simp [hfront]
  cases err with
  | versionMismatch => decide +kernel
  | wal err =>
      cases err with
      | writeLength e => exact htext "wal: write length: " (by decide +kernel) e
      | writeBody e => exact htext "wal: write body: " (by decide +kernel) e
      | flush e => exact htext "wal: flush: " (by decide +kernel) e
      | fsync e => exact htext "wal: fsync: " (by decide +kernel) e

/-- An unknown name has no CR LF in it, and neither has what the operating system says if the engine call fails. -/
def Turn.Clean (t : Turn) : Prop :=
  (Unknown t.cmd.name → ¬crlf <:+: t.cmd.name) ∧
    ∀ err, engineError t.engine t.now t.io t.cmd = some err → ¬crlf <:+: utf8 (causeOf err)

theorem Turn.framed_iff (t : Turn) : t.reply.Framed ↔ t.Clean := by
  have hreply := dispatch_reply t.engine t.now t.io t.cmd
  constructor
  · intro h
    constructor
    · intro hunknown
      rw [Turn.reply, dispatch_unknown hunknown] at h
      exact (unknownCommand_framed_iff _).mp h
    · intro err herr
      rcases hreply with ⟨err', herr', h'⟩ | ⟨hnone, -⟩
      · rw [herr] at herr'
        cases herr'
        rw [Turn.reply, h'] at h
        exact fun hinfix => h ((crlf_infix_text err).mpr hinfix)
      · rw [herr] at hnone
        cases hnone
  · rintro ⟨hname, herr⟩
    rcases hreply with ⟨err, herr', h⟩ | ⟨-, h | ⟨hunknown, h⟩⟩
    · rw [Turn.reply, h]
      exact fun hinfix => herr err herr' ((crlf_infix_text err).mp hinfix)
    · exact h
    · rw [Turn.reply, h]
      exact (unknownCommand_framed_iff _).mpr (hname hunknown)

/-! ## Pipelines -/

/-- The replies that a client reads one behind the other. -/
def parseReplies : Nat → Bytes → Option (List Seen × Bytes)
  | 0, bs => some ([], bs)
  | n + 1, bs => (parseReply bs).bind (fun p => (parseReplies n p.2).map (fun q => (p.1 :: q.1, q.2)))

theorem parseReplies_iff (rs : List Reply) : parseReplies rs.length (rs.flatMap Reply.bytes) = some (rs.map Reply.seen, []) ↔
    ∀ r ∈ rs, r.Framed := by
  induction rs with
  | nil => exact ⟨fun _ => List.forall_mem_nil _, fun _ => rfl⟩
  | cons r rs ih =>
      rw [List.forall_mem_cons, ← ih, List.length_cons, parseReplies, List.flatMap_cons, List.map_cons]
      constructor
      · intro h
        obtain ⟨⟨seen, rest⟩, hr, hrs⟩ := Option.bind_eq_some_iff.mp h
        obtain ⟨⟨seens, rest'⟩, hmore, hcons⟩ := Option.map_eq_some_iff.mp hrs
        cases hcons
        have hframed := framed_of_parseReply hr
        rw [parseReply_bytes hframed] at hr
        cases hr
        exact ⟨hframed, hmore⟩
      · rintro ⟨hframed, hmore⟩
        rw [parseReply_bytes hframed, Option.bind_some, hmore]
        rfl

/-- **One command, one reply.** Whatever engine each command of a pipeline finds: the bytes that `dispatch` writes for a
command are one complete reply, and the replies to all the commands are read as they are meant and in order, exactly if no
unknown name has a CR LF in it, and no text of the operating system in the error of an engine call that fails. -/
theorem replies_in_order_iff (turns : List Turn) :
    (∀ t : Turn, OneReply t.reply.bytes ↔ t.Clean) ∧
    (parseReplies turns.length (turns.flatMap (fun t => t.reply.bytes)) = some (turns.map (fun t => t.reply.seen), []) ↔
      ∀ t ∈ turns, t.Clean) := by
  constructor
  · intro t
    rw [oneReply_iff, t.framed_iff]
  · have h := parseReplies_iff (turns.map Turn.reply)
    rw [List.length_map, List.flatMap_map, List.map_map, List.forall_mem_map] at h
    simp only [Turn.framed_iff] at h
    exact h

/-- A node that has just been started. -/
def newWorld : World := ⟨fresh, fun _ => 0, fun _ => AppendIO.ok⟩

/-- A name with a CR LF in it: the reply is no complete reply, and the next command, a `PING`, gets the rest of it for its
answer. -/
theorem unknown_name_shifts_replies :
    ¬OneReply (⟨newWorld, ⟨utf8 "X\r\n+OK", []⟩⟩ : Turn).reply.bytes ∧
    (⟨newWorld, ⟨utf8 "PING", []⟩⟩ : Turn).reply.seen = .simple (utf8 "PONG") ∧
    (parseReplies 2 ((⟨newWorld, ⟨utf8 "X\r\n+OK", []⟩⟩ : Turn).reply.bytes ++
        (⟨newWorld, ⟨utf8 "PING", []⟩⟩ : Turn).reply.bytes)).map Prod.fst =
      some [.error (utf8 "ERR unknown command 'X"), .simple (utf8 ("OK' (unsupported: this adapter implements a declared " ++
        "subset only — see docs/REDIS_COMPATIBILITY.md)"))] := by
  have hunknown : Unknown (utf8 "X\r\n+OK") := by
    unfold Unknown
    decide +kernel
  have hbad : (⟨newWorld, ⟨utf8 "X\r\n+OK", []⟩⟩ : Turn).reply = unknownCommand (utf8 "X\r\n+OK") := by
    rw [Turn.reply, dispatch_unknown hunknown]
  have hping : (⟨newWorld, ⟨utf8 "PING", []⟩⟩ : Turn).reply = .simpleString (utf8 "PONG") := by
    have hname : toUpper (utf8 "PING") = utf8 "PING" := by decide +kernel
    exact congrArg Prod.fst (if_pos hname)
  rw [hbad, hping]
  refine ⟨?_, rfl, by decide +kernel⟩
  rw [oneReply_iff, unknownCommand_framed_iff]
  decide +kernel

/-! ## A connection -/

/-- `handleConn`: what it writes, and what ends it. The `i`-th command meets `world i`, and every command takes at least one
byte from the stream, so that `fuel` is not short if it is more than the bytes. -/
def handleConn (rt : Runtime) (last : IoError) (world : Nat → World) : Nat → Nat → Bytes → Bytes × Option (Halt ReadError)
  | 0, _, _ => ([], none)
  | fuel + 1, i, bs =>
      match readCommand rt last bs with
      | .error halt => ([], some halt)
      | .ok (cmd, rest) =>
          let more := handleConn rt last world fuel (i + 1) rest
          ((⟨world i, cmd⟩ : Turn).reply.bytes ++ more.1, more.2)

theorem readCommand_consumes {rt : Runtime} {last : IoError} {bs rest : Bytes} {cmd : Command}
    (h : readCommand rt last bs = .ok (cmd, rest)) : rest.length < bs.length := by
  obtain ⟨_, rfl, head, us, hacc, rfl, -⟩ := (reads_readCommand rt last _ _ _).mp h
  obtain ⟨n, ⟨text, -, hhead⟩, -⟩ := hacc.header
  rw [List.length_append, List.length_append]
  rcases hhead with rfl | rfl <;> simp

theorem handleConn_ends (rt : Runtime) (last : IoError) (world : Nat → World) {fuel : Nat} (i : Nat) {bs : Bytes}
    (h : bs.length < fuel) : ∃ halt, (handleConn rt last world fuel i bs).2 = some halt := by
  induction fuel generalizing i bs with
  | zero => exact absurd h (Nat.not_lt_zero _)
  | succ fuel ih =>
      unfold handleConn
      cases hread : readCommand rt last bs with
      | error halt => exact ⟨halt, rfl⟩
      | ok p => exact ih (i + 1) (Nat.lt_of_lt_of_le (readCommand_consumes hread) (Nat.le_of_lt_succ h))

/-- The turns of a connection with the commands `cmds`. -/
def turnsOf (world : Nat → World) : Nat → List Command → List Turn
  | _, [] => []
  | i, cmd :: cmds => ⟨world i, cmd⟩ :: turnsOf world (i + 1) cmds

/-- **What a connection writes** for a pipeline is its replies, and the end of the stream ends it. -/
theorem handleConn_pipeline (rt : Runtime) (last : IoError) (world : Nat → World) (i : Nat) {cmds : List Command}
    (hfit : ∀ cmd ∈ cmds, cmd.Fits rt) {fuel : Nat} (hfuel : cmds.length < fuel) :
    handleConn rt last world fuel i (cmds.flatMap encode) =
      ((turnsOf world i cmds).flatMap (fun t => t.reply.bytes), some (.error (.io last))) := by
  induction cmds generalizing i fuel with
  | nil =>
      cases fuel with
      | zero => exact absurd hfuel (Nat.not_lt_zero _)
      | succ fuel => rfl
  | cons cmd cmds ih =>
      obtain ⟨hcmd, hcmds⟩ := List.forall_mem_cons.mp hfit
      cases fuel with
      | zero => exact absurd hfuel (Nat.not_lt_zero _)
      | succ fuel =>
          rw [List.flatMap_cons, handleConn, readCommand_encode last hcmd]
          dsimp only
          rw [ih (i + 1) hcmds (Nat.lt_of_succ_lt_succ hfuel), turnsOf, List.flatMap_cons]

end Uddp.Resp

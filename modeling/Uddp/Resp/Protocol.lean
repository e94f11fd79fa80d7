import Uddp.Lib.Decimal
import Uddp.Lib.Reader
import Uddp.Resp.Server

/-!
# Reading commands

`ReadCommand` takes one request, an array of bulk strings, from the stream of a connection.

* `readLine`, `readBulkString`, `readCommand` : the reads of the protocol;
* `Header`, `Bulk`, `Accepted` : the requests that they accept, which `reads_readCommand` says exactly;
* `Oversized` : the streams on which they panic; **`readCommand_panics_iff`**.
-/

namespace Uddp.Resp
open Uddp.Lib Uddp.Lib.Reader

/-- What a read behind the last byte of a connection reports. -/
inductive IoError
  | eof
  | failed (text : String)
  deriving DecidableEq, Repr

inductive ReadError
  | io (e : IoError)
  | unexpectedEOF
  | expectedArray (line : Bytes)
  | arrayLength (text : Bytes)
  | expectedBulkString (line : Bytes)
  | bulkLength (text : Bytes)
  deriving DecidableEq, Repr

/-- `quote` is the verb `%q`. -/
def ReadError.text (quote : Bytes → String) : ReadError → String
  | .io .eof => "EOF"
  | .io (.failed text) => text
  | .unexpectedEOF => "unexpected EOF"
  | .expectedArray line => "resp: expected array (*), got " ++ quote line
  | .arrayLength text => "resp: invalid array length " ++ quote text
  | .expectedBulkString line => "resp: expected bulk string ($), got " ++ quote line
  | .bulkLength text => "resp: invalid bulk string length " ++ quote text

/-- The error of `io.ReadFull` on a stream that ends too early. -/
def shortRead : IoError → Bytes → ReadError
  | .eof, _ :: _ => .unexpectedEOF
  | e, _ => .io e

section Reading
-- the limits of the process, and what reads behind the last byte of the connection report
variable (rt : Runtime) (last : IoError)

def readLine : Reader ReadError Bytes := do
  let line ← readBytes (.io last) 10
  let line ← cut line 0 (line.length - 1)
  if line.length > 0 ∧ line.getLast? = some 13 then cut line 0 (line.length - 1) else pure line

def readBulkString : Reader ReadError Bytes := do
  let line ← readLine last
  if line.head? ≠ some 36 then fail (.expectedBulkString line)
  else
    let text ← cut line 1 line.length
    match parseInt text with
    | none => fail (.bulkLength text)
    | some n =>
        -- a null bulk string
        if n < 0 then pure []
        else
          makeSlice rt 1 (n + 2)
          let buf ← readFull (shortRead last) (n + 2).toInt.toNat
          cut buf 0 n.toInt

/-- The loop of `ReadCommand`. -/
def readParts : Nat → Reader ReadError (List Bytes)
  | 0 => pure []
  | n + 1 => do
      let b ← readBulkString rt last
      let parts ← readParts n
      pure (b :: parts)

/-- A slice header has three words. -/
def sliceHeaderSize : Nat := 24

def readCommand : Reader ReadError Command := do
  let line ← readLine last
  if line.head? ≠ some 42 then fail (.expectedArray line)
  else
    let text ← cut line 1 line.length
    match parseInt text with
    | none => fail (.arrayLength text)
    | some n =>
        if n < 1 then fail (.arrayLength text)
        else
          makeSlice rt sliceHeaderSize n
          let parts ← readParts rt last n.toInt.toNat
          let name ← index parts 0
          let args ← cut parts 1 parts.length
          pure ⟨name, args⟩

end Reading

def crlf : Bytes := [13, 10]

/-! ## Lines -/

/-- The bytes `used` are the line `line` with its end, CR LF or LF alone. -/
def Line (used line : Bytes) : Prop :=
  10 ∉ line ∧ (used = line ++ crlf ∨ used = line ++ [10] ∧ line.getLast? ≠ some 13)

theorem trim_eq (l : Bytes) : (do
      let line ← cut (l ++ [10]) 0 ((l ++ [10]).length - 1)
      if line.length > 0 ∧ line.getLast? = some 13 then cut line 0 (line.length - 1) else pure line :
        Reader ReadError Bytes) = pure (if l.getLast? = some 13 then l.dropLast else l) := by
  have hcast (k : Bytes) (hk : 0 < k.length) : ((k.length : Int) - 1) = ((k.length - 1 : Nat) : Int) := by omega
  have hcut : (cut (l ++ [10]) 0 ((l ++ [10]).length - 1) : Reader ReadError Bytes) = pure l := by
    rw [hcast _ (by simp), ← Int.natCast_zero, cut_of_le (Nat.zero_le _) (Nat.sub_le _ _), List.drop_zero,
      ← List.dropLast_eq_take, List.dropLast_concat]
  rw [hcut, pure_bind]
  by_cases hcr : l.getLast? = some 13
  · have hpos : 0 < l.length := by
      cases l with
      | nil => cases hcr
      | cons b l => exact Nat.succ_pos _
    rw [if_pos ⟨hpos, hcr⟩, if_pos hcr, hcast l hpos, ← Int.natCast_zero, cut_of_le (Nat.zero_le _) (Nat.sub_le _ _),
      List.drop_zero, List.dropLast_eq_take]
  · rw [if_neg (fun h => hcr h.2), if_neg hcr]

theorem line_trim {l : Bytes} (hl : 10 ∉ l) : Line (l ++ [10]) (if l.getLast? = some 13 then l.dropLast else l) := by
  by_cases hcr : l.getLast? = some 13
  · obtain ⟨k, rfl⟩ : ∃ k, l = k ++ [13] := ⟨l.dropLast, (List.dropLast_append_getLast? 13 hcr).symm⟩
    rw [if_pos hcr, List.dropLast_concat]
    exact ⟨fun h => hl (List.mem_append_left _ h), Or.inl (List.append_assoc k [13] [10])⟩
  · rw [if_neg hcr]
    exact ⟨hl, Or.inr ⟨rfl, hcr⟩⟩

theorem trim_of_line {used line : Bytes} (h : Line used line) :
    ∃ l, 10 ∉ l ∧ used = l ++ [10] ∧ line = if l.getLast? = some 13 then l.dropLast else l := by
  obtain ⟨hline, rfl | ⟨rfl, hcr⟩⟩ := h
  · refine ⟨line ++ [13], ?_, (List.append_assoc line [13] [10]).symm, ?_⟩
    · rw [List.mem_append, List.mem_singleton]
      rintro (h | h)
      · exact hline h
      · exact absurd h (by decide)
    · rw [List.getLast?_concat, if_pos rfl, List.dropLast_concat]
  · exact ⟨line, hline, rfl, (if_neg hcr).symm⟩

theorem reads_readLine (last : IoError) : Reads (readLine last) Line := by
  intro bs line rest
  unfold readLine
  rw [bind_ok_iff]
  constructor
  · rintro ⟨_, mid, hline, htrim⟩
    obtain ⟨used, rfl, rfl, l, hl, rfl⟩ := (reads_readBytes _ _ _ _ _).mp hline
    rw [trim_eq] at htrim
    cases htrim
    exact ⟨_, rfl, line_trim hl⟩
  · rintro ⟨used, rfl, h⟩
    obtain ⟨l, hl, rfl, rfl⟩ := trim_of_line h
    refine ⟨l ++ [10], rest, (reads_readBytes _ _ _ _ _).mpr ⟨_, rfl, rfl, l, hl, rfl⟩, ?_⟩
    rw [trim_eq]
    rfl

theorem not_panics_readLine (last : IoError) (k : Panic) (bs : Bytes) : ¬Panics (readLine last) k bs := by
  unfold readLine
  rw [panics_bind_iff]
  rintro (h | ⟨_, mid, hline, h⟩)
  · exact not_panics_readBytes _ _ _ _ h
  · obtain ⟨used, rfl, rfl, l, hl, rfl⟩ := (reads_readBytes _ _ _ _ _).mp hline
    rw [trim_eq] at h
    exact not_panics_pure _ _ _ h

/-! ## Headers -/

/-- A line of the byte `kind` and a number, as `strconv.Atoi` reads it. -/
def Header (kind : UInt8) (used : Bytes) (n : Int64) : Prop :=
  ∃ text, parseInt text = some n ∧ (used = kind :: text ++ crlf ∨ used = kind :: text ++ [10])

theorem header_iff {kind : UInt8} (hkind : kind ≠ 10 ∧ kind ≠ 13) {used : Bytes} {n : Int64} :
    Header kind used n ↔ ∃ text, parseInt text = some n ∧ Line used (kind :: text) := by
  refine exists_congr fun text => and_congr_right fun hn => ?_
  obtain ⟨-, hbytes⟩ := parseInt_bytes hn
  have hline : ∀ b ∈ kind :: text, b ≠ 10 ∧ b ≠ 13 := List.forall_mem_cons.mpr ⟨hkind, hbytes⟩
  constructor
  · intro h
    refine ⟨fun h10 => (hline 10 h10).1 rfl, h.imp_right fun h => ⟨h, fun h13 => ?_⟩⟩
    exact (hline 13 (List.mem_of_getLast? h13)).2 rfl
  · rintro ⟨-, h⟩
    exact h.imp_right And.left

section WithHeader
variable {α : Type} (last : IoError) (kind : UInt8) (noKind noNumber : Bytes → ReadError)
  (f : Bytes → Int64 → Reader ReadError α)

/-- What both readers do with their first line: it has the byte `kind` and a number, and `f` goes on from there. -/
def header (line : Bytes) : Reader ReadError α :=
  if line.head? ≠ some kind then fail (noKind line)
  else do
    let text ← cut line 1 line.length
    match parseInt text with
    | none => fail (noNumber text)
    | some n => f text n

def withHeader : Reader ReadError α := readLine last >>= header kind noKind noNumber f

variable {last kind noKind noNumber f}

theorem header_text (kind : UInt8) (noKind noNumber : Bytes → ReadError) (f : Bytes → Int64 → Reader ReadError α)
    (text : Bytes) : header kind noKind noNumber f (kind :: text) = (parseInt text).elim (fail (noNumber text)) (f text) := by
  have hcut : (cut (kind :: text) 1 (kind :: text).length : Reader ReadError Bytes) = pure text := by
    rw [← Int.natCast_one, cut_of_le (by simp) le_rfl, List.take_length, List.drop_one, List.tail_cons]
  have hhead : ¬(kind :: text).head? ≠ some kind := fun h => h rfl
  unfold header
  rw [if_neg hhead, hcut, pure_bind]
  cases parseInt text with
  | none => rfl
  | some n => rfl

theorem header_number {text : Bytes} {n : Int64} (hn : parseInt text = some n) :
    header kind noKind noNumber f (kind :: text) = f text n := by
  rw [header_text, hn, Option.elim_some]

theorem header_cases (kind : UInt8) (noKind noNumber : Bytes → ReadError) (f : Bytes → Int64 → Reader ReadError α)
    (line : Bytes) : (∃ e, header kind noKind noNumber f line = fail e) ∨
      ∃ text n, parseInt text = some n ∧ line = kind :: text := by
  by_cases hhead : line.head? = some kind
  · obtain ⟨text, rfl⟩ := List.head?_eq_some_iff.mp hhead
    cases hn : parseInt text with
    | none => exact Or.inl ⟨noNumber text, by rw [header_text, hn, Option.elim_none]⟩
    | some n => exact Or.inr ⟨text, n, hn, rfl⟩
  · exact Or.inl ⟨noKind line, if_pos hhead⟩

theorem reads_withHeader (hkind : kind ≠ 10 ∧ kind ≠ 13) {H : Int64 → Bytes → α → Prop}
    (hf : ∀ text n, Reads (f text n) (H n)) : Reads (withHeader last kind noKind noNumber f)
      (fun used x => ∃ head n rest, used = head ++ rest ∧ Header kind head n ∧ H n rest x) := by
  intro bs x rest
  unfold withHeader
  rw [bind_ok_iff]
  constructor
  · rintro ⟨line, mid, hread, hx⟩
    obtain ⟨head, rfl, hline⟩ := (reads_readLine _ _ _ _).mp hread
    rcases header_cases kind noKind noNumber f line with ⟨e, he⟩ | ⟨text, n, hn, rfl⟩
    · rw [he] at hx
      cases hx
    · rw [header_number hn] at hx
      obtain ⟨used, rfl, hH⟩ := (hf text n _ _ _).mp hx
      exact ⟨head ++ used, (List.append_assoc _ _ _).symm, head, n, used, rfl, (header_iff hkind).mpr ⟨text, hn, hline⟩, hH⟩
  · rintro ⟨_, rfl, head, n, used, rfl, hhead, hH⟩
    obtain ⟨text, hn, hline⟩ := (header_iff hkind).mp hhead
    refine ⟨kind :: text, used ++ rest, (reads_readLine _ _ _ _).mpr ⟨head, List.append_assoc _ _ _, hline⟩, ?_⟩
    rw [header_number hn]
    exact (hf text n _ _ _).mpr ⟨used, rfl, hH⟩

theorem panics_withHeader_iff (hkind : kind ≠ 10 ∧ kind ≠ 13) {k : Panic} {P : Int64 → Bytes → Prop}
    (hf : ∀ text n bs, Panics (f text n) k bs ↔ P n bs) (bs : Bytes) :
    Panics (withHeader last kind noKind noNumber f) k bs ↔ ∃ head n rest, bs = head ++ rest ∧ Header kind head n ∧ P n rest := by
  unfold withHeader
  rw [panics_bind_iff]
  constructor
  · rintro (h | ⟨line, mid, hread, hx⟩)
    · exact absurd h (not_panics_readLine _ _ _)
    · obtain ⟨head, rfl, hline⟩ := (reads_readLine _ _ _ _).mp hread
      rcases header_cases kind noKind noNumber f line with ⟨e, he⟩ | ⟨text, n, hn, rfl⟩
      · rw [he] at hx
        exact absurd hx (not_panics_fail _ _ _)
      · rw [header_number hn] at hx
        exact ⟨head, n, mid, rfl, (header_iff hkind).mpr ⟨text, hn, hline⟩, (hf text n mid).mp hx⟩
  · rintro ⟨head, n, rest, rfl, hhead, hP⟩
    obtain ⟨text, hn, hline⟩ := (header_iff hkind).mp hhead
    refine Or.inr ⟨kind :: text, rest, (reads_readLine _ _ _ _).mpr ⟨head, rfl, hline⟩, ?_⟩
    rw [header_number hn]
    exact (hf text n rest).mpr hP

end WithHeader

/-! ## Bulk strings -/

/-- A bulk string as it is read: its header, the number there, its body and what is read behind it. -/
structure Bulk where
  head : Bytes
  size : Int64
  body : Bytes
  tail : Bytes

def Bulk.wire (u : Bulk) : Bytes := u.head ++ (u.body ++ u.tail)

/-- What `readBulkString` accepts: a negative size has no body, and any two bytes follow another one. -/
def Bulk.Read (rt : Runtime) (u : Bulk) : Prop :=
  Header 36 u.head u.size ∧ (u.size.toInt < 0 ∧ u.body = [] ∧ u.tail = [] ∨
    u.size.toInt = u.body.length ∧ u.size.toInt + 2 ≤ rt.maxAlloc ∧ u.tail.length = 2)

/-- The length that `readBulkString` asks for wraps round exactly if it does not fit. -/
theorem makeSlice_fits (rt : Runtime) {n : Int64} (h : 0 ≤ n.toInt) :
    0 ≤ (n + 2).toInt ∧ (n + 2).toInt * (1 : Nat) ≤ rt.maxAlloc ↔ n.toInt + 2 ≤ rt.maxAlloc := by
  have hlt := rt.maxAlloc_lt
  have hn := n.toInt_lt
  have hadd : (n + 2).toInt = (n.toInt + 2).bmod (2 ^ 64) := Int64.toInt_add n 2
  rw [hadd]
  by_cases hwrap : n.toInt + 2 < 2 ^ 63
  · rw [Int.bmod_eq_of_le (by omega) (by omega)]
    omega
  · have hval : (n.toInt + 2).bmod (2 ^ 64) = n.toInt + 2 - 2 ^ 64 := by
      rw [← Int.sub_bmod_right, Int.bmod_eq_of_le (by omega) (by omega)]
      rfl
    rw [hval]
    omega

theorem toInt_add_two {rt : Runtime} {n : Int64} (h : 0 ≤ n.toInt) (hfit : n.toInt + 2 ≤ rt.maxAlloc) :
    (n + 2).toInt = n.toInt + 2 := by
  have hlt := rt.maxAlloc_lt
  have hadd : (n + 2).toInt = (n.toInt + 2).bmod (2 ^ 64) := Int64.toInt_add n 2
  rw [hadd, Int.bmod_eq_of_le (by omega) (by omega)]

/-- The body of a bulk string with the size `n`. -/
def readBody (rt : Runtime) (last : IoError) (n : Int64) : Reader ReadError Bytes := do
  makeSlice rt 1 (n + 2)
  let buf ← readFull (shortRead last) (n + 2).toInt.toNat
  cut buf 0 n.toInt

theorem reads_readBody (rt : Runtime) (last : IoError) {n : Int64} (h : 0 ≤ n.toInt) :
    Reads (readBody rt last n) (fun used b => n.toInt + 2 ≤ rt.maxAlloc ∧ n.toInt = b.length ∧
      ∃ tail, tail.length = 2 ∧ used = b ++ tail) := by
  intro bs b rest
  unfold readBody
  rw [bind_ok_iff]
  constructor
  · rintro ⟨⟨⟩, mid, hmake, hread⟩
    obtain ⟨_, rfl, rfl, hfit⟩ := (reads_makeSlice _ _ _ _ _ _).mp hmake
    have hfit := (makeSlice_fits rt h).mp hfit
    obtain ⟨buf, mid, hfull, hcut⟩ := bind_ok_iff.mp hread
    obtain ⟨used, rfl, rfl, hlen⟩ := (reads_readFull _ _ _ _ _).mp hfull
    rw [toInt_add_two h hfit] at hlen
    have hnat : n.toInt = (n.toInt.toNat : Int) := by omega
    rw [hnat, ← Int.natCast_zero, cut_of_le (Nat.zero_le _) (by omega)] at hcut
    cases hcut
    refine ⟨buf, rfl, hfit, ?_, buf.drop n.toInt.toNat, ?_, ?_⟩
    · rw [List.drop_zero, List.length_take]
      omega
    · rw [List.length_drop]
      omega
    · rw [List.drop_zero, List.take_append_drop]
  · rintro ⟨_, rfl, hfit, hlen, tail, htail, rfl⟩
    refine ⟨(), _, (reads_makeSlice _ _ _ _ _ _).mpr ⟨[], rfl, rfl, (makeSlice_fits rt h).mpr hfit⟩, ?_⟩
    refine bind_ok_iff.mpr ⟨b ++ tail, rest, (reads_readFull _ _ _ _ _).mpr ⟨_, rfl, rfl, ?_⟩, ?_⟩
    · rw [toInt_add_two h hfit, List.length_append]
      omega
    · rw [hlen, ← Int.natCast_zero, cut_of_le (Nat.zero_le _) (by simp), List.take_left, List.drop_zero]
      rfl

theorem panics_readBody_iff (rt : Runtime) (last : IoError) {n : Int64} (h : 0 ≤ n.toInt) (k : Panic) (bs : Bytes) :
    Panics (readBody rt last n) k bs ↔ k = .makeslice ∧ rt.maxAlloc < n.toInt + 2 := by
  unfold readBody
  rw [panics_bind_iff, panics_makeSlice_iff, makeSlice_fits rt h, Int.not_le]
  constructor
  · rintro (hmake | ⟨⟨⟩, mid, hmake, hrest⟩)
    · exact hmake
    · obtain ⟨_, rfl, rfl, hfit⟩ := (reads_makeSlice _ _ _ _ _ _).mp hmake
      have hfit := (makeSlice_fits rt h).mp hfit
      rcases panics_bind_iff.mp hrest with hfull | ⟨buf, mid', hfull, hcut⟩
      · exact absurd hfull (not_panics_readFull _ _ _ _)
      · -- the buffer is two bytes longer than the slice of it
        obtain ⟨used, rfl, rfl, hlen⟩ := (reads_readFull _ _ _ _ _).mp hfull
        rw [toInt_add_two h hfit] at hlen
        have hnat : n.toInt = (n.toInt.toNat : Int) := by omega
        rw [hnat, ← Int.natCast_zero, cut_of_le (Nat.zero_le _) (by omega)] at hcut
        exact absurd hcut (not_panics_pure _ _ _)
  · exact Or.inl

/-- `readBulkString` behind its header. -/
def readBulkRest (rt : Runtime) (last : IoError) (_ : Bytes) (n : Int64) : Reader ReadError Bytes :=
  if n < 0 then pure [] else readBody rt last n

theorem readBulkString_eq (rt : Runtime) (last : IoError) :
    readBulkString rt last = withHeader last 36 .expectedBulkString .bulkLength (readBulkRest rt last) := rfl

theorem reads_readBulkRest (rt : Runtime) (last : IoError) (text : Bytes) (n : Int64) :
    Reads (readBulkRest rt last text n) (fun used b => n.toInt < 0 ∧ b = [] ∧ used = [] ∨
      n.toInt = b.length ∧ n.toInt + 2 ≤ rt.maxAlloc ∧ ∃ tail, tail.length = 2 ∧ used = b ++ tail) := by
  unfold readBulkRest
  by_cases hn : n < 0
  · have hneg : n.toInt < 0 := Int64.lt_iff_toInt_lt.mp hn
    rw [if_pos hn]
    refine (reads_pure []).congr fun used b => ?_
    constructor
    · rintro ⟨rfl, rfl⟩
      exact Or.inl ⟨hneg, rfl, rfl⟩
    · rintro (⟨-, rfl, rfl⟩ | ⟨h, -⟩)
      · exact ⟨rfl, rfl⟩
      · omega
  · have hpos : 0 ≤ n.toInt := Int.not_lt.mp fun h => hn (Int64.lt_iff_toInt_lt.mpr h)
    rw [if_neg hn]
    refine (reads_readBody rt last hpos).congr fun used b => ?_
    constructor
    · rintro ⟨hfit, hlen, htail⟩
      exact Or.inr ⟨hlen, hfit, htail⟩
    · rintro (⟨h, -⟩ | ⟨hlen, hfit, htail⟩)
      · omega
      · exact ⟨hfit, hlen, htail⟩

/-- **What `readBulkString` accepts.** -/
theorem reads_readBulkString (rt : Runtime) (last : IoError) :
    Reads (readBulkString rt last) (fun used b => ∃ u : Bulk, u.Read rt ∧ u.wire = used ∧ u.body = b) := by
  rw [readBulkString_eq]
  refine (reads_withHeader (by decide) (reads_readBulkRest rt last)).congr fun used b => ?_
  constructor
  · rintro ⟨head, n, rest, rfl, hhead, ⟨hneg, rfl, rfl⟩ | ⟨hlen, hfit, tail, htail, rfl⟩⟩
    · exact ⟨⟨head, n, [], []⟩, ⟨hhead, Or.inl ⟨hneg, rfl, rfl⟩⟩, rfl, rfl⟩
    · exact ⟨⟨head, n, b, tail⟩, ⟨hhead, Or.inr ⟨hlen, hfit, htail⟩⟩, rfl, rfl⟩
  · rintro ⟨⟨head, n, body, tail⟩, ⟨hhead, ⟨hneg, rfl, rfl⟩ | ⟨hlen, hfit, htail⟩⟩, rfl, rfl⟩
    · exact ⟨head, n, [], rfl, hhead, Or.inl ⟨hneg, rfl, rfl⟩⟩
    · exact ⟨head, n, body ++ tail, rfl, hhead, Or.inr ⟨hlen, hfit, tail, htail, rfl⟩⟩

/-- The stream goes on with a bulk string that is longer than a slice can be. -/
def LongBulk (rt : Runtime) (bs : Bytes) : Prop :=
  ∃ head n rest, bs = head ++ rest ∧ Header 36 head n ∧ 0 ≤ n.toInt ∧ rt.maxAlloc < n.toInt + 2

theorem panics_readBulkString_iff (rt : Runtime) (last : IoError) (k : Panic) (bs : Bytes) :
    Panics (readBulkString rt last) k bs ↔ k = .makeslice ∧ LongBulk rt bs := by
  have hrest (text : Bytes) (n : Int64) (bs : Bytes) : Panics (readBulkRest rt last text n) k bs ↔
      k = .makeslice ∧ 0 ≤ n.toInt ∧ rt.maxAlloc < n.toInt + 2 := by
    unfold readBulkRest
    by_cases hn : n < 0
    · have hneg : n.toInt < 0 := Int64.lt_iff_toInt_lt.mp hn
      rw [if_pos hn]
      exact ⟨fun h => absurd h (not_panics_pure _ _ _), fun h => absurd h.2.1 (Int.not_le.mpr hneg)⟩
    · have hpos : 0 ≤ n.toInt := Int.not_lt.mp fun h => hn (Int64.lt_iff_toInt_lt.mpr h)
      rw [if_neg hn, panics_readBody_iff rt last hpos]
      exact and_congr_right fun _ => (and_iff_right hpos).symm
  rw [readBulkString_eq, panics_withHeader_iff (by decide) hrest]
  constructor
  · rintro ⟨head, n, rest, hbs, hhead, hk, hlong⟩
    exact ⟨hk, head, n, rest, hbs, hhead, hlong⟩
  · rintro ⟨hk, head, n, rest, hbs, hhead, hlong⟩
    exact ⟨head, n, rest, hbs, hhead, hk, hlong⟩

/-! ## Requests -/

/-- **What the loop accepts.** -/
theorem reads_readParts (rt : Runtime) (last : IoError) (n : Nat) : Reads (readParts rt last n) (fun used parts =>
    ∃ us : List Bulk, us.length = n ∧ (∀ u ∈ us, u.Read rt) ∧ us.flatMap Bulk.wire = used ∧ us.map Bulk.body = parts) := by
  induction n with
  | zero =>
      refine (reads_pure []).congr fun used parts => ?_
      constructor
      · rintro ⟨rfl, rfl⟩
        exact ⟨[], rfl, List.forall_mem_nil _, rfl, rfl⟩
      · rintro ⟨us, hlen, -, rfl, rfl⟩
        rw [List.length_eq_zero_iff.mp hlen]
        exact ⟨rfl, rfl⟩
  | succ n ih =>
      refine ((reads_readBulkString rt last).bind fun b => ih.bind fun parts => reads_pure (b :: parts)).congr fun used parts => ?_
      constructor
      · rintro ⟨_, _, _, rfl, ⟨u, hu, rfl, rfl⟩, _, _, _, rfl, ⟨us, hlen, hus, rfl, rfl⟩, rfl, rfl⟩
        refine ⟨u :: us, congrArg Nat.succ hlen, List.forall_mem_cons.mpr ⟨hu, hus⟩, ?_, rfl⟩
        rw [List.flatMap_cons, List.append_nil]
      · rintro ⟨us, hlen, hus, rfl, rfl⟩
        cases us with
        | nil => cases hlen
        | cons u us =>
            obtain ⟨hu, hus⟩ := List.forall_mem_cons.mp hus
            refine ⟨u.body, u.wire, us.flatMap Bulk.wire, List.flatMap_cons, ⟨u, hu, rfl, rfl⟩, us.map Bulk.body, _, [],
              (List.append_nil _).symm, ⟨us, Nat.succ.inj hlen, hus, rfl, rfl⟩, rfl, rfl⟩

theorem panics_readParts_iff (rt : Runtime) (last : IoError) (n : Nat) (k : Panic) (bs : Bytes) :
    Panics (readParts rt last n) k bs ↔ k = .makeslice ∧ ∃ us : List Bulk, us.length < n ∧ (∀ u ∈ us, u.Read rt) ∧
      ∃ rest, bs = us.flatMap Bulk.wire ++ rest ∧ LongBulk rt rest := by
  induction n generalizing bs with
  | zero =>
      constructor
      · intro h
        exact absurd h (not_panics_pure _ _ _)
      · rintro ⟨-, us, hlen, -⟩
        exact absurd hlen (Nat.not_lt_zero _)
  | succ n ih =>
      rw [readParts, panics_bind_iff, panics_readBulkString_iff]
      constructor
      · rintro (⟨hk, hlong⟩ | ⟨b, mid, hb, h⟩)
        · exact ⟨hk, [], Nat.succ_pos n, List.forall_mem_nil _, bs, rfl, hlong⟩
        · obtain ⟨used, rfl, u, hu, rfl, rfl⟩ := (reads_readBulkString rt last _ _ _).mp hb
          rcases panics_bind_iff.mp h with h | ⟨parts, mid', -, h⟩
          · obtain ⟨hk, us, hlen, hus, rest, rfl, hlong⟩ := (ih mid).mp h
            refine ⟨hk, u :: us, Nat.succ_lt_succ hlen, List.forall_mem_cons.mpr ⟨hu, hus⟩, rest, ?_, hlong⟩
            rw [List.flatMap_cons, List.append_assoc]
          · exact absurd h (not_panics_pure _ _ _)
      · rintro ⟨hk, us, hlen, hus, rest, rfl, hlong⟩
        cases us with
        | nil => exact Or.inl ⟨hk, hlong⟩
        | cons u us =>
            obtain ⟨hu, hus⟩ := List.forall_mem_cons.mp hus
            refine Or.inr ⟨u.body, us.flatMap Bulk.wire ++ rest, (reads_readBulkString rt last _ _ _).mpr ⟨u.wire, ?_, u, hu,
              rfl, rfl⟩, panics_bind_iff.mpr (Or.inl ((ih _).mpr ⟨hk, us, Nat.lt_of_succ_lt_succ hlen, hus, rest, rfl, hlong⟩))⟩
            rw [List.flatMap_cons, List.append_assoc]

/-- `ReadCommand` behind its header. -/
def readCommandRest (rt : Runtime) (last : IoError) (text : Bytes) (n : Int64) : Reader ReadError Command :=
  if n < 1 then fail (.arrayLength text)
  else do
    makeSlice rt sliceHeaderSize n
    let parts ← readParts rt last n.toInt.toNat
    let name ← index parts 0
    let args ← cut parts 1 parts.length
    pure ⟨name, args⟩

theorem readCommand_eq (rt : Runtime) (last : IoError) :
    readCommand rt last = withHeader last 42 .expectedArray .arrayLength (readCommandRest rt last) := rfl

/-- The parts of a command are never empty, so its name can be taken. -/
theorem command_of_parts (name : Bytes) (args : List Bytes) : (do
      let n ← index (name :: args) 0
      let a ← cut (name :: args) 1 (name :: args).length
      pure ⟨n, a⟩ : Reader ReadError Command) = pure ⟨name, args⟩ := by
  have hindex : (index (name :: args) 0 : Reader ReadError Bytes) = pure name := rfl
  rw [hindex, pure_bind, ← Int.natCast_one, cut_of_le (by simp) le_rfl, pure_bind, List.take_length, List.drop_one,
    List.tail_cons]

/-- The requests that `ReadCommand` accepts: a header and as many bulk strings as it says. -/
structure Accepted (rt : Runtime) (head : Bytes) (us : List Bulk) : Prop where
  header : ∃ n, Header 42 head n ∧ n.toInt = us.length
  nonempty : us ≠ []
  fits : sliceHeaderSize * us.length ≤ rt.maxAlloc
  bulks : ∀ u ∈ us, u.Read rt

theorem reads_readCommandRest (rt : Runtime) (last : IoError) (text : Bytes) (n : Int64) :
    Reads (readCommandRest rt last text n) (fun used cmd => ∃ us : List Bulk, n.toInt = us.length ∧ us ≠ [] ∧
      sliceHeaderSize * us.length ≤ rt.maxAlloc ∧ (∀ u ∈ us, u.Read rt) ∧ us.flatMap Bulk.wire = used ∧
      us.map Bulk.body = cmd.name :: cmd.args) := by
  unfold readCommandRest
  by_cases hn : n < 1
  · have hlow : n.toInt < 1 := Int64.lt_iff_toInt_lt.mp hn
    rw [if_pos hn]
    refine (reads_fail _).congr fun used cmd => ⟨False.elim, ?_⟩
    rintro ⟨us, hlen, hne, -⟩
    have := List.length_pos_iff.mpr hne
    omega
  · have hlow : 1 ≤ n.toInt := Int.not_lt.mp fun h => hn (Int64.lt_iff_toInt_lt.mpr h)
    rw [if_neg hn]
    intro bs cmd rest
    rw [bind_ok_iff]
    constructor
    · rintro ⟨⟨⟩, mid, hmake, h⟩
      obtain ⟨_, rfl, rfl, -, hfit⟩ := (reads_makeSlice _ _ _ _ _ _).mp hmake
      obtain ⟨parts, mid, hparts, h⟩ := bind_ok_iff.mp h
      obtain ⟨used, rfl, us, hlen, hus, rfl, rfl⟩ := (reads_readParts _ _ _ _ _ _).mp hparts
      cases us with
      | nil =>
          rw [List.length_nil] at hlen
          omega
      | cons u us =>
          rw [List.map_cons, command_of_parts] at h
          cases h
          refine ⟨_, rfl, u :: us, by omega, List.cons_ne_nil _ _, ?_, hus, rfl, rfl⟩
          rw [hlen, mul_comm]
          have hnat : n.toInt = (n.toInt.toNat : Int) := by omega
          rw [hnat] at hfit
          exact_mod_cast hfit
    · rintro ⟨_, rfl, us, hlen, hne, hfit, hus, rfl, hmap⟩
      refine ⟨(), _, (reads_makeSlice _ _ _ _ _ _).mpr ⟨[], rfl, rfl, by omega, ?_⟩, ?_⟩
      · rw [hlen, mul_comm]
        exact_mod_cast hfit
      · refine bind_ok_iff.mpr ⟨us.map Bulk.body, rest, (reads_readParts _ _ _ _ _ _).mpr ⟨_, rfl, us, by omega, hus, rfl, rfl⟩, ?_⟩
        rw [hmap, command_of_parts]
        rfl

/-- **What `ReadCommand` accepts.** -/
theorem reads_readCommand (rt : Runtime) (last : IoError) : Reads (readCommand rt last) (fun used cmd =>
    ∃ head us, Accepted rt head us ∧ head ++ us.flatMap Bulk.wire = used ∧ us.map Bulk.body = cmd.name :: cmd.args) := by
  rw [readCommand_eq]
  refine (reads_withHeader (by decide) (reads_readCommandRest rt last)).congr fun used cmd => ?_
  constructor
  · rintro ⟨head, n, rest, rfl, hhead, us, hlen, hne, hfit, hus, rfl, hmap⟩
    exact ⟨head, us, ⟨⟨n, hhead, hlen⟩, hne, hfit, hus⟩, rfl, hmap⟩
  · rintro ⟨head, us, ⟨⟨n, hhead, hlen⟩, hne, hfit, hus⟩, rfl, hmap⟩
    exact ⟨head, n, _, rfl, hhead, us, hlen, hne, hfit, hus, rfl, hmap⟩

/-! ## Panics -/

/-- The stream asks for a slice that cannot be made: for an array with too many parts, or for a bulk string that is too long
behind parts that are read. -/
def Oversized (rt : Runtime) (bs : Bytes) : Prop :=
  ∃ head n rest, bs = head ++ rest ∧ Header 42 head n ∧ 1 ≤ n.toInt ∧ (rt.maxAlloc < sliceHeaderSize * n.toInt ∨
    ∃ us : List Bulk, us.length < n.toInt ∧ (∀ u ∈ us, u.Read rt) ∧
      ∃ more, rest = us.flatMap Bulk.wire ++ more ∧ LongBulk rt more)

theorem panics_readCommandRest_iff (rt : Runtime) (last : IoError) (k : Panic) (text : Bytes) (n : Int64) (bs : Bytes) :
    Panics (readCommandRest rt last text n) k bs ↔ k = .makeslice ∧ 1 ≤ n.toInt ∧
      (rt.maxAlloc < sliceHeaderSize * n.toInt ∨ ∃ us : List Bulk, us.length < n.toInt ∧ (∀ u ∈ us, u.Read rt) ∧
        ∃ more, bs = us.flatMap Bulk.wire ++ more ∧ LongBulk rt more) := by
  unfold readCommandRest
  by_cases hn : n < 1
  · have hlow : n.toInt < 1 := Int64.lt_iff_toInt_lt.mp hn
    rw [if_pos hn]
    exact ⟨fun h => absurd h (not_panics_fail _ _ _), fun h => absurd h.2.1 (Int.not_le.mpr hlow)⟩
  have hlow : 1 ≤ n.toInt := Int.not_lt.mp fun h => hn (Int64.lt_iff_toInt_lt.mpr h)
  have hmake : (0 ≤ n.toInt ∧ n.toInt * sliceHeaderSize ≤ rt.maxAlloc) ↔ sliceHeaderSize * n.toInt ≤ rt.maxAlloc := by
    rw [mul_comm]
    exact and_iff_right (by omega)
  rw [if_neg hn, panics_bind_iff, panics_makeSlice_iff, hmake, Int.not_le]
  constructor
  · rintro (⟨hk, hlong⟩ | ⟨⟨⟩, mid, hmade, h⟩)
    · exact ⟨hk, hlow, Or.inl hlong⟩
    · obtain ⟨_, rfl, rfl, -⟩ := (reads_makeSlice _ _ _ _ _ _).mp hmade
      rcases panics_bind_iff.mp h with h | ⟨parts, mid', hparts, h⟩
      · obtain ⟨hk, us, hlen, hus⟩ := (panics_readParts_iff _ _ _ _ _).mp h
        exact ⟨hk, hlow, Or.inr ⟨us, by omega, hus⟩⟩
      · -- there is a first part
        obtain ⟨used, rfl, us, hlen, hus, rfl, rfl⟩ := (reads_readParts _ _ _ _ _ _).mp hparts
        cases us with
        | nil =>
            rw [List.length_nil] at hlen
            omega
        | cons u us =>
            rw [List.map_cons, command_of_parts] at h
            exact absurd h (not_panics_pure _ _ _)
  · rintro ⟨hk, -, hlong | ⟨us, hlen, hus⟩⟩
    · exact Or.inl ⟨hk, hlong⟩
    · by_cases hfit : sliceHeaderSize * n.toInt ≤ rt.maxAlloc
      · refine Or.inr ⟨(), bs, (reads_makeSlice _ _ _ _ _ _).mpr ⟨[], rfl, rfl, hmake.mpr hfit⟩, ?_⟩
        exact panics_bind_iff.mpr (Or.inl ((panics_readParts_iff _ _ _ _ _).mpr ⟨hk, us, by omega, hus⟩))
      · exact Or.inl ⟨hk, Int.not_le.mp hfit⟩

/-- Every panic is one of `make`, never one of a slice or of an index. -/
theorem panics_readCommand_iff (rt : Runtime) (last : IoError) (k : Panic) (bs : Bytes) :
    Panics (readCommand rt last) k bs ↔ k = .makeslice ∧ Oversized rt bs := by
  rw [readCommand_eq, panics_withHeader_iff (by decide) (panics_readCommandRest_iff rt last k)]
  constructor
  · rintro ⟨head, n, rest, hbs, hhead, hk, h⟩
    exact ⟨hk, head, n, rest, hbs, hhead, h⟩
  · rintro ⟨hk, head, n, rest, hbs, hhead, h⟩
    exact ⟨head, n, rest, hbs, hhead, hk, h⟩

/-- **No panic but of `make`.** On every stream `ReadCommand` returns a command or an error, unless the stream asks for an
array or a bulk string beyond what a slice can have; then it panics in `make`. -/
theorem readCommand_returns_iff (rt : Runtime) (last : IoError) (bs : Bytes) :
    ((∃ cmd rest, readCommand rt last bs = .ok (cmd, rest)) ∨ ∃ e, readCommand rt last bs = .error (.error e)) ↔
      ¬Oversized rt bs := by
  have hpanic := panics_readCommand_iff rt last .makeslice bs
  constructor
  · intro h hover
    have hcrash : readCommand rt last bs = .error (.panic .makeslice) := hpanic.mpr ⟨rfl, hover⟩
    rw [hcrash] at h
    rcases h with ⟨cmd, rest, h⟩ | ⟨e, h⟩
    · cases h
    · cases h
  · intro hover
    cases h : readCommand rt last bs with
    | ok p => exact Or.inl ⟨p.1, p.2, rfl⟩
    | error halt =>
        cases halt with
        | error e => exact Or.inr ⟨e, rfl⟩
        | panic k => exact absurd ((panics_readCommand_iff rt last k bs).mp h).2 hover

/-- A bulk string of `2 ^ 63 - 1` bytes: the length `n + 2` wraps round to a negative one, and `make` panics in every
process. -/
theorem readCommand_wraps : ((9223372036854775807 : Int64) + 2).toInt = -9223372036854775807 ∧
    ∀ (rt : Runtime) (last : IoError),
      readCommand rt last (utf8 "*1\r\n$9223372036854775807\r\n") = .error (.panic .makeslice) := by
  refine ⟨by decide, fun rt last => ?_⟩
  have hlt := rt.maxAlloc_lt
  refine (panics_readCommand_iff rt last .makeslice _).mpr ⟨rfl, utf8 "*1\r\n", 1, utf8 "$9223372036854775807\r\n", ?_, ?_,
    by decide, Or.inr ⟨[], by decide, List.forall_mem_nil _, _, rfl, utf8 "$9223372036854775807\r\n",
      9223372036854775807, [], ?_, ?_, by decide, ?_⟩⟩
  · decide +kernel
  · exact ⟨utf8 "1", by decide +kernel, Or.inl (by decide +kernel)⟩
  · exact (List.append_nil _).symm
  · exact ⟨utf8 "9223372036854775807", by decide +kernel, Or.inl (by decide +kernel)⟩
  · have hval : (9223372036854775807 : Int64).toInt = 9223372036854775807 := by decide
    rw [hval]
    omega

end Uddp.Resp

import Uddp.Lib.Bytes

/-!
# Programs that read a byte stream

A reader takes bytes from the front of a stream until it returns, reports an error or panics.

* `Reader ε α` : such a program; `readBytes`, `readFull` : the reads of `bufio.Reader` and `io.ReadFull`;
* `makeSlice`, `cut`, `index` : what panics in Go, a `make`, a slice and an index out of range;
* `Reads p G` : `p` returns `x` exactly if it has read bytes that `G` has for `x`; `Reads.bind` and the rules around it;
* `Panics` : where a reader panics, with the same rules.
-/

namespace Uddp.Lib

inductive Panic
  | makeslice
  | bounds
  | index
  deriving DecidableEq, Repr

inductive Halt (ε : Type)
  | error (e : ε)
  | panic (p : Panic)
  deriving DecidableEq, Repr

/-- The state is what has not been read yet. -/
abbrev Reader (ε : Type) := StateT Bytes (Except (Halt ε))

/-- How many bytes one object can have. It is `2 ^ 48` on amd64 and less than an `int` on every platform. -/
structure Runtime where
  maxAlloc : Nat
  maxAlloc_lt : maxAlloc < 2 ^ 63

namespace Reader
variable {ε α β γ : Type}

def fail (e : ε) : Reader ε α := fun _ => .error (.error e)

def crash (p : Panic) : Reader ε α := fun _ => .error (.panic p)

/-! ## The reads -/

/-- The bytes up to the first `delim`, which is the last of them. -/
def splitAfter (delim : UInt8) : Bytes → Option (Bytes × Bytes)
  | [] => none
  | b :: bs => if b = delim then some ([b], bs) else (splitAfter delim bs).map (fun p => (b :: p.1, p.2))

/-- `bufio.Reader.ReadBytes` on a stream behind which reads report `last`. -/
def readBytes (last : ε) (delim : UInt8) : Reader ε Bytes := fun bs =>
  match splitAfter delim bs with
  | none => .error (.error last)
  | some p => .ok p

/-- `io.ReadFull` with a buffer of `n` bytes; `short bs` is the error if the stream has only `bs`. -/
def readFull (short : Bytes → ε) (n : Nat) : Reader ε Bytes := fun bs =>
  if n ≤ bs.length then .ok (bs.take n, bs.drop n) else .error (.error (short bs))

/-! ## What panics -/

/-- `make` of a slice of `n` elements of `size` bytes. -/
def makeSlice (rt : Runtime) (size : Nat) (n : Int64) : Reader ε Unit :=
  if 0 ≤ n.toInt ∧ n.toInt * size ≤ rt.maxAlloc then pure () else crash .makeslice

/-- `p[i:j]`. -/
def cut (p : List α) (i j : Int) : Reader ε (List α) :=
  if 0 ≤ i ∧ i ≤ j ∧ j ≤ p.length then pure ((p.take j.toNat).drop i.toNat) else crash .bounds

/-- `p[i]`. -/
def index (p : List α) (i : Nat) : Reader ε α :=
  match p[i]? with
  | none => crash .index
  | some x => pure x

/-! ## Grammars -/

/-- The reader returns `x` exactly if the bytes that it has taken are in the grammar `G` for `x`. -/
def Reads (p : Reader ε α) (G : Bytes → α → Prop) : Prop :=
  ∀ bs x rest, p bs = .ok (x, rest) ↔ ∃ used, bs = used ++ rest ∧ G used x

theorem bind_ok_iff {p : Reader ε α} {f : α → Reader ε β} {bs rest : Bytes} {y : β} :
    (p >>= f) bs = .ok (y, rest) ↔ ∃ x mid, p bs = .ok (x, mid) ∧ f x mid = .ok (y, rest) := by
  show Except.bind (p bs) (fun q => f q.1 q.2) = _ ↔ _
  cases hp : p bs with
  | error e =>
      constructor
      · intro h
        cases h
      · rintro ⟨x, mid, h, -⟩
        cases h
  | ok q =>
      constructor
      · intro h
        exact ⟨q.1, q.2, rfl, h⟩
      · rintro ⟨x, mid, h, hf⟩
        cases h
        exact hf

/-- **One reader after the other.** -/
theorem Reads.bind {p : Reader ε α} {G : Bytes → α → Prop} {f : α → Reader ε β} {H : α → Bytes → β → Prop}
    (hp : Reads p G) (hf : ∀ x, Reads (f x) (H x)) :
    Reads (p >>= f) (fun used y => ∃ x u v, used = u ++ v ∧ G u x ∧ H x v y) := by
  intro bs y rest
  rw [bind_ok_iff]
  constructor
  · rintro ⟨x, mid, hx, hy⟩
    obtain ⟨u, rfl, hG⟩ := (hp bs x mid).mp hx
    obtain ⟨v, rfl, hH⟩ := (hf x mid y rest).mp hy
    exact ⟨u ++ v, (List.append_assoc u v rest).symm, x, u, v, rfl, hG, hH⟩
  · rintro ⟨_, rfl, x, u, v, rfl, hG, hH⟩
    exact ⟨x, v ++ rest, (hp _ x _).mpr ⟨u, List.append_assoc u v rest, hG⟩, (hf x _ y rest).mpr ⟨v, rfl, hH⟩⟩

theorem Reads.congr {p : Reader ε α} {G H : Bytes → α → Prop} (hp : Reads p G) (h : ∀ used x, G used x ↔ H used x) :
    Reads p H := by
  intro bs x rest
  rw [hp bs x rest]
  exact exists_congr fun used => and_congr_right fun _ => h used x

theorem reads_pure (x : α) : Reads (pure x : Reader ε α) (fun used y => used = [] ∧ y = x) := by
  intro bs y rest
  show Except.ok (x, bs) = Except.ok (y, rest) ↔ _
  constructor
  · intro h
    cases h
    exact ⟨[], rfl, rfl, rfl⟩
  · rintro ⟨_, rfl, rfl, rfl⟩
    rfl

theorem reads_fail (e : ε) : Reads (fail e : Reader ε α) (fun _ _ => False) := by
  intro bs x rest
  constructor
  · intro h
    cases h
  · rintro ⟨_, -, h⟩
    exact h.elim

theorem reads_crash (p : Panic) : Reads (crash p : Reader ε α) (fun _ _ => False) := by
  intro bs x rest
  constructor
  · intro h
    cases h
  · rintro ⟨_, -, h⟩
    exact h.elim

theorem Reads.ite {c : Prop} [Decidable c] {p q : Reader ε α} {G H : Bytes → α → Prop} (hp : Reads p G) (hq : Reads q H) :
    Reads (if c then p else q) (fun used x => if c then G used x else H used x) := by
  by_cases hc : c
  · simpa only [if_pos hc] using hp
  · simpa only [if_neg hc] using hq

/-- A grammar that some reader reads has one way to read the front of a stream. -/
theorem Reads.unique {p : Reader ε α} {G : Bytes → α → Prop} (hp : Reads p G) {u v r s : Bytes} {x y : α} (hu : G u x)
    (hv : G v y) (h : u ++ r = v ++ s) : u = v ∧ x = y ∧ r = s := by
  have hx := (hp (u ++ r) x r).mpr ⟨u, rfl, hu⟩
  have hy := (hp (u ++ r) y s).mpr ⟨v, h, hv⟩
  rw [hx] at hy
  cases hy
  exact ⟨List.append_cancel_right h, rfl, rfl⟩

theorem splitAfter_iff {delim : UInt8} {bs line rest : Bytes} :
    splitAfter delim bs = some (line, rest) ↔ ∃ l, delim ∉ l ∧ line = l ++ [delim] ∧ bs = line ++ rest := by
  induction bs generalizing line with
  | nil =>
      constructor
      · intro h
        cases h
      · rintro ⟨l, -, rfl, h⟩
        exact absurd h (by simp)
  | cons b bs ih =>
      rw [splitAfter]
      by_cases hb : b = delim
      · rw [if_pos hb, hb]
        constructor
        · intro h
          cases h
          exact ⟨[], List.not_mem_nil, rfl, rfl⟩
        · rintro ⟨l, hl, rfl, h⟩
          -- the delimiter is at the front, so nothing stands before it
          cases l with
          | nil =>
              cases h
              rfl
          | cons x l =>
              cases h
              exact absurd List.mem_cons_self hl
      · rw [if_neg hb, Option.map_eq_some_iff]
        constructor
        · rintro ⟨⟨line', rest'⟩, hline, h⟩
          cases h
          obtain ⟨l, hl, rfl, rfl⟩ := ih.mp hline
          exact ⟨b :: l, by simp [Ne.symm hb, hl], rfl, rfl⟩
        · rintro ⟨l, hl, rfl, h⟩
          cases l with
          | nil =>
              cases h
              exact absurd rfl hb
          | cons x l =>
              cases h
              exact ⟨(l ++ [delim], rest), ih.mpr ⟨l, fun hmem => hl (List.mem_cons_of_mem b hmem), rfl, rfl⟩, rfl⟩

theorem reads_readBytes (last : ε) (delim : UInt8) :
    Reads (readBytes last delim) (fun used line => line = used ∧ ∃ l, delim ∉ l ∧ used = l ++ [delim]) := by
  intro bs line rest
  have hiff : readBytes last delim bs = .ok (line, rest) ↔ splitAfter delim bs = some (line, rest) := by
    unfold readBytes
    cases splitAfter delim bs with
    | none =>
        constructor
        · intro h
          cases h
        · intro h
          cases h
    | some p => exact ⟨fun h => congrArg some (Except.ok.inj h), fun h => congrArg Except.ok (Option.some.inj h)⟩
  rw [hiff, splitAfter_iff]
  constructor
  · rintro ⟨l, hl, hline, hbs⟩
    exact ⟨line, hbs, rfl, l, hl, hline⟩
  · rintro ⟨_, hbs, rfl, l, hl, hline⟩
    exact ⟨l, hl, hline, hbs⟩

theorem reads_readFull (short : Bytes → ε) (n : Nat) :
    Reads (readFull short n) (fun used buf => buf = used ∧ used.length = n) := by
  intro bs buf rest
  unfold readFull
  by_cases hn : n ≤ bs.length
  · rw [if_pos hn]
    constructor
    · intro h
      cases h
      exact ⟨bs.take n, (List.take_append_drop n bs).symm, rfl, List.length_take_of_le hn⟩
    · rintro ⟨used, rfl, rfl, rfl⟩
      rw [List.take_left, List.drop_left]
  · rw [if_neg hn]
    constructor
    · intro h
      cases h
    · rintro ⟨used, rfl, rfl, rfl⟩
      exact absurd (by rw [List.length_append]; exact Nat.le_add_right _ _) hn

theorem reads_makeSlice (rt : Runtime) (size : Nat) (n : Int64) : Reads (makeSlice rt size n : Reader ε Unit)
    (fun used _ => used = [] ∧ 0 ≤ n.toInt ∧ n.toInt * size ≤ rt.maxAlloc) := by
  refine ((reads_pure ()).ite (reads_crash .makeslice)).congr fun used _ => ?_
  by_cases hc : 0 ≤ n.toInt ∧ n.toInt * size ≤ rt.maxAlloc
  · simp [hc]
  · rw [if_neg hc]
    exact ⟨False.elim, fun h => hc h.2⟩

theorem cut_of_le {p : List α} {i j : Nat} (hi : i ≤ j) (hj : j ≤ p.length) :
    (cut p i j : Reader ε (List α)) = pure ((p.take j).drop i) :=
  if_pos ⟨Int.natCast_nonneg i, Int.ofNat_le.mpr hi, Int.ofNat_le.mpr hj⟩

/-! ## Panics -/

def Panics (p : Reader ε α) (k : Panic) (bs : Bytes) : Prop := p bs = .error (.panic k)

theorem panics_bind_iff {p : Reader ε α} {f : α → Reader ε β} {k : Panic} {bs : Bytes} :
    Panics (p >>= f) k bs ↔ Panics p k bs ∨ ∃ x mid, p bs = .ok (x, mid) ∧ Panics (f x) k mid := by
  unfold Panics
  show Except.bind (p bs) (fun q => f q.1 q.2) = _ ↔ _
  cases hp : p bs with
  | error e =>
      constructor
      · intro h
        obtain rfl : e = .panic k := Except.error.inj h
        exact Or.inl rfl
      · rintro (h | ⟨x, mid, h, -⟩)
        · obtain rfl : e = .panic k := Except.error.inj h
          rfl
        · cases h
  | ok q =>
      constructor
      · intro h
        exact Or.inr ⟨q.1, q.2, rfl, h⟩
      · rintro (h | ⟨x, mid, h, hf⟩)
        · cases h
        · cases h
          exact hf

@[simp] theorem not_panics_pure (x : α) (k : Panic) (bs : Bytes) : ¬Panics (pure x : Reader ε α) k bs := by
  intro h
  cases h

@[simp] theorem not_panics_fail (e : ε) (k : Panic) (bs : Bytes) : ¬Panics (fail e : Reader ε α) k bs := by
  intro h
  cases h

theorem not_panics_readBytes (last : ε) (delim : UInt8) (k : Panic) (bs : Bytes) :
    ¬Panics (readBytes last delim) k bs := by
  intro h
  unfold Panics readBytes at h
  cases hs : splitAfter delim bs with
  | none =>
      rw [hs] at h
      cases h
  | some p =>
      rw [hs] at h
      cases h

theorem not_panics_readFull (short : Bytes → ε) (n : Nat) (k : Panic) (bs : Bytes) : ¬Panics (readFull short n) k bs := by
  intro h
  unfold Panics readFull at h
  split_ifs at h
  cases h

theorem panics_makeSlice_iff (rt : Runtime) (size : Nat) (n : Int64) (k : Panic) (bs : Bytes) :
    Panics (makeSlice rt size n : Reader ε Unit) k bs ↔
      k = .makeslice ∧ ¬(0 ≤ n.toInt ∧ n.toInt * size ≤ rt.maxAlloc) := by
  unfold makeSlice
  by_cases hc : 0 ≤ n.toInt ∧ n.toInt * size ≤ rt.maxAlloc
  · rw [if_pos hc]
    exact ⟨fun h => absurd h (not_panics_pure _ _ _), fun h => absurd hc h.2⟩
  · rw [if_neg hc]
    constructor
    · intro h
      cases h
      exact ⟨rfl, hc⟩
    · rintro ⟨rfl, -⟩
      rfl

end Reader

end Uddp.Lib

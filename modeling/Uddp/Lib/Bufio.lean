import Uddp.Lib.Bytes

/-!
# Files and buffered writers that can fail

* `File` : the bytes a read of an append-only file sees, and how many of them an fsync has made
  durable; `File.write` takes some or all of the bytes it is given, `File.sync` succeeds or not;
* `BufferedFile` : a file behind Go's `bufio.Writer`, whose first error stays for good;
* `Handed b p b'` : what one `Write` or `Flush` that hands over `p` can do to `b`
  (`write_handed`, `flush_handed`). Callers use only this.
-/

namespace Uddp.Lib

/-! ## Files -/

/-- What the operating system does with one write: `none` takes every byte, `some (n, e)` takes `n`
of them, never all, and reports `e`. -/
abbrev WriteFault := Option (Nat × String)

/-- An append-only file. `synced` counts the bytes that are durable. -/
structure File where
  data : Bytes
  synced : Nat
  closed : Bool
  synced_le : synced ≤ data.length
  deriving DecidableEq, Repr

def errClosed : String := "file already closed"

namespace File

/-- The file with `p` behind what it holds. -/
def extend (f : File) (p : Bytes) : File :=
  { f with data := f.data ++ p, synced_le := f.synced_le.trans (by simp) }

@[simp] theorem extend_data (f : File) (p : Bytes) : (f.extend p).data = f.data ++ p := rfl

@[simp] theorem extend_synced (f : File) (p : Bytes) : (f.extend p).synced = f.synced := rfl

@[simp] theorem extend_closed (f : File) (p : Bytes) : (f.extend p).closed = f.closed := rfl

/-- Append `p`; the second component counts the bytes taken. -/
def write (f : File) (p : Bytes) (o : WriteFault) : File × Nat × Option String :=
  if f.closed then (f, 0, some errClosed)
  else
    match o with
    | none => (f.extend p, p.length, none)
    | some (n, e) => (f.extend (p.take (min n (p.length - 1))), min n (p.length - 1), some e)

/-- An fsync that starts and ends with nothing in between. -/
def sync (f : File) (o : Option String) : File × Option String :=
  if f.closed then (f, some errClosed)
  else
    match o with
    | none => ({ f with synced := f.data.length, synced_le := le_rfl }, none)
    | some e => (f, some e)

/-- The file cut to `n` bytes. -/
def truncate (f : File) (n : Nat) : File :=
  { f with data := f.data.take n, synced := min f.synced n
           synced_le := by have := f.synced_le; rw [List.length_take]; omega }

/-- One write: every byte, or a proper part of them and an error. -/
theorem write_cases (f : File) (p : Bytes) (o : WriteFault) (hp : p ≠ []) :
    ∃ n, (f.write p o).1 = f.extend (p.take n) ∧ (f.write p o).2.1 = n ∧
      ((f.write p o).2.2 = none ∧ n = p.length ∨ (∃ e, (f.write p o).2.2 = some e) ∧ n < p.length) := by
  have hpos : 0 < p.length := List.length_pos_iff.mpr hp
  unfold write
  split
  · exact ⟨0, by simp [extend], rfl, Or.inr ⟨⟨_, rfl⟩, hpos⟩⟩
  · cases o with
    | none => exact ⟨p.length, by rw [List.take_length], rfl, Or.inl ⟨rfl, rfl⟩⟩
    | some o =>
        obtain ⟨n, e⟩ := o
        exact ⟨min n (p.length - 1), rfl, rfl, Or.inr ⟨⟨e, rfl⟩, by omega⟩⟩

end File

/-- What a crash can leave of `f`: a prefix of the bytes written, with everything that was durable. -/
structure Crash (f f' : File) : Prop where
  kept : f'.data <+: f.data
  durable : f.synced ≤ f'.data.length
  synced : f.synced ≤ f'.synced
  reopened : f'.closed = false

instance (f f' : File) : Decidable (Crash f f') :=
  decidable_of_iff (f'.data <+: f.data ∧ f.synced ≤ f'.data.length ∧ f.synced ≤ f'.synced ∧ f'.closed = false)
    ⟨fun h => ⟨h.1, h.2.1, h.2.2.1, h.2.2.2⟩, fun h => ⟨h.kept, h.durable, h.synced, h.reopened⟩⟩

/-- A crash can leave any number of bytes from the durable ones on. -/
theorem crash_at {f : File} {n : Nat} (hsynced : f.synced ≤ n) (hn : n ≤ f.data.length) :
    ∃ f', Crash f f' ∧ f'.data.length = n := by
  have hlen : (f.data.take n).length = n := by rw [List.length_take, Nat.min_eq_left hn]
  exact ⟨⟨f.data.take n, n, false, hlen.ge⟩, ⟨List.take_prefix n f.data, hlen.ge.trans' hsynced, hsynced, rfl⟩, hlen⟩

/-- What is left of a longer file, cut to the length of a part of it, is what a crash can leave of that part. -/
theorem crash_truncate {f f' : File} {p : Bytes} (hf : f.data <+: p) (hf' : f'.data <+: p)
    (hdurable : f.synced ≤ f'.data.length) (hsynced : f.synced ≤ f'.synced) (hc : f'.closed = false) :
    Crash f (f'.truncate f.data.length) := by
  have hlen : (f'.data.take f.data.length).length = min f.data.length f'.data.length := List.length_take
  refine ⟨?_, ?_, le_min hsynced f.synced_le, hc⟩
  · exact List.prefix_of_prefix_length_le ((List.take_prefix _ _).trans hf') hf (hlen.le.trans (min_le_left _ _))
  · exact hlen.ge.trans' (le_min f.synced_le hdurable)

/-! ## Buffered writers -/

/-- A `bufio.Writer` over a file. Its error is sticky. -/
structure BufferedFile where
  file : File
  buf : Bytes
  err : Option String
  deriving DecidableEq, Repr

def defaultBufSize : Nat := 4096

namespace BufferedFile

/-- `Flush`; the error it returns is `err` afterwards. -/
def flush (b : BufferedFile) (o : WriteFault) : BufferedFile :=
  if b.err.isSome ∨ b.buf = [] then b
  else
    let r := b.file.write b.buf o
    match r.2.2 with
    | none => { file := r.1, buf := [], err := none }
    | some e => { file := r.1, buf := b.buf.drop r.2.1, err := some e }

/-- The large write of an empty buffer, which bypasses it. -/
def writeThrough (b : BufferedFile) (p : Bytes) (o : WriteFault) : BufferedFile :=
  { b with file := (b.file.write p o).1, err := (b.file.write p o).2.2 }

/-- `Write`; the error it returns is `err` afterwards. At most two writes of the file happen: one
that empties a full buffer and one for what is still too large to buffer. -/
def write (b : BufferedFile) (p : Bytes) (o : WriteFault × WriteFault) : BufferedFile :=
  if b.err.isSome then b
  else if p.length ≤ defaultBufSize - b.buf.length then { b with buf := b.buf ++ p }
  else if b.buf = [] then b.writeThrough p o.1
  else
    let k := defaultBufSize - b.buf.length
    let b' := flush { b with buf := b.buf ++ p.take k } o.1
    if b'.err.isSome then b'
    else if (p.drop k).length ≤ defaultBufSize then { b' with buf := p.drop k }
    else b'.writeThrough (p.drop k) o.2

end BufferedFile

/-- Handing `p` to `b` gives `b'`. -/
structure Handed (b : BufferedFile) (p : Bytes) (b' : BufferedFile) : Prop where
  /-- No write makes anything durable. -/
  synced : b'.file.synced = b.file.synced
  closed : b'.file.closed = b.file.closed
  sticky : b.err ≠ none → b' = b
  /-- Without an error nothing is lost on the way. -/
  stream : b'.err = none → b'.file.data ++ b'.buf = b.file.data ++ b.buf ++ p
  /-- The file takes pending bytes in order. -/
  grows : ∃ q, q <+: b.buf ++ p ∧ b'.file.data = b.file.data ++ q
  /-- An error leaves the last pending byte out of the file. -/
  short : b.err = none → b'.err ≠ none → b'.file.data.length < b.file.data.length + (b.buf ++ p).length

theorem Handed.file_prefix {b b' : BufferedFile} {p : Bytes} (h : Handed b p b') : b.file.data <+: b'.file.data := by
  obtain ⟨q, -, hq⟩ := h.grows
  exact ⟨q, hq.symm⟩

theorem Handed.err_ne {b b' : BufferedFile} {p : Bytes} (h : Handed b p b') (he : b.err ≠ none) : b'.err ≠ none := by
  rw [h.sticky he]
  exact he

theorem Handed.err_none {b b' : BufferedFile} {p : Bytes} (h : Handed b p b') (he : b'.err = none) : b.err = none := by
  by_contra hne
  exact h.err_ne hne he

theorem Handed.trans {a b c : BufferedFile} {p q : Bytes} (h₁ : Handed a p b) (h₂ : Handed b q c)
    (hb : b.err = none) : Handed a (p ++ q) c := by
  obtain ⟨u, hu, hfu⟩ := h₁.grows
  obtain ⟨v, hv, hfv⟩ := h₂.grows
  have hs := h₁.stream hb
  have ha := h₁.err_none hb
  refine ⟨h₂.synced.trans h₁.synced, h₂.closed.trans h₁.closed, fun h => absurd ha h, fun hc => ?_, ⟨u ++ v, ?_, ?_⟩,
    fun _ hc => ?_⟩
  · rw [h₂.stream hc, hs]
    simp
  · -- what was pending after the first is what the first did not take
    have hpend : a.buf ++ p = u ++ b.buf := by
      rw [hfu, List.append_assoc, List.append_assoc] at hs
      exact (List.append_cancel_left hs).symm
    rw [← List.append_assoc, hpend, List.append_assoc]
    exact (List.prefix_append_right_inj u).mpr hv
  · rw [hfv, hfu, List.append_assoc]
  · have hshort := h₂.short hb hc
    have hlen := congrArg List.length hs
    simp only [List.length_append] at hshort hlen ⊢
    omega

/-- After an error the bytes still to be handed over do not matter. -/
theorem Handed.of_err {b b' : BufferedFile} {p : Bytes} (h : Handed b p b') (he : b'.err ≠ none) (q : Bytes) :
    Handed b (p ++ q) b' := by
  obtain ⟨u, hu, hf⟩ := h.grows
  refine ⟨h.synced, h.closed, h.sticky, fun h' => absurd h' he, ⟨u, hu.trans ?_, hf⟩, fun h' h'' => ?_⟩
  · exact (List.prefix_append_right_inj b.buf).mpr (List.prefix_append p q)
  · have := h.short h' h''
    simp only [List.length_append] at this ⊢
    omega

/-- An error that meets an empty buffer lets a proper part of `p` through. -/
theorem Handed.torn {b b' : BufferedFile} {p : Bytes} (h : Handed b p b') (hb : b.buf = []) (he : b.err = none)
    (he' : b'.err ≠ none) : ∃ t, b'.file.data = b.file.data ++ t ∧ t <+: p ∧ t ≠ p := by
  obtain ⟨t, ht, hf⟩ := h.grows
  rw [hb, List.nil_append] at ht
  refine ⟨t, hf, ht, ?_⟩
  rintro rfl
  have hs := h.short he he'
  rw [hf, hb, List.nil_append, List.length_append] at hs
  omega

namespace BufferedFile

theorem writeThrough_handed (b : BufferedFile) (p : Bytes) (o : WriteFault) (he : b.err = none) (hb : b.buf = [])
    (hp : p ≠ []) : Handed b p (b.writeThrough p o) := by
  obtain ⟨n, hf, -, hr⟩ := b.file.write_cases p o hp
  unfold writeThrough
  rw [hf]
  refine ⟨rfl, rfl, fun h => absurd he h, fun h => ?_, ⟨p.take n, ?_, rfl⟩, fun _ h => ?_⟩
  · rcases hr with ⟨-, rfl⟩ | ⟨⟨e, he'⟩, -⟩
    · simp [hb]
    · simp [he'] at h
  · rw [hb, List.nil_append]
    exact List.take_prefix n p
  · rcases hr with ⟨he', -⟩ | ⟨-, hn⟩
    · exact absurd he' h
    · simp only [File.extend_data, List.length_append, List.length_take, hb, List.length_nil]
      omega

theorem flush_handed (b : BufferedFile) (o : WriteFault) : Handed b [] (b.flush o) := by
  unfold flush
  split
  · next h =>
    refine ⟨rfl, rfl, fun _ => rfl, fun _ => by simp, ⟨[], List.nil_prefix, by simp⟩, fun he he' => absurd he he'⟩
  · next h =>
    have he : b.err = none := by
      cases hb : b.err with
      | none => rfl
      | some e => simp [hb] at h
    have hbuf : b.buf ≠ [] := fun hb => h (Or.inr hb)
    obtain ⟨n, hf, hn, hr⟩ := b.file.write_cases b.buf o hbuf
    rcases hr with ⟨hnone, hlen⟩ | ⟨⟨e, hsome⟩, hlt⟩
    · simp only [hnone, hf]
      exact ⟨rfl, rfl, fun h' => absurd he h', fun _ => by simp [hlen], ⟨b.buf.take n, by simp [hlen], rfl⟩,
        fun _ h' => absurd rfl h'⟩
    · simp only [hsome, hf, hn]
      refine ⟨rfl, rfl, fun h' => absurd he h', fun h' => by simp at h', ⟨b.buf.take n, ?_, rfl⟩, fun _ _ => ?_⟩
      · rw [List.append_nil]
        exact List.take_prefix n b.buf
      · simp only [File.extend_data, List.length_append, List.length_take, List.length_nil]
        omega

theorem flush_buf (b : BufferedFile) (o : WriteFault) (h : (b.flush o).err = none) : (b.flush o).buf = [] := by
  unfold flush at h ⊢
  split
  · next hc =>
    rw [if_pos hc] at h
    rcases hc with hc | hc
    · simp [h] at hc
    · exact hc
  · next hc =>
    rw [if_neg hc] at h
    cases hr : (b.file.write b.buf o).2.2 with
    | none => simp only [hr]
    | some e => simp only [hr] at h; exact absurd h (by simp)

theorem buffered_handed (b : BufferedFile) (p : Bytes) (he : b.err = none) : Handed b p { b with buf := b.buf ++ p } :=
  ⟨rfl, rfl, fun h => absurd he h, fun _ => by simp, ⟨[], List.nil_prefix, by simp⟩, fun h h' => absurd h h'⟩

theorem write_handed (b : BufferedFile) (p : Bytes) (o : WriteFault × WriteFault) : Handed b p (b.write p o) := by
  unfold write
  split
  · next h =>
    have hne : b.err ≠ none := Option.isSome_iff_ne_none.mp h
    exact ⟨rfl, rfl, fun _ => rfl, fun he => absurd he hne, ⟨[], List.nil_prefix, by simp⟩, fun he => absurd he hne⟩
  · next h =>
    have he : b.err = none := by simpa using h
    split
    · exact buffered_handed b p he
    · next hlen =>
      have hp : p ≠ [] := by
        rintro rfl
        simp at hlen
      split
      · next hb => exact writeThrough_handed b p o.1 he hb hp
      · -- the buffer is topped up and flushed first
        set k := defaultBufSize - b.buf.length with hk
        have htop := buffered_handed b (p.take k) he
        have hflush := (htop.trans (flush_handed _ o.1) he)
        rw [List.append_nil] at hflush
        set b' := flush { b with buf := b.buf ++ p.take k } o.1 with hb'
        have hrest : p.drop k ≠ [] := by
          intro hd
          have := List.drop_eq_nil_iff.mp hd
          omega
        dsimp only
        rw [← hb']
        split
        · next herr =>
          have hne : b'.err ≠ none := Option.isSome_iff_ne_none.mp herr
          obtain ⟨q, hq, hf⟩ := hflush.grows
          refine ⟨hflush.synced, hflush.closed, hflush.sticky, fun h' => absurd h' hne, ⟨q, hq.trans ?_, hf⟩,
            fun h' h'' => ?_⟩
          · exact (List.prefix_append_right_inj b.buf).mpr (List.take_prefix k p)
          · have := hflush.short h' h''
            simp only [List.length_append, List.length_take] at this ⊢
            omega
        · next herr =>
          have hok : b'.err = none := by simpa using herr
          have hempty : b'.buf = [] := flush_buf _ _ hok
          have hjoin : p.take k ++ p.drop k = p := List.take_append_drop k p
          split
          · have h2 := buffered_handed b' (p.drop k) hok
            rw [hempty, List.nil_append] at h2
            have h3 := hflush.trans h2 hok
            rwa [hjoin] at h3
          · have h3 := hflush.trans (writeThrough_handed b' (p.drop k) o.2 hok hempty hrest) hok
            rwa [hjoin] at h3

theorem flush_ok (b : BufferedFile) (he : b.err = none) (hc : b.file.closed = false) : (b.flush none).err = none := by
  unfold flush
  split
  · exact he
  · simp [File.write, hc]

theorem writeThrough_ok (b : BufferedFile) (p : Bytes) (hc : b.file.closed = false) :
    (b.writeThrough p none).err = none := by
  simp [writeThrough, File.write, hc]

theorem write_ok (b : BufferedFile) (p : Bytes) (he : b.err = none) (hc : b.file.closed = false) :
    (b.write p (none, none)).err = none := by
  unfold write
  dsimp only
  have hf := flush_ok { b with buf := b.buf ++ p.take (defaultBufSize - b.buf.length) } he hc
  have hc' := (flush_handed { b with buf := b.buf ++ p.take (defaultBufSize - b.buf.length) } none).closed
  split_ifs
  · exact he
  · exact he
  · exact writeThrough_ok b p hc
  · exact hf
  · exact hf
  · exact writeThrough_ok _ _ (hc'.trans hc)

theorem write_write_ok (b : BufferedFile) (p q : Bytes) (he : b.err = none) (hc : b.file.closed = false) :
    (b.write p (none, none)).err = none ∧ ((b.write p (none, none)).write q (none, none)).err = none ∧
      ((b.write p (none, none)).write q (none, none)).file.closed = false := by
  have hfirst := write_ok b p he hc
  have hopen := (write_handed b p (none, none)).closed.trans hc
  exact ⟨hfirst, write_ok _ q hfirst hopen, (write_handed _ q (none, none)).closed.trans hopen⟩

theorem flush_closed (b : BufferedFile) (o : WriteFault) (hc : b.file.closed = true) : (b.flush o).file = b.file := by
  unfold flush
  split
  · rfl
  · simp [File.write, hc]

theorem flush_closed_err (b : BufferedFile) (o : WriteFault) (hc : b.file.closed = true) (hb : b.buf ≠ []) :
    (b.flush o).err ≠ none := by
  unfold flush
  split
  · next h =>
    rcases h with h | h
    · exact Option.isSome_iff_ne_none.mp h
    · exact absurd h hb
  · simp [File.write, hc]

theorem write_closed (b : BufferedFile) (p : Bytes) (o : WriteFault × WriteFault) (hc : b.file.closed = true) :
    (b.write p o).file = b.file := by
  have hf := flush_closed { b with buf := b.buf ++ p.take (defaultBufSize - b.buf.length) } o.1 hc
  unfold write
  dsimp only
  split_ifs
  · rfl
  · rfl
  · simp [writeThrough, File.write, hc]
  · exact hf
  · exact hf
  · rw [writeThrough, hf]
    simp [File.write, hc]

/-- What fits into the buffer is only buffered: no byte reaches the file and nothing can fail. -/
theorem write_small (b : BufferedFile) (p : Bytes) (o : WriteFault × WriteFault) (he : b.err = none)
    (hp : p.length ≤ defaultBufSize - b.buf.length) : b.write p o = { b with buf := b.buf ++ p } := by
  unfold write
  rw [if_neg (by simp [he]), if_pos hp]

/-- Which faults matter to a `Write` of `p` bytes with the faults `y` and a `Flush` with the fault `z`, when `l` bytes
are buffered before: the writes of the file that they lead to all succeed. -/
def Accepted (l p : Nat) (y : WriteFault × WriteFault) (z : WriteFault) : Prop :=
  if p ≤ defaultBufSize - l then z = none
  else y.1 = none ∧ if p - (defaultBufSize - l) ≤ defaultBufSize then z = none else y.2 = none

instance (l p : Nat) (y : WriteFault × WriteFault) (z : WriteFault) : Decidable (Accepted l p y z) :=
  inferInstanceAs (Decidable (if p ≤ defaultBufSize - l then z = none
    else y.1 = none ∧ if p - (defaultBufSize - l) ≤ defaultBufSize then z = none else y.2 = none))

theorem flush_err_iff {b : BufferedFile} (he : b.err = none) (hb : b.buf ≠ []) (hc : b.file.closed = false) (o : WriteFault) :
    (b.flush o).err = none ↔ o = none := by
  unfold flush
  rw [if_neg (by simp [he, hb])]
  cases o with
  | none => simp [File.write, hc]
  | some o => simp [File.write, hc]

theorem flush_empty {b : BufferedFile} (hb : b.buf = []) (o : WriteFault) : b.flush o = b := by
  unfold flush
  rw [if_pos (Or.inr hb)]

theorem writeThrough_err_iff {b : BufferedFile} (hc : b.file.closed = false) (p : Bytes) (o : WriteFault) :
    (b.writeThrough p o).err = none ↔ o = none := by
  cases o with
  | none => simp [writeThrough, File.write, hc]
  | some o => simp [writeThrough, File.write, hc]

theorem write_flush_err_iff {b : BufferedFile} (he : b.err = none) (hb : b.buf ≠ []) (hc : b.file.closed = false)
    (p : Bytes) (y : WriteFault × WriteFault) (z : WriteFault) :
    ((b.write p y).flush z).err = none ↔ Accepted b.buf.length p.length y z := by
  unfold Accepted
  by_cases hsmall : p.length ≤ defaultBufSize - b.buf.length
  · rw [write_small b p y he hsmall, if_pos hsmall]
    exact flush_err_iff (b := { b with buf := b.buf ++ p }) he (by simp [hb]) hc z
  · obtain ⟨k, hk⟩ : ∃ k, k = defaultBufSize - b.buf.length := ⟨_, rfl⟩
    obtain ⟨b', hb'⟩ : ∃ b', b' = flush { b with buf := b.buf ++ p.take k } y.1 := ⟨_, rfl⟩
    have hfirst : b'.err = none ↔ y.1 = none := by
      rw [hb']
      exact flush_err_iff (b := { b with buf := b.buf ++ p.take k }) he (by simp [hb]) hc y.1
    have hwrite : b.write p y =
        if b'.err.isSome then b'
        else if (p.drop k).length ≤ defaultBufSize then { b' with buf := p.drop k }
        else b'.writeThrough (p.drop k) y.2 := by
      unfold write
      rw [if_neg (by simp [he]), if_neg hsmall, if_neg hb]
      simp only [hb', hk]
    rw [if_neg hsmall, hwrite, ← hk, ← List.length_drop]
    rw [← hk] at hsmall
    cases hy : y.1 with
    | some o =>
        have hne : b'.err ≠ none := by
          rw [Ne, hfirst, hy]
          simp
        rw [if_pos (Option.isSome_iff_ne_none.mpr hne)]
        have hstuck := (flush_handed b' z).err_ne hne
        simp [hstuck]
    | none =>
        have hok : b'.err = none := hfirst.mpr hy
        have hempty : b'.buf = [] := by
          rw [hb'] at hok ⊢
          exact flush_buf _ _ hok
        have hopen : b'.file.closed = false := by
          rw [hb']
          exact (flush_handed _ _).closed.trans hc
        rw [if_neg (by simp [hok])]
        by_cases hrest : (p.drop k).length ≤ defaultBufSize
        · rw [if_pos hrest, if_pos hrest]
          have hne : p.drop k ≠ [] := by
            intro hd
            exact hsmall (List.drop_eq_nil_iff.mp hd)
          have := flush_err_iff (b := { b' with buf := p.drop k }) hok hne hopen z
          simpa using this
        · rw [if_neg hrest, if_neg hrest, flush_empty (b := b'.writeThrough (p.drop k) y.2) hempty]
          have := writeThrough_err_iff hopen (p.drop k) y.2
          simpa using this

end BufferedFile

end Uddp.Lib

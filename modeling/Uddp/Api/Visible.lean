import Uddp.Api.Restore
import Uddp.Engine.Shared

/-!
# State and stream become visible together

A record can be fetched as soon as it is in the file, which is before the maps have it. But `Get` waits for the mutation
that is on its way, and `Fetch` finds every record that the maps know.

* `Finds i` : a reader is on its way to the record with the index `i`, or has returned it first; `finds_step`, `run_finds`;
* `AnswersLast` : what `Get` answers from the last record of its key;
* **`visible_together`** : what is fetched is got, and what is got is fetched.
-/

namespace Uddp
open Uddp.Lib Uddp.Wal

/-! ## Readers that find a record -/

section Finds
variable {ι κ : Type} (rs₀ : List Record)

/-- The reader has looked up the record with the index `i`, and returns it first. -/
def Finds (g : Wal.Group ι) (i : Nat) : ReaderPhase → Prop
  | .idle => False
  | .located _ limit startOffset => 0 < limit ∧ i < (g.records rs₀).length ∧
      startOffset = (logBytes ((g.records rs₀).take i)).length
  | .sized _ limit startOffset size => 0 < limit ∧ i < (g.records rs₀).length ∧
      startOffset = (logBytes ((g.records rs₀).take i)).length ∧
      (logBytes ((g.records rs₀).take (i + 1))).length ≤ size ∧ size ≤ g.w.out.file.data.length
  | .returned _ recs err => err = none ∧ ∃ r, recs.head? = some r ∧ (g.records rs₀)[i]? = some r

variable {rs₀} {w₀ : WAL} {i : Nat}

theorem Finds.grown {g g' : Wal.Group ι} {p : ReaderPhase} (h : Finds rs₀ g i p) (hrecords : g.records rs₀ <+: g'.records rs₀)
    (hdata : g.w.out.file.data <+: g'.w.out.file.data) : Finds rs₀ g' i p := by
  have hlen := hrecords.length_le
  cases p with
  | idle => exact h
  | located fromPos limit startOffset =>
      obtain ⟨hlimit, hi, hstart⟩ := h
      exact ⟨hlimit, hi.trans_le hlen, by rw [take_of_part hrecords hi.le, hstart]⟩
  | sized fromPos limit startOffset size =>
      obtain ⟨hlimit, hi, hstart, hlow, hhigh⟩ := h
      refine ⟨hlimit, hi.trans_le hlen, by rw [take_of_part hrecords hi.le, hstart], ?_, hhigh.trans hdata.length_le⟩
      rwa [take_of_part hrecords hi]
  | returned fromPos recs err =>
      obtain ⟨herr, r, hhead, hr⟩ := h
      exact ⟨herr, r, hhead, getElem?_of_part hrecords hr⟩

variable [DecidableEq ι] [DecidableEq κ] {s s' : Wal.Served ι κ} {j : κ}

omit [DecidableEq ι] [DecidableEq κ] in
theorem readSection_finds (h : ServedInv w₀ rs₀ s) (hopen : s.group.w.out.file.closed = false) {fromPos : UInt64}
    {limit startOffset size : Nat} (hj : Finds rs₀ s.group i (.sized fromPos limit startOffset size)) (m : Nat) :
    Finds rs₀ s.group i (.returned fromPos (Served.readSection s.group.w.out.file fromPos limit startOffset size m).1
      (Served.readSection s.group.w.out.file fromPos limit startOffset size m).2) := by
  obtain ⟨hlimit, hi, hstart, hlow, hhigh⟩ := hj
  have hsize : (s.group.w.out.file.data.take size).length = size := by rw [List.length_take, Nat.min_eq_left hhigh]
  obtain ⟨k, t, hcutdata, hcut⟩ := cut_of_log ((List.take_prefix size _).trans h.group.log.data)
    (hsize.symm ▸ (headerSize_le_logBytes _).trans hlow)
  have hik : i + 1 ≤ k := by
    rw [← le_cut_iff hcut hi, ← hcutdata, hsize]
    exact hlow
  unfold Served.readSection
  rw [hopen, hcutdata, hstart, readUpTo_part h.fits hcut i limit fromPos hi.le]
  refine ⟨rfl, (s.group.records rs₀)[i], ?_, List.getElem?_eq_getElem hi⟩
  show ((((s.group.records rs₀).take k).drop i).take limit).head? = _
  rw [List.head?_take, if_neg (by omega), List.head?_drop, List.getElem?_take_of_lt (by omega), List.getElem?_eq_getElem hi]

theorem finds_step (h : ServedInv w₀ rs₀ s) (hwhole : s.group.w.out.file.data = logBytes (s.group.records rs₀))
    (hopen : s.group.w.out.file.closed = false) {a : ServedAction ι κ} (hstep : s.step a = some s')
    (hj : Finds rs₀ s.group i (s.reader j)) : Finds rs₀ s'.group i (s'.reader j) := by
  have hgoto : ∀ l p, (l = j → Finds rs₀ s.group i p) → Finds rs₀ (s.goto l p).group i ((s.goto l p).reader j) := by
    intro l p hp
    by_cases hl : j = l
    · subst hl
      rw [served_goto_self]
      exact hp rfl
    · rw [served_goto_of_ne _ hl]
      exact hj
  cases a with
  | write a =>
      have hgrows := served_grows h hstep
      obtain ⟨g, -, rfl⟩ := Served.step_write hstep
      exact hj.grown hgrows.1 hgrows.2
  | locate l fromPos limit =>
      obtain ⟨hidle, rfl⟩ := Served.step_locate hstep
      refine hgoto l _ ?_
      rintro rfl
      rw [hidle] at hj
      exact hj.elim
  | stat l =>
      obtain ⟨fromPos, limit, startOffset, hl, ⟨hclosed, -⟩ | ⟨-, rfl⟩⟩ := Served.step_stat hstep
      · rw [hopen] at hclosed
        cases hclosed
      · refine hgoto l _ ?_
        rintro rfl
        rw [hl] at hj
        obtain ⟨hlimit, hi, hstart⟩ := hj
        refine ⟨hlimit, hi, hstart, ?_, le_rfl⟩
        rw [hwhole]
        exact length_logBytes_mono (List.take_prefix _ _)
  | read l m =>
      obtain ⟨fromPos, limit, startOffset, size, hl, rfl⟩ := Served.step_read hstep
      refine hgoto l _ ?_
      rintro rfl
      rw [hl] at hj
      exact readSection_finds h hopen hj m

end Finds

section Runs
variable {ι κ : Type} [DecidableEq ι] [DecidableEq κ] {w₀ : WAL} {rs₀ : List Record} {s s' : SharedEngine ι κ} {i : Nat} {j : κ}

theorem run_finds (h : SharedInv w₀ rs₀ s) (hj : Finds rs₀ s.log.group i (s.log.reader j)) {as : List (EngineAction ι κ)}
    (hfits : ∀ a ∈ as, a.Fits) (hrun : runActions SharedEngine.step s as = some s') :
    Finds rs₀ s'.log.group i (s'.log.reader j) := by
  have hboth := runActions_along (P := fun _ a => a.Fits)
    (I := fun x : SharedEngine ι κ => SharedInv w₀ rs₀ x ∧ Finds rs₀ x.log.group i (x.log.reader j))
    (fun x a x' hx hfit hstep => ⟨shared_step hx.1 hfit hstep, ?_⟩) ⟨h, hj⟩ (along_of_mem hfits _) hrun
  · exact hboth.2
  · rcases SharedEngine.step_log hstep with hsame | ⟨b, hb⟩
    · rw [hsame]
      exact hx.2
    · exact finds_step hx.1.served hx.1.data hx.1.flushed.opened hb hx.2

theorem locate_finds (h : SharedInv w₀ rs₀ s) (hlen : s.log.group.w.byteOffsets.length < 2 ^ 63) {r : Record}
    (hr : (s.log.group.records rs₀)[i]? = some r) {limit : Int} (hlimit : 1 ≤ limit)
    (hstep : s.step (.locate j r.commitPosition limit) = some s') : Finds rs₀ s'.log.group i (s'.log.reader j) := by
  obtain ⟨log, hlog, rfl⟩ := SharedEngine.logStep_some hstep
  obtain ⟨-, rfl⟩ := Served.step_locate hlog
  have hi := (List.getElem?_eq_some_iff.mp hr).1
  have hcount := (h.served.indexed.next h.flushed.err).1
  have hpos := stamped_position h.served.group.log.stamped (by omega) hr
  have hsub : (r.commitPosition - 1).toNat = i := by
    rw [UInt64.toNat_sub_of_le r.commitPosition 1 (UInt64.le_iff_toNat_le.mpr (by rw [hpos]; exact Nat.succ_pos i)), hpos]
    rfl
  have hint : (r.commitPosition - 1).toInt64.toInt = i := by rw [toInt_toInt64, hsub, if_pos (by omega)]
  have hnot : ¬(r.commitPosition < 1 ∨ (r.commitPosition - 1).toInt64.toInt ≥ s.log.group.w.byteOffsets.length ∨ limit ≤ 0) := by
    rw [UInt64.lt_iff_toNat_lt, hpos, hint]
    simp
    omega
  show Finds rs₀ s.log.group i ((s.log.goto j _).reader j)
  rw [served_goto_self]
  unfold Served.locate
  rw [if_neg hnot, hsub, h.served.indexed.start i (by omega)]
  exact ⟨by omega, hi, rfl⟩

theorem read_finishes {fromPos : UInt64} {limit startOffset size : Nat}
    (h : s.log.reader j = .sized fromPos limit startOffset size) :
    ∃ s', s.step (.read j) = some s' ∧ (s'.fetched j).isSome := by
  obtain ⟨page, hpage⟩ : ∃ page, page = Served.readSection s.log.group.w.out.file fromPos limit startOffset size 0 := ⟨_, rfl⟩
  refine ⟨{ s with log := s.log.goto j (.returned fromPos page.1 page.2) }, ?_, ?_⟩
  · show s.logStep _ = _
    simp only [SharedEngine.logStep, Wal.Served.step, h, hpage, Option.map_some]
  · rw [SharedEngine.fetched_returned (served_goto_self _ _ _)]
    rfl

theorem finds_finishes (h : SharedInv w₀ rs₀ s) (hj : Finds rs₀ s.log.group i (s.log.reader j)) : ∃ mine s',
    mine <:+ [EngineAction.stat j, .read j] ∧ runActions SharedEngine.step s mine = some s' ∧ (s'.fetched j).isSome := by
  cases hphase : s.log.reader j with
  | idle =>
      rw [hphase] at hj
      exact hj.elim
  | located fromPos limit startOffset =>
      obtain ⟨s₁, hs₁⟩ : ∃ s₁ : SharedEngine ι κ, s₁ = { s with
        log := s.log.goto j (.sized fromPos limit startOffset s.log.group.w.out.file.data.length) } := ⟨_, rfl⟩
      have hstat : s.step (.stat j) = some s₁ := by
        rw [hs₁]
        show s.logStep _ = _
        simp only [SharedEngine.logStep, Wal.Served.step, hphase, h.flushed.opened, Bool.false_eq_true, if_false,
          Option.map_some]
      obtain ⟨s₂, hread, hdone⟩ := read_finishes (s := s₁) (by rw [hs₁]; exact served_goto_self _ _ _)
      refine ⟨_, s₂, List.suffix_refl _, ?_, hdone⟩
      rw [runActions_cons _ hstat, runActions_cons _ hread]
      rfl
  | sized fromPos limit startOffset size =>
      obtain ⟨s₁, hread, hdone⟩ := read_finishes hphase
      refine ⟨[.read j], s₁, List.suffix_cons _ _, ?_, hdone⟩
      rw [runActions_cons _ hread]
      rfl
  | returned fromPos recs err =>
      refine ⟨[], s, List.nil_suffix, rfl, ?_⟩
      rw [SharedEngine.fetched_returned hphase]
      rfl

end Runs

/-! ## `Get` and the last record of its key -/

/-- What `Get` answers when the last record of its key is `last`. -/
def AnswersLast (last : Record) (now : Time) : Option (Bytes × UInt64) → Prop
  | some (value, version) => last.kind = KindPut ∧ Live last now ∧ value = last.value ∧ version = last.commitPosition
  | none => last.kind = KindDelete ∨ last.kind = KindPut ∧ ¬Live last now

theorem get_answersLast {rs : List Record} (hkind : ∀ r ∈ rs, r.kind = KindPut ∨ r.kind = KindDelete) {key : Bytes}
    {last : Record} (hlast : lastFor key rs = some last) (now : Time) : AnswersLast last now ((tablesOf rs).get key now) := by
  have hiff := get_iff (lookup_tablesOf hkind key) now
  rw [hlast] at hiff
  cases hget : (tablesOf rs).get key now with
  | some found =>
      obtain ⟨r, hr, hput, hversion, hvalue, hlive⟩ := (hiff found.1 found.2).mp hget
      cases hr
      exact ⟨hput, hlive, hvalue.symm, hversion.symm⟩
  | none =>
      rcases hkind last (mem_of_lastOf hlast).1 with hput | hdelete
      · refine Or.inr ⟨hput, fun hlive => ?_⟩
        have hfound := (hiff last.value last.commitPosition).mpr ⟨last, rfl, hput, rfl, rfl, hlive⟩
        rw [hget] at hfound
        cases hfound
      · exact Or.inl hdelete

theorem lastFor_position {rs : List Record} (hst : Stamped 1 rs) (hlen : rs.length < 2 ^ 63) {r : Record} (hr : r ∈ rs) :
    ∃ last, lastFor r.key rs = some last ∧ r.commitPosition ≤ last.commitPosition := by
  cases hlast : lastFor r.key rs with
  | none => exact absurd rfl (lastOf_eq_none.mp hlast r hr)
  | some last =>
      refine ⟨last, rfl, ?_⟩
      obtain ⟨l, m, rfl, hm⟩ := lastOf_split hlast
      have hposition := stamped_position hst hlen (i := l.length) (r := last) (by simp)
      rw [UInt64.le_iff_toNat_le, hposition]
      rcases List.mem_append.mp hr with hr | hr
      · obtain ⟨k, hk⟩ := List.mem_iff_getElem?.mp hr
        have hkl := (List.getElem?_eq_some_iff.mp hk).1
        rw [stamped_position hst hlen (i := k) (by rw [List.getElem?_append_left hkl, hk])]
        omega
      · rcases List.mem_cons.mp hr with rfl | hr
        · rw [hposition]
        · exact absurd rfl (hm r hr)

/-! ## Both ways -/

section Visible
variable {ι κ : Type} {w₀ : WAL} {rs₀ : List Record} {s₁ s₂ s₃ : SharedEngine ι κ}

theorem mem_of_fetched (h : SharedInv w₀ rs₀ s₁) {j : κ} {changes : List ChangeRecord}
    (hfetched : s₁.fetched j = some (.ok changes)) {change : ChangeRecord} (hchange : change ∈ changes) :
    ∃ r ∈ s₁.log.group.records rs₀, changeOf r = change := by
  obtain ⟨fromPos, recs, err, hj, hresult⟩ := SharedEngine.fetched_some hfetched
  cases err with
  | some err => cases hresult
  | none =>
      cases hresult
      obtain ⟨r, hr, rfl⟩ := List.mem_map.mp hchange
      have hok := h.served.readers j
      rw [hj] at hok
      rcases hok with rfl | ⟨k, -, hpart, -⟩
      · cases hr
      · exact ⟨r, List.mem_of_mem_drop (hpart.subset hr), rfl⟩

/-- **What is fetched is got.** -/
theorem got_of_fetched (h : SharedInv w₀ rs₀ s₁) (h₂ : SharedInv w₀ rs₀ s₂)
    (hgrows : s₁.log.group.records rs₀ <+: s₂.log.group.records rs₀) (hlen : s₂.log.group.w.byteOffsets.length < 2 ^ 63) {j : κ}
    {changes : List ChangeRecord} (hfetched : s₁.fetched j = some (.ok changes)) {change : ChangeRecord}
    (hchange : change ∈ changes) {now : Time} {answer : Option (Bytes × UInt64)}
    (hget : s₂.get change.key now = some answer) : ∃ last, lastFor change.key s₂.engine.stream = some last ∧
      change.offset ≤ last.commitPosition ∧ AnswersLast last now answer := by
  obtain ⟨r, hr, rfl⟩ := mem_of_fetched h hfetched hchange
  obtain ⟨hfree, rfl⟩ := SharedEngine.get_some hget
  have hcount := (h₂.served.indexed.next h₂.flushed.err).1
  obtain ⟨last, hlast, hle⟩ := lastFor_position h₂.served.group.log.stamped (by omega) (hgrows.subset hr)
  rw [h₂.stream, h₂.tables hfree]
  exact ⟨last, hlast, hle, get_answersLast h₂.kind hlast now⟩

/-- The version that `Get` returns is the position of a record with the value. -/
theorem record_of_got (h : SharedInv w₀ rs₀ s₁) {key : Bytes} {now : Time} {value : Bytes} {version : UInt64}
    (hget : s₁.get key now = some (some (value, version))) : ∃ (i : Nat) (r : Record), (s₁.log.group.records rs₀)[i]? = some r ∧
      r.commitPosition = version ∧ changeOf r = ⟨version, KindPut, key, value⟩ := by
  obtain ⟨hfree, hget⟩ := SharedEngine.get_some hget
  rw [h.tables hfree] at hget
  obtain ⟨r, hlast, hput, rfl, rfl, -⟩ := (get_iff (lookup_tablesOf h.kind key) now value version).mp hget
  obtain ⟨hr, rfl⟩ := mem_of_lastOf hlast
  obtain ⟨i, hi⟩ := List.mem_iff_getElem?.mp hr
  refine ⟨i, r, hi, rfl, ?_⟩
  unfold changeOf
  rw [hput]

/-- **What is got is fetched.** -/
theorem fetched_of_finds {i : Nat} {r : Record} (hr : (s₃.log.group.records rs₀)[i]? = some r) {j : κ}
    (hj : Finds rs₀ s₃.log.group i (s₃.log.reader j)) {result : Except RangeError (List ChangeRecord)}
    (hfetched : s₃.fetched j = some result) : ∃ more, result = .ok (changeOf r :: more) := by
  obtain ⟨fromPos, recs, err, hphase, rfl⟩ := SharedEngine.fetched_some hfetched
  rw [hphase] at hj
  obtain ⟨rfl, x, hhead, hx⟩ := hj
  rw [hr] at hx
  cases hx
  obtain ⟨more, rfl⟩ := List.head?_eq_some_iff.mp hhead
  exact ⟨more.map changeOf, rfl⟩

variable [DecidableEq ι] [DecidableEq κ]

/-- **State and stream become visible together.** On the engine of any node that has had no I/O errors, in every interleaving
of mutations, each of which takes the engine's lock, looks at the maps, goes through `Append`, changes the maps and gives the
lock back, with `Get`, which waits for the lock, and `Fetch`, which does not (`hlen`: the length of a slice is an `int`):

* if a `Fetch` has returned a change, every `Get` of its key from then on answers what the last record of the key in the
  stream says, and that record is at or behind the change: its value and its version, or nothing if it is a delete or has
  expired;
* if a `Get` has returned a value and its version, every `Fetch` from that version on that begins later, with a limit of
  one or more, has that change first when it returns, whatever happens while it is on its way, and two steps of its own
  bring it there. -/
theorem visible_together {e : Engine} (he : Uddp.Served e) {as later : List (EngineAction ι κ)} (hfits : ∀ a ∈ as, a.Fits)
    (hrun : runActions SharedEngine.step (.start e) as = some s₁) (hfits' : ∀ a ∈ later, a.Fits)
    (hlater : runActions SharedEngine.step s₁ later = some s₂) (hlen : s₂.engine.log.byteOffsets.length < 2 ^ 63) :
    (∀ j changes, s₁.fetched j = some (.ok changes) → ∀ change ∈ changes, ∀ now answer,
      s₂.get change.key now = some answer → ∃ last, lastFor change.key s₂.engine.stream = some last ∧
        change.offset ≤ last.commitPosition ∧ AnswersLast last now answer) ∧
    ∀ key now value version, s₁.get key now = some (some (value, version)) → ∀ j limit s₃, 1 ≤ limit →
      s₂.step (.locate j version limit) = some s₃ → ∀ rest s₄, (∀ a ∈ rest, a.Fits) →
      runActions SharedEngine.step s₃ rest = some s₄ →
        (∀ result, s₄.fetched j = some result → ∃ more, result = .ok (⟨version, KindPut, key, value⟩ :: more)) ∧
        ∃ mine s₅, mine <:+ [.stat j, .read j] ∧ runActions SharedEngine.step s₄ mine = some s₅ ∧ (s₅.fetched j).isSome := by
  obtain ⟨rs₀, n, hkeeps⟩ := he.keeps
  have h₁ := run_shared (shared_start hkeeps) hfits hrun
  have h₂ := run_shared h₁ hfits' hlater
  have hgrows := run_grows h₁ hfits' hlater
  refine ⟨fun j changes hfetched change hchange now answer hget => ?_, ?_⟩
  · exact got_of_fetched h₁ h₂ hgrows hlen hfetched hchange hget
  · intro key now value version hget j limit s₃ hlimit hlocate rest s₄ hrest hrun₄
    obtain ⟨i, r, hr, rfl, hchange⟩ := record_of_got h₁ hget
    have hr₂ := getElem?_of_part hgrows hr
    have hfinds₃ := locate_finds h₂ hlen hr₂ hlimit hlocate
    have h₃ := shared_step h₂ (a := .locate j r.commitPosition limit) trivial hlocate
    have hfinds₄ := run_finds h₃ hfinds₃ hrest hrun₄
    have hr₄ := getElem?_of_part ((step_grows h₂ hlocate).trans (run_grows h₃ hrest hrun₄)) hr₂
    refine ⟨fun result hresult => ?_, finds_finishes (run_shared h₃ hrest hrun₄) hfinds₄⟩
    rw [← hchange]
    exact fetched_of_finds hr₄ hfinds₄ hresult

/-- A put whose record is fetched between its flush and its fsync. -/
def fetchInFlight : List (EngineAction Unit Unit) :=
  [.lock () (.applyPut [107] [118] 0 []), .check (), .buffer (), .locate () 1 10, .stat (), .read ()]

/-- The rest of the put. -/
def putReturns : List (EngineAction Unit Unit) := [.syncBegin (), .syncEnd (), .post (), .update (), .release ()]

/-- The record is fetched while `Get` has to wait; the first `Get` that is let in has it. -/
theorem visible_in_flight : ∃ s₁ s₂, runActions SharedEngine.step (.start fresh) fetchInFlight = some s₁ ∧
    runActions SharedEngine.step s₁ putReturns = some s₂ ∧ s₁.get [107] 5 = none ∧
    s₁.fetched () = some (.ok [⟨1, KindPut, [107], [118]⟩]) ∧ s₂.get [107] 5 = some (some ([118], 1)) ∧
    ∃ last, lastFor [107] s₂.engine.stream = some last ∧ 1 ≤ last.commitPosition ∧ AnswersLast last 5 (some ([118], 1)) := by
  obtain ⟨s₁, hrun₁, hs₁⟩ := Option.map_eq_some_iff.mp (show (runActions SharedEngine.step (.start fresh) fetchInFlight).map
    (fun s => (s.get [107] 5, s.fetched ())) = some (none, some (.ok [⟨1, KindPut, [107], [118]⟩])) by decide +kernel)
  obtain ⟨hget₁, hfetched₁⟩ := Prod.mk.inj hs₁
  have hboth : (runActions SharedEngine.step (.start fresh) (fetchInFlight ++ putReturns)).map
      (fun s => (s.get [107] 5, s.engine.log.byteOffsets.length)) = some (some (some ([118], 1)), 1) := by decide +kernel
  rw [runActions_append _ hrun₁] at hboth
  obtain ⟨s₂, hrun₂, hs₂⟩ := Option.map_eq_some_iff.mp hboth
  obtain ⟨hget₂, hlen⟩ := Prod.mk.inj hs₂
  have hfits : ∀ a ∈ fetchInFlight, a.Fits := by
    simpa [fetchInFlight, EngineAction.Fits] using (by decide : (Call.applyPut [107] [118] 0 []).Fits)
  have hvisible := visible_together .fresh hfits hrun₁ (by simp [putReturns, EngineAction.Fits]) hrun₂ (by rw [hlen]; decide)
  exact ⟨s₁, s₂, hrun₁, hrun₂, hget₁, hfetched₁, hget₂, hvisible.1 () _ hfetched₁ _ (List.mem_singleton_self _) 5 _ hget₂⟩

end Visible

end Uddp

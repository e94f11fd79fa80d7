import Uddp.Engine.Recovery
import Uddp.Replication.Fsm

/-!
# Replicas restored from a snapshot

A snapshot lists the live keys with their values and expiries. `FSM.Restore` puts them again, one after the other,
into an empty engine: the versions, the next position and the dedup map start anew.

* `Interchangeable` : two replicas answer all further entries and all reads alike;
* **`interchangeable_iff`** : they do exactly when they have the same index, dedup map and next position;
* `Replayable` : the engine has done nothing but write the listed entries, once each and in this order;
* **`restored_interchangeable_iff`** : a restored replica is interchangeable with its source exactly then.
-/

namespace Uddp
open Uddp.Lib Uddp.Wal

/-! ## What decides about the future of a replica -/

/-- The same result for every further entry of the log, and the same reads after them. -/
def Interchangeable (e e' : Engine) : Prop :=
  ∀ further : List Delivery, (run Fsm.step e further).1 = (run Fsm.step e' further).1 ∧
    ∀ key now, (run Fsm.step e further).2.get key now = (run Fsm.step e' further).2.get key now

/-- The histories `rs` and `rs'` have led to the same maps and the same next position. -/
structure SameFuture (rs rs' : List Record) : Prop where
  tables : tablesOf rs = tablesOf rs'
  next : nextPosition rs = nextPosition rs'

theorem sameFuture_answer {rs rs' : List Record} (h : SameFuture rs rs') (c : Call) :
    (answer rs c).1 = (answer rs' c).1 ∧ SameFuture (answer rs c).2 (answer rs' c).2 := by
  unfold answer
  rw [← h.tables, ← h.next]
  cases (tablesOf rs).decide c with
  | hit out => exact ⟨rfl, h⟩
  | conflict => exact ⟨rfl, h⟩
  | write rec =>
      refine ⟨rfl, ?_, ?_⟩
      · rw [tablesOf_snoc, tablesOf_snoc, h.tables]
      · rw [nextPosition_snoc, nextPosition_snoc, h.next]

theorem sameFuture_deliver {rs rs' : List Record} (h : SameFuture rs rs') (d : Delivery) :
    (deliver rs d).1 = (deliver rs' d).1 ∧ SameFuture (deliver rs d).2 (deliver rs' d).2 := by
  have heffect : (answerEffect rs d.effect).1 = (answerEffect rs' d.effect).1 ∧
      SameFuture (answerEffect rs d.effect).2 (answerEffect rs' d.effect).2 := by
    cases d.effect with
    | call c => exact ⟨congrArg Fsm.pairOf (sameFuture_answer h c).1, (sameFuture_answer h c).2⟩
    | wipe => exact ⟨rfl, rfl, rfl⟩
    | load entries => exact ⟨rfl, rfl, rfl⟩
    | invalid err => exact ⟨rfl, h⟩
  unfold deliver
  rw [heffect.1]
  exact ⟨rfl, heffect.2⟩

theorem sameFuture_run {rs rs' : List Record} (h : SameFuture rs rs') (ds : List Delivery) :
    (run deliver rs ds).1 = (run deliver rs' ds).1 ∧ SameFuture (run deliver rs ds).2 (run deliver rs' ds).2 :=
  run_simulates (P := fun _ => True) (R := SameFuture) (fun _ _ d _ h => sameFuture_deliver h d) h (fun _ _ => trivial)

/-! ## What the maps can hold -/

theorem dedup_lookup {rs : List Record} {idem : Bytes} {out : Outcome}
    (h : (tablesOf rs).dedup.lookup idem = some out) : idem ≠ [] ∧ ∃ position, out = outcomeAt position := by
  induction rs using List.reverseRecOn with
  | nil => exact absurd h (by simp [tablesOf, Tables.empty])
  | append_singleton rs r ih =>
      rw [tablesOf_snoc] at h
      unfold replay at h
      dsimp only at h
      by_cases hr : r.idempotencyKey ≠ []
      · rw [if_pos hr] at h
        by_cases hkey : idem = r.idempotencyKey
        · subst hkey
          rw [Finmap.lookup_insert] at h
          exact ⟨hr, r.commitPosition, (Option.some.inj h).symm⟩
        · rw [Finmap.lookup_insert_of_ne _ hkey] at h
          exact ih h
      · rw [if_neg hr] at h
        exact ih h

theorem index_lookup_expiry {rs : List Record} {key : Bytes} {ent : Entry}
    (h : (tablesOf rs).index.lookup key = some ent) : ∃ exp, ent.expiresAt = expiryTime exp := by
  induction rs using List.reverseRecOn with
  | nil => exact absurd h (by simp [tablesOf, Tables.empty])
  | append_singleton rs r ih =>
      rw [tablesOf_snoc] at h
      unfold replay at h
      dsimp only at h
      split_ifs at h
      · by_cases hkey : key = r.key
        · subst hkey
          rw [Finmap.lookup_insert] at h
          exact ⟨r.expiresAtUnixNano, by rw [← Option.some.inj h]⟩
        · rw [Finmap.lookup_insert_of_ne _ hkey] at h
          exact ih h
      · by_cases hkey : key = r.key
        · subst hkey
          rw [Finmap.lookup_erase] at h
          cases h
        · rw [Finmap.lookup_erase_ne hkey] at h
          exact ih h
      · exact ih h

/-! ## What reads and results tell -/

theorem not_expired_at (ent : Entry) : expired ent ent.expiresAt = false := by
  simp [expired]

/-- The expiry can be read off the times at which an entry has expired. -/
theorem expiresAt_eq_of_expired {ent ent' : Entry} (h : ∀ now, expired ent now = expired ent' now) :
    ent.expiresAt = ent'.expiresAt := by
  have hat := h ent.expiresAt
  have hat' := h ent'.expiresAt
  have hafter := h (ent.expiresAt + 1)
  have hafter' := h (ent'.expiresAt + 1)
  by_cases hzero : ent.expiresAt = zeroTime
  · by_cases hzero' : ent'.expiresAt = zeroTime
    · rw [hzero, hzero']
    · simp [expired, hzero, hzero'] at hafter'
  · by_cases hzero' : ent'.expiresAt = zeroTime
    · simp [expired, hzero, hzero'] at hafter
    · simp [expired, hzero, hzero'] at hat hat'
      exact Int.le_antisymm hat hat'

/-- The reads at all times determine the index. -/
theorem index_eq_of_get {t t' : Tables} (h : ∀ key now, t.get key now = t'.get key now) : t.index = t'.index := by
  refine Finmap.ext_lookup fun key => ?_
  have hkey := h key
  unfold Tables.get at hkey
  cases hent : t.index.lookup key with
  | none =>
      cases hent' : t'.index.lookup key with
      | none => rfl
      | some ent' =>
          have := hkey ent'.expiresAt
          simp [hent, hent', not_expired_at] at this
  | some ent =>
      have hlive := hkey ent.expiresAt
      cases hent' : t'.index.lookup key with
      | none => simp [hent, hent', not_expired_at] at hlive
      | some ent' =>
          simp only [hent, hent'] at hkey
          have hexpired : ∀ now, expired ent now = expired ent' now := by
            intro now
            have := hkey now
            by_cases hnow : expired ent now <;> by_cases hnow' : expired ent' now <;> simp_all
          have hexp := expiresAt_eq_of_expired hexpired
          have hboth := hkey ent.expiresAt
          rw [← hexpired, not_expired_at] at hboth
          obtain ⟨hvalue, hversion⟩ : ent.value = ent'.value ∧ ent.version = ent'.version := by simpa using hboth
          obtain ⟨value, version, expiresAt⟩ := ent
          obtain ⟨value', version', expiresAt'⟩ := ent'
          cases hvalue
          cases hversion
          cases hexp
          rfl

/-- A put of the empty key, which commits in every state. -/
def probePut : Delivery := ⟨⟨.ok ⟨OpPut, [], [], 0, 0, [], []⟩, 0⟩, 0⟩

/-- A delete of the empty key under an idempotency key. -/
def probeDelete (idem : Bytes) : Delivery := ⟨⟨.ok ⟨OpDelete, [], [], 0, 0, idem, []⟩, 0⟩, 0⟩

theorem deliver_probeDelete (rs : List Record) {idem : Bytes} (hidem : idem ≠ []) :
    (deliver rs (probeDelete idem)).1.outcome =
      match (tablesOf rs).dedup.lookup idem with
      | some out => { out with deduplicated := true }
      | none => outcomeAt (nextPosition rs) := by
  have hhit : (tablesOf rs).dedupHit (Call.delete [] idem).record.idempotencyKey =
      ((tablesOf rs).dedup.lookup idem).map (fun out => { out with deduplicated := true }) := if_pos hidem
  show (Fsm.pairOf (answer rs (.delete [] idem)).1).1 = _
  unfold answer Tables.decide
  rw [hhit]
  cases (tablesOf rs).dedup.lookup idem with
  | some out => rfl
  | none => rfl

/-- The outcomes of retries determine the dedup map. -/
theorem dedup_eq_of_answers {rs rs' : List Record}
    (h : ∀ d, (deliver rs d).1 = (deliver rs' d).1) : (tablesOf rs).dedup = (tablesOf rs').dedup := by
  refine Finmap.ext_lookup fun idem => ?_
  have hnil : ∀ rs : List Record, (tablesOf rs).dedup.lookup [] = none := by
    intro rs
    by_contra hsome
    obtain ⟨out, hout⟩ := Option.ne_none_iff_exists'.mp hsome
    exact (dedup_lookup hout).1 rfl
  by_cases hidem : idem = []
  · rw [hidem, hnil, hnil]
  have hout := congrArg ApplyResult.outcome (h (probeDelete idem))
  rw [deliver_probeDelete rs hidem, deliver_probeDelete rs' hidem] at hout
  cases hl : (tablesOf rs).dedup.lookup idem with
  | none =>
      cases hl' : (tablesOf rs').dedup.lookup idem with
      | none => rfl
      | some out' => simp [hl, hl', outcomeAt] at hout
  | some out =>
      cases hl' : (tablesOf rs').dedup.lookup idem with
      | none => simp [hl, hl', outcomeAt] at hout
      | some out' =>
          obtain ⟨position, rfl⟩ := (dedup_lookup hl).2
          obtain ⟨position', rfl⟩ := (dedup_lookup hl').2
          simp [hl, hl', outcomeAt] at hout
          rw [hout]

/-- **Interchangeable replicas** are those with the same index, dedup map and next position. -/
theorem interchangeable_iff {e e' : Engine} {rs rs' : List Record} (h : Represents e rs) (h' : Represents e' rs') :
    Interchangeable e e' ↔ SameState e e' := by
  constructor
  · intro hsame
    have hanswers : ∀ d, (deliver rs d).1 = (deliver rs' d).1 := by
      intro d
      have hone := (hsame [d]).1
      rw [(run_delivers h [d]).1, (run_delivers h' [d]).1] at hone
      exact (List.cons.inj hone).1
    have hdedup := dedup_eq_of_answers hanswers
    have hnext := congrArg (fun r => r.outcome.commitPosition) (hanswers probePut)
    rw [← h.tables, ← h'.tables] at hdedup
    exact ⟨index_eq_of_get (hsame []).2, hdedup, h.holds.next.trans (hnext.trans h'.holds.next.symm)⟩
  · intro hstate further
    have htables : e.toTables = e'.toTables := Tables.ext hstate.index hstate.dedup
    have hfuture : SameFuture rs rs' :=
      ⟨h.tables.symm.trans (htables.trans h'.tables), h.holds.next.symm.trans (hstate.next.trans h'.holds.next)⟩
    obtain ⟨hout, hlast⟩ := run_delivers h further
    obtain ⟨hout', hlast'⟩ := run_delivers h' further
    obtain ⟨hrun, hend⟩ := sameFuture_run hfuture further
    refine ⟨hout.trans (hrun.trans hout'.symm), fun key now => ?_⟩
    rw [hlast.tables, hlast'.tables, hend.tables]

/-! ## What a restore leaves behind -/

theorem loaded_snoc (entries : List SnapshotEntry) (ent : SnapshotEntry) :
    loaded (entries ++ [ent]) = loaded entries ++ [stamp ent.call.record (nextPosition (loaded entries))] := by
  unfold loaded
  rw [List.map_append, run_append]
  rfl

theorem loaded_part {entries more : List SnapshotEntry} (h : entries <+: more) : loaded entries <+: loaded more := by
  obtain ⟨rest, rfl⟩ := h
  induction rest using List.reverseRecOn with
  | nil => rw [List.append_nil]
  | append_singleton rest ent ih =>
      rw [← List.append_assoc, loaded_snoc]
      exact ih.trans (List.prefix_append _ _)

theorem length_loaded (entries : List SnapshotEntry) : (loaded entries).length = entries.length := by
  induction entries using List.reverseRecOn with
  | nil => rfl
  | append_singleton entries ent ih =>
      rw [loaded_snoc, List.length_append, ih, List.length_append, List.length_singleton, List.length_singleton]

theorem loaded_take (entries : List SnapshotEntry) {k : Nat} (hk : k ≤ entries.length) :
    (loaded entries).take k = loaded (entries.take k) := by
  have hpart := List.prefix_iff_eq_take.mp (loaded_part (List.take_prefix k entries))
  rw [length_loaded, List.length_take, Nat.min_eq_left hk] at hpart
  exact hpart.symm

theorem nextPosition_loaded (entries : List SnapshotEntry) :
    nextPosition (loaded entries) = 1 + UInt64.ofNat entries.length := by
  rw [nextPosition, length_loaded]

theorem dedup_loaded (entries : List SnapshotEntry) : (tablesOf (loaded entries)).dedup = ∅ := by
  induction entries using List.reverseRecOn with
  | nil => rfl
  | append_singleton entries ent ih =>
      rw [loaded_snoc, tablesOf_snoc]
      exact ih

theorem lookup_loaded_snoc (entries : List SnapshotEntry) (ent : SnapshotEntry) (key : Bytes) :
    (tablesOf (loaded (entries ++ [ent]))).index.lookup key =
      if key = ent.key then some ⟨ent.value, 1 + UInt64.ofNat entries.length, expiryTime ent.expiresAtUnixNano⟩
      else (tablesOf (loaded entries)).index.lookup key := by
  rw [loaded_snoc, tablesOf_snoc, nextPosition_loaded]
  show ((tablesOf (loaded entries)).index.insert ent.key _).lookup key = _
  by_cases hkey : key = ent.key
  · rw [if_pos hkey, hkey, Finmap.lookup_insert]
    rfl
  · rw [if_neg hkey, Finmap.lookup_insert_of_ne _ hkey]

theorem lookup_loaded_none {entries : List SnapshotEntry} {key : Bytes} (h : ∀ ent ∈ entries, ent.key ≠ key) :
    (tablesOf (loaded entries)).index.lookup key = none := by
  induction entries using List.reverseRecOn with
  | nil => exact Finmap.lookup_empty key
  | append_singleton entries ent ih =>
      rw [lookup_loaded_snoc, if_neg (fun hkey => h ent (by simp) hkey.symm), ih (fun x hx => h x (by simp [hx]))]

/-- The entry listed at `j` comes back at the version `j + 1`. -/
theorem lookup_loaded {entries : List SnapshotEntry} (hkeys : (entries.map SnapshotEntry.key).Nodup) {j : Nat}
    {ent : SnapshotEntry} (hj : entries[j]? = some ent) : (tablesOf (loaded entries)).index.lookup ent.key =
      some ⟨ent.value, 1 + UInt64.ofNat j, expiryTime ent.expiresAtUnixNano⟩ := by
  induction entries using List.reverseRecOn with
  | nil => cases hj
  | append_singleton entries last ih =>
      rw [List.map_append, List.nodup_append] at hkeys
      obtain ⟨hkeys, -, hlast⟩ := hkeys
      rw [lookup_loaded_snoc]
      rcases Nat.lt_or_ge j entries.length with hlt | hge
      · rw [List.getElem?_append_left hlt] at hj
        have hmem : ent.key ∈ entries.map SnapshotEntry.key :=
          List.mem_map_of_mem (List.mem_of_getElem? hj)
        rw [if_neg (hlast ent.key hmem last.key (by simp)), ih hkeys hj]
      · rw [List.getElem?_append_right hge, List.getElem?_singleton] at hj
        split_ifs at hj with hzero
        cases hj
        have hjlen : j = entries.length := by omega
        rw [if_pos rfl, hjlen]

/-! ## Snapshot and restore -/

/-- The entry of a snapshot for a live key. -/
def snapshotEntry (x : Σ _ : Bytes, Entry) : SnapshotEntry :=
  ⟨x.1, x.2.value, if x.2.expiresAt ≠ zeroTime then Int64.ofInt x.2.expiresAt else 0⟩

theorem snapshotOf_eq (now : Bytes → Time) (entries : List (Σ _ : Bytes, Entry)) :
    snapshotOf now entries = (entries.filter (fun x => !expired x.2 (now x.1))).map snapshotEntry := by
  induction entries with
  | nil => rfl
  | cons x entries ih =>
      rw [List.filter_cons]
      unfold snapshotOf at ih ⊢
      rw [List.filterMap_cons, ih]
      rcases Bool.eq_false_or_eq_true (expired x.2 (now x.1)) with hexp | hexp
      · simp [hexp]
      · simp [hexp, snapshotEntry]

theorem filter_live {now : Bytes → Time} {entries : List (Σ _ : Bytes, Entry)}
    (hlive : ∀ x ∈ entries, expired x.2 (now x.1) = false) :
    entries.filter (fun x => !expired x.2 (now x.1)) = entries :=
  List.filter_eq_self.mpr fun x hx => by rw [hlive x hx]; rfl

theorem mem_snapshotOf {now : Bytes → Time} {entries : List (Σ _ : Bytes, Entry)} {ent : SnapshotEntry} :
    ent ∈ snapshotOf now entries ↔ ∃ x ∈ entries, expired x.2 (now x.1) = false ∧ snapshotEntry x = ent := by
  rw [snapshotOf_eq, List.mem_map]
  simp only [List.mem_filter, Bool.not_eq_true', and_assoc]

theorem expiryTime_snapshotEntry {key : Bytes} {ent : Entry} (h : ∃ exp, ent.expiresAt = expiryTime exp) :
    expiryTime (snapshotEntry ⟨key, ent⟩).expiresAtUnixNano = ent.expiresAt := by
  obtain ⟨exp, hexp⟩ := h
  unfold snapshotEntry
  dsimp only
  rw [hexp]
  unfold expiryTime
  by_cases hpos : exp > 0
  · have hnat : 0 < exp.toInt := Int64.lt_iff_toInt_lt.mp hpos
    have hne : exp.toInt ≠ zeroTime := by
      unfold zeroTime
      omega
    rw [if_pos hpos, if_pos hne, Int64.ofInt_toInt, if_pos hpos]
  · rw [if_neg hpos]
    rfl

/-- The engine has done nothing but write the entries once each, in the order in which the snapshot lists them, and
nothing of it has expired. -/
structure Replayable (e : Engine) (now : Bytes → Time) (entries : List (Σ _ : Bytes, Entry)) : Prop where
  dedup : e.dedup = ∅
  live : ∀ x ∈ entries, expired x.2 (now x.1) = false
  versions : ∀ j x, entries[j]? = some x → x.2.version = 1 + UInt64.ofNat j
  next : e.log.next = 1 + UInt64.ofNat entries.length

section Restored
variable {rs : List Record} {now : Bytes → Time} {entries : List (Σ _ : Bytes, Entry)}
  (hentries : (entries : Multiset (Σ _ : Bytes, Entry)) = (tablesOf rs).index.entries)
include hentries

theorem nodup_keys : (entries.map Sigma.fst).Nodup := by
  have h := (tablesOf rs).index.nodupKeys
  rw [← hentries, Multiset.coe_nodupKeys] at h
  exact h

theorem lookup_iff_mem {key : Bytes} {ent : Entry} :
    (tablesOf rs).index.lookup key = some ent ↔ (⟨key, ent⟩ : Σ _ : Bytes, Entry) ∈ entries := by
  rw [Finmap.lookup_eq_some_iff, ← hentries]
  exact Multiset.mem_coe

/-- The live entry listed at `j` comes back at the version `j + 1`. -/
theorem lookup_restored {j : Nat} {x : Σ _ : Bytes, Entry}
    (hj : (entries.filter (fun x => !expired x.2 (now x.1)))[j]? = some x) :
    (tablesOf (loaded (snapshotOf now entries))).index.lookup x.1 = some ⟨x.2.value, 1 + UInt64.ofNat j, x.2.expiresAt⟩ := by
  have hkeys : ((snapshotOf now entries).map SnapshotEntry.key).Nodup := by
    rw [snapshotOf_eq, List.map_map]
    exact (nodup_keys hentries).sublist (List.filter_sublist.map Sigma.fst)
  have hx : x ∈ entries := List.mem_of_mem_filter (List.mem_of_getElem? hj)
  have hexp := index_lookup_expiry ((lookup_iff_mem hentries).mpr hx)
  have hget : (snapshotOf now entries)[j]? = some (snapshotEntry x) := by
    rw [snapshotOf_eq, List.getElem?_map, hj, Option.map_some]
  rw [show x.1 = (snapshotEntry x).key from rfl, lookup_loaded hkeys hget, expiryTime_snapshotEntry hexp]
  rfl

theorem lookup_restored_expired {x : Σ _ : Bytes, Entry} (hx : x ∈ entries) (hexp : expired x.2 (now x.1) = true) :
    (tablesOf (loaded (snapshotOf now entries))).index.lookup x.1 = none := by
  refine lookup_loaded_none fun ent hent hkey => ?_
  obtain ⟨y, hy, hlive, rfl⟩ := mem_snapshotOf.mp hent
  have hyx : y = x := List.inj_on_of_nodup_map (nodup_keys hentries) hy hx hkey
  rw [hyx, hexp] at hlive
  cases hlive

theorem lookup_restored_absent {key : Bytes} (h : (tablesOf rs).index.lookup key = none) :
    (tablesOf (loaded (snapshotOf now entries))).index.lookup key = none := by
  refine lookup_loaded_none fun ent hmem hkey => ?_
  obtain ⟨x, hx, -, rfl⟩ := mem_snapshotOf.mp hmem
  rw [← hkey, show (snapshotEntry x).key = x.1 from rfl, (lookup_iff_mem hentries).mpr hx] at h
  cases h

/-- A restore gives the index back exactly when no entry has expired and the versions are those of the list. -/
theorem index_restored_iff : (tablesOf rs).index = (tablesOf (loaded (snapshotOf now entries))).index ↔
    (∀ x ∈ entries, expired x.2 (now x.1) = false) ∧
      ∀ j x, entries[j]? = some x → x.2.version = 1 + UInt64.ofNat j := by
  constructor
  · intro heq
    have hlive : ∀ x ∈ entries, expired x.2 (now x.1) = false := by
      intro x hx
      by_contra hexp
      have hnone := lookup_restored_expired hentries hx (Bool.eq_true_of_not_eq_false hexp)
      rw [← heq, (lookup_iff_mem hentries).mpr hx] at hnone
      cases hnone
    refine ⟨hlive, fun j x hj => ?_⟩
    have hsome := lookup_restored hentries ((filter_live hlive).symm ▸ hj)
    rw [← heq, (lookup_iff_mem hentries).mpr (List.mem_of_getElem? hj)] at hsome
    exact congrArg Entry.version (Option.some.inj hsome)
  · rintro ⟨hlive, hversions⟩
    refine Finmap.ext_lookup fun key => ?_
    cases hent : (tablesOf rs).index.lookup key with
    | none => exact (lookup_restored_absent hentries hent).symm
    | some ent =>
        obtain ⟨j, hj⟩ := List.mem_iff_getElem?.mp ((lookup_iff_mem hentries).mp hent)
        have hsome := lookup_restored hentries ((filter_live hlive).symm ▸ hj)
        rw [hsome, ← hversions j _ hj]

end Restored

/-- **Restoring a snapshot.** `ds` has led to the source, `ds'` to the receiving replica, `entries` is the order in
which the source's map is walked and `now` the clock it is walked by. The restore succeeds, and the restored replica is
interchangeable with the source exactly when the source has done nothing but write the listed entries once each, in
this order, and none of them has expired. -/
theorem restored_interchangeable_iff (ds ds' : List Delivery) (now : Bytes → Time) (entries : List (Σ _ : Bytes, Entry))
    (hentries : (entries : Multiset (Σ _ : Bytes, Entry)) = (run Fsm.step fresh ds).2.index.entries) :
    ∃ restored, Fsm.restore (run Fsm.step fresh ds').2 FsmIO.ok (.ok (snapshotOf now entries)) = (none, restored) ∧
      (Interchangeable (run Fsm.step fresh ds).2 restored ↔ Replayable (run Fsm.step fresh ds).2 now entries) := by
  have hsource := (run_delivers represents_fresh ds).2
  obtain ⟨restored, hrestore, hrestored⟩ :=
    restore_represents (run_delivers represents_fresh ds').2 (snapshotOf now entries)
  refine ⟨restored, hrestore, (interchangeable_iff hsource hrestored).trans ?_⟩
  rw [hsource.tables] at hentries
  have hindex : (tablesOf (run deliver [] ds).2).index = (tablesOf (loaded (snapshotOf now entries))).index ↔ _ :=
    index_restored_iff hentries
  rw [← hsource.tables, ← hrestored.tables] at hindex
  have hdedup : restored.dedup = ∅ := by
    rw [hrestored.tables]
    exact dedup_loaded _
  have hnext : restored.log.next = 1 + UInt64.ofNat (snapshotOf now entries).length :=
    hrestored.holds.next.trans (nextPosition_loaded _)
  have hlength (hlive : ∀ x ∈ entries, expired x.2 (now x.1) = false) :
      (snapshotOf now entries).length = entries.length := by rw [snapshotOf_eq, List.length_map, filter_live hlive]
  constructor
  · rintro ⟨hi, hd, hn⟩
    obtain ⟨hlive, hversions⟩ := hindex.mp hi
    exact ⟨hd.trans hdedup, hlive, hversions, by rw [hn, hnext, hlength hlive]⟩
  · rintro ⟨hd, hlive, hversions, hn⟩
    exact ⟨hindex.mpr ⟨hlive, hversions⟩, hd.trans hdedup.symm, by rw [hn, hnext, hlength hlive]⟩

/-- Puts of one key without an idempotency key. -/
def putAgain (n : Nat) : List Delivery := List.replicate n ⟨⟨.ok ⟨OpPut, [107], [118], 0, 0, [], []⟩, 1⟩, 0⟩

/-- After two puts of one key its version is 2; in the replica restored from the snapshot it is 1. -/
theorem restored_version_lost : ∃ restored,
    (run Fsm.step fresh (putAgain 2)).2.Snapshot (fun _ => 0) [⟨[107], [118], 0⟩] ∧
    Fsm.restore fresh FsmIO.ok (.ok [⟨[107], [118], 0⟩]) = (none, restored) ∧
    (run Fsm.step fresh (putAgain 2)).2.get [107] 0 = some ([118], 2) ∧ restored.get [107] 0 = some ([118], 1) := by
  have hsource := (run_delivers represents_fresh (putAgain 2)).2
  obtain ⟨restored, hrestore, hrestored⟩ := restore_represents represents_fresh [⟨[107], [118], 0⟩]
  refine ⟨restored, ⟨[⟨[107], ⟨[118], 2, zeroTime⟩⟩], ?_, by decide +kernel⟩, hrestore, ?_, ?_⟩
  · rw [hsource.tables]
    decide +kernel
  · rw [hsource.tables]
    decide +kernel
  · rw [hrestored.tables]
    decide +kernel

/-- After a single put the restored replica is as good as its source. -/
theorem restored_single_put : ∃ restored,
    Fsm.restore (run Fsm.step fresh (putAgain 2)).2 FsmIO.ok (.ok (snapshotOf (fun _ => 0)
      [⟨[107], ⟨[118], 1, zeroTime⟩⟩])) = (none, restored) ∧
      Interchangeable (run Fsm.step fresh (putAgain 1)).2 restored := by
  have hsource := (run_delivers represents_fresh (putAgain 1)).2
  obtain ⟨restored, hrestore, hiff⟩ := restored_interchangeable_iff (putAgain 1) (putAgain 2) (fun _ => 0)
    [⟨[107], ⟨[118], 1, zeroTime⟩⟩] (by
      rw [hsource.tables]
      decide +kernel)
  refine ⟨restored, hrestore, hiff.mpr ⟨?_, by decide +kernel, ?_, hsource.holds.next.trans (by decide +kernel)⟩⟩
  · rw [hsource.tables]
    decide +kernel
  · intro j x hj
    rw [List.getElem?_singleton] at hj
    split_ifs at hj with hzero
    cases hj
    rw [hzero]
    rfl

end Uddp

import Uddp.Engine.Idempotency
import Uddp.Replication.Service

/-!
# Retries of a replicated request

A client whose request fails with `Unavailable` sends it again, to the same node or to another one, under the same
idempotency key. Both may come into the log.

* `deliver_keysOnce` : no log entry brings a second record of a key;
* `Succeeds` : an operation of the order, and the response it is answered with;
* `RetryInv`, `retry_step` : what the successes under one key have in common;
* **`retries_commit_once`** : all successful answers under one key name the same record.
-/

namespace Uddp
open Uddp.Lib Uddp.Wal

/-! ## The log -/

theorem deliver_keysOnce {rs : List Record} (h : KeysOnce rs) (d : Delivery) : KeysOnce (deliver rs d).2 := by
  show KeysOnce (answerEffect rs d.effect).2
  cases d.effect with
  | call c => exact answer_keysOnce rs c h
  | wipe => exact List.Pairwise.nil
  | load entries =>
      exact run_invariant (P := fun _ => True) (fun rs c _ h => answer_keysOnce rs c h) List.Pairwise.nil (fun _ _ => trivial)
  | invalid err => exact h

theorem replayed_keysOnce (clock : Nat → Time) (log : List RaftLog) (n : Nat) : KeysOnce (replayed clock log n) := by
  unfold replayed
  exact run_invariant (I := KeysOnce) (P := fun _ => True) (fun _ d _ h => deliver_keysOnce h d) List.Pairwise.nil (fun _ _ => trivial)

/-! ## Successes -/

theorem Mutation.applied_key (m : Mutation) (now : Time) : (m.applied now).record.idempotencyKey = m.idempotencyKey := by
  cases m <;> rfl

theorem Mutation.handle_propose {quote : String → String} {spec : NamespaceSpec} {m : Mutation} {cmd : Command}
    (h : m.request.handle quote spec true = .propose cmd) : cmd = m.command := by
  rw [Mutation.handle_request] at h
  unfold mutation at h
  split at h
  · cases h
  · exact (Handling.propose.inj h).symm

theorem Mutation.deliver_command (rs : List Record) (m : Mutation) (term : UInt64) (now : Time) :
    deliver rs ⟨⟨.ok m.command, term⟩, now⟩ =
      (⟨(Fsm.pairOf (answer rs (m.applied now)).1).1, (Fsm.pairOf (answer rs (m.applied now)).1).2, term⟩,
        (answer rs (m.applied now)).2) := by
  have heffect : (⟨⟨.ok m.command, term⟩, now⟩ : Delivery).effect = .call (m.applied now) := m.command_effect now
  unfold deliver
  rw [heffect]
  rfl

theorem Mutation.finish_request (quoteBytes : Bytes → String) (spec : NamespaceSpec) (m : Mutation)
    (result : Except String ApplyResult) :
    m.request.finish quoteBytes spec result = .mutation (StateServer.finish quoteBytes spec m.op result) := by
  cases m <;> rfl

theorem finish_success {quoteBytes : Bytes → String} {spec : NamespaceSpec} {op : String}
    {result : Except EngineError Outcome} {term : UInt64} {resp : MutationResponse}
    (h : StateServer.finish quoteBytes spec op (.ok ⟨(Fsm.pairOf result).1, (Fsm.pairOf result).2, term⟩) = .ok resp) :
    ∃ out, result = .ok out ∧ resp.commitPosition = out.commitPosition ∧ resp.version = out.version ∧
      resp.deduplicated = out.deduplicated := by
  cases result with
  | error err =>
      cases err with
      | versionMismatch => cases h
      | wal err => cases h
  | ok out =>
      refine ⟨out, rfl, ?_⟩
      cases h
      exact ⟨rfl, rfl, rfl⟩

/-! ## The successes under one key -/

section Retries
variable {ι ω : Type}

/-- The operation is the mutation `m`, and it is answered with `resp`. -/
structure Succeeds (x : ω × (ι × Request) × ServiceAnswer) (m : Mutation) (resp : MutationResponse) : Prop where
  request : x.2.1.2 = m.request
  answer : x.2.2 = .mutation (.ok resp)

/-- The operations `L` have led to the history `rs`. -/
structure RetryInv (L : List (ω × (ι × Request) × ServiceAnswer)) (rs : List Record) : Prop where
  once : KeysOnce rs
  found : ∀ x ∈ L, ∀ m resp, Succeeds x m resp → m.idempotencyKey ≠ [] → ∃ r ∈ rs,
    r.idempotencyKey = m.idempotencyKey ∧ resp.commitPosition = r.commitPosition ∧ resp.version = r.commitPosition
  repeated : L.Pairwise fun x x' => ∀ m m' resp resp', Succeeds x m resp → Succeeds x' m' resp' →
    m.idempotencyKey ≠ [] → m'.idempotencyKey = m.idempotencyKey → resp'.deduplicated = true

theorem KeysOnce.eq {rs : List Record} (h : KeysOnce rs) {r r' : Record} (hr : r ∈ rs) (hr' : r' ∈ rs)
    (hne : r.idempotencyKey ≠ []) (heq : r.idempotencyKey = r'.idempotencyKey) : r = r' := by
  by_contra hrr
  have hsymm : Std.Symm fun r r' : Record => r.idempotencyKey ≠ [] → r.idempotencyKey ≠ r'.idempotencyKey :=
    ⟨fun a b hab hb heq => hab (heq ▸ hb) heq.symm⟩
  exact List.Pairwise.forall h hr hr' hrr hne heq

theorem RetryInv.refused {L : List (ω × (ι × Request) × ServiceAnswer)} {rs : List Record} (h : RetryInv L rs)
    {x : ω × (ι × Request) × ServiceAnswer} (hx : ∀ m resp, ¬Succeeds x m resp) : RetryInv (L ++ [x]) rs := by
  refine ⟨h.once, fun y hy m resp hsucceeds => ?_, List.pairwise_append.mpr ⟨h.repeated, List.pairwise_singleton _ _, ?_⟩⟩
  · rcases List.mem_append.mp hy with hold | hlast
    · exact h.found y hold m resp hsucceeds
    · exact absurd (List.mem_singleton.mp hlast ▸ hsucceeds) (hx m resp)
  · intro y _ z hz m m' resp resp' _ hsucceeds
    exact absurd (List.mem_singleton.mp hz ▸ hsucceeds) (hx m' resp')

theorem RetryInv.answered {L : List (ω × (ι × Request) × ServiceAnswer)} {rs : List Record} (h : RetryInv L rs) {c : Call}
    {x : ω × (ι × Request) × ServiceAnswer} {mx : Mutation} (hmx : x.2.1.2 = mx.request)
    (hkey : c.record.idempotencyKey = mx.idempotencyKey) (hx : ∀ resp, x.2.2 = .mutation (.ok resp) → ∃ out,
      (answer rs c).1 = .ok out ∧ resp.commitPosition = out.commitPosition ∧ resp.version = out.version ∧
        resp.deduplicated = out.deduplicated) : RetryInv (L ++ [x]) (answer rs c).2 := by
  have hkept : rs ⊆ (answer rs c).2 := by
    rcases answer_history rs c with hsame | ⟨-, hnew⟩
    · rw [hsame]
      exact List.Subset.refl _
    · rw [hnew]
      exact List.subset_append_left _ _
  have hsame : ∀ m resp, Succeeds x m resp → m.idempotencyKey = mx.idempotencyKey := by
    intro m resp hsucceeds
    have hreq := hsucceeds.request.symm.trans hmx
    cases m <;> cases mx <;> cases hreq <;> rfl
  have honce := answer_keysOnce rs c h.once
  refine ⟨honce, ?_, List.pairwise_append.mpr ⟨h.repeated, List.pairwise_singleton _ _, ?_⟩⟩
  · intro y hy m resp hsucceeds hne
    rcases List.mem_append.mp hy with hold | hlast
    · obtain ⟨r, hr, hfound⟩ := h.found y hold m resp hsucceeds hne
      exact ⟨r, hkept hr, hfound⟩
    · rw [List.mem_singleton.mp hlast] at hsucceeds
      obtain ⟨out, hout, hpos, hversion, -⟩ := hx resp hsucceeds.answer
      have hm := hsame m resp hsucceeds
      obtain ⟨r, hr, hrkey, hrpos, hrversion, -⟩ := answer_keyed (by rwa [hkey, ← hm]) hout
      exact ⟨r, hr, by rw [hrkey, hkey, hm], hpos.trans hrpos, hversion.trans hrversion⟩
  · -- the record of the earlier success was there before
    intro y hy z hz m m' resp resp' hold hsucceeds hne heq
    rw [List.mem_singleton.mp hz] at hsucceeds
    obtain ⟨out, hout, -, -, hdedup⟩ := hx resp' hsucceeds.answer
    have hm := hsame m' resp' hsucceeds
    obtain ⟨r, hr, hrkey, -⟩ := h.found y hy m resp hold hne
    obtain ⟨r', hr', hrkey', -, -, hiff⟩ := answer_keyed (by rw [hkey, ← hm, heq]; exact hne) hout
    have hrr : r = r' := honce.eq (hkept hr) hr' (by rw [hrkey]; exact hne) (by rw [hrkey, hrkey', hkey, ← hm, heq])
    rw [hdedup]
    exact hiff.mpr (hrr ▸ hr)

theorem retry_step {quote : String → String} {quoteBytes : Bytes → String} {spec : ι → NamespaceSpec} {clock : Nat → Time}
    {L : List (ω × (ι × Request) × ServiceAnswer)} {s s' : Replicated} (h : RetryInv L s.records) {o : ω} {i : ι}
    {m : Mutation} {r : ServiceAnswer} (hspec : ServiceSpec quote quoteBytes spec clock s (i, m.request) r s') :
    RetryInv (L ++ [(o, (i, m.request), r)]) s'.records := by
  unfold ServiceSpec at hspec
  cases hhandle : m.request.handle quote (spec i) true with
  | refuse status =>
      simp only [hhandle] at hspec
      obtain ⟨rfl, rfl⟩ := hspec
      refine h.refused fun m' resp hsucceeds => ?_
      have hanswer := hsucceeds.answer
      cases m <;> cases hanswer
  | propose cmd =>
      simp only [hhandle] at hspec
      obtain ⟨term, rfl, rfl⟩ := hspec
      rw [Mutation.handle_propose hhandle, Mutation.deliver_command, Mutation.finish_request]
      refine h.answered rfl (m.applied_key _) fun resp hresp => ?_
      exact finish_success (ServiceAnswer.mutation.inj hresp)
  | call c =>
      simp only [hhandle] at hspec
  | reset =>
      simp only [hhandle] at hspec
  | load entries =>
      simp only [hhandle] at hspec

/-- The service is asked for mutations of the native API only. -/
def ServiceAction.Native : ServiceAction ι ω → Prop
  | .invoke _ _ (.restoreBackup _ _) | .invoke _ _ (.deleteNamespace _) => False
  | .invoke _ _ _ | .handle _ | .commit _ _ | .fail _ | .apply _ | .respond _ _ => True

theorem retry_run {quote : String → String} {quoteBytes : Bytes → String} {spec : ι → NamespaceSpec} {clock : Nat → Time}
    {L : List (ω × (ι × Request) × ServiceAnswer)} {s : Replicated}
    (hrun : SpecRun (ServiceSpec quote quoteBytes spec clock) ⟨[], 0⟩ L s)
    (hnative : ∀ x ∈ L, ∃ m : Mutation, x.2.1.2 = m.request) : RetryInv L s.records := by
  induction hrun with
  | start => exact ⟨List.Pairwise.nil, fun _ hx => absurd hx List.not_mem_nil, List.Pairwise.nil⟩
  | @snoc L s s' o op r before last ih =>
      obtain ⟨i, req⟩ := op
      obtain ⟨m, hm⟩ := hnative (o, (i, req), r) (by simp)
      cases hm
      exact retry_step (ih fun x hx => hnative x (List.mem_append_left _ hx)) last

/-- Two different successes under one key: one of them is a repetition. -/
theorem RetryInv.one_repeated {L : List (ω × (ι × Request) × ServiceAnswer)} {rs : List Record} (h : RetryInv L rs)
    {x x' : ω × (ι × Request) × ServiceAnswer} (hx : x ∈ L) (hx' : x' ∈ L) (hne : x ≠ x') {m m' : Mutation}
    {resp resp' : MutationResponse} (hs : Succeeds x m resp) (hs' : Succeeds x' m' resp') (hkey : m.idempotencyKey ≠ [])
    (heq : m'.idempotencyKey = m.idempotencyKey) : resp.deduplicated = true ∨ resp'.deduplicated = true := by
  obtain ⟨R, hR⟩ : ∃ R : ω × (ι × Request) × ServiceAnswer → ω × (ι × Request) × ServiceAnswer → Prop, R = fun x x' =>
    ∀ m m' resp resp', Succeeds x m resp → Succeeds x' m' resp' → m.idempotencyKey ≠ [] →
      m'.idempotencyKey = m.idempotencyKey → resp.deduplicated = true ∨ resp'.deduplicated = true := ⟨_, rfl⟩
  have hsymm : Std.Symm R := by
    refine ⟨fun a b hab => ?_⟩
    rw [hR] at hab ⊢
    intro m m' resp resp' ha hb hkey heq
    exact (hab m' m resp' resp hb ha (heq ▸ hkey) heq.symm).symm
  have hpairs : L.Pairwise R := by
    rw [hR]
    exact h.repeated.imp fun hab m m' resp resp' ha hb hkey heq => Or.inr (hab m m' resp resp' ha hb hkey heq)
  have hxx := List.Pairwise.forall hpairs hx hx' hne
  rw [hR] at hxx
  exact hxx m m' resp resp' hs hs' hkey heq

end Retries

/-- **Retries are safe.** As long as nobody restores a backup or deletes the namespace: no node has two records of one
idempotency key. All successful answers to requests with the same key, whichever nodes they came to, name the same commit
position and version, and at most one of them is not marked as deduplicated. This is so whatever has become of the requests in
between that failed. -/
theorem retries_commit_once {ι ω : Type} [DecidableEq ι] [DecidableEq ω] (quote : String → String)
    (quoteBytes : Bytes → String) (spec : ι → NamespaceSpec) (clock : Nat → Time) (as : List (ServiceAction ι ω))
    (hnative : ∀ a ∈ as, a.Native) {x : Service ι ω}
    (hrun : runActions (Service.step quote quoteBytes spec clock) Service.start as = some x) :
    (∀ i, ∃ rs, Represents (x.cluster.node i).engine rs ∧ KeysOnce rs) ∧
    ∀ o o' i i' m m' resp resp', o ≠ o' → .invoke o (i, Mutation.request m) ∈ as.filterMap ServiceAction.seen →
      .invoke o' (i', Mutation.request m') ∈ as.filterMap ServiceAction.seen →
      .respond o (.mutation (.ok resp)) ∈ as.filterMap ServiceAction.seen →
      .respond o' (.mutation (.ok resp')) ∈ as.filterMap ServiceAction.seen →
      m.idempotencyKey ≠ [] → m'.idempotencyKey = m.idempotencyKey →
      resp'.commitPosition = resp.commitPosition ∧ resp'.version = resp.version ∧
        (resp.deduplicated = true ∨ resp'.deduplicated = true) := by
  obtain ⟨t, L, hinv, hlin⟩ := service_run hrun
  refine ⟨fun i => ⟨_, (hinv.driven i).represents, replayed_keysOnce clock _ _⟩, ?_⟩
  have hops : ∀ y ∈ L, ∃ m : Mutation, y.2.1.2 = m.request := by
    rintro ⟨o, ⟨i, req⟩, r⟩ hy
    obtain ⟨a, ha, hseen⟩ := List.mem_filterMap.mp (hlin.invoked o (i, req) r hy)
    have hafit := hnative a ha
    cases a with
    | invoke o' i' req' =>
        cases hseen
        cases req with
        | put req now => exact ⟨.put req now, rfl⟩
        | delete req => exact ⟨.delete req, rfl⟩
        | compareAndSet req now now' => exact ⟨.compareAndSet req now now', rfl⟩
        | restoreBackup path backup => exact hafit.elim
        | deleteNamespace confirm => exact hafit.elim
    | respond o' answer => cases hseen
    | handle o' => cases hseen
    | commit o' term => cases hseen
    | fail o' => cases hseen
    | apply i' => cases hseen
  have hretry := retry_run hlin.legal hops
  -- an answered mutation stands in the order with its answer
  have hplace : ∀ o i m resp, .invoke o (i, Mutation.request m) ∈ as.filterMap ServiceAction.seen →
      .respond o (.mutation (.ok resp)) ∈ as.filterMap ServiceAction.seen → (o, (i, m.request), .mutation (.ok resp)) ∈ L := by
    intro o i m resp hinvoke hrespond
    obtain ⟨op, hop⟩ := hlin.responded o _ hrespond
    rwa [hlin.wellFormed.invoke_unique hinvoke (hlin.invoked o op _ hop)]
  intro o o' i i' m m' resp resp' hne hinvoke hinvoke' hrespond hrespond' hkey heq
  have hx := hplace o i m resp hinvoke hrespond
  have hx' := hplace o' i' m' resp' hinvoke' hrespond'
  obtain ⟨r, hr, hrkey, hrpos, hrversion⟩ := hretry.found _ hx m resp ⟨rfl, rfl⟩ hkey
  obtain ⟨r', hr', hrkey', hrpos', hrversion'⟩ := hretry.found _ hx' m' resp' ⟨rfl, rfl⟩ (heq ▸ hkey)
  have hrr : r = r' := hretry.once.eq hr hr' (hrkey ▸ hkey) (by rw [hrkey, hrkey', heq])
  rw [← hrr] at hrpos' hrversion'
  exact ⟨hrpos'.trans hrpos.symm, hrversion'.trans hrversion.symm,
    hretry.one_repeated hx hx' (fun h => hne (congrArg Prod.fst h)) ⟨rfl, rfl⟩ ⟨rfl, rfl⟩ hkey heq⟩

/-- The put that is sent three times. -/
def keyedPut : PutRequest := ⟨"ns", [0x6b], [0x76], 0, [0x31]⟩

/-- Both answers that come back carry the position of the attempt that failed. -/
def secondAnswer : MutationResponse := ⟨"ns", 0, 1, 1, "cache", true, 1⟩

def thirdAnswer : MutationResponse := ⟨"ns", 0, 2, 1, "cache", true, 1⟩

/-- The first attempt fails, and the client tries another node. Raft commits the first attempt before the second one, and a
third one comes later. -/
def threeAttempts : List (ServiceAction Bool Nat) :=
  [.invoke 0 false (.put keyedPut 0), .handle 0, .fail 0, .invoke 1 true (.put keyedPut 0), .handle 1, .commit 0 1,
    .commit 1 1, .apply true, .apply true, .respond 1 (.mutation (.ok secondAnswer)), .invoke 2 false (.put keyedPut 0),
    .handle 2, .commit 2 2, .apply false, .apply false, .apply false, .respond 2 (.mutation (.ok thirdAnswer))]

theorem retries_commit_three : ∃ x : Service Bool Nat,
    runActions (Service.step id (fun _ => "") (fun _ => demoSpec) (fun _ => 0)) Service.start threeAttempts = some x ∧
      (∀ i, ∃ rs, Represents (x.cluster.node i).engine rs ∧ KeysOnce rs) ∧
      thirdAnswer.commitPosition = secondAnswer.commitPosition ∧ thirdAnswer.version = secondAnswer.version := by
  have hrun : (runActions (Service.step id (fun _ => "") (fun _ => demoSpec) (fun _ => 0)) Service.start
      threeAttempts).isSome = true := by decide +kernel
  obtain ⟨x, hx⟩ := Option.isSome_iff_exists.mp hrun
  have hnative : ∀ a ∈ threeAttempts, a.Native := by simp [threeAttempts, ServiceAction.Native]
  obtain ⟨honce, hsame⟩ := retries_commit_once id (fun _ => "") (fun _ => demoSpec) (fun _ => 0) threeAttempts hnative hx
  obtain ⟨hposition, hversion, -⟩ := hsame 1 2 true false (.put keyedPut 0) (.put keyedPut 0) secondAnswer thirdAnswer
    (by decide) (by simp [threeAttempts, ServiceAction.seen, Mutation.request])
    (by simp [threeAttempts, ServiceAction.seen, Mutation.request]) (by simp [threeAttempts, ServiceAction.seen])
    (by simp [threeAttempts, ServiceAction.seen]) (by decide) rfl
  exact ⟨x, hx, honce, hposition, hversion⟩

end Uddp

import Uddp.Api.Stream
import Uddp.Engine.Lives

/-!
# Paging through the change stream

A client asks for one page after the other, each from the offset that the last one named, while mutations are committed
and the node restarts.

* `Pager` : the engine, the offset the client will ask from and what it has received;
* `Paged p` : the client has received the first `k` records of the log and will ask from behind them;
* **`paging_complete`** : nothing is lost and nothing comes twice.
-/

namespace Uddp
open Uddp.Lib Uddp.Wal

structure Pager where
  engine : Engine
  fromOffset : UInt64
  delivered : List Native.ChangeRecord

inductive PagerAction
  | engine (ev : Event)
  | fetch (maxRecords : Int32)

/-- The engine has room for the event and the disk keeps what it leaves. -/
def PagerAction.Sound : PagerAction → Prop
  | .engine ev => ev.Fits ∧ ev.Lasting
  | .fetch _ => True

namespace Pager

def start : Pager := ⟨Uddp.fresh, 1, []⟩

def after (quote : String → String) (spec : NamespaceSpec) (p : Pager) : PagerAction → Option Pager
  | .engine ev => (p.engine.after ev).map (fun e => { p with engine := e })
  | .fetch maxRecords =>
      match StreamServer.fetch quote spec p.engine ⟨spec.id, p.fromOffset, maxRecords⟩ with
      | .ok resp => some { p with fromOffset := resp.nextOffset, delivered := p.delivered ++ resp.records }
      | _ => none

end Pager

/-- The client is behind the first `k` records of the log, all of which it has received. -/
structure Received (p : Pager) (rs : List Record) (k : Nat) : Prop where
  le : k ≤ rs.length
  fromOffset : p.fromOffset = offsetAfter k
  delivered : p.delivered = (rs.take k).map message

/-- As long as Go can index the log. -/
def Paged (p : Pager) (rs : List Record) : Prop :=
  Represents p.engine rs ∧ Sound rs ∧ (rs.length < 2 ^ 63 → ∃ k, Received p rs k)

theorem paged_start : Paged .start [] :=
  ⟨represents_fresh, ⟨by simp, by simp⟩, fun _ => ⟨0, le_rfl, rfl, rfl⟩⟩

section Steps
variable {quote : String → String} {spec : NamespaceSpec} {p p' : Pager} {rs : List Record}

variable (quote spec) in
theorem Received.fetch {k : Nat} (h : Received p rs k) (hp : Represents p.engine rs) (hs : Sound rs) (hlen : rs.length < 2 ^ 63)
    (maxRecords : Int32) :
    StreamServer.fetch quote spec p.engine ⟨spec.id, p.fromOffset, maxRecords⟩ =
        .ok ⟨(pageOf rs k maxRecords).map message, offsetAfter (k + (pageOf rs k maxRecords).length)⟩ ∧
      p.delivered ++ (pageOf rs k maxRecords).map message = (rs.take (k + (pageOf rs k maxRecords).length)).map message ∧
      k + (pageOf rs k maxRecords).length ≤ rs.length := by
  refine ⟨?_, ?_, ?_⟩
  · rw [h.fromOffset]
    exact fetch_page quote spec hp.holds hs.fits (h.le.trans_lt hlen) maxRecords
  · rw [h.delivered, ← List.map_append, take_append_page]
  · exact length_pageOf_le_rest h.le maxRecords

theorem after_paged (h : Paged p rs) {a : PagerAction} (ha : a.Sound) (hafter : p.after quote spec a = some p') :
    ∃ rs', Paged p' rs' := by
  obtain ⟨hp, hs, hreceived⟩ := h
  cases a with
  | engine ev =>
      obtain ⟨e, he, rfl⟩ := Option.map_eq_some_iff.mp hafter
      obtain ⟨rs', hp', hs', hpre⟩ := after_represents_lasting hp hs ha.1 ha.2 he
      refine ⟨rs', hp', hs', fun hlen => ?_⟩
      obtain ⟨k, hk⟩ := hreceived (hpre.length_le.trans_lt hlen)
      exact ⟨k, hk.le.trans hpre.length_le, hk.fromOffset, by rw [take_of_part hpre hk.le]; exact hk.delivered⟩
  | fetch maxRecords =>
      simp only [Pager.after] at hafter
      split at hafter
      · next resp hresp =>
        obtain rfl := Option.some.inj hafter
        refine ⟨rs, hp, hs, fun hlen => ?_⟩
        obtain ⟨k, hk⟩ := hreceived hlen
        obtain ⟨hpage, hdelivered, hle⟩ := hk.fetch quote spec hp hs hlen maxRecords
        rw [hpage] at hresp
        cases hresp
        exact ⟨_, hle, rfl, hdelivered⟩
      · cases hafter

theorem run_paged {as : List PagerAction} (has : ∀ a ∈ as, a.Sound)
    (hrun : runActions (Pager.after quote spec) .start as = some p) : ∃ rs, Paged p rs :=
  runActions_along (P := fun _ a => PagerAction.Sound a) (I := fun p => ∃ rs, Paged p rs)
    (fun _ _ _ ⟨_, hpaged⟩ ha hafter => after_paged hpaged ha hafter) ⟨[], paged_start⟩
    (along_of_mem has Pager.start) hrun

/-- **Paging.** Whatever mutations, restarts and limits there were: what the client has received is the beginning of the
committed log, each record once, in its order and with its own offset; the next page comes, within its limit, and
continues it; and it is empty only when the client has received the whole log. -/
theorem paging_complete {as : List PagerAction} (has : ∀ a ∈ as, a.Sound)
    (hrun : runActions (Pager.after quote spec) .start as = some p) (hlen : p.engine.log.byteOffsets.length < 2 ^ 63) :
    ∃ rs, Represents p.engine rs ∧ p.delivered <+: rs.map message ∧
      p.delivered.map Native.ChangeRecord.offset = (List.range p.delivered.length).map (fun i => UInt64.ofNat (i + 1)) ∧
      ∀ maxRecords, ∃ resp, StreamServer.fetch quote spec p.engine ⟨spec.id, p.fromOffset, maxRecords⟩ = .ok resp ∧
        (resp.records.length : Int) ≤ (if maxRecords.toInt ≤ 0 then 500 else maxRecords.toInt) ∧
        p.delivered ++ resp.records <+: rs.map message ∧ (resp.records = [] → p.delivered = rs.map message) := by
  obtain ⟨rs, hp, hs, hreceived⟩ := run_paged has hrun
  rw [hp.holds.byteOffsets, length_offsetsFrom] at hlen
  obtain ⟨k, hk⟩ := hreceived hlen
  refine ⟨rs, hp, ?_, ?_, fun maxRecords => ?_⟩
  · rw [hk.delivered]
    exact (List.take_prefix k rs).map message
  · have hpositions := stamped_positions (stamped_take hp.holds.stamped k)
    rw [hk.delivered, List.map_map, List.length_map]
    refine Eq.trans hpositions (List.map_congr_left fun i _ => ?_)
    rw [UInt64.ofNat_add, UInt64.add_comm]
    rfl
  · obtain ⟨hpage, hdelivered, hle⟩ := hk.fetch quote spec hp hs hlen maxRecords
    refine ⟨_, hpage, ?_, ?_, fun hempty => ?_⟩
    · rw [List.length_map]
      exact length_pageOf_le rs k maxRecords
    · rw [hdelivered]
      exact (List.take_prefix _ rs).map message
    · have hall := pageOf_eq_nil.mp (List.map_eq_nil_iff.mp hempty)
      rw [hk.delivered, List.take_of_length_le hall]

end Steps

def ordersSpec : NamespaceSpec := ⟨"orders", "state"⟩

/-- Two puts and a page of one record, a delete and a restart, and the rest. -/
def twoPages : List PagerAction :=
  [.engine (.call (.applyPut [0x6b] [0x76] 0 [])), .engine (.call (.applyPut [0x6c] [0x77] 0 [])), .fetch 1,
    .engine (.call (.delete [0x6b] [])), .engine .restart, .fetch 0]

theorem paging_complete_two : ∃ p, runActions (Pager.after id ordersSpec) .start twoPages = some p ∧
    p.delivered = [⟨1, .put, [0x6b], [0x76]⟩, ⟨2, .put, [0x6c], [0x77]⟩, ⟨3, .delete, [0x6b], []⟩] ∧
    ∃ rs, Represents p.engine rs ∧ p.delivered <+: rs.map message := by
  have hsound : ∀ a ∈ twoPages, a.Sound := by
    intro a ha
    simp only [twoPages, List.mem_cons, List.not_mem_nil, or_false] at ha
    rcases ha with rfl | rfl | rfl | rfl | rfl | rfl
    · exact ⟨by decide, trivial⟩
    · exact ⟨by decide, trivial⟩
    · trivial
    · exact ⟨by decide, trivial⟩
    · exact ⟨trivial, trivial⟩
    · trivial
  have hfacts : (runActions (Pager.after id ordersSpec) .start twoPages).map
      (fun p => (p.delivered, p.engine.log.byteOffsets.length)) =
      some ([⟨1, .put, [0x6b], [0x76]⟩, ⟨2, .put, [0x6c], [0x77]⟩, ⟨3, .delete, [0x6b], []⟩], 3) := by
    decide +kernel
  obtain ⟨p, hp, hp'⟩ := Option.map_eq_some_iff.mp hfacts
  obtain ⟨hdelivered, hoffsets⟩ := Prod.mk.inj hp'
  obtain ⟨rs, hrs, hpre, -⟩ := paging_complete hsound hp (by rw [hoffsets]; decide)
  exact ⟨p, hp, hdelivered, rs, hrs, hpre⟩

end Uddp

import Mathlib.Data.List.TakeWhile
import Uddp.Lib.Bytes

/-!
# The flag `--raft-peers`

* `parsePeers` : what `uddp-node` makes of the flag; `formatPeers` : peers written as the flag wants them;
* `parsePeer_iff` : one entry; `parseEntries_iff`, `parseEntries_error` : all of them, and the first that is refused;
* **`parsePeers_iff`** : the flags that are taken are those that `formatPeers` writes.
-/

namespace Uddp
open Uddp.Lib

structure Peer where
  id : Bytes
  addr : Bytes
  deriving DecidableEq, Repr

/-- `strings.SplitN(entry, "=", 2)`. -/
def splitAtEquals (entry : Bytes) : List Bytes :=
  match entry.dropWhile (· ≠ 61) with
  | [] => [entry]
  | _ :: rest => [entry.takeWhile (· ≠ 61), rest]

def parsePeer (entry : Bytes) : Option Peer :=
  match splitAtEquals entry with
  | [id, addr] => if id = [] ∨ addr = [] then none else some ⟨id, addr⟩
  | _ => none

def invalidPeer (quote : Bytes → String) (entry : Bytes) : String :=
  "invalid --raft-peers entry " ++ quote entry ++ ", want id=addr"

/-- The loop of `parsePeers`. -/
def parseEntries (quote : Bytes → String) : List Bytes → Except String (List Peer)
  | [] => .ok []
  | entry :: entries =>
      match parsePeer entry with
      | none => .error (invalidPeer quote entry)
      | some peer =>
          match parseEntries quote entries with
          | .error err => .error err
          | .ok peers => .ok (peer :: peers)

/-- The flag is split at its commas. -/
def parsePeers (quote : Bytes → String) (s : Bytes) : Except String (List Peer) :=
  if s = [] then .ok [] else parseEntries quote (s.splitOn 44)

/-! ## What is written -/

def Peer.text (p : Peer) : Bytes := p.id ++ 61 :: p.addr

def formatPeers (peers : List Peer) : Bytes := [44].intercalate (peers.map Peer.text)

/-- A peer that can be written. -/
structure Peer.Ok (p : Peer) : Prop where
  id : p.id ≠ []
  addr : p.addr ≠ []
  plain : 61 ∉ p.id
  one : 44 ∉ p.text

theorem splitAtEquals_text {id : Bytes} (h : 61 ∉ id) (addr : Bytes) : splitAtEquals (id ++ 61 :: addr) = [id, addr] := by
  have hall : ∀ b ∈ id, decide (b ≠ 61) = true := fun b hb => by simpa using fun hb' : b = 61 => h (hb' ▸ hb)
  unfold splitAtEquals
  rw [List.dropWhile_append_of_pos hall, List.takeWhile_append_of_pos hall]
  simp

theorem parsePeer_iff {entry : Bytes} {p : Peer} :
    parsePeer entry = some p ↔ p.id ≠ [] ∧ p.addr ≠ [] ∧ 61 ∉ p.id ∧ entry = p.text := by
  constructor
  · intro h
    have hsplit := List.takeWhile_append_dropWhile (p := fun b : UInt8 => decide (b ≠ 61)) (l := entry)
    have hhead := List.head?_dropWhile_not (fun b : UInt8 => decide (b ≠ 61)) entry
    unfold parsePeer splitAtEquals at h
    cases hrest : entry.dropWhile fun b => decide (b ≠ 61) with
    | nil =>
        rw [hrest] at h
        cases h
    | cons b rest =>
        rw [hrest] at h hsplit hhead
        obtain rfl : b = 61 := by simpa using hhead
        dsimp only at h
        split at h
        · cases h
        · next hne =>
          cases h
          rw [not_or] at hne
          refine ⟨hne.1, hne.2, fun hmem => ?_, hsplit.symm⟩
          simpa using List.mem_takeWhile_imp hmem
  · rintro ⟨hid, haddr, hplain, rfl⟩
    unfold parsePeer Peer.text
    rw [splitAtEquals_text hplain]
    dsimp only
    rw [if_neg (by simp [hid, haddr])]

theorem parseEntries_iff {quote : Bytes → String} {entries : List Bytes} {peers : List Peer} :
    parseEntries quote entries = .ok peers ↔ entries.map parsePeer = peers.map some := by
  induction entries generalizing peers with
  | nil =>
      cases peers with
      | nil => simp [parseEntries]
      | cons p peers => simp [parseEntries]
  | cons entry entries ih =>
      unfold parseEntries
      cases hentry : parsePeer entry with
      | none =>
          cases peers with
          | nil => simp
          | cons p peers => simp [hentry]
      | some p =>
          cases hrest : parseEntries quote entries with
          | error err =>
              refine iff_of_false (by simp) (fun h => ?_)
              cases peers with
              | nil => cases h
              | cons q peers =>
                  have htail := ih.mpr (List.cons.inj h).2
                  rw [hrest] at htail
                  cases htail
          | ok rest =>
              have htail := ih.mp hrest
              cases peers with
              | nil => simp
              | cons q peers =>
                  rw [List.map_cons, List.map_cons, hentry, htail]
                  simp [List.map_inj_right]

theorem parseEntries_error {quote : Bytes → String} {entries : List Bytes} {err : String}
    (h : parseEntries quote entries = .error err) :
    ∃ before entry after, entries = before ++ entry :: after ∧ (∀ e ∈ before, (parsePeer e).isSome) ∧
      parsePeer entry = none ∧ err = invalidPeer quote entry := by
  induction entries with
  | nil => cases h
  | cons entry entries ih =>
      unfold parseEntries at h
      cases hentry : parsePeer entry with
      | none =>
          rw [hentry] at h
          cases h
          exact ⟨[], entry, entries, rfl, fun _ he => absurd he List.not_mem_nil, hentry, rfl⟩
      | some p =>
          rw [hentry] at h
          dsimp only at h
          cases hrest : parseEntries quote entries with
          | ok rest =>
              rw [hrest] at h
              cases h
          | error err' =>
              rw [hrest] at h
              cases h
              obtain ⟨before, bad, after, rfl, hbefore, hbad, rfl⟩ := ih hrest
              refine ⟨entry :: before, bad, after, rfl, fun e he => ?_, hbad, rfl⟩
              rcases List.mem_cons.mp he with rfl | he
              · rw [hentry]
                rfl
              · exact hbefore e he

theorem notMem_splitOn (b : UInt8) (s : Bytes) : ∀ part ∈ s.splitOn b, b ∉ part := by
  unfold List.splitOn
  induction s with
  | nil => simp
  | cons x s ih =>
      rw [List.splitOnP_cons_eq_if_modifyHead]
      split
      · intro part hpart
        rcases List.mem_cons.mp hpart with rfl | hpart
        · exact List.not_mem_nil
        · exact ih part hpart
      · next hx =>
        cases hparts : List.splitOnP (· == b) s with
        | nil => simp
        | cons part parts =>
            rw [hparts] at ih
            intro part' hpart'
            rcases List.mem_cons.mp hpart' with rfl | hpart'
            · rw [List.mem_cons, not_or]
              exact ⟨fun h => hx (by simp [h]), ih part (by simp)⟩
            · exact ih part' (by simp [hpart'])

theorem parsePeer_entry {entry : Bytes} (h : 44 ∉ entry) {p : Peer} : parsePeer entry = some p ↔ p.Ok ∧ entry = p.text := by
  rw [parsePeer_iff]
  constructor
  · rintro ⟨hid, haddr, hplain, rfl⟩
    exact ⟨⟨hid, haddr, hplain, h⟩, rfl⟩
  · rintro ⟨hp, rfl⟩
    exact ⟨hp.id, hp.addr, hp.plain, rfl⟩

theorem map_parsePeer_iff {entries : List Bytes} (h : ∀ e ∈ entries, 44 ∉ e) {peers : List Peer} :
    entries.map parsePeer = peers.map some ↔ (∀ p ∈ peers, p.Ok) ∧ entries = peers.map Peer.text := by
  induction entries generalizing peers with
  | nil =>
      cases peers with
      | nil => simp
      | cons p peers => simp
  | cons entry entries ih =>
      cases peers with
      | nil => simp
      | cons p peers =>
          have hrest := @ih (fun e he => h e (List.mem_cons_of_mem _ he)) peers
          rw [List.map_cons, List.map_cons, List.map_cons, List.cons.injEq, List.cons.injEq, hrest,
            parsePeer_entry (h entry (by simp)), List.forall_mem_cons]
          tauto

theorem formatPeers_ne_nil {peers : List Peer} (h : peers ≠ []) : formatPeers peers ≠ [] := by
  cases peers with
  | nil => exact absurd rfl h
  | cons p peers =>
      unfold formatPeers
      cases peers with
      | nil => simp [Peer.text, List.intercalate]
      | cons q peers => simp [Peer.text, List.intercalate]

/-- **The flag `--raft-peers`.** It is taken if and only if it is a list of peers written as `id=addr` with commas in between,
where an id has no `=`, neither has a comma and neither is empty, and it gives these peers in order. Otherwise the error names
the first entry that is not of this form. -/
theorem parsePeers_iff (quote : Bytes → String) (s : Bytes) :
    (∀ peers, parsePeers quote s = .ok peers ↔ (∀ p ∈ peers, p.Ok) ∧ s = formatPeers peers) ∧
    ∀ err, parsePeers quote s = .error err → ∃ before entry after, s.splitOn 44 = before ++ entry :: after ∧
      (∀ e ∈ before, ∃ p : Peer, p.Ok ∧ e = p.text) ∧ (¬∃ p : Peer, p.Ok ∧ entry = p.text) ∧
        err = invalidPeer quote entry := by
  have hcomma := notMem_splitOn 44 s
  refine ⟨fun peers => ?_, fun err herr => ?_⟩
  · unfold parsePeers
    by_cases hs : s = []
    · rw [if_pos hs, hs]
      constructor
      · rintro ⟨⟩
        exact ⟨fun p hp => absurd hp List.not_mem_nil, rfl⟩
      · rintro ⟨-, hnil⟩
        by_cases hpeers : peers = []
        · rw [hpeers]
        · exact absurd hnil.symm (formatPeers_ne_nil hpeers)
    · rw [if_neg hs, parseEntries_iff, map_parsePeer_iff hcomma]
      refine and_congr_right fun hok => ?_
      constructor
      · intro hsplit
        rw [formatPeers, ← hsplit, List.intercalate_splitOn]
      · rintro rfl
        have hne : peers.map Peer.text ≠ [] := fun h => hs (by rw [List.map_eq_nil_iff.mp h]; rfl)
        refine List.splitOn_intercalate 44 (fun part hpart => ?_) hne
        obtain ⟨p, hp, rfl⟩ := List.mem_map.mp hpart
        exact (hok p hp).one
  · unfold parsePeers at herr
    split at herr
    · cases herr
    · obtain ⟨before, entry, after, hsplit, hbefore, hentry, rfl⟩ := parseEntries_error herr
      rw [hsplit] at hcomma
      refine ⟨before, entry, after, hsplit, fun e he => ?_, ?_, rfl⟩
      · obtain ⟨p, hp⟩ := Option.isSome_iff_exists.mp (hbefore e he)
        exact ⟨p, (parsePeer_entry (hcomma e (by simp [he]))).mp hp⟩
      · rintro ⟨p, hp⟩
        rw [(parsePeer_entry (hcomma entry (by simp))).mpr hp] at hentry
        cases hentry

end Uddp

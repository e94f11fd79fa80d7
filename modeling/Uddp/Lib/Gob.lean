import Mathlib.Logic.Equiv.List
import Uddp.Lib.Bytes

/-!
# Encoders that number types

A process gives every type it encodes a number, in the order in which it meets them, and an encoding carries the numbers
of the types it describes.

* `Registry` : the types that a process has numbered; `register` : those that an encoding adds;
* `Codec` : the encoder and the decoder of a type. A decoder finds what was encoded, whatever the numbers; the numbers
  can be read off the bytes;
* `Codec.encodeIn` : an encoding in a process, with what it adds to the registry;
* `encode_same_iff` : two processes encode a value alike exactly when they number its types alike;
  `ids_register` : a process keeps to the numbers it has given.
-/

namespace Uddp.Lib

variable {Ty α : Type} [DecidableEq Ty]

/-! ## Numbers -/

/-- The types that a process has numbered, in the order of their numbers. -/
structure Registry (Ty : Type) where
  types : List Ty
  nodup : types.Nodup
  deriving DecidableEq

namespace Registry

def empty : Registry Ty := ⟨[], List.nodup_nil⟩

/-- The number of the first type. -/
def firstId : Nat := 64

def typeId (r : Registry Ty) (t : Ty) : Nat := firstId + r.types.idxOf t

def add (r : Registry Ty) (t : Ty) : Registry Ty :=
  if h : t ∈ r.types then r else ⟨r.types ++ [t], List.nodup_append.mpr ⟨r.nodup, List.nodup_singleton t, by grind⟩⟩

/-- The registry after the types `ts`, met in this order. -/
def register (r : Registry Ty) (ts : List Ty) : Registry Ty := ts.foldl add r

theorem add_types (r : Registry Ty) (t : Ty) : r.types <+: (r.add t).types ∧ t ∈ (r.add t).types := by
  unfold add
  split
  · next h => exact ⟨List.prefix_refl _, h⟩
  · exact ⟨List.prefix_append _ _, by simp⟩

theorem register_types (r : Registry Ty) (ts : List Ty) :
    r.types <+: (r.register ts).types ∧ ∀ t ∈ ts, t ∈ (r.register ts).types := by
  induction ts generalizing r with
  | nil => exact ⟨List.prefix_refl _, by simp⟩
  | cons t ts ih =>
      obtain ⟨hadd, ht⟩ := r.add_types t
      obtain ⟨hrest, hts⟩ := ih (r.add t)
      refine ⟨hadd.trans hrest, fun x hx => ?_⟩
      rcases List.mem_cons.mp hx with rfl | hx
      · exact hrest.subset ht
      · exact hts x hx

theorem register_of_subset {r : Registry Ty} {ts : List Ty} (h : ∀ t ∈ ts, t ∈ r.types) : r.register ts = r := by
  induction ts with
  | nil => rfl
  | cons t ts ih =>
      have hadd : r.add t = r := dif_pos (h t (by simp))
      show (r.add t).register ts = r
      rw [hadd]
      exact ih fun x hx => h x (by simp [hx])

theorem typeId_register {r : Registry Ty} {t : Ty} (h : t ∈ r.types) (ts : List Ty) :
    (r.register ts).typeId t = r.typeId t := by
  obtain ⟨more, hmore⟩ := (r.register_types ts).1
  unfold typeId
  rw [← hmore, List.idxOf_append_of_mem h]

end Registry

/-! ## Codecs -/

/-- An encoder and a decoder. `types` are the types that an encoding describes, in the order in which a process meets
them, and `encode` is given their numbers. -/
structure Codec (Ty α : Type) where
  types : List Ty
  encode : List Nat → α → Except String Bytes
  decode : Bytes → Except String α
  decode_encode : ∀ {ids a bs}, encode ids a = .ok bs → decode bs = .ok a
  ids_embedded : ∀ {ids ids' a bs}, ids.length = types.length → ids'.length = types.length →
    encode ids a = .ok bs → encode ids' a = .ok bs → ids = ids'

namespace Codec
variable (c : Codec Ty α)

/-- The numbers that a process gives to the types of the codec. -/
def ids (r : Registry Ty) : List Nat := c.types.map (r.register c.types).typeId

/-- An encoding in a process. -/
def encodeIn (r : Registry Ty) (a : α) : Except String Bytes × Registry Ty := (c.encode (c.ids r) a, r.register c.types)

theorem encode_same_iff {p q : Registry Ty} {a : α} {bs : Bytes} (h : c.encode (c.ids p) a = .ok bs) :
    c.encode (c.ids q) a = .ok bs ↔ c.ids p = c.ids q := by
  constructor
  · intro h'
    exact c.ids_embedded (List.length_map _) (List.length_map _) h h'
  · intro hids
    rw [← hids]
    exact h

theorem ids_register {r : Registry Ty} (h : ∀ t ∈ c.types, t ∈ r.types) (ts : List Ty) :
    c.ids (r.register ts) = c.ids r := by
  have hlater : ∀ t ∈ c.types, t ∈ (r.register ts).types := fun t ht => (r.register_types ts).1.subset (h t ht)
  unfold ids
  rw [Registry.register_of_subset h, Registry.register_of_subset hlater]
  exact List.map_congr_left fun t ht => Registry.typeId_register (h t ht) ts

/-- A codec that writes its numbers and its value as the length of the encoding. -/
def plain (types : List Ty) [Encodable α] : Codec Ty α where
  types := types
  encode ids a := .ok (List.replicate (Encodable.encode (ids, a)) 0)
  decode bs :=
    match (Encodable.decode bs.length : Option (List Nat × α)) with
    | some (_, a) => .ok a
    | none => .error "not an encoding"
  decode_encode := by
    intro ids a bs h
    cases h
    rw [List.length_replicate, Encodable.encodek]
  ids_embedded := by
    intro ids ids' a bs _ _ h h'
    have heq := congrArg List.length (Except.ok.inj (h.trans h'.symm))
    rw [List.length_replicate, List.length_replicate] at heq
    exact congrArg Prod.fst (Encodable.encode_injective heq)

end Codec

end Uddp.Lib

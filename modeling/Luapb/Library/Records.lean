import Luapb.Library.Wire

/-! # Records and their effects

A parser that reads a message into an object changes it record by record. A format says which
payloads may follow a tag, and what each of them does to the object. -/

namespace Wire

universe u

variable {α : Type u}

/-- A record, and what reading it does to an object. -/
structure Tagged (α : Type u) where
  tagBytes : List UInt8
  tag : ℕ
  payload : List UInt8
  effect : α → α

/-- The payloads that may follow a tag, with their effects. -/
abbrev Format (α : Type u) := ℕ → List UInt8 → (α → α) → Prop

namespace Tagged

/-- Records one after the other. -/
def concat (rs : List (Tagged α)) : List UInt8 := rs.flatMap fun r => r.tagBytes ++ r.payload

/-- What reading them does. -/
def apply (rs : List (Tagged α)) (a : α) : α := rs.foldl (fun a r => r.effect a) a

@[simp] theorem concat_nil : concat ([] : List (Tagged α)) = [] := rfl

@[simp] theorem concat_cons (r : Tagged α) (rs : List (Tagged α)) :
    concat (r :: rs) = r.tagBytes ++ (r.payload ++ concat rs) := by
  simp [concat]

@[simp] theorem concat_append (rs rs' : List (Tagged α)) :
    concat (rs ++ rs') = concat rs ++ concat rs' := List.flatMap_append

@[simp] theorem apply_nil (a : α) : apply [] a = a := rfl

@[simp] theorem apply_cons (r : Tagged α) (rs : List (Tagged α)) (a : α) :
    apply (r :: rs) a = apply rs (r.effect a) := rfl

@[simp] theorem apply_append (rs rs' : List (Tagged α)) (a : α) :
    apply (rs ++ rs') a = apply rs' (apply rs a) := List.foldl_append

theorem length_payload_le {r : Tagged α} {rs : List (Tagged α)} (h : r ∈ rs) :
    r.payload.length ≤ (concat rs).length := by
  induction rs with
  | nil => cases h
  | cons r' rs ih =>
      rw [concat_cons, List.length_append, List.length_append]
      rcases List.mem_cons.mp h with rfl | h
      · omega
      · have hle := ih h
        omega

/-- A record of a format. Its tag is a varint of any length, for a number of 32 bits. -/
structure Of (R : Format α) (r : Tagged α) : Prop where
  tag_eq : Varint.decode r.tagBytes = some (r.tag, [])
  tag_lt : r.tag < 2 ^ 32
  payload : R r.tag r.payload r.effect

theorem Of.tagBytes_ne_nil {R : Format α} {r : Tagged α} (h : Of R r) : r.tagBytes ≠ [] := by
  intro hnil
  have htag := h.tag_eq
  rw [hnil] at htag
  cases htag

theorem Of.length_lt {R : Format α} {r : Tagged α} (h : Of R r) (rs : List (Tagged α)) :
    (concat rs).length < (concat (r :: rs)).length := by
  have hpos := List.length_pos_iff.mpr h.tagBytes_ne_nil
  rw [concat_cons, List.length_append, List.length_append]
  omega

end Tagged

end Wire

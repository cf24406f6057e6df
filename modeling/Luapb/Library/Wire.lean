import Luapb.Library.Varint

/-! # The protobuf wire format

A message on the wire is a sequence of records. A record starts with a tag, the
varint of `number * 8 + wireType`, and the wire type says how far its payload
reaches. -/

namespace Wire

/-- The wire types of the format; groups have two, for their start and end. -/
inductive WireType
  | varint
  | fixed64
  | lengthDelimited
  | startGroup
  | endGroup
  | fixed32
deriving DecidableEq, Repr

def WireType.code : WireType → ℕ
  | .varint => 0
  | .fixed64 => 1
  | .lengthDelimited => 2
  | .startGroup => 3
  | .endGroup => 4
  | .fixed32 => 5

theorem WireType.code_lt (t : WireType) : t.code < 8 := by cases t <;> decide

theorem WireType.code_injective {t u : WireType} (h : t.code = u.code) : t = u := by
  cases t <;> cases u <;> first | rfl | cases h

/-- Field numbers occupy what a 32-bit tag leaves beside the wire type. -/
def maxFieldNumber : ℕ := 2 ^ 29 - 1

def tag (number : ℕ) (t : WireType) : ℕ := number * 8 + t.code

theorem tag_lt {number : ℕ} (h : number ≤ maxFieldNumber) (t : WireType) :
    tag number t < 2 ^ 32 := by
  have := t.code_lt
  simp only [maxFieldNumber] at h
  simp only [tag]
  omega

@[simp] theorem tag_div (number : ℕ) (t : WireType) : tag number t / 8 = number := by
  have := t.code_lt
  simp only [tag]
  omega

/-- The field number survives the narrowing of a tag to 32 bits. -/
theorem tag_narrow_div {number : ℕ} (h : number ≤ maxFieldNumber) (t : WireType) :
    tag number t % 2 ^ 32 / 8 = number := by
  rw [Nat.mod_eq_of_lt (tag_lt h t), tag_div]

/-- The shortest encoding of a tag. -/
def tagBytes (number : ℕ) (t : WireType) : List UInt8 := Varint.encode (tag number t)

/-- Tags of equal length: the wire type does not reach the second byte. -/
theorem length_tagBytes (number : ℕ) (t : WireType) :
    (tagBytes number t).length = (Varint.encode (number * 8)).length := by
  have hcode := t.code_lt
  have haux : ∀ k n : ℕ, (Varint.encodeAux k (n * 8 + t.code)).length =
      (Varint.encodeAux k (n * 8)).length := by
    intro k n
    cases k with
    | zero => simp [Varint.encodeAux]
    | succ k =>
        have hdiv : (n * 8 + t.code) / 128 = n * 8 / 128 := by omega
        rw [Varint.encodeAux, Varint.encodeAux, hdiv]
        by_cases h : n * 8 < 128
        · rw [if_pos h, if_pos (by omega)]
          simp
        · rw [if_neg h, if_neg (by omega)]
          simp
  exact haux _ _

/-! ## Fixed-width numbers -/

/-- Four bytes, least significant first. -/
def fixed32 (n : ℕ) : List UInt8 :=
  [UInt8.ofNat n, UInt8.ofNat (n / 2 ^ 8), UInt8.ofNat (n / 2 ^ 16), UInt8.ofNat (n / 2 ^ 24)]

def readFixed32 : List UInt8 → Option (ℕ × List UInt8)
  | a :: b :: c :: d :: rest =>
      some (a.toNat + b.toNat * 2 ^ 8 + c.toNat * 2 ^ 16 + d.toNat * 2 ^ 24, rest)
  | _ => none

@[simp] theorem length_fixed32 (n : ℕ) : (fixed32 n).length = 4 := rfl

theorem readFixed32_fixed32 {n : ℕ} (hn : n < 2 ^ 32) (rest : List UInt8) :
    readFixed32 (fixed32 n ++ rest) = some (n, rest) := by
  simp [fixed32, readFixed32]
  omega

theorem four_le_of_readFixed32 {bytes : List UInt8} {p : ℕ × List UInt8}
    (h : readFixed32 bytes = some p) : 4 ≤ bytes.length := by
  match bytes, h with
  | _ :: _ :: _ :: _ :: _, _ => simp

/-- The four bytes of a number are those it was read from. -/
theorem fixed32_of_readFixed32 {bytes : List UInt8} {n : ℕ} (h : readFixed32 bytes = some (n, [])) :
    n < 2 ^ 32 ∧ bytes = fixed32 n := by
  match bytes, h with
  | [a, b, c, d], h =>
      have ha := a.toNat_lt
      have hb := b.toNat_lt
      have hc := c.toNat_lt
      have hd := d.toNat_lt
      simp only [readFixed32, Option.some.injEq, Prod.mk.injEq, and_true] at h
      have hbyte : ∀ {x : UInt8} {m : ℕ}, m % 256 = x.toNat → x = UInt8.ofNat m := by
        intro x m hm
        apply UInt8.toNat_inj.mp
        rw [UInt8.toNat_ofNat', hm]
      refine ⟨by omega, ?_⟩
      rw [fixed32, ← h]
      congr 1
      · exact hbyte (by omega)
      · congr 1
        · exact hbyte (by omega)
        · congr 1
          · exact hbyte (by omega)
          · congr 1
            exact hbyte (by omega)

/-! ## Length-delimited payloads -/

def lengthDelimited (bytes : List UInt8) : List UInt8 := Varint.encode bytes.length ++ bytes

@[simp] theorem length_lengthDelimited (bytes : List UInt8) :
    (lengthDelimited bytes).length = (Varint.encode bytes.length).length + bytes.length := by
  simp [lengthDelimited]

/-- The payloads a wire type delimits. Groups are not payloads. -/
inductive IsPayload : WireType → List UInt8 → Prop
  | varint {bytes n} (h : Varint.decode bytes = some (n, [])) : IsPayload .varint bytes
  | fixed64 {bytes} (h : bytes.length = 8) : IsPayload .fixed64 bytes
  | lengthDelimited {bytes body} (h : Varint.decode bytes = some (body.length, body))
      (hlt : body.length < 2 ^ 31) : IsPayload .lengthDelimited bytes
  | fixed32 {bytes} (h : bytes.length = 4) : IsPayload .fixed32 bytes

/-- Every payload has at least one byte. -/
theorem IsPayload.ne_nil {t : WireType} {bytes : List UInt8} (h : IsPayload t bytes) :
    bytes ≠ [] := by
  rintro rfl
  cases h with
  | varint h => simp at h
  | fixed64 h => simp at h
  | lengthDelimited h => simp at h
  | fixed32 h => simp at h

/-- What follows the start tag of a group, its end tag included: records, and among them other
groups. -/
inductive IsGroup : ℕ → List UInt8 → Prop
  | endTag {number bytes} (htag : Varint.decode bytes = some (tag number .endGroup, [])) :
      IsGroup number bytes
  | record {number field t tagBytes payload rest} (hpos : 0 < field) (hle : field ≤ maxFieldNumber)
      (htag : Varint.decode tagBytes = some (tag field t, [])) (hpayload : IsPayload t payload)
      (hrest : IsGroup number rest) : IsGroup number (tagBytes ++ (payload ++ rest))
  | group {number field tagBytes payload rest} (hpos : 0 < field) (hle : field ≤ maxFieldNumber)
      (htag : Varint.decode tagBytes = some (tag field .startGroup, []))
      (hgroup : IsGroup field payload) (hrest : IsGroup number rest) :
      IsGroup number (tagBytes ++ (payload ++ rest))

theorem IsGroup.ne_nil {number : ℕ} {bytes : List UInt8} (h : IsGroup number bytes) :
    bytes ≠ [] := by
  rintro rfl
  generalize hnil : ([] : List UInt8) = bytes at h
  induction h with
  | endTag htag => simp [← hnil] at htag
  | record _ _ _ _ _ ih | group _ _ _ _ _ _ ih =>
      exact ih (List.append_eq_nil_iff.mp (List.append_eq_nil_iff.mp hnil.symm).2).2.symm

end Wire

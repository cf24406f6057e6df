import Luapb.Verification.Encoder.Overflow

/-! # The size of one value

`FieldSize` and `WriteValue` are two switches over the same types. They agree on every
type but the 64-bit integers, of which one counts the varint and the other writes the
text. -/

namespace Luapb

open Ieee754 Wire PBStream

variable {M V : Type} {P : Platform} {W : WireFormatLite}

/-! ## Scanned numbers -/

theorem foldl_digits_lt {digits : Bytes} (h : ∀ d ∈ digits, isDigit d = true) (n : ℕ) :
    digits.foldl (fun n d => n * 10 + (d.toNat - 48)) n < (n + 1) * 10 ^ digits.length := by
  induction digits generalizing n with
  | nil => simp
  | cons d digits ih =>
      rcases List.forall_mem_cons.mp h with ⟨hd, hdigits⟩
      have hdigit : d.toNat - 48 < 10 := by
        simp only [isDigit, Bool.and_eq_true, decide_eq_true_eq, UInt8.le_iff_toNat_le] at hd
        have : d.toNat ≤ 57 := hd.2
        omega
      calc (d :: digits).foldl (fun n d => n * 10 + (d.toNat - 48)) n
          < (n * 10 + (d.toNat - 48) + 1) * 10 ^ digits.length := ih hdigits _
        _ ≤ (n + 1) * 10 * 10 ^ digits.length := Nat.mul_le_mul_right _ (by omega)
        _ = (n + 1) * 10 ^ (d :: digits).length := by
            rw [List.length_cons, pow_succ]
            ring

/-- A scanned number has no more digits than the string has characters. -/
theorem scanDecimal_lt {s : Bytes} {neg : Bool} {n : ℕ} (h : scanDecimal s = some (neg, n)) :
    n < 10 ^ s.length := by
  simp only [scanDecimal] at h
  generalize htext : (if (s.dropWhile isSpace).head? = some 45 ∨
      (s.dropWhile isSpace).head? = some 43
    then (s.dropWhile isSpace).tail else s.dropWhile isSpace) = text at h
  have htext_le : text.length ≤ s.length := by
    have hspace := (List.dropWhile_sublist isSpace (l := s)).length_le
    rw [← htext]
    split
    · rw [List.length_tail]
      omega
    · exact hspace
  have hdigits_le : (text.takeWhile isDigit).length ≤ text.length :=
    (List.takeWhile_sublist isDigit).length_le
  split at h
  · cases h
  · obtain ⟨-, rfl⟩ := Prod.mk.inj (Option.some.inj h)
    have hlt := foldl_digits_lt
      (fun d hd => List.mem_takeWhile_imp hd : ∀ d ∈ text.takeWhile isDigit, _) 0
    rw [Nat.zero_add, Nat.one_mul] at hlt
    exact hlt.trans_le (Nat.pow_le_pow_right (by decide) (by omega))

/-- What is scanned is as small as its text, or has ten bytes as a varint. -/
theorem scanInt64_lt (s : Bytes) :
    (scanInt64 s).toNat < 10 ^ s.length ∨ 2 ^ 63 ≤ (scanInt64 s).toNat := by
  rw [scanInt64]
  cases h : scanDecimal s with
  | none => exact .inl (Nat.pow_pos (by decide))
  | some p =>
      obtain ⟨neg, n⟩ := p
      have hlt := scanDecimal_lt h
      rw [BitVec.toNat_ofInt]
      cases neg with
      | false =>
          refine .inl ?_
          simp only [Bool.false_eq_true, if_false]
          omega
      | true =>
          simp only [if_true]
          omega

theorem scanUInt64_lt (s : Bytes) :
    (scanUInt64 s).toNat < 10 ^ s.length ∨ 2 ^ 63 ≤ (scanUInt64 s).toNat := by
  rw [scanUInt64]
  cases h : scanDecimal s with
  | none => exact .inl (Nat.pow_pos (by decide))
  | some p =>
      obtain ⟨neg, n⟩ := p
      have hlt := scanDecimal_lt h
      dsimp only
      by_cases hlarge : 2 ^ 64 ≤ n
      · rw [if_pos hlarge]
        exact .inr (by decide)
      · rw [if_neg hlarge, BitVec.toNat_ofInt]
        cases neg with
        | false =>
            refine .inl ?_
            simp only [Bool.false_eq_true, if_false]
            omega
        | true =>
            simp only [if_true]
            omega

/-- A number that is negative as a 64-bit integer has ten bytes as a varint. -/
theorem length_encode_of_ge {n : ℕ} (h : 2 ^ 63 ≤ n) : (Varint.encode n).length = 10 := by
  have hlt : 9 < (Varint.encode n).length := Varint.lt_length_encode (by decide) (by omega)
  have hle := Varint.length_encode_le n
  simp only [Varint.maxBytes] at hle
  omega

/-- A varint of the number is as long as the text with its length if both are empty or the
text has nine characters and the number ten bytes. -/
theorem length_scanned_iff {s : Bytes} {scanned : ℕ}
    (hscan : scanned < 10 ^ s.length ∨ 2 ^ 63 ≤ scanned) (hempty : s = [] → scanned = 0) :
    (Varint.encode scanned).length = (Varint.encode s.length).length + s.length ↔
      s = [] ∨ s.length = 9 ∧ 2 ^ 63 ≤ scanned := by
  by_cases hs : s = []
  · rw [hempty hs, hs]
    simp
  · have hpos : 0 < s.length := List.length_pos_iff.mpr hs
    have hvarint := Varint.length_encode_pos s.length
    by_cases hge : 2 ^ 63 ≤ scanned
    · rw [length_encode_of_ge hge]
      simp only [hs, hge, false_or, and_true]
      constructor
      · intro h
        have hone : (Varint.encode s.length).length ≤ 1 :=
          Varint.length_encode_le_of_lt (by decide) (by omega)
        omega
      · intro h
        rw [h]
        decide
    · have hlt : scanned < 10 ^ s.length := hscan.resolve_right hge
      have hle : (Varint.encode scanned).length ≤ s.length :=
        Varint.length_encode_le_of_lt hpos
          (hlt.trans_le (Nat.pow_le_pow_left (by decide) s.length))
      simp only [hs, hge, and_false, or_false, iff_false]
      omega

/-! ## Both switches -/

/-- The scalar types that both functions handle. -/
def Measured : FieldType M → Prop
  | .float | .int32 | .uint32 | .bool | .string | .enum _ | .int64 | .uint64 => True
  | _ => False

/-- The values of which both functions take the same measure. -/
def SameMeasure (P : Platform) (type : FieldType M) (v : LuaView V) : Prop :=
  ∀ s, Stack.getCString P v = .ok (some s) → match type with
    | .string => s.length < 2 ^ 31 - 5
    | .int64 => s = [] ∨ s.length = 9 ∧ 2 ^ 63 ≤ (scanInt64 s).toNat
    | .uint64 => s = [] ∨ s.length = 9 ∧ 2 ^ 63 ≤ (scanUInt64 s).toNat
    | _ => True

theorem fieldSize_eq_exact {fd : FieldDescriptor M} {v : LuaView V}
    (hscalar : fd.type.messageType? = none) (htype : fd.type ≠ .string) :
    fieldSize P W fd v = fieldSizeBy P W id fd v := by
  rw [fieldSize]
  cases h : fd.type <;> simp only [fieldSizeBy, h]
  case string => exact absurd h htype
  case message => simp [h, FieldType.messageType?] at hscalar

/-- Below `2 ^ 31` an `int` holds a length and its varint, but for the last five. -/
theorem int32_length_iff {length : ℕ} (h : length < 2 ^ 31) :
    int32 ((Varint.encode length).length + length) = (Varint.encode length).length + length ↔
      length < 2 ^ 31 - 5 := by
  have hle : (Varint.encode length).length ≤ 5 :=
    Varint.length_encode_le_of_lt (by decide) (by omega)
  constructor
  · intro heq
    by_contra hge
    have hlt : 4 < (Varint.encode length).length := Varint.lt_length_encode (by decide) (by omega)
    have hbound := int32_lt ((Varint.encode length).length + length)
    rw [heq] at hbound
    omega
  · intro hlt
    rw [← Nat.cast_add]
    exact int32_natCast (by omega)

/-- What `WriteValue` appends for a type it writes as text. -/
theorem length_writeString (hW : W.Documented) {fd : FieldDescriptor M} {s bytes : Bytes}
    (hlt : s.length < 2 ^ 31) (hwrite : writeString W fd.number s = .ok bytes) :
    (bytes.length : ℤ) =
      tagSize W fd.number + (((Varint.encode s.length).length + s.length : ℕ) : ℤ) := by
  rw [writeString_of_lt hW _ hlt] at hwrite
  rw [← Except.ok.inj hwrite, tagSize_eq hW fd.number_le .lengthDelimited]
  simp

/-- The case of strings, of which both functions take the length. -/
theorem string_agrees_iff (hW : W.Documented) {fd : FieldDescriptor M} {v : LuaView V}
    (htype : fd.type = .string) {c : Option Bytes} (hc : Stack.getCString P v = .ok c)
    {s : Bytes} (hs : strlen c = .ok s) (hlt : s.length < 2 ^ 31) {size : ℤ}
    (hsize : fieldSize P W fd v = .ok size) {bytes : Bytes}
    (hwrite : writeString W fd.number s = .ok bytes) :
    tagSize W fd.number + size = bytes.length ↔ s.length < 2 ^ 31 - 5 := by
  have hnat : s.length % 2 ^ 32 = s.length := Nat.mod_eq_of_lt (by omega)
  simp only [fieldSize, fieldSizeBy, htype, hc, hs, Fallible.ok_bind, int32_natCast hlt,
    hW.varintSize32, BitVec.ofInt_natCast, BitVec.toNat_ofNat, hnat] at hsize
  have hsize := Fallible.pure_eq_ok.mp hsize
  rw [length_writeString hW hlt hwrite, hsize, ← int32_length_iff hlt, Nat.cast_add]
  exact ⟨add_left_cancel, congrArg _⟩

/-- The case of 64-bit integers, of which one function takes the number and the other the
text. -/
theorem scanned_agrees_iff (hW : W.Documented) {fd : FieldDescriptor M} {s : Bytes}
    (hlt : s.length < 2 ^ 31) {scanned : ℕ}
    (hscan : scanned < 10 ^ s.length ∨ 2 ^ 63 ≤ scanned) (hempty : s = [] → scanned = 0)
    {bytes : Bytes} (hwrite : writeString W fd.number s = .ok bytes) :
    tagSize W fd.number + ((Varint.encode scanned).length : ℤ) = bytes.length ↔
      s = [] ∨ s.length = 9 ∧ 2 ^ 63 ≤ scanned := by
  rw [length_writeString hW hlt hwrite, ← length_scanned_iff hscan hempty]
  constructor
  · intro h
    exact_mod_cast add_left_cancel h
  · intro h
    rw [h]

/-- The tag and `FieldSize` are what `WriteValue` appends, exactly for the values of which
both take the same measure. -/
theorem fieldSize_agrees_iff (hW : W.Documented) {fd : FieldDescriptor M} {v : LuaView V}
    (hmeasured : Measured fd.type) (henum : EnumDeclared P fd.type v)
    (hlength : ∀ s, Stack.getCString P v = .ok (some s) → s.length < 2 ^ 31) {size : ℤ}
    (hsize : fieldSize P W fd v = .ok size) {bytes : Bytes}
    (hwrite : writeValue P W fd v = .ok bytes) :
    tagSize W fd.number + size = bytes.length ↔ SameMeasure P fd.type v := by
  by_cases htext : fd.type = .string ∨ fd.type = .int64 ∨ fd.type = .uint64
  · -- the text that `WriteValue` writes
    have htextual : ∃ c, Stack.getCString P v = .ok c ∧ ∃ s, strlen c = .ok s ∧
        writeString W fd.number s = .ok bytes := by
      rcases htext with htype | htype | htype <;>
        simpa only [writeValue, htype, Fallible.bind_eq_ok] using hwrite
    rcases htextual with ⟨c, hc, s, hs, hwrite⟩
    cases c with
    | none => cases hs
    | some s' =>
        cases hs
        have hlt := hlength s hc
        rcases htext with htype | htype | htype
        · rw [string_agrees_iff hW htype hc rfl hlt hsize hwrite, htype]
          simp [SameMeasure, hc]
        · simp only [fieldSize, fieldSizeBy, htype, hc, strlen, Fallible.ok_bind,
            hW.int64Size] at hsize
          rw [Fallible.pure_eq_ok.mp hsize, htype,
            scanned_agrees_iff hW hlt (scanInt64_lt s) (by rintro rfl; rfl) hwrite]
          simp [SameMeasure, hc]
        · simp only [fieldSize, fieldSizeBy, htype, hc, strlen, Fallible.ok_bind,
            hW.uInt64Size] at hsize
          rw [Fallible.pure_eq_ok.mp hsize, htype,
            scanned_agrees_iff hW hlt (scanUInt64_lt s) (by rintro rfl; rfl) hwrite]
          simp [SameMeasure, hc]
  · simp only [not_or] at htext
    rcases htext with ⟨hstring, hint64, huint64⟩
    have hsized : Sized fd.type := by
      cases htype : fd.type <;> simp_all [Measured, Sized]
    have hscalar : fd.type.messageType? = none := by
      cases htype : fd.type <;> simp_all [Measured, FieldType.messageType?]
    rw [fieldSize_eq_exact hscalar hstring] at hsize
    have hagrees := fieldSize_writeValue hW hsized hscalar henum hsize
      (fun htype => absurd htype hstring) hwrite
    refine iff_of_true hagrees fun s _ => ?_
    cases htype : fd.type <;> simp_all

/-- `int64 id = 2` of "-12345678": the number takes ten bytes, and the text with its length. -/
theorem fieldSize_agrees_negative :
    let fd : FieldDescriptor Unit :=
      ⟨[105, 100], 2, .int64, false, by decide, by decide, by decide⟩
    let v : LuaView Unit := .string [45, 49, 50, 51, 52, 53, 54, 55, 56]
    ∃ size bytes, fieldSize (.plain .x64) .reference fd v = .ok size ∧
      writeValue (.plain .x64) .reference fd v = .ok bytes ∧
      tagSize .reference fd.number + size = bytes.length := by
  intro fd v
  have hsize : fieldSize (.plain .x64) .reference fd v = .ok 10 := by decide
  have hwrite : writeValue (.plain .x64) .reference fd v =
      .ok [18, 9, 45, 49, 50, 51, 52, 53, 54, 55, 56] := by
    rw [writeValue_string (.inr (.inl rfl)),
      writeString_of_lt WireFormatLite.reference_documented _ (by decide)]
    decide
  have hmeasured : Measured fd.type := trivial
  have henum : EnumDeclared (.plain .x64) fd.type v := fun _ _ h => nomatch h
  have hsame : SameMeasure (.plain .x64) fd.type v := by
    rintro s ⟨⟩
    exact .inr ⟨rfl, by decide⟩
  refine ⟨10, _, hsize, hwrite, ?_⟩
  exact (fieldSize_agrees_iff WireFormatLite.reference_documented hmeasured henum
    (by rintro s ⟨⟩; decide) hsize hwrite).mpr hsame

/-- `int64 id = 2` of "1": the number takes one byte and the text two. -/
theorem not_fieldSize_agrees_int64 :
    let fd : FieldDescriptor Unit :=
      ⟨[105, 100], 2, .int64, false, by decide, by decide, by decide⟩
    let v : LuaView Unit := .string [49]
    ∃ size bytes, fieldSize (.plain .x64) .reference fd v = .ok size ∧
      writeValue (.plain .x64) .reference fd v = .ok bytes ∧
      tagSize .reference fd.number + size ≠ bytes.length := by
  refine ⟨1, [18, 1, 49], by decide, ?_, by decide⟩
  rw [writeValue_string (.inr (.inl rfl)),
    writeString_of_lt WireFormatLite.reference_documented _ (by decide)]
  decide

end Luapb

import Luapb.Model.Reference
import Luapb.Model.Schemas
import Luapb.Verification.Encoder.Parts
import Luapb.Verification.Scalar

/-! # The size pass and the write pass

`RawByteSize` predicts what `RawEncode` writes, but for the length prefix of a singular
message, which it leaves out. -/

namespace Luapb

open Ieee754 Wire PBStream

variable {M V : Type} {P : Platform} {W : WireFormatLite} {L : LuaState} {schema : Schema M}

/-! ## One value -/

/-- The types whose values both passes treat alike. -/
def Sized : FieldType M → Prop
  | .float | .int32 | .uint32 | .bool | .string | .enum _ | .message _ => True
  | _ => False

/-- An enum value is a declared name. -/
def EnumDeclared (P : Platform) (type : FieldType M) (v : LuaView V) : Prop :=
  ∀ enumType name, type = .enum enumType → Stack.getString P v = .ok name →
    (enumType.findValueByName name).isSome

theorem tagSize_eq (hW : W.Documented) {number : ℕ} (hle : number ≤ maxFieldNumber) (t : WireType) :
    tagSize W number = (tagBytes number t).length := by
  have hlt : number * 8 < 2 ^ 32 := by
    simp only [maxFieldNumber] at hle
    omega
  rw [tagSize, hW.varintSize32, BitVec.toNat_ofNat, Nat.mod_eq_of_lt hlt, length_tagBytes]

/-- `FieldSize` and `WriteValue` agree on every value both accept. -/
theorem fieldSize_writeValue (hW : W.Documented) {fd : FieldDescriptor M} {v : LuaView V}
    (hsized : Sized fd.type) (hscalar : fd.type.messageType? = none)
    (henum : EnumDeclared P fd.type v) {size : ℤ} (hsize : fieldSizeBy P W id fd v = .ok size)
    (hlt : fd.type = .string → size < 2 ^ 31) {bytes : Bytes}
    (hwrite : writeValue P W fd v = .ok bytes) : tagSize W fd.number + size = bytes.length := by
  have htag := tagSize_eq hW fd.number_le
  generalize htype : fd.type = type at hsized
  cases type with
  | float =>
      simp only [fieldSizeBy, htype] at hsize
      simp only [writeValue, htype] at hwrite
      obtain ⟨x, -, hx⟩ := Fallible.bind_eq_ok.mp hwrite
      obtain rfl := Fallible.pure_eq_ok.mp hsize
      obtain rfl := Fallible.pure_eq_ok.mp hx
      rw [htag .fixed32, hW.writeFloat]
      simp
  | int32 =>
      simp only [fieldSizeBy, htype] at hsize
      simp only [writeValue, htype] at hwrite
      obtain ⟨x, hsize, hwrite⟩ := Fallible.bind_same hsize hwrite
      obtain rfl := Fallible.pure_eq_ok.mp hsize
      obtain rfl := Fallible.pure_eq_ok.mp hwrite
      rw [htag .varint, hW.writeInt32, hW.int32Size]
      simp
  | uint32 =>
      simp only [fieldSizeBy, htype] at hsize
      simp only [writeValue, htype] at hwrite
      obtain ⟨x, hsize, hwrite⟩ := Fallible.bind_same hsize hwrite
      obtain rfl := Fallible.pure_eq_ok.mp hsize
      obtain rfl := Fallible.pure_eq_ok.mp hwrite
      rw [htag .varint, hW.writeUInt32, hW.uInt32Size]
      simp
  | bool =>
      simp only [fieldSizeBy, htype] at hsize
      simp only [writeValue, htype] at hwrite
      obtain rfl := Fallible.pure_eq_ok.mp hsize
      obtain rfl := Fallible.pure_eq_ok.mp hwrite
      rw [htag .varint, hW.writeBool]
      cases Stack.getBool v <;> simp [Varint.encode_of_lt]
  | string =>
      simp only [fieldSizeBy, htype] at hsize
      simp only [writeValue, htype] at hwrite
      obtain ⟨c, hsize, hwrite⟩ := Fallible.bind_same hsize hwrite
      obtain ⟨s, hsize, hwrite⟩ := Fallible.bind_same hsize hwrite
      obtain rfl := Fallible.pure_eq_ok.mp hsize
      have hlt := hlt htype
      simp only [id] at hlt ⊢
      rw [writeString_of_lt hW _ (by omega)] at hwrite
      obtain rfl := Except.ok.inj hwrite
      rw [htag .lengthDelimited, hW.varintSize32, BitVec.ofInt_natCast, BitVec.toNat_ofNat,
        Nat.mod_eq_of_lt (by omega)]
      simp
  | enum enumType =>
      simp only [fieldSizeBy, htype] at hsize
      simp only [writeValue, htype] at hwrite
      obtain ⟨name, hname, hsize⟩ := Fallible.bind_eq_ok.mp hsize
      obtain ⟨name', hname', hwrite⟩ := Fallible.bind_eq_ok.mp hwrite
      obtain rfl := Except.ok.inj (hname.symm.trans hname')
      obtain ⟨evd, hevd⟩ := Option.isSome_iff_exists.mp (henum enumType name htype hname)
      simp only [hevd] at hsize hwrite
      obtain rfl := Fallible.pure_eq_ok.mp hsize
      obtain rfl := Fallible.pure_eq_ok.mp hwrite
      rw [htag .varint, hW.writeEnum, hW.enumSize]
      simp
  | message => simp [htype, FieldType.messageType?] at hscalar
  | _ => exact hsized.elim

theorem fieldSize_nonneg {fd : FieldDescriptor M} {v : LuaView V}
    (hscalar : fd.type.messageType? = none) {size : ℤ}
    (hsize : fieldSizeBy P W id fd v = .ok size) : 0 ≤ size := by
  have hcast : ∀ {n : ℕ}, (pure (n : ℤ) : Except Fault ℤ) = .ok size → 0 ≤ size := by
    intro n h
    obtain rfl := Fallible.pure_eq_ok.mp h
    exact Int.natCast_nonneg n
  have hunknown : unknownType P (0 : ℤ) = .ok size → 0 ≤ size := by
    rw [unknownType]
    split
    · exact fun h => (Except.ok.inj h).le
    · exact fun h => nomatch h
  generalize htype : fd.type = type at hscalar
  cases type <;> simp only [fieldSizeBy, htype] at hsize
  case message => cases hscalar
  case float => exact hcast (n := 4) hsize
  case bool => exact hcast (n := 1) hsize
  case int32 | uint32 =>
    obtain ⟨x, -, hsize⟩ := Fallible.bind_eq_ok.mp hsize
    exact hcast hsize
  case int64 | uint64 | string =>
    obtain ⟨c, -, hsize⟩ := Fallible.bind_eq_ok.mp hsize
    obtain ⟨s, -, hsize⟩ := Fallible.bind_eq_ok.mp hsize
    exact hcast (by exact_mod_cast hsize)
  case enum enumType =>
    obtain ⟨name, -, hsize⟩ := Fallible.bind_eq_ok.mp hsize
    split at hsize
    · exact hcast (n := 0) hsize
    · exact hcast hsize
  all_goals exact hunknown hsize

/-- A size below `2 ^ 31` is computed without wrapping. -/
theorem fieldSize_of_exact {fd : FieldDescriptor M} {v : LuaView V}
    (hscalar : fd.type.messageType? = none) {size : ℤ}
    (hsize : fieldSizeBy P W id fd v = .ok size) (hlt : size < 2 ^ 31) :
    fieldSize P W fd v = .ok size := by
  rw [fieldSize, ← hsize]
  generalize htype : fd.type = type at hscalar
  cases type <;> simp only [fieldSizeBy, htype] at hsize ⊢
  case message => cases hscalar
  case string =>
    obtain ⟨c, hc, hsize⟩ := Fallible.bind_eq_ok.mp hsize
    obtain ⟨s, hs, hsize⟩ := Fallible.bind_eq_ok.mp hsize
    have hsum := Fallible.pure_eq_ok.mp hsize
    simp only [id] at hsum
    have hlen : int32 s.length = s.length := int32_natCast (by omega)
    simp only [hc, hs, Fallible.ok_bind, id, hlen]
    rw [← Nat.cast_add, int32_natCast (by omega)]

/-! ## Adding up -/

theorem foldl_addTerms_id (terms : List (ℤ × ℤ)) (size : ℤ) :
    terms.foldl (addTerms id) size = size + (terms.map fun t => t.1 + t.2).sum := by
  induction terms generalizing size with
  | nil => simp
  | cons t terms ih =>
      rw [List.foldl_cons, ih, List.map_cons, List.sum_cons, addTerms]
      simp only [id]
      ring

theorem sum_nonneg {terms : List (ℤ × ℤ)} (h : ∀ t ∈ terms, 0 ≤ t.1 ∧ 0 ≤ t.2) :
    0 ≤ (terms.map fun t => t.1 + t.2).sum := by
  induction terms with
  | nil => rfl
  | cons t terms ih =>
      have ht := h t List.mem_cons_self
      have hrest := ih fun t ht => h t (List.mem_cons_of_mem _ ht)
      rw [List.map_cons, List.sum_cons]
      omega

theorem term_le_sum {terms : List (ℤ × ℤ)} (h : ∀ t ∈ terms, 0 ≤ t.1 ∧ 0 ≤ t.2) {t : ℤ × ℤ}
    (ht : t ∈ terms) : t.1 + t.2 ≤ (terms.map fun t => t.1 + t.2).sum := by
  induction terms with
  | nil => cases ht
  | cons u terms ih =>
      have hu := h u List.mem_cons_self
      have hrest := sum_nonneg fun t ht => h t (List.mem_cons_of_mem _ ht)
      rw [List.map_cons, List.sum_cons]
      rcases List.mem_cons.mp ht with rfl | ht
      · omega
      · have := ih (fun t ht => h t (List.mem_cons_of_mem _ ht)) ht
        omega

theorem int32_of_bounds {x : ℤ} (hnonneg : 0 ≤ x) (hlt : x < 2 ^ 31) : int32 x = x := by
  obtain ⟨k, rfl⟩ := Int.eq_ofNat_of_zero_le hnonneg
  exact int32_natCast (by omega)

/-- Partial sums of terms that are not negative stay below the whole sum. -/
theorem foldl_addTerms_int32 {terms : List (ℤ × ℤ)} (h : ∀ t ∈ terms, 0 ≤ t.1 ∧ 0 ≤ t.2)
    {size : ℤ} (hsize : 0 ≤ size)
    (hlt : size + (terms.map fun t => t.1 + t.2).sum < 2 ^ 31) :
    terms.foldl (addTerms int32) size = size + (terms.map fun t => t.1 + t.2).sum := by
  induction terms generalizing size with
  | nil => simp
  | cons t terms ih =>
      have ht := h t List.mem_cons_self
      have hrest := sum_nonneg fun t ht => h t (List.mem_cons_of_mem _ ht)
      rw [List.map_cons, List.sum_cons] at hlt ⊢
      have hstep : addTerms int32 size t = size + (t.1 + t.2) := by
        have hfirst : int32 (size + t.1) = size + t.1 := int32_of_bounds (by omega) (by omega)
        rw [addTerms, hfirst, int32_of_bounds (by omega) (by omega), Int.add_assoc]
      rw [List.foldl_cons, hstep, ih (fun t ht => h t (List.mem_cons_of_mem _ ht)) (by omega)
        (by omega)]
      omega

/-! ## Exact sizes -/

theorem PartTerms.nonneg {nested : M → L.Value → Except Fault ℤ}
    (hnested : ∀ msgD v n, nested msgD v = .ok n → 0 ≤ n)
    {part : FieldDescriptor M × L.Value} {t : ℤ × ℤ} (h : PartTerms P W L id nested part t) :
    0 ≤ t.1 ∧ 0 ≤ t.2 := by
  have htag : ∀ number, 0 ≤ tagSize W number := fun number => Int.natCast_nonneg _
  cases h with
  | scalar htype hsize => exact ⟨htag _, fieldSize_nonneg htype hsize⟩
  | repeated htype hmany hsize =>
      have := hnested _ _ _ hsize
      exact ⟨htag _, by simp only [id]; omega⟩
  | singular htype hone hsize => exact ⟨htag _, hnested _ _ _ hsize⟩

theorem terms_nonneg {nested : M → L.Value → Except Fault ℤ}
    (hnested : ∀ msgD v n, nested msgD v = .ok n → 0 ≤ n)
    {parts : List (FieldDescriptor M × L.Value)} {terms : List (ℤ × ℤ)}
    (h : List.Forall₂ (PartTerms P W L id nested) parts terms) :
    ∀ t ∈ terms, 0 ≤ t.1 ∧ 0 ≤ t.2 := by
  induction h with
  | nil => simp
  | cons ht _ ih => exact List.forall_mem_cons.mpr ⟨ht.nonneg hnested, ih⟩

theorem exactSize_nonneg {fuel : ℕ} {msgD : M} {v : L.Value} {n : ℤ}
    (h : rawByteSizeBy P W L schema id fuel msgD v = .ok n) : 0 ≤ n := by
  induction fuel generalizing msgD v n with
  | zero => cases h
  | succ fuel ih =>
      obtain ⟨terms, ⟨parts, -, hterms⟩, rfl⟩ := rawByteSizeBy_eq_ok.mp h
      rw [foldl_addTerms_id, Int.zero_add]
      exact sum_nonneg (terms_nonneg (fun _ _ _ => ih) hterms)

/-- The size of a message is part of what its part adds. -/
theorem PartTerms.message_le {fuel : ℕ} {part : FieldDescriptor M × L.Value} {t : ℤ × ℤ}
    (h : PartTerms P W L id (rawByteSizeBy P W L schema id fuel) part t) {messageType : M}
    (htype : part.1.type.messageType? = some messageType) :
    ∃ n, rawByteSizeBy P W L schema id fuel messageType part.2 = .ok n ∧ n ≤ t.1 + t.2 := by
  have htag : ∀ number, 0 ≤ tagSize W number := fun number => Int.natCast_nonneg _
  cases h with
  | scalar htype' => rw [htype] at htype'; cases htype'
  | @repeated fd _ _ size htype' _ hsize =>
      obtain rfl := Option.some.inj (htype.symm.trans htype')
      have := htag fd.number
      exact ⟨size, hsize, by simp only [id]; omega⟩
  | @singular fd _ _ size htype' _ hsize =>
      obtain rfl := Option.some.inj (htype.symm.trans htype')
      have := htag fd.number
      exact ⟨size, hsize, by simp only; omega⟩

theorem PartTerms.scalar_le {nested : M → L.Value → Except Fault ℤ}
    {part : FieldDescriptor M × L.Value} {t : ℤ × ℤ} (h : PartTerms P W L id nested part t)
    (htype : part.1.type.messageType? = none) :
    ∃ m, fieldSizeBy P W id part.1 (L.view part.2) = .ok m ∧ m ≤ t.1 + t.2 := by
  have htag : ∀ number, 0 ≤ tagSize W number := fun number => Int.natCast_nonneg _
  cases h with
  | @scalar fd _ size _ hsize =>
      have := htag fd.number
      exact ⟨size, hsize, by simp only; omega⟩
  | repeated htype' => rw [htype] at htype'; cases htype'
  | singular htype' => rw [htype] at htype'; cases htype'

/-- Below `2 ^ 31` nothing wraps on the way, and `RawByteSize` returns the exact size. -/
theorem rawByteSize_of_exact {fuel : ℕ} {msgD : M} {v : L.Value} {n : ℤ}
    (h : rawByteSizeBy P W L schema id fuel msgD v = .ok n) (hlt : n < 2 ^ 31) :
    rawByteSize P W L schema fuel msgD v = .ok n := by
  induction fuel generalizing msgD v n with
  | zero => cases h
  | succ fuel ih =>
      obtain ⟨terms, ⟨parts, hparts, hterms⟩, rfl⟩ := rawByteSizeBy_eq_ok.mp h
      have hnonneg := terms_nonneg (fun _ _ _ => exactSize_nonneg) hterms
      rw [foldl_addTerms_id, Int.zero_add] at hlt ⊢
      refine rawByteSizeBy_eq_ok.mpr ⟨terms, ⟨parts, hparts, ?_⟩, ?_⟩
      · apply Fallible.forall₂_imp hterms
        intro part _ t ht hpart
        have htle := term_le_sum hnonneg ht
        have htnonneg := hnonneg t ht
        cases hpart with
        | scalar htype hsize =>
            simp only at htle htnonneg
            exact .scalar htype (fieldSize_of_exact htype hsize (by omega))
        | @repeated fd value messageType size htype hmany hsize =>
            have hsize0 := exactSize_nonneg hsize
            simp only [id] at htle htnonneg ⊢
            have hint := int32_of_bounds (x := W.varintSize32 (BitVec.ofInt 32 size) + size)
              (by omega) (by omega)
            rw [← hint]
            exact .repeated htype hmany (ih hsize (by omega))
        | singular htype hone hsize =>
            exact .singular htype hone (ih hsize (by simp only at htle htnonneg; omega))
      · rw [foldl_addTerms_int32 hnonneg le_rfl (by omega), Int.zero_add]

/-- What a part adds is no more than the size of its table. -/
theorem exists_terms_of_mem {fuel : ℕ} {msgD : M} {tab : L.Value}
    {parts : List (FieldDescriptor M × L.Value)} (hparts : TableParts P L schema msgD tab parts)
    {part : FieldDescriptor M × L.Value} (hmem : part ∈ parts) {n : ℤ}
    (hsize : rawByteSizeBy P W L schema id (fuel + 1) msgD tab = .ok n) :
    ∃ t, PartTerms P W L id (rawByteSizeBy P W L schema id fuel) part t ∧ t.1 + t.2 ≤ n := by
  rcases rawByteSizeBy_eq_ok.mp hsize with ⟨terms, ⟨parts', hparts', hterms⟩, rfl⟩
  obtain rfl := hparts.deterministic hparts'
  rcases Fallible.exists_of_mem_right hterms.flip hmem with ⟨t, ht, hterm⟩
  have hle := term_le_sum (terms_nonneg (fun _ _ _ => exactSize_nonneg) hterms) ht
  rw [foldl_addTerms_id, Int.zero_add]
  exact ⟨t, hterm, hle⟩

/-- What a part adds is no more than the size of the table it is met in, at any depth. -/
theorem visited_terms {fuel fuel' : ℕ} {msgD : M} {tab : L.Value}
    {part : FieldDescriptor M × L.Value} (h : Visits P L schema fuel msgD tab fuel' part) {n : ℤ}
    (hsize : rawByteSizeBy P W L schema id fuel msgD tab = .ok n) :
    ∃ t, PartTerms P W L id (rawByteSizeBy P W L schema id fuel') part t ∧ t.1 + t.2 ≤ n := by
  induction h generalizing n with
  | part hparts hmem => exact exists_terms_of_mem hparts hmem hsize
  | nested hparts hmem htype _ ih =>
      rcases exists_terms_of_mem hparts hmem hsize with ⟨t, hterm, hle⟩
      rcases hterm.message_le htype with ⟨m, hm, hmle⟩
      rcases ih hm with ⟨t', hterm', hle'⟩
      exact ⟨t', hterm', by omega⟩

/-- A message is no larger than the table it is met in, at any depth. -/
theorem visited_message {fuel fuel' : ℕ} {msgD : M} {tab : L.Value}
    {part : FieldDescriptor M × L.Value} (h : Visits P L schema fuel msgD tab fuel' part)
    {messageType : M} (htype : part.1.type.messageType? = some messageType) {n : ℤ}
    (hsize : rawByteSizeBy P W L schema id fuel msgD tab = .ok n) :
    ∃ m, rawByteSizeBy P W L schema id fuel' messageType part.2 = .ok m ∧ m ≤ n := by
  rcases visited_terms h hsize with ⟨t, hterm, hle⟩
  rcases hterm.message_le htype with ⟨m, hm, hmle⟩
  exact ⟨m, hm, by omega⟩

/-- A value is no larger than the table it is met in, at any depth. -/
theorem visited_scalar {fuel fuel' : ℕ} {msgD : M} {tab : L.Value}
    {part : FieldDescriptor M × L.Value} (h : Visits P L schema fuel msgD tab fuel' part)
    (htype : part.1.type.messageType? = none) {n : ℤ}
    (hsize : rawByteSizeBy P W L schema id fuel msgD tab = .ok n) :
    ∃ m, fieldSizeBy P W id part.1 (L.view part.2) = .ok m ∧ m ≤ n := by
  rcases visited_terms h hsize with ⟨t, hterm, hle⟩
  rcases hterm.scalar_le htype with ⟨m, hm, hmle⟩
  exact ⟨m, hm, by omega⟩

end Luapb

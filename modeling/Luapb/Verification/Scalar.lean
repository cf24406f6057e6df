import Luapb.Verification.Decoder.Reading

/-! # Scalar values

What a scalar is apart from both Lua and the wire, how Lua represents it, and how
the wire format encodes it. `WriteValue` and `ReadValue` are compared with the two. -/

namespace Luapb

open Ieee754 Wire PBStream

/-- An integer in decimal. -/
def decimal (i : ℤ) : Bytes :=
  (if i < 0 then [45] else []) ++ (Nat.toDigits 10 i.natAbs).map fun c => UInt8.ofNat c.toNat

/-- The values of the scalar types that `WriteValue` and `ReadValue` handle. -/
inductive Scalar
  | float (x : CFloat)
  | int32 (v : BitVec 32)
  | uint32 (v : BitVec 32)
  | bool (b : Bool)
  | string (s : Bytes)
  | enum (value : EnumValueDescriptor)
  | int64 (v : BitVec 64)
  | uint64 (v : BitVec 64)

namespace Scalar

variable {M V : Type}

/-- The values in the range of a type. A signalling NaN is none: Lua's numbers are
doubles, and widening one makes it quiet. A string has a length that fits an `int`. -/
inductive HasType : Scalar → FieldType M → Prop
  | float {x} (h : x.IsNaN → x.IsQuiet) : HasType (.float x) .float
  | int32 (v) : HasType (.int32 v) .int32
  | uint32 (v) : HasType (.uint32 v) .uint32
  | bool (b) : HasType (.bool b) .bool
  | string {s} (h : s.length < 2 ^ 31) : HasType (.string s) .string
  | enum {enumType value} (h : enumType.findValueByName value.name = some value) :
      HasType (.enum value) (.enum enumType)
  | int64 (v) : HasType (.int64 v) .int64
  | uint64 (v) : HasType (.uint64 v) .uint64

/-- The Lua values that stand for a scalar. Integers may be any number equal to them. -/
inductive Represents : Scalar → LuaView V → Prop
  | float (x) : Represents (.float x) (.number (x.convert binary64))
  | int32 {v n} (h : n.NumEq (Binary.ofInt binary64 v.toInt)) : Represents (.int32 v) (.number n)
  | uint32 {v n} (h : n.NumEq (Binary.ofInt binary64 v.toNat)) :
      Represents (.uint32 v) (.number n)
  | bool (b) : Represents (.bool b) (.boolean b)
  | string (s) : Represents (.string s) (.string s)
  | enum (value) : Represents (.enum value) (.string value.name)
  | int64 (v) : Represents (.int64 v) (.string (decimal v.toInt))
  | uint64 (v) : Represents (.uint64 v) (.string (decimal v.toNat))

theorem Represents.enum_name {value : EnumValueDescriptor} {s : Bytes}
    (h : (Scalar.enum value).Represents (.string s : LuaView V)) : s = value.name := by
  cases h
  rfl

/-- The wire encoding without the tag, whose wire type the field's type determines. -/
def payload : Scalar → Bytes
  | .float x => fixed32 x.toBits
  | .int32 v => Varint.encode (signExtended v)
  | .uint32 v => Varint.encode v.toNat
  | .bool b => Varint.encode b.toNat
  | .string s => lengthDelimited s
  | .enum value => Varint.encode (signExtended value.number)
  | .int64 v => Varint.encode v.toNat
  | .uint64 v => Varint.encode v.toNat

/-- The values that get through. 64-bit integers travel as strings, a C string ends at
its first NUL, `lua_Integer` has 32 bits on Win32, and of an enum number only the
first name declared is ever read. -/
def Transmissible (P : Platform) : FieldType M → Scalar → Prop
  | _, .int64 _ => False
  | _, .uint64 _ => False
  | _, .string s => (0 : UInt8) ∉ s
  | _, .uint32 v => P.build = .x64 ∨ v.toNat < 2 ^ 31
  | .enum enumType, .enum value => enumType.findValueByNumber value.number = some value
  | _, _ => True

end Scalar

variable {M V : Type} {P : Platform} {W : WireFormatLite}

/-! ## Numbers -/

theorem two_pow_integerBits (build : Build) : (2 : ℤ) ^ 31 ≤ 2 ^ (build.integerBits - 1) := by
  cases build <;> decide

/-- A number equal to an integer converts to it, or else to the least `lua_Integer`. -/
theorem number2integer_numEq (build : Build) {n : LuaNumber} {i : ℤ}
    (h : n.NumEq (Binary.ofInt binary64 i)) (hi : i.natAbs < 2 ^ 53) :
    number2integer build n =
      if -2 ^ (build.integerBits - 1) ≤ i ∧ i < - -2 ^ (build.integerBits - 1) then i
      else -2 ^ (build.integerBits - 1) := by
  cases build with
  | win32 =>
      have hround : n.roundEven = some i :=
        (Binary.toIntBy_congr Binary.exactRounding_roundShift h).trans
          (Binary.toIntBy_ofInt Binary.exactRounding_roundShift hi)
      simp only [number2integer, hround]
  | x64 =>
      have hround : n.truncate = some i :=
        (Binary.toIntBy_congr Binary.exactRounding_div h).trans
          (Binary.toIntBy_ofInt Binary.exactRounding_div hi)
      simp only [number2integer, hround]

theorem getInt_numEq {n : LuaNumber} {v : BitVec 32}
    (h : n.NumEq (Binary.ofInt binary64 v.toInt)) :
    Stack.getInt P (.number n : LuaView V) = .ok v := by
  have hpow := two_pow_integerBits P.build
  have hge := v.le_toInt
  have hlt := v.toInt_lt
  have hint := number2integer_numEq P.build h (by omega)
  rw [if_pos (by omega)] at hint
  simp [Stack.getInt, Stack.checkinteger, Stack.tonumber, hint, Except.map]

theorem getUnsigned_numEq {n : LuaNumber} {v : BitVec 32}
    (h : n.NumEq (Binary.ofInt binary64 v.toNat)) (hfits : P.build = .x64 ∨ v.toNat < 2 ^ 31) :
    Stack.getUnsigned P (.number n : LuaView V) = .ok v := by
  have hv := v.isLt
  have hlt : (v.toNat : ℤ) < 2 ^ (P.build.integerBits - 1) := by
    rcases hfits with hbuild | hsmall
    · simp only [hbuild, Build.integerBits]
      omega
    · have hpow := two_pow_integerBits P.build
      omega
  have hint := number2integer_numEq P.build h (by omega)
  rw [if_pos (by omega)] at hint
  simp [Stack.getUnsigned, Stack.checkinteger, Stack.tonumber, hint, Except.map]

/-- On Win32 the larger half of the unsigned range collapses to one value. -/
theorem getUnsigned_overflow {n : LuaNumber} {v : BitVec 32}
    (h : n.NumEq (Binary.ofInt binary64 v.toNat)) (hbuild : P.build = .win32)
    (hge : 2 ^ 31 ≤ v.toNat) :
    Stack.getUnsigned P (.number n : LuaView V) = .ok (BitVec.ofNat 32 (2 ^ 31)) := by
  have hv := v.isLt
  have hint := number2integer_numEq P.build h (by omega)
  rw [if_neg (by simp only [hbuild, Build.integerBits]; omega)] at hint
  simp only [Stack.getUnsigned, Stack.checkinteger, Stack.tonumber, hint]
  rw [hbuild]
  rfl

/-! ## Writing -/

theorem int32_natCast {k : ℕ} (h : k < 2 ^ 31) : int32 k = k := by
  simp only [int32, Int.bmod]
  omega

theorem writeString_of_lt (hW : W.Documented) (number : ℕ) {s : Bytes} (hlen : s.length < 2 ^ 31) :
    writeString W number s = .ok (tagBytes number .lengthDelimited ++ lengthDelimited s) := by
  have hnat : (BitVec.ofInt 32 (s.length : ℤ)).toNat = s.length := by
    rw [BitVec.ofInt_natCast, BitVec.toNat_ofNat, Nat.mod_eq_of_lt (by omega)]
  rw [writeString, int32_natCast hlen, if_neg (by omega), hW.writeTag, hW.writeVarint32,
    hW.writeRaw, hnat, Int.toNat_natCast, List.take_length, lengthDelimited, List.append_assoc]

theorem getCString_bind (s : Bytes) (f : Bytes → Except Fault Bytes) :
    (do
      let s ← strlen (← Stack.getCString P (.string s : LuaView V))
      f s) = f (cstr s) := rfl

/-- 64-bit integers are written like strings. -/
theorem writeValue_string {fd : FieldDescriptor M}
    (htype : fd.type = .string ∨ fd.type = .int64 ∨ fd.type = .uint64) (s : Bytes) :
    writeValue P W fd (.string s : LuaView V) = writeString W fd.number (cstr s) := by
  have hcase : writeValue P W fd (.string s : LuaView V) = (do
      let s ← strlen (← Stack.getCString P (.string s : LuaView V))
      writeString W fd.number s) := by
    rcases htype with htype | htype | htype <;> rw [writeValue, htype]
  exact hcase.trans (getCString_bind s (writeString W fd.number))

/-- Where a value gets through, `WriteValue` appends its wire encoding. -/
theorem writeValue_represents (hW : W.Documented) {fd : FieldDescriptor M} {x : Scalar}
    {v : LuaView V} (hx : x.HasType fd.type) (hv : x.Represents v)
    (ht : x.Transmissible P fd.type) :
    writeValue P W fd v = .ok (tagBytes fd.number fd.type.wireType ++ x.payload) := by
  generalize htype : fd.type = type at hx ht
  cases hx with
  | float hquiet =>
      obtain ⟨x⟩ := hv
      simp only [writeValue, htype, Stack.getFloat, Stack.tonumber, hW.writeFloat,
        Binary.convert_convert _ hquiet]
      rfl
  | int32 n =>
      obtain ⟨⟩ | ⟨h⟩ := hv
      simp only [writeValue, htype, getInt_numEq h, hW.writeInt32]
      rfl
  | uint32 n =>
      cases hv with
      | uint32 h =>
          simp only [writeValue, htype, getUnsigned_numEq h ht, hW.writeUInt32]
          rfl
  | bool b =>
      cases hv
      simp only [writeValue, htype, Stack.getBool, hW.writeBool]
      rfl
  | string hlen =>
      cases hv
      rw [writeValue_string (.inl htype), cstr_of_noNul ht, writeString_of_lt hW _ hlen]
      rfl
  | enum hname =>
      cases hv
      simp only [writeValue, htype, Stack.getString, Stack.checklstring, bind, Except.bind, hname,
        hW.writeEnum]
      rfl
  | int64 n => exact ht.elim
  | uint64 n => exact ht.elim

/-! ## Reading -/

theorem signExtended_lt (v : BitVec 32) : signExtended v < 2 ^ 64 := (v.signExtend 64).isLt

/-- Truncating undoes the sign extension. -/
theorem ofNat_signExtended (v : BitVec 32) : BitVec.ofNat 32 (signExtended v) = v := by
  rw [signExtended, BitVec.ofNat_toNat]
  ext i hi
  have hi' : i < 64 := by omega
  simp [BitVec.getElem_signExtend, hi, hi']

theorem decode_encode_nil {n : ℕ} (hn : n < 2 ^ 64) :
    Varint.decode (Varint.encode n) = some (n, []) := by
  have h := Varint.decode_encode n [] hn
  rwa [List.append_nil] at h

theorem decode_tagBytes (fd : FieldDescriptor M) (t : WireType) :
    Varint.decode (tagBytes fd.number t) = some (tag fd.number t, []) :=
  decode_encode_nil ((tag_lt fd.number_le t).trans (by decide))

theorem pushUnsigned_of_fits {v : BitVec 32} (hfits : P.build = .x64 ∨ v.toNat < 2 ^ 31) :
    Stack.pushUnsigned P v = Binary.ofInt binary64 v.toNat := by
  rcases hfits with hbuild | hsmall
  · rw [Stack.pushUnsigned, hbuild]
  · rw [Stack.pushUnsigned, BitVec.toInt_eq_toNat_of_lt (by omega)]
    cases P.build <;> rfl

/-- Where a value gets through, its wire encoding reads as a value that represents it. -/
theorem Scalar.reads {type : FieldType M} {x : Scalar} (hx : x.HasType type)
    (ht : x.Transmissible P type) :
    ∃ tree : LuaTree, ScalarReads P type x.payload (some tree) ∧ x.Represents tree.view := by
  have hrefl : ∀ i, (Binary.ofInt binary64 i).NumEq (Binary.ofInt binary64 i) :=
    fun i => .refl (Binary.not_isNaN_ofInt i)
  cases hx with
  | @float x _ => exact ⟨_, .float x, .float x⟩
  | int32 v =>
      refine ⟨_, .int32 (decode_encode_nil (signExtended_lt v)), .int32 ?_⟩
      rw [ofNat_signExtended]
      exact hrefl _
  | uint32 v =>
      refine ⟨_, .uint32 (decode_encode_nil (v.isLt.trans (by decide))), .uint32 ?_⟩
      rw [BitVec.ofNat_toNat, BitVec.setWidth_eq, pushUnsigned_of_fits ht]
      exact hrefl _
  | bool b =>
      have hbool : decide (b.toNat % 2 ^ 64 ≠ 0) = b := by cases b <;> rfl
      have hread : ScalarReads P (.bool : FieldType M) (Varint.encode b.toNat) _ :=
        .bool (decode_encode_nil (by cases b <;> decide))
      rw [hbool] at hread
      exact ⟨_, hread, .bool b⟩
  | @string s hlen =>
      exact ⟨_, .string (decode_encode_nil (by omega)) hlen, .string s⟩
  | @enum enumType value hname =>
      have hfind : enumType.findValueByNumber value.number = some value := ht
      have hread : ScalarReads P (.enum enumType : FieldType M)
          (Varint.encode (signExtended value.number)) _ :=
        .enum (decode_encode_nil (signExtended_lt value.number))
      rw [ofNat_signExtended, hfind] at hread
      exact ⟨_, hread, .enum value⟩
  | int64 v => exact ht.elim
  | uint64 v => exact ht.elim

/-! ## Conformance -/

/-- `WriteValue` writes the wire encoding, whichever Lua value stands for the scalar, and
`ReadValue` stores a value that stands for it, wherever the wire encoding is read. -/
def ScalarConforms (P : Platform) (W : WireFormatLite) (fd : FieldDescriptor M) (x : Scalar) :
    Prop :=
  (∀ (V : Type) (v : LuaView V), x.Represents v →
    writeValue P W fd v = .ok (tagBytes fd.number fd.type.wireType ++ x.payload)) ∧
  ∀ (S : CodedInputStream) (s : S.Stream) (rest : Bytes) (tab : LuaTable), S.Documented →
    S.Readable s → (S.view s).unread = x.payload ++ rest →
    ∃ tree : LuaTree, (readValue P S s tab fd).tab = fillValue P tab fd tree ∧
      x.Represents tree.view

theorem uint32_fits_of_represents {v : BitVec 32}
    (h : (Scalar.uint32 v).Represents
      (LuaTree.number (Stack.pushUnsigned P (BitVec.ofNat 32 v.toNat))).view) :
    P.build = .x64 ∨ v.toNat < 2 ^ 31 := by
  rw [BitVec.ofNat_toNat, BitVec.setWidth_eq] at h
  obtain ⟨⟩ | ⟨⟩ | ⟨heq⟩ := h
  cases hbuild : P.build with
  | x64 => exact .inl rfl
  | win32 =>
      have hv := v.isLt
      have hge := v.le_toInt
      have hlt := v.toInt_lt
      rw [Stack.pushUnsigned, hbuild] at heq
      have hint := Binary.ofInt_injOn (by omega) (by omega) heq
      exact .inr (by omega)

theorem fillValue_nil_injective (fd : FieldDescriptor M) {v w : LuaTree}
    (h : fillValue P [] fd v = fillValue P [] fd w) : v = w := by
  have href : ∀ u, LuaTable.luaLRef P [] u = [(.integer 1, u)] := fun _ => rfl
  simp only [fillValue, LuaTable.get, List.find?_nil, Option.map_none, href, LuaTable.set] at h
  split at h
  · simpa using h
  · simpa using h

/-- The value `ReadValue` stores is the one that the encoding reads as. -/
theorem ScalarConforms.read {fd : FieldDescriptor M} {x : Scalar} (h : ScalarConforms P W fd x)
    {tree : LuaTree} (hread : ScalarReads P fd.type x.payload (some tree))
    (hlen : x.payload.length ≤ 2 ^ 26) : x.Represents tree.view := by
  have hS := CodedInputStream.reference_documented
  have hs := hS.toReads.create_readable hlen
  have hunread : (CodedInputStream.reference.view (StreamView.start x.payload)).unread =
      x.payload ++ [] := by
    rw [List.append_nil]
    exact hS.toReads.create_unread x.payload
  obtain ⟨tree', htab, hrep⟩ := h.2 .reference _ [] [] hS hs hunread
  have htab' := (readValue_reads (P := P) hS.toReads hs hunread hread []).1
  rw [htab] at htab'
  exact fillValue_nil_injective fd htab' ▸ hrep

theorem tagBytes_ne {number : ℕ} {t u : WireType} (hle : number ≤ maxFieldNumber) (hne : t ≠ u)
    (x y : Bytes) : tagBytes number t ++ x ≠ tagBytes number u ++ y := by
  intro h
  have ht := Varint.decode_encode (tag number t) x ((tag_lt hle t).trans (by decide))
  have hu := Varint.decode_encode (tag number u) y ((tag_lt hle u).trans (by decide))
  rw [show Varint.encode (tag number t) ++ x = Varint.encode (tag number u) ++ y from h, hu] at ht
  have htag : tag number u = tag number t := (Prod.mk.inj (Option.some.inj ht)).1
  simp only [tag, Nat.add_left_cancel_iff] at htag
  exact hne (WireType.code_injective htag.symm)

/-- A 64-bit integer goes out length-delimited, which is not its wire type. -/
theorem writeString_ne (hW : W.Documented) {number : ℕ} (hle : number ≤ maxFieldNumber)
    (s bytes : Bytes) : writeString W number s ≠ .ok (tagBytes number .varint ++ bytes) := by
  rw [writeString]
  split
  · exact fun h => nomatch h
  · intro h
    have h' := Except.ok.inj h
    rw [hW.writeTag, List.append_assoc] at h'
    exact tagBytes_ne hle (by decide) _ _ h'

/-- What goes out of a string ends at its first NUL. -/
theorem noNul_of_writeString (hW : W.Documented) {number : ℕ} {s : Bytes} (hlen : s.length < 2 ^ 31)
    (h : writeString W number (cstr s) =
      .ok (tagBytes number .lengthDelimited ++ lengthDelimited s)) :
    (0 : UInt8) ∉ s := by
  have hle : (cstr s).length ≤ s.length := (List.takeWhile_sublist _).length_le
  rw [writeString_of_lt hW number (by omega)] at h
  have hbytes := List.append_cancel_left (Except.ok.inj h)
  have hdecode := Varint.decode_encode s.length s (by omega)
  rw [show Varint.encode s.length ++ s = Varint.encode (cstr s).length ++ cstr s from hbytes.symm,
    Varint.decode_encode _ _ (by omega)] at hdecode
  have hcstr : cstr s = s := (Prod.mk.inj (Option.some.inj hdecode)).2
  intro hzero
  rw [← hcstr] at hzero
  simpa using List.mem_takeWhile_imp hzero

/-- Over the whole range of its type, a scalar is written as its wire encoding and read
from it exactly if it gets through. -/
theorem scalarConforms_iff (hW : W.Documented) {fd : FieldDescriptor M} {x : Scalar}
    (hx : x.HasType fd.type) : ScalarConforms P W fd x ↔ x.Transmissible P fd.type := by
  constructor
  · intro h
    have hwrite := h.1
    generalize htype : fd.type = type at hx
    cases hx with
    | float => trivial
    | int32 => trivial
    | bool => trivial
    | int64 v =>
        have hv := hwrite Unit _ (.int64 v)
        rw [writeValue_string (.inr (.inl htype)), htype] at hv
        exact absurd hv (writeString_ne hW fd.number_le _ _)
    | uint64 v =>
        have hv := hwrite Unit _ (.uint64 v)
        rw [writeValue_string (.inr (.inr htype)), htype] at hv
        exact absurd hv (writeString_ne hW fd.number_le _ _)
    | @string s hlen =>
        have hv := hwrite Unit _ (.string s)
        rw [writeValue_string (.inl htype), htype] at hv
        exact noNul_of_writeString hW hlen hv
    | uint32 v =>
        have hread : ScalarReads P (.uint32 : FieldType M) (Varint.encode v.toNat) _ :=
          .uint32 (decode_encode_nil (v.isLt.trans (by decide)))
        exact uint32_fits_of_represents (h.read (htype ▸ hread)
          ((Varint.length_encode_le _).trans (by decide)))
    | @enum enumType value hname =>
        have hmem : value ∈ enumType.value := List.mem_of_find?_eq_some hname
        obtain ⟨value', hfind⟩ : ∃ value', enumType.findValueByNumber value.number = some value' :=
          Option.isSome_iff_exists.mp (List.find?_isSome.mpr ⟨value, hmem, by simp⟩)
        have hread : ScalarReads P (.enum enumType : FieldType M)
            (Varint.encode (signExtended value.number)) _ :=
          .enum (decode_encode_nil (signExtended_lt value.number))
        rw [ofNat_signExtended, hfind] at hread
        have hrep := h.read (htype ▸ hread) ((Varint.length_encode_le _).trans (by decide))
        have hback := (EnumDescriptor.name_of_findValueByNumber hfind).2
        rw [hrep.enum_name, hname] at hback
        exact hfind.trans hback.symm
  · intro ht
    refine ⟨fun V v hv => writeValue_represents hW hx hv ht, ?_⟩
    intro S s rest tab hS hs hunread
    obtain ⟨tree, hread, hrep⟩ := Scalar.reads hx ht
    exact ⟨tree, (readValue_reads hS.toReads hs hunread hread tab).1, hrep⟩

/-- `int32 id = 2` -/
theorem scalarConforms_id : ScalarConforms (.plain .win32) .reference
    (⟨[105, 100], 2, .int32, false, by decide, by decide, by decide⟩ : FieldDescriptor Unit)
    (.int32 (-1)) :=
  (scalarConforms_iff WireFormatLite.reference_documented (.int32 (-1))).mpr trivial

/-- `int64 id = 2`: the integer 1 goes out as 12 01 31 and should go out as 10 01. -/
theorem not_scalarConforms_int64 : ¬ ScalarConforms (.plain .x64) .reference
    (⟨[105, 100], 2, .int64, false, by decide, by decide, by decide⟩ : FieldDescriptor Unit)
    (.int64 1) := by
  intro h
  have hwrite := h.1 Unit _ (.int64 1)
  rw [writeValue_string (.inr (.inl rfl))] at hwrite
  exact writeString_ne WireFormatLite.reference_documented (by decide) _ _ hwrite

end Luapb

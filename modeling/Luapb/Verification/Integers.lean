import Luapb.Verification.Scalar

/-! # Lua numbers in 32-bit fields

A number on its way through a field of 32 bits is converted to a `lua_Integer`, cut down
to 32 bits, written as a varint and pushed as a number again. None of these steps checks
a range, so what arrives is the number reduced to the range of the field's type. -/

namespace Luapb

open Ieee754 Wire PBStream

variable {M V : Type} {P : Platform} {W : WireFormatLite}

/-- The types whose values are integers of 32 bits. -/
inductive FieldType.IsInteger : FieldType M → Prop
  | int32 : IsInteger .int32
  | uint32 : IsInteger .uint32

/-- The integers of a type. -/
def FieldType.integers : FieldType M → Set ℤ
  | .int32 => { i | -2 ^ 31 ≤ i ∧ i < 2 ^ 31 }
  | .uint32 => { i | 0 ≤ i ∧ i < 2 ^ 32 }
  | _ => ∅

/-- The integer of a type that 32 bits stand for. -/
def FieldType.integer : FieldType M → BitVec 32 → ℤ
  | .uint32, v => v.toNat
  | _, v => v.toInt

/-- What the conversion to `lua_Integer` and to 32 bits makes of a number. -/
def reduced (P : Platform) (type : FieldType M) (n : LuaNumber) : ℤ :=
  type.integer (BitVec.ofInt 32 (number2integer P.build n))

/-- What `ReadValue` stores, wherever it reads what `WriteValue` wrote behind the tag. -/
def StoresNumber (P : Platform) (fd : FieldDescriptor M) (payload : Bytes) (m : LuaNumber) : Prop :=
  ∀ (S : CodedInputStream) (s : S.Stream) (rest : Bytes) (tab : LuaTable), S.Documented →
    S.Readable s → (S.view s).unread = payload ++ rest →
    (readValue P S s tab fd).tab = fillValue P tab fd (.number m) ∧
      S.view (readValue P S s tab fd).stream = (S.view s).advance payload.length

/-- Either `WriteValue` raises a Lua error or `ReadValue` stores an equal number. -/
def IntegerKept (P : Platform) (W : WireFormatLite) (fd : FieldDescriptor M) (n : LuaNumber) :
    Prop :=
  (∃ e, writeValue P W fd (.number n : LuaView Unit) = .error (.luaError e)) ∨
    ∃ payload m, writeValue P W fd (.number n : LuaView Unit) =
      .ok (tagBytes fd.number .varint ++ payload) ∧ StoresNumber P fd payload m ∧ n.NumEq m

/-! ## Reduction -/

@[simp] theorem FieldType.integer_int32 (v : BitVec 32) :
    (FieldType.int32 : FieldType M).integer v = v.toInt := by
  rfl

@[simp] theorem FieldType.integer_uint32 (v : BitVec 32) :
    (FieldType.uint32 : FieldType M).integer v = v.toNat := by
  rfl

@[simp] theorem FieldType.mem_integers_int32 (i : ℤ) :
    i ∈ (FieldType.int32 : FieldType M).integers ↔ -2 ^ 31 ≤ i ∧ i < 2 ^ 31 := by
  rfl

@[simp] theorem FieldType.mem_integers_uint32 (i : ℤ) :
    i ∈ (FieldType.uint32 : FieldType M).integers ↔ 0 ≤ i ∧ i < 2 ^ 32 := by
  rfl

theorem FieldType.integer_mem {type : FieldType M} (htype : type.IsInteger) (v : BitVec 32) :
    type.integer v ∈ type.integers := by
  cases htype with
  | int32 => exact ⟨v.le_toInt, v.toInt_lt⟩
  | uint32 =>
      have hlt := v.isLt
      simp only [integer_uint32, mem_integers_uint32]
      omega

theorem FieldType.integer_ofInt {type : FieldType M} (htype : type.IsInteger) {i : ℤ}
    (hi : i ∈ type.integers) : type.integer (BitVec.ofInt 32 i) = i := by
  cases htype with
  | int32 =>
      simp only [mem_integers_int32] at hi
      rw [integer_int32, BitVec.toInt_ofInt, Int.bmod_eq_of_le (by omega) (by omega)]
  | uint32 =>
      simp only [mem_integers_uint32] at hi
      rw [integer_uint32, BitVec.toNat_ofInt]
      omega

theorem FieldType.natAbs_lt {type : FieldType M} (htype : type.IsInteger) {i : ℤ}
    (hi : i ∈ type.integers) : i.natAbs < 2 ^ 53 := by
  cases htype with
  | int32 =>
      simp only [mem_integers_int32] at hi
      omega
  | uint32 =>
      simp only [mem_integers_uint32] at hi
      omega

/-- An integer of the type is what it is converted to, unless it is unsigned and
`lua_Integer` does not hold it. -/
theorem number2integer_mem {type : FieldType M} (htype : type.IsInteger) {n : LuaNumber} {i : ℤ}
    (hi : i ∈ type.integers) (h : n.NumEq (Binary.ofInt binary64 i))
    (hfits : P.build = .win32 → type = .uint32 → 0 ≤ number2integer P.build n) :
    number2integer P.build n = i := by
  have hconv := number2integer_numEq P.build h (FieldType.natAbs_lt htype hi)
  split at hconv
  · exact hconv
  · rename_i hout
    cases htype with
    | int32 =>
        have hpow := two_pow_integerBits P.build
        simp only [FieldType.mem_integers_int32] at hi
        omega
    | uint32 =>
        simp only [FieldType.mem_integers_uint32] at hi
        cases hbuild : P.build with
        | x64 =>
            have hpow : (2 : ℤ) ^ (P.build.integerBits - 1) = 2 ^ 63 := by rw [hbuild]; rfl
            omega
        | win32 =>
            have hpow : (2 : ℤ) ^ (P.build.integerBits - 1) = 2 ^ 31 := by rw [hbuild]; rfl
            have hpos := hfits hbuild rfl
            omega

theorem reduced_numEq {type : FieldType M} (htype : type.IsInteger) {n : LuaNumber} {i : ℤ}
    (hi : i ∈ type.integers) (h : n.NumEq (Binary.ofInt binary64 i))
    (hfits : P.build = .win32 → type = .uint32 → 0 ≤ number2integer P.build n) :
    reduced P type n = i := by
  rw [reduced, number2integer_mem htype hi h hfits, FieldType.integer_ofInt htype hi]

/-! ## The way through the field -/

/-- What `WriteValue` writes behind the tag, the sign of an `int32` extended. -/
def FieldType.integerPayload : FieldType M → BitVec 32 → Bytes
  | .uint32, v => Varint.encode v.toNat
  | _, v => Varint.encode (signExtended v)

theorem writeValue_number (hW : W.Documented) {fd : FieldDescriptor M} (htype : fd.type.IsInteger)
    (n : LuaNumber) :
    writeValue P W fd (.number n : LuaView V) = .ok (tagBytes fd.number .varint ++
      fd.type.integerPayload (BitVec.ofInt 32 (number2integer P.build n))) := by
  generalize hfd : fd.type = type at htype
  cases htype with
  | int32 =>
      simp only [writeValue, hfd, Stack.getInt, Stack.checkinteger, Stack.tonumber, Except.map,
        bind, Except.bind, hW.writeInt32]
      rfl
  | uint32 =>
      simp only [writeValue, hfd, Stack.getUnsigned, Stack.checkinteger, Stack.tonumber, Except.map,
        bind, Except.bind, hW.writeUInt32]
      rfl

/-- The number `ReadValue` pushes for 32 bits. -/
def pushed (P : Platform) : FieldType M → BitVec 32 → LuaNumber
  | .uint32, v => Stack.pushUnsigned P v
  | _, v => Stack.pushInt v

theorem storesNumber_integerPayload {fd : FieldDescriptor M} (htype : fd.type.IsInteger)
    (v : BitVec 32) : StoresNumber P fd (fd.type.integerPayload v) (pushed P fd.type v) := by
  intro S s rest tab hS hs hunread
  have hread : ScalarReads P fd.type (fd.type.integerPayload v)
      (some (.number (pushed P fd.type v))) := by
    generalize fd.type = type at htype
    cases htype with
    | int32 =>
        have h := ScalarReads.int32 (P := P) (M := M) (decode_encode_nil (signExtended_lt v))
        rwa [ofNat_signExtended] at h
    | uint32 =>
        have h := ScalarReads.uint32 (P := P) (M := M)
          (decode_encode_nil (v.isLt.trans (by decide)))
        rwa [BitVec.ofNat_toNat, BitVec.setWidth_eq] at h
  have hvalue := readValue_reads hS.toReads hs hunread hread tab
  exact ⟨hvalue.1, hvalue.2.2⟩

theorem integerPayload_length_le {type : FieldType M} (htype : type.IsInteger) (v : BitVec 32) :
    (type.integerPayload v).length ≤ 2 ^ 26 := by
  cases htype with
  | int32 => exact (Varint.length_encode_le _).trans (by decide)
  | uint32 => exact (Varint.length_encode_le _).trans (by decide)

theorem StoresNumber.unique {fd : FieldDescriptor M} {payload : Bytes} {m m' : LuaNumber}
    (hlen : payload.length ≤ 2 ^ 26) (h : StoresNumber P fd payload m)
    (h' : StoresNumber P fd payload m') : m = m' := by
  have hS := CodedInputStream.reference_documented
  have hs := hS.toReads.create_readable hlen
  have hunread : (CodedInputStream.reference.view (StreamView.start payload)).unread =
      payload ++ [] := by
    rw [List.append_nil]
    exact hS.toReads.create_unread payload
  have hm := (h .reference _ [] [] hS hs hunread).1
  have hm' := (h' .reference _ [] [] hS hs hunread).1
  exact LuaTree.number.inj (fillValue_nil_injective fd (hm.symm.trans hm'))

/-- An unsigned value is pushed as what it is if `lua_Integer` holds it. -/
theorem pushed_eq {type : FieldType M} (htype : type.IsInteger) {v : BitVec 32}
    (hfits : P.build = .win32 → type = .uint32 → v.toNat < 2 ^ 31) :
    pushed P type v = Binary.ofInt binary64 (type.integer v) := by
  cases htype with
  | int32 => rfl
  | uint32 =>
      apply pushUnsigned_of_fits
      cases hbuild : P.build with
      | x64 => exact .inl rfl
      | win32 => exact .inr (hfits hbuild rfl)

theorem number2integer_lt (build : Build) (n : LuaNumber) :
    number2integer build n < 2 ^ (build.integerBits - 1) := by
  have hpow : (0 : ℤ) < 2 ^ (build.integerBits - 1) := by positivity
  simp only [number2integer]
  split
  · omega
  · split
    · omega
    · omega

theorem pushed_number2integer {type : FieldType M} (htype : type.IsInteger) {n : LuaNumber}
    (hfits : P.build = .win32 → type = .uint32 → 0 ≤ number2integer P.build n) :
    pushed P type (BitVec.ofInt 32 (number2integer P.build n)) =
      Binary.ofInt binary64 (reduced P type n) := by
  apply pushed_eq htype
  intro hbuild huint
  have hpos := hfits hbuild huint
  have hlt := number2integer_lt P.build n
  have hpow : (2 : ℤ) ^ (P.build.integerBits - 1) = 2 ^ 31 := by rw [hbuild]; rfl
  rw [BitVec.toNat_ofInt]
  omega

theorem writeValue_stores (hW : W.Documented) {fd : FieldDescriptor M}
    (htype : fd.type.IsInteger) {n : LuaNumber}
    (hfits : P.build = .win32 → fd.type = .uint32 → 0 ≤ number2integer P.build n) :
    ∃ payload, payload.length ≤ 2 ^ 26 ∧
      (∀ V : Type, writeValue P W fd (.number n : LuaView V) =
        .ok (tagBytes fd.number .varint ++ payload)) ∧
      StoresNumber P fd payload (Binary.ofInt binary64 (reduced P fd.type n)) := by
  refine ⟨_, integerPayload_length_le htype _, fun V => writeValue_number hW htype n, ?_⟩
  rw [← pushed_number2integer htype hfits]
  exact storesNumber_integerPayload htype _

/-- A number is kept if reducing it leaves it what it is. -/
theorem integerKept_iff_reduced (hW : W.Documented) {fd : FieldDescriptor M}
    (htype : fd.type.IsInteger) {n : LuaNumber}
    (hfits : P.build = .win32 → fd.type = .uint32 → 0 ≤ number2integer P.build n) :
    IntegerKept P W fd n ↔ n.NumEq (Binary.ofInt binary64 (reduced P fd.type n)) := by
  obtain ⟨payload, hlen, hwrite, hstores⟩ := writeValue_stores hW htype hfits
  constructor
  · intro h
    rcases h with ⟨e, herror⟩ | ⟨payload', m, hwrite', hstores', heq⟩
    · rw [hwrite] at herror
      cases herror
    · have hsame : payload = payload' :=
        List.append_cancel_left (Except.ok.inj ((hwrite Unit).symm.trans hwrite'))
      subst hsame
      rwa [hstores.unique hlen hstores']
  · intro heq
    exact .inr ⟨payload, _, hwrite Unit, hstores, heq⟩

/-- Every number is accepted and arrives reduced to the range of the type, which leaves it
what it is exactly if it is an integer of the type. -/
theorem integerKept_iff (hW : W.Documented) {fd : FieldDescriptor M} (htype : fd.type.IsInteger)
    {n : LuaNumber}
    (hfits : P.build = .win32 → fd.type = .uint32 → 0 ≤ number2integer P.build n) :
    (∃ payload, writeValue P W fd (.number n : LuaView V) =
        .ok (tagBytes fd.number .varint ++ payload) ∧
      StoresNumber P fd payload (Binary.ofInt binary64 (reduced P fd.type n))) ∧
    (IntegerKept P W fd n ↔ ∃ i ∈ fd.type.integers, n.NumEq (Binary.ofInt binary64 i)) := by
  constructor
  · obtain ⟨payload, -, hwrite, hstores⟩ := writeValue_stores hW htype hfits
    exact ⟨payload, hwrite V, hstores⟩
  · rw [integerKept_iff_reduced hW htype hfits]
    constructor
    · intro heq
      exact ⟨_, FieldType.integer_mem htype _, heq⟩
    · intro h
      obtain ⟨i, hi, heq⟩ := h
      rwa [reduced_numEq htype hi heq hfits]

/-- The number -1 is kept. -/
theorem integerKept_minusOne :
    (∃ payload, writeValue (.plain .win32) .reference integerField
        (.number (Binary.ofInt binary64 (-1)) : LuaView Unit) =
        .ok (tagBytes 2 .varint ++ payload) ∧
      StoresNumber (.plain .win32) integerField payload
        (Binary.ofInt binary64 (reduced (.plain .win32) integerField.type
          (Binary.ofInt binary64 (-1))))) ∧
    (IntegerKept (.plain .win32) .reference integerField (Binary.ofInt binary64 (-1)) ↔
      ∃ i ∈ integerField.type.integers,
        (Binary.ofInt binary64 (-1)).NumEq (Binary.ofInt binary64 i)) :=
  integerKept_iff WireFormatLite.reference_documented .int32 (fun _ h => by cases h)

/-- 4294967297 arrives as 1. -/
theorem not_integerKept_wrapped : ¬ IntegerKept (.plain .x64) .reference integerField
    (Binary.ofInt binary64 (2 ^ 32 + 1)) := by
  rw [integerKept_iff_reduced WireFormatLite.reference_documented .int32 (fun _ h => by cases h)]
  intro heq
  have hconv := number2integer_numEq .x64 (Binary.NumEq.refl (Binary.not_isNaN_ofInt (2 ^ 32 + 1)))
    (by decide)
  have hreduced :
      reduced (.plain .x64) integerField.type (Binary.ofInt binary64 (2 ^ 32 + 1)) = 1 := by
    rw [reduced, show (Platform.plain .x64).build = .x64 from rfl, hconv]
    rfl
  rw [hreduced] at heq
  exact absurd (Binary.ofInt_injOn (by decide) (by decide) heq) (by decide)

end Luapb

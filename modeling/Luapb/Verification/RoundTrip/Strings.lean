import Luapb.Verification.Decoder.Contents
import Luapb.Verification.Encoder.Agreement

/-! # Strings with arbitrary bytes

`WriteValue` and `FieldSize` see a string as a C string, which ends at the first NUL,
while `ReadValue` goes by the length in the record. -/

namespace Luapb

open Wire PBStream

variable {M : Type} {P : Platform} {W : WireFormatLite} {L : LuaState} {schema : Schema M}

/-! ## One string -/

/-- A record carries all of a string, and `RawDecode` of the record stores it. -/
structure StringKept (P : Platform) (schema : Schema M) (fd : FieldDescriptor M)
    (s record : Bytes) : Prop where
  carries : record = tagBytes fd.number .lengthDelimited ++ lengthDelimited s
  decodes : ∀ (S : CodedInputStream) (garbage : S.Stream → ℤ) (msgD : M), S.Documented →
    fd ∈ (schema msgD).field → record.length ≤ S.totalBytesLimit →
    ∃ fuel run, rawDecode P S garbage schema fuel 1 (S.create record) msgD = some run ∧
      run.tab = [(.string fd.name,
        if fd.isRepeated then .table (LuaTable.ofList [.string s]) else .string s)]

theorem fillValue_nil (fd : FieldDescriptor M) (tree : LuaTree) :
    fillValue P [] fd tree = [(.string fd.name,
      if fd.isRepeated then .table (LuaTable.ofList [tree]) else tree)] := by
  have hget : LuaTable.get [] (.string fd.name) = none := rfl
  rw [fillValue, hget, LuaTable.luaLRef_nil]
  split <;> rfl

theorem decode_string {S : CodedInputStream} (hS : S.Documented) (garbage : S.Stream → ℤ)
    {msgD : M} {fd : FieldDescriptor M} (hmem : fd ∈ (schema msgD).field)
    (htype : fd.type = .string) {s : Bytes} (hlt : s.length < 2 ^ 31)
    (hlen : (tagBytes fd.number .lengthDelimited ++ lengthDelimited s).length ≤
      S.totalBytesLimit) :
    ∃ fuel run, rawDecode P S garbage schema fuel 1
        (S.create (tagBytes fd.number .lengthDelimited ++ lengthDelimited s)) msgD = some run ∧
      run.tab = fillValue P [] fd (.string s) := by
  have hread : ScalarReads P fd.type (lengthDelimited s) (some (.string s)) := by
    rw [htype]
    exact .string (decode_encode_nil (by omega)) hlt
  have hdenotes : Denotes P schema S.recursionLimit msgD []
      (tagBytes fd.number .lengthDelimited ++ (lengthDelimited s ++ []))
      (fillValue P [] fd (.string s)) := by
    refine .value hmem ?_ hread .nil
    rw [htype]
    exact decode_tagBytes fd .lengthDelimited
  rw [List.append_nil] at hdenotes
  exact ⟨_, hdenotes.rawDecode hS hlen (Nat.lt_succ_self _)⟩

/-- What is written of a string without a NUL is all of it, and no other string gets through. -/
theorem stringKept_iff (hW : W.Documented) {fd : FieldDescriptor M} (htype : fd.type = .string)
    {s record : Bytes} (hlt : s.length < 2 ^ 31)
    (hwrite : writeValue P W fd (.string s : LuaView L.Value) = .ok record) :
    StringKept P schema fd s record ↔ (0 : UInt8) ∉ s := by
  rw [writeValue_string (.inl htype)] at hwrite
  constructor
  · intro h
    apply noNul_of_writeString hW hlt
    rw [hwrite, h.carries]
  · intro hnul
    rw [cstr_of_noNul hnul, writeString_of_lt hW _ hlt] at hwrite
    obtain rfl := Except.ok.inj hwrite
    refine ⟨rfl, ?_⟩
    intro S garbage msgD hS hmem hlen
    obtain ⟨fuel, run, hrun, htab⟩ := decode_string hS garbage hmem htype hlt hlen
    exact ⟨fuel, run, hrun, htab.trans (fillValue_nil fd _)⟩

/-! ## All strings of a table -/

variable (P W L schema) in
/-- For every string met in a STRING field, what `RawEncode` wrote for it is part of what it
wrote, carries the string and decodes to it. -/
def StringsKept (fuel : ℕ) (msgD : M) (tab : L.Value) (written : Bytes) : Prop :=
  ∀ fuel' fd value s, Visits P L schema fuel msgD tab fuel' (fd, value) → fd.type = .string →
    L.view value = .string s → s.length < 2 ^ 31 →
    ∃ record, Record P W L schema fuel' (fd, value) record ∧ record <:+: written ∧
      StringKept P schema fd s record

/-- The value of a STRING field has no NUL if it is a string. -/
def NulFree (L : LuaState) (part : FieldDescriptor M × L.Value) : Prop :=
  part.1.type = .string → ∀ s, L.view part.2 = .string s → s.length < 2 ^ 31 → (0 : UInt8) ∉ s

/-- Where `RawEncode` raises no error, strings get through exactly if none has a NUL. -/
theorem stringsKept_iff (hW : W.Documented) {fuel : ℕ} {msgD : M} {tab : L.Value}
    {written : Bytes} (hencode : rawEncode P W L schema fuel msgD [] tab = .ok written) :
    StringsKept P W L schema fuel msgD tab written ↔
      Everywhere P L schema (NulFree L) fuel msgD tab := by
  have hscalar : ∀ {fd : FieldDescriptor M}, fd.type = .string → fd.type.messageType? = none := by
    intro fd htype
    rw [htype]
    rfl
  constructor
  · intro h fuel' part hvisits htype s hview hlt
    obtain ⟨record, hrecord, -, hkept⟩ := h fuel' _ _ s hvisits htype hview hlt
    have hwrite := hrecord.scalar_eq (hscalar htype)
    rw [hview] at hwrite
    exact (stringKept_iff hW htype hlt hwrite).mp hkept
  · intro h fuel' fd value s hvisits htype hview hlt
    obtain ⟨record, hrecord, hinfix⟩ := exists_record hvisits hencode
    have hwrite := hrecord.scalar_eq (hscalar htype)
    rw [hview] at hwrite
    exact ⟨record, hrecord, hinfix, (stringKept_iff hW htype hlt hwrite).mpr
      (h fuel' _ hvisits htype s hview hlt)⟩

/-- `{name = "ab"}` -/
theorem stringsKept_ab : StringsKept (.plain .x64) .reference LuaTree.state AddressBook.schema 1
    .person (AddressBook.named [97, 98]) [10, 2, 97, 98] := by
  refine (stringsKept_iff WireFormatLite.reference_documented (by decide +kernel)).mpr ?_
  have hnamed : TableParts (.plain .x64) LuaTree.state AddressBook.schema .person
      (AddressBook.named [97, 98]) _ := .entries rfl (.cons (.singular rfl rfl rfl) .nil)
  refine (everywhere_succ hnamed).mpr (List.forall_mem_singleton.mpr ⟨?_, ?_⟩)
  · rintro - s ⟨⟩ -
    decide
  · rintro _ ⟨⟩

/-- `{name = "a\0b"}`: `Encode` raises nothing and drops what follows the NUL. -/
theorem not_stringsKept_nul :
    encode (.plain .x64) .reference LuaTree.state AddressBook.schema (fun _ => some .person)
        (fun _ => 0) 1 (.string []) (AddressBook.named [97, 0, 98]) = .ok (some [10, 1, 97]) ∧
      ¬ StringsKept (.plain .x64) .reference LuaTree.state AddressBook.schema 1 .person
        (AddressBook.named [97, 0, 98]) [10, 1, 97] := by
  refine ⟨by decide +kernel, ?_⟩
  intro h
  have hvisits : Visits (.plain .x64) LuaTree.state AddressBook.schema 1 .person
      (AddressBook.named [97, 0, 98]) 0 _ :=
    .part (.entries rfl (.cons (.singular rfl rfl rfl) .nil)) (List.mem_singleton_self _)
  obtain ⟨record, -, hinfix, hkept⟩ := h 0 _ _ [97, 0, 98] hvisits rfl rfl (by decide)
  have hlen := hinfix.length_le
  rw [hkept.carries] at hlen
  simp [tagBytes, lengthDelimited, Varint.encode_of_lt, tag] at hlen

end Luapb

import Luapb.Verification.Tutorial.Interop

/-! # Encoded tables

What `Encode` writes for the tables of the address book, the generated code parses. `TestEncode`
of the test program compares what it has parsed with a message of its own. -/

namespace Luapb

open Wire PBStream

namespace Tutorial

variable {S : GeneratedInputStream} {W : GeneratedWireFormat} {P : Platform}
  {utf8 : Bytes → Bool} {unset : ℤ}

theorem addressBook_supported : SchemaSupported Luapb.AddressBook.schema where
  sized := by
    rintro (_ | _ | _) <;>
      simp [Luapb.AddressBook.schema, Luapb.AddressBook.phoneNumber, Luapb.AddressBook.person,
        Luapb.AddressBook.addressBook, Sized]
  messages_repeated := by
    rintro (_ | _ | _) <;>
      simp [Luapb.AddressBook.schema, Luapb.AddressBook.phoneNumber, Luapb.AddressBook.person,
        Luapb.AddressBook.addressBook, FieldType.messageType?]
  numbers_nodup := by
    rintro (_ | _ | _) <;>
      simp [Luapb.AddressBook.schema, Luapb.AddressBook.phoneNumber, Luapb.AddressBook.person,
        Luapb.AddressBook.addressBook, Luapb.AddressBook.phoneType]

theorem addressBook_type_ne (msgD : Luapb.AddressBook.Message) :
    ∀ fd ∈ (Luapb.AddressBook.schema msgD).field, fd.type ≠ .uint32 := by
  cases msgD <;>
    simp [Luapb.AddressBook.schema, Luapb.AddressBook.phoneNumber, Luapb.AddressBook.person,
      Luapb.AddressBook.addressBook]

section

variable {L : LuaState}

variable (P L) in
/-- The strings of a table are valid, at any depth. -/
def StringsValid (utf8 : Bytes → Bool) : ℕ → Luapb.AddressBook.Message → L.Value → Prop :=
  Everywhere P L Luapb.AddressBook.schema fun part =>
    part.1.type = .string → ∀ s, L.view part.2 = .string s → utf8 s = true

/-- No field of the address book is unsigned. -/
theorem StringsValid.partValid {fuel : ℕ} {msgD : Luapb.AddressBook.Message} {tab : L.Value}
    (h : StringsValid P L utf8 fuel msgD tab) :
    Everywhere P L Luapb.AddressBook.schema (PartValid P L utf8) fuel msgD tab := by
  intro fuel' part hvisits
  obtain ⟨msgD, hmem⟩ := hvisits.mem_field
  exact ⟨fun huint => absurd huint (addressBook_type_ne msgD _ hmem), h fuel' part hvisits⟩

variable (hS : S.Documented) (hW : W.Documented)
  {findMessage : Bytes → Option Luapb.AddressBook.Message} (heap : ℕ → UInt8) {fuel : ℕ}
  (hfuel : S.recursionLimit < fuel) {name tab : L.Value} {s : Bytes}
  (hname : Stack.checklstring P (L.view name) = .ok s)

include hS hW hfuel hname

/-- What `Encode` writes are the records of a message, which `Decode` reads as a table equal to
the one that was encoded. -/
theorem encode_contents {msgD : Luapb.AddressBook.Message}
    (hfind : findMessage (cstr s) = some msgD)
    (htab : Conforming L Luapb.AddressBook.schema S.recursionLimit msgD tab)
    (hsize : ∀ n, rawByteSizeBy P W.toWireFormatLite L Luapb.AddressBook.schema id fuel msgD tab =
      .ok n → n ≤ S.totalBytesLimit)
    (hvalid : StringsValid P L utf8 fuel msgD tab) :
    ∃ payload fields, encode P W.toWireFormatLite L Luapb.AddressBook.schema findMessage heap fuel
        name tab = .ok (some payload) ∧
      payload.length ≤ S.totalBytesLimit ∧
      Contents Luapb.AddressBook.schema S.recursionLimit msgD payload fields ∧
      (∀ f ∈ fields, f.2.Valid utf8) ∧
      Equal L (L.view tab) (.table (fillAll P [] (storesOf P fields))) := by
  obtain ⟨n, hn⟩ := htab.exists_size (P := P) (W := W.toWireFormatLite) hfuel
  have hlimit := hsize n hn
  have hlt := hS.totalBytesLimit_lt
  obtain ⟨payload, value, hlen, hwrote, hdenotes, hiff⟩ :=
    htab.trips hW.toDocumented addressBook_supported hfuel hn (by omega)
  obtain ⟨fields, hfields, hfieldsValid⟩ := htab.contents hW.toDocumented addressBook_supported
    hfuel hn (by omega) hvalid.partValid hwrote
  have hraw := rawByteSize_of_exact hn (by omega)
  rw [← hlen] at hraw
  refine ⟨payload, fields, encode_of_size heap hname hfind hraw hwrote (by omega), by omega,
    hfields, hfieldsValid, ?_⟩
  have hfits : UnsignedFits P L Luapb.AddressBook.schema fuel msgD tab :=
    fun fuel' part hvisits => (hvalid.partValid fuel' part hvisits).1
  -- both are what `Decode` returns
  obtain ⟨run, hrun, hvalue⟩ : ∃ run, rawDecode P S.toCodedInputStream (fun _ => 0)
      Luapb.AddressBook.schema (payload.length + 1) 1 (S.create payload) msgD = some run ∧
      run.tab = value :=
    hdenotes.rawDecode hS.toDocumented (by omega) (Nat.lt_succ_self payload.length)
  obtain ⟨run', hrun', hfill⟩ := (hfields.denotes (P := P) []).rawDecode hS.toDocumented
    (by omega) (Nat.lt_succ_self payload.length)
  obtain rfl := Option.some.inj (hrun.symm.trans hrun')
  rw [← hfill, hvalue]
  exact hiff.mpr hfits

variable (unset) in
/-- `Encode` writes records of the generated code's parser, and the table shows what they make. -/
theorem AddressBook.encoded_records (hfind : findMessage (cstr s) = some .addressBook)
    (htab : Conforming L Luapb.AddressBook.schema S.recursionLimit .addressBook tab)
    (hsize : ∀ n, rawByteSizeBy P W.toWireFormatLite L Luapb.AddressBook.schema id fuel
      .addressBook tab = .ok n → n ≤ S.totalBytesLimit)
    (hvalid : StringsValid P L S.verifyUtf8String fuel .addressBook tab) :
    ∃ rs, (grammar S.verifyUtf8String unset).WellFormed rs ∧
      (Tagged.concat rs).length ≤ S.totalBytesLimit ∧
      encode P W.toWireFormatLite L Luapb.AddressBook.schema findMessage heap fuel name tab =
        .ok (some (Tagged.concat rs)) ∧
      ∀ m, m.person = [] → Tabled L.view (AddressBook.ShownBy L.view) tab (Tagged.apply rs m) := by
  obtain ⟨payload, fields, hencode, hlen, hfields, hfieldsValid, hequal⟩ :=
    encode_contents hS hW heap hfuel hname hfind htab hsize hvalid
  have hsimulated : Simulated P _ Luapb.AddressBook.schema (grammar S.verifyUtf8String unset)
      .addressBook shown := simulated
  obtain ⟨rs, hrs, rfl, hshown⟩ := hsimulated.records hfields hfieldsValid
  refine ⟨rs, hrs, hlen, hencode, ?_⟩
  intro m hm
  have hshown := hshown [] m ⟨hm⟩
  generalize hview : L.view tab = view at hequal
  cases hequal with
  | @table entries _ hkeys hvalues =>
      exact ⟨entries, hview, ShownBy.of_equal htab hview (.table hkeys hvalues) hshown⟩

/-- What `Encode` writes for an `AddressBook` the generated code parses, and what it parses
the table shows. -/
theorem AddressBook.encoded_parses (hdepth : 2 ≤ S.recursionLimit)
    (hfind : findMessage (cstr s) = some .addressBook)
    (htab : Conforming L Luapb.AddressBook.schema S.recursionLimit .addressBook tab)
    (hsize : ∀ n, rawByteSizeBy P W.toWireFormatLite L Luapb.AddressBook.schema id fuel
      .addressBook tab = .ok n → n ≤ S.totalBytesLimit)
    (hvalid : StringsValid P L S.verifyUtf8String fuel .addressBook tab) (m' : AddressBook) :
    ∃ payload m, encode P W.toWireFormatLite L Luapb.AddressBook.schema findMessage heap fuel
        name tab = .ok (some payload) ∧
      (∀ steps, payload.length < steps →
        m'.parseFromString S unset steps payload = some (true, m)) ∧
      Tabled L.view (AddressBook.ShownBy L.view) tab m := by
  obtain ⟨rs, hrs, hlen, hencode, hshown⟩ :=
    encoded_records unset hS hW heap hfuel hname hfind htab hsize hvalid
  refine ⟨_, Tagged.apply rs m'.clear, hencode, ?_, hshown m'.clear rfl⟩
  intro steps hsteps
  exact parseFromString_eq hS hlen (mergePartial_create hS hdepth hrs hlen hsteps m'.clear)

/-- A table goes to the generated code and comes back: what `RawDecode` makes of the bytes that
are written for the parsed message shows what the table shows, as long as nothing is packed. -/
theorem AddressBook.comes_back (hdepth : 2 ≤ S.recursionLimit)
    (hfind : findMessage (cstr s) = some .addressBook)
    (htab : Conforming L Luapb.AddressBook.schema S.recursionLimit .addressBook tab)
    (hsize : ∀ n, rawByteSizeBy P W.toWireFormatLite L Luapb.AddressBook.schema id fuel
      .addressBook tab = .ok n → n ≤ S.totalBytesLimit)
    (hvalid : StringsValid P L S.verifyUtf8String fuel .addressBook tab) {m : AddressBook}
    (hm : Tabled L.view (AddressBook.ShownBy L.view) tab m)
    (htest : ∀ person ∈ m.person, person.test = []) (hlen : m.wire.length ≤ S.totalBytesLimit)
    (garbage : S.Stream → ℤ) (m' : AddressBook) :
    ∃ payload, encode P W.toWireFormatLite L Luapb.AddressBook.schema findMessage heap fuel
        name tab = .ok (some payload) ∧
      ∀ steps, payload.length < steps → m.wire.length < steps → ∃ parsed run,
        m'.parseFromString S unset steps payload = some (true, parsed) ∧
        rawDecode P S.toCodedInputStream garbage Luapb.AddressBook.schema steps 1
          (S.create (parsed.serializeAsString W)) .addressBook = some run ∧
        m.ShownBy LuaTree.view (entryOf run.tab) := by
  obtain ⟨rs, hrs, hlength, hencode, hshown⟩ :=
    encoded_records unset hS hW heap hfuel hname hfind htab hsize hvalid
  refine ⟨_, hencode, ?_⟩
  intro steps hsteps hstepsBack
  have hparse : m'.parseFromString S unset steps (Tagged.concat rs) =
      some (true, Tagged.apply rs m'.clear) :=
    parseFromString_eq hS hlength (mergePartial_create hS hdepth hrs hlength hsteps m'.clear)
  have hdata : (Tagged.apply rs m'.clear).data = m.data :=
    Tabled.data_eq (fun _ => ShownBy.data_eq) (hshown m'.clear rfl) hm
  have hwire := wire_eq_of_data_eq hdata
  obtain ⟨entries, -, hentries⟩ := hm
  obtain ⟨run, hrun, hback⟩ := wire_decodes (P := P) hS hdepth htest hentries.types_named hlen
    garbage hstepsBack
  refine ⟨Tagged.apply rs m'.clear, run, hparse, ?_, hback⟩
  rw [serializeAsString_eq hW (hwire ▸ lt_of_le_of_lt hlen hS.totalBytesLimit_lt), hwire]
  exact hrun

/-- `TestEncode` answers yes to what `Encode` writes exactly if the table shows the answer. -/
theorem testEncode_encoded (hdepth : 1 ≤ S.recursionLimit)
    (hfind : findMessage (cstr s) = some .person)
    (htab : Conforming L Luapb.AddressBook.schema S.recursionLimit .person tab)
    (hsize : ∀ n, rawByteSizeBy P W.toWireFormatLite L Luapb.AddressBook.schema id fuel
      .person tab = .ok n → n ≤ S.totalBytesLimit)
    (hvalid : StringsValid P L S.verifyUtf8String fuel .person tab) {m answerPb : Person}
    (hm : Tabled L.view (Person.ShownBy L.view) tab m) (hlen : m.wire.length ≤ S.totalBytesLimit)
    (hanswer : answerPb.wire.length < 2 ^ 31) :
    ∃ payload, encode P W.toWireFormatLite L Luapb.AddressBook.schema findMessage heap fuel
        name tab = .ok (some payload) ∧
      ∀ steps, payload.length < steps → testEncode S W unset steps answerPb 1 payload =
        some (decide (m.data = answerPb.data)) := by
  obtain ⟨payload, fields, hencode, hlength, hfields, hfieldsValid, hequal⟩ :=
    encode_contents hS hW heap hfuel hname hfind htab hsize hvalid
  have hsimulated : Simulated P _ Luapb.AddressBook.schema (Person.grammar S.verifyUtf8String)
      .person Person.shown := Person.simulated
  obtain ⟨rs, hrs, rfl, hshown⟩ := hsimulated.records hfields hfieldsValid
  refine ⟨_, hencode, ?_⟩
  intro steps hsteps
  have hparse := Person.parseFromString_records hS hdepth hrs hlength hsteps (.new unset)
  have hshown := hshown [] (Person.new unset).clear ⟨rfl, rfl, rfl, rfl, rfl⟩
  generalize Tagged.apply rs (Person.new unset).clear = memPb at hparse hshown
  have hdata : memPb.data = m.data := by
    obtain ⟨entries, hview, hm⟩ := hm
    rw [hview] at hequal
    exact (hshown.of_equal htab hview hequal).data_eq hm
  have hwire := Person.wire_eq_of_data_eq hdata
  have hmem : memPb.wire.length < 2 ^ 31 := by
    rw [hwire]
    exact lt_of_le_of_lt hlen hS.totalBytesLimit_lt
  rw [testEncode, if_pos rfl, hparse, Option.map_some, Bool.true_and,
    Person.serializeAsString_eq hW hmem, Person.serializeAsString_eq hW hanswer, hwire]
  congr 2
  rw [eq_iff_iff]
  exact ⟨Person.data_eq_of_wire_eq hS hdepth hlen, Person.wire_eq_of_data_eq⟩

end

/-! ## The test program -/

/-- The table that `test.lua` encodes. -/
def answer : LuaTree := .table
  [(.string [110, 97, 109, 101], .string [104, 101, 108, 108, 111]),
    (.string [105, 100], .number (.ofInt Ieee754.binary64 123456)),
    (.string [116, 101, 115, 116], .table (sequence
      [.number (.ofInt Ieee754.binary64 1), .number (.ofInt Ieee754.binary64 2)])),
    (.string [112, 104, 111, 110, 101], .table (sequence
      [.table [(.string [110, 117, 109, 98, 101, 114], .string [55, 56, 57]),
          (.string [116, 121, 112, 101], .string [87, 79, 82, 75])],
        .table [(.string [110, 117, 109, 98, 101, 114], .string [52, 53, 54]),
          (.string [116, 121, 112, 101], .string [72, 79, 77, 69])]]))]

theorem representsInt (n : BitVec 32) :
    (Scalar.int32 n).Represents (LuaTree.number (.ofInt Ieee754.binary64 n.toInt)).view :=
  .int32 (.refl (Ieee754.Binary.not_isNaN_ofInt _))

theorem phone_conforming (depth : ℕ) {number : Bytes} (hnumber : (0 : UInt8) ∉ number)
    (value : EnumValueDescriptor)
    (hvalue : AddressBook.phoneType.findValueByName value.name = some value) :
    Conforming LuaTree.state AddressBook.schema depth .phoneNumber
      (.table [(.string [110, 117, 109, 98, 101, 114], .string number),
        (.string [116, 121, 112, 101], .string value.name)]) := by
  have hentries : ∀ nested, ConformingEntries LuaTree.state AddressBook.schema nested .phoneNumber
      (.table [(.string [110, 117, 109, 98, 101, 114], .string number),
        (.string [116, 121, 112, 101], .string value.name)]) := by
    intro nested
    refine .entries rfl (show [LuaKey.string _, .string _].Nodup by decide)
      (List.forall_mem_cons.mpr ⟨?_, List.forall_mem_singleton.mpr ?_⟩)
    · exact .singular AddressBook.mem_numberField rfl (.scalar (.string hnumber) (.string number))
    · exact .singular AddressBook.mem_typeField rfl (.scalar (.enum hvalue) (.enum value))
  cases depth with
  | zero => exact hentries _
  | succ depth => exact hentries _

theorem answer_conforming (depth : ℕ) :
    Conforming LuaTree.state AddressBook.schema (depth + 1) .person answer := by
  have hwork := phone_conforming depth (show (0 : UInt8) ∉ [55, 56, 57] by decide)
    ⟨[87, 79, 82, 75], 2⟩ (by decide)
  have hhome := phone_conforming depth (show (0 : UInt8) ∉ [52, 53, 54] by decide)
    ⟨[72, 79, 77, 69], 1⟩ (by decide)
  refine ConformingEntries.entries rfl (by decide) (List.forall_mem_cons.mpr ⟨?_,
    List.forall_mem_cons.mpr ⟨?_, List.forall_mem_cons.mpr ⟨?_, List.forall_mem_singleton.mpr ?_⟩⟩⟩)
  · exact .singular AddressBook.mem_nameField rfl (.scalar (.string (by decide)) (.string _))
  · exact .singular AddressBook.mem_idField rfl (.scalar (.int32 123456) (representsInt 123456))
  · exact .repeated AddressBook.mem_testField rfl rfl (List.cons_ne_nil _ _)
      (List.forall_mem_cons.mpr ⟨.scalar (.int32 1) (representsInt 1),
        List.forall_mem_singleton.mpr (.scalar (.int32 2) (representsInt 2))⟩)
  · exact .repeated AddressBook.mem_phoneField rfl rfl (List.cons_ne_nil _ _)
      (List.forall_mem_cons.mpr ⟨.message rfl hwork,
        List.forall_mem_singleton.mpr (.message rfl hhome)⟩)

theorem answer_shown : Tabled LuaTree.view (Person.ShownBy LuaTree.view) answer answerPb := by
  refine ⟨_, rfl, ⟨Scalar.Represents.string _, representsInt 123456, rfl, ⟨_, rfl, ?_⟩,
    ⟨_, rfl, ?_⟩⟩⟩
  · refine .cons ⟨_, rfl, ⟨Scalar.Represents.string _, ?_⟩⟩
      (.cons ⟨_, rfl, ⟨Scalar.Represents.string _, ?_⟩⟩ .nil)
    · exact ⟨⟨[87, 79, 82, 75], 2⟩, by decide, rfl, .enum _⟩
    · exact ⟨⟨[72, 79, 77, 69], 1⟩, by decide, rfl, .enum _⟩
  · exact .cons (representsInt 1) (.cons (representsInt 2) .nil)

/-- `TestEncode(1, Encode("tutorial.Person", {...}))` -/
theorem testEncode_answer :
    ∃ payload, encode (.plain .win32) .reference LuaTree.state AddressBook.schema
        AddressBook.findMessage (fun _ => 0) 101 (.string (AddressBook.fullName .person)) answer =
          .ok (some payload) ∧
      ∀ steps, payload.length < steps →
        testEncode { GeneratedInputStream.reference with verifyUtf8String := fun _ => true }
          .reference 0 steps answerPb 1 payload = some true := by
  have hsize : ∀ n, rawByteSizeBy (.plain .win32) GeneratedWireFormat.reference.toWireFormatLite
      LuaTree.state AddressBook.schema id 101 .person answer = .ok n →
      n ≤ CodedInputStream.reference.totalBytesLimit := by
    intro n hn
    rw [show rawByteSizeBy (.plain .win32) GeneratedWireFormat.reference.toWireFormatLite
      LuaTree.state AddressBook.schema id 101 .person answer = .ok 33 by decide +kernel] at hn
    exact Except.ok.inj hn ▸ by decide
  have hname : Stack.checklstring (.plain .win32)
      (LuaTree.state.view (LuaTree.string (AddressBook.fullName .person))) = .ok _ := rfl
  have hfind : AddressBook.findMessage (cstr (AddressBook.fullName .person)) = some .person := by
    decide
  have hanswer : answerPb.wire.length < 2 ^ 31 := by decide
  obtain ⟨payload, hencode, htest⟩ :=
    testEncode_encoded (documented_permissive GeneratedInputStream.reference_documented)
      GeneratedWireFormat.reference_documented (fun _ => 0) (by decide) hname (by decide) hfind
      (answer_conforming 99) hsize (fun _ _ _ _ _ _ => rfl) answer_shown (by decide) hanswer
  refine ⟨payload, hencode, ?_⟩
  intro steps hsteps
  rw [htest steps hsteps, decide_eq_true rfl]

/-- An address book with that person. -/
theorem AddressBook.encoded_parses_answer :
    let tab : LuaTree := .table [(.string [112, 101, 114, 115, 111, 110],
      .table (sequence [answer]))]
    ∃ payload m, encode (.plain .win32) .reference LuaTree.state Luapb.AddressBook.schema
        Luapb.AddressBook.findMessage (fun _ => 0) 101
        (.string (Luapb.AddressBook.fullName .addressBook)) tab = .ok (some payload) ∧
      (∀ steps, payload.length < steps → AddressBook.new.parseFromString
        { GeneratedInputStream.reference with verifyUtf8String := fun _ => true } 0 steps payload =
          some (true, m)) ∧
      Tabled LuaTree.view (AddressBook.ShownBy LuaTree.view) tab m := by
  intro tab
  have htab : Conforming LuaTree.state Luapb.AddressBook.schema 100 .addressBook tab :=
    ConformingEntries.entries rfl (List.pairwise_singleton _ _) (List.forall_mem_singleton.mpr
      (.repeated Luapb.AddressBook.mem_personField rfl rfl (List.cons_ne_nil _ _)
        (List.forall_mem_singleton.mpr (.message rfl (answer_conforming 98)))))
  have hsize : ∀ n, rawByteSizeBy (.plain .win32) GeneratedWireFormat.reference.toWireFormatLite
      LuaTree.state Luapb.AddressBook.schema id 101 .addressBook tab = .ok n →
      n ≤ CodedInputStream.reference.totalBytesLimit := by
    intro n hn
    rw [show rawByteSizeBy (.plain .win32) GeneratedWireFormat.reference.toWireFormatLite
      LuaTree.state Luapb.AddressBook.schema id 101 .addressBook tab = .ok 35 by decide +kernel]
      at hn
    exact Except.ok.inj hn ▸ by decide
  exact encoded_parses (documented_permissive GeneratedInputStream.reference_documented)
    GeneratedWireFormat.reference_documented (fun _ => 0) (by decide) rfl (by decide) rfl htab
    hsize (fun _ _ _ _ _ _ => rfl) .new

/-- A person with a name and a phone at work. -/
def worker : LuaTree := .table
  [(.string [110, 97, 109, 101], .string [104, 101, 108, 108, 111]),
    (.string [112, 104, 111, 110, 101], .table (sequence
      [.table [(.string [110, 117, 109, 98, 101, 114], .string [55, 56, 57]),
        (.string [116, 121, 112, 101], .string [87, 79, 82, 75])]]))]

theorem worker_conforming (depth : ℕ) :
    Conforming LuaTree.state AddressBook.schema (depth + 1) .person worker := by
  have hwork := phone_conforming depth (show (0 : UInt8) ∉ [55, 56, 57] by decide)
    ⟨[87, 79, 82, 75], 2⟩ (by decide)
  refine ConformingEntries.entries rfl (by decide) (List.forall_mem_cons.mpr ⟨?_,
    List.forall_mem_singleton.mpr ?_⟩)
  · exact .singular AddressBook.mem_nameField rfl (.scalar (.string (by decide)) (.string _))
  · exact .repeated AddressBook.mem_phoneField rfl rfl (List.cons_ne_nil _ _)
      (List.forall_mem_singleton.mpr (.message rfl hwork))

theorem AddressBook.comes_back_worker :
    let tab : LuaTree := .table [(.string [112, 101, 114, 115, 111, 110],
      .table (sequence [worker]))]
    let book : AddressBook := ⟨[{ Person.new 0 with
      name := [104, 101, 108, 108, 111], phone := [⟨[55, 56, 57], 2, 0⟩] }], 0⟩
    ∃ payload, encode (.plain .win32) .reference LuaTree.state Luapb.AddressBook.schema
        Luapb.AddressBook.findMessage (fun _ => 0) 101
        (.string (Luapb.AddressBook.fullName .addressBook)) tab = .ok (some payload) ∧
      ∀ steps, payload.length < steps → book.wire.length < steps → ∃ parsed run,
        AddressBook.new.parseFromString
            { GeneratedInputStream.reference with verifyUtf8String := fun _ => true } 0 steps
            payload = some (true, parsed) ∧
        rawDecode (.plain .win32) .reference (fun _ => 0) Luapb.AddressBook.schema steps 1
          (CodedInputStream.reference.create (parsed.serializeAsString .reference)) .addressBook =
            some run ∧
        book.ShownBy LuaTree.view (entryOf run.tab) := by
  intro tab book
  have htab : Conforming LuaTree.state Luapb.AddressBook.schema 100 .addressBook tab :=
    ConformingEntries.entries rfl (List.pairwise_singleton _ _) (List.forall_mem_singleton.mpr
      (.repeated Luapb.AddressBook.mem_personField rfl rfl (List.cons_ne_nil _ _)
        (List.forall_mem_singleton.mpr (.message rfl (worker_conforming 98)))))
  have hsize : ∀ n, rawByteSizeBy (.plain .win32) GeneratedWireFormat.reference.toWireFormatLite
      LuaTree.state Luapb.AddressBook.schema id 101 .addressBook tab = .ok n →
      n ≤ CodedInputStream.reference.totalBytesLimit := by
    intro n hn
    rw [show rawByteSizeBy (.plain .win32) GeneratedWireFormat.reference.toWireFormatLite
      LuaTree.state Luapb.AddressBook.schema id 101 .addressBook tab = .ok 18 by decide +kernel]
      at hn
    exact Except.ok.inj hn ▸ by decide
  have hbook : Tabled LuaTree.view (AddressBook.ShownBy LuaTree.view) tab book := by
    refine ⟨_, rfl, ⟨_, rfl, .cons ⟨_, rfl, ?_⟩ .nil⟩⟩
    refine ⟨Scalar.Represents.string _, rfl, rfl, ⟨_, rfl, .cons ⟨_, rfl, ?_⟩ .nil⟩, rfl⟩
    exact ⟨Scalar.Represents.string _, ⟨[87, 79, 82, 75], 2⟩, by decide, rfl, .enum _⟩
  exact comes_back (documented_permissive GeneratedInputStream.reference_documented)
    GeneratedWireFormat.reference_documented (fun _ => 0) (by decide) rfl (by decide) rfl htab
    hsize (fun _ _ _ _ _ _ => rfl) hbook (by decide) (by decide) (fun _ => 0) .new

end Tutorial

end Luapb

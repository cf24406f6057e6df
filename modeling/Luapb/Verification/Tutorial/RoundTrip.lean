import Luapb.Verification.Tutorial.Serialization

/-! # Messages as strings

What `ParseFromString` makes of a string of records, and of the strings that
`SerializeAsString` returns. -/

namespace Luapb

namespace Tutorial

open Wire

variable {S : GeneratedInputStream} {W : GeneratedWireFormat} {unset : ℤ} {fuel : ℕ}

/-! ## Fields -/

/-- The fields of a message, without the sizes that are cached in it. -/
def PhoneNumber.data (m : PhoneNumber) : Bytes × BitVec 32 := (m.number, m.type)

def Person.data (m : Person) :
    Bytes × BitVec 32 × Bytes × List (Bytes × BitVec 32) × List (BitVec 32) :=
  (m.name, m.id, m.email, m.phone.map PhoneNumber.data, m.test)

def AddressBook.data (m : AddressBook) :
    List (Bytes × BitVec 32 × Bytes × List (Bytes × BitVec 32) × List (BitVec 32)) :=
  m.person.map Person.data

/-- A string is the source's whether or not it is empty. -/
theorem ite_length_pos (s : Bytes) : (if s.length > 0 then s else []) = s := by
  cases s <;> rfl

theorem ite_ne_zero (v : BitVec 32) : (if v ≠ 0 then v else 0) = v := by
  by_cases h : v = 0
  · rw [if_neg (not_not.mpr h), h]
  · rw [if_pos h]

theorem PhoneNumber.data_copyFrom (a m : PhoneNumber) : (a.copyFrom m).data = m.data := by
  have hnumber : (a.copyFrom m).number = if m.number.length > 0 then m.number else [] := by
    rw [copyFrom, mergeFrom]
    split_ifs <;> rfl
  have htype : (a.copyFrom m).type = if m.type ≠ 0 then m.type else 0 := by
    rw [copyFrom, mergeFrom]
    split_ifs <;> rfl
  rw [data, hnumber, htype, ite_length_pos, ite_ne_zero, data]

/-- A copy has the fields of its source. -/
theorem Person.data_copyFrom (a m : Person) : (a.copyFrom m).data = m.data := by
  have hphone : (m.phone.map PhoneNumber.new.mergeFrom).map PhoneNumber.data =
      m.phone.map PhoneNumber.data := by
    rw [List.map_map]
    exact List.map_congr_left fun phone _ => PhoneNumber.data_copyFrom .new phone
  rw [copyFrom, mergeFrom_eq, data, data]
  simp only [clear, List.nil_append, hphone]
  rw [ite_length_pos, ite_ne_zero, ite_length_pos]

theorem AddressBook.data_copyFrom (a m : AddressBook) : (a.copyFrom unset m).data = m.data := by
  rw [copyFrom, mergeFrom, data, data]
  simp only [clear, List.nil_append, List.map_map]
  exact List.map_congr_left fun person _ => Person.data_copyFrom (.new unset) person

/-! ## Parsing -/

/-- A runtime that takes every string for UTF-8. -/
theorem documented_permissive (hS : S.Documented) :
    GeneratedInputStream.Documented { S with verifyUtf8String := fun _ => true } :=
  { hS with }

theorem before_create (hS : S.Documented) {data : Bytes} (hlen : data.length ≤ S.totalBytesLimit) :
    Before S (S.create data) data (StreamView.start data).atEnd := by
  refine ⟨hS.create_readable hlen, hS.create_unread data, ?_⟩
  rw [hS.create]

/-- A parser that reads to the end of the string has consumed the entire message. -/
theorem parseFromString_eq (hS : S.Documented) {α : Type}
    {mergePartial : S.Stream → Option (Bool × S.Stream × α)} {data : Bytes} {a : α}
    (hlen : data.length ≤ S.totalBytesLimit)
    (h : ∃ s', mergePartial (S.create data) = some (true, s', a) ∧
      S.view s' = (StreamView.start data).atEnd) :
    S.parseFromString mergePartial data = some (true, a) := by
  rcases h with ⟨s', hmerge, hview⟩
  have hconsumed : S.consumedEntireMessage s' = true := by
    rw [hS.consumed, hview]
    rfl
  exact hS.parseFromString data s' hlen hmerge hconsumed

theorem Person.parseFromString_records (hS : S.Documented) (hdepth : 1 ≤ S.recursionLimit)
    {rs : List (Tagged Person)} (hrs : (grammar S.verifyUtf8String).WellFormed rs)
    (hlen : (Tagged.concat rs).length ≤ S.totalBytesLimit)
    (hfuel : (Tagged.concat rs).length < fuel) (m : Person) :
    m.parseFromString S fuel (Tagged.concat rs) = some (true, Tagged.apply rs m.clear) :=
  parseFromString_eq hS hlen (mergePartial_eq hS ((Nat.zero_add 1).trans_le hdepth) hrs
    (before_create hS hlen) hfuel m.clear)

/-- Merging in what a string has reads it to the end. -/
theorem AddressBook.mergePartial_create (hS : S.Documented) (hdepth : 2 ≤ S.recursionLimit)
    {rs : List (Tagged AddressBook)} (hrs : (grammar S.verifyUtf8String unset).WellFormed rs)
    (hlen : (Tagged.concat rs).length ≤ S.totalBytesLimit)
    (hfuel : (Tagged.concat rs).length < fuel) (m : AddressBook) :
    ∃ s', mergePartialFromCodedStream S unset fuel (S.create (Tagged.concat rs)) m =
        some (true, s', Tagged.apply rs m) ∧
      S.view s' = (StreamView.start (Tagged.concat rs)).atEnd :=
  mergePartial_eq hS ((Nat.zero_add 2).trans_le hdepth) hrs (before_create hS hlen) hfuel m

/-- An `AddressBook` is parsed from records in any order but one, fields that are not declared
among them: an element of `test` that is not packed may not stand right before a packed list. -/
theorem AddressBook.parses (hS : S.Documented) (hdepth : 2 ≤ S.recursionLimit)
    {rs : List (Tagged AddressBook)} (hrs : (grammar S.verifyUtf8String unset).WellFormed rs)
    (hlen : (Tagged.concat rs).length ≤ S.totalBytesLimit)
    (hfuel : (Tagged.concat rs).length < fuel) (m : AddressBook) :
    m.parseFromString S unset fuel (Tagged.concat rs) = some (true, Tagged.apply rs m.clear) :=
  parseFromString_eq hS hlen (mergePartial_create hS hdepth hrs hlen hfuel m.clear)

/-- A person with a name, a field 7, a packed `test`, an `id` whose tag takes two bytes, an
element of `test` that is not packed, and a phone. -/
theorem AddressBook.parses_mixed :
    AddressBook.new.parseFromString .reference 0 100
        [10, 18, 10, 1, 65, 56, 1, 42, 2, 1, 2, 144, 0, 5, 40, 3, 34, 2, 16, 1] =
      some (true, ⟨[⟨[65], 5, [], [⟨[], 1, 0⟩], [1, 2, 3], 0, 0⟩], 0⟩) := by
  let utf8 := GeneratedInputStream.reference.verifyUtf8String
  let phone : List (Tagged PhoneNumber) := [⟨[16], 16, [1], fun m => { m with type := 1 }⟩]
  let records : List (Tagged Person) :=
    [⟨[10], 10, [1, 65], fun m => { m with name := [65] }⟩, ⟨[56], 56, [1], fun m => m⟩,
      ⟨[42], 42, [2, 1, 2], fun m => { m with test := m.test ++ [1, 2] }⟩,
      ⟨[144, 0], 16, [5], fun m => { m with id := 5 }⟩,
      ⟨[40], 40, [3], fun m => { m with test := m.test ++ [3] }⟩,
      ⟨[34], 34, [2, 16, 1], fun m => { m with phone := m.phone ++ [Tagged.apply phone .new] }⟩]
  have hphone : (PhoneNumber.grammar utf8).WellFormed phone := by
    refine .of_free ?_ fun _ _ _ _ => trivial
    exact List.forall_mem_singleton.mpr ⟨rfl, by decide, .type rfl⟩
  have hname : Person.Record utf8 10 ([1] ++ [65]) _ := .name rfl (by decide) rfl
  have hunknown : Person.Record utf8 56 [1] _ :=
    .unknown (by decide) (by decide) (show 56 % 8 = WireType.varint.code from rfl) (.varint rfl)
  let payloads : List (Bytes × ℕ) := [([1], 1), ([2], 2)]
  have hpacked : Person.Record utf8 42 ([2] ++ payloads.flatMap Prod.fst) _ :=
    .packed rfl (by decide) (by decide)
  have hphones : Person.Record utf8 34 ([2] ++ Tagged.concat phone) _ :=
    .phone hphone rfl (by decide)
  have hrecords : (Person.grammar utf8).WellFormed records := by
    constructor
    · simp only [records, List.forall_mem_cons]
      exact ⟨⟨rfl, by decide, hname⟩, ⟨rfl, by decide, hunknown⟩, ⟨rfl, by decide, hpacked⟩,
        ⟨rfl, by decide, .id rfl⟩, ⟨rfl, by decide, .unpacked rfl⟩, ⟨rfl, by decide, hphones⟩,
        fun _ h => nomatch h⟩
    · simp [records, Person.grammar]
  have hperson : Record utf8 0 10 ([18] ++ Tagged.concat records) _ :=
    .person hrecords rfl (by decide)
  have hrs : (grammar utf8 0).WellFormed [⟨[10], 10, [18] ++ Tagged.concat records, fun m =>
      { m with person := m.person ++ [Tagged.apply records (.new 0)] }⟩] := by
    refine .of_free ?_ fun _ _ _ _ => trivial
    exact List.forall_mem_singleton.mpr ⟨rfl, by decide, hperson⟩
  exact parses GeneratedInputStream.reference_documented (by decide) hrs (by decide) (by decide)
    .new

-- `ReadRepeatedPrimitive` takes the tag of the packed list for that of one more element
example : ((Person.new 0).parseFromString .reference 9 [40, 1, 42, 1, 3]).map Prod.fst =
    some false := rfl

/-! ## Serializing -/

theorem Person.serializeAsString_eq (hW : W.Documented) {m : Person}
    (hlt : m.wire.length < 2 ^ 31) : m.serializeAsString W = m.wire := by
  rw [serializeAsString, byteSize_eq hW hlt, serialize_sized hW hlt]
  exact hW.serializeAsString _ hlt

theorem AddressBook.serializeAsString_eq (hW : W.Documented) {m : AddressBook}
    (hlt : m.wire.length < 2 ^ 31) : m.serializeAsString W = m.wire := by
  rw [serializeAsString, byteSize_eq hW hlt, serialize_sized hW hlt]
  exact hW.serializeAsString _ hlt

theorem Person.parseFromString_wire (hS : S.Documented) (hdepth : 1 ≤ S.recursionLimit) {m : Person}
    (hutf8 : ∀ s ∈ m.strings, s ≠ [] → S.verifyUtf8String s = true)
    (hlen : m.wire.length ≤ S.totalBytesLimit) (hfuel : m.wire.length < fuel) (m' : Person) :
    m'.parseFromString S fuel m.wire = some (true, m'.copyFrom m) := by
  have hrs := wellFormed_records hutf8 (lt_of_le_of_lt hlen hS.totalBytesLimit_lt)
  rw [copyFrom, ← apply_records]
  exact parseFromString_records hS hdepth hrs hlen hfuel m'

theorem AddressBook.parseFromString_wire (hS : S.Documented) (hdepth : 2 ≤ S.recursionLimit)
    {m : AddressBook} (hutf8 : ∀ s ∈ m.strings, s ≠ [] → S.verifyUtf8String s = true)
    (hlen : m.wire.length ≤ S.totalBytesLimit) (hfuel : m.wire.length < fuel) (m' : AddressBook) :
    m'.parseFromString S unset fuel m.wire = some (true, m'.copyFrom unset m) := by
  have hrs := wellFormed_records unset hutf8 (lt_of_le_of_lt hlen hS.totalBytesLimit_lt)
  rw [copyFrom, ← apply_records]
  rw [← concat_records unset] at hlen hfuel ⊢
  exact parseFromString_eq hS hlen (mergePartial_create hS hdepth hrs hlen hfuel m'.clear)

/-- An `AddressBook` that is serialized takes as many bytes as `ByteSize` says, and to parse
them is to copy it. -/
theorem AddressBook.round_trips (hS : S.Documented) (hW : W.Documented)
    (hdepth : 2 ≤ S.recursionLimit) {m : AddressBook}
    (hutf8 : ∀ s ∈ m.strings, s ≠ [] → S.verifyUtf8String s = true)
    (hlen : m.wire.length ≤ S.totalBytesLimit) (hfuel : m.wire.length < fuel) (m' : AddressBook) :
    (m.byteSize W).1 = (m.serializeAsString W).length ∧
      m'.parseFromString S unset fuel (m.serializeAsString W) =
        some (true, m'.copyFrom unset m) ∧
      (m'.copyFrom unset m).data = m.data := by
  have hlt := lt_of_le_of_lt hlen hS.totalBytesLimit_lt
  rw [serializeAsString_eq hW hlt, byteSize_eq hW hlt]
  exact ⟨rfl, parseFromString_wire hS hdepth hutf8 hlen hfuel m', data_copyFrom m' m⟩

theorem AddressBook.round_trips_answer :
    let book : AddressBook := ⟨[answerPb], 0⟩
    (book.byteSize .reference).1 = (book.serializeAsString .reference).length ∧
      AddressBook.new.parseFromString .reference 0 100 (book.serializeAsString .reference) =
        some (true, AddressBook.new.copyFrom 0 book) ∧
      (AddressBook.new.copyFrom 0 book).data = book.data :=
  round_trips GeneratedInputStream.reference_documented GeneratedWireFormat.reference_documented
    (by decide) (by decide) (by decide) (by decide) .new

/-! ## Strings one after the other -/

/-- Equal messages are written alike. -/
theorem concat_messageRecords_congr {α β γ : Type} {number : ℕ} {data : β → γ} {wire : β → Bytes}
    (hwire : ∀ m m', data m = data m' → wire m = wire m') {ms ms' : List β}
    (h : ms.map data = ms'.map data) (add : β → α → α) :
    Tagged.concat (ms.map fun m => messageRecord number (wire m) (add m)) =
      Tagged.concat (ms'.map fun m => messageRecord number (wire m) (add m)) := by
  induction ms generalizing ms' with
  | nil => rw [List.map_eq_nil_iff.mp h.symm]
  | cons m ms ih =>
      obtain ⟨m', ms', rfl, hdata, hrest⟩ := List.map_eq_cons_iff.mp h.symm
      rw [List.map_cons, List.map_cons, messageRecord, messageRecord, Tagged.concat_cons,
        Tagged.concat_cons, hwire m m' hdata.symm, ih hrest.symm]

theorem PhoneNumber.wire_eq_of_data_eq {m m' : PhoneNumber} (h : m.data = m'.data) :
    m.wire = m'.wire := by
  obtain ⟨number, type, size⟩ := m
  obtain ⟨number', type', size'⟩ := m'
  obtain ⟨rfl, rfl⟩ := Prod.mk.inj h
  rfl

namespace Person

theorem concat_records_append (ms : List Person) :
    Tagged.concat (ms.flatMap records) = ms.flatMap wire := by
  induction ms with
  | nil => rfl
  | cons m ms ih => rw [List.flatMap_cons, List.flatMap_cons, Tagged.concat_append, ih, wire]

theorem apply_records_append (ms : List Person) (a : Person) :
    Tagged.apply (ms.flatMap records) a = ms.foldl mergeFrom a := by
  induction ms generalizing a with
  | nil => rfl
  | cons m ms ih =>
      rw [List.flatMap_cons, Tagged.apply_append, apply_records, ih, List.foldl_cons]

/-- Strings of messages one after the other are parsed as the messages are merged. -/
theorem parses_merged (hS : S.Documented) (hW : W.Documented) (hdepth : 1 ≤ S.recursionLimit)
    {ms : List Person} (hutf8 : ∀ m ∈ ms, ∀ s ∈ m.strings, s ≠ [] → S.verifyUtf8String s = true)
    (hlen : (ms.flatMap wire).length ≤ S.totalBytesLimit)
    (hfuel : (ms.flatMap wire).length < fuel) (m' : Person) :
    m'.parseFromString S fuel (ms.flatMap (serializeAsString W)) =
      some (true, ms.foldl mergeFrom m'.clear) := by
  have hlt : ∀ m ∈ ms, m.wire.length < 2 ^ 31 := by
    intro m hm
    have hle : m.wire.length ≤ (ms.flatMap wire).length := by
      rw [List.flatMap_def]
      exact (List.sublist_flatten_of_mem (List.mem_map_of_mem hm)).length_le
    exact lt_of_le_of_lt (hle.trans hlen) hS.totalBytesLimit_lt
  have hserialized : ms.flatMap (serializeAsString W) = ms.flatMap wire :=
    List.flatMap_congr fun m hm => serializeAsString_eq hW (hlt m hm)
  have hrs : (grammar S.verifyUtf8String).WellFormed (ms.flatMap records) := by
    refine wellFormed_of_records ?_
    intro r hr
    obtain ⟨m, hm, hr⟩ := List.mem_flatMap.mp hr
    exact of_records (hutf8 m hm) (hlt m hm) r hr
  rw [hserialized]
  rw [← concat_records_append] at hlen hfuel ⊢
  rw [parseFromString_records hS hdepth hrs hlen hfuel, apply_records_append]

/-- Of two names the last is left, and the lists are joined. -/
theorem parses_merged_two :
    (Person.new 0).parseFromString .reference 100
        ([⟨[65], 5, [], [], [1], 0, 0⟩, ⟨[66], 0, [], [⟨[49], 0, 0⟩], [2], 0, 0⟩].flatMap
          (serializeAsString .reference)) =
      some (true, ⟨[66], 5, [], [⟨[49], 0, 0⟩], [1, 2], 0, 0⟩) :=
  parses_merged GeneratedInputStream.reference_documented
    GeneratedWireFormat.reference_documented (by decide) (by decide) (by decide) (by decide) _

/-- The bytes of a message are those of its fields. -/
theorem wire_eq_of_data_eq {m m' : Person} (h : m.data = m'.data) : m.wire = m'.wire := by
  obtain ⟨name, id, email, phones, test, testSize, size⟩ := m
  obtain ⟨name', id', email', phones', test', testSize', size'⟩ := m'
  simp only [data, Prod.mk.injEq] at h
  obtain ⟨rfl, rfl, rfl, hphones, rfl⟩ := h
  simp only [wire, records, Tagged.concat_append]
  have hwire : ∀ phone phone' : PhoneNumber, phone.data = phone'.data → phone.wire = phone'.wire :=
    fun _ _ => PhoneNumber.wire_eq_of_data_eq
  rw [concat_messageRecords_congr hwire hphones]
  rfl

/-- The bytes of a message determine its fields. -/
theorem data_eq_of_wire_eq (hS : S.Documented) (hdepth : 1 ≤ S.recursionLimit) {m m' : Person}
    (hlen : m.wire.length ≤ S.totalBytesLimit) (h : m.wire = m'.wire) : m.data = m'.data := by
  have hparse : ∀ m : Person, m.wire.length ≤ S.totalBytesLimit →
      (Person.new 0).parseFromString { S with verifyUtf8String := fun _ => true }
        (m.wire.length + 1) m.wire = some (true, (Person.new 0).copyFrom m) :=
    fun m hm => parseFromString_wire (documented_permissive hS) hdepth (fun _ _ _ => rfl) hm
      (Nat.lt_succ_self _) _
  have hm' := hparse m' (h ▸ hlen)
  rw [← h, hparse m hlen] at hm'
  have hmerged := congrArg data (Prod.mk.inj (Option.some.inj hm')).2
  rwa [data_copyFrom, data_copyFrom] at hmerged

end Person

theorem AddressBook.wire_eq_of_data_eq {m m' : AddressBook} (h : m.data = m'.data) :
    m.wire = m'.wire :=
  concat_messageRecords_congr (fun _ _ => Person.wire_eq_of_data_eq) h _

end Tutorial

end Luapb

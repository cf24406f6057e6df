import Luapb.Verification.Scalar
import Luapb.Verification.Tutorial.Messages

/-! # What the generated serializers write

The records of a message, as `ByteSize` counts them and `SerializeWithCachedSizesToArray` writes
them. The parser reads them as `MergeFrom` merges the message. -/

namespace Luapb

namespace Tutorial

open Wire

variable {α : Type} {W : GeneratedWireFormat}

/-! ## Records -/

/-- A field that is a string is written unless it is empty, -/
def stringRecords (number : ℕ) (s : Bytes) (set : α → α) : List (Tagged α) :=
  if s.length > 0 then
    [⟨tagBytes number .lengthDelimited, tag number .lengthDelimited, lengthDelimited s, set⟩]
  else []

/-- and one that is a number unless it is zero. -/
def varintRecords (number : ℕ) (v : BitVec 32) (set : α → α) : List (Tagged α) :=
  if v ≠ 0 then [⟨tagBytes number .varint, tag number .varint, Varint.encode (signExtended v), set⟩]
  else []

def messageRecord (number : ℕ) (body : Bytes) (add : α → α) : Tagged α :=
  ⟨tagBytes number .lengthDelimited, tag number .lengthDelimited, lengthDelimited body, add⟩

@[simp] theorem apply_stringRecords (number : ℕ) (s : Bytes) (set : α → α) (a : α) :
    Tagged.apply (stringRecords number s set) a = if s.length > 0 then set a else a := by
  rw [stringRecords]
  split <;> rfl

@[simp] theorem apply_varintRecords (number : ℕ) (v : BitVec 32) (set : α → α) (a : α) :
    Tagged.apply (varintRecords number v set) a = if v ≠ 0 then set a else a := by
  rw [varintRecords]
  split <;> rfl

namespace PhoneNumber

def records (m : PhoneNumber) : List (Tagged PhoneNumber) :=
  stringRecords 1 m.number (fun a => { a with number := m.number }) ++
    varintRecords 2 m.type fun a => { a with type := m.type }

/-- The bytes of a `PhoneNumber`. -/
def wire (m : PhoneNumber) : Bytes := Tagged.concat m.records

theorem apply_records (m a : PhoneNumber) : Tagged.apply m.records a = a.mergeFrom m := by
  rw [records, Tagged.apply_append, apply_stringRecords, apply_varintRecords, mergeFrom]

end PhoneNumber

namespace Person

def testPayload (m : Person) : Bytes := m.test.flatMap fun v => Varint.encode (signExtended v)

def records (m : Person) : List (Tagged Person) :=
  stringRecords 1 m.name (fun a => { a with name := m.name }) ++
    (varintRecords 2 m.id (fun a => { a with id := m.id }) ++
    (stringRecords 3 m.email (fun a => { a with email := m.email }) ++
    ((m.phone.map fun phone => messageRecord 4 phone.wire fun a =>
      { a with phone := a.phone ++ [PhoneNumber.new.mergeFrom phone] }) ++
    if m.test.length > 0 then
      [messageRecord 5 m.testPayload fun a => { a with test := a.test ++ m.test }] else [])))

/-- The bytes of a `Person`. -/
def wire (m : Person) : Bytes := Tagged.concat m.records

theorem apply_phones (phones : List PhoneNumber) (a : Person) :
    Tagged.apply (phones.map fun phone => messageRecord 4 phone.wire fun a =>
      { a with phone := a.phone ++ [PhoneNumber.new.mergeFrom phone] }) a =
      { a with phone := a.phone ++ phones.map PhoneNumber.new.mergeFrom } := by
  induction phones generalizing a with
  | nil => simp
  | cons phone phones ih =>
      rw [List.map_cons, Tagged.apply_cons, ih]
      simp [messageRecord]

theorem apply_test (m a : Person) :
    Tagged.apply (if m.test.length > 0 then
      [messageRecord 5 m.testPayload fun a => { a with test := a.test ++ m.test }] else []) a =
      { a with test := a.test ++ m.test } := by
  split
  · rfl
  · rename_i hnot
    rw [List.length_eq_zero_iff.mp (Nat.eq_zero_of_not_pos hnot), List.append_nil]
    rfl

/-- A merge, field by field. -/
theorem mergeFrom_eq (a m : Person) : a.mergeFrom m =
    { a with
      name := if m.name.length > 0 then m.name else a.name
      id := if m.id ≠ 0 then m.id else a.id
      email := if m.email.length > 0 then m.email else a.email
      phone := a.phone ++ m.phone.map PhoneNumber.new.mergeFrom
      test := a.test ++ m.test } := by
  rw [mergeFrom]
  split_ifs <;> rfl

theorem apply_records (m a : Person) : Tagged.apply m.records a = a.mergeFrom m := by
  rw [records, mergeFrom_eq]
  simp only [Tagged.apply_append, apply_stringRecords, apply_varintRecords, apply_phones,
    apply_test]
  split_ifs <;> rfl

end Person

namespace AddressBook

def records (unset : ℤ) (m : AddressBook) : List (Tagged AddressBook) :=
  m.person.map fun person => messageRecord 1 person.wire fun a =>
    { a with person := a.person ++ [(Person.new unset).mergeFrom person] }

/-- The bytes of an `AddressBook`. -/
def wire (m : AddressBook) : Bytes := Tagged.concat (m.records 0)

theorem concat_records (unset : ℤ) (m : AddressBook) :
    Tagged.concat (m.records unset) = m.wire := by
  rw [wire, records, records, Tagged.concat, Tagged.concat, List.flatMap_map, List.flatMap_map]
  rfl

theorem apply_records (unset : ℤ) (m a : AddressBook) :
    Tagged.apply (m.records unset) a = a.mergeFrom unset m := by
  rw [records, mergeFrom]
  generalize m.person = persons
  induction persons generalizing a with
  | nil => simp
  | cons person persons ih =>
      rw [List.map_cons, Tagged.apply_cons, ih]
      simp [messageRecord]

end AddressBook

/-! ## Well-formed records -/

section

variable {R : Format α}

theorem of_stringRecords {number : ℕ} (hle : number ≤ maxFieldNumber) {s : Bytes} {set : α → α}
    (hR : s ≠ [] → s.length ≤ (Tagged.concat (stringRecords number s set)).length →
      R (tag number .lengthDelimited) (lengthDelimited s) set) :
    ∀ r ∈ stringRecords number s set, Tagged.Of R r := by
  intro r hr
  rw [stringRecords] at hr hR
  split at hr
  · rename_i hpos
    rw [if_pos hpos] at hR
    obtain rfl := List.mem_singleton.mp hr
    refine ⟨decode_encode_nil ((tag_lt hle _).trans (by decide)), tag_lt hle _, ?_⟩
    refine hR (List.length_pos_iff.mp hpos) ?_
    rw [Tagged.concat_cons, List.length_append, List.length_append, length_lengthDelimited]
    omega
  · cases hr

theorem of_varintRecords {number : ℕ} (hle : number ≤ maxFieldNumber) {v : BitVec 32}
    {set : α → α} (hR : R (tag number .varint) (Varint.encode (signExtended v)) set) :
    ∀ r ∈ varintRecords number v set, Tagged.Of R r := by
  intro r hr
  rw [varintRecords] at hr
  split at hr
  · obtain rfl := List.mem_singleton.mp hr
    exact ⟨decode_encode_nil ((tag_lt hle _).trans (by decide)), tag_lt hle _, hR⟩
  · cases hr

theorem of_messageRecord {number : ℕ} (hle : number ≤ maxFieldNumber) {body : Bytes} {add : α → α}
    (hR : R (tag number .lengthDelimited) (lengthDelimited body) add) :
    Tagged.Of R (messageRecord number body add) :=
  ⟨decode_encode_nil ((tag_lt hle _).trans (by decide)), tag_lt hle _, hR⟩

theorem length_body_le {number : ℕ} {body : Bytes} {add : α → α} {rs : List (Tagged α)}
    (h : messageRecord number body add ∈ rs) : body.length ≤ (Tagged.concat rs).length := by
  have hle := Tagged.length_payload_le h
  rw [messageRecord, length_lengthDelimited] at hle
  omega

end

section

variable {utf8 : Bytes → Bool}

/-- The strings of a message, at any depth. -/
def PhoneNumber.strings (m : PhoneNumber) : List Bytes := [m.number]

def Person.strings (m : Person) : List Bytes :=
  m.name :: m.email :: m.phone.flatMap PhoneNumber.strings

def AddressBook.strings (m : AddressBook) : List Bytes := m.person.flatMap Person.strings

theorem PhoneNumber.wellFormed_records {m : PhoneNumber}
    (hutf8 : ∀ s ∈ m.strings, s ≠ [] → utf8 s = true) (hlt : m.wire.length < 2 ^ 31) :
    (grammar utf8).WellFormed m.records := by
  refine .of_free ?_ fun _ _ _ _ => trivial
  rw [wire, records, Tagged.concat_append, List.length_append] at hlt
  intro r hr
  rw [records, List.mem_append] at hr
  rcases hr with hr | hr
  · refine of_stringRecords (by decide) ?_ r hr
    intro hne hle
    exact .number (decode_encode_nil (by omega)) (by omega)
      (hutf8 _ (List.mem_singleton_self _) hne)
  · refine of_varintRecords (by decide) ?_ r hr
    have h : Record utf8 _ _ _ := .type (decode_encode_nil (signExtended_lt m.type))
    rwa [ofNat_signExtended] at h

theorem Person.packed_test {m : Person} (hlt : m.testPayload.length < 2 ^ 31) :
    Record utf8 (tag 5 .lengthDelimited) (lengthDelimited m.testPayload)
      fun a => { a with test := a.test ++ m.test } := by
  let payloads := m.test.map fun v => (Varint.encode (signExtended v), signExtended v)
  have hfst : payloads.flatMap Prod.fst = m.testPayload := List.flatMap_map ..
  have hvalues : payloads.map (BitVec.ofNat 32 ·.2) = m.test := by
    rw [List.map_map]
    exact List.map_id'' ofNat_signExtended m.test
  have hpayloads : ∀ p ∈ payloads, Varint.decode p.1 = some (p.2, []) := by
    intro p hp
    obtain ⟨v, -, rfl⟩ := List.mem_map.mp hp
    exact decode_encode_nil (signExtended_lt v)
  have hlength : Varint.decode (Varint.encode m.testPayload.length) =
      some ((payloads.flatMap Prod.fst).length, []) := by
    rw [hfst]
    exact decode_encode_nil (by omega)
  have h : Record utf8 _ _ _ := .packed hlength (hfst ▸ hlt) hpayloads
  rwa [hfst, hvalues] at h

/-- The elements of `test` are always packed. -/
theorem Person.of_records {m : Person}
    (hutf8 : ∀ s ∈ m.strings, s ≠ [] → utf8 s = true) (hlt : m.wire.length < 2 ^ 31) :
    ∀ r ∈ m.records,
      Tagged.Of (fun tag payload effect => tag ≠ 40 ∧ Record utf8 tag payload effect) r := by
  intro r hr
  have hrecord := hr
  rw [records] at hr
  simp only [List.mem_append, List.mem_map] at hr
  have hbody : ∀ {number body add}, r = messageRecord number body add → body.length < 2 ^ 31 := by
    rintro number body add rfl
    have hle : body.length ≤ m.wire.length := length_body_le hrecord
    omega
  have hstring : ∀ {number : ℕ} {s : Bytes} {set : Person → Person},
      r ∈ stringRecords number s set → s.length < 2 ^ 31 := by
    intro number s set hs
    rw [stringRecords] at hs
    split at hs
    · exact hbody (List.mem_singleton.mp hs)
    · cases hs
  rcases hr with hr | hr | hr | ⟨phone, hphone, rfl⟩ | hr
  · have hlt' := hstring hr
    refine of_stringRecords (by decide) ?_ r hr
    intro hne _
    exact ⟨by decide, .name (decode_encode_nil (by omega)) hlt'
      (hutf8 _ List.mem_cons_self hne)⟩
  · refine of_varintRecords (by decide) ⟨by decide, ?_⟩ r hr
    have h : Record utf8 _ _ _ := .id (decode_encode_nil (signExtended_lt m.id))
    rwa [ofNat_signExtended] at h
  · have hlt' := hstring hr
    refine of_stringRecords (by decide) ?_ r hr
    intro hne _
    exact ⟨by decide, .email (decode_encode_nil (by omega)) hlt'
      (hutf8 _ (List.mem_cons_of_mem _ List.mem_cons_self) hne)⟩
  · have hlt' : phone.wire.length < 2 ^ 31 := hbody rfl
    have hphones : (PhoneNumber.grammar utf8).WellFormed phone.records := by
      refine PhoneNumber.wellFormed_records ?_ hlt'
      intro s hs
      exact hutf8 s (List.mem_cons_of_mem _ (List.mem_cons_of_mem _
        (List.mem_flatMap.mpr ⟨phone, hphone, hs⟩)))
    refine of_messageRecord (by decide) ⟨by decide, ?_⟩
    have h := Record.phone hphones (decode_encode_nil (lt_trans hlt' (by decide))) hlt'
    rwa [PhoneNumber.apply_records] at h
  · split at hr
    · obtain rfl := List.mem_singleton.mp hr
      exact of_messageRecord (by decide) ⟨by decide, packed_test (hbody rfl)⟩
    · cases hr

theorem Person.wellFormed_of_records {rs : List (Tagged Person)} (hrs : ∀ r ∈ rs,
      Tagged.Of (fun tag payload effect => tag ≠ 40 ∧ Record utf8 tag payload effect) r) :
    (grammar utf8).WellFormed rs := by
  refine .of_free (fun r hr => ⟨(hrs r hr).tag_eq, (hrs r hr).tag_lt, (hrs r hr).payload.2⟩) ?_
  exact fun r hr _ _ h40 => absurd h40 (hrs r hr).payload.1

theorem Person.wellFormed_records {m : Person}
    (hutf8 : ∀ s ∈ m.strings, s ≠ [] → utf8 s = true) (hlt : m.wire.length < 2 ^ 31) :
    (grammar utf8).WellFormed m.records := wellFormed_of_records (of_records hutf8 hlt)

theorem AddressBook.wellFormed_records {m : AddressBook} (unset : ℤ)
    (hutf8 : ∀ s ∈ m.strings, s ≠ [] → utf8 s = true) (hlt : m.wire.length < 2 ^ 31) :
    (grammar utf8 unset).WellFormed (m.records unset) := by
  refine .of_free ?_ fun _ _ _ _ => trivial
  intro r hr
  have hle : r.payload.length ≤ m.wire.length := by
    rw [← concat_records unset]
    exact Tagged.length_payload_le hr
  obtain ⟨person, hperson, rfl⟩ := List.mem_map.mp hr
  rw [messageRecord, length_lengthDelimited] at hle
  have hlt' : person.wire.length < 2 ^ 31 := by omega
  have hinner : (Person.grammar utf8).WellFormed person.records := by
    refine Person.wellFormed_records ?_ hlt'
    exact fun s hs => hutf8 s (List.mem_flatMap.mpr ⟨person, hperson, hs⟩)
  refine of_messageRecord (by decide) ?_
  have h : Record utf8 unset _ _ _ :=
    .person hinner (decode_encode_nil (lt_trans hlt' (by decide))) hlt'
  rwa [Person.apply_records] at h

end

/-! ## Sizes -/

/-- The length of the records of a field with a tag of one byte. -/
def stringLength (s : Bytes) : ℕ := if s.length > 0 then 1 + (lengthDelimited s).length else 0

def varintLength (v : BitVec 32) : ℕ :=
  if v ≠ 0 then 1 + (Varint.encode (signExtended v)).length else 0

theorem length_stringRecords {number : ℕ} (htag : (tagBytes number .lengthDelimited).length = 1)
    (s : Bytes) (set : α → α) :
    (Tagged.concat (stringRecords number s set)).length = stringLength s := by
  rw [stringRecords, stringLength]
  split
  · rw [Tagged.concat_cons, Tagged.concat_nil, List.append_nil, List.length_append, htag]
  · rfl

theorem length_varintRecords {number : ℕ} (htag : (tagBytes number .varint).length = 1)
    (v : BitVec 32) (set : α → α) :
    (Tagged.concat (varintRecords number v set)).length = varintLength v := by
  rw [varintRecords, varintLength]
  split
  · rw [Tagged.concat_cons, Tagged.concat_nil, List.append_nil, List.length_append, htag]
  · rfl

/-- Adding to an `int` that has room. -/
theorem int32_add {x y : ℕ} (h : x + y < 2 ^ 31) : int32 (x + y) = (x + y : ℕ) := by
  rw [← Nat.cast_add, int32_natCast h]

theorem add_stringSize (hW : W.Documented) {s : Bytes} {n : ℕ}
    (hlt : n + stringLength s < 2 ^ 31) :
    (if s.length > 0 then int32 (n + (1 + W.stringSize s)) else (n : ℤ)) =
      (n + stringLength s : ℕ) := by
  rw [stringLength] at hlt ⊢
  split
  · rename_i hpos
    rw [if_pos hpos] at hlt
    rw [hW.stringSize s (by omega), ← int32_add hlt]
    push_cast
    rfl
  · rfl

theorem add_varintSize {v : BitVec 32} {size n : ℕ}
    (hsize : size = (Varint.encode (signExtended v)).length)
    (hlt : n + varintLength v < 2 ^ 31) :
    (if v ≠ 0 then int32 (n + (1 + (size : ℤ))) else (n : ℤ)) =
      (n + varintLength v : ℕ) := by
  rw [varintLength] at hlt ⊢
  split
  · rename_i hne
    rw [if_pos hne] at hlt
    rw [hsize, ← int32_add hlt]
    push_cast
    rfl
  · rfl

namespace PhoneNumber

theorem length_wire (m : PhoneNumber) :
    m.wire.length = stringLength m.number + varintLength m.type := by
  rw [wire, records, Tagged.concat_append, List.length_append, length_stringRecords rfl,
    length_varintRecords rfl]

/-- A message with the size that `ByteSize` leaves in it. -/
def sized (m : PhoneNumber) : PhoneNumber := { m with cachedSize := m.wire.length }

theorem byteSize_eq (hW : W.Documented) {m : PhoneNumber} (hlt : m.wire.length < 2 ^ 31) :
    m.byteSize W = ((m.wire.length : ℤ), m.sized) := by
  rw [length_wire] at hlt
  have hnumber := add_stringSize hW (s := m.number) (n := 0) (by omega)
  rw [Nat.cast_zero, Nat.zero_add] at hnumber
  have htype := add_varintSize (hW.enumSize m.type) hlt
  simp only [byteSize, hnumber, htype, sized, length_wire]

end PhoneNumber

/-- A loop over messages whose sizes are right. -/
theorem foldl_addMessageSize (hW : W.Documented) {byteSize : α → ℤ × α} {length : α → ℕ}
    {sized : α → α} {ms : List α} (hms : ∀ m ∈ ms, byteSize m = ((length m : ℤ), sized m))
    {total : ℕ}
    (hlt : total + (ms.map fun m => (Varint.encode (length m)).length + length m).sum < 2 ^ 31)
    (done : List α) :
    ms.foldl (addMessageSize W byteSize) ((total : ℤ), done) =
      (((total + (ms.map fun m => (Varint.encode (length m)).length + length m).sum : ℕ) : ℤ),
        done ++ ms.map sized) := by
  induction ms generalizing total done with
  | nil => simp
  | cons m ms ih =>
      obtain ⟨hm, hms⟩ := List.forall_mem_cons.mp hms
      rw [List.map_cons, List.sum_cons] at hlt
      have hsize := hW.messageSize (length m) (by omega)
      rw [List.foldl_cons, addMessageSize, hm, hsize]
      dsimp only
      rw [← Nat.cast_add, int32_add (by omega), ih hms (by omega), List.map_cons, List.sum_cons,
        List.map_cons, List.append_assoc, List.singleton_append, Nat.add_assoc]

theorem signExtended_natCast {n : ℕ} (hlt : n < 2 ^ 31) :
    signExtended (BitVec.ofInt 32 n) = n := by
  have hnat : (BitVec.ofNat 32 n).toNat = n := by
    rw [BitVec.toNat_ofNat, Nat.mod_eq_of_lt (by omega)]
  have hmsb : (BitVec.ofNat 32 n).msb = false := by
    rw [BitVec.msb_eq_decide, hnat, decide_eq_false_iff_not]
    omega
  rw [BitVec.ofInt_natCast, signExtended, BitVec.signExtend_eq_setWidth_of_msb_false hmsb,
    BitVec.toNat_setWidth, hnat, Nat.mod_eq_of_lt (by omega)]

theorem length_messageRecord {number : ℕ} (htag : (tagBytes number .lengthDelimited).length = 1)
    (body : Bytes) (add : α → α) (rs : List (Tagged α)) :
    (Tagged.concat (messageRecord number body add :: rs)).length =
      1 + ((Varint.encode body.length).length + body.length) + (Tagged.concat rs).length := by
  rw [messageRecord, Tagged.concat_cons, List.length_append, List.length_append,
    length_lengthDelimited, htag]
  omega

theorem length_messageRecords {β : Type} {number : ℕ}
    (htag : (tagBytes number .lengthDelimited).length = 1) (ms : List β) (body : β → Bytes)
    (add : β → α → α) :
    (Tagged.concat (ms.map fun m => messageRecord number (body m) (add m))).length = ms.length +
      (ms.map fun m => (Varint.encode (body m).length).length + (body m).length).sum := by
  induction ms with
  | nil => rfl
  | cons m ms ih =>
      rw [List.map_cons, length_messageRecord htag, ih, List.map_cons, List.sum_cons,
        List.length_cons]
      omega

namespace Person

/-- The loop over `test` -/
theorem foldl_int32Size (hW : W.Documented) {vs : List (BitVec 32)} {n : ℕ}
    (hlt : n + (vs.flatMap fun v => Varint.encode (signExtended v)).length < 2 ^ 31) :
    vs.foldl (fun size v => int32 (size + W.int32Size v)) (n : ℤ) =
      ((n + (vs.flatMap fun v => Varint.encode (signExtended v)).length : ℕ) : ℤ) := by
  induction vs generalizing n with
  | nil => simp
  | cons v vs ih =>
      rw [List.flatMap_cons, List.length_append] at hlt ⊢
      rw [List.foldl_cons, hW.int32Size, int32_add (by omega), ih (by omega), Nat.add_assoc]

theorem length_wire (m : Person) : m.wire.length = stringLength m.name + varintLength m.id +
    stringLength m.email + m.phone.length + (m.phone.map fun phone =>
      (Varint.encode phone.wire.length).length + phone.wire.length).sum +
    if m.test.length > 0 then
      1 + ((Varint.encode m.testPayload.length).length + m.testPayload.length)
    else 0 := by
  rw [wire, records]
  simp only [Tagged.concat_append, List.length_append]
  rw [length_stringRecords rfl, length_varintRecords rfl, length_stringRecords rfl,
    length_messageRecords rfl]
  split
  · rw [length_messageRecord rfl, Tagged.concat_nil, List.length_nil]
    omega
  · rw [Tagged.concat_nil, List.length_nil]
    omega

theorem testPayload_pos (m : Person) : 0 < m.testPayload.length ↔ m.test.length > 0 := by
  rw [testPayload]
  cases m.test with
  | nil => simp
  | cons v vs =>
      have hpos := Varint.length_encode_pos (signExtended v)
      rw [List.flatMap_cons, List.length_append, List.length_cons]
      omega

/-- The size of the packed list, with a tag and a length unless it is empty. -/
theorem add_testSize (hW : W.Documented) {m : Person} {n : ℕ}
    (hlt : n + (if m.test.length > 0 then
      1 + ((Varint.encode m.testPayload.length).length + m.testPayload.length) else 0) < 2 ^ 31) :
    int32 ((if (m.testPayload.length : ℤ) > 0 then
      int32 (n + (1 + (W.int32Size (BitVec.ofInt 32 m.testPayload.length) : ℤ))) else (n : ℤ)) +
        m.testPayload.length) =
      ((n + (if m.test.length > 0 then
        1 + ((Varint.encode m.testPayload.length).length + m.testPayload.length) else 0) : ℕ) : ℤ)
    := by
  by_cases hpos : m.test.length > 0
  · have hpayload := m.testPayload_pos.mpr hpos
    rw [if_pos hpos] at hlt
    rw [if_pos (by omega), if_pos hpos, hW.int32Size, signExtended_natCast (by omega)]
    have hhead : int32 ((n : ℤ) + (1 + ((Varint.encode m.testPayload.length).length : ℤ))) =
        ((n + (1 + (Varint.encode m.testPayload.length).length) : ℕ) : ℤ) := by
      rw [← int32_add (by omega)]
      push_cast
      rfl
    rw [hhead, int32_add (by omega), Nat.add_assoc, Nat.add_assoc]
  · have hpayload := mt m.testPayload_pos.mp hpos
    rw [if_neg hpos] at hlt
    have hzero : m.testPayload.length = 0 := Nat.eq_zero_of_not_pos hpayload
    have hnot : ¬ (m.testPayload.length : ℤ) > 0 := by omega
    rw [if_neg hnot, if_neg hpos, hzero, int32_add (by omega)]

/-- A message with the sizes that `ByteSize` leaves in it. -/
def sized (m : Person) : Person :=
  { m with
    phone := m.phone.map PhoneNumber.sized
    testCachedByteSize := m.testPayload.length
    cachedSize := m.wire.length }

theorem length_phone_le {m : Person} {phone : PhoneNumber} (h : phone ∈ m.phone) :
    phone.wire.length ≤ m.wire.length := by
  have hmem : messageRecord 4 phone.wire (fun a : Person =>
      { a with phone := a.phone ++ [PhoneNumber.new.mergeFrom phone] }) ∈ m.records := by
    rw [records]
    simp only [List.mem_append, List.mem_map]
    exact .inr (.inr (.inr (.inl ⟨phone, h, rfl⟩)))
  exact length_body_le hmem

theorem byteSize_eq (hW : W.Documented) {m : Person} (hlt : m.wire.length < 2 ^ 31) :
    m.byteSize W = ((m.wire.length : ℤ), m.sized) := by
  have hphones : ∀ phone ∈ m.phone,
      phone.byteSize W = ((phone.wire.length : ℤ), phone.sized) :=
    fun phone hphone => PhoneNumber.byteSize_eq hW (lt_of_le_of_lt (length_phone_le hphone) hlt)
  have hlength := length_wire m
  rw [hlength] at hlt
  have hname := add_stringSize hW (s := m.name) (n := 0) (by omega)
  have hid := add_varintSize (hW.int32Size m.id) (n := stringLength m.name) (by omega)
  have hemail := add_stringSize hW (s := m.email)
    (n := stringLength m.name + varintLength m.id) (by omega)
  rw [Nat.cast_zero, Nat.zero_add] at hname
  simp only [byteSize, hname, hid, hemail, one_mul]
  rw [int32_add (by omega), foldl_addMessageSize hW hphones (by omega)]
  have htest : m.test.foldl (fun size v => int32 (size + W.int32Size v)) (0 : ℤ) =
      (m.testPayload.length : ℤ) := by
    have hpayload : 0 + m.testPayload.length < 2 ^ 31 := by
      by_cases hpos : m.test.length > 0
      · rw [if_pos hpos] at hlt
        omega
      · have hzero := mt m.testPayload_pos.mp hpos
        omega
    have hsum := foldl_int32Size hW hpayload
    rwa [Nat.cast_zero, Nat.zero_add] at hsum
  rw [htest, add_testSize hW hlt, sized, hlength]
  rfl

end Person

namespace AddressBook

theorem length_wire (m : AddressBook) : m.wire.length = m.person.length +
    (m.person.map fun person =>
      (Varint.encode person.wire.length).length + person.wire.length).sum := by
  rw [wire, records, length_messageRecords rfl]

/-- A message with the sizes that `ByteSize` leaves in it. -/
def sized (m : AddressBook) : AddressBook :=
  { m with person := m.person.map Person.sized, cachedSize := m.wire.length }

theorem length_person_le {m : AddressBook} {person : Person} (h : person ∈ m.person) :
    person.wire.length ≤ m.wire.length := by
  have hmem : messageRecord 1 person.wire (fun a : AddressBook =>
      { a with person := a.person ++ [(Person.new 0).mergeFrom person] }) ∈ m.records 0 :=
    List.mem_map_of_mem h
  exact length_body_le hmem

theorem byteSize_eq (hW : W.Documented) {m : AddressBook} (hlt : m.wire.length < 2 ^ 31) :
    m.byteSize W = ((m.wire.length : ℤ), m.sized) := by
  have hpersons : ∀ person ∈ m.person,
      person.byteSize W = ((person.wire.length : ℤ), person.sized) :=
    fun person hperson => Person.byteSize_eq hW (lt_of_le_of_lt (length_person_le hperson) hlt)
  have hlength := length_wire m
  rw [hlength] at hlt
  have hcount : int32 (0 + 1 * m.person.length) = (m.person.length : ℤ) := by
    rw [Int.zero_add, Int.one_mul, int32_natCast (by omega)]
  simp only [byteSize, hcount]
  rw [foldl_addMessageSize hW hpersons hlt, sized, hlength]
  rfl

end AddressBook

/-! ## Bytes -/

theorem concat_stringRecords (hW : W.Documented) {number : ℕ} {s : Bytes}
    (hlt : stringLength s < 2 ^ 31) (set : α → α) :
    (if s.length > 0 then W.writeStringToArray number s else []) =
      Tagged.concat (stringRecords number s set) := by
  rw [stringLength, length_lengthDelimited] at hlt
  rw [stringRecords]
  split
  · rename_i hpos
    rw [if_pos hpos] at hlt
    rw [hW.writeString number s (by omega), Tagged.concat_cons, Tagged.concat_nil, List.append_nil]
  · rfl

theorem concat_varintRecords {number : ℕ} {v : BitVec 32} {bytes : Bytes}
    (hbytes : bytes = tagBytes number .varint ++ Varint.encode (signExtended v)) (set : α → α) :
    (if v ≠ 0 then bytes else []) = Tagged.concat (varintRecords number v set) := by
  rw [varintRecords]
  split
  · rw [hbytes, Tagged.concat_cons, Tagged.concat_nil, List.append_nil]
  · rfl

/-- Messages written with their cached sizes. -/
theorem concat_messageRecords (hW : W.Documented) {β : Type} {number : ℕ} {ms : List β}
    {size : β → ℤ} {bytes body : β → Bytes}
    (h : ∀ m ∈ ms, size m = (body m).length ∧ bytes m = body m ∧ (body m).length < 2 ^ 31)
    (add : β → α → α) :
    ms.flatMap (fun m => W.writeMessageNoVirtualToArray number (size m) (bytes m)) =
      Tagged.concat (ms.map fun m => messageRecord number (body m) (add m)) := by
  induction ms with
  | nil => rfl
  | cons m ms ih =>
      obtain ⟨⟨hsize, hbytes, hlt⟩, hms⟩ := List.forall_mem_cons.mp h
      rw [List.flatMap_cons, List.map_cons, messageRecord, Tagged.concat_cons, hsize, hbytes,
        hW.writeMessage number _ _ hlt, ih hms, List.append_assoc]
      rfl

namespace PhoneNumber

/-- The serializer does not look at the size of the message itself. -/
theorem serialize_eq (hW : W.Documented) {m : PhoneNumber} (hlt : m.wire.length < 2 ^ 31) :
    m.serializeWithCachedSizesToArray W = m.wire := by
  rw [length_wire] at hlt
  rw [serializeWithCachedSizesToArray, concat_stringRecords hW (by omega),
    concat_varintRecords (hW.writeEnum 2 m.type), ← Tagged.concat_append]
  rfl

end PhoneNumber

namespace Person

theorem concat_test (hW : W.Documented) {m : Person} (hlt : m.testPayload.length < 2 ^ 31) :
    (if m.test.length > 0 then W.writeTagToArray 5 .lengthDelimited ++
      W.writeVarint32ToArray (BitVec.ofInt 32 m.testPayload.length) else []) ++
      m.test.flatMap W.writeInt32NoTagToArray =
    Tagged.concat (if m.test.length > 0 then
      [messageRecord 5 m.testPayload fun a : Person => { a with test := a.test ++ m.test }]
      else []) := by
  have hwrite : m.test.flatMap W.writeInt32NoTagToArray = m.testPayload :=
    List.flatMap_congr fun v _ => hW.writeInt32NoTag v
  rw [hwrite]
  split
  · rw [hW.writeTag, hW.writeVarint32, BitVec.ofInt_natCast, BitVec.toNat_ofNat,
      Nat.mod_eq_of_lt (by omega), messageRecord, Tagged.concat_cons, Tagged.concat_nil,
      List.append_nil, List.append_assoc]
    rfl
  · rename_i hnot
    have hzero := mt m.testPayload_pos.mp hnot
    rw [List.length_eq_zero_iff.mp (Nat.eq_zero_of_not_pos hzero)]
    rfl

theorem testPayload_le (m : Person) : m.testPayload.length ≤ m.wire.length := by
  rw [length_wire]
  by_cases hpos : m.test.length > 0
  · rw [if_pos hpos]
    omega
  · have hzero := mt m.testPayload_pos.mp hpos
    omega

/-- What is written after `ByteSize`. -/
theorem serialize_sized (hW : W.Documented) {m : Person} (hlt : m.wire.length < 2 ^ 31) :
    m.sized.serializeWithCachedSizesToArray W = m.wire := by
  have hphones : ∀ phone ∈ m.phone, phone.sized.cachedSize = (phone.wire.length : ℤ) ∧
      phone.sized.serializeWithCachedSizesToArray W = phone.wire ∧ phone.wire.length < 2 ^ 31 := by
    intro phone hphone
    have hlt' := lt_of_le_of_lt (length_phone_le hphone) hlt
    exact ⟨rfl, PhoneNumber.serialize_eq (m := phone.sized) hW hlt', hlt'⟩
  have hpayload := lt_of_le_of_lt m.testPayload_le hlt
  rw [length_wire] at hlt
  rw [wire, records]
  simp only [Tagged.concat_append]
  rw [serializeWithCachedSizesToArray, sized]
  dsimp only
  rw [List.flatMap_map, concat_messageRecords hW hphones, concat_stringRecords hW (by omega),
    concat_varintRecords (hW.writeInt32 2 m.id), concat_stringRecords hW (by omega),
    concat_test hW hpayload]

end Person

namespace AddressBook

theorem serialize_sized (hW : W.Documented) {m : AddressBook} (hlt : m.wire.length < 2 ^ 31) :
    m.sized.serializeWithCachedSizesToArray W = m.wire := by
  have hpersons : ∀ person ∈ m.person, person.sized.cachedSize = (person.wire.length : ℤ) ∧
      person.sized.serializeWithCachedSizesToArray W = person.wire ∧
      person.wire.length < 2 ^ 31 := by
    intro person hperson
    have hlt' := lt_of_le_of_lt (length_person_le hperson) hlt
    exact ⟨rfl, Person.serialize_sized hW hlt', hlt'⟩
  rw [wire, records, serializeWithCachedSizesToArray, sized]
  dsimp only
  rw [List.flatMap_map, concat_messageRecords hW hpersons]

end AddressBook

end Tutorial

end Luapb

import Luapb.Verification.Tutorial.Shown

/-! # Both codecs on the same bytes

The generated parsers and `RawDecode` read a record side by side: what the table shows before
it, the table shows behind it. -/

namespace Luapb

open Wire PBStream

namespace Tutorial

variable {S : GeneratedInputStream} {W : GeneratedWireFormat} {P : Platform}
  {utf8 : Bytes → Bool} {unset : ℤ}

/-! ## Records side by side -/

section

variable {M ℓ α : Type} {schema : Schema M} {G : Grammar ℓ α} {msgD : M}
  {shown : LuaTable → α → Prop}

variable (P utf8 schema G) in
/-- A record of a declared field is one of the parser's, and keeps what is shown. -/
structure Simulated (msgD : M) (shown : LuaTable → α → Prop) : Prop where
  scalar : ∀ fd ∈ (schema msgD).field, ∀ payload x, Carries fd.type payload (some x) →
    (∀ s, x = .string s → utf8 s = true) →
    ∃ effect, G.format (tag fd.number fd.type.wireType) payload effect ∧
      ∀ tab a, shown tab a → shown (fillValue P tab fd (x.push P)) (effect a)
  message : ∀ fd ∈ (schema msgD).field, ∀ messageType, fd.type = .message messageType →
    ∀ lengthBytes body inner budget, Varint.decode lengthBytes = some (body.length, []) →
    body.length < 2 ^ 31 → Contents schema budget messageType body inner →
    (∀ f ∈ inner, f.2.Valid utf8) →
    ∃ effect, G.format (tag fd.number fd.type.wireType) (lengthBytes ++ body) effect ∧
      ∀ tab a, shown tab a →
        shown (fillValue P tab fd (.table (fillAll P [] (storesOf P inner)))) (effect a)
  follows : ∀ fd ∈ (schema msgD).field, ∀ fd' ∈ (schema msgD).field,
    G.follows (tag fd.number fd.type.wireType) (tag fd'.number fd'.type.wireType)

/-- Read side by side, all records of a message leave a table that shows it. -/
theorem Simulated.records (h : Simulated P utf8 schema G msgD shown) {budget : ℕ} {bytes : Bytes}
    {fields : Fields M} (hfields : Contents schema budget msgD bytes fields)
    (hvalid : ∀ f ∈ fields, f.2.Valid utf8) :
    ∃ rs, G.WellFormed rs ∧ Tagged.concat rs = bytes ∧ ∀ tab a, shown tab a →
      shown (fillAll P tab (storesOf P fields)) (Tagged.apply rs a) := by
  suffices hrs : ∃ rs, (∀ r ∈ rs, Tagged.Of G.format r ∧
      ∃ fd ∈ (schema msgD).field, r.tag = tag fd.number fd.type.wireType) ∧
      Tagged.concat rs = bytes ∧ ∀ tab a, shown tab a →
        shown (fillAll P tab (storesOf P fields)) (Tagged.apply rs a) by
    obtain ⟨rs, hof, hconcat, hshown⟩ := hrs
    refine ⟨rs, .of_free (fun r hr => (hof r hr).1) ?_, hconcat, hshown⟩
    intro r hr r' hr'
    obtain ⟨-, fd, hfd, htag⟩ := hof r hr
    obtain ⟨-, fd', hfd', htag'⟩ := hof r' hr'
    rw [htag, htag']
    exact h.follows fd hfd fd' hfd'
  induction hfields with
  | nil => exact ⟨[], List.forall_mem_nil _, rfl, fun _ _ hshown => hshown⟩
  | @scalar budget msgD fd tagBytes payload x rest fields hmem htag hcarries _ ih =>
      obtain ⟨hv, hvalids⟩ := List.forall_mem_cons.mp hvalid
      cases x with
      | none => cases hv
      | some x =>
          cases hv with
          | scalar hutf8 =>
              obtain ⟨effect, hformat, heffect⟩ := h.scalar fd hmem payload x hcarries hutf8
              obtain ⟨rs, hof, rfl, hshown⟩ := ih h hvalids
              refine ⟨⟨tagBytes, tag fd.number fd.type.wireType, payload, effect⟩ :: rs, ?_,
                Tagged.concat_cons .., ?_⟩
              · exact List.forall_mem_cons.mpr
                  ⟨⟨⟨htag, tag_lt fd.number_le _, hformat⟩, fd, hmem, rfl⟩, hof⟩
              · intro tab a ha
                have hnext := hshown _ _ (heffect tab a ha)
                rwa [Option.elim_some, ← List.singleton_append, storesOf_append, fillAll_append,
                  fillAll_single tab fd (FieldValue.push_scalar x)]
  | @message budget msgD fd messageType tagBytes lengthBytes body inner rest fields hmem htype htag
      hlength hlt hbody _ _ ih =>
      obtain ⟨hv, hvalids⟩ := List.forall_mem_cons.mp hvalid
      cases hv with
      | message hinner =>
          obtain ⟨effect, hformat, heffect⟩ :=
            h.message fd hmem messageType htype lengthBytes body inner _ hlength hlt hbody hinner
          obtain ⟨rs, hof, rfl, hshown⟩ := ih h hvalids
          have hwire : fd.type.wireType = .lengthDelimited := by rw [htype]; rfl
          rw [← hwire] at htag
          refine ⟨⟨tagBytes, tag fd.number fd.type.wireType, lengthBytes ++ body, effect⟩ :: rs,
            ?_, ?_, ?_⟩
          · exact List.forall_mem_cons.mpr
              ⟨⟨⟨htag, tag_lt fd.number_le _, hformat⟩, fd, hmem, rfl⟩, hof⟩
          · rw [Tagged.concat_cons, List.append_assoc]
          · intro tab a ha
            have hnext := hshown _ _ (heffect tab a ha)
            rwa [← List.singleton_append, storesOf_append, fillAll_append,
              fillAll_single tab fd (FieldValue.push_message inner)]

end

/-! ## The messages -/

theorem showsInt_push (n : BitVec 32) : ShowsInt LuaTree.view ((Scalar.int32 n).push P) n :=
  .int32 (.refl (Ieee754.Binary.not_isNaN_ofInt _))

/-- A number that is declared is shown by its name. -/
theorem Carries.showsType {payload : Bytes} {x : Scalar}
    (h : Carries (.enum AddressBook.phoneType : FieldType AddressBook.Message) payload (some x)) :
    ∃ n, Varint.decode payload = some (n, []) ∧
      ShowsType LuaTree.view (x.push P) (BitVec.ofNat 32 n) := by
  generalize hx : some x = o at h
  cases h with
  | @enum _ _ n h =>
      obtain ⟨value, hfind, rfl⟩ := Option.map_eq_some_iff.mp hx.symm
      have hnumber := List.find?_some hfind
      simp only [decide_eq_true_eq] at hnumber
      exact ⟨n, h, value, List.mem_of_find?_eq_some hfind, hnumber, .enum value⟩

namespace PhoneNumber

def shown (tab : LuaTable) (m : PhoneNumber) : Prop := m.ShownBy LuaTree.view (entryOf tab)

theorem simulated : Simulated P utf8 AddressBook.schema (grammar utf8) .phoneNumber shown where
  scalar := by
    intro fd hfd payload x hcarries hutf8
    rw [AddressBook.field_phoneNumber] at hfd
    simp only [List.mem_cons, List.not_mem_nil, or_false] at hfd
    rcases hfd with rfl | rfl
    · change Carries .string payload (some x) at hcarries
      cases hcarries with
      | string hlength hlt =>
          refine ⟨_, .number hlength hlt (hutf8 _ rfl), ?_⟩
          intro tab m hm
          refine ⟨under_fillValue rfl (.string _), ?_⟩
          rw [entryOf_fillValue (by decide)]
          exact hm.type
    · obtain ⟨n, hn, hshows⟩ := Carries.showsType hcarries
      refine ⟨_, .type hn, ?_⟩
      intro tab m hm
      refine ⟨?_, under_fillValue rfl hshows⟩
      rw [entryOf_fillValue (by decide)]
      exact hm.number
  message := by
    intro fd hfd messageType htype
    rw [AddressBook.field_phoneNumber] at hfd
    simp only [List.mem_cons, List.not_mem_nil, or_false] at hfd
    rcases hfd with rfl | rfl <;> cases htype
  follows _ _ _ _ := trivial

theorem shown_new : shown [] .new := ⟨rfl, rfl⟩

end PhoneNumber

namespace Person

def shown (tab : LuaTable) (m : Person) : Prop := m.ShownBy LuaTree.view (entryOf tab)

theorem simulated : Simulated P utf8 AddressBook.schema (grammar utf8) .person shown where
  scalar := by
    intro fd hfd payload x hcarries hutf8
    rw [AddressBook.field_person] at hfd
    simp only [List.mem_cons, List.not_mem_nil, or_false] at hfd
    rcases hfd with rfl | rfl | rfl | rfl | rfl
    · change Carries .string payload (some x) at hcarries
      cases hcarries with
      | string hlength hlt =>
          refine ⟨_, .name hlength hlt (hutf8 _ rfl), ?_⟩
          intro tab m hm
          refine ⟨under_fillValue rfl (.string _), ?_, ?_, ?_, ?_⟩ <;>
            rw [entryOf_fillValue (by decide)]
          exacts [hm.id, hm.email, hm.phone, hm.test]
    · change Carries .int32 payload (some x) at hcarries
      cases hcarries with
      | int32 hn =>
          refine ⟨_, .id hn, ?_⟩
          intro tab m hm
          refine ⟨?_, under_fillValue rfl (showsInt_push _), ?_, ?_, ?_⟩ <;>
            rw [entryOf_fillValue (by decide)]
          exacts [hm.name, hm.email, hm.phone, hm.test]
    · change Carries .string payload (some x) at hcarries
      cases hcarries with
      | string hlength hlt =>
          refine ⟨_, .email hlength hlt (hutf8 _ rfl), ?_⟩
          intro tab m hm
          refine ⟨?_, ?_, under_fillValue rfl (.string _), ?_, ?_⟩ <;>
            rw [entryOf_fillValue (by decide)]
          exacts [hm.name, hm.id, hm.phone, hm.test]
    · change Carries (.message AddressBook.Message.phoneNumber) payload (some x) at hcarries
      cases hcarries
    · change Carries .int32 payload (some x) at hcarries
      cases hcarries with
      | int32 hn =>
          refine ⟨_, .unpacked hn, ?_⟩
          intro tab m hm
          refine ⟨?_, ?_, ?_, ?_, listUnder_fillValue rfl hm.test (showsInt_push _)⟩ <;>
            rw [entryOf_fillValue (by decide)]
          exacts [hm.name, hm.id, hm.email, hm.phone]
  message := by
    intro fd hfd messageType htype lengthBytes body inner budget hlength hlt hinner hvalid
    rw [AddressBook.field_person] at hfd
    simp only [List.mem_cons, List.not_mem_nil, or_false] at hfd
    rcases hfd with rfl | rfl | rfl | rfl | rfl
    case inr.inr.inr.inl =>
      obtain rfl := FieldType.message.inj htype
      obtain ⟨rs, hrs, rfl, hshown⟩ := PhoneNumber.simulated.records hinner hvalid
      refine ⟨_, .phone hrs hlength hlt, ?_⟩
      intro tab m hm
      have hphone := hshown [] _ PhoneNumber.shown_new
      refine ⟨?_, ?_, ?_, listUnder_fillValue rfl hm.phone ⟨_, rfl, hphone⟩, ?_⟩ <;>
        rw [entryOf_fillValue (by decide)]
      exacts [hm.name, hm.id, hm.email, hm.test]
    all_goals cases htype
  follows := by
    intro fd hfd fd' hfd' _
    rw [AddressBook.field_person] at hfd'
    simp only [List.mem_cons, List.not_mem_nil, or_false] at hfd'
    rcases hfd' with rfl | rfl | rfl | rfl | rfl <;> decide

theorem shown_new : shown [] (.new unset) := ⟨rfl, rfl, rfl, rfl, rfl⟩

end Person

namespace AddressBook

def shown (tab : LuaTable) (m : AddressBook) : Prop := m.ShownBy LuaTree.view (entryOf tab)

theorem simulated :
    Simulated P utf8 AddressBook.schema (grammar utf8 unset) .addressBook shown where
  scalar := by
    intro fd hfd payload x hcarries
    rw [AddressBook.field_addressBook] at hfd
    obtain rfl := List.mem_singleton.mp hfd
    change Carries (.message AddressBook.Message.person) payload (some x) at hcarries
    cases hcarries
  message := by
    intro fd hfd messageType htype lengthBytes body inner budget hlength hlt hinner hvalid
    rw [AddressBook.field_addressBook] at hfd
    obtain rfl := List.mem_singleton.mp hfd
    obtain rfl := FieldType.message.inj htype
    obtain ⟨rs, hrs, rfl, hshown⟩ := Person.simulated.records hinner hvalid
    refine ⟨_, .person hrs hlength hlt, ?_⟩
    intro tab m hm
    have hperson := hshown [] (Person.new unset) Person.shown_new
    exact ⟨listUnder_fillValue rfl hm.person ⟨_, rfl, hperson⟩⟩
  follows _ _ _ _ := trivial

end AddressBook

/-! ## Both decoders -/

variable (unset) in
/-- What `RawDecode` reads is a sequence of the parser's records, and keeps what they show. -/
theorem AddressBook.decoded_records (hS : S.Documented) {bytes : Bytes}
    {fields : Fields Luapb.AddressBook.Message}
    (hfields : Contents Luapb.AddressBook.schema S.recursionLimit .addressBook bytes fields)
    (hvalid : ∀ f ∈ fields, f.2.Valid utf8) (hlen : bytes.length ≤ S.totalBytesLimit)
    {steps : ℕ} (hsteps : bytes.length < steps) (garbage : S.Stream → ℤ) :
    ∃ run rs, rawDecode P S.toCodedInputStream garbage Luapb.AddressBook.schema steps 1
        (S.create bytes) .addressBook = some run ∧
      (grammar utf8 unset).WellFormed rs ∧ Tagged.concat rs = bytes ∧
      ∀ m, m.person = [] → shown run.tab (Tagged.apply rs m) := by
  have hsimulated : Simulated P _ Luapb.AddressBook.schema (grammar utf8 unset) .addressBook
      shown := simulated
  obtain ⟨rs, hrs, hconcat, hshown⟩ := hsimulated.records hfields hvalid
  have hdenotes := hfields.denotes (P := P) []
  obtain ⟨run, hrun, htab⟩ := hdenotes.rawDecode hS.toDocumented hlen hsteps
  refine ⟨run, rs, hrun, hrs, hconcat, ?_⟩
  intro m hm
  rw [htab]
  exact hshown [] m ⟨hm⟩

/-- On the records of an `AddressBook` the two decoders agree, as long as the strings are UTF-8
and the numbers have names. -/
theorem AddressBook.decoders_agree (hS : S.Documented) (hdepth : 2 ≤ S.recursionLimit)
    {bytes : Bytes} {fields : Fields Luapb.AddressBook.Message}
    (hfields : Contents Luapb.AddressBook.schema S.recursionLimit .addressBook bytes fields)
    (hvalid : ∀ f ∈ fields, f.2.Valid S.verifyUtf8String)
    (hlen : bytes.length ≤ S.totalBytesLimit) {steps : ℕ} (hsteps : bytes.length < steps)
    (garbage : S.Stream → ℤ) (m' : AddressBook) :
    ∃ run m, rawDecode P S.toCodedInputStream garbage Luapb.AddressBook.schema steps 1
        (S.create bytes) .addressBook = some run ∧
      m'.parseFromString S unset steps bytes = some (true, m) ∧
      m.ShownBy LuaTree.view (entryOf run.tab) := by
  obtain ⟨run, rs, hrun, hrs, rfl, hshown⟩ :=
    decoded_records unset hS hfields hvalid hlen hsteps garbage
  refine ⟨run, _, hrun, ?_, hshown m'.clear rfl⟩
  exact parseFromString_eq hS hlen (mergePartial_create hS hdepth hrs hlen hsteps m'.clear)

/-- A person with a name and two elements of `test`. -/
theorem AddressBook.decoders_agree_person :
    ∃ run m, rawDecode (.plain .win32) .reference (fun _ => 0) Luapb.AddressBook.schema 100 1
        (CodedInputStream.reference.create [10, 7, 10, 1, 65, 40, 3, 40, 4]) .addressBook =
          some run ∧
      AddressBook.new.parseFromString .reference 0 100 [10, 7, 10, 1, 65, 40, 3, 40, 4] =
        some (true, m) ∧ m.ShownBy LuaTree.view (entryOf run.tab) := by
  have hperson : Contents Luapb.AddressBook.schema 99 .person
      ([10] ++ (([1] ++ [65]) ++ ([40] ++ ([3] ++ ([40] ++ ([4] ++ [])))))) _ :=
    .scalar Luapb.AddressBook.mem_nameField rfl (.string rfl (by decide))
      (.scalar Luapb.AddressBook.mem_testField rfl (.int32 rfl)
        (.scalar Luapb.AddressBook.mem_testField rfl (.int32 rfl) .nil))
  have hbook : Contents Luapb.AddressBook.schema 100 .addressBook
      ([10] ++ ([7] ++ ([10, 1, 65, 40, 3, 40, 4] ++ []))) _ :=
    .message Luapb.AddressBook.mem_personField rfl rfl rfl (by decide) hperson .nil
  refine decoders_agree GeneratedInputStream.reference_documented (by decide) hbook ?_ (by decide)
    (by decide) (fun _ => 0) .new
  refine List.forall_mem_singleton.mpr (.message ?_)
  simp only [List.forall_mem_cons]
  refine ⟨.scalar ?_, .scalar ?_, .scalar ?_, List.forall_mem_nil _⟩
  · rintro s ⟨⟩
    decide
  · rintro s ⟨⟩
  · rintro s ⟨⟩

/-! ## Serialized messages -/

/-- Records of declared fields in their wire types. -/
def Declared {M : Type} (schema : Schema M) (budget : ℕ) (msgD : M) (bytes : Bytes) : Prop :=
  ∃ fields, Contents schema budget msgD bytes fields ∧ ∀ f ∈ fields, f.2.Valid fun _ => true

section

variable {M α : Type} {schema : Schema M} {budget : ℕ} {msgD : M} {fd : FieldDescriptor M}

theorem Declared.nil : Declared schema budget msgD [] := ⟨[], .nil, List.forall_mem_nil _⟩

theorem Declared.append {bytes more : Bytes} (h : Declared schema budget msgD bytes)
    (h' : Declared schema budget msgD more) : Declared schema budget msgD (bytes ++ more) := by
  obtain ⟨fields, hfields, hvalid⟩ := h
  obtain ⟨fields', hfields', hvalid'⟩ := h'
  exact ⟨_, hfields.append hfields', List.forall_mem_append.mpr ⟨hvalid, hvalid'⟩⟩

theorem Declared.scalar (hmem : fd ∈ (schema msgD).field) {payload : Bytes} {x : Scalar}
    (h : Carries fd.type payload (some x)) :
    Declared schema budget msgD (tagBytes fd.number fd.type.wireType ++ payload) := by
  have hrecord : Contents schema budget msgD _ _ := .scalar hmem (decode_tagBytes fd _) h .nil
  rw [List.append_nil] at hrecord
  exact ⟨_, hrecord, List.forall_mem_singleton.mpr (.scalar fun _ _ => rfl)⟩

theorem Declared.message (hmem : fd ∈ (schema msgD).field) {messageType : M}
    (htype : fd.type = .message messageType) {body : Bytes} (hlt : body.length < 2 ^ 31)
    (h : Declared schema budget messageType body) :
    Declared schema (budget + 1) msgD
      (tagBytes fd.number .lengthDelimited ++ lengthDelimited body) := by
  obtain ⟨fields, hfields, hvalid⟩ := h
  have hrecord : Contents schema (budget + 1) msgD _ _ := .message hmem htype
    (decode_tagBytes fd _) (decode_encode_nil (by omega)) hlt hfields .nil
  rw [List.append_nil] at hrecord
  exact ⟨_, hrecord, List.forall_mem_singleton.mpr (.message hvalid)⟩

theorem declared_stringRecords (hmem : fd ∈ (schema msgD).field) (htype : fd.type = .string)
    {s : Bytes} (hlt : s.length < 2 ^ 31) (set : α → α) :
    Declared schema budget msgD (Tagged.concat (stringRecords fd.number s set)) := by
  rw [stringRecords]
  split
  · have hcarries : Carries fd.type (lengthDelimited s) (some (.string s)) := by
      rw [htype]
      exact .string (decode_encode_nil (by omega)) hlt
    have hrecord : Declared schema budget msgD _ := .scalar hmem hcarries
    rw [htype] at hrecord
    rw [Tagged.concat_cons, Tagged.concat_nil, List.append_nil]
    exact hrecord
  · exact .nil

theorem declared_varintRecords (hmem : fd ∈ (schema msgD).field)
    (hwire : fd.type.wireType = .varint) {v : BitVec 32} {x : Scalar}
    (h : Carries fd.type (Varint.encode (signExtended v)) (some x)) (set : α → α) :
    Declared schema budget msgD (Tagged.concat (varintRecords fd.number v set)) := by
  rw [varintRecords]
  split
  · have hrecord : Declared schema budget msgD _ := .scalar hmem h
    rwa [Tagged.concat_cons, Tagged.concat_nil, List.append_nil, ← hwire]
  · exact .nil

theorem declared_messageRecords {β : Type} (hmem : fd ∈ (schema msgD).field) {messageType : M}
    (htype : fd.type = .message messageType) {ms : List β} {body : β → Bytes}
    (h : ∀ m ∈ ms, (body m).length < 2 ^ 31 ∧ Declared schema budget messageType (body m))
    (add : β → α → α) :
    Declared schema (budget + 1) msgD
      (Tagged.concat (ms.map fun m => messageRecord fd.number (body m) (add m))) := by
  induction ms with
  | nil => exact .nil
  | cons m ms ih =>
      obtain ⟨⟨hlt, hbody⟩, hms⟩ := List.forall_mem_cons.mp h
      rw [List.map_cons, messageRecord, Tagged.concat_cons, ← List.append_assoc]
      exact (Declared.message hmem htype hlt hbody).append (ih hms)

end

theorem le_stringLength (s : Bytes) : s.length ≤ stringLength s := by
  rw [stringLength, length_lengthDelimited]
  split <;> omega

/-- A number of 32 bits is carried by its encoding with 64. -/
theorem carries_int32 (v : BitVec 32) :
    Carries (.int32 : FieldType Luapb.AddressBook.Message) (Varint.encode (signExtended v))
      (some (.int32 v)) := by
  have h : Carries (.int32 : FieldType Luapb.AddressBook.Message) _ _ :=
    .int32 (decode_encode_nil (signExtended_lt v))
  rwa [ofNat_signExtended] at h

/-- The type of a phone has a name. -/
def PhoneNumber.Named (m : PhoneNumber) : Prop :=
  (Luapb.AddressBook.phoneType.findValueByNumber m.type).isSome

instance (m : PhoneNumber) : Decidable m.Named := inferInstanceAs (Decidable (_ = true))

theorem PhoneNumber.declared {m : PhoneNumber} (hlt : m.wire.length < 2 ^ 31) (htype : m.Named)
    (budget : ℕ) : Declared Luapb.AddressBook.schema budget .phoneNumber m.wire := by
  obtain ⟨value, hvalue⟩ := Option.isSome_iff_exists.mp htype
  have hcarries : Carries Luapb.AddressBook.typeField.type (Varint.encode (signExtended m.type))
      (some (.enum value)) := by
    have h : Carries Luapb.AddressBook.typeField.type _ _ :=
      .enum (decode_encode_nil (signExtended_lt m.type))
    rwa [ofNat_signExtended, hvalue, Option.map_some] at h
  rw [length_wire] at hlt
  have hnumber := le_stringLength m.number
  rw [wire, records, Tagged.concat_append]
  exact (declared_stringRecords Luapb.AddressBook.mem_numberField rfl (by omega) _).append
    (declared_varintRecords Luapb.AddressBook.mem_typeField rfl hcarries _)

theorem Person.declared {m : Person} (hlt : m.wire.length < 2 ^ 31) (htest : m.test = [])
    (htypes : ∀ phone ∈ m.phone, phone.Named) (budget : ℕ) :
    Declared Luapb.AddressBook.schema (budget + 1) .person m.wire := by
  have hphones : ∀ phone ∈ m.phone, phone.wire.length < 2 ^ 31 ∧
      Declared Luapb.AddressBook.schema budget .phoneNumber phone.wire := by
    intro phone hphone
    have hlt' := lt_of_le_of_lt (length_phone_le hphone) hlt
    exact ⟨hlt', PhoneNumber.declared hlt' (htypes phone hphone) budget⟩
  rw [length_wire] at hlt
  have hname : m.name.length ≤ stringLength m.name := le_stringLength m.name
  have hemail : m.email.length ≤ stringLength m.email := le_stringLength m.email
  rw [wire, records, htest]
  simp only [Tagged.concat_append, List.length_nil, lt_irrefl, if_false, Tagged.concat_nil]
  refine (declared_stringRecords Luapb.AddressBook.mem_nameField rfl (by omega) _).append ?_
  refine (declared_varintRecords Luapb.AddressBook.mem_idField rfl (carries_int32 _) _).append ?_
  refine (declared_stringRecords Luapb.AddressBook.mem_emailField rfl (by omega) _).append ?_
  exact (declared_messageRecords Luapb.AddressBook.mem_phoneField rfl hphones _).append .nil

theorem AddressBook.declared {m : AddressBook} (hlt : m.wire.length < 2 ^ 31)
    (htest : ∀ person ∈ m.person, person.test = [])
    (htypes : ∀ person ∈ m.person, ∀ phone ∈ person.phone, phone.Named) (budget : ℕ) :
    Declared Luapb.AddressBook.schema (budget + 2) .addressBook m.wire := by
  have hpersons : ∀ person ∈ m.person, person.wire.length < 2 ^ 31 ∧
      Declared Luapb.AddressBook.schema (budget + 1) .person person.wire := by
    intro person hperson
    have hlt' := lt_of_le_of_lt (length_person_le hperson) hlt
    exact ⟨hlt', Person.declared hlt' (htest person hperson) (htypes person hperson) budget⟩
  exact declared_messageRecords Luapb.AddressBook.mem_personField rfl hpersons _

/-- What a message is written as `RawDecode` reads, as long as nothing is packed and every type
has a name. -/
theorem AddressBook.wire_decodes (hS : S.Documented) (hdepth : 2 ≤ S.recursionLimit)
    {m : AddressBook} (htest : ∀ person ∈ m.person, person.test = [])
    (htypes : ∀ person ∈ m.person, ∀ phone ∈ person.phone, phone.Named)
    (hlen : m.wire.length ≤ S.totalBytesLimit) (garbage : S.Stream → ℤ) {steps : ℕ}
    (hsteps : m.wire.length < steps) :
    ∃ run, rawDecode P S.toCodedInputStream garbage Luapb.AddressBook.schema steps 1
        (S.create m.wire) .addressBook = some run ∧
      m.ShownBy LuaTree.view (entryOf run.tab) := by
  have hlt := lt_of_le_of_lt hlen hS.totalBytesLimit_lt
  obtain ⟨budget, hbudget⟩ := Nat.exists_eq_add_of_le' hdepth
  obtain ⟨fields, hfields, hvalid⟩ := declared hlt htest htypes budget
  rw [← hbudget] at hfields
  have hS' := documented_permissive hS
  obtain ⟨run, rs, hrun, hrs, hconcat, hshown⟩ :=
    decoded_records 0 hS hfields hvalid hlen hsteps garbage
  -- a parser that takes every string reads the same records
  have hcopy : AddressBook.new.parseFromString { S with verifyUtf8String := fun _ => true } 0 steps
      m.wire = some (true, AddressBook.new.copyFrom 0 m) :=
    parseFromString_wire hS' hdepth (fun _ _ _ => rfl) hlen hsteps .new
  rw [← hconcat] at hlen hsteps hcopy
  have hrecords : AddressBook.new.parseFromString { S with verifyUtf8String := fun _ => true } 0
      steps (Tagged.concat rs) = some (true, Tagged.apply rs AddressBook.new.clear) :=
    parseFromString_eq hS' hlen (mergePartial_create hS' hdepth hrs hlen hsteps _)
  have heq := (Prod.mk.inj (Option.some.inj (hrecords.symm.trans hcopy))).2
  have hshown := hshown AddressBook.new.clear rfl
  rw [heq] at hshown
  exact ⟨run, hrun, hshown.congr (data_copyFrom _ m)⟩

/-- What the generated code writes `RawDecode` reads, as long as nothing is packed and every
type has a name. -/
theorem AddressBook.serialized_decodes (hS : S.Documented) (hW : W.Documented)
    (hdepth : 2 ≤ S.recursionLimit) {m : AddressBook}
    (htest : ∀ person ∈ m.person, person.test = [])
    (htypes : ∀ person ∈ m.person, ∀ phone ∈ person.phone, phone.Named)
    (hlen : m.wire.length ≤ S.totalBytesLimit) (garbage : S.Stream → ℤ) {steps : ℕ}
    (hsteps : m.wire.length < steps) :
    ∃ run, rawDecode P S.toCodedInputStream garbage Luapb.AddressBook.schema steps 1
        (S.create (m.serializeAsString W)) .addressBook = some run ∧
      m.ShownBy LuaTree.view (entryOf run.tab) := by
  rw [serializeAsString_eq hW (lt_of_le_of_lt hlen hS.totalBytesLimit_lt)]
  exact wire_decodes hS hdepth htest htypes hlen garbage hsteps

theorem AddressBook.serialized_decodes_answer :
    let book : AddressBook := ⟨[{ answerPb with test := [] }], 0⟩
    ∃ run, rawDecode (.plain .win32) .reference (fun _ => 0) Luapb.AddressBook.schema 100 1
        (CodedInputStream.reference.create (book.serializeAsString .reference)) .addressBook =
          some run ∧
      book.ShownBy LuaTree.view (entryOf run.tab) :=
  serialized_decodes GeneratedInputStream.reference_documented
    GeneratedWireFormat.reference_documented (by decide) (by decide) (by decide) (by decide)
    (fun _ => 0) (by decide)

end Tutorial

end Luapb

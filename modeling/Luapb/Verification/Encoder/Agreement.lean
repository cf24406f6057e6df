import Luapb.Verification.Encoder.Size

/-! # Where the two passes agree

`RawByteSize` leaves out the length prefix of a singular message, which `RawEncode`
writes. So the passes agree on the tables in which no singular message is met. -/

namespace Luapb

open Ieee754 Wire PBStream

variable {M : Type} {P : Platform} {W : WireFormatLite} {L : LuaState} {schema : Schema M}

/-- Every enum value met is a declared name. -/
def EnumsDeclared (P : Platform) (L : LuaState) (schema : Schema M) :
    ℕ → M → L.Value → Prop :=
  Everywhere P L schema fun part => EnumDeclared P part.1.type (L.view part.2)

/-- Every message met belongs to a repeated field. -/
def MessagesRepeated (P : Platform) (L : LuaState) (schema : Schema M) :
    ℕ → M → L.Value → Prop :=
  Everywhere P L schema fun part => part.1.type.messageType?.isSome → part.1.isRepeated = true

/-- What is asked of the two passes over a table: the size is the number of bytes
written, so the buffer is filled and not overrun, and every length prefix is the length
of the payload behind it. -/
structure SizesAgree (P : Platform) (W : WireFormatLite) (L : LuaState) (schema : Schema M)
    (fuel : ℕ) (msgD : M) (tab : L.Value) (written : Bytes) : Prop where
  size_eq : rawByteSize P W L schema fuel msgD tab = .ok written.length
  encode_eq : ∀ (findMessage : Bytes → Option M) (heap : ℕ → UInt8) (name : L.Value) (s : Bytes),
    Stack.checklstring P (L.view name) = .ok s → findMessage (cstr s) = some msgD →
    encode P W L schema findMessage heap fuel name tab = .ok (some written)
  prefix_eq : ∀ fuel' fd value messageType, Visits P L schema fuel msgD tab fuel' (fd, value) →
    fd.type.messageType? = some messageType →
    ∃ payload, rawByteSize P W L schema fuel' messageType value = .ok payload.length ∧
      rawEncode P W L schema fuel' messageType [] value = .ok payload

/-! ## One part -/

theorem length_writeMessageHead (hW : W.Documented) {number : ℕ} (hle : number ≤ maxFieldNumber)
    (size : ℤ) : ((writeMessageHead W number size).length : ℤ) =
      tagSize W number + W.varintSize32 (BitVec.ofInt 32 size) := by
  rw [writeMessageHead, hW.writeTag, hW.writeVarint32, List.length_append, Nat.cast_add,
    tagSize_eq hW hle .lengthDelimited, hW.varintSize32]

theorem varintSize32_pos (hW : W.Documented) (v : BitVec 32) : 0 < W.varintSize32 v := by
  rw [hW.varintSize32]
  exact Varint.length_encode_pos _

/-- The terms of a part are no more than its bytes. They are as many if the part and
everything in it is repeated where it is a message. -/
theorem partTerms_le (hW : W.Documented) {fuel : ℕ} {part : FieldDescriptor M × L.Value}
    (hsized : Sized part.1.type) (henum : EnumDeclared P part.1.type (L.view part.2))
    (hnested : ∀ messageType, part.1.type.messageType? = some messageType → ∀ n payload,
      rawByteSizeBy P W L schema id fuel messageType part.2 = .ok n → n < 2 ^ 31 →
      rawEncode P W L schema fuel messageType [] part.2 = .ok payload →
      n ≤ payload.length ∧
        (n = payload.length ↔ MessagesRepeated P L schema fuel messageType part.2))
    {t : ℤ × ℤ} (hterms : PartTerms P W L id (rawByteSizeBy P W L schema id fuel) part t)
    (hlt : t.1 + t.2 < 2 ^ 31) {bytes : Bytes}
    (hbytes : PartBytes P W L (rawByteSize P W L schema fuel)
      (fun msgD => rawEncode P W L schema fuel msgD []) part bytes) :
    t.1 + t.2 ≤ bytes.length ∧
      (t.1 + t.2 = bytes.length ↔
        (part.1.type.messageType?.isSome → part.1.isRepeated = true) ∧
          ∀ messageType, part.1.type.messageType? = some messageType →
            MessagesRepeated P L schema fuel messageType part.2) := by
  have htag : 0 ≤ tagSize W part.1.number := Int.natCast_nonneg _
  have hlength : ∀ size (payload : Bytes),
      ((writeMessageHead W part.1.number size ++ payload).length : ℤ) =
        tagSize W part.1.number + W.varintSize32 (BitVec.ofInt 32 size) + payload.length := by
    intro size payload
    rw [List.length_append, Nat.cast_add, length_writeMessageHead hW part.1.number_le]
  cases hterms with
  | scalar htype hsize =>
      have heq := fieldSize_writeValue hW hsized htype henum hsize
        (fun _ => by simp only at hlt htag; omega) (hbytes.scalar_eq htype)
      refine ⟨heq.le, iff_of_true heq ⟨?_, ?_⟩⟩
      · rw [htype]
        exact fun h => nomatch h
      · rw [htype]
        exact fun _ h => nomatch h
  | @repeated _ _ messageType size htype hmany hsize =>
      obtain ⟨size', payload, hsize', hwrite, rfl⟩ := hbytes.message_eq htype
      have hnonneg := exactSize_nonneg hsize
      simp only [id] at hlt htag hlength ⊢
      rw [rawByteSize_of_exact hsize (by omega)] at hsize'
      obtain rfl := Except.ok.inj hsize'
      obtain ⟨hle, hiff⟩ := hnested _ htype _ _ hsize (by omega) hwrite
      rw [hlength]
      refine ⟨by omega, ?_⟩
      constructor
      · intro heq
        refine ⟨fun _ => hmany, ?_⟩
        intro messageType' hmessage
        obtain rfl := Option.some.inj (htype.symm.trans hmessage)
        exact hiff.mp (by omega)
      · intro h
        have := hiff.mpr (h.2 _ htype)
        omega
  | @singular _ _ messageType size htype hone hsize =>
      obtain ⟨size', payload, -, hwrite, rfl⟩ := hbytes.message_eq htype
      simp only at hlt htag hlength ⊢
      obtain ⟨hle, -⟩ := hnested _ htype _ _ hsize (by omega) hwrite
      have hpos := varintSize32_pos hW (BitVec.ofInt 32 size')
      rw [hlength]
      -- the missing prefix is what the write pass has more
      refine ⟨by omega, iff_of_false (by omega) ?_⟩
      rintro ⟨hmany, -⟩
      simp [hone, htype] at hmany

/-! ## Whole tables -/

/-- Sums of terms that are bounded one by one. -/
theorem sum_le_length {α : Type} {A : α → ℤ × ℤ → Prop} {B : α → Bytes → Prop} {Q : α → Prop}
    {parts : List α} {terms : List (ℤ × ℤ)} {written : List Bytes}
    (hterms : List.Forall₂ A parts terms) (hwritten : List.Forall₂ B parts written)
    (h : ∀ part ∈ parts, ∀ t ∈ terms, A part t → ∀ bytes, B part bytes →
      t.1 + t.2 ≤ bytes.length ∧ (t.1 + t.2 = bytes.length ↔ Q part)) :
    (terms.map fun t => t.1 + t.2).sum ≤ written.flatten.length ∧
      ((terms.map fun t => t.1 + t.2).sum = written.flatten.length ↔ ∀ part ∈ parts, Q part) := by
  induction hterms generalizing written with
  | nil =>
      cases hwritten
      simp
  | @cons part t parts terms ht hterms ih =>
      cases hwritten with
      | @cons _ bytes _ written hbytes hwritten =>
          obtain ⟨hle, hiff⟩ := h part List.mem_cons_self t List.mem_cons_self ht bytes hbytes
          obtain ⟨hle', hiff'⟩ := ih hwritten fun part hpart t ht =>
            h part (List.mem_cons_of_mem _ hpart) t (List.mem_cons_of_mem _ ht)
          rw [List.forall_mem_cons, ← hiff, ← hiff', List.map_cons, List.sum_cons,
            List.flatten_cons, List.length_append, Nat.cast_add]
          omega

/-- The exact size is no more than what is written, and is that exactly if every message
met is repeated. -/
theorem exactSize_le (hW : W.Documented)
    (hsized : ∀ msgD, ∀ fd ∈ (schema msgD).field, Sized fd.type) {fuel : ℕ} {msgD : M}
    {tab : L.Value} (henum : EnumsDeclared P L schema fuel msgD tab) {n : ℤ}
    (hsize : rawByteSizeBy P W L schema id fuel msgD tab = .ok n) (hlt : n < 2 ^ 31)
    {written : Bytes} (hencode : rawEncode P W L schema fuel msgD [] tab = .ok written) :
    n ≤ written.length ∧ (n = written.length ↔ MessagesRepeated P L schema fuel msgD tab) := by
  induction fuel generalizing msgD tab n written with
  | zero => cases hsize
  | succ fuel ih =>
      obtain ⟨terms, ⟨parts, hparts, hterms⟩, rfl⟩ := rawByteSizeBy_eq_ok.mp hsize
      obtain ⟨bytes, ⟨parts', hparts', hbytes⟩, rfl⟩ := rawEncode_eq_ok.mp hencode
      obtain rfl := hparts.deterministic hparts'
      have henums := (everywhere_succ hparts).mp henum
      have hnonneg := terms_nonneg (fun _ _ _ => exactSize_nonneg) hterms
      rw [foldl_addTerms_id, Int.zero_add] at hlt ⊢
      rw [MessagesRepeated, everywhere_succ hparts, List.nil_append]
      apply sum_le_length hterms hbytes
      intro part hpart t ht hterm bytes hbyte
      have hle := term_le_sum hnonneg ht
      refine partTerms_le hW (hsized _ _ (hparts.mem_field hpart)) (henums part hpart).1 ?_ hterm
        (by omega) hbyte
      intro messageType htype n payload hn hnlt hpayload
      exact ih ((henums part hpart).2 messageType htype) hn hnlt hpayload

/-- The write pass went through a part that is a message. -/
theorem exists_payload_of_mem {fuel : ℕ} {msgD : M} {tab : L.Value}
    {parts : List (FieldDescriptor M × L.Value)} (hparts : TableParts P L schema msgD tab parts)
    {part : FieldDescriptor M × L.Value} (hmem : part ∈ parts) {messageType : M}
    (htype : part.1.type.messageType? = some messageType) {written : Bytes}
    (hencode : rawEncode P W L schema (fuel + 1) msgD [] tab = .ok written) :
    ∃ payload, rawEncode P W L schema fuel messageType [] part.2 = .ok payload := by
  obtain ⟨bytes, ⟨parts', hparts', hbytes⟩, -⟩ := rawEncode_eq_ok.mp hencode
  obtain rfl := hparts.deterministic hparts'
  obtain ⟨bs, -, hbs⟩ := Fallible.exists_of_mem_right hbytes.flip hmem
  obtain ⟨-, payload, -, hpayload, -⟩ := hbs.message_eq htype
  exact ⟨payload, hpayload⟩

theorem visited_payload {fuel fuel' : ℕ} {msgD : M} {tab : L.Value}
    {part : FieldDescriptor M × L.Value} (hvisits : Visits P L schema fuel msgD tab fuel' part)
    {messageType : M} (htype : part.1.type.messageType? = some messageType) {written : Bytes}
    (hencode : rawEncode P W L schema fuel msgD [] tab = .ok written) :
    ∃ payload, rawEncode P W L schema fuel' messageType [] part.2 = .ok payload := by
  induction hvisits generalizing written with
  | part hparts hmem => exact exists_payload_of_mem hparts hmem htype hencode
  | nested hparts hmem htype' _ ih =>
      obtain ⟨payload, hpayload⟩ := exists_payload_of_mem hparts hmem htype' hencode
      exact ih htype hpayload

/-- A buffer of as many bytes as are written is full and not overrun. -/
theorem buffer_length (heap : ℕ → UInt8) {written : Bytes} (hlt : written.length < 2 ^ 32) :
    buffer heap (BitVec.ofInt 32 written.length) written = .ok written := by
  have hnat : (BitVec.ofInt 32 (written.length : ℤ)).toNat = written.length := by
    rw [BitVec.ofInt_natCast, BitVec.toNat_ofNat, Nat.mod_eq_of_lt hlt]
  simp only [buffer, hnat, lt_irrefl, if_false, Nat.sub_self, List.range'_zero, List.map_nil,
    List.append_nil]

theorem encode_of_size {findMessage : Bytes → Option M} (heap : ℕ → UInt8) {fuel : ℕ}
    {msgD : M} {name tab : L.Value} {s written : Bytes}
    (hname : Stack.checklstring P (L.view name) = .ok s) (hfind : findMessage (cstr s) = some msgD)
    (hsize : rawByteSize P W L schema fuel msgD tab = .ok written.length)
    (hencode : rawEncode P W L schema fuel msgD [] tab = .ok written)
    (hlt : written.length < 2 ^ 32) :
    encode P W L schema findMessage heap fuel name tab = .ok (some written) := by
  simp only [encode, hname, Fallible.ok_bind, hfind, hsize, hencode, buffer_length heap hlt]
  rfl

/-- The passes agree exactly if every message met is repeated. -/
theorem sizesAgree_iff (hW : W.Documented)
    (hsized : ∀ msgD, ∀ fd ∈ (schema msgD).field, Sized fd.type) {fuel : ℕ} {msgD : M}
    {tab : L.Value} (henum : EnumsDeclared P L schema fuel msgD tab) {n : ℤ}
    (hsize : rawByteSizeBy P W L schema id fuel msgD tab = .ok n) (hlt : n < 2 ^ 31)
    {written : Bytes} (hencode : rawEncode P W L schema fuel msgD [] tab = .ok written) :
    SizesAgree P W L schema fuel msgD tab written ↔ MessagesRepeated P L schema fuel msgD tab := by
  have hraw := rawByteSize_of_exact hsize hlt
  have hiff := (exactSize_le hW hsized henum hsize hlt hencode).2
  constructor
  · intro h
    exact hiff.mp (Except.ok.inj (hraw.symm.trans h.size_eq))
  · intro hrepeated
    have hlen := hiff.mpr hrepeated
    rw [hlen] at hraw hlt
    refine ⟨hraw, ?_, ?_⟩
    · intro findMessage heap name s hname hfind
      exact encode_of_size heap hname hfind hraw hencode (by omega)
    · intro fuel' fd value messageType hvisits htype
      obtain ⟨n', hsize', hle'⟩ := visited_message hvisits htype hsize
      obtain ⟨payload, hencode'⟩ := visited_payload hvisits htype hencode
      have hlt' : n' < 2 ^ 31 := by omega
      have heq := (exactSize_le hW hsized (henum.visited hvisits htype) hsize' hlt' hencode').2.mpr
        (hrepeated.visited hvisits htype)
      exact ⟨payload, heq ▸ rawByteSize_of_exact hsize' hlt', hencode'⟩

/-- In a schema without singular message fields none is met. -/
theorem messagesRepeated_of_schema
    (h : ∀ msgD, ∀ fd ∈ (schema msgD).field, fd.type.messageType?.isSome → fd.isRepeated = true)
    (fuel : ℕ) (msgD : M) (tab : L.Value) : MessagesRepeated P L schema fuel msgD tab := by
  intro fuel' part hvisits
  obtain ⟨msgD', hmem⟩ := hvisits.mem_field
  exact h msgD' part.1 hmem

/-- `{phone = {{type = "HOME"}}}` -/
theorem sizesAgree_person :
    let phone : LuaTree := .table [(.string [116, 121, 112, 101], .string [72, 79, 77, 69])]
    SizesAgree (.plain .win32) .reference LuaTree.state AddressBook.schema 2 .person
      (.table [(.string [112, 104, 111, 110, 101], .table [(.integer 1, phone)])])
      [34, 2, 16, 1] := by
  intro phone
  have hphone : TableParts (.plain .win32) LuaTree.state AddressBook.schema .phoneNumber phone _ :=
    .entries rfl (.cons (.singular rfl rfl rfl) .nil)
  have hperson : TableParts (.plain .win32) LuaTree.state AddressBook.schema .person
      (.table [(.string [112, 104, 111, 110, 101], .table [(.integer 1, phone)])]) _ :=
    .entries rfl (.cons (.repeated rfl rfl rfl rfl) .nil)
  have hsized : ∀ msgD, ∀ fd ∈ (AddressBook.schema msgD).field, Sized fd.type := by
    rintro (_ | _ | _) <;>
      simp [AddressBook.schema, AddressBook.phoneNumber, AddressBook.person,
        AddressBook.addressBook, Sized]
  have hrepeated : ∀ msgD, ∀ fd ∈ (AddressBook.schema msgD).field,
      fd.type.messageType?.isSome → fd.isRepeated = true := by
    rintro (_ | _ | _) <;>
      simp [AddressBook.schema, AddressBook.phoneNumber, AddressBook.person,
        AddressBook.addressBook, FieldType.messageType?]
  have henum : EnumsDeclared (.plain .win32) LuaTree.state AddressBook.schema 2 .person
      (.table [(.string [112, 104, 111, 110, 101], .table [(.integer 1, phone)])]) := by
    refine (everywhere_succ hperson).mpr (List.forall_mem_singleton.mpr ⟨?_, ?_⟩)
    · intro enumType name htype
      cases htype
    · rintro _ ⟨⟩
      refine (everywhere_succ hphone).mpr (List.forall_mem_singleton.mpr ⟨?_, ?_⟩)
      · rintro _ _ ⟨⟩ ⟨⟩
        decide
      · rintro _ ⟨⟩
  exact (sizesAgree_iff WireFormatLite.reference_documented hsized henum (n := 4)
    (by decide +kernel) (by decide) (by decide +kernel)).mpr
      (messagesRepeated_of_schema hrepeated _ _ _)

/-- `{next = {next = {value = 1}}}`: four bytes are reserved and six written, and the
first prefix says 3 in front of a payload of four bytes. -/
theorem sizesDisagree_next :
    let tab : LuaTree := .table [(.string [110, 101, 120, 116],
      .table [(.string [110, 101, 120, 116],
        .table [(.string [118, 97, 108, 117, 101], .number (.ofInt binary64 1))])])]
    EnumsDeclared (.plain .x64) LuaTree.state Chain.schema 3 () tab ∧
      rawByteSizeBy (.plain .x64) .reference LuaTree.state Chain.schema id 3 () tab = .ok 4 ∧
      rawEncode (.plain .x64) .reference LuaTree.state Chain.schema 3 () [] tab =
        .ok [10, 3, 10, 2, 16, 1] ∧
      encode (.plain .x64) .reference LuaTree.state Chain.schema (fun _ => some ()) (fun _ => 0) 3
        (.string []) tab = .error .overrun ∧
      ¬ SizesAgree (.plain .x64) .reference LuaTree.state Chain.schema 3 () tab
        [10, 3, 10, 2, 16, 1] := by
  refine ⟨?_, by decide +kernel, by decide +kernel, by decide +kernel, ?_⟩
  · intro fuel part hvisits enumType name htype
    obtain ⟨msgD, hmem⟩ := hvisits.mem_field
    simp only [Chain.schema, Chain.chain, List.mem_cons, List.not_mem_nil, or_false] at hmem
    rcases hmem with hmem | hmem <;> rw [hmem] at htype <;> cases htype
  · intro h
    exact absurd (Except.ok.inj h.size_eq) (by decide)

end Luapb

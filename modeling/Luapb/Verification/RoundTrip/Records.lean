import Luapb.Verification.Decoder.Contents
import Luapb.Verification.RoundTrip.Correctness

/-! # The records of an encoded table

`Encode` writes a conforming table as complete records of declared fields. Readers other than
`Decode` read them as well. -/

namespace Luapb

open Wire PBStream

variable {M : Type} {P : Platform} {W : WireFormatLite} {L : LuaState} {schema : Schema M}

/-- A value whose strings are valid at any depth. A number that its enum does not declare is
none. -/
inductive FieldValue.Valid (utf8 : Bytes → Bool) : FieldValue M → Prop
  | scalar {x} (h : ∀ s, x = .string s → utf8 s = true) : Valid utf8 (.scalar x)
  | message {fields : Fields M} (h : ∀ f ∈ fields, Valid utf8 f.2) : Valid utf8 (.message fields)

/-! ## Parts -/

/-- A scalar that gets through is carried by its wire encoding. -/
theorem Scalar.HasType.carries {x : Scalar} {type : FieldType M} (hx : x.HasType type)
    (ht : x.Transmissible P type) :
    Carries type x.payload (some x) := by
  cases hx with
  | @float x _ =>
      have hread := readFixed32_fixed32 (show x.toBits < 2 ^ 32 from x.toBits_lt) []
      rw [List.append_nil] at hread
      have hcarries : Carries (.float : FieldType M) _ _ := .float hread
      rwa [Ieee754.Binary.ofBits_toBits] at hcarries
  | int32 v =>
      have hcarries : Carries (.int32 : FieldType M) _ _ :=
        .int32 (decode_encode_nil (signExtended_lt v))
      rwa [ofNat_signExtended] at hcarries
  | uint32 v =>
      have hcarries : Carries (.uint32 : FieldType M) _ _ :=
        .uint32 (decode_encode_nil (v.isLt.trans (by decide)))
      rwa [BitVec.ofNat_toNat, BitVec.setWidth_eq] at hcarries
  | bool b => cases b <;> exact .bool (decode_encode_nil (by decide))
  | string hlen => exact .string (decode_encode_nil (hlen.trans (by decide))) hlen
  | @enum enumType value h =>
      have hcarries : Carries (.enum enumType : FieldType M) _ _ :=
        .enum (decode_encode_nil (signExtended_lt value.number))
      rwa [ofNat_signExtended, show enumType.findValueByNumber value.number = some value from ht,
        Option.map_some] at hcarries
  | int64 | uint64 => exact ht.elim

variable (P L) in
/-- An unsigned value gets through, and a string is valid. -/
def PartValid (utf8 : Bytes → Bool) (part : FieldDescriptor M × L.Value) : Prop :=
  FitsUnsigned P part.1.type (L.view part.2) ∧
    (part.1.type = .string → ∀ s, L.view part.2 = .string s → utf8 s = true)

section

variable {utf8 : Bytes → Bool} {msgD : M} {fd : FieldDescriptor M} {value : L.Value}
  {budget fuel : ℕ} {bytes : Bytes}
  {nestedSize : M → L.Value → Except Fault ℤ} {nestedBytes : M → L.Value → Except Fault Bytes}

theorem Scalar.Conforms.length_lt {x : Scalar} (hx : x.Conforms fd.type)
    (hrep : x.Represents (L.view value)) {nested : M → L.Value → Except Fault ℤ} {t : ℤ × ℤ}
    (hterms : PartTerms P W L id nested (fd, value) t) (hlt : t.1 + t.2 < 2 ^ 31) :
    ∀ s, x = .string s → s.length < 2 ^ 31 := by
  rintro s rfl
  have hnone := hx.messageType_eq_none
  cases hterms with
  | repeated htype | singular htype =>
      rw [hnone] at htype
      cases htype
  | @scalar _ _ size _ hsize =>
      have htag : 0 ≤ tagSize W fd.number := Int.natCast_nonneg _
      generalize htype : fd.type = type at hx
      cases hx with
      | string hs =>
          generalize L.view value = v at hrep hsize
          cases hrep
          have hle := length_le_fieldSize htype hs hsize
          simp only at hlt
          omega

/-- A scalar is written as a record of its own. -/
theorem Scalar.Conforms.contents (hW : W.Documented) (hmem : fd ∈ (schema msgD).field)
    {x : Scalar} (hx : x.Conforms fd.type) (hrep : x.Represents (L.view value))
    (hnodup : ∀ enumType, fd.type = .enum enumType → (enumType.value.map (·.number)).Nodup)
    (hlen : ∀ s, x = .string s → s.length < 2 ^ 31) (hvalid : PartValid P L utf8 (fd, value))
    (hbytes : PartBytes P W L nestedSize nestedBytes (fd, value) bytes) :
    ∃ v : FieldValue M, Contents schema budget msgD bytes [(fd, v)] ∧ v.Valid utf8 := by
  have hfits : ∀ n, x = .uint32 n → P.build = .x64 ∨ n.toNat < 2 ^ 31 := by
    rintro n rfl
    refine hvalid.1 ?_ n hrep
    generalize fd.type = type at hx
    cases hx
    rfl
  have hty := hx.hasType hlen
  have ht := hx.transmissible hnodup hfits
  have hwrite := hbytes.scalar_eq hx.messageType_eq_none
  rw [writeValue_represents hW hty hrep ht] at hwrite
  obtain rfl := Except.ok.inj hwrite
  have hrecord : Contents schema budget msgD _ _ :=
    .scalar hmem (decode_tagBytes fd _) (hty.carries ht) .nil
  rw [List.append_nil] at hrecord
  refine ⟨_, hrecord, .scalar ?_⟩
  rintro s rfl
  generalize hview : L.view value = v at hrep
  cases hrep
  refine hvalid.2 ?_ s hview
  generalize fd.type = type at hx
  cases hx
  rfl

/-- A message is written with the length of its records before them. -/
theorem contents_message (hW : W.Documented) (hmem : fd ∈ (schema msgD).field) {messageType : M}
    (htype : fd.type = .message messageType) {payload : Bytes} (hlt : payload.length < 2 ^ 31)
    (hsize : nestedSize messageType value = .ok payload.length)
    (hwrite : nestedBytes messageType value = .ok payload) {fields : Fields M}
    (hfields : Contents schema budget messageType payload fields)
    (hvalid : ∀ f ∈ fields, f.2.Valid utf8)
    (hbytes : PartBytes P W L nestedSize nestedBytes (fd, value) bytes) :
    ∃ v : FieldValue M, Contents schema (budget + 1) msgD bytes [(fd, v)] ∧ v.Valid utf8 := by
  have hmessage : fd.type.messageType? = some messageType := by rw [htype]; rfl
  obtain ⟨size, payload', hsize', hwrite', rfl⟩ := hbytes.message_eq hmessage
  obtain rfl := Except.ok.inj (hsize.symm.trans hsize')
  obtain rfl := Except.ok.inj (hwrite.symm.trans hwrite')
  have hrecord : Contents schema (budget + 1) msgD _ _ :=
    .message hmem htype (decode_tagBytes fd _) (decode_encode_nil (by omega)) hlt hfields .nil
  rw [List.append_nil, ← List.append_assoc] at hrecord
  exact ⟨_, writeMessageHead_length hW fd.number hlt ▸ hrecord, .message hvalid⟩

end

/-! ## Tables -/

theorem contents_flatten {utf8 : Bytes → Bool} {budget : ℕ} {msgD : M}
    {parts : List (FieldDescriptor M × L.Value)} {written : List Bytes}
    (h : List.Forall₂ (fun part bytes => ∃ v : FieldValue M,
      Contents schema budget msgD bytes [(part.1, v)] ∧ v.Valid utf8) parts written) :
    ∃ fields, Contents schema budget msgD written.flatten fields ∧
      ∀ f ∈ fields, f.2.Valid utf8 := by
  induction h with
  | nil => exact ⟨[], .nil, fun _ hf => nomatch hf⟩
  | cons hpart _ ih =>
      obtain ⟨v, hrecord, hv⟩ := hpart
      obtain ⟨fields, hfields, hvalid⟩ := ih
      exact ⟨_, hrecord.append hfields, List.forall_mem_cons.mpr ⟨hv, hvalid⟩⟩

/-- A conforming table is written as the records of a message. -/
theorem Conforming.contents (hW : W.Documented) (hschema : SchemaSupported schema)
    {utf8 : Bytes → Bool} {depth fuel : ℕ} {msgD : M} {tab : L.Value}
    (h : Conforming L schema depth msgD tab) (hfuel : depth < fuel) {n : ℤ}
    (hsize : rawByteSizeBy P W L schema id fuel msgD tab = .ok n) (hlt : n < 2 ^ 31)
    (hvalid : Everywhere P L schema (PartValid P L utf8) fuel msgD tab) {payload : Bytes}
    (hwrote : rawEncode P W L schema fuel msgD [] tab = .ok payload) :
    ∃ fields, Contents schema depth msgD payload fields ∧ ∀ f ∈ fields, f.2.Valid utf8 := by
  induction depth using Nat.strong_induction_on generalizing fuel msgD tab n payload with
  | _ depth ih =>
      obtain ⟨fuel, rfl⟩ := Nat.exists_eq_add_one.mpr (Nat.zero_lt_of_lt hfuel)
      obtain ⟨nested, hentries, hdeeper⟩ := h.entries
      obtain ⟨written, ⟨parts, hparts, hwritten⟩, rfl⟩ := rawEncode_eq_ok.mp hwrote
      refine contents_flatten (Fallible.forall₂_imp hwritten ?_)
      rintro ⟨fd, value⟩ hpart bytes - hbytes
      have hmem := hparts.mem_field hpart
      obtain ⟨t, hterms, hle⟩ := exists_terms_of_mem hparts hpart hsize
      obtain ⟨hpartValid, hdeep⟩ := (everywhere_succ hparts).mp hvalid _ hpart
      cases hentries.part hparts hpart with
      | @scalar x hx hrep =>
          have hlen := hx.length_lt hrep hterms (by omega)
          exact hx.contents hW hmem hrep (hschema.numbers_nodup _ _ hmem) hlen hpartValid hbytes
      | @message messageType htype hvalue =>
          have hmessage : fd.type.messageType? = some messageType := by rw [htype]; rfl
          obtain ⟨d, rfl, hconforming⟩ := hdeeper _ _ hvalue
          obtain ⟨m, hm, hmle⟩ := hterms.message_le hmessage
          obtain ⟨body, _, hlen, htrips⟩ :=
            hconforming.trips hW hschema (by omega : d < fuel) hm (by omega)
          obtain ⟨fields, hfields, hfieldsValid⟩ := ih d (by omega) hconforming (by omega) hm
            (by omega) (hdeep _ hmessage) htrips.wrote
          have hraw := rawByteSize_of_exact hm (by omega)
          rw [← hlen] at hraw
          exact contents_message hW hmem htype (by omega) hraw htrips.wrote hfields hfieldsValid
            hbytes

end Luapb

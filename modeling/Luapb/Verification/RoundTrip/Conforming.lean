import Luapb.Verification.Encoder.Agreement
import Luapb.Verification.RoundTrip.Equality

/-! # Conforming tables

The tables a schema describes, with messages nested no deeper than a given depth. Their
size is always computed. -/

namespace Luapb

open Ieee754 PBStream

/-- Scalar fields of the supported types, no message field that is singular, and no two
names of an enum with one number. -/
structure SchemaSupported {M : Type} (schema : Schema M) : Prop where
  sized : ∀ msgD, ∀ fd ∈ (schema msgD).field, Sized fd.type
  messages_repeated : ∀ msgD, ∀ fd ∈ (schema msgD).field,
    fd.type.messageType?.isSome → fd.isRepeated = true
  numbers_nodup : ∀ msgD, ∀ fd ∈ (schema msgD).field, ∀ enumType, fd.type = .enum enumType →
    (enumType.value.map (·.number)).Nodup

/-- The scalars a field of a type may hold. -/
inductive Scalar.Conforms {M : Type} : Scalar → FieldType M → Prop
  | float {x} (h : ¬ x.IsNaN) : Conforms (.float x) .float
  | int32 (v) : Conforms (.int32 v) .int32
  | uint32 (v) : Conforms (.uint32 v) .uint32
  | bool (b) : Conforms (.bool b) .bool
  | string {s} (h : (0 : UInt8) ∉ s) : Conforms (.string s) .string
  | enum {enumType value} (h : enumType.findValueByName value.name = some value) :
      Conforms (.enum value) (.enum enumType)

section

variable {M : Type} (L : LuaState) (schema : Schema M)

/-- A value for a field, where `nested` says what conforms to a message type. -/
inductive ConformingValue (nested : M → L.Value → Prop) (fd : FieldDescriptor M)
    (value : L.Value) : Prop
  | scalar {x : Scalar} (htype : x.Conforms fd.type) (hrep : x.Represents (L.view value))
  | message {messageType} (htype : fd.type = .message messageType)
      (hnested : nested messageType value)

/-- The entry for a field, under its name. -/
inductive ConformingEntry (nested : M → L.Value → Prop) (msgD : M) : LuaKey × L.Value → Prop
  | singular {fd value} (hmem : fd ∈ (schema msgD).field) (hone : fd.isRepeated = false)
      (hvalue : ConformingValue L nested fd value) :
      ConformingEntry nested msgD (.string fd.name, value)
  | repeated {fd list values} (hmem : fd ∈ (schema msgD).field) (hmany : fd.isRepeated = true)
      (hlist : L.view list = .table (sequence values)) (hne : values ≠ [])
      (hvalues : ∀ v ∈ values, ConformingValue L nested fd v) :
      ConformingEntry nested msgD (.string fd.name, list)

/-- The entries may come in any order. -/
inductive ConformingEntries (nested : M → L.Value → Prop) (msgD : M) (tab : L.Value) : Prop
  | entries {entries} (htab : L.view tab = .table entries) (hkeys : (entries.map (·.1)).Nodup)
      (hentries : ∀ e ∈ entries, ConformingEntry L schema nested msgD e)

/-- A table for a message type, in which messages are nested no deeper than `depth`. -/
def Conforming : ℕ → M → L.Value → Prop
  | 0 => ConformingEntries L schema fun _ _ => False
  | depth + 1 => ConformingEntries L schema (Conforming depth)

end

variable {M : Type} {P : Platform} {W : WireFormatLite} {L : LuaState} {schema : Schema M}
  {nested : M → L.Value → Prop} {msgD : M}

theorem Scalar.Conforms.messageType_eq_none {x : Scalar} {type : FieldType M}
    (h : x.Conforms type) : type.messageType? = none := by
  cases h <;> rfl

/-- What conforms to a message type is one level less deep. -/
theorem Conforming.entries {depth : ℕ} {tab : L.Value} (h : Conforming L schema depth msgD tab) :
    ∃ nested, ConformingEntries L schema nested msgD tab ∧ ∀ messageType value,
      nested messageType value → ∃ d, depth = d + 1 ∧ Conforming L schema d messageType value := by
  cases depth with
  | zero => exact ⟨_, h, fun _ _ hnested => hnested.elim⟩
  | succ depth => exact ⟨_, h, fun _ _ hnested => ⟨depth, rfl, hnested⟩⟩

/-! ## Parts of conforming tables -/

theorem ConformingEntry.exists_parts {e : LuaKey × L.Value}
    (h : ConformingEntry L schema nested msgD e) : ∃ parts, EntryParts P L schema msgD e parts := by
  cases h with
  | singular hmem hone hvalue => exact ⟨_, entryParts_singular hmem hone⟩
  | repeated hmem hmany hlist hne hvalues => exact ⟨_, entryParts_repeated hmem hmany hlist⟩

theorem ConformingEntry.part {e : LuaKey × L.Value} (h : ConformingEntry L schema nested msgD e)
    {parts : List (FieldDescriptor M × L.Value)} (hparts : EntryParts P L schema msgD e parts)
    {part : FieldDescriptor M × L.Value} (hpart : part ∈ parts) :
    ConformingValue L nested part.1 part.2 := by
  cases h with
  | singular hmem hone hvalue =>
      obtain rfl := hparts.deterministic (entryParts_singular hmem hone)
      obtain rfl := List.mem_singleton.mp hpart
      exact hvalue
  | repeated hmem hmany hlist hne hvalues =>
      obtain rfl := hparts.deterministic (entryParts_repeated hmem hmany hlist)
      obtain ⟨v, hv, rfl⟩ := List.mem_map.mp hpart
      exact hvalues v hv

theorem ConformingEntries.part {tab : L.Value} (h : ConformingEntries L schema nested msgD tab)
    {parts : List (FieldDescriptor M × L.Value)} (hparts : TableParts P L schema msgD tab parts)
    {part : FieldDescriptor M × L.Value} (hpart : part ∈ parts) :
    ConformingValue L nested part.1 part.2 := by
  obtain ⟨htab, hkeys, hentries⟩ := h
  obtain ⟨htab', hpartss⟩ := hparts
  obtain rfl := LuaView.table.inj (htab.symm.trans htab')
  obtain ⟨ps, hps, hpart⟩ := List.mem_flatten.mp hpart
  obtain ⟨e, he, heps⟩ := Fallible.exists_of_mem_right hpartss hps
  exact (hentries e he).part heps hpart

theorem ConformingEntries.exists_parts {tab : L.Value}
    (h : ConformingEntries L schema nested msgD tab) :
    ∃ parts, TableParts P L schema msgD tab parts := by
  obtain ⟨htab, hkeys, hentries⟩ := h
  obtain ⟨partss, hpartss⟩ := Fallible.forall₂_of_exists fun e he => (hentries e he).exists_parts
  exact ⟨_, .entries htab hpartss⟩

/-- What holds of conforming values holds of every part met in a conforming table. -/
theorem Conforming.everywhere {Q : FieldDescriptor M × L.Value → Prop}
    (hQ : ∀ nested fd value, ConformingValue L nested fd value → Q (fd, value)) {depth : ℕ}
    {tab : L.Value} (h : Conforming L schema depth msgD tab) (fuel : ℕ) :
    Everywhere P L schema Q fuel msgD tab := by
  have hinvariant : ∃ d, Conforming L schema d msgD tab := ⟨depth, h⟩
  refine everywhere_of_invariant (R := fun msgD tab => ∃ d, Conforming L schema d msgD tab) ?_
    hinvariant fuel
  rintro msgD tab parts ⟨fd, value⟩ ⟨d, hconforming⟩ hparts hpart
  obtain ⟨nested, hentries, hdeeper⟩ := hconforming.entries
  have hvalue := hentries.part hparts hpart
  refine ⟨hQ _ _ _ hvalue, ?_⟩
  intro messageType htype
  cases hvalue with
  | scalar hscalar =>
      rw [hscalar.messageType_eq_none] at htype
      cases htype
  | message htype' hnested =>
      simp only at htype'
      rw [htype'] at htype
      obtain ⟨d', -, hconforming⟩ := hdeeper _ _ hnested
      exact ⟨d', Option.some.inj htype ▸ hconforming⟩

/-! ## Sizes -/

/-- The size of a conforming scalar is computed. -/
theorem fieldSize_conforms {fd : FieldDescriptor M} {v : LuaView L.Value} {x : Scalar}
    (hx : x.Conforms fd.type) (hrep : x.Represents v) :
    ∃ size, fieldSizeBy P W id fd v = .ok size := by
  generalize htype : fd.type = type at hx
  cases hx with
  | enum hname =>
      cases hrep
      simp only [fieldSizeBy, htype, Stack.getString, Stack.checklstring, Fallible.ok_bind, hname]
      exact ⟨_, rfl⟩
  | _ =>
      cases hrep
      simp only [fieldSizeBy, htype]
      exact ⟨_, rfl⟩

theorem ConformingValue.exists_terms {fuel : ℕ} {fd : FieldDescriptor M} {value : L.Value}
    (h : ConformingValue L nested fd value)
    (hnested : ∀ messageType v, nested messageType v →
      ∃ n, rawByteSizeBy P W L schema id fuel messageType v = .ok n) :
    ∃ t, PartTerms P W L id (rawByteSizeBy P W L schema id fuel) (fd, value) t := by
  cases h with
  | scalar hx hrep =>
      obtain ⟨size, hsize⟩ := fieldSize_conforms hx hrep
      exact ⟨_, .scalar hx.messageType_eq_none hsize⟩
  | @message messageType htype h =>
      have hmessage : fd.type.messageType? = some messageType := by rw [htype]; rfl
      obtain ⟨n, hn⟩ := hnested _ _ h
      cases hrep : fd.isRepeated with
      | true => exact ⟨_, .repeated hmessage hrep hn⟩
      | false => exact ⟨_, .singular hmessage hrep hn⟩

/-- The size of a conforming table is computed if there is fuel for its depth. -/
theorem Conforming.exists_size {depth fuel : ℕ} {tab : L.Value}
    (h : Conforming L schema depth msgD tab) (hfuel : depth < fuel) :
    ∃ n, rawByteSizeBy P W L schema id fuel msgD tab = .ok n := by
  induction depth using Nat.strong_induction_on generalizing fuel msgD tab with
  | _ depth ih =>
      obtain ⟨fuel, rfl⟩ := Nat.exists_eq_add_one.mpr (Nat.zero_lt_of_lt hfuel)
      obtain ⟨nested, hentries, hdeeper⟩ := h.entries
      obtain ⟨parts, hparts⟩ := hentries.exists_parts
      have hterms : ∀ part ∈ parts,
          ∃ t, PartTerms P W L id (rawByteSizeBy P W L schema id fuel) part t := by
        intro part hpart
        apply (hentries.part hparts hpart).exists_terms
        intro messageType v hnested
        obtain ⟨d, rfl, hconforming⟩ := hdeeper _ _ hnested
        exact ih d (by omega) hconforming (by omega)
      obtain ⟨terms, hterms⟩ := Fallible.forall₂_of_exists hterms
      exact ⟨_, rawByteSizeBy_eq_ok.mpr ⟨terms, ⟨parts, hparts, hterms⟩, rfl⟩⟩

end Luapb

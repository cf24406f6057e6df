import Luapb.Model.Encoder
import Luapb.Verification.Table

/-! # What the two passes walk over

Both passes turn a table into the same sequence of parts, each a field and one value
for it. `RawByteSize` adds two terms for a part, `RawEncode` appends its bytes. -/

namespace Luapb

open PBStream

variable {M : Type} (P : Platform) (W : WireFormatLite) (L : LuaState) (schema : Schema M)

/-- The parts of one entry of a table. -/
inductive EntryParts (msgD : M) : LuaKey × L.Value → List (FieldDescriptor M × L.Value) → Prop
  | undeclared {entry name} (hkey : keyName P entry.1 = .ok name)
      (hfind : (schema msgD).findFieldByName name = none) : EntryParts msgD entry []
  | singular {entry name fd} (hkey : keyName P entry.1 = .ok name)
      (hfind : (schema msgD).findFieldByName name = some fd) (hone : fd.isRepeated = false) :
      EntryParts msgD entry [(fd, entry.2)]
  | repeated {entry name fd list} (hkey : keyName P entry.1 = .ok name)
      (hfind : (schema msgD).findFieldByName name = some fd) (hmany : fd.isRepeated = true)
      (hlist : L.view entry.2 = .table list) :
      EntryParts msgD entry (list.map fun e => (fd, e.2))

/-- The parts of a whole table, in the order `lua_next` visits its entries. -/
inductive TableParts (msgD : M) : L.Value → List (FieldDescriptor M × L.Value) → Prop
  | entries {tab entries partss} (htab : L.view tab = .table entries)
      (hentries : List.Forall₂ (EntryParts P L schema msgD) entries partss) :
      TableParts msgD tab partss.flatten

/-- What `RawByteSize` adds for a part: its tag, and the rest. A singular message is
added without its length prefix. -/
inductive PartTerms (cast : ℤ → ℤ) (nested : M → L.Value → Except Fault ℤ) :
    FieldDescriptor M × L.Value → ℤ × ℤ → Prop
  | scalar {fd value size} (htype : fd.type.messageType? = none)
      (hsize : fieldSizeBy P W cast fd (L.view value) = .ok size) :
      PartTerms cast nested (fd, value) (tagSize W fd.number, size)
  | repeated {fd value messageType size} (htype : fd.type.messageType? = some messageType)
      (hmany : fd.isRepeated = true) (hsize : nested messageType value = .ok size) :
      PartTerms cast nested (fd, value) (tagSize W fd.number,
        cast (W.varintSize32 (BitVec.ofInt 32 size) + size))
  | singular {fd value messageType size} (htype : fd.type.messageType? = some messageType)
      (hone : fd.isRepeated = false) (hsize : nested messageType value = .ok size) :
      PartTerms cast nested (fd, value) (tagSize W fd.number, size)

/-- The bytes `RawEncode` appends for a part. -/
inductive PartBytes (nestedSize : M → L.Value → Except Fault ℤ)
    (nested : M → L.Value → Except Fault Bytes) : FieldDescriptor M × L.Value → Bytes → Prop
  | scalar {fd value bytes} (htype : fd.type.messageType? = none)
      (hwrite : writeValue P W fd (L.view value) = .ok bytes) :
      PartBytes nestedSize nested (fd, value) bytes
  | message {fd value messageType size payload} (htype : fd.type.messageType? = some messageType)
      (hsize : nestedSize messageType value = .ok size)
      (hwrite : nested messageType value = .ok payload) :
      PartBytes nestedSize nested (fd, value) (writeMessageHead W fd.number size ++ payload)

/-- The narrowing of both additions. -/
def addTerms (cast : ℤ → ℤ) (size : ℤ) (terms : ℤ × ℤ) : ℤ := cast (cast (size + terms.1) + terms.2)

variable {P W L schema}

theorem requireTable_eq_ok {V : Type} {fmt : String} {name : Bytes} {v : LuaView V}
    {list : List (LuaKey × V)} :
    requireTable fmt name v = .ok list ↔ v = .table list := by
  cases v <;> simp [requireTable, LuaView.isTable, LuaView.luaNext, eq_comm]

/-! ## One part -/

variable (P W L) in
/-- The loop bodies of `RawByteSize`. -/
def partSize (cast : ℤ → ℤ) (nested : M → L.Value → Except Fault ℤ) (size : ℤ)
    (part : FieldDescriptor M × L.Value) : Except Fault ℤ :=
  match part.1.type.messageType? with
  | some messageType => do
      let structSize ← nested messageType part.2
      pure (addTerms cast size (tagSize W part.1.number,
        if part.1.isRepeated then cast (W.varintSize32 (BitVec.ofInt 32 structSize) + structSize)
        else structSize))
  | none => do
      let valueSize ← fieldSizeBy P W cast part.1 (L.view part.2)
      pure (addTerms cast size (tagSize W part.1.number, valueSize))

variable (P W L) in
/-- The loop bodies of `RawEncode`. -/
def partEncode (nestedSize : M → L.Value → Except Fault ℤ)
    (nested : M → Bytes → L.Value → Except Fault Bytes) (stream : Bytes)
    (part : FieldDescriptor M × L.Value) : Except Fault Bytes :=
  match part.1.type.messageType? with
  | some messageType => do
      let size ← nestedSize messageType part.2
      nested messageType (stream ++ writeMessageHead W part.1.number size) part.2
  | none => do
      let bytes ← writeValue P W part.1 (L.view part.2)
      pure (stream ++ bytes)

theorem partSize_eq_ok {cast : ℤ → ℤ} {nested : M → L.Value → Except Fault ℤ} (size : ℤ)
    (part : FieldDescriptor M × L.Value) (c : ℤ) :
    partSize P W L cast nested size part = .ok c ↔
      ∃ terms, PartTerms P W L cast nested part terms ∧ c = addTerms cast size terms := by
  obtain ⟨fd, value⟩ := part
  rw [partSize]
  constructor
  · intro h
    split at h
    · rename_i messageType htype
      obtain ⟨structSize, hsize, h⟩ := Fallible.bind_eq_ok.mp h
      cases hrep : fd.isRepeated with
      | true =>
          simp only [hrep, if_true] at h
          exact ⟨_, .repeated htype hrep hsize, Fallible.pure_eq_ok.mp h⟩
      | false =>
          simp only [hrep, Bool.false_eq_true, if_false] at h
          exact ⟨_, .singular htype hrep hsize, Fallible.pure_eq_ok.mp h⟩
    · rename_i htype
      obtain ⟨valueSize, hsize, h⟩ := Fallible.bind_eq_ok.mp h
      exact ⟨_, .scalar htype hsize, Fallible.pure_eq_ok.mp h⟩
  · rintro ⟨terms, hterms, rfl⟩
    cases hterms with
    | scalar htype hsize =>
        simp only [htype]
        exact Fallible.bind_eq_ok.mpr ⟨_, hsize, rfl⟩
    | repeated htype hmany hsize =>
        simp only [htype, hmany]
        exact Fallible.bind_eq_ok.mpr ⟨_, hsize, rfl⟩
    | singular htype hone hsize =>
        simp only [htype, hone]
        exact Fallible.bind_eq_ok.mpr ⟨_, hsize, rfl⟩

theorem PartBytes.scalar_eq {nestedSize : M → L.Value → Except Fault ℤ}
    {nested : M → L.Value → Except Fault Bytes} {part : FieldDescriptor M × L.Value} {bytes : Bytes}
    (h : PartBytes P W L nestedSize nested part bytes) (htype : part.1.type.messageType? = none) :
    writeValue P W part.1 (L.view part.2) = .ok bytes := by
  cases h with
  | scalar _ hwrite => exact hwrite
  | message htype' =>
      rw [htype] at htype'
      cases htype'

theorem PartBytes.message_eq {nestedSize : M → L.Value → Except Fault ℤ}
    {nested : M → L.Value → Except Fault Bytes} {part : FieldDescriptor M × L.Value} {bytes : Bytes}
    (h : PartBytes P W L nestedSize nested part bytes) {messageType : M}
    (htype : part.1.type.messageType? = some messageType) :
    ∃ size payload, nestedSize messageType part.2 = .ok size ∧
      nested messageType part.2 = .ok payload ∧
      bytes = writeMessageHead W part.1.number size ++ payload := by
  cases h with
  | scalar htype' =>
      rw [htype] at htype'
      cases htype'
  | message htype' hsize hwrite =>
      obtain rfl := Option.some.inj (htype.symm.trans htype')
      exact ⟨_, _, hsize, hwrite, rfl⟩

/-- Nested calls append to the stream they are given. -/
def Appends (nested : M → Bytes → L.Value → Except Fault Bytes) : Prop :=
  ∀ msgD stream value out, nested msgD stream value = .ok out ↔
    ∃ payload, nested msgD [] value = .ok payload ∧ out = stream ++ payload

theorem partEncode_eq_ok {nestedSize : M → L.Value → Except Fault ℤ}
    {nested : M → Bytes → L.Value → Except Fault Bytes} (happends : Appends nested)
    (stream : Bytes) (part : FieldDescriptor M × L.Value) (out : Bytes) :
    partEncode P W L nestedSize nested stream part = .ok out ↔
      ∃ bytes, PartBytes P W L nestedSize (fun msgD => nested msgD []) part bytes ∧
        out = stream ++ bytes := by
  obtain ⟨fd, value⟩ := part
  rw [partEncode]
  constructor
  · intro h
    split at h
    · rename_i messageType htype
      obtain ⟨size, hsize, h⟩ := Fallible.bind_eq_ok.mp h
      obtain ⟨payload, hpayload, rfl⟩ := (happends _ _ _ _).mp h
      exact ⟨_, .message htype hsize hpayload, List.append_assoc _ _ _⟩
    · rename_i htype
      obtain ⟨bytes, hwrite, h⟩ := Fallible.bind_eq_ok.mp h
      exact ⟨bytes, .scalar htype hwrite, Fallible.pure_eq_ok.mp h⟩
  · rintro ⟨bytes, hbytes, rfl⟩
    cases hbytes with
    | scalar htype hwrite =>
        simp only [htype]
        exact Fallible.bind_eq_ok.mpr ⟨_, hwrite, rfl⟩
    | message htype hsize hwrite =>
        simp only [htype]
        refine Fallible.bind_eq_ok.mpr ⟨_, hsize, (happends _ _ _ _).mpr ⟨_, hwrite, ?_⟩⟩
        rw [List.append_assoc]

/-! ## One entry -/

variable (P L schema) in
/-- What both passes do with an entry: one step for the value of a singular field, and one
for each value in the list of a repeated field. -/
def entryPass {β : Type} (fmt : String) (each : β → FieldDescriptor M × L.Value → Except Fault β)
    (msgD : M) (b : β) (entry : LuaKey × L.Value) : Except Fault β := do
  let name ← keyName P entry.1
  match (schema msgD).findFieldByName name with
  | none => pure b
  | some fd =>
      if fd.isRepeated then do
        let list ← requireTable fmt name (L.view entry.2)
        list.foldlM (fun b e => each b (fd, e.2)) b
      else each b (fd, entry.2)

theorem entrySize_eq_entryPass (cast : ℤ → ℤ) (nested : M → L.Value → Except Fault ℤ) (msgD : M)
    (size : ℤ) (entry : LuaKey × L.Value) :
    entrySize P W L schema cast nested msgD size entry =
      entryPass P L schema "repeated '%s' require table" (partSize P W L cast nested) msgD size
        entry := by
  apply bind_congr
  intro name
  cases (schema msgD).findFieldByName name with
  | none => rfl
  | some fd =>
      cases htype : fd.type.messageType? <;> cases hmany : fd.isRepeated <;>
        simp [partSize, addTerms, htype, hmany]

theorem entryEncode_eq_entryPass (nestedSize : M → L.Value → Except Fault ℤ)
    (nested : M → Bytes → L.Value → Except Fault Bytes) (msgD : M) (stream : Bytes)
    (entry : LuaKey × L.Value) :
    entryEncode P W L schema nestedSize nested msgD stream entry =
      entryPass P L schema "repeated value '%s' require table" (partEncode P W L nestedSize nested)
        msgD stream entry := by
  apply bind_congr
  intro name
  cases (schema msgD).findFieldByName name with
  | none => rfl
  | some fd =>
      cases htype : fd.type.messageType? <;> cases hmany : fd.isRepeated <;>
        simp [partEncode, htype, hmany]

/-- The step for an entry is a loop over its parts. -/
theorem EntryParts.entryPass {β : Type} {msgD : M} {entry : LuaKey × L.Value}
    {parts : List (FieldDescriptor M × L.Value)} (h : EntryParts P L schema msgD entry parts)
    (fmt : String) (each : β → FieldDescriptor M × L.Value → Except Fault β) (b : β) :
    Luapb.entryPass P L schema fmt each msgD b entry = parts.foldlM each b := by
  cases h with
  | undeclared hkey hfind =>
      simp only [Luapb.entryPass, hkey, Fallible.ok_bind, hfind]
      rfl
  | singular hkey hfind hone =>
      simp [Luapb.entryPass, hkey, Fallible.ok_bind, hfind, hone]
  | repeated hkey hfind hmany hlist =>
      simp [Luapb.entryPass, hkey, Fallible.ok_bind, hfind, hmany, requireTable_eq_ok.mpr hlist,
        List.foldlM_map]

/-- An entry that a pass gets through has a readable key, and a table where a list is
expected. -/
theorem exists_entryParts {β : Type} {fmt : String}
    {each : β → FieldDescriptor M × L.Value → Except Fault β} {msgD : M} {b c : β}
    {entry : LuaKey × L.Value} (h : entryPass P L schema fmt each msgD b entry = .ok c) :
    ∃ parts, EntryParts P L schema msgD entry parts := by
  obtain ⟨name, hkey, h⟩ := Fallible.bind_eq_ok.mp h
  cases hfind : (schema msgD).findFieldByName name with
  | none => exact ⟨_, .undeclared hkey hfind⟩
  | some fd =>
      cases hmany : fd.isRepeated with
      | false => exact ⟨_, .singular hkey hfind hmany⟩
      | true =>
          simp only [hfind, hmany, if_true] at h
          obtain ⟨list, hlist, -⟩ := Fallible.bind_eq_ok.mp h
          exact ⟨_, .repeated hkey hfind hmany (requireTable_eq_ok.mp hlist)⟩

theorem EntryParts.deterministic {msgD : M} {entry : LuaKey × L.Value}
    {parts parts' : List (FieldDescriptor M × L.Value)}
    (h : EntryParts P L schema msgD entry parts) (h' : EntryParts P L schema msgD entry parts') :
    parts = parts' := by
  cases h <;> cases h' <;> simp_all

/-- The parts of the entry for a singular field. -/
theorem entryParts_singular {msgD : M} {fd : FieldDescriptor M} {value : L.Value}
    (hmem : fd ∈ (schema msgD).field) (hone : fd.isRepeated = false) :
    EntryParts P L schema msgD (.string fd.name, value) [(fd, value)] :=
  .singular (congrArg Except.ok (cstr_of_noNul fd.name_noNul))
    (Descriptor.findFieldByName_of_mem hmem) hone

/-- The parts of the entry for a repeated field. -/
theorem entryParts_repeated {msgD : M} {fd : FieldDescriptor M} {list : L.Value}
    {values : List L.Value} (hmem : fd ∈ (schema msgD).field) (hmany : fd.isRepeated = true)
    (hlist : L.view list = .table (sequence values)) :
    EntryParts P L schema msgD (.string fd.name, list) (values.map fun v => (fd, v)) := by
  have hparts : EntryParts P L schema msgD (.string fd.name, list) _ :=
    .repeated (congrArg Except.ok (cstr_of_noNul fd.name_noNul))
      (Descriptor.findFieldByName_of_mem hmem) hmany hlist
  have hvalues : (sequence values).map (fun e => (fd, e.2)) = values.map fun v => (fd, v) := by
    conv_rhs => rw [← values_sequence values, List.map_map]
    rfl
  rwa [hvalues] at hparts

/-! ## Whole tables -/

theorem luaNext_eq_ok {V : Type} {v : LuaView V} {entries : List (LuaKey × V)} :
    v.luaNext = .ok entries ↔ v = .table entries := by
  cases v <;> simp [LuaView.luaNext, eq_comm]

/-- One contribution for each part, grouped by entries or not. -/
theorem tableParts_forall₂ {γ : Type} {G : FieldDescriptor M × L.Value → γ → Prop} {msgD : M}
    {tab : L.Value} {cs : List γ} :
    (∃ parts, TableParts P L schema msgD tab parts ∧ List.Forall₂ G parts cs) ↔
      ∃ entries css, L.view tab = .table entries ∧
        List.Forall₂ (fun e ds => ∃ parts, EntryParts P L schema msgD e parts ∧
          List.Forall₂ G parts ds) entries css ∧ cs = css.flatten := by
  constructor
  · rintro ⟨_, ⟨htab, hentries⟩, hcs⟩
    obtain ⟨css, hcss, hflat⟩ := Fallible.forall₂_flatten.mp hcs
    exact ⟨_, css, htab, Fallible.forall₂_exists.mpr ⟨_, hentries, hcss⟩, hflat⟩
  · rintro ⟨entries, css, htab, hentries, hflat⟩
    obtain ⟨partss, hpartss, hcss⟩ := Fallible.forall₂_exists.mp hentries
    exact ⟨_, .entries htab hpartss, Fallible.forall₂_flatten.mpr ⟨css, hcss, hflat⟩⟩

/-- A pass adds up what the parts of the table contribute. -/
theorem pass_eq_ok {β γ : Type} {fmt : String}
    {each : β → FieldDescriptor M × L.Value → Except Fault β}
    {G : FieldDescriptor M × L.Value → γ → Prop} {op : β → γ → β}
    (heach : ∀ b part c, each b part = .ok c ↔ ∃ d, G part d ∧ c = op b d)
    {msgD : M} {tab : L.Value} {b c : β} :
    (do
      let entries ← (L.view tab).luaNext
      entries.foldlM (entryPass P L schema fmt each msgD) b) = .ok c ↔
      ∃ ds, (∃ parts, TableParts P L schema msgD tab parts ∧ List.Forall₂ G parts ds) ∧
        c = ds.foldl op b := by
  have hentry : ∀ b e c, entryPass P L schema fmt each msgD b e = .ok c ↔
      ∃ ds, (∃ parts, EntryParts P L schema msgD e parts ∧ List.Forall₂ G parts ds) ∧
        c = ds.foldl op b := by
    intro b e c
    constructor
    · intro h
      obtain ⟨parts, he⟩ := exists_entryParts h
      rw [he.entryPass] at h
      obtain ⟨ds, hds, hc⟩ := (Fallible.foldlM_eq_ok heach parts b c).mp h
      exact ⟨ds, ⟨parts, he, hds⟩, hc⟩
    · rintro ⟨ds, ⟨parts, he, hds⟩, hc⟩
      rw [he.entryPass]
      exact (Fallible.foldlM_eq_ok heach parts b c).mpr ⟨ds, hds, hc⟩
  rw [Fallible.bind_eq_ok]
  constructor
  · rintro ⟨entries, htab, h⟩
    obtain ⟨dss, hdss, rfl⟩ := (Fallible.foldlM_eq_ok hentry entries b c).mp h
    exact ⟨dss.flatten, tableParts_forall₂.mpr ⟨entries, dss, luaNext_eq_ok.mp htab, hdss, rfl⟩,
      Fallible.foldl_foldl _ _ _⟩
  · rintro ⟨ds, hds, rfl⟩
    obtain ⟨entries, dss, htab, hdss, rfl⟩ := tableParts_forall₂.mp hds
    exact ⟨entries, luaNext_eq_ok.mpr htab, (Fallible.foldlM_eq_ok hentry entries b _).mpr
      ⟨dss, hdss, (Fallible.foldl_foldl _ _ _).symm⟩⟩

theorem rawByteSizeBy_succ (cast : ℤ → ℤ) (fuel : ℕ) (msgD : M) (tab : L.Value) :
    rawByteSizeBy P W L schema cast (fuel + 1) msgD tab = (do
      let entries ← (L.view tab).luaNext
      entries.foldlM (entryPass P L schema "repeated '%s' require table"
        (partSize P W L cast (rawByteSizeBy P W L schema cast fuel)) msgD) 0) := by
  rw [rawByteSizeBy]
  apply bind_congr
  intro entries
  exact Fallible.foldlM_congr (fun e _ size => entrySize_eq_entryPass cast _ msgD size e) 0

theorem rawEncode_succ (fuel : ℕ) (msgD : M) (stream : Bytes) (tab : L.Value) :
    rawEncode P W L schema (fuel + 1) msgD stream tab = (do
      let entries ← (L.view tab).luaNext
      entries.foldlM (entryPass P L schema "repeated value '%s' require table"
        (partEncode P W L (rawByteSize P W L schema fuel) (rawEncode P W L schema fuel)) msgD)
        stream) := by
  rw [rawEncode]
  apply bind_congr
  intro entries
  exact Fallible.foldlM_congr (fun e _ stream => entryEncode_eq_entryPass _ _ msgD stream e) stream

/-- The size pass: the terms of the parts, added up. -/
theorem rawByteSizeBy_eq_ok {cast : ℤ → ℤ} {fuel : ℕ} {msgD : M} {tab : L.Value} {n : ℤ} :
    rawByteSizeBy P W L schema cast (fuel + 1) msgD tab = .ok n ↔
      ∃ terms, (∃ parts, TableParts P L schema msgD tab parts ∧
        List.Forall₂ (PartTerms P W L cast (rawByteSizeBy P W L schema cast fuel)) parts terms) ∧
        n = terms.foldl (addTerms cast) 0 := by
  rw [rawByteSizeBy_succ]
  exact pass_eq_ok partSize_eq_ok

theorem foldl_append (bss : List Bytes) (stream : Bytes) :
    bss.foldl (· ++ ·) stream = stream ++ bss.flatten := by
  induction bss generalizing stream with
  | nil => simp
  | cons bs bss ih => rw [List.foldl_cons, ih, List.flatten_cons, List.append_assoc]

theorem rawEncode_eq_ok_of_appends {fuel : ℕ} (happends : Appends (rawEncode P W L schema fuel))
    {msgD : M} {stream out : Bytes} {tab : L.Value} :
    rawEncode P W L schema (fuel + 1) msgD stream tab = .ok out ↔
      ∃ written, (∃ parts, TableParts P L schema msgD tab parts ∧
        List.Forall₂ (PartBytes P W L (rawByteSize P W L schema fuel)
          fun msgD => rawEncode P W L schema fuel msgD []) parts written) ∧
        out = stream ++ written.flatten := by
  rw [rawEncode_succ, pass_eq_ok (partEncode_eq_ok happends)]
  simp only [foldl_append]

/-- `RawEncode` only ever appends, and what it appends does not depend on the stream. -/
theorem rawEncode_appends (fuel : ℕ) : Appends (rawEncode P W L schema fuel) := by
  induction fuel with
  | zero =>
      intro msgD stream value out
      simp [rawEncode]
  | succ fuel ih =>
      intro msgD stream value out
      constructor
      · intro h
        obtain ⟨written, hwritten, hout⟩ := (rawEncode_eq_ok_of_appends ih).mp h
        exact ⟨written.flatten, (rawEncode_eq_ok_of_appends ih).mpr ⟨written, hwritten, rfl⟩, hout⟩
      · rintro ⟨payload, h, hout⟩
        obtain ⟨written, hwritten, rfl⟩ := (rawEncode_eq_ok_of_appends ih).mp h
        exact (rawEncode_eq_ok_of_appends ih).mpr ⟨written, hwritten, hout⟩

/-- The write pass: the bytes of the parts, one after the other. -/
theorem rawEncode_eq_ok {fuel : ℕ} {msgD : M} {stream out : Bytes} {tab : L.Value} :
    rawEncode P W L schema (fuel + 1) msgD stream tab = .ok out ↔
      ∃ written, (∃ parts, TableParts P L schema msgD tab parts ∧
        List.Forall₂ (PartBytes P W L (rawByteSize P W L schema fuel)
          fun msgD => rawEncode P W L schema fuel msgD []) parts written) ∧
        out = stream ++ written.flatten :=
  rawEncode_eq_ok_of_appends (rawEncode_appends fuel)

theorem TableParts.deterministic {msgD : M} {tab : L.Value}
    {parts parts' : List (FieldDescriptor M × L.Value)} (h : TableParts P L schema msgD tab parts)
    (h' : TableParts P L schema msgD tab parts') : parts = parts' := by
  obtain ⟨htab, hentries⟩ := h
  obtain ⟨htab', hentries'⟩ := h'
  obtain rfl := LuaView.table.inj (htab.symm.trans htab')
  exact congrArg List.flatten (List.right_unique_forall₂'
    (fun _ _ _ h h' => h.deterministic h') hentries hentries')

theorem EntryParts.mem_field {msgD : M} {entry : LuaKey × L.Value}
    {parts : List (FieldDescriptor M × L.Value)} (h : EntryParts P L schema msgD entry parts)
    {part : FieldDescriptor M × L.Value} (hmem : part ∈ parts) :
    part.1 ∈ (schema msgD).field := by
  cases h with
  | undeclared => cases hmem
  | singular hkey hfind hone =>
      obtain rfl := List.mem_singleton.mp hmem
      exact Descriptor.mem_of_findFieldByName hfind
  | repeated hkey hfind hmany hlist =>
      obtain ⟨e, -, rfl⟩ := List.mem_map.mp hmem
      exact Descriptor.mem_of_findFieldByName hfind

theorem TableParts.mem_field {msgD : M} {tab : L.Value}
    {parts : List (FieldDescriptor M × L.Value)} (h : TableParts P L schema msgD tab parts)
    {part : FieldDescriptor M × L.Value} (hmem : part ∈ parts) :
    part.1 ∈ (schema msgD).field := by
  obtain ⟨htab, hentries⟩ := h
  obtain ⟨parts, hparts, hmem⟩ := List.mem_flatten.mp hmem
  obtain ⟨entry, -, hentry⟩ := Fallible.exists_of_mem_right hentries hparts
  exact hentry.mem_field hmem

/-! ## Everything met on the way -/

variable (P L schema) in
/-- `Visits fuel msgD tab fuel' part`: a pass over `tab` that starts with `fuel` comes to
`part`, with `fuel'` for the calls it makes there. -/
inductive Visits : ℕ → M → L.Value → ℕ → FieldDescriptor M × L.Value → Prop
  | part {fuel msgD tab parts part} (hparts : TableParts P L schema msgD tab parts)
      (hmem : part ∈ parts) : Visits (fuel + 1) msgD tab fuel part
  | nested {fuel fuel' msgD tab parts fd value messageType part}
      (hparts : TableParts P L schema msgD tab parts) (hmem : (fd, value) ∈ parts)
      (htype : fd.type.messageType? = some messageType)
      (hvisits : Visits fuel messageType value fuel' part) :
      Visits (fuel + 1) msgD tab fuel' part

variable (P L schema) in
/-- A property of every part met, at any depth. -/
def Everywhere (Q : FieldDescriptor M × L.Value → Prop) (fuel : ℕ) (msgD : M) (tab : L.Value) :
    Prop :=
  ∀ fuel' part, Visits P L schema fuel msgD tab fuel' part → Q part

theorem Visits.mem_field {fuel fuel' : ℕ} {msgD : M} {tab : L.Value}
    {part : FieldDescriptor M × L.Value} (h : Visits P L schema fuel msgD tab fuel' part) :
    ∃ msgD, part.1 ∈ (schema msgD).field := by
  induction h with
  | part hparts hmem => exact ⟨_, hparts.mem_field hmem⟩
  | nested _ _ _ _ ih => exact ih

theorem Visits.trans {fuel fuel' fuel'' : ℕ} {msgD messageType : M} {tab : L.Value}
    {part part' : FieldDescriptor M × L.Value} (h : Visits P L schema fuel msgD tab fuel' part)
    (htype : part.1.type.messageType? = some messageType)
    (h' : Visits P L schema fuel' messageType part.2 fuel'' part') :
    Visits P L schema fuel msgD tab fuel'' part' := by
  induction h with
  | part hparts hmem => exact .nested hparts hmem htype h'
  | nested hparts hmem htype' _ ih => exact .nested hparts hmem htype' (ih htype h')

theorem Everywhere.visited {Q : FieldDescriptor M × L.Value → Prop} {fuel fuel' : ℕ}
    {msgD messageType : M} {tab : L.Value} {part : FieldDescriptor M × L.Value}
    (h : Everywhere P L schema Q fuel msgD tab)
    (hvisits : Visits P L schema fuel msgD tab fuel' part)
    (htype : part.1.type.messageType? = some messageType) :
    Everywhere P L schema Q fuel' messageType part.2 :=
  fun fuel'' part' hvisits' => h fuel'' part' (hvisits.trans htype hvisits')

/-- What a table and the tables nested in it have in common decides what holds of the parts. -/
theorem everywhere_of_invariant {Q : FieldDescriptor M × L.Value → Prop}
    {R : M → L.Value → Prop}
    (hparts : ∀ msgD tab parts part, R msgD tab → TableParts P L schema msgD tab parts →
      part ∈ parts → Q part ∧ ∀ messageType, part.1.type.messageType? = some messageType →
        R messageType part.2) {msgD : M} {tab : L.Value} (h : R msgD tab) (fuel : ℕ) :
    Everywhere P L schema Q fuel msgD tab := by
  intro fuel' part hvisits
  induction hvisits with
  | part htable hmem => exact (hparts _ _ _ _ h htable hmem).1
  | nested htable hmem htype _ ih => exact ih ((hparts _ _ _ _ h htable hmem).2 _ htype)

theorem everywhere_succ {Q : FieldDescriptor M × L.Value → Prop} {fuel : ℕ} {msgD : M}
    {tab : L.Value} {parts : List (FieldDescriptor M × L.Value)}
    (hparts : TableParts P L schema msgD tab parts) :
    Everywhere P L schema Q (fuel + 1) msgD tab ↔
      ∀ part ∈ parts, Q part ∧ ∀ messageType, part.1.type.messageType? = some messageType →
        Everywhere P L schema Q fuel messageType part.2 := by
  constructor
  · intro h part hmem
    refine ⟨h fuel part (.part hparts hmem), ?_⟩
    intro messageType htype fuel' part' hvisits
    exact h fuel' part' (.nested hparts hmem htype hvisits)
  · intro h fuel' part hvisits
    cases hvisits with
    | part hparts' hmem =>
        obtain rfl := hparts.deterministic hparts'
        exact (h _ hmem).1
    | nested hparts' hmem htype hvisits =>
        obtain rfl := hparts.deterministic hparts'
        exact (h _ hmem).2 _ htype _ _ hvisits

/-! ## The record of a part -/

variable (P W L schema) in
/-- What `RawEncode` appends for a part it comes to with `fuel` left. -/
def Record (fuel : ℕ) : FieldDescriptor M × L.Value → Bytes → Prop :=
  PartBytes P W L (rawByteSize P W L schema fuel) fun msgD => rawEncode P W L schema fuel msgD []

theorem exists_record_of_mem {fuel : ℕ} {msgD : M} {tab : L.Value}
    {parts : List (FieldDescriptor M × L.Value)} (hparts : TableParts P L schema msgD tab parts)
    {part : FieldDescriptor M × L.Value} (hmem : part ∈ parts) {written : Bytes}
    (hencode : rawEncode P W L schema (fuel + 1) msgD [] tab = .ok written) :
    ∃ record, Record P W L schema fuel part record ∧ record <:+: written := by
  obtain ⟨bss, ⟨parts', hparts', hbytes⟩, hwritten⟩ := rawEncode_eq_ok.mp hencode
  obtain rfl := hparts.deterministic hparts'
  obtain ⟨record, hrecord, hbs⟩ := Fallible.exists_of_mem_right hbytes.flip hmem
  refine ⟨record, hbs, ?_⟩
  rw [hwritten, List.nil_append]
  exact List.infix_of_mem_flatten hrecord

/-- The record of every part met, at any depth, is in what `RawEncode` writes. -/
theorem exists_record {fuel fuel' : ℕ} {msgD : M} {tab : L.Value}
    {part : FieldDescriptor M × L.Value} (hvisits : Visits P L schema fuel msgD tab fuel' part)
    {written : Bytes} (hencode : rawEncode P W L schema fuel msgD [] tab = .ok written) :
    ∃ record, Record P W L schema fuel' part record ∧ record <:+: written := by
  induction hvisits generalizing written with
  | part hparts hmem => exact exists_record_of_mem hparts hmem hencode
  | nested hparts hmem htype _ ih =>
      obtain ⟨outer, houter, hinfix⟩ := exists_record_of_mem hparts hmem hencode
      obtain ⟨size, payload, -, hpayload, houter⟩ := houter.message_eq htype
      obtain ⟨record, hrecord, hinfix'⟩ := ih hpayload
      refine ⟨record, hrecord, (hinfix'.trans ?_).trans hinfix⟩
      rw [houter]
      exact (List.suffix_append _ _).isInfix

end Luapb

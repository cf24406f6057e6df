import Luapb.Verification.Table
import Luapb.Verification.Decoder.Derivation

/-! # Type soundness of the decoder

Whatever the bytes are, a table the decoder returns has the shape its message type
declares. Nothing is assumed of the input stream: the reads may fail, return
anything and leave the stream anywhere. -/

namespace Luapb

open PBStream

variable {M : Type}

mutual

/-- A value of a declared type. The types the decoder does not handle have none. -/
inductive ValueConforms (schema : Schema M) : FieldType M → LuaTree → Prop
  | float (n) : ValueConforms schema .float (.number n)
  | int32 (n) : ValueConforms schema .int32 (.number n)
  | uint32 (n) : ValueConforms schema .uint32 (.number n)
  | bool (b) : ValueConforms schema .bool (.boolean b)
  | string (s) : ValueConforms schema .string (.string s)
  | int64 (s) : ValueConforms schema .int64 (.string s)
  | uint64 (s) : ValueConforms schema .uint64 (.string s)
  | enum {enumType name} (hname : (enumType.findValueByName name).isSome) :
      ValueConforms schema (.enum enumType) (.string name)
  | message {messageType tab} (htab : TableConforms schema messageType tab) :
      ValueConforms schema (.message messageType) (.table tab)

/-- What the table holds under a field's name: one value, or a non-empty sequence. -/
inductive FieldConforms (schema : Schema M) : FieldDescriptor M → LuaTree → Prop
  | singular {fd v} (hone : fd.isRepeated = false) (hv : ValueConforms schema fd.type v) :
      FieldConforms schema fd v
  | repeated {fd values} (hmany : fd.isRepeated = true) (hne : values ≠ [])
      (hall : ∀ v ∈ values, ValueConforms schema fd.type v) :
      FieldConforms schema fd (.table (LuaTable.ofList values))

/-- An entry of a message's table names a declared field. -/
inductive EntryConforms (schema : Schema M) : M → LuaKey × LuaTree → Prop
  | field {msgD fd v} (hmem : fd ∈ (schema msgD).field) (hv : FieldConforms schema fd v) :
      EntryConforms schema msgD (.string fd.name, v)

inductive TableConforms (schema : Schema M) : M → LuaTable → Prop
  | entries {msgD tab} (hkeys : (tab.map (·.1)).Nodup)
      (hall : ∀ e ∈ tab, EntryConforms schema msgD e) : TableConforms schema msgD tab

end

variable {P : Platform} {S : CodedInputStream} {garbage : S.Stream → ℤ} {schema : Schema M}

theorem TableConforms.nil (msgD : M) : TableConforms schema msgD [] :=
  .entries (by simp) (by simp)

theorem TableConforms.set {msgD : M} {tab : LuaTable} {fd : FieldDescriptor M} {v : LuaTree}
    (htab : TableConforms schema msgD tab) (hmem : fd ∈ (schema msgD).field)
    (hv : FieldConforms schema fd v) :
    TableConforms schema msgD (tab.set (.string fd.name) v) := by
  obtain ⟨hkeys, hall⟩ := htab
  refine .entries (LuaTable.nodup_keys_set hkeys _ _) ?_
  intro e he
  rcases LuaTable.mem_of_mem_set he with rfl | he
  · exact .field hmem hv
  · exact hall e he

/-- Under a declared name stands what that field may hold: no other field shares the name. -/
theorem TableConforms.get {msgD : M} {tab : LuaTable} {fd : FieldDescriptor M} {v : LuaTree}
    (htab : TableConforms schema msgD tab) (hmem : fd ∈ (schema msgD).field)
    (hget : tab.get (.string fd.name) = some v) : FieldConforms schema fd v := by
  obtain ⟨-, hall⟩ := htab
  have hentry := hall _ (LuaTable.mem_of_get hget)
  generalize hk : (LuaKey.string fd.name, v) = e at hentry
  obtain ⟨hmem', hv⟩ := hentry
  rename_i fd' v'
  obtain ⟨hname, rfl⟩ := Prod.mk.inj hk
  have hfd := Descriptor.findFieldByName_of_mem hmem'
  rw [← LuaKey.string.inj hname, Descriptor.findFieldByName_of_mem hmem] at hfd
  exact Option.some.inj hfd ▸ hv

/-- `FillValue` keeps the shape: it stores a value, starts a sequence or appends to one. -/
theorem fillValue_conforms {msgD : M} {tab : LuaTable} {fd : FieldDescriptor M} {v : LuaTree}
    (htab : TableConforms schema msgD tab) (hmem : fd ∈ (schema msgD).field)
    (hv : ValueConforms schema fd.type v) :
    TableConforms schema msgD (fillValue P tab fd v) := by
  rw [fillValue]
  split
  · rename_i hmany
    split
    · rename_i list hget
      have hlist := htab.get hmem hget
      generalize hl : LuaTree.table list = l at hlist
      cases hlist with
      | singular hone => simp [hmany] at hone
      | repeated _ hne hall =>
          obtain rfl := LuaTree.table.inj hl
          rw [LuaTable.luaLRef_ofList]
          refine htab.set hmem (.repeated hmany (by simp) ?_)
          intro w hw
          rcases List.mem_append.mp hw with hw | hw
          · exact hall w hw
          · obtain rfl := List.mem_singleton.mp hw
            exact hv
    · rw [LuaTable.luaLRef_nil]
      exact htab.set hmem (.repeated hmany (by simp) (by simpa using hv))
  · rename_i hone
    exact htab.set hmem (.singular (by simpa using hone) hv)

theorem readValue_conforms {msgD : M} {tab : LuaTable} {fd : FieldDescriptor M} (s : S.Stream)
    (htab : TableConforms schema msgD tab) (hmem : fd ∈ (schema msgD).field) :
    TableConforms schema msgD (readValue P S s tab fd).tab := by
  rw [readValue]
  split
  · rename_i htype
    exact fillValue_conforms htab hmem (htype ▸ .float _)
  · rename_i htype
    exact fillValue_conforms htab hmem (htype ▸ .int32 _)
  · rename_i htype
    exact fillValue_conforms htab hmem (htype ▸ .bool _)
  · rename_i htype
    exact fillValue_conforms htab hmem (htype ▸ .string _)
  · rename_i htype
    exact fillValue_conforms htab hmem (htype ▸ .int64 _)
  · rename_i htype
    exact fillValue_conforms htab hmem (htype ▸ .uint64 _)
  · rename_i htype
    exact fillValue_conforms htab hmem (htype ▸ .uint32 _)
  · rename_i enumType htype
    simp only
    split
    · exact htab
    · rename_i evd hfind
      have hname := (EnumDescriptor.name_of_findValueByNumber hfind).2
      exact fillValue_conforms htab hmem (htype ▸ .enum (by simp [hname]))
  · exact htab

/-- The loop keeps the table conforming, at every depth of the recursion. -/
theorem DecodeDerivation.conforms {depth : ℕ} {s : S.Stream} {msgD : M} {tab : LuaTable}
    {run : Run S} (h : DecodeDerivation P S garbage schema depth s msgD tab run)
    (htab : TableConforms schema msgD tab) : TableConforms schema msgD run.tab := by
  induction h with
  | stop => exact htab
  | unknown _ _ _ ih => exact ih htab
  | @message depth s msgD tab fd messageType value rest _ hfind htype _ _ ihv ihr =>
      have hfd : fd.type = .message messageType := by
        cases ht : fd.type <;> simp_all [FieldType.messageType?]
      exact ihr (fillValue_conforms htab (Descriptor.mem_of_findFieldByNumber hfind)
        (hfd ▸ .message (ihv (.nil _))))
  | value _ hfind _ _ ih =>
      exact ih (readValue_conforms _ htab (Descriptor.mem_of_findFieldByNumber hfind))

/-- A table that `Decode` returns conforms to the message type it was asked for. -/
theorem decode_conforms {V : Type} {findMessage : Bytes → Option M} {fuel : ℕ}
    {name buff : LuaView V} {run : Run S}
    (h : decode P S garbage schema findMessage fuel name buff = .ok (some run)) :
    ∃ n msgD, Stack.checklstring P name = .ok n ∧ findMessage (cstr n) = some msgD ∧
      TableConforms schema msgD run.tab := by
  obtain ⟨n, hn, h⟩ := Fallible.bind_eq_ok.mp h
  obtain ⟨b, -, h⟩ := Fallible.bind_eq_ok.mp h
  split at h
  · cases h
  · rename_i msgD hfind
    split at h
    · cases h
    · rename_i r hr
      obtain rfl := Option.some.inj (Except.ok.inj h)
      obtain ⟨r', hder, rfl⟩ := rawDecode_derivation hr
      exact ⟨n, msgD, hn, hfind, hder.conforms (.nil msgD)⟩

/-- A person with an id, whose name runs past the end. -/
theorem decode_conforms_person :
    ∃ run n msgD, decode (.plain .x64) .reference (fun _ => 0) AddressBook.schema
        AddressBook.findMessage 6 (.string (AddressBook.fullName .person) : LuaView LuaTree)
        (.string [16, 5, 10, 9, 65]) = .ok (some run) ∧
      AddressBook.findMessage (cstr n) = some msgD ∧
      TableConforms AddressBook.schema msgD run.tab := by
  have h : decode (.plain .x64) .reference (fun _ => 0) AddressBook.schema
      AddressBook.findMessage 6 (.string (AddressBook.fullName .person) : LuaView LuaTree)
      (.string [16, 5, 10, 9, 65]) = .ok (some _) := rfl
  obtain ⟨n, msgD, -, hfind, hconforms⟩ := decode_conforms h
  exact ⟨_, n, msgD, h, hfind, hconforms⟩

end Luapb

import Luapb.Verification.Encoder.Enums

/-! # Entries that name no field

Both passes look up the key of an entry before anything else and go on to the next entry
if no field has that name. So they take a table for the one without such entries. -/

namespace Luapb

open PBStream

variable {M : Type}

section

variable (P : Platform) (L : LuaState) (schema : Schema M)

/-- Whether an entry of a message names a field. A key that cannot be read as a string is
not said to name none. -/
def Role.names : Role M → LuaKey → Bool
  | .message msgD, key =>
      match keyName P key with
      | .ok name => ((schema msgD).findFieldByName name).isSome
      | .error _ => true
  | _, _ => true

/-- The entries that are left, with the role of each value. -/
def namedEntries (role : Role M) (entries : List (LuaKey × L.Value)) :
    List (LuaKey × (Role M × L.Value)) :=
  (entries.filter fun e => role.names P schema e.1).map fun e =>
    (e.1, (role.under P schema e.1, e.2))

/-- The Lua state in which the entries that name no field are removed from every table met
as a message. What they hold is not looked at. -/
@[reducible] def namedState : LuaState where
  Value := Role M × L.Value
  view a := (L.view a.2).mapTable (namedEntries P L schema a.1)

end

variable {P : Platform} {W : WireFormatLite} {L : LuaState} {schema : Schema M}

theorem view_namedState (a : Role M × L.Value) :
    (namedState P L schema).view a = (L.view a.2).mapTable (namedEntries P L schema a.1) := by
  rfl

/-- An entry that names no field is passed over. -/
theorem entryPass_unnamed {β : Type} {each : β → FieldDescriptor M × L.Value → Except Fault β}
    {msgD : M} {e : LuaKey × L.Value} (h : ¬ (Role.message msgD).names P schema e.1 = true)
    (fmt : String) (b : β) : entryPass P L schema fmt each msgD b e = pure b := by
  cases hkey : keyName P e.1 with
  | error err => simp [Role.names, hkey] at h
  | ok name =>
      have hfind : (schema msgD).findFieldByName name = none := by
        simpa [Role.names, hkey] using h
      simp only [entryPass, hkey, Fallible.ok_bind, hfind]

/-- The list of a repeated field is left as it is. -/
theorem namedEntries_list (fd : FieldDescriptor M) (list : List (LuaKey × L.Value)) :
    namedEntries P L schema (.list fd) list = list.map fun e => (e.1, (.ofField fd, e.2)) := by
  have hfilter : list.filter (fun e => (Role.list fd).names P schema e.1) = list :=
    List.filter_eq_self.mpr fun _ _ => rfl
  rw [namedEntries, hfilter]
  rfl

section

variable {β : Type} {each : β → FieldDescriptor M × L.Value → Except Fault β}
  {each' : β → FieldDescriptor M × (Role M × L.Value) → Except Fault β}

/-- What a pass does with an entry is the same, if what it does with each value is. -/
theorem entryPass_named (heach : ∀ fd v b, each' b (fd, (.ofField fd, v)) = each b (fd, v))
    (fmt : String) (msgD : M) (b : β) (e : LuaKey × L.Value) :
    entryPass P (namedState P L schema) schema fmt each' msgD b
        (e.1, ((Role.message msgD).under P schema e.1, e.2)) =
      entryPass P L schema fmt each msgD b e := by
  cases hkey : keyName P e.1 with
  | error err => simp only [entryPass, hkey]; rfl
  | ok name =>
      cases hfind : (schema msgD).findFieldByName name with
      | none => simp only [entryPass, hkey, Fallible.ok_bind, hfind]
      | some fd =>
          simp only [entryPass, hkey, Fallible.ok_bind, hfind, Role.under, fieldOf]
          cases hmany : fd.isRepeated with
          | false =>
              simp only [Bool.false_eq_true, if_false]
              exact heach fd e.2 b
          | true =>
              simp only [if_true, LuaView.requireTable_mapTable]
              cases requireTable fmt name (L.view e.2) with
              | error err => rfl
              | ok list =>
                  simp only [Except.map, Fallible.ok_bind, namedEntries_list, List.foldlM_map]
                  exact Fallible.foldlM_congr (fun e _ b => heach fd e.2 b) b

/-- A pass over the entries that are left is the pass over all of them. -/
theorem foldlM_named (heach : ∀ fd v b, each' b (fd, (.ofField fd, v)) = each b (fd, v))
    (fmt : String) (msgD : M) (entries : List (LuaKey × L.Value)) (b : β) :
    (namedEntries P L schema (.message msgD) entries).foldlM
        (entryPass P (namedState P L schema) schema fmt each' msgD) b =
      entries.foldlM (entryPass P L schema fmt each msgD) b := by
  rw [namedEntries, List.foldlM_map, List.foldlM_filter]
  apply Fallible.foldlM_congr
  intro e _ b
  split
  · exact entryPass_named heach fmt msgD b e
  · rename_i hunnamed
    exact (entryPass_unnamed hunnamed fmt b).symm

end

/-! ## The two passes -/

theorem partSize_unnamed {cast : ℤ → ℤ} {nested : M → L.Value → Except Fault ℤ}
    {nested' : M → Role M × L.Value → Except Fault ℤ}
    (hnested : ∀ msgD v, nested' msgD (.message msgD, v) = nested msgD v)
    (fd : FieldDescriptor M) (v : L.Value) (size : ℤ) :
    partSize P W (namedState P L schema) cast nested' size (fd, (.ofField fd, v)) =
      partSize P W L cast nested size (fd, v) := by
  rw [partSize, partSize]
  cases htype : fd.type.messageType? with
  | some messageType =>
      simp only [Role.ofField, htype]
      rw [hnested]
  | none => simp only [LuaView.fieldSizeBy_mapTable]

theorem rawByteSizeBy_unnamed (cast : ℤ → ℤ) (fuel : ℕ) (msgD : M) (tab : L.Value) :
    rawByteSizeBy P W (namedState P L schema) schema cast fuel msgD (.message msgD, tab) =
      rawByteSizeBy P W L schema cast fuel msgD tab := by
  induction fuel generalizing msgD tab with
  | zero => rfl
  | succ fuel ih =>
      rw [rawByteSizeBy_succ, rawByteSizeBy_succ, view_namedState, LuaView.luaNext_mapTable]
      cases (L.view tab).luaNext with
      | error e => rfl
      | ok entries => exact foldlM_named (partSize_unnamed ih) _ msgD entries 0

theorem partEncode_unnamed {nestedSize : M → L.Value → Except Fault ℤ}
    {nestedSize' : M → Role M × L.Value → Except Fault ℤ}
    (hsize : ∀ msgD v, nestedSize' msgD (.message msgD, v) = nestedSize msgD v)
    {nested : M → Bytes → L.Value → Except Fault Bytes}
    {nested' : M → Bytes → Role M × L.Value → Except Fault Bytes}
    (hnested : ∀ msgD stream v, nested' msgD stream (.message msgD, v) = nested msgD stream v)
    (fd : FieldDescriptor M) (v : L.Value) (stream : Bytes) :
    partEncode P W (namedState P L schema) nestedSize' nested' stream (fd, (.ofField fd, v)) =
      partEncode P W L nestedSize nested stream (fd, v) := by
  rw [partEncode, partEncode]
  cases htype : fd.type.messageType? with
  | some messageType =>
      simp only [Role.ofField, htype]
      rw [hsize]
      exact bind_congr fun size => hnested _ _ _
  | none => simp only [LuaView.writeValue_mapTable]

theorem rawEncode_unnamed (fuel : ℕ) (msgD : M) (stream : Bytes) (tab : L.Value) :
    rawEncode P W (namedState P L schema) schema fuel msgD stream (.message msgD, tab) =
      rawEncode P W L schema fuel msgD stream tab := by
  induction fuel generalizing msgD stream tab with
  | zero => rfl
  | succ fuel ih =>
      rw [rawEncode_succ, rawEncode_succ, view_namedState, LuaView.luaNext_mapTable]
      cases (L.view tab).luaNext with
      | error e => rfl
      | ok entries =>
          exact foldlM_named (partEncode_unnamed (rawByteSizeBy_unnamed int32 fuel) ih) _ msgD
            entries stream

/-- Without the entries that name no field both passes return the same and raise the same
errors. -/
theorem encode_unnamed (fuel : ℕ) (msgD : M) (stream : Bytes) (tab : L.Value) :
    rawByteSize P W (namedState P L schema) schema fuel msgD (.message msgD, tab) =
        rawByteSize P W L schema fuel msgD tab ∧
      rawEncode P W (namedState P L schema) schema fuel msgD stream (.message msgD, tab) =
        rawEncode P W L schema fuel msgD stream tab :=
  ⟨rawByteSizeBy_unnamed int32 fuel msgD tab, rawEncode_unnamed fuel msgD stream tab⟩

end Luapb

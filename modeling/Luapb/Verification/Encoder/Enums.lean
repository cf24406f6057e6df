import Luapb.Verification.Encoder.ValueSize
import Luapb.Verification.Encoder.Agreement

/-! # Undeclared enum names

`WriteValue` writes nothing for a name that the enum does not declare, and `FieldSize`
returns 0 for it, but its tag is added all the same. So the size is that of the table
without the name exactly if there is no such name. -/

namespace Luapb

open Ieee754 Wire PBStream

variable {M V : Type}

/-! ## Values whose tables are changed -/

/-- A view with other entries, where it is a table. -/
def LuaView.mapTable {V' : Type} (f : List (LuaKey × V) → List (LuaKey × V')) :
    LuaView V → LuaView V'
  | .nil => .nil
  | .boolean b => .boolean b
  | .number n => .number n
  | .string s => .string s
  | .table entries => .table (f entries)
  | .function => .function
  | .userdata => .userdata
  | .thread => .thread
  | .lightuserdata => .lightuserdata

namespace LuaView

variable {V' : Type} (P : Platform) (f : List (LuaKey × V) → List (LuaKey × V')) (v : LuaView V)

@[simp] theorem checklstring_mapTable :
    Stack.checklstring P (v.mapTable f) = Stack.checklstring P v := by cases v <;> rfl

@[simp] theorem tonumber_mapTable : Stack.tonumber P (v.mapTable f) = Stack.tonumber P v := by
  cases v <;> rfl

@[simp] theorem getCString_mapTable :
    Stack.getCString P (v.mapTable f) = Stack.getCString P v := by cases v <;> rfl

@[simp] theorem getBool_mapTable : Stack.getBool (v.mapTable f) = Stack.getBool v := by
  cases v <;> rfl

theorem luaNext_mapTable : (v.mapTable f).luaNext = v.luaNext.map f := by cases v <;> rfl

/-- The entries of a table are nothing to a scalar. -/
@[simp] theorem fieldSizeBy_mapTable (W : WireFormatLite) (cast : ℤ → ℤ)
    (fd : FieldDescriptor M) : fieldSizeBy P W cast fd (v.mapTable f) =
      fieldSizeBy P W cast fd v := by
  simp only [fieldSizeBy, Stack.getInt, Stack.getUnsigned, Stack.checkinteger, Stack.getString,
    getCString_mapTable, tonumber_mapTable, checklstring_mapTable]

@[simp] theorem writeValue_mapTable (W : WireFormatLite) (fd : FieldDescriptor M) :
    writeValue P W fd (v.mapTable f) = writeValue P W fd v := by
  simp only [writeValue, Stack.getInt, Stack.getUnsigned, Stack.checkinteger, Stack.getFloat,
    Stack.getString, getCString_mapTable, tonumber_mapTable, checklstring_mapTable,
    getBool_mapTable]

theorem requireTable_mapTable (fmt : String) (name : Bytes) :
    requireTable fmt name (v.mapTable f) = (requireTable fmt name v).map f := by
  cases v <;> rfl

end LuaView

/-! ## The table without those entries -/

/-- What a value is met as. -/
inductive Role (M : Type)
  | message (msgD : M)
  | list (fd : FieldDescriptor M)
  | value

section

variable (P : Platform) (L : LuaState) (schema : Schema M)

/-- The role of one value of a field. -/
def Role.ofField (fd : FieldDescriptor M) : Role M :=
  match fd.type.messageType? with
  | some messageType => .message messageType
  | none => .value

/-- The field that an entry of a message is for. -/
def fieldOf (msgD : M) (key : LuaKey) : Option (FieldDescriptor M) :=
  match keyName P key with
  | .ok name => (schema msgD).findFieldByName name
  | .error _ => none

/-- The role of what stands under a key. -/
def Role.under : Role M → LuaKey → Role M
  | .message msgD, key =>
      match fieldOf P schema msgD key with
      | some fd => if fd.isRepeated then .list fd else .ofField fd
      | none => .value
  | .list fd, _ => .ofField fd
  | .value, _ => .value

/-- `EnumDeclared`, as a computation. -/
def enumDeclared (type : FieldType M) (v : LuaView V) : Bool :=
  match type with
  | .enum enumType =>
      match Stack.getString P v with
      | .ok name => (enumType.findValueByName name).isSome
      | .error _ => true
  | _ => true

/-- Whether an entry is no undeclared name: neither the value of a singular field nor the
element of a list. -/
def Role.keeps : Role M → LuaKey × L.Value → Bool
  | .message msgD, entry =>
      match fieldOf P schema msgD entry.1 with
      | some fd => fd.isRepeated || enumDeclared P fd.type (L.view entry.2)
      | none => true
  | .list fd, entry => enumDeclared P fd.type (L.view entry.2)
  | .value, _ => true

/-- The entries that are kept, with the role of each value. -/
def keptEntries (role : Role M) (entries : List (LuaKey × L.Value)) :
    List (LuaKey × (Role M × L.Value)) :=
  (entries.filter (role.keeps P L schema)).map fun e => (e.1, (role.under P schema e.1, e.2))

/-- The Lua state in which the entries with undeclared names are removed from every table.
A table may be met as messages of several types, so a value comes with its role. -/
@[reducible] def declaredState : LuaState where
  Value := Role M × L.Value
  view a := (L.view a.2).mapTable (keptEntries P L schema a.1)

/-- An entry of a table, with the role each has. -/
inductive Beneath : Role M × L.Value → Role M × L.Value → Prop
  | entry {role v entries e} (htab : L.view v = .table entries) (hmem : e ∈ entries) :
      Beneath (role, v) (role.under P schema e.1, e.2)

/-- Nothing is removed, neither from the value nor from anything beneath it. -/
def AllDeclared (a : Role M × L.Value) : Prop :=
  ∀ b, Relation.ReflTransGen (Beneath P L schema) a b →
    ∀ entries, L.view b.2 = .table entries → ∀ e ∈ entries, b.1.keeps P L schema e = true

end

variable {P : Platform} {W : WireFormatLite} {L : LuaState} {schema : Schema M}

theorem view_declaredState (a : Role M × L.Value) :
    (declaredState P L schema).view a = (L.view a.2).mapTable (keptEntries P L schema a.1) := rfl

theorem enumDeclared_iff {type : FieldType M} {v : LuaView V} :
    enumDeclared P type v = true ↔ EnumDeclared P type v := by
  cases type with
  | enum enumType =>
      cases hname : Stack.getString P v <;> simp [enumDeclared, EnumDeclared, hname]
  | _ => simp [enumDeclared, EnumDeclared]

theorem allDeclared_iff {a : Role M × L.Value} :
    AllDeclared P L schema a ↔ ∀ entries, L.view a.2 = .table entries → ∀ e ∈ entries,
      a.1.keeps P L schema e = true ∧ AllDeclared P L schema (a.1.under P schema e.1, e.2) := by
  constructor
  · intro h entries htab e he
    refine ⟨h a .refl entries htab e he, ?_⟩
    intro b hb
    exact h b (.head (.entry htab he) hb)
  · intro h b hb
    rcases hb.cases_head with rfl | ⟨c, hc, hb⟩
    · intro entries htab e he
      exact (h entries htab e he).1
    · cases hc with
      | entry htab he => exact (h _ htab _ he).2 b hb

theorem allDeclared_value (v : L.Value) : AllDeclared P L schema (.value, v) := by
  have hrole : ∀ b, Relation.ReflTransGen (Beneath P L schema) (.value, v) b →
      b.1 = .value := by
    intro b hb
    induction hb with
    | refl => rfl
    | tail _ hstep ih =>
        cases hstep with
        | entry =>
            simp only at ih
            rw [ih]
            rfl
  intro b hb entries _ e _
  rw [hrole b hb]
  rfl

/-! ## Where nothing is removed -/

theorem keptEntries_of_declared {role : Role M} {v : L.Value} {entries : List (LuaKey × L.Value)}
    (h : AllDeclared P L schema (role, v)) (htab : L.view v = .table entries) :
    keptEntries P L schema role entries =
      entries.map fun e => (e.1, (role.under P schema e.1, e.2)) := by
  rw [keptEntries, List.filter_eq_self.mpr]
  intro e he
  exact (allDeclared_iff.mp h entries htab e he).1

/-- A loop over the entries of a table is the same loop. -/
theorem foldlM_kept {γ : Type} {role : Role M} {v : L.Value} {entries : List (LuaKey × L.Value)}
    (h : AllDeclared P L schema (role, v)) (htab : L.view v = .table entries)
    {f : γ → LuaKey × (Role M × L.Value) → Except Fault γ}
    {g : γ → LuaKey × L.Value → Except Fault γ}
    (hfg : ∀ e, AllDeclared P L schema (role.under P schema e.1, e.2) →
      ∀ c, f c (e.1, (role.under P schema e.1, e.2)) = g c e) (c : γ) :
    (keptEntries P L schema role entries).foldlM f c = entries.foldlM g c := by
  rw [keptEntries_of_declared h htab, List.foldlM_map]
  apply Fallible.foldlM_congr
  intro e he
  exact hfg e (allDeclared_iff.mp h entries htab e he).2

/-- A loop over the list of a repeated field is the same loop. -/
theorem list_kept {γ : Type} {fd : FieldDescriptor M} {v : L.Value}
    (h : AllDeclared P L schema (.list fd, v))
    {f : γ → LuaKey × (Role M × L.Value) → Except Fault γ}
    {g : γ → LuaKey × L.Value → Except Fault γ}
    (hfg : ∀ e, AllDeclared P L schema (.ofField fd, e.2) →
      ∀ c, f c (e.1, (.ofField fd, e.2)) = g c e) (fmt : String) (name : Bytes) (c : γ) :
    (requireTable fmt name ((declaredState P L schema).view (.list fd, v)) >>= fun list =>
        list.foldlM f c) =
      requireTable fmt name (L.view v) >>= fun list => list.foldlM g c := by
  rw [view_declaredState, LuaView.requireTable_mapTable]
  cases hlist : requireTable fmt name (L.view v) with
  | error e => rfl
  | ok list => exact foldlM_kept h (requireTable_eq_ok.mp hlist) hfg c

/-- What a pass does with an entry is the same, if what it does with each value is. -/
theorem entryPass_declared {β : Type} {each : β → FieldDescriptor M × L.Value → Except Fault β}
    {each' : β → FieldDescriptor M × (Role M × L.Value) → Except Fault β}
    (heach : ∀ fd v, AllDeclared P L schema (.ofField fd, v) → ∀ b,
      each' b (fd, (.ofField fd, v)) = each b (fd, v)) {msgD : M} {e : LuaKey × L.Value}
    (h : AllDeclared P L schema ((Role.message msgD).under P schema e.1, e.2)) (fmt : String)
    (b : β) :
    entryPass P (declaredState P L schema) schema fmt each' msgD b
        (e.1, ((Role.message msgD).under P schema e.1, e.2)) =
      entryPass P L schema fmt each msgD b e := by
  cases hkey : keyName P e.1 with
  | error err => simp only [entryPass, hkey]; rfl
  | ok name =>
      cases hfind : (schema msgD).findFieldByName name with
      | none => simp only [entryPass, hkey, Fallible.ok_bind, hfind]
      | some fd =>
          simp only [Role.under, fieldOf, hkey, hfind] at h ⊢
          simp only [entryPass, hkey, Fallible.ok_bind, hfind]
          by_cases hmany : fd.isRepeated = true
          · simp only [hmany, if_true] at h ⊢
            exact list_kept h (fun e he b => heach fd e.2 he b) fmt name b
          · simp only [hmany, Bool.false_eq_true, if_false] at h ⊢
            exact heach fd e.2 h b

theorem partSize_declared {cast : ℤ → ℤ} {nested : M → L.Value → Except Fault ℤ}
    {nested' : M → Role M × L.Value → Except Fault ℤ}
    (hnested : ∀ msgD v, AllDeclared P L schema (.message msgD, v) →
      nested' msgD (.message msgD, v) = nested msgD v) (fd : FieldDescriptor M) (v : L.Value)
    (h : AllDeclared P L schema (.ofField fd, v)) (size : ℤ) :
    partSize P W (declaredState P L schema) cast nested' size (fd, (.ofField fd, v)) =
      partSize P W L cast nested size (fd, v) := by
  rw [partSize, partSize]
  cases htype : fd.type.messageType? with
  | some messageType =>
      simp only [Role.ofField, htype] at h ⊢
      rw [hnested _ _ h]
  | none => simp only [LuaView.fieldSizeBy_mapTable]

theorem rawByteSizeBy_declared (cast : ℤ → ℤ) {fuel : ℕ} {msgD : M} {tab : L.Value}
    (h : AllDeclared P L schema (.message msgD, tab)) :
    rawByteSizeBy P W (declaredState P L schema) schema cast fuel msgD (.message msgD, tab) =
      rawByteSizeBy P W L schema cast fuel msgD tab := by
  induction fuel generalizing msgD tab with
  | zero => rfl
  | succ fuel ih =>
      rw [rawByteSizeBy_succ, rawByteSizeBy_succ, view_declaredState, LuaView.luaNext_mapTable]
      cases hview : (L.view tab).luaNext with
      | error e => rfl
      | ok entries =>
          exact foldlM_kept h (luaNext_eq_ok.mp hview) (fun e he size =>
            entryPass_declared (partSize_declared fun _ _ => ih) he _ size) 0

theorem partEncode_declared {nestedSize : M → L.Value → Except Fault ℤ}
    {nestedSize' : M → Role M × L.Value → Except Fault ℤ}
    (hsize : ∀ msgD v, AllDeclared P L schema (.message msgD, v) →
      nestedSize' msgD (.message msgD, v) = nestedSize msgD v)
    {nested : M → Bytes → L.Value → Except Fault Bytes}
    {nested' : M → Bytes → Role M × L.Value → Except Fault Bytes}
    (hnested : ∀ msgD stream v, AllDeclared P L schema (.message msgD, v) →
      nested' msgD stream (.message msgD, v) = nested msgD stream v)
    (fd : FieldDescriptor M) (v : L.Value) (h : AllDeclared P L schema (.ofField fd, v))
    (stream : Bytes) :
    partEncode P W (declaredState P L schema) nestedSize' nested' stream (fd, (.ofField fd, v)) =
      partEncode P W L nestedSize nested stream (fd, v) := by
  rw [partEncode, partEncode]
  cases htype : fd.type.messageType? with
  | some messageType =>
      simp only [Role.ofField, htype] at h ⊢
      rw [hsize _ _ h]
      exact bind_congr fun size => hnested _ _ _ h
  | none => simp only [LuaView.writeValue_mapTable]

theorem rawEncode_declared {fuel : ℕ} {msgD : M} {stream : Bytes} {tab : L.Value}
    (h : AllDeclared P L schema (.message msgD, tab)) :
    rawEncode P W (declaredState P L schema) schema fuel msgD stream (.message msgD, tab) =
      rawEncode P W L schema fuel msgD stream tab := by
  induction fuel generalizing msgD stream tab with
  | zero => rfl
  | succ fuel ih =>
      rw [rawEncode_succ, rawEncode_succ, view_declaredState, LuaView.luaNext_mapTable]
      cases hview : (L.view tab).luaNext with
      | error e => rfl
      | ok entries =>
          exact foldlM_kept h (luaNext_eq_ok.mp hview) (fun e he stream =>
            entryPass_declared (partEncode_declared (fun _ _ => rawByteSizeBy_declared int32)
              fun _ _ _ => ih) he _ stream) stream

theorem encode_declared {findMessage : Bytes → Option M} {heap : ℕ → UInt8} {fuel : ℕ}
    {name tab : L.Value} {s : Bytes} {msgD : M} (hname : Stack.checklstring P (L.view name) = .ok s)
    (hfind : findMessage (cstr s) = some msgD) (h : AllDeclared P L schema (.message msgD, tab)) :
    encode P W (declaredState P L schema) schema findMessage heap fuel (.value, name)
        (.message msgD, tab) =
      encode P W L schema findMessage heap fuel name tab := by
  simp only [encode, LuaView.checklstring_mapTable, hname, Fallible.ok_bind, hfind, rawByteSize,
    rawByteSizeBy_declared int32 h, rawEncode_declared h]

/-! ## What is removed from the parts -/

variable (P L) in
/-- The parts that are left, with the role of each value. -/
def declaredParts (parts : List (FieldDescriptor M × L.Value)) :
    List (FieldDescriptor M × (Role M × L.Value)) :=
  (parts.filter fun part => enumDeclared P part.1.type (L.view part.2)).map fun part =>
    (part.1, (.ofField part.1, part.2))

theorem declaredParts_cons_of_declared {part : FieldDescriptor M × L.Value}
    (h : enumDeclared P part.1.type (L.view part.2) = true)
    (parts : List (FieldDescriptor M × L.Value)) : declaredParts P L (part :: parts) =
      (part.1, (.ofField part.1, part.2)) :: declaredParts P L parts := by
  simp [declaredParts, h]

theorem declaredParts_cons_of_undeclared {part : FieldDescriptor M × L.Value}
    (h : ¬ enumDeclared P part.1.type (L.view part.2) = true)
    (parts : List (FieldDescriptor M × L.Value)) :
    declaredParts P L (part :: parts) = declaredParts P L parts := by
  simp [declaredParts, h]

theorem EntryParts.declared_iff {msgD : M} {e : LuaKey × L.Value}
    {parts : List (FieldDescriptor M × L.Value)} (h : EntryParts P L schema msgD e parts) :
    ((Role.message msgD).keeps P L schema e = true ∧
        AllDeclared P L schema ((Role.message msgD).under P schema e.1, e.2)) ↔
      ∀ part ∈ parts, EnumDeclared P part.1.type (L.view part.2) ∧
        AllDeclared P L schema (.ofField part.1, part.2) := by
  cases h with
  | undeclared hkey hfind =>
      simp [Role.keeps, Role.under, fieldOf, hkey, hfind, allDeclared_value]
  | singular hkey hfind hone =>
      simp [Role.keeps, Role.under, fieldOf, hkey, hfind, hone, enumDeclared_iff]
  | repeated hkey hfind hmany hlist =>
      simp only [Role.keeps, Role.under, fieldOf, hkey, hfind, hmany, Bool.true_or, if_true,
        true_and, List.forall_mem_map]
      rw [allDeclared_iff]
      constructor
      · intro h e he
        have := h _ hlist e he
        exact ⟨enumDeclared_iff.mp this.1, this.2⟩
      · intro h entries htab e he
        obtain rfl := LuaView.table.inj (hlist.symm.trans htab)
        exact ⟨enumDeclared_iff.mpr (h e he).1, (h e he).2⟩

theorem TableParts.declared_iff {msgD : M} {tab : L.Value}
    {parts : List (FieldDescriptor M × L.Value)} (h : TableParts P L schema msgD tab parts) :
    AllDeclared P L schema (.message msgD, tab) ↔
      ∀ part ∈ parts, EnumDeclared P part.1.type (L.view part.2) ∧
        AllDeclared P L schema (.ofField part.1, part.2) := by
  cases h with
  | @entries entries partss htab hentries =>
      have hiff : (∀ e ∈ entries, (Role.message msgD).keeps P L schema e = true ∧
          AllDeclared P L schema ((Role.message msgD).under P schema e.1, e.2)) ↔
            ∀ part ∈ partss.flatten, EnumDeclared P part.1.type (L.view part.2) ∧
              AllDeclared P L schema (.ofField part.1, part.2) := by
        clear htab
        induction hentries with
        | nil => simp
        | cons he _ ih =>
            rw [List.forall_mem_cons, he.declared_iff, ih, List.flatten_cons,
              List.forall_mem_append]
      rw [← hiff, allDeclared_iff]
      constructor
      · intro h
        exact h entries htab
      · intro h entries' htab'
        obtain rfl := LuaView.table.inj (htab.symm.trans htab')
        exact h

/-- Where nothing is removed every enum value met is a declared name. -/
theorem AllDeclared.enumsDeclared {msgD : M} {tab : L.Value}
    (h : AllDeclared P L schema (.message msgD, tab)) (fuel : ℕ) :
    EnumsDeclared P L schema fuel msgD tab := by
  intro fuel' part hvisits
  induction hvisits with
  | part hparts hmem => exact (hparts.declared_iff.mp h _ hmem).1
  | nested hparts hmem htype _ ih =>
      have hnested := (hparts.declared_iff.mp h _ hmem).2
      rw [Role.ofField, htype] at hnested
      exact ih hnested

theorem EntryParts.declared {msgD : M} {e : LuaKey × L.Value}
    {parts : List (FieldDescriptor M × L.Value)} (h : EntryParts P L schema msgD e parts)
    (hkeeps : (Role.message msgD).keeps P L schema e = true) :
    EntryParts P (declaredState P L schema) schema msgD
      (e.1, ((Role.message msgD).under P schema e.1, e.2)) (declaredParts P L parts) := by
  cases h with
  | undeclared hkey hfind => exact .undeclared hkey hfind
  | @singular _ fd hkey hfind hone =>
      simp only [Role.keeps, fieldOf, hkey, hfind, hone, Bool.false_or] at hkeeps
      simp only [Role.under, fieldOf, hkey, hfind, hone, Bool.false_eq_true, if_false,
        declaredParts, List.filter_cons, hkeeps, if_true, List.filter_nil, List.map_cons,
        List.map_nil]
      exact .singular hkey hfind hone
  | @repeated _ fd list hkey hfind hmany hlist =>
      have hparts : declaredParts P L (list.map fun e => (fd, e.2)) =
          (keptEntries P L schema (.list fd) list).map fun e => (fd, e.2) := by
        rw [declaredParts, keptEntries, List.filter_map, List.map_map, List.map_map]
        rfl
      rw [hparts]
      refine .repeated (L := declaredState P L schema) hkey hfind hmany ?_
      simp only [Role.under, fieldOf, hkey, hfind, hmany, if_true, hlist]
      rfl

theorem EntryParts.removed {msgD : M} {e : LuaKey × L.Value}
    {parts : List (FieldDescriptor M × L.Value)} (h : EntryParts P L schema msgD e parts)
    (hkeeps : (Role.message msgD).keeps P L schema e = false) : declaredParts P L parts = [] := by
  cases h with
  | undeclared => rfl
  | singular hkey hfind hone =>
      simp only [Role.keeps, fieldOf, hkey, hfind, hone, Bool.false_or] at hkeeps
      simp [declaredParts, hkeeps]
  | repeated hkey hfind hmany => simp [Role.keeps, fieldOf, hkey, hfind, hmany] at hkeeps

theorem TableParts.declared {msgD : M} {tab : L.Value}
    {parts : List (FieldDescriptor M × L.Value)} (h : TableParts P L schema msgD tab parts) :
    TableParts P (declaredState P L schema) schema msgD (.message msgD, tab)
      (declaredParts P L parts) := by
  cases h with
  | @entries entries partss htab hentries =>
      have hkept : ∃ partss', List.Forall₂ (EntryParts P (declaredState P L schema) schema msgD)
          (keptEntries P L schema (.message msgD) entries) partss' ∧
            partss'.flatten = declaredParts P L partss.flatten := by
        clear htab
        induction hentries with
        | nil => exact ⟨[], .nil, rfl⟩
        | @cons e parts entries partss he _ ih =>
            rcases ih with ⟨partss', hpartss', hflat⟩
            have hsplit : declaredParts P L (parts :: partss).flatten =
                declaredParts P L parts ++ declaredParts P L partss.flatten := by
              simp [declaredParts]
            rw [hsplit, ← hflat]
            cases hkeeps : (Role.message msgD).keeps P L schema e with
            | true =>
                refine ⟨declaredParts P L parts :: partss', ?_, rfl⟩
                rw [keptEntries, List.filter_cons_of_pos hkeeps, List.map_cons]
                exact .cons (he.declared hkeeps) hpartss'
            | false =>
                refine ⟨partss', ?_, by rw [he.removed hkeeps, List.nil_append]⟩
                rw [keptEntries, List.filter_cons_of_neg (by simp [hkeeps])]
                exact hpartss'
      rcases hkept with ⟨partss', hpartss', hflat⟩
      rw [← hflat]
      refine .entries ?_ hpartss'
      rw [view_declaredState, htab]
      rfl

/-! ## What the size pass adds for them -/

/-- A part that stays adds no more than before, and no less only if nothing is removed from
it. -/
theorem PartTerms.declared (hW : W.Documented)
    {nested : M → L.Value → Except Fault ℤ} {nested' : M → Role M × L.Value → Except Fault ℤ}
    {part : FieldDescriptor M × L.Value} {t : ℤ × ℤ} (h : PartTerms P W L id nested part t)
    (hlt : t.1 + t.2 < 2 ^ 31) (hnonneg : ∀ msgD v n, nested msgD v = .ok n → 0 ≤ n)
    (hnested : ∀ msgD v n, nested msgD v = .ok n → n < 2 ^ 31 →
      ∃ n', nested' msgD (.message msgD, v) = .ok n' ∧ 0 ≤ n' ∧ n' ≤ n ∧
        (n' = n → AllDeclared P L schema (.message msgD, v))) :
    ∃ t', PartTerms P W (declaredState P L schema) id nested'
        (part.1, (.ofField part.1, part.2)) t' ∧ t'.1 + t'.2 ≤ t.1 + t.2 ∧
      (t'.1 + t'.2 = t.1 + t.2 → AllDeclared P L schema (.ofField part.1, part.2)) := by
  have htag : ∀ number, 0 ≤ tagSize W number := fun number => Int.natCast_nonneg _
  cases h with
  | scalar htype hsize =>
      refine ⟨_, .scalar htype ?_, le_rfl, fun _ => ?_⟩
      · rw [view_declaredState, LuaView.fieldSizeBy_mapTable]
        exact hsize
      · simp only [Role.ofField, htype]
        exact allDeclared_value _
  | @repeated fd value messageType size htype hmany hsize =>
      have htag := htag fd.number
      have hsize0 := hnonneg _ _ _ hsize
      simp only [id] at hlt ⊢
      rcases hnested _ _ _ hsize (by omega) with ⟨n', hn', hn'0, hle, heq⟩
      have hmono : W.varintSize32 (BitVec.ofInt 32 n') ≤ W.varintSize32 (BitVec.ofInt 32 size) := by
        rw [hW.varintSize32, hW.varintSize32, BitVec.toNat_ofInt, BitVec.toNat_ofInt]
        exact Varint.length_encode_mono (by omega)
      refine ⟨_, .repeated htype hmany (by simpa only [Role.ofField, htype] using hn'), ?_, ?_⟩
      · simp only [id]
        omega
      · simp only [id, Role.ofField, htype]
        intro h
        exact heq (by omega)
  | @singular fd value messageType size htype hone hsize =>
      have htag := htag fd.number
      simp only at hlt ⊢
      rcases hnested _ _ _ hsize (by omega) with ⟨n', hn', hn'0, hle, heq⟩
      refine ⟨_, .singular htype hone (by simpa only [Role.ofField, htype] using hn'), ?_, ?_⟩
      · simp only
        omega
      · simp only [Role.ofField, htype]
        intro h
        exact heq (by omega)

/-- A part that is removed has added its tag. -/
theorem PartTerms.removed_pos (hW : W.Documented) {nested : M → L.Value → Except Fault ℤ}
    (hnonneg : ∀ msgD v n, nested msgD v = .ok n → 0 ≤ n)
    {part : FieldDescriptor M × L.Value} {t : ℤ × ℤ} (h : PartTerms P W L id nested part t) :
    0 < t.1 + t.2 := by
  have hpos : 0 < tagSize W part.1.number := Int.natCast_pos.mpr (varintSize32_pos hW _)
  have hrest := (h.nonneg hnonneg).2
  have htag : t.1 = tagSize W part.1.number := by
    cases h <;> rfl
  omega

/-- The terms of the parts that stay. -/
theorem terms_declared (hW : W.Documented)
    {nested : M → L.Value → Except Fault ℤ} {nested' : M → Role M × L.Value → Except Fault ℤ}
    (hnonneg : ∀ msgD v n, nested msgD v = .ok n → 0 ≤ n)
    (hnested : ∀ msgD v n, nested msgD v = .ok n → n < 2 ^ 31 →
      ∃ n', nested' msgD (.message msgD, v) = .ok n' ∧ 0 ≤ n' ∧ n' ≤ n ∧
        (n' = n → AllDeclared P L schema (.message msgD, v)))
    {parts : List (FieldDescriptor M × L.Value)} {terms : List (ℤ × ℤ)}
    (h : List.Forall₂ (PartTerms P W L id nested) parts terms)
    (hlt : (terms.map fun t => t.1 + t.2).sum < 2 ^ 31) :
    ∃ terms', List.Forall₂ (PartTerms P W (declaredState P L schema) id nested')
        (declaredParts P L parts) terms' ∧
      (terms'.map fun t => t.1 + t.2).sum ≤ (terms.map fun t => t.1 + t.2).sum ∧
      ((terms'.map fun t => t.1 + t.2).sum = (terms.map fun t => t.1 + t.2).sum →
        ∀ part ∈ parts, EnumDeclared P part.1.type (L.view part.2) ∧
          AllDeclared P L schema (.ofField part.1, part.2)) := by
  induction h with
  | nil => exact ⟨[], .nil, le_rfl, fun _ part hpart => nomatch hpart⟩
  | @cons part t parts terms hterm hterms ih =>
      have hpos := hterm.removed_pos hW hnonneg
      have hsum := sum_nonneg (terms_nonneg hnonneg hterms)
      rw [List.map_cons, List.sum_cons] at hlt ⊢
      rcases ih (by omega) with ⟨terms', hterms', hle, heq⟩
      by_cases hdeclared : enumDeclared P part.1.type (L.view part.2) = true
      · rcases hterm.declared hW (by omega) hnonneg hnested with ⟨t', hterm', htle, hteq⟩
        refine ⟨t' :: terms', ?_, ?_, ?_⟩
        · rw [declaredParts_cons_of_declared hdeclared]
          exact .cons hterm' hterms'
        · rw [List.map_cons, List.sum_cons]
          omega
        · rw [List.map_cons, List.sum_cons, List.forall_mem_cons]
          intro h
          exact ⟨⟨enumDeclared_iff.mp hdeclared, hteq (by omega)⟩, heq (by omega)⟩
      · refine ⟨terms', ?_, by omega, fun h => ?_⟩
        · rw [declaredParts_cons_of_undeclared hdeclared]
          exact hterms'
        · omega

/-- The exact size is no smaller without the removed entries only if none was removed. -/
theorem exactSize_declared (hW : W.Documented) {fuel : ℕ} {msgD : M} {tab : L.Value} {n : ℤ}
    (h : rawByteSizeBy P W L schema id fuel msgD tab = .ok n) (hlt : n < 2 ^ 31) :
    ∃ n', rawByteSizeBy P W (declaredState P L schema) schema id fuel msgD (.message msgD, tab) =
        .ok n' ∧ 0 ≤ n' ∧ n' ≤ n ∧ (n' = n → AllDeclared P L schema (.message msgD, tab)) := by
  induction fuel generalizing msgD tab n with
  | zero => cases h
  | succ fuel ih =>
      rcases rawByteSizeBy_eq_ok.mp h with ⟨terms, ⟨parts, hparts, hterms⟩, rfl⟩
      rw [foldl_addTerms_id, Int.zero_add] at hlt ⊢
      rcases terms_declared hW (fun _ _ _ => exactSize_nonneg) (fun _ _ _ => ih) hterms hlt with
        ⟨terms', hterms', hle, heq⟩
      have hsize : rawByteSizeBy P W (declaredState P L schema) schema id (fuel + 1) msgD
          (.message msgD, tab) = .ok (terms'.map fun t => t.1 + t.2).sum :=
        rawByteSizeBy_eq_ok.mpr ⟨terms', ⟨_, hparts.declared, hterms'⟩,
          by rw [foldl_addTerms_id, Int.zero_add]⟩
      refine ⟨_, hsize, exactSize_nonneg hsize, hle, fun h => ?_⟩
      exact hparts.declared_iff.mpr (heq h)

/-! ## `Encode` -/

/-- What is asked of `Encode` on a table with undeclared names: it raises an error or does
what it does without them, and neither the result nor a length prefix counts bytes that
are not written. The last two are asked where the sizes of all other values are right. -/
structure UndeclaredAbsent (P : Platform) (W : WireFormatLite) (L : LuaState) (schema : Schema M)
    (findMessage : Bytes → Option M) (heap : ℕ → UInt8) (fuel : ℕ) (name : L.Value) (msgD : M)
    (tab : L.Value) : Prop where
  encode_eq : (∃ e, encode P W L schema findMessage heap fuel name tab = .error (.luaError e)) ∨
    encode P W L schema findMessage heap fuel name tab =
      encode P W (declaredState P L schema) schema findMessage heap fuel (.value, name)
        (.message msgD, tab)
  written : (∀ msgD, ∀ fd ∈ (schema msgD).field, Sized fd.type) →
    ∀ n, rawByteSizeBy P W L schema id fuel msgD tab = .ok n → n < 2 ^ 31 →
    ∀ bytes, encode P W L schema findMessage heap fuel name tab = .ok (some bytes) →
    rawEncode P W L schema fuel msgD [] tab = .ok bytes
  prefix_le : (∀ msgD, ∀ fd ∈ (schema msgD).field, Sized fd.type) →
    ∀ n, rawByteSizeBy P W L schema id fuel msgD tab = .ok n → n < 2 ^ 31 →
    ∀ fuel' fd value messageType, Visits P L schema fuel msgD tab fuel' (fd, value) →
    fd.type.messageType? = some messageType →
    ∀ payload, rawEncode P W L schema fuel' messageType [] value = .ok payload →
    ∃ size, rawByteSize P W L schema fuel' messageType value = .ok size ∧ size ≤ payload.length

/-- The buffer is returned as a whole. -/
theorem length_buffer {heap : ℕ → UInt8} {size : BitVec 32} {written bytes : Bytes}
    (h : buffer heap size written = .ok bytes) : bytes.length = size.toNat := by
  rw [buffer] at h
  split at h
  · cases h
  · cases h
    simp
    omega

/-- A buffer that is no larger than what is written is full. -/
theorem buffer_of_le {heap : ℕ → UInt8} {size : BitVec 32} {written bytes : Bytes}
    (h : buffer heap size written = .ok bytes) (hle : size.toNat ≤ written.length) :
    bytes = written := by
  rw [buffer] at h
  split at h
  · cases h
  · cases h
    rw [Nat.sub_eq_zero_of_le hle, List.range'_zero, List.map_nil, List.append_nil]

theorem encode_eq_some {findMessage : Bytes → Option M} {heap : ℕ → UInt8} {fuel : ℕ}
    {name tab : L.Value} {s : Bytes} {msgD : M} (hname : Stack.checklstring P (L.view name) = .ok s)
    (hfind : findMessage (cstr s) = some msgD) {bytes : Bytes}
    (h : encode P W L schema findMessage heap fuel name tab = .ok (some bytes)) :
    ∃ size written, rawByteSize P W L schema fuel msgD tab = .ok size ∧
      rawEncode P W L schema fuel msgD [] tab = .ok written ∧
      buffer heap (BitVec.ofInt 32 size) written = .ok bytes := by
  simp only [encode, hname, Fallible.ok_bind, hfind] at h
  rcases Fallible.bind_eq_ok.mp h with ⟨size, hsize, h⟩
  rcases Fallible.bind_eq_ok.mp h with ⟨written, hwritten, h⟩
  rcases Fallible.bind_eq_ok.mp h with ⟨result, hresult, h⟩
  obtain rfl := Option.some.inj (Fallible.pure_eq_ok.mp h)
  exact ⟨size, written, hsize, hwritten, hresult⟩

theorem toNat_ofInt_of_lt {n : ℤ} (hnonneg : 0 ≤ n) (hlt : n < 2 ^ 31) :
    ((BitVec.ofInt 32 n).toNat : ℤ) = n := by
  rw [BitVec.toNat_ofInt]
  omega

/-- Without undeclared names nothing is removed, and no byte is reserved in vain. -/
theorem undeclaredAbsent_of_allDeclared (hW : W.Documented) {findMessage : Bytes → Option M}
    {heap : ℕ → UInt8} {fuel : ℕ} {name tab : L.Value} {s : Bytes} {msgD : M}
    (hname : Stack.checklstring P (L.view name) = .ok s) (hfind : findMessage (cstr s) = some msgD)
    (h : AllDeclared P L schema (.message msgD, tab)) :
    UndeclaredAbsent P W L schema findMessage heap fuel name msgD tab where
  encode_eq := .inr (encode_declared hname hfind h).symm
  written := by
    intro hsized n hn hlt bytes hencode
    rcases encode_eq_some hname hfind hencode with ⟨size, written, hsize, hwritten, hbuffer⟩
    obtain rfl := Except.ok.inj (hsize.symm.trans (rawByteSize_of_exact hn hlt))
    have hle := (exactSize_le hW hsized (h.enumsDeclared fuel) hn hlt hwritten).1
    have htoNat := toNat_ofInt_of_lt (exactSize_nonneg hn) hlt
    rw [buffer_of_le hbuffer (by omega)]
    exact hwritten
  prefix_le := by
    intro hsized n hn hlt fuel' fd value messageType hvisits htype payload hpayload
    rcases visited_message hvisits htype hn with ⟨m, hm, hmle⟩
    have hmlt : m < 2 ^ 31 := by omega
    exact ⟨m, rawByteSize_of_exact hm hmlt, (exactSize_le hW hsized
      ((h.enumsDeclared fuel).visited hvisits htype) hm hmlt hpayload).1⟩

/-- `Encode` treats undeclared names as absent where there are none, and only there when it
returns a string of less than `2 ^ 31` bytes. -/
theorem undeclaredAbsent_iff (hW : W.Documented) {findMessage : Bytes → Option M}
    {heap : ℕ → UInt8} {fuel : ℕ} {name tab : L.Value} {s : Bytes} {msgD : M}
    (hname : Stack.checklstring P (L.view name) = .ok s)
    (hfind : findMessage (cstr s) = some msgD) :
    (AllDeclared P L schema (.message msgD, tab) →
        UndeclaredAbsent P W L schema findMessage heap fuel name msgD tab) ∧
      ∀ bytes n, encode P W L schema findMessage heap fuel name tab = .ok (some bytes) →
        rawByteSizeBy P W L schema id fuel msgD tab = .ok n → n < 2 ^ 31 →
        UndeclaredAbsent P W L schema findMessage heap fuel name msgD tab →
        AllDeclared P L schema (.message msgD, tab) := by
  refine ⟨undeclaredAbsent_of_allDeclared hW hname hfind, ?_⟩
  intro bytes n hencode hn hlt habsent
  have hencode' : encode P W (declaredState P L schema) schema findMessage heap fuel (.value, name)
      (.message msgD, tab) = .ok (some bytes) := by
    rcases habsent.encode_eq with ⟨e, he⟩ | heq
    · cases hencode.symm.trans he
    · exact heq.symm.trans hencode
  have hname' : Stack.checklstring P ((declaredState P L schema).view (.value, name)) = .ok s := by
    rw [view_declaredState, LuaView.checklstring_mapTable]
    exact hname
  rcases exactSize_declared hW hn hlt with ⟨n', hn', hnonneg, hle, heq⟩
  -- both results fill a buffer of the size that was computed for them
  rcases encode_eq_some hname hfind hencode with ⟨size, _, hsize, _, hbuffer⟩
  rcases encode_eq_some hname' hfind hencode' with ⟨size', _, hsize', _, hbuffer'⟩
  obtain rfl := Except.ok.inj (hsize.symm.trans (rawByteSize_of_exact hn hlt))
  obtain rfl := Except.ok.inj (hsize'.symm.trans (rawByteSize_of_exact hn' (by omega)))
  have hlength := (length_buffer hbuffer).symm.trans (length_buffer hbuffer')
  have hsize := toNat_ofInt_of_lt (hnonneg.trans hle) hlt
  have hsize' := toNat_ofInt_of_lt hnonneg (hle.trans_lt hlt)
  exact heq (by omega)

/-- `{type = "HOME"}` -/
theorem undeclaredAbsent_home :
    let tab : LuaTree := .table [(.string [116, 121, 112, 101], .string [72, 79, 77, 69])]
    UndeclaredAbsent (.plain .x64) .reference LuaTree.state AddressBook.schema
      AddressBook.findMessage (fun _ => 170) 1 (.string (AddressBook.fullName .phoneNumber))
      .phoneNumber tab := by
  intro tab
  have hparts : TableParts (.plain .x64) LuaTree.state AddressBook.schema .phoneNumber tab _ :=
    .entries rfl (.cons (.singular rfl rfl rfl) .nil)
  have hdeclared : AllDeclared (.plain .x64) LuaTree.state AddressBook.schema
      (.message .phoneNumber, tab) := by
    refine hparts.declared_iff.mpr (List.forall_mem_singleton.mpr ⟨?_, allDeclared_value _⟩)
    rintro _ _ ⟨⟩ ⟨⟩
    decide
  exact (undeclaredAbsent_iff WireFormatLite.reference_documented rfl (by decide)).1 hdeclared

/-- `{type = "FOO"}`: the only byte that is returned is one the allocator left. -/
theorem not_undeclaredAbsent_foo :
    let tab : LuaTree := .table [(.string [116, 121, 112, 101], .string [70, 79, 79])]
    encode (.plain .x64) .reference LuaTree.state AddressBook.schema AddressBook.findMessage
        (fun _ => 170) 1 (.string (AddressBook.fullName .phoneNumber)) tab = .ok (some [170]) ∧
      rawEncode (.plain .x64) .reference LuaTree.state AddressBook.schema 1 .phoneNumber [] tab =
        .ok [] ∧
      ¬ UndeclaredAbsent (.plain .x64) .reference LuaTree.state AddressBook.schema
        AddressBook.findMessage (fun _ => 170) 1 (.string (AddressBook.fullName .phoneNumber))
        .phoneNumber tab := by
  intro tab
  have hencode : encode (.plain .x64) .reference LuaTree.state AddressBook.schema
      AddressBook.findMessage (fun _ => 170) 1 (.string (AddressBook.fullName .phoneNumber)) tab =
        .ok (some [170]) := by decide +kernel
  have hremoved : encode (.plain .x64) .reference
      (declaredState (.plain .x64) LuaTree.state AddressBook.schema) AddressBook.schema
      AddressBook.findMessage (fun _ => 170) 1
      (.value, (.string (AddressBook.fullName .phoneNumber) : LuaTree))
      (.message .phoneNumber, tab) = .ok (some []) := by decide +kernel
  refine ⟨hencode, by decide +kernel, fun h => ?_⟩
  rcases h.encode_eq with ⟨e, he⟩ | heq
  · cases hencode.symm.trans he
  · cases hencode.symm.trans (heq.trans hremoved)

end Luapb

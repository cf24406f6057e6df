import Luapb.Verification.RoundTrip.Equality
import Luapb.Verification.Decoder.Meaning
import Mathlib.Data.List.Induction

/-! # The contents of a message

What a sequence of records says, apart from Lua: for each record a field and its value.
A table shows contents if it has, under the name of each field, what the records of that
field leave: all their values in a list, or the last of them. -/

namespace Luapb

open Ieee754 Wire PBStream

/-- The value of a record. A number that its enum does not declare is no value. -/
inductive FieldValue (M : Type)
  | scalar (x : Scalar)
  | undeclared
  | message (fields : List (FieldDescriptor M × FieldValue M))

/-- The records of a message, in wire order. -/
abbrev Fields (M : Type) := List (FieldDescriptor M × FieldValue M)

variable {M : Type}

/-- The scalar a payload carries, if the enum declares it. Integers are taken modulo the
width of their type. -/
inductive Carries : FieldType M → Bytes → Option Scalar → Prop
  | float {bytes n} (h : readFixed32 bytes = some (n, [])) :
      Carries .float bytes (some (.float (Binary.ofBits binary32 n)))
  | int32 {bytes n} (h : Varint.decode bytes = some (n, [])) :
      Carries .int32 bytes (some (.int32 (BitVec.ofNat 32 n)))
  | uint32 {bytes n} (h : Varint.decode bytes = some (n, [])) :
      Carries .uint32 bytes (some (.uint32 (BitVec.ofNat 32 n)))
  | bool {bytes n} (h : Varint.decode bytes = some (n, [])) :
      Carries .bool bytes (some (.bool (decide (n % 2 ^ 64 ≠ 0))))
  | string {lengthBytes body} (h : Varint.decode lengthBytes = some (body.length, []))
      (hlt : body.length < 2 ^ 31) : Carries .string (lengthBytes ++ body) (some (.string body))
  | enum {enumType bytes n} (h : Varint.decode bytes = some (n, [])) :
      Carries (.enum enumType) bytes
        ((enumType.findValueByNumber (BitVec.ofNat 32 n)).map Scalar.enum)

/-- Complete sequences of records of declared fields in their wire types, with messages
nested no deeper than `budget`. -/
inductive Contents (schema : Schema M) : ℕ → M → Bytes → Fields M → Prop
  | nil {budget msgD} : Contents schema budget msgD [] []
  | scalar {budget msgD fd tagBytes payload x rest fields} (hmem : fd ∈ (schema msgD).field)
      (htag : Varint.decode tagBytes = some (tag fd.number fd.type.wireType, []))
      (hcarries : Carries fd.type payload x) (hrest : Contents schema budget msgD rest fields) :
      Contents schema budget msgD (tagBytes ++ (payload ++ rest))
        ((fd, x.elim .undeclared .scalar) :: fields)
  | message {budget msgD fd messageType tagBytes lengthBytes body inner rest fields}
      (hmem : fd ∈ (schema msgD).field) (htype : fd.type = .message messageType)
      (htag : Varint.decode tagBytes = some (tag fd.number .lengthDelimited, []))
      (hlength : Varint.decode lengthBytes = some (body.length, []))
      (hlt : body.length < 2 ^ 31) (hbody : Contents schema budget messageType body inner)
      (hrest : Contents schema (budget + 1) msgD rest fields) :
      Contents schema (budget + 1) msgD (tagBytes ++ (lengthBytes ++ (body ++ rest)))
        ((fd, .message inner) :: fields)

theorem Contents.append {schema : Schema M} {budget : ℕ} {msgD : M} {bytes more : Bytes}
    {fields moreFields : Fields M} (h : Contents schema budget msgD bytes fields)
    (k : Contents schema budget msgD more moreFields) :
    Contents schema budget msgD (bytes ++ more) (fields ++ moreFields) := by
  induction h with
  | nil => exact k
  | scalar hmem htag hcarries _ ih =>
      simpa only [List.append_assoc] using .scalar hmem htag hcarries (ih k)
  | message hmem htype htag hlength hlt hbody _ _ ih =>
      simpa only [List.append_assoc] using .message hmem htype htag hlength hlt hbody (ih k)

/-! ## What a table shows -/

namespace FieldValue

/-- Whether a record leaves a value. -/
def isDeclared : FieldValue M → Bool
  | .undeclared => false
  | _ => true

end FieldValue

/-- The values of a field, in wire order. -/
def retained (fd : FieldDescriptor M) (fields : Fields M) : List (FieldValue M) :=
  (fields.filter fun f => f.1.number = fd.number ∧ f.2.isDeclared).map (·.2)

/-- Those of them that a table shows. -/
def keptValues (fd : FieldDescriptor M) (fields : Fields M) : List (FieldValue M) :=
  if fd.isRepeated then retained fd fields else (retained fd fields).getLast?.toList

/-- A Lua value shows a value: the scalar itself, or a table with the fields of a message.
A repeated field is a list with the keys from 1 on. -/
inductive Shows : FieldValue M → LuaTree → Prop
  | scalar {x tree} (h : x.Represents tree.view) : Shows (.scalar x) tree
  | message {fields : Fields M} {tab : LuaTable}
      (hkeys : ∀ k, (tab.get k).isSome ↔
        ∃ f ∈ fields, k = .string f.1.name ∧ retained f.1 fields ≠ [])
      (hsingular : ∀ f ∈ fields, f.1.isRepeated = false → ∀ v tree,
        (retained f.1 fields).getLast? = some v → tab.get (.string f.1.name) = some tree →
        Shows v tree)
      (hlist : ∀ f ∈ fields, f.1.isRepeated = true → ∀ tree,
        tab.get (.string f.1.name) = some tree → ∃ list : LuaTable, tree = .table list ∧
          ∀ k, (list.get k).isSome ↔ ∃ i < (retained f.1 fields).length, k = .integer (i + 1))
      (hitems : ∀ f ∈ fields, f.1.isRepeated = true → ∀ (list : LuaTable) (i : ℕ) v tree,
        tab.get (.string f.1.name) = some (.table list) → (retained f.1 fields)[i]? = some v →
        list.get (.integer (i + 1)) = some tree → Shows v tree) :
      Shows (.message fields) (.table tab)

/-- The scalars that end up in the table of a message, at any depth. -/
inductive Kept : Fields M → Scalar → Prop
  | scalar {fields f x} (hmem : f ∈ fields) (hkept : .scalar x ∈ keptValues f.1 fields) :
      Kept fields x
  | nested {fields f inner x} (hmem : f ∈ fields) (hkept : .message inner ∈ keptValues f.1 fields)
      (hinner : Kept inner x) : Kept fields x

/-! ## What the decoder stores -/

/-- What `ReadValue` pushes for a scalar. -/
def Scalar.push (P : Platform) : Scalar → LuaTree
  | .float x => .number (Stack.pushFloat x)
  | .int32 v => .number (Stack.pushInt v)
  | .uint32 v => .number (Stack.pushUnsigned P v)
  | .bool b => .boolean b
  | .string s => .string s
  | .enum value => .string value.name
  | .int64 v => .string (decimal v.toInt)
  | .uint64 v => .string (decimal v.toNat)

/-- Values filled into a table one after the other. -/
def fillAll (P : Platform) (tab : LuaTable) (stores : List (FieldDescriptor M × LuaTree)) :
    LuaTable :=
  stores.foldl (fun tab s => fillValue P tab s.1 s.2) tab

/-- What is stored for a record, if anything is. -/
def FieldValue.push (P : Platform) : FieldValue M → Option LuaTree
  | .scalar x => some (x.push P)
  | .undeclared => none
  | .message fields => some (.table (fillAll P []
      (fields.filterMap fun f => (f.2.push P).map fun tree => (f.1, tree))))
termination_by v => sizeOf v
decreasing_by
  have hlt := List.sizeOf_lt_of_mem ‹f ∈ fields›
  cases f
  simp only [Prod.mk.sizeOf_spec] at hlt
  simp only [FieldValue.message.sizeOf_spec]
  omega

/-- What is stored for the records of a message. -/
def storesOf (P : Platform) (fields : Fields M) : List (FieldDescriptor M × LuaTree) :=
  fields.filterMap fun f => (f.2.push P).map fun tree => (f.1, tree)

variable {P : Platform}

@[simp] theorem FieldValue.push_scalar (x : Scalar) :
    (FieldValue.scalar x : FieldValue M).push P = some (x.push P) := by rw [FieldValue.push]

@[simp] theorem FieldValue.push_undeclared :
    (FieldValue.undeclared : FieldValue M).push P = none := by rw [FieldValue.push]

@[simp] theorem FieldValue.push_message (fields : Fields M) :
    (FieldValue.message fields).push P = some (.table (fillAll P [] (storesOf P fields))) := by
  rw [FieldValue.push, storesOf]

theorem FieldValue.push_isSome (v : FieldValue M) : (v.push P).isSome = v.isDeclared := by
  cases v <;> simp [isDeclared]

theorem storesOf_append (fields more : Fields M) :
    storesOf P (fields ++ more) = storesOf P fields ++ storesOf P more := List.filterMap_append

theorem fillAll_single (tab : LuaTable) (fd : FieldDescriptor M) {v : FieldValue M}
    {tree : LuaTree} (h : v.push P = some tree) :
    fillAll P tab (storesOf P [(fd, v)]) = fillValue P tab fd tree := by
  simp [storesOf, fillAll, h]

theorem fillAll_append (tab : LuaTable) (stores more : List (FieldDescriptor M × LuaTree)) :
    fillAll P tab (stores ++ more) = fillAll P (fillAll P tab stores) more := List.foldl_append

/-- A payload is read as the scalar it carries. -/
theorem Carries.reads {type : FieldType M} {payload : Bytes} {x : Option Scalar}
    (h : Carries type payload x) :
    ScalarReads P type payload ((x.elim .undeclared .scalar : FieldValue M).push P) := by
  cases h with
  | @float bytes n h =>
      rcases fixed32_of_readFixed32 h with ⟨hlt, rfl⟩
      have hread := ScalarReads.float (M := M) (P := P) (Binary.ofBits binary32 n)
      rw [Binary.toBits_ofBits (F := binary32) hlt] at hread
      simp only [Option.elim_some, FieldValue.push_scalar]
      exact hread
  | int32 h => simpa using .int32 h
  | uint32 h => simpa using .uint32 h
  | bool h =>
      simp only [Option.elim_some, FieldValue.push_scalar]
      exact .bool h
  | string h hlt => simpa using .string h hlt
  | @enum enumType _ n h =>
      have hread : ScalarReads P (.enum enumType : FieldType M) payload _ := .enum h
      cases hfind : enumType.findValueByNumber (BitVec.ofNat 32 n) <;>
        simpa [hfind, Scalar.push] using hread

/-- The records denote what is stored for them. -/
theorem Contents.denotes {schema : Schema M} {budget : ℕ} {msgD : M} {bytes : Bytes}
    {fields : Fields M} (h : Contents schema budget msgD bytes fields) (tab : LuaTable) :
    Denotes P schema budget msgD tab bytes (fillAll P tab (storesOf P fields)) := by
  induction h generalizing tab with
  | nil => exact .nil
  | @scalar budget msgD fd tagBytes payload x rest fields hmem htag hcarries _ ih =>
      refine .value hmem htag hcarries.reads ?_
      cases x with
      | none => simpa [storesOf] using ih tab
      | some x => simpa [storesOf, fillAll] using ih (fillValue P tab fd (x.push P))
  | @message budget msgD fd messageType tagBytes lengthBytes body inner rest fields hmem htype htag
      hlength hlt _ _ ihb ih =>
      refine .message hmem htype htag hlength hlt (ihb []) ?_
      simpa [storesOf, fillAll] using
        ih (fillValue P tab fd (.table (fillAll P [] (storesOf P inner))))

/-! ## What is under a field's name -/

/-- The list of a repeated field, which exists once it has an element. -/
def listed (trees : List LuaTree) : Option LuaTree :=
  if trees = [] then none else some (.table (LuaTable.ofList trees))

/-- What was stored for a field. -/
def treesOf (fd : FieldDescriptor M) (stores : List (FieldDescriptor M × LuaTree)) :
    List LuaTree :=
  (stores.filter fun s => s.1.number = fd.number).map (·.2)

/-- What is left of it. -/
def collected (fd : FieldDescriptor M) (stores : List (FieldDescriptor M × LuaTree)) :
    Option LuaTree :=
  if fd.isRepeated then listed (treesOf fd stores) else (treesOf fd stores).getLast?

theorem Descriptor.eq_of_name {d : Descriptor M} {fd fd' : FieldDescriptor M} (h : fd ∈ d.field)
    (h' : fd' ∈ d.field) (heq : fd.name = fd'.name) : fd = fd' := by
  have hfind := Descriptor.findFieldByName_of_mem h
  rw [heq, Descriptor.findFieldByName_of_mem h'] at hfind
  exact (Option.some.inj hfind).symm

theorem Descriptor.eq_of_number {d : Descriptor M} {fd fd' : FieldDescriptor M} (h : fd ∈ d.field)
    (h' : fd' ∈ d.field) (heq : fd.number = fd'.number) : fd = fd' := by
  have hfind := Descriptor.findFieldByNumber_of_mem h
  rw [heq, Descriptor.findFieldByNumber_of_mem h'] at hfind
  exact (Option.some.inj hfind).symm

theorem treesOf_concat_self (fd : FieldDescriptor M)
    (stores : List (FieldDescriptor M × LuaTree)) (tree : LuaTree) :
    treesOf fd (stores ++ [(fd, tree)]) = treesOf fd stores ++ [tree] := by
  simp [treesOf]

theorem treesOf_concat_of_ne {fd fd' : FieldDescriptor M} (h : fd'.number ≠ fd.number)
    (stores : List (FieldDescriptor M × LuaTree)) (tree : LuaTree) :
    treesOf fd (stores ++ [(fd', tree)]) = treesOf fd stores := by
  simp [treesOf, h]

theorem treesOf_append (fd : FieldDescriptor M) (stores more : List (FieldDescriptor M × LuaTree)) :
    treesOf fd (stores ++ more) = treesOf fd stores ++ treesOf fd more := by
  simp [treesOf]

/-- Filling in a value touches the field's name alone. -/
theorem get_fillValue_of_ne (tab : LuaTable) {fd : FieldDescriptor M} {k : LuaKey}
    (h : k ≠ .string fd.name) (tree : LuaTree) : (fillValue P tab fd tree).get k = tab.get k := by
  rw [fillValue]
  split
  · split <;> exact LuaTable.get_set_of_ne tab h _
  · exact LuaTable.get_set_of_ne tab h _

theorem get_fillValue_singular (tab : LuaTable) {fd : FieldDescriptor M}
    (h : fd.isRepeated = false) (tree : LuaTree) :
    (fillValue P tab fd tree).get (.string fd.name) = some tree := by
  rw [fillValue, h]
  exact LuaTable.get_set_self _ _ _

/-- A name that is in the table stays in it. -/
theorem isSome_get_fillValue {tab : LuaTable} {k : LuaKey} (h : (tab.get k).isSome)
    (fd : FieldDescriptor M) (tree : LuaTree) : ((fillValue P tab fd tree).get k).isSome := by
  by_cases hk : k = .string fd.name
  · subst hk
    rw [fillValue]
    split
    · split <;> exact Option.isSome_of_eq_some (LuaTable.get_set_self _ _ _)
    · exact Option.isSome_of_eq_some (LuaTable.get_set_self _ _ _)
  · rw [get_fillValue_of_ne tab hk]
    exact h

theorem get_fillValue_repeated {tab : LuaTable} {fd : FieldDescriptor M}
    (h : fd.isRepeated = true) {trees : List LuaTree}
    (hget : tab.get (.string fd.name) = listed trees) (tree : LuaTree) :
    (fillValue P tab fd tree).get (.string fd.name) = listed (trees ++ [tree]) := by
  have hlist : listed (trees ++ [tree]) = some (.table (LuaTable.ofList (trees ++ [tree]))) :=
    if_neg (by simp)
  rw [fillValue, if_pos h, hget, hlist]
  by_cases hnil : trees = []
  · subst hnil
    simp only [listed, if_true, LuaTable.luaLRef_nil, List.nil_append]
    exact LuaTable.get_set_self _ _ _
  · simp only [listed, if_neg hnil, LuaTable.luaLRef_ofList]
    exact LuaTable.get_set_self _ _ _

/-- The records of a field alone decide what is under its name. -/
theorem get_fillAll {d : Descriptor M} {stores : List (FieldDescriptor M × LuaTree)}
    (hmem : ∀ s ∈ stores, s.1 ∈ d.field) {fd : FieldDescriptor M} (hfd : fd ∈ d.field) :
    (fillAll P [] stores).get (.string fd.name) = collected fd stores := by
  induction stores using List.reverseRecOn with
  | nil =>
      cases hmany : fd.isRepeated <;>
        simp [fillAll, collected, treesOf, listed, hmany, LuaTable.get]
  | append_singleton stores s ih =>
      rcases s with ⟨fd', tree⟩
      have hfd' : fd' ∈ d.field := hmem (fd', tree) (by simp)
      have ih := ih fun s hs => hmem s (List.mem_append_left _ hs)
      rw [fillAll_append]
      by_cases heq : fd' = fd
      · subst heq
        rw [collected, treesOf_concat_self]
        rw [collected] at ih
        cases hmany : fd'.isRepeated with
        | true =>
            simp only [hmany, if_true] at ih ⊢
            exact get_fillValue_repeated hmany ih tree
        | false =>
            simp only [Bool.false_eq_true, if_false, List.getLast?_concat]
            exact get_fillValue_singular _ hmany tree
      · have hname : (LuaKey.string fd.name) ≠ .string fd'.name := by
          intro h
          exact heq (Descriptor.eq_of_name hfd' hfd (LuaKey.string.inj h).symm)
        have hnumber : fd'.number ≠ fd.number :=
          fun h => heq (Descriptor.eq_of_number hfd' hfd h)
        rw [collected, treesOf_concat_of_ne hnumber, ← collected, ← ih]
        exact get_fillValue_of_ne _ hname tree

/-- Nothing else is in the table. -/
theorem get_fillAll_of_ne {tab : LuaTable} {stores : List (FieldDescriptor M × LuaTree)}
    {k : LuaKey} (h : ∀ s ∈ stores, k ≠ .string s.1.name) :
    (fillAll P tab stores).get k = tab.get k := by
  induction stores generalizing tab with
  | nil => rfl
  | cons s stores ih =>
      rcases List.forall_mem_cons.mp h with ⟨hs, hstores⟩
      exact (ih hstores).trans (get_fillValue_of_ne tab hs s.2)

/-- The values of a field and what is stored for them. -/
theorem retained_push (fd : FieldDescriptor M) (fields : Fields M) :
    List.Forall₂ (fun v tree => v.push P = some tree) (retained fd fields)
      (treesOf fd (storesOf P fields)) := by
  induction fields with
  | nil => exact .nil
  | cons f fields ih =>
      rcases f with ⟨fd', v⟩
      cases hpush : v.push P with
      | none =>
          have hundeclared : v.isDeclared = false := by
            rw [← FieldValue.push_isSome (P := P), hpush]
            rfl
          simpa [retained, storesOf, hpush, hundeclared] using ih
      | some tree =>
          have hdeclared : v.isDeclared = true := by
            rw [← FieldValue.push_isSome (P := P), hpush]
            rfl
          by_cases hnumber : fd'.number = fd.number
          · simpa [retained, storesOf, treesOf, hpush, hdeclared, hnumber] using ih
          · simpa [retained, storesOf, treesOf, hpush, hnumber] using ih

end Luapb

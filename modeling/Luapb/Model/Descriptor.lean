import Luapb.Library.Wire
import Luapb.Model.Lua

/-! # Descriptors

The schema data the library reads from protobuf's descriptor objects. `M` stands
for pointers to message descriptors: a message type names others, itself included,
by pointer, and a `Schema` follows the pointers. -/

namespace Luapb

structure EnumValueDescriptor where
  name : Bytes
  number : BitVec 32
deriving DecidableEq

/-- Names are unique in an enum; numbers need not be. -/
structure EnumDescriptor where
  value : List EnumValueDescriptor
  names_nodup : (value.map (·.name)).Nodup

namespace EnumDescriptor

def findValueByName (e : EnumDescriptor) (name : Bytes) : Option EnumValueDescriptor :=
  e.value.find? (·.name = name)

/-- Of several names with one number the first one declared. -/
def findValueByNumber (e : EnumDescriptor) (number : BitVec 32) : Option EnumValueDescriptor :=
  e.value.find? (·.number = number)

end EnumDescriptor

/-- `FieldDescriptor::Type`, with the descriptor that `message_type()` or
`enum_type()` returns for the types that have one. -/
inductive FieldType (M : Type)
  | double
  | float
  | int64
  | uint64
  | int32
  | fixed64
  | fixed32
  | bool
  | string
  | group
  | message (messageType : M)
  | bytes
  | uint32
  | enum (enumType : EnumDescriptor)
  | sfixed32
  | sfixed64
  | sint32
  | sint64

/-- `message_type()` where `type()` is `TYPE_MESSAGE`. -/
def FieldType.messageType? {M : Type} : FieldType M → Option M
  | .message m => some m
  | _ => none

theorem FieldType.eq_message {M : Type} {type : FieldType M} {messageType : M}
    (h : type.messageType? = some messageType) : type = .message messageType := by
  cases type <;> simp_all [messageType?]

/-- Field names are identifiers and field numbers fit a tag. -/
structure FieldDescriptor (M : Type) where
  name : Bytes
  number : ℕ
  type : FieldType M
  isRepeated : Bool
  name_noNul : (0 : UInt8) ∉ name
  number_pos : 0 < number
  number_le : number ≤ Wire.maxFieldNumber

/-- The fields of a message type, with unique names and unique numbers. -/
structure Descriptor (M : Type) where
  field : List (FieldDescriptor M)
  names_nodup : (field.map (·.name)).Nodup
  numbers_nodup : (field.map (·.number)).Nodup

abbrev Schema (M : Type) := M → Descriptor M

namespace Descriptor

variable {M : Type} (d : Descriptor M)

def findFieldByName (name : Bytes) : Option (FieldDescriptor M) :=
  d.field.find? (·.name = name)

def findFieldByNumber (number : ℕ) : Option (FieldDescriptor M) :=
  d.field.find? (·.number = number)

variable {d} {fd : FieldDescriptor M}

theorem mem_of_findFieldByName {name : Bytes} (h : d.findFieldByName name = some fd) :
    fd ∈ d.field := List.mem_of_find?_eq_some h

theorem mem_of_findFieldByNumber {number : ℕ} (h : d.findFieldByNumber number = some fd) :
    fd ∈ d.field := List.mem_of_find?_eq_some h

theorem number_of_findFieldByNumber {number : ℕ} (h : d.findFieldByNumber number = some fd) :
    fd.number = number := by simpa using List.find?_some h

end Descriptor

/-- In a list whose keys are distinct, the first entry with a key is the only one. -/
theorem find?_of_nodup_map {α β : Type*} [DecidableEq β] (f : α → β) {l : List α}
    (hl : (l.map f).Nodup) {a : α} (ha : a ∈ l) : l.find? (fun x => f x = f a) = some a := by
  induction l with
  | nil => cases ha
  | cons x l ih =>
      rw [List.map_cons, List.nodup_cons] at hl
      rcases List.mem_cons.mp ha with rfl | ha
      · simp
      · have hne : f x ≠ f a := fun h => hl.1 (h ▸ List.mem_map_of_mem ha)
        rw [List.find?_cons_of_neg (by simpa using hne)]
        exact ih hl.2 ha

namespace Descriptor

variable {M : Type} {d : Descriptor M} {fd : FieldDescriptor M}

theorem findFieldByName_of_mem (h : fd ∈ d.field) : d.findFieldByName fd.name = some fd :=
  find?_of_nodup_map FieldDescriptor.name d.names_nodup h

theorem findFieldByNumber_of_mem (h : fd ∈ d.field) : d.findFieldByNumber fd.number = some fd :=
  find?_of_nodup_map FieldDescriptor.number d.numbers_nodup h

end Descriptor

theorem EnumDescriptor.name_of_findValueByNumber {e : EnumDescriptor} {number : BitVec 32}
    {v : EnumValueDescriptor} (h : e.findValueByNumber number = some v) :
    v.number = number ∧ e.findValueByName v.name = some v := by
  refine ⟨by simpa using List.find?_some h, ?_⟩
  exact find?_of_nodup_map EnumValueDescriptor.name e.names_nodup (List.mem_of_find?_eq_some h)

end Luapb

import Luapb.Model.Registry

/-! # Schemas

That of `test/addressbook.proto`, with a library to register it, a library for a file with
types inside a message, a schema with a float, and two with a message type that refers to
itself, through a singular field and through a repeated one. -/

namespace Luapb

/-- A platform for values that are never converted between numbers and strings. -/
def Platform.plain (build : Build) : Platform := ⟨build, true, fun _ => none, fun _ => []⟩

/-! ## The address book -/

namespace AddressBook

inductive Message
  | phoneNumber
  | person
  | addressBook
deriving DecidableEq

/-- `MOBILE`, `HOME` and `WORK` -/
def phoneType : EnumDescriptor where
  value := [⟨[77, 79, 66, 73, 76, 69], 0⟩, ⟨[72, 79, 77, 69], 1⟩, ⟨[87, 79, 82, 75], 2⟩]
  names_nodup := by decide

/-- `number` and `type` -/
def phoneNumber : Descriptor Message where
  field :=
    [⟨[110, 117, 109, 98, 101, 114], 1, .string, false, by decide, by decide, by decide⟩,
      ⟨[116, 121, 112, 101], 2, .enum phoneType, false, by decide, by decide, by decide⟩]
  names_nodup := by decide
  numbers_nodup := by decide

/-- `name`, `id`, `email`, `phone` and `test` -/
def person : Descriptor Message where
  field :=
    [⟨[110, 97, 109, 101], 1, .string, false, by decide, by decide, by decide⟩,
      ⟨[105, 100], 2, .int32, false, by decide, by decide, by decide⟩,
      ⟨[101, 109, 97, 105, 108], 3, .string, false, by decide, by decide, by decide⟩,
      ⟨[112, 104, 111, 110, 101], 4, .message .phoneNumber, true,
        by decide, by decide, by decide⟩,
      ⟨[116, 101, 115, 116], 5, .int32, true, by decide, by decide, by decide⟩]
  names_nodup := by decide
  numbers_nodup := by decide

/-- `person` -/
def addressBook : Descriptor Message where
  field :=
    [⟨[112, 101, 114, 115, 111, 110], 1, .message .person, true,
      by decide, by decide, by decide⟩]
  names_nodup := by decide
  numbers_nodup := by decide

def schema : Schema Message
  | .phoneNumber => phoneNumber
  | .person => person
  | .addressBook => addressBook

/-- `repeated int32 test = 5` -/
def test : FieldDescriptor Message :=
  ⟨[116, 101, 115, 116], 5, .int32, true, by decide, by decide, by decide⟩

theorem test_mem : test ∈ (schema .person).field := by
  simp only [schema, person, test, List.mem_cons, true_or, or_true]

/-- `repeated PhoneNumber phone = 4` -/
def phone : FieldDescriptor Message :=
  ⟨[112, 104, 111, 110, 101], 4, .message .phoneNumber, true, by decide, by decide, by decide⟩

theorem phone_mem : phone ∈ (schema .person).field := by
  simp only [schema, person, phone, List.mem_cons, true_or, or_true]

/-- `tutorial.PhoneNumber`, `tutorial.Person` and `tutorial.AddressBook` -/
def fullName : Message → Bytes
  | .phoneNumber => [116, 117, 116, 111, 114, 105, 97, 108, 46,
      80, 104, 111, 110, 101, 78, 117, 109, 98, 101, 114]
  | .person => [116, 117, 116, 111, 114, 105, 97, 108, 46, 80, 101, 114, 115, 111, 110]
  | .addressBook => [116, 117, 116, 111, 114, 105, 97, 108, 46,
      65, 100, 100, 114, 101, 115, 115, 66, 111, 111, 107]

/-- `FindMessage` once the file is registered. -/
def findMessage (name : Bytes) : Option Message :=
  [.phoneNumber, .person, .addressBook].find? (fullName · = name)

/-- `{name = s}` -/
def named (s : Bytes) : LuaTree := .table [(.string [110, 97, 109, 101], .string s)]

/-- `{person = {p, ..., p}}` with `count` references to `p`. -/
def crowd (count : ℕ) (p : LuaTree) : LuaTree :=
  .table [(.string [112, 101, 114, 115, 111, 110],
    .table ((List.replicate count p).mapIdx fun i v => (.integer (i + 1), v)))]

/-- A library that knows two sets: the file of the address book, and the same file followed
by one that is not built. -/
def library : DescriptorLibrary where
  Message := Message
  Enum := EnumDescriptor
  FileDescriptorProto := Option (FileDescriptor Message EnumDescriptor)
  Tables := Unit
  messageName := fullName
  enumName _ := [116, 117, 116, 111, 114, 105, 97, 108, 46,
    80, 104, 111, 110, 101, 84, 121, 112, 101]
  parseFromArray data _ :=
    let file : FileDescriptor Message EnumDescriptor :=
      ⟨[.phoneNumber, .person, .addressBook], [phoneType]⟩
    if data = some [1] then some [some file]
    else if data = some [2] then some [some file, none]
    else none
  empty := ()
  buildFile _ fdp := (fdp, ())

/-- The two sets as the files `g` and `b`. -/
def files : FileSystem := fun name =>
  if name = [103] then some ⟨1, [1]⟩ else if name = [98] then some ⟨1, [2]⟩ else none

end AddressBook

/-! ## A field of its own -/

/-- `int32 id = 2` -/
def integerField : FieldDescriptor Unit :=
  ⟨[105, 100], 2, .int32, false, by decide, by decide, by decide⟩

/-! ## A message with types inside -/

namespace Nested

inductive Message
  | person
  | phoneNumber
deriving DecidableEq

/-- `Person` and `Person.PhoneNumber` -/
def fullName : Message → Bytes
  | .person => [80, 101, 114, 115, 111, 110]
  | .phoneNumber => [80, 101, 114, 115, 111, 110, 46,
      80, 104, 111, 110, 101, 78, 117, 109, 98, 101, 114]

/-- A library that knows the empty set and that of one file,
`message Person { message PhoneNumber {} enum PhoneType { MOBILE = 0; } }`. -/
def library : DescriptorLibrary where
  Message := Message
  Enum := Unit
  FileDescriptorProto := Unit
  Tables := Unit
  messageName := fullName
  enumName _ := [80, 101, 114, 115, 111, 110, 46, 80, 104, 111, 110, 101, 84, 121, 112, 101]
  parseFromArray data size :=
    if size = 0 then some [] else if data = some [1] then some [()] else none
  empty := ()
  buildFile _ _ := (some ⟨[.person], []⟩, ())

end Nested

/-! ## A message with a float -/

namespace Gauge

/-- `message Gauge { float level = 1; }` -/
def gauge : Descriptor Unit where
  field := [⟨[108, 101, 118, 101, 108], 1, .float, false, by decide, by decide, by decide⟩]
  names_nodup := by decide
  numbers_nodup := by decide

def schema : Schema Unit := fun _ => gauge

/-- `{level = v}` -/
def reading (v : LuaTree) : LuaTree := .table [(.string [108, 101, 118, 101, 108], v)]

end Gauge

/-! ## Recursive message types -/

namespace Chain

/-- `message Chain { Chain next = 1; uint32 value = 2; }` -/
def chain : Descriptor Unit where
  field :=
    [⟨[110, 101, 120, 116], 1, .message (), false, by decide, by decide, by decide⟩,
      ⟨[118, 97, 108, 117, 101], 2, .uint32, false, by decide, by decide, by decide⟩]
  names_nodup := by decide
  numbers_nodup := by decide

def schema : Schema Unit := fun _ => chain

def next : FieldDescriptor Unit :=
  ⟨[110, 101, 120, 116], 1, .message (), false, by decide, by decide, by decide⟩

def value : FieldDescriptor Unit :=
  ⟨[118, 97, 108, 117, 101], 2, .uint32, false, by decide, by decide, by decide⟩

/-- A Lua state with a single table, whose `next` is the table itself. -/
def ring : LuaState := ⟨Unit, fun _ => .table [(.string [110, 101, 120, 116], ())]⟩

end Chain

namespace Tree

/-- `message Tree { repeated Tree child = 1; uint32 value = 2; }` -/
def tree : Descriptor Unit where
  field :=
    [⟨[99, 104, 105, 108, 100], 1, .message (), true, by decide, by decide, by decide⟩,
      ⟨[118, 97, 108, 117, 101], 2, .uint32, false, by decide, by decide, by decide⟩]
  names_nodup := by decide
  numbers_nodup := by decide

def schema : Schema Unit := fun _ => tree

def child : FieldDescriptor Unit :=
  ⟨[99, 104, 105, 108, 100], 1, .message (), true, by decide, by decide, by decide⟩

def value : FieldDescriptor Unit :=
  ⟨[118, 97, 108, 117, 101], 2, .uint32, false, by decide, by decide, by decide⟩

/-- `Tree` -/
def fullName : Bytes := [84, 114, 101, 101]

def findMessage (name : Bytes) : Option Unit := if name = fullName then some () else none

/-- `{value = n}` -/
def leaf (n : BitVec 32) : LuaTree :=
  .table [(.string [118, 97, 108, 117, 101], .number (.ofInt Ieee754.binary64 n.toNat))]

/-- `{child = {{value = n}}}` -/
def node (n : BitVec 32) : LuaTree :=
  .table [(.string [99, 104, 105, 108, 100], .table [(.integer 1, leaf n)])]

end Tree

end Luapb

import Luapb.Library.Labels
import Luapb.Model.Runtime
import Luapb.Model.Stream

/-! # The generated code of the address book

`test/addressbook.pb.cc`: the classes `PhoneNumber`, `Person` and `AddressBook` with the parser,
the serializer, the size pass and the merge of each. `CachedSize` members are assigned by
`ByteSize` and read by the serializers; `unset` is what a member holds that no constructor
assigns. -/

namespace Luapb

namespace Tutorial

open Labels

/-! ## Messages -/

structure PhoneNumber where
  number : Bytes
  type : BitVec 32
  cachedSize : ℤ
deriving DecidableEq

structure Person where
  name : Bytes
  id : BitVec 32
  email : Bytes
  phone : List PhoneNumber
  test : List (BitVec 32)
  testCachedByteSize : ℤ
  cachedSize : ℤ
deriving DecidableEq

structure AddressBook where
  person : List Person
  cachedSize : ℤ
deriving DecidableEq

/-- `SharedCtor` -/
def PhoneNumber.new : PhoneNumber := ⟨[], 0, 0⟩

def Person.new (unset : ℤ) : Person := ⟨[], 0, [], [], [], unset, 0⟩

def AddressBook.new : AddressBook := ⟨[], 0⟩

/-- `Clear` leaves the cached sizes as they are. -/
def PhoneNumber.clear (m : PhoneNumber) : PhoneNumber := { m with number := [], type := 0 }

def Person.clear (m : Person) : Person :=
  { m with name := [], id := 0, email := [], phone := [], test := [] }

def AddressBook.clear (m : AddressBook) : AddressBook := { m with person := [] }

/-! ## Merging -/

def PhoneNumber.mergeFrom (m source : PhoneNumber) : PhoneNumber :=
  let m := if source.number.length > 0 then { m with number := source.number } else m
  if source.type ≠ 0 then { m with type := source.type } else m

/-- `RepeatedPtrField::MergeFrom` merges each element into a new one. -/
def Person.mergeFrom (m source : Person) : Person :=
  let m := { m with phone := m.phone ++ source.phone.map PhoneNumber.new.mergeFrom }
  let m := { m with test := m.test ++ source.test }
  let m := if source.name.length > 0 then { m with name := source.name } else m
  let m := if source.id ≠ 0 then { m with id := source.id } else m
  if source.email.length > 0 then { m with email := source.email } else m

def AddressBook.mergeFrom (unset : ℤ) (m source : AddressBook) : AddressBook :=
  { m with person := m.person ++ source.person.map (Person.new unset).mergeFrom }

/-- `CopyFrom` of another message. -/
def PhoneNumber.copyFrom (m source : PhoneNumber) : PhoneNumber := m.clear.mergeFrom source

def Person.copyFrom (m source : Person) : Person := m.clear.mergeFrom source

def AddressBook.copyFrom (unset : ℤ) (m source : AddressBook) : AddressBook :=
  m.clear.mergeFrom unset source

/-! ## Sizes -/

section

variable (W : GeneratedWireFormat)

/-- `ByteSize` returns the size and leaves it in the message. -/
def PhoneNumber.byteSize (m : PhoneNumber) : ℤ × PhoneNumber :=
  let total := 0
  let total := if m.number.length > 0 then int32 (total + (1 + W.stringSize m.number)) else total
  let total := if m.type ≠ 0 then int32 (total + (1 + W.enumSize m.type)) else total
  (total, { m with cachedSize := total })

/-- One iteration of a loop that adds the sizes of messages. -/
def addMessageSize {α : Type} (byteSize : α → ℤ × α) (total : ℤ × List α) (m : α) : ℤ × List α :=
  let size := byteSize m
  (int32 (total.1 + W.messageSizeNoVirtual size.1), total.2 ++ [size.2])

def Person.byteSize (m : Person) : ℤ × Person :=
  let total := 0
  let total := if m.name.length > 0 then int32 (total + (1 + W.stringSize m.name)) else total
  let total := if m.id ≠ 0 then int32 (total + (1 + W.int32Size m.id)) else total
  let total := if m.email.length > 0 then int32 (total + (1 + W.stringSize m.email)) else total
  let total := int32 (total + 1 * m.phone.length)
  let phones := m.phone.foldl (addMessageSize W (PhoneNumber.byteSize W)) (total, [])
  let total := phones.1
  let dataSize := m.test.foldl (fun size v => int32 (size + W.int32Size v)) 0
  let total :=
    if dataSize > 0 then int32 (total + (1 + W.int32Size (BitVec.ofInt 32 dataSize))) else total
  let total := int32 (total + dataSize)
  (total, { m with phone := phones.2, testCachedByteSize := dataSize, cachedSize := total })

def AddressBook.byteSize (m : AddressBook) : ℤ × AddressBook :=
  let total := int32 (0 + 1 * m.person.length)
  let persons := m.person.foldl (addMessageSize W (Person.byteSize W)) (total, [])
  (persons.1, { m with person := persons.2, cachedSize := persons.1 })

/-! ## Serializers -/

/-- `SerializeWithCachedSizesToArray`, with the bytes it appends. -/
def PhoneNumber.serializeWithCachedSizesToArray (m : PhoneNumber) : Bytes :=
  (if m.number.length > 0 then W.writeStringToArray 1 m.number else []) ++
    if m.type ≠ 0 then W.writeEnumToArray 2 m.type else []

def Person.serializeWithCachedSizesToArray (m : Person) : Bytes :=
  (if m.name.length > 0 then W.writeStringToArray 1 m.name else []) ++
    ((if m.id ≠ 0 then W.writeInt32ToArray 2 m.id else []) ++
    ((if m.email.length > 0 then W.writeStringToArray 3 m.email else []) ++
    (m.phone.flatMap (fun phone => W.writeMessageNoVirtualToArray 4 phone.cachedSize
      (phone.serializeWithCachedSizesToArray W)) ++
    ((if m.test.length > 0 then W.writeTagToArray 5 .lengthDelimited ++
      W.writeVarint32ToArray (BitVec.ofInt 32 m.testCachedByteSize) else []) ++
    m.test.flatMap W.writeInt32NoTagToArray))))

def AddressBook.serializeWithCachedSizesToArray (m : AddressBook) : Bytes :=
  m.person.flatMap fun person => W.writeMessageNoVirtualToArray 1 person.cachedSize
    (person.serializeWithCachedSizesToArray W)

end

/-! ## Parsers -/

section

variable (S : GeneratedInputStream) {ℓ α : Type}

/-- `DO_` -/
def tryDo (ok : Bool) (s : S.Stream) (m : α) (next : Option (Jump ℓ (S.Stream × α))) :
    Option (Jump ℓ (S.Stream × α)) :=
  if ok then next else some (.exit false (s, m))

/-- `if (input->ExpectTag(tag)) goto label;` -/
def ifExpectTag (tag : BitVec 32) (label : ℓ) (s : S.Stream) (m : α)
    (next : S.Stream → Option (Jump ℓ (S.Stream × α))) : Option (Jump ℓ (S.Stream × α)) :=
  let e := S.expectTag tag s
  if e.1 then some (.goto label (e.2, m)) else next e.2

/-- `if (input->ExpectAtEnd()) goto success;` at the end of the loop's body. -/
def ifExpectAtEnd (start : ℓ) (s : S.Stream) (m : α) : Option (Jump ℓ (S.Stream × α)) :=
  let e := S.expectAtEnd s
  if e.1 then some (.exit true (e.2, m)) else some (.goto start (e.2, m))

/-- `ReadString` and `VerifyUtf8String` -/
def readStringField (s : S.Stream) (value : Bytes) : Bool × Bytes × S.Stream :=
  let r := S.readString s value
  (r.ok && S.verifyUtf8String r.value, r.value, r.stream)

/-- `handle_unusual` -/
def handleUnusual (start : ℓ) (tag : BitVec 32) (s : S.Stream) (m : α) :
    Option (Jump ℓ (S.Stream × α)) :=
  if tag = 0 ∨ tag.toNat % 8 = 4 then some (.exit true (s, m))
  else
    let r := S.skipField s tag
    tryDo S r.1 r.2 m (some (.goto start (r.2, m)))

/-- The head of the loop: `ReadTagWithCutoff` and the `switch`. -/
def readTagAndSwitch (start : ℓ) (s : S.Stream) (m : α)
    (cases : BitVec 32 → S.Stream → Option (Option (Jump ℓ (S.Stream × α)))) :
    Option (Jump ℓ (S.Stream × α)) :=
  let p := S.readTagWithCutoff 127 s
  if p.1.2 then (cases p.1.1 p.2).getD (handleUnusual S start p.1.1 p.2 m)
  else handleUnusual S start p.1.1 p.2 m

end

namespace PhoneNumber

inductive Label
  | parseStart
  | parseType

variable (S : GeneratedInputStream)

def parseNumber (s : S.Stream) (m : PhoneNumber) :
    Option (Jump Label (S.Stream × PhoneNumber)) :=
  let r := readStringField S s m.number
  let m := { m with number := r.2.1 }
  tryDo S r.1 r.2.2 m <|
    ifExpectTag S 16 .parseType r.2.2 m fun s => some (.goto .parseStart (s, m))

/-- `value` is not assigned by a read that fails. -/
def parseType (s : S.Stream) (m : PhoneNumber) : Option (Jump Label (S.Stream × PhoneNumber)) :=
  let r := S.readEnum s 0
  tryDo S r.ok r.stream m <|
    let m := { m with type := r.value }
    ifExpectAtEnd S .parseStart r.stream m

def step : Label → S.Stream × PhoneNumber → Option (Jump Label (S.Stream × PhoneNumber))
  | .parseStart, (s, m) => readTagAndSwitch S .parseStart s m fun tag s =>
      match tag.toNat / 8 with
      | 1 => if tag = 10 then some (parseNumber S s m) else none
      | 2 => if tag = 16 then some (parseType S s m) else none
      | _ => none
  | .parseType, (s, m) => parseType S s m

def mergePartialFromCodedStream (fuel : ℕ) (s : S.Stream) (m : PhoneNumber) :
    Option (Bool × S.Stream × PhoneNumber) :=
  run (step S) fuel .parseStart (s, m)

end PhoneNumber

namespace Person

inductive Label
  | parseStart
  | parseId
  | parseEmail
  | parsePhone
  | parseLoopPhone
  | parseTest

variable (S : GeneratedInputStream)

def parseName (s : S.Stream) (m : Person) : Option (Jump Label (S.Stream × Person)) :=
  let r := readStringField S s m.name
  let m := { m with name := r.2.1 }
  tryDo S r.1 r.2.2 m <|
    ifExpectTag S 16 .parseId r.2.2 m fun s => some (.goto .parseStart (s, m))

def parseId (s : S.Stream) (m : Person) : Option (Jump Label (S.Stream × Person)) :=
  let r := S.readInt32 s m.id
  let m := { m with id := r.value }
  tryDo S r.ok r.stream m <|
    ifExpectTag S 26 .parseEmail r.stream m fun s => some (.goto .parseStart (s, m))

def parseEmail (s : S.Stream) (m : Person) : Option (Jump Label (S.Stream × Person)) :=
  let r := readStringField S s m.email
  let m := { m with email := r.2.1 }
  tryDo S r.1 r.2.2 m <|
    ifExpectTag S 34 .parsePhone r.2.2 m fun s => some (.goto .parseStart (s, m))

/-- `add_phone` has added the element before it is read. -/
def parseLoopPhone (fuel : ℕ) (s : S.Stream) (m : Person) :
    Option (Jump Label (S.Stream × Person)) :=
  match S.readMessageNoVirtualNoRecursionDepth
    (PhoneNumber.mergePartialFromCodedStream S fuel · .new) s with
  | none => none
  | some (ok, s, phone) =>
      let m := { m with phone := m.phone ++ [phone] }
      tryDo S ok s m <|
        ifExpectTag S 34 .parseLoopPhone s m fun s =>
          ifExpectTag S 42 .parseTest (S.unsafeDecrementRecursionDepth s) m fun s =>
            some (.goto .parseStart (s, m))

def parsePhone (fuel : ℕ) (s : S.Stream) (m : Person) : Option (Jump Label (S.Stream × Person)) :=
  let i := S.incrementRecursionDepth s
  tryDo S i.1 i.2 m (parseLoopPhone S fuel i.2 m)

def parseTest (s : S.Stream) (m : Person) : Option (Jump Label (S.Stream × Person)) :=
  let r := S.readPackedInt32 s m.test
  let m := { m with test := r.value }
  tryDo S r.ok r.stream m (ifExpectAtEnd S .parseStart r.stream m)

/-- The `else if` for values that are not packed. -/
def parseUnpackedTest (s : S.Stream) (m : Person) : Option (Jump Label (S.Stream × Person)) :=
  let r := S.readRepeatedInt32 1 42 s m.test
  let m := { m with test := r.value }
  tryDo S r.ok r.stream m (ifExpectAtEnd S .parseStart r.stream m)

def step (fuel : ℕ) : Label → S.Stream × Person → Option (Jump Label (S.Stream × Person))
  | .parseStart, (s, m) => readTagAndSwitch S .parseStart s m fun tag s =>
      match tag.toNat / 8 with
      | 1 => if tag = 10 then some (parseName S s m) else none
      | 2 => if tag = 16 then some (parseId S s m) else none
      | 3 => if tag = 26 then some (parseEmail S s m) else none
      | 4 => if tag = 34 then some (parsePhone S fuel s m) else none
      | 5 => if tag = 42 then some (parseTest S s m)
          else if tag = 40 then some (parseUnpackedTest S s m) else none
      | _ => none
  | .parseId, (s, m) => parseId S s m
  | .parseEmail, (s, m) => parseEmail S s m
  | .parsePhone, (s, m) => parsePhone S fuel s m
  | .parseLoopPhone, (s, m) => parseLoopPhone S fuel s m
  | .parseTest, (s, m) => parseTest S s m

def mergePartialFromCodedStream (fuel : ℕ) (s : S.Stream) (m : Person) :
    Option (Bool × S.Stream × Person) :=
  run (step S fuel) fuel .parseStart (s, m)

end Person

namespace AddressBook

inductive Label
  | parseStart
  | parseLoopPerson

variable (S : GeneratedInputStream) (unset : ℤ)

def parseLoopPerson (fuel : ℕ) (s : S.Stream) (m : AddressBook) :
    Option (Jump Label (S.Stream × AddressBook)) :=
  match S.readMessageNoVirtualNoRecursionDepth
    (Person.mergePartialFromCodedStream S fuel · (.new unset)) s with
  | none => none
  | some (ok, s, person) =>
      let m := { m with person := m.person ++ [person] }
      tryDo S ok s m <|
        ifExpectTag S 10 .parseLoopPerson s m fun s =>
          ifExpectAtEnd S .parseStart (S.unsafeDecrementRecursionDepth s) m

def parsePerson (fuel : ℕ) (s : S.Stream) (m : AddressBook) :
    Option (Jump Label (S.Stream × AddressBook)) :=
  let i := S.incrementRecursionDepth s
  tryDo S i.1 i.2 m (parseLoopPerson S unset fuel i.2 m)

def step (fuel : ℕ) : Label → S.Stream × AddressBook →
    Option (Jump Label (S.Stream × AddressBook))
  | .parseStart, (s, m) => readTagAndSwitch S .parseStart s m fun tag s =>
      match tag.toNat / 8 with
      | 1 => if tag = 10 then some (parsePerson S unset fuel s m) else none
      | _ => none
  | .parseLoopPerson, (s, m) => parseLoopPerson S unset fuel s m

def mergePartialFromCodedStream (fuel : ℕ) (s : S.Stream) (m : AddressBook) :
    Option (Bool × S.Stream × AddressBook) :=
  run (step S unset fuel) fuel .parseStart (s, m)

end AddressBook

/-! ## Strings -/

/-- `ParseFromString` clears the message first. -/
def Person.parseFromString (S : GeneratedInputStream) (fuel : ℕ) (m : Person) (data : Bytes) :
    Option (Bool × Person) :=
  S.parseFromString (Person.mergePartialFromCodedStream S fuel · m.clear) data

def AddressBook.parseFromString (S : GeneratedInputStream) (unset : ℤ) (fuel : ℕ)
    (m : AddressBook) (data : Bytes) : Option (Bool × AddressBook) :=
  S.parseFromString (AddressBook.mergePartialFromCodedStream S unset fuel · m.clear) data

/-- `SerializeAsString` calls `ByteSize`, which leaves the sizes in the message. -/
def Person.serializeAsString (W : GeneratedWireFormat) (m : Person) : Bytes :=
  W.serializeAsString (m.byteSize W).1 ((m.byteSize W).2.serializeWithCachedSizesToArray W)

def AddressBook.serializeAsString (W : GeneratedWireFormat) (m : AddressBook) : Bytes :=
  W.serializeAsString (m.byteSize W).1 ((m.byteSize W).2.serializeWithCachedSizesToArray W)

/-! ## The test program -/

/-- The global of `test/main.cpp`, as `_tmain` sets it. -/
def answerPb : Person :=
  { name := [104, 101, 108, 108, 111], id := 123456, email := [],
    phone := [⟨[55, 56, 57], 2, 0⟩, ⟨[52, 53, 54], 1, 0⟩], test := [1, 2],
    testCachedByteSize := 0, cachedSize := 0 }

/-- `TestEncode`, with the global as an argument. -/
def testEncode (S : GeneratedInputStream) (W : GeneratedWireFormat) (unset : ℤ) (fuel : ℕ)
    (answerPb : Person) (index : ℤ) (mem : Bytes) : Option Bool :=
  if index = 1 then
    ((Person.new unset).parseFromString S fuel mem).map fun r =>
      r.1 && r.2.serializeAsString W = answerPb.serializeAsString W
  else some false

end Tutorial

end Luapb

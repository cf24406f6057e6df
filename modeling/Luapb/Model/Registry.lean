import Luapb.Model.Encoder

/-! # The registry

The globals of `DescPool.cpp` and the three functions that change them, with the loading
of the file from `Utility.cpp`. Building a file is protobuf's part. -/

namespace Luapb

/-! ## Files -/

/-- An open file: what `ftell` says at its end, and what `fread` gets from its start. -/
structure File where
  tell : ℤ
  content : Bytes

/-- `fopen` in mode `rb`; `none` is the null pointer. -/
abbrev FileSystem := Bytes → Option File

/-- `LoadFileContent`: the buffer and `size`, which stays as it was if the file does not
open. `heap` is what the allocator left in the buffer. -/
def loadFileContent (fs : FileSystem) (heap : ℕ → UInt8) (filename : Bytes) (size : BitVec 32) :
    Option Bytes × BitVec 32 :=
  match fs filename with
  | none => (none, size)
  | some f =>
      let size := BitVec.ofInt 32 f.tell
      let read := f.content.take size.toNat
      (some (read ++ (List.range' read.length (size.toNat - read.length)).map heap), size)

/-! ## Descriptor pools -/

/-- The top-level types of a file that was built. -/
structure FileDescriptor (M E : Type) where
  messageType : List M
  enumType : List E

/-- protobuf's reflection. `Tables` is what a pool consists of. -/
structure DescriptorLibrary where
  Message : Type
  Enum : Type
  FileDescriptorProto : Type
  Tables : Type
  messageName : Message → Bytes
  enumName : Enum → Bytes
  /-- `FileDescriptorSet::ParseFromArray` -/
  parseFromArray : Option Bytes → ℤ → Option (List FileDescriptorProto)
  /-- The tables of a new pool. -/
  empty : Tables
  /-- `BuildFileCollectingErrors` -/
  buildFile : Tables → FileDescriptorProto → Option (FileDescriptor Message Enum) × Tables

/-- Pools are numbered as they are created. A pool owns the files that were built in it. -/
structure DescriptorPool (D : DescriptorLibrary) where
  serial : ℕ
  tables : D.Tables
  files : List (FileDescriptor D.Message D.Enum)

/-- A pointer to a descriptor, which lives as long as the pool that built it. -/
structure Owned (α : Type) where
  pool : ℕ
  descriptor : α

/-- `std::map<std::string, const T*>` -/
abbrev NameMap (α : Type) := Bytes → Option (Owned α)

/-- `map[name] = d` -/
def NameMap.insert {α : Type} (map : NameMap α) (name : Bytes) (d : Owned α) : NameMap α :=
  fun n => if n = name then some d else map n

variable (D : DescriptorLibrary)

/-- `LoadDescriptorFile`; `none` stands for false. -/
def loadDescriptorFile (fs : FileSystem) (heap : ℕ → UInt8) (filename : Bytes) :
    Option (List D.FileDescriptorProto) :=
  let content := loadFileContent fs heap filename 0
  D.parseFromArray content.1 content.2.toInt

variable {D}

/-- `_pool->BuildFileCollectingErrors(fdp, &pec)` -/
def DescriptorPool.build (pool : DescriptorPool D) (fdp : D.FileDescriptorProto) :
    Option (FileDescriptor D.Message D.Enum) × DescriptorPool D :=
  match D.buildFile pool.tables fdp with
  | (none, tables) => (none, { pool with tables := tables })
  | (some fileD, tables) =>
      (some fileD, { pool with tables := tables, files := fileD :: pool.files })

/-! ## The globals -/

variable (D) in
/-- `_pool`, `_msgMap` and `_enumMap`, and which pools have been created and deleted. -/
structure Registry where
  pool : Option (DescriptorPool D)
  msgMap : NameMap D.Message
  enumMap : NameMap D.Enum
  created : ℕ
  deleted : List ℕ

namespace Registry

/-- The globals as they are initialised. -/
def initial : Registry D := ⟨none, fun _ => none, fun _ => none, 0, []⟩

/-- `FindMessage` -/
def findMessage (s : Registry D) (name : Bytes) : Option (Owned D.Message) := s.msgMap name

/-- `FindEnum` -/
def findEnum (s : Registry D) (name : Bytes) : Option (Owned D.Enum) := s.enumMap name

/-- The loops over the top-level types of a file. -/
def enter (s : Registry D) (pool : DescriptorPool D) (fileD : FileDescriptor D.Message D.Enum) :
    Registry D :=
  { s with
    msgMap := fileD.messageType.foldl
      (fun map msg => map.insert (D.messageName msg) ⟨pool.serial, msg⟩) s.msgMap
    enumMap := fileD.enumType.foldl
      (fun map e => map.insert (D.enumName e) ⟨pool.serial, e⟩) s.enumMap }

/-- The loop over the files of the set. -/
def buildFiles (pool : DescriptorPool D) :
    List D.FileDescriptorProto → Registry D → Bool × Registry D
  | [], s => (true, s)
  | fdp :: fds, s =>
      let r := pool.build fdp
      let s := { s with pool := some r.2 }
      match r.1 with
      | none => (false, s)
      | some fileD => buildFiles r.2 fds (s.enter r.2 fileD)

def initDescriptorPool (fs : FileSystem) (heap : ℕ → UInt8) (filename : Bytes)
    (s : Registry D) : Bool × Registry D :=
  if s.pool.isSome then (false, s)
  else
    let pool : DescriptorPool D := ⟨s.created, D.empty, []⟩
    let s := { s with pool := some pool, created := s.created + 1 }
    match loadDescriptorFile D fs heap filename with
    | none => (false, s)
    | some fds => buildFiles pool fds s

def releaseDescriptorPool (s : Registry D) : Registry D :=
  match s.pool with
  | none => s
  | some pool =>
      { s with
        pool := none
        msgMap := fun _ => none
        enumMap := fun _ => none
        deleted := pool.serial :: s.deleted }

/-- A call, with the files as they are when it is made. -/
inductive Call
  | init (fs : FileSystem) (heap : ℕ → UInt8) (filename : Bytes)
  | release

/-- What a call returns, if it returns anything, and leaves behind. -/
def step (s : Registry D) : Call → Option Bool × Registry D
  | .init fs heap filename =>
      let r := s.initDescriptorPool fs heap filename
      (some r.1, r.2)
  | .release => (none, s.releaseDescriptorPool)

/-- The state after a sequence of calls. -/
def run (calls : List Call) (s : Registry D) : Registry D :=
  calls.foldl (fun s call => (s.step call).2) s

/-- What the calls of a sequence return. -/
def results : List Call → Registry D → List (Option Bool)
  | [], _ => []
  | call :: calls, s => (s.step call).1 :: results calls (s.step call).2

end Registry

end Luapb

import Luapb.Verification.Registry

/-! # Successful registrations

What `InitDescriptorPool` has done when it returns true. Every file of the set it loaded is
built and its top-level types are entered. But the set may be that of no file at all, since
nothing looks at whether the file was opened and read, and types inside messages are never
entered. -/

namespace Luapb

variable {D : DescriptorLibrary}

namespace Registry

/-! ## Built and entered -/

/-- The files that come of a set, each of which is built. -/
inductive BuiltAs (D : DescriptorLibrary) : D.Tables → List D.FileDescriptorProto →
    List (FileDescriptor D.Message D.Enum) → Prop
  | nil {tables} : BuiltAs D tables [] []
  | cons {tables tables' fdp fds fileD files}
      (hbuild : D.buildFile tables fdp = (some fileD, tables'))
      (hrest : BuiltAs D tables' fds files) : BuiltAs D tables (fdp :: fds) (fileD :: files)

theorem builds_iff {tables : D.Tables} {fds : List D.FileDescriptorProto} :
    Builds D tables fds ↔ ∃ files, BuiltAs D tables fds files := by
  induction fds generalizing tables with
  | nil => exact ⟨fun _ => ⟨[], .nil⟩, fun _ => trivial⟩
  | cons fdp fds ih =>
      rw [Builds]
      constructor
      · intro h
        obtain ⟨fileD, hfile, hrest⟩ := h
        obtain ⟨files, hfiles⟩ := ih.mp hrest
        exact ⟨fileD :: files, .cons (Prod.ext hfile rfl) hfiles⟩
      · intro h
        obtain ⟨_, hbuilt⟩ := h
        cases hbuilt with
        | cons hbuild hrest =>
            rw [hbuild]
            exact ⟨_, rfl, ih.mpr ⟨_, hrest⟩⟩

/-- The map after types of a pool have been entered. -/
def entered {α : Type} (nameOf : α → Bytes) (serial : ℕ) (types : List α) (map : NameMap α) :
    NameMap α :=
  types.foldl (fun map t => map.insert (nameOf t) ⟨serial, t⟩) map

theorem entered_append {α : Type} (nameOf : α → Bytes) (serial : ℕ) (types more : List α)
    (map : NameMap α) : entered nameOf serial (types ++ more) map =
      entered nameOf serial more (entered nameOf serial types map) := by
  rw [entered, List.foldl_append]
  rfl

def HasEntry {α : Type} (nameOf : α → Bytes) (serial : ℕ) (map : NameMap α) (n : Bytes) : Prop :=
  ∃ d, map n = some d ∧ d.pool = serial ∧ nameOf d.descriptor = n

theorem HasEntry.insert {α : Type} {nameOf : α → Bytes} {serial : ℕ} {map : NameMap α} {n : Bytes}
    (h : HasEntry nameOf serial map n) (t : α) :
    HasEntry nameOf serial (map.insert (nameOf t) ⟨serial, t⟩) n := by
  by_cases hn : n = nameOf t
  · exact ⟨⟨serial, t⟩, if_pos hn, rfl, hn.symm⟩
  · obtain ⟨d, hd, hentry⟩ := h
    exact ⟨d, (if_neg hn).trans hd, hentry⟩

theorem HasEntry.entered {α : Type} {nameOf : α → Bytes} {serial : ℕ} {map : NameMap α}
    {n : Bytes} (h : HasEntry nameOf serial map n) (types : List α) :
    HasEntry nameOf serial (entered nameOf serial types map) n := by
  induction types generalizing map with
  | nil => exact h
  | cons t types ih => exact ih (h.insert t)

theorem hasEntry_of_mem {α : Type} {nameOf : α → Bytes} (serial : ℕ) {types : List α}
    (map : NameMap α) {t : α} (h : t ∈ types) :
    HasEntry nameOf serial (entered nameOf serial types map) (nameOf t) := by
  induction h generalizing map with
  | head types =>
      have hinsert : HasEntry nameOf serial (map.insert (nameOf t) ⟨serial, t⟩) (nameOf t) :=
        ⟨⟨serial, t⟩, if_pos rfl, rfl, rfl⟩
      exact hinsert.entered types
  | tail u _ ih => exact ih _

theorem mem_of_entered {α : Type} {nameOf : α → Bytes} {serial : ℕ} {types : List α} {n : Bytes}
    {d : Owned α} (h : entered nameOf serial types (fun _ => none) n = some d) :
    d.descriptor ∈ types ∧ nameOf d.descriptor = n := by
  rcases foldl_insert_eq_some h with ⟨-, hentry⟩ | hnone
  · exact hentry
  · cases hnone

/-- The state after the files of a set are built in a pool and their types entered. -/
structure Entered (s : Registry D) (pool : DescriptorPool D)
    (files : List (FileDescriptor D.Message D.Enum)) (s' : Registry D) : Prop where
  live : ∃ pool', s'.pool = some pool' ∧ pool'.serial = pool.serial ∧
    pool'.files = files.reverse ++ pool.files
  msgMap : s'.msgMap = entered D.messageName pool.serial (files.flatMap (·.messageType)) s.msgMap
  enumMap : s'.enumMap = entered D.enumName pool.serial (files.flatMap (·.enumType)) s.enumMap

theorem BuiltAs.entered {pool : DescriptorPool D} {fds : List D.FileDescriptorProto}
    {files : List (FileDescriptor D.Message D.Enum)} (h : BuiltAs D pool.tables fds files)
    {s : Registry D} (hpool : s.pool = some pool) :
    (buildFiles pool fds s).1 = true ∧ s.Entered pool files (buildFiles pool fds s).2 := by
  generalize htables : pool.tables = tables at h
  induction h generalizing pool s with
  | nil => exact ⟨rfl, ⟨pool, hpool, rfl, rfl⟩, rfl, rfl⟩
  | @cons _ tables' fdp fds fileD files hbuild _ ih =>
      have hstep : pool.build fdp =
          (some fileD, { pool with tables := tables', files := fileD :: pool.files }) := by
        rw [DescriptorPool.build, htables, hbuild]
      rw [buildFiles, hstep]
      obtain ⟨htrue, ⟨pool', hpool', hserial, hfiles⟩, hmsg, henum⟩ :=
        @ih { pool with tables := tables', files := fileD :: pool.files }
          (enter { s with pool := some _ } _ fileD) rfl rfl
      refine ⟨htrue, ⟨pool', hpool', hserial, ?_⟩, ?_, ?_⟩
      · rw [hfiles, List.reverse_cons, List.append_assoc, List.singleton_append]
      · rw [hmsg, List.flatMap_cons, entered_append]
        rfl
      · rw [henum, List.flatMap_cons, entered_append]
        rfl

/-- A set is registered in a state without a pool exactly if it loads and builds. -/
theorem init_eq_true_iff {s : Registry D} (hnone : s.pool = none) (fs : FileSystem)
    (heap : ℕ → UInt8) (filename : Bytes) :
    (s.initDescriptorPool fs heap filename).1 = true ↔
      ∃ fds files, loadDescriptorFile D fs heap filename = some fds ∧
        BuiltAs D D.empty fds files := by
  rw [initDescriptorPool, hnone]
  simp only [Option.isSome_none, Bool.false_eq_true, if_false]
  cases hload : loadDescriptorFile D fs heap filename with
  | none => simp
  | some fds =>
      simp only [buildFiles_eq_true, builds_iff, Option.some.injEq, exists_and_left,
        exists_eq_left']

theorem init_entered {s : Registry D} (hnone : s.pool = none) {fs : FileSystem}
    {heap : ℕ → UInt8} {filename : Bytes} {fds : List D.FileDescriptorProto}
    (hload : loadDescriptorFile D fs heap filename = some fds)
    {files : List (FileDescriptor D.Message D.Enum)} (hbuilt : BuiltAs D D.empty fds files) :
    s.Entered ⟨s.created, D.empty, []⟩ files (s.initDescriptorPool fs heap filename).2 := by
  rw [initDescriptorPool, hnone]
  simp only [Option.isSome_none, Bool.false_eq_true, if_false, hload]
  have h := BuiltAs.entered hbuilt (s := { s with
    pool := some (⟨s.created, D.empty, []⟩ : DescriptorPool D), created := s.created + 1 }) rfl
  exact ⟨h.2.live, h.2.msgMap, h.2.enumMap⟩

end Registry

/-! ## Files that are read in full -/

/-- What `fread` leaves in the buffer. -/
def File.buffer (f : File) (heap : ℕ → UInt8) : Bytes :=
  let size := (BitVec.ofInt 32 f.tell).toNat
  let read := f.content.take size
  read ++ (List.range' read.length (size - read.length)).map heap

/-- The length that `ParseFromArray` is given. -/
def File.size (f : File) : ℤ := (BitVec.ofInt 32 f.tell).toInt

def File.ReadInFull (f : File) : Prop := f.size = f.content.length

theorem File.ReadInFull.buffer_eq {f : File} (h : f.ReadInFull) (heap : ℕ → UInt8) :
    f.buffer heap = f.content := by
  have hsize : (BitVec.ofInt 32 f.tell).toNat = f.content.length := by
    have hlen : f.size = f.content.length := h
    rw [size] at hlen
    have hcast := BitVec.toInt_eq_toNat_cond (BitVec.ofInt 32 f.tell)
    have hlt := (BitVec.ofInt 32 f.tell).isLt
    split at hcast <;> omega
  simp [buffer, hsize]

theorem loadDescriptorFile_of_open {fs : FileSystem} {filename : Bytes} {f : File}
    (hopen : fs filename = some f) (heap : ℕ → UInt8) :
    loadDescriptorFile D fs heap filename = D.parseFromArray (some (f.buffer heap)) f.size := by
  rw [loadDescriptorFile, loadFileContent, hopen]
  rfl

namespace Registry

/-- The file is read in full and parses as a set, and all files of the set are built into
the pool with their top-level types entered in the maps. -/
structure Registered (fs : FileSystem) (filename : Bytes) (s : Registry D) (f : File)
    (fds : List D.FileDescriptorProto) (files : List (FileDescriptor D.Message D.Enum))
    (pool : DescriptorPool D) : Prop where
  opened : fs filename = some f
  readInFull : f.ReadInFull
  parsed : D.parseFromArray (some f.content) f.content.length = some fds
  built : BuiltAs D D.empty fds files
  live : s.pool = some pool
  inPool : pool.files = files.reverse
  messages : ∀ fileD ∈ files, ∀ msg ∈ fileD.messageType,
    HasEntry D.messageName pool.serial s.findMessage (D.messageName msg)
  enums : ∀ fileD ∈ files, ∀ e ∈ fileD.enumType,
    HasEntry D.enumName pool.serial s.findEnum (D.enumName e)

def Truthful (s : Registry D) (fs : FileSystem) (heap : ℕ → UInt8) (filename : Bytes) : Prop :=
  let r := s.initDescriptorPool fs heap filename
  r.1 = true → ∃ f fds files pool, Registered fs filename r.2 f fds files pool

theorem registered_of_readInFull {s : Registry D} (hnone : s.pool = none) {fs : FileSystem}
    {heap : ℕ → UInt8} {filename : Bytes} {f : File} (hopen : fs filename = some f)
    (hfull : f.ReadInFull) (htrue : (s.initDescriptorPool fs heap filename).1 = true) :
    ∃ fds files pool, Registered fs filename (s.initDescriptorPool fs heap filename).2 f fds files
      pool := by
  obtain ⟨fds, files, hload, hbuilt⟩ := (init_eq_true_iff hnone fs heap filename).mp htrue
  have hentered := init_entered hnone hload hbuilt
  obtain ⟨pool, hlive, hserial, hfiles⟩ := hentered.live
  rw [loadDescriptorFile_of_open hopen, hfull.buffer_eq, show f.size = _ from hfull] at hload
  refine ⟨fds, files, pool, hopen, hfull, hload, hbuilt, hlive, ?_, ?_, ?_⟩
  · rw [hfiles, List.append_nil]
  · intro fileD hfile msg hmem
    have hmap : findMessage (s.initDescriptorPool fs heap filename).2 = _ := hentered.msgMap
    rw [hmap, hserial]
    exact hasEntry_of_mem _ _ (List.mem_flatMap.mpr ⟨fileD, hfile, hmem⟩)
  · intro fileD hfile e hmem
    have hmap : findEnum (s.initDescriptorPool fs heap filename).2 = _ := hentered.enumMap
    rw [hmap, hserial]
    exact hasEntry_of_mem _ _ (List.mem_flatMap.mpr ⟨fileD, hfile, hmem⟩)

/-- A registration is truthful exactly if it is refused, or if the file opens and is read in
full, or if what was read in place of it does not parse or is not built. -/
theorem truthful_iff (hnull : D.parseFromArray none 0 = some []) (s : Registry D) (fs : FileSystem)
    (heap : ℕ → UInt8) (filename : Bytes) :
    s.Truthful fs heap filename ↔ s.pool.isSome = true ∨ ∃ f, fs filename = some f ∧
      (f.ReadInFull ∨ ∀ fds, D.parseFromArray (some (f.buffer heap)) f.size = some fds →
        ¬ Builds D D.empty fds) := by
  by_cases hlive : s.pool.isSome = true
  · rw [Truthful, init_of_live hlive]
    simp [hlive]
  · rw [or_iff_right hlive]
    have hnone : s.pool = none := by simpa using hlive
    have htrue := init_eq_true_iff hnone fs heap filename
    simp only [exists_and_left, ← builds_iff] at htrue
    cases hopen : fs filename with
    | none =>
        have hload : loadDescriptorFile D fs heap filename = some [] := by
          rw [loadDescriptorFile, loadFileContent, hopen]
          exact hnull
        constructor
        · intro h
          obtain ⟨f, _, _, _, hreg⟩ := h (htrue.mpr ⟨[], hload, trivial⟩)
          cases hopen.symm.trans hreg.opened
        · rintro ⟨f, ⟨⟩, -⟩
    | some f =>
        rw [loadDescriptorFile_of_open hopen] at htrue
        constructor
        · intro h
          refine ⟨f, rfl, or_iff_not_imp_left.mpr ?_⟩
          intro hpart fds hparse hbuilds
          obtain ⟨f', _, _, _, hreg⟩ := h (htrue.mpr ⟨fds, hparse, hbuilds⟩)
          obtain rfl := Option.some.inj (hopen.symm.trans hreg.opened)
          exact hpart hreg.readInFull
        · rintro ⟨_, ⟨⟩, hfull | hfails⟩ hinit
          · exact ⟨f, registered_of_readInFull hnone hopen hfull hinit⟩
          · obtain ⟨fds, hparse, hbuilds⟩ := htrue.mp hinit
            exact absurd hbuilds (hfails fds hparse)

theorem truthful_good :
    (initial : Registry Nested.library).Truthful AddressBook.files (fun _ => 0) [103] :=
  (truthful_iff rfl _ _ _ _).mpr (.inr ⟨⟨1, [1]⟩, rfl, .inl rfl⟩)

/-- A file that does not open: the call returns true, and nothing is registered. -/
theorem not_truthful_missing :
    let s : Registry Nested.library := initial
    let r := s.initDescriptorPool AddressBook.files (fun _ => 0) []
    AddressBook.files [] = none ∧ r.1 = true ∧ (∀ name, r.2.findMessage name = none) ∧
      ¬ s.Truthful AddressBook.files (fun _ => 0) [] := by
  intro s r
  refine ⟨rfl, rfl, fun _ => rfl, ?_⟩
  intro h
  obtain ⟨f, _, _, _, hreg⟩ := h rfl
  cases hreg.opened

/-! ## Types inside messages -/

end Registry

/-- What descriptors say of types inside messages. The project never asks for it. -/
structure Nesting (D : DescriptorLibrary) where
  nestedType : D.Message → List D.Message
  enumType : D.Message → List D.Enum
  containingType : D.Message → Option D.Message
  enumContainingType : D.Enum → Option D.Message

namespace Nesting

variable (N : Nesting D)

/-- The message types a file declares, at any depth. -/
inductive Declares (fileD : FileDescriptor D.Message D.Enum) : D.Message → Prop
  | topLevel {msg} (h : msg ∈ fileD.messageType) : Declares fileD msg
  | nested {msg inner} (h : Declares fileD msg) (hmem : inner ∈ N.nestedType msg) :
      Declares fileD inner

inductive DeclaresEnum (fileD : FileDescriptor D.Message D.Enum) : D.Enum → Prop
  | topLevel {e} (h : e ∈ fileD.enumType) : DeclaresEnum fileD e
  | nested {msg e} (h : N.Declares fileD msg) (hmem : e ∈ N.enumType msg) : DeclaresEnum fileD e

/-- What protobuf documents: only types inside messages have a containing type, and no two
types that are built in one pool have the same full name. -/
structure Documented : Prop where
  topLevel : ∀ tables fdp fileD tables', D.buildFile tables fdp = (some fileD, tables') →
    ∀ msg ∈ fileD.messageType, N.containingType msg = none
  topLevelEnum : ∀ tables fdp fileD tables', D.buildFile tables fdp = (some fileD, tables') →
    ∀ e ∈ fileD.enumType, N.enumContainingType e = none
  nested : ∀ msg, ∀ inner ∈ N.nestedType msg, N.containingType inner = some msg
  nestedEnum : ∀ msg, ∀ e ∈ N.enumType msg, N.enumContainingType e = some msg
  unique : ∀ fds files, Registry.BuiltAs D D.empty fds files → ∀ fileD ∈ files, ∀ fileD' ∈ files,
    ∀ msg msg', N.Declares fileD msg → N.Declares fileD' msg' →
      D.messageName msg = D.messageName msg' → msg = msg'
  uniqueEnum : ∀ fds files, Registry.BuiltAs D D.empty fds files → ∀ fileD ∈ files,
    ∀ fileD' ∈ files, ∀ e e', N.DeclaresEnum fileD e → N.DeclaresEnum fileD' e' →
      D.enumName e = D.enumName e' → e = e'

def Flat (fileD : FileDescriptor D.Message D.Enum) : Prop :=
  ∀ msg ∈ fileD.messageType, N.nestedType msg = [] ∧ N.enumType msg = []

variable {N}

theorem Flat.messageType {fileD : FileDescriptor D.Message D.Enum} (h : N.Flat fileD)
    {msg : D.Message} (hmsg : N.Declares fileD msg) : msg ∈ fileD.messageType := by
  induction hmsg with
  | topLevel hmem => exact hmem
  | nested _ hmem ih =>
      rw [(h _ ih).1] at hmem
      cases hmem

theorem Flat.enumType {fileD : FileDescriptor D.Message D.Enum} (h : N.Flat fileD)
    {e : D.Enum} (he : N.DeclaresEnum fileD e) : e ∈ fileD.enumType := by
  cases he with
  | topLevel hmem => exact hmem
  | nested hmsg hmem =>
      rw [(h _ (h.messageType hmsg)).2] at hmem
      cases hmem

end Nesting

namespace Registry

variable {N : Nesting D}

/-- Every type that a file of the set declares is found under its full name, and nothing
else is. -/
structure Complete (N : Nesting D) (s : Registry D)
    (files : List (FileDescriptor D.Message D.Enum)) : Prop where
  messages : ∀ name msg, (s.findMessage name).map (·.descriptor) = some msg ↔
    (∃ fileD ∈ files, N.Declares fileD msg) ∧ D.messageName msg = name
  enums : ∀ name e, (s.findEnum name).map (·.descriptor) = some e ↔
    (∃ fileD ∈ files, N.DeclaresEnum fileD e) ∧ D.enumName e = name

theorem BuiltAs.of_mem {tables : D.Tables} {fds : List D.FileDescriptorProto}
    {files : List (FileDescriptor D.Message D.Enum)} (h : BuiltAs D tables fds files)
    {fileD : FileDescriptor D.Message D.Enum} (hmem : fileD ∈ files) :
    ∃ tables fdp tables', D.buildFile tables fdp = (some fileD, tables') := by
  induction h with
  | nil => cases hmem
  | cons hbuild _ ih =>
      cases hmem with
      | head => exact ⟨_, _, _, hbuild⟩
      | tail _ hmem => exact ih hmem

/-- Where names are unique, a map shows all types that are declared exactly if all of them
were entered. -/
theorem entered_eq_iff {α : Type} {nameOf : α → Bytes} {serial : ℕ} {types : List α}
    {declared : α → Prop} (hsub : ∀ t ∈ types, declared t)
    (hunique : ∀ t t', declared t → declared t' → nameOf t = nameOf t' → t = t') :
    (∀ name t, (entered nameOf serial types (fun _ => none) name).map (·.descriptor) = some t ↔
        declared t ∧ nameOf t = name) ↔
      ∀ t, declared t → t ∈ types := by
  constructor
  · intro h t ht
    obtain ⟨d, hd, rfl⟩ := Option.map_eq_some_iff.mp ((h (nameOf t) t).mpr ⟨ht, rfl⟩)
    exact (mem_of_entered hd).1
  · intro h name t
    constructor
    · intro hfound
      obtain ⟨d, hd, rfl⟩ := Option.map_eq_some_iff.mp hfound
      obtain ⟨hmem, hname⟩ := mem_of_entered hd
      exact ⟨hsub _ hmem, hname⟩
    · rintro ⟨ht, rfl⟩
      have hentry : HasEntry nameOf serial (entered nameOf serial types fun _ => none) (nameOf t) :=
        hasEntry_of_mem serial _ (h t ht)
      obtain ⟨d, hd, -, hname⟩ := hentry
      have hsame := hunique _ _ (hsub _ (mem_of_entered hd).1) ht hname
      rw [hd, Option.map_some, hsame]

structure TopLevel (N : Nesting D) (files : List (FileDescriptor D.Message D.Enum)) : Prop where
  messages : ∀ msg, (∃ fileD ∈ files, N.Declares fileD msg) → msg ∈ files.flatMap (·.messageType)
  enums : ∀ e, (∃ fileD ∈ files, N.DeclaresEnum fileD e) → e ∈ files.flatMap (·.enumType)

theorem complete_iff_topLevel (hN : N.Documented) {s s' : Registry D} {pool : DescriptorPool D}
    {fds : List D.FileDescriptorProto} {files : List (FileDescriptor D.Message D.Enum)}
    (hbuilt : BuiltAs D D.empty fds files) (hentered : s.Entered pool files s')
    (hmsg : s.msgMap = fun _ => none) (henum : s.enumMap = fun _ => none) :
    Complete N s' files ↔ TopLevel N files := by
  have hmessages : (∀ name msg, (s'.findMessage name).map (·.descriptor) = some msg ↔
      (∃ fileD ∈ files, N.Declares fileD msg) ∧ D.messageName msg = name) ↔
        ∀ msg, (∃ fileD ∈ files, N.Declares fileD msg) → msg ∈ files.flatMap (·.messageType) := by
    have hmap : s'.findMessage = _ := hentered.msgMap
    rw [hmap, hmsg]
    apply entered_eq_iff
    · intro msg hmem
      obtain ⟨fileD, hfile, hmem⟩ := List.mem_flatMap.mp hmem
      exact ⟨fileD, hfile, .topLevel hmem⟩
    · rintro msg msg' ⟨fileD, hfile, hdecl⟩ ⟨fileD', hfile', hdecl'⟩ hname
      exact hN.unique fds files hbuilt fileD hfile fileD' hfile' msg msg' hdecl hdecl' hname
  have henums : (∀ name e, (s'.findEnum name).map (·.descriptor) = some e ↔
      (∃ fileD ∈ files, N.DeclaresEnum fileD e) ∧ D.enumName e = name) ↔
        ∀ e, (∃ fileD ∈ files, N.DeclaresEnum fileD e) → e ∈ files.flatMap (·.enumType) := by
    have hmap : s'.findEnum = _ := hentered.enumMap
    rw [hmap, henum]
    apply entered_eq_iff
    · intro e hmem
      obtain ⟨fileD, hfile, hmem⟩ := List.mem_flatMap.mp hmem
      exact ⟨fileD, hfile, .topLevel hmem⟩
    · rintro e e' ⟨fileD, hfile, hdecl⟩ ⟨fileD', hfile', hdecl'⟩ hname
      exact hN.uniqueEnum fds files hbuilt fileD hfile fileD' hfile' e e' hdecl hdecl' hname
  constructor
  · intro h
    exact ⟨hmessages.mp h.messages, henums.mp h.enums⟩
  · intro h
    exact ⟨hmessages.mpr h.messages, henums.mpr h.enums⟩

theorem topLevel_iff_flat (hN : N.Documented) {tables : D.Tables}
    {fds : List D.FileDescriptorProto} {files : List (FileDescriptor D.Message D.Enum)}
    (hbuilt : BuiltAs D tables fds files) :
    TopLevel N files ↔ ∀ fileD ∈ files, N.Flat fileD := by
  constructor
  · intro h fileD hfile msg hmem
    have hdecl : N.Declares fileD msg := .topLevel hmem
    constructor
    · apply List.eq_nil_iff_forall_not_mem.mpr
      intro inner hinner
      obtain ⟨fileD', hfile', htop⟩ :=
        List.mem_flatMap.mp (h.messages inner ⟨fileD, hfile, hdecl.nested hinner⟩)
      obtain ⟨_, _, _, hbuild⟩ := hbuilt.of_mem hfile'
      cases (hN.topLevel _ _ _ _ hbuild inner htop).symm.trans (hN.nested msg inner hinner)
    · apply List.eq_nil_iff_forall_not_mem.mpr
      intro e hinner
      obtain ⟨fileD', hfile', htop⟩ :=
        List.mem_flatMap.mp (h.enums e ⟨fileD, hfile, .nested hdecl hinner⟩)
      obtain ⟨_, _, _, hbuild⟩ := hbuilt.of_mem hfile'
      cases (hN.topLevelEnum _ _ _ _ hbuild e htop).symm.trans (hN.nestedEnum msg e hinner)
  · intro h
    constructor
    · rintro msg ⟨fileD, hfile, hdecl⟩
      exact List.mem_flatMap.mpr ⟨fileD, hfile, (h fileD hfile).messageType hdecl⟩
    · rintro e ⟨fileD, hfile, hdecl⟩
      exact List.mem_flatMap.mpr ⟨fileD, hfile, (h fileD hfile).enumType hdecl⟩

/-- After a registration every declared type is found exactly if no type is declared inside
a message. -/
theorem complete_iff (hN : N.Documented) {fs : FileSystem} {heap : ℕ → UInt8} {filename : Bytes}
    {fds : List D.FileDescriptorProto} (hload : loadDescriptorFile D fs heap filename = some fds)
    {files : List (FileDescriptor D.Message D.Enum)} (hbuilt : BuiltAs D D.empty fds files) :
    let r := (initial : Registry D).initDescriptorPool fs heap filename
    r.1 = true ∧ (Complete N r.2 files ↔ ∀ fileD ∈ files, N.Flat fileD) := by
  constructor
  · exact (init_eq_true_iff rfl fs heap filename).mpr ⟨fds, files, hload, hbuilt⟩
  · rw [complete_iff_topLevel hN hbuilt (init_entered rfl hload hbuilt) rfl rfl,
      topLevel_iff_flat hN hbuilt]

end Registry

namespace Nested

def nesting : Nesting library where
  nestedType
    | .person => [.phoneNumber]
    | .phoneNumber => []
  enumType
    | .person => [()]
    | .phoneNumber => []
  containingType
    | .person => none
    | .phoneNumber => some .person
  enumContainingType _ := some .person

theorem fullName_injective {msg msg' : Message} (h : fullName msg = fullName msg') :
    msg = msg' := by
  revert h
  cases msg <;> cases msg' <;> decide

theorem nesting_documented : nesting.Documented where
  topLevel := by
    rintro _ _ _ _ ⟨⟩ msg hmem
    obtain rfl := List.mem_singleton.mp hmem
    rfl
  topLevelEnum := by
    rintro _ _ _ _ ⟨⟩ e ⟨⟩
  nested := by
    rintro (_ | _) inner hmem
    · obtain rfl := List.mem_singleton.mp hmem
      rfl
    · cases hmem
  nestedEnum := by
    rintro (_ | _) e hmem
    · rfl
    · cases hmem
  unique _ _ _ _ _ _ _ _ _ _ _ hname := fullName_injective hname
  uniqueEnum _ _ _ _ _ _ _ _ _ _ _ _ := rfl

end Nested

namespace Registry

theorem complete_nested :
    let r := (initial : Registry Nested.library).initDescriptorPool AddressBook.files
      (fun _ => 0) [103]
    r.1 = true ∧ (Complete Nested.nesting r.2 [⟨[.person], []⟩] ↔
      ∀ fileD ∈ [(⟨[.person], []⟩ : FileDescriptor Nested.Message Unit)],
        Nested.nesting.Flat fileD) :=
  complete_iff Nested.nesting_documented rfl (.cons rfl .nil)

/-- It declares `Person.PhoneNumber`, which is not found. -/
theorem not_complete_nested :
    let r := (initial : Registry Nested.library).initDescriptorPool AddressBook.files
      (fun _ => 0) [103]
    r.1 = true ∧ (r.2.findMessage (Nested.fullName .person)).isSome = true ∧
      Nested.nesting.Declares ⟨[.person], []⟩ .phoneNumber ∧
      r.2.findMessage (Nested.fullName .phoneNumber) = none ∧
      ¬ Complete Nested.nesting r.2 [⟨[.person], []⟩] := by
  intro r
  have hdecl : Nested.nesting.Declares ⟨[.person], []⟩ .phoneNumber :=
    .nested (.topLevel (List.mem_singleton_self _)) (List.mem_singleton_self _)
  refine ⟨rfl, rfl, hdecl, rfl, ?_⟩
  intro h
  have hfound := (h.messages (Nested.fullName .phoneNumber) .phoneNumber).mpr
    ⟨⟨_, List.mem_singleton_self _, hdecl⟩, rfl⟩
  cases hfound

end Registry

end Luapb

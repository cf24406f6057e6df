import Luapb.Model.Schemas

/-! # The registry over whole runs

The maps only ever show descriptors of the live pool. What a failed registration leaves
behind is another matter: the pool stays, and with it what was entered so far. -/

namespace Luapb

namespace Registry

variable {D : DescriptorLibrary}

/-! ## What is entered in a map -/

theorem insert_eq_some {α : Type} {map : NameMap α} {name n : Bytes} {d d' : Owned α}
    (h : map.insert name d n = some d') : (n = name ∧ d' = d) ∨ map n = some d' := by
  rw [NameMap.insert] at h
  split at h
  · exact .inl ⟨‹n = name›, (Option.some.inj h).symm⟩
  · exact .inr h

/-- What is in a map after the loop over the types of a file. -/
theorem foldl_insert_eq_some {α : Type} {nameOf : α → Bytes} {serial : ℕ} {types : List α}
    {map : NameMap α} {n : Bytes} {d : Owned α}
    (h : types.foldl (fun map t => map.insert (nameOf t) ⟨serial, t⟩) map n = some d) :
    (d.pool = serial ∧ d.descriptor ∈ types ∧ nameOf d.descriptor = n) ∨ map n = some d := by
  induction types generalizing map with
  | nil => exact .inr h
  | cons t types ih =>
      rcases ih h with ⟨hpool, hmem, hname⟩ | hmap
      · exact .inl ⟨hpool, List.mem_cons_of_mem t hmem, hname⟩
      · rcases insert_eq_some hmap with ⟨rfl, rfl⟩ | hmap
        · exact .inl ⟨rfl, List.mem_cons_self, rfl⟩
        · exact .inr hmap

/-- A map shows types of the pool under their full names. -/
def Shows {α : Type} (nameOf : α → Bytes) (types : FileDescriptor D.Message D.Enum → List α)
    (pool : DescriptorPool D) (map : NameMap α) : Prop :=
  ∀ name d, map name = some d → d.pool = pool.serial ∧ nameOf d.descriptor = name ∧
    ∃ fileD ∈ pool.files, d.descriptor ∈ types fileD

theorem Shows.empty {α : Type} {nameOf : α → Bytes}
    {types : FileDescriptor D.Message D.Enum → List α} {pool : DescriptorPool D} {map : NameMap α}
    (h : ∀ name, map name = none) : Shows nameOf types pool map := by
  intro name d hd
  cases (h name).symm.trans hd

theorem Shows.mono {α : Type} {nameOf : α → Bytes}
    {types : FileDescriptor D.Message D.Enum → List α} {pool pool' : DescriptorPool D}
    {map : NameMap α} (h : Shows nameOf types pool map) (hserial : pool'.serial = pool.serial)
    (hfiles : ∀ fileD ∈ pool.files, fileD ∈ pool'.files) : Shows nameOf types pool' map := by
  intro name d hd
  rcases h name d hd with ⟨hpool, hname, fileD, hmem, htype⟩
  exact ⟨hpool.trans hserial.symm, hname, fileD, hfiles fileD hmem, htype⟩

theorem Shows.enter {α : Type} {nameOf : α → Bytes}
    {types : FileDescriptor D.Message D.Enum → List α} {pool : DescriptorPool D} {map : NameMap α}
    (h : Shows nameOf types pool map) {fileD : FileDescriptor D.Message D.Enum}
    (hmem : fileD ∈ pool.files) :
    Shows nameOf types pool
      ((types fileD).foldl (fun map t => map.insert (nameOf t) ⟨pool.serial, t⟩) map) := by
  intro name d hd
  rcases foldl_insert_eq_some hd with ⟨hpool, htype, hname⟩ | hmap
  · exact ⟨hpool, hname, fileD, hmem, htype⟩
  · exact h name d hmap

/-! ## The invariant -/

/-- Without a live pool the maps are empty. With one they show its descriptors under their
full names, and it is none of the deleted pools. -/
structure Consistent (s : Registry D) : Prop where
  empty_of_none : s.pool = none → (∀ name, s.msgMap name = none) ∧ ∀ name, s.enumMap name = none
  messages : ∀ pool, s.pool = some pool → Shows D.messageName (·.messageType) pool s.msgMap
  enums : ∀ pool, s.pool = some pool → Shows D.enumName (·.enumType) pool s.enumMap
  created : ∀ pool, s.pool = some pool → pool.serial < s.created
  deleted : ∀ serial ∈ s.deleted, serial < s.created
  notDeleted : ∀ pool, s.pool = some pool → pool.serial ∉ s.deleted

theorem consistent_initial : (initial : Registry D).Consistent where
  empty_of_none _ := ⟨fun _ => rfl, fun _ => rfl⟩
  messages _ h := nomatch h
  enums _ h := nomatch h
  created _ h := nomatch h
  deleted _ h := nomatch h
  notDeleted _ h := nomatch h

/-- Building in the live pool, whatever comes of it. -/
theorem Consistent.build {s : Registry D} (h : s.Consistent) {pool : DescriptorPool D}
    (hpool : s.pool = some pool) (fdp : D.FileDescriptorProto) :
    Consistent { s with pool := some (pool.build fdp).2 } := by
  have hserial : (pool.build fdp).2.serial = pool.serial := by
    rw [DescriptorPool.build]
    split <;> rfl
  have hfiles : ∀ fileD ∈ pool.files, fileD ∈ (pool.build fdp).2.files := by
    rw [DescriptorPool.build]
    split
    · exact fun _ hmem => hmem
    · exact fun _ hmem => List.mem_cons_of_mem _ hmem
  constructor
  · intro hnone
    cases hnone
  · rintro _ ⟨⟩
    exact (h.messages pool hpool).mono hserial hfiles
  · rintro _ ⟨⟩
    exact (h.enums pool hpool).mono hserial hfiles
  · rintro _ ⟨⟩
    exact hserial ▸ h.created pool hpool
  · exact h.deleted
  · rintro _ ⟨⟩
    exact hserial ▸ h.notDeleted pool hpool

/-- A file that was built is one of the pool's. -/
theorem mem_files_of_build {pool : DescriptorPool D} {fdp : D.FileDescriptorProto}
    {fileD : FileDescriptor D.Message D.Enum} (h : (pool.build fdp).1 = some fileD) :
    fileD ∈ (pool.build fdp).2.files := by
  rw [DescriptorPool.build] at h ⊢
  split at h
  · cases h
  · cases h
    exact List.mem_cons_self

theorem Consistent.enter {s : Registry D} (h : s.Consistent) {pool : DescriptorPool D}
    (hpool : s.pool = some pool) {fileD : FileDescriptor D.Message D.Enum}
    (hmem : fileD ∈ pool.files) : (s.enter pool fileD).Consistent := by
  constructor
  · intro hnone
    cases hpool.symm.trans hnone
  · intro pool' hpool'
    obtain rfl := Option.some.inj (hpool.symm.trans hpool')
    exact (h.messages pool hpool).enter hmem
  · intro pool' hpool'
    obtain rfl := Option.some.inj (hpool.symm.trans hpool')
    exact (h.enums pool hpool).enter hmem
  · exact h.created
  · exact h.deleted
  · exact h.notDeleted

theorem Consistent.buildFiles {s : Registry D} (h : s.Consistent) {pool : DescriptorPool D}
    (hpool : s.pool = some pool) (fds : List D.FileDescriptorProto) :
    (Registry.buildFiles pool fds s).2.Consistent := by
  induction fds generalizing s pool with
  | nil => exact h
  | cons fdp fds ih =>
      have hbuild := h.build hpool fdp
      rw [Registry.buildFiles]
      cases hfile : (pool.build fdp).1 with
      | none => exact hbuild
      | some fileD => exact ih (hbuild.enter rfl (mem_files_of_build hfile)) rfl

theorem Consistent.init {s : Registry D} (h : s.Consistent) (fs : FileSystem) (heap : ℕ → UInt8)
    (filename : Bytes) : (s.initDescriptorPool fs heap filename).2.Consistent := by
  rw [initDescriptorPool]
  split
  · exact h
  · rename_i hnone
    have hempty := h.empty_of_none (by simpa using hnone)
    -- the new pool is none of those before it, and the maps are empty still
    have hnew : Consistent { s with
        pool := some (⟨s.created, D.empty, []⟩ : DescriptorPool D), created := s.created + 1 } := by
      constructor
      · intro hnone
        cases hnone
      · intro pool _
        exact .empty hempty.1
      · intro pool _
        exact .empty hempty.2
      · rintro _ ⟨⟩
        exact Nat.lt_succ_self s.created
      · intro serial hmem
        exact (h.deleted serial hmem).trans (Nat.lt_succ_self s.created)
      · rintro _ ⟨⟩ hmem
        exact lt_irrefl _ (h.deleted s.created hmem)
    dsimp only
    split
    · exact hnew
    · exact hnew.buildFiles rfl _

theorem Consistent.release {s : Registry D} (h : s.Consistent) :
    s.releaseDescriptorPool.Consistent := by
  rw [releaseDescriptorPool]
  cases hpool : s.pool with
  | none => exact h
  | some pool =>
      constructor
      · exact fun _ => ⟨fun _ => rfl, fun _ => rfl⟩
      · exact fun _ hsome => nomatch hsome
      · exact fun _ hsome => nomatch hsome
      · exact fun _ hsome => nomatch hsome
      · exact List.forall_mem_cons.mpr ⟨h.created pool hpool, h.deleted⟩
      · exact fun _ hsome => nomatch hsome

theorem Consistent.step {s : Registry D} (h : s.Consistent) (call : Call) :
    (s.step call).2.Consistent := by
  cases call with
  | init fs heap filename => exact h.init fs heap filename
  | release => exact h.release

theorem Consistent.run {s : Registry D} (h : s.Consistent) (calls : List Call) :
    (Registry.run calls s).Consistent := by
  induction calls generalizing s with
  | nil => exact h
  | cons call calls ih => exact ih (h.step call)

/-- A call on a live pool is refused. -/
theorem init_of_live {s : Registry D} (h : s.pool.isSome = true) (fs : FileSystem)
    (heap : ℕ → UInt8) (filename : Bytes) :
    s.initDescriptorPool fs heap filename = (false, s) := if_pos h

/-- After any sequence of calls: what the maps show belongs to the live pool, so nothing
that is found belongs to a deleted one, and a pool that is live stays as it is until it
is released. -/
theorem run_owned (calls : List Call) :
    let s : Registry D := run calls initial
    (s.pool = none → (∀ name, s.msgMap name = none) ∧ ∀ name, s.enumMap name = none) ∧
      (∀ pool, s.pool = some pool → Shows D.messageName (·.messageType) pool s.msgMap ∧
        Shows D.enumName (·.enumType) pool s.enumMap) ∧
      (∀ name d, s.findMessage name = some d → d.pool ∉ s.deleted ∧
        ∃ pool, s.pool = some pool ∧ d.pool = pool.serial) ∧
      (∀ name d, s.findEnum name = some d → d.pool ∉ s.deleted ∧
        ∃ pool, s.pool = some pool ∧ d.pool = pool.serial) ∧
      ∀ fs heap filename, s.pool.isSome = true →
        s.initDescriptorPool fs heap filename = (false, s) := by
  intro s
  have h : s.Consistent := consistent_initial.run calls
  have hfound : ∀ {α : Type} {nameOf : α → Bytes}
      {types : FileDescriptor D.Message D.Enum → List α} {map : NameMap α},
      (s.pool = none → ∀ name, map name = none) →
      (∀ pool, s.pool = some pool → Shows nameOf types pool map) →
      ∀ name d, map name = some d → d.pool ∉ s.deleted ∧
        ∃ pool, s.pool = some pool ∧ d.pool = pool.serial := by
    intro α nameOf types map hnone hsome name d hd
    cases hpool : s.pool with
    | none => cases (hnone hpool name).symm.trans hd
    | some pool =>
        have howned := (hsome pool hpool name d hd).1
        exact ⟨howned ▸ h.notDeleted pool hpool, pool, rfl, howned⟩
  refine ⟨h.empty_of_none, ?_, ?_, ?_, ?_⟩
  · intro pool hpool
    exact ⟨h.messages pool hpool, h.enums pool hpool⟩
  · exact hfound (fun hnone => (h.empty_of_none hnone).1) h.messages
  · exact hfound (fun hnone => (h.empty_of_none hnone).2) h.enums
  · intro fs heap filename hlive
    exact init_of_live hlive fs heap filename

/-! ## Failed registrations -/

/-- Every file of the set is built. -/
def Builds (D : DescriptorLibrary) : D.Tables → List D.FileDescriptorProto → Prop
  | _, [] => True
  | tables, fdp :: fds =>
      ∃ fileD, (D.buildFile tables fdp).1 = some fileD ∧ Builds D (D.buildFile tables fdp).2 fds

/-- A registration that fails leaves the registry as it was, and all calls after it return
what they would have returned. -/
def FailsCleanly (s : Registry D) (fs : FileSystem) (heap : ℕ → UInt8) (filename : Bytes) : Prop :=
  let r := s.initDescriptorPool fs heap filename
  r.1 = false →
    r.2.pool = s.pool ∧ r.2.msgMap = s.msgMap ∧ r.2.enumMap = s.enumMap ∧
      (∀ name, r.2.findMessage name = s.findMessage name) ∧
      ∀ calls, results calls r.2 = results calls s

theorem buildFiles_eq_true {pool : DescriptorPool D} {fds : List D.FileDescriptorProto}
    {s : Registry D} : (buildFiles pool fds s).1 = true ↔ Builds D pool.tables fds := by
  induction fds generalizing pool s with
  | nil => simp [buildFiles, Builds]
  | cons fdp fds ih =>
      have htables : (pool.build fdp).2.tables = (D.buildFile pool.tables fdp).2 := by
        rw [DescriptorPool.build]
        split <;> simp [*]
      have hfile : (pool.build fdp).1 = (D.buildFile pool.tables fdp).1 := by
        rw [DescriptorPool.build]
        split <;> simp [*]
      rw [buildFiles, Builds, ← hfile, ← htables]
      cases h : (pool.build fdp).1 with
      | none => simp
      | some fileD => simp [ih]

theorem buildFiles_pool (pool : DescriptorPool D) (fds : List D.FileDescriptorProto)
    {s : Registry D} (h : s.pool.isSome = true) :
    (buildFiles pool fds s).2.pool.isSome = true := by
  induction fds generalizing pool s with
  | nil => exact h
  | cons fdp fds ih =>
      rw [buildFiles]
      cases hfile : (pool.build fdp).1 with
      | none => rfl
      | some fileD => exact ih _ rfl

/-- A registration fails cleanly exactly if a pool is live already, or if it does not fail:
the file loads and all its files are built. -/
theorem failsCleanly_iff (s : Registry D) (fs : FileSystem) (heap : ℕ → UInt8) (filename : Bytes) :
    s.FailsCleanly fs heap filename ↔
      s.pool.isSome = true ∨
        ∃ fds, loadDescriptorFile D fs heap filename = some fds ∧ Builds D D.empty fds := by
  by_cases hlive : s.pool.isSome = true
  · rw [FailsCleanly, init_of_live hlive]
    simp [hlive]
  · rw [or_iff_right hlive]
    have hnone : s.pool = none := by simpa using hlive
    rw [FailsCleanly, initDescriptorPool, if_neg hlive]
    cases hload : loadDescriptorFile D fs heap filename with
    | none => simp [hnone]
    | some fds =>
        have hiff : (buildFiles (⟨s.created, D.empty, []⟩ : DescriptorPool D) fds { s with
            pool := some ⟨s.created, D.empty, []⟩, created := s.created + 1 }).1 = true ↔
            Builds D D.empty fds := buildFiles_eq_true
        have hpool := buildFiles_pool (⟨s.created, D.empty, []⟩ : DescriptorPool D) fds
          (s := { s with pool := some ⟨s.created, D.empty, []⟩, created := s.created + 1 }) rfl
        simp only [Option.some.injEq, exists_eq_left']
        rw [← hiff]
        constructor
        · intro h
          by_contra hfalse
          have hstays := (h (by simpa using hfalse)).1
          rw [hstays, hnone] at hpool
          cases hpool
        · intro htrue hfalse
          cases htrue.symm.trans hfalse

/-- A set whose second file is not built: the pool stays live, the message of the first file
is found, and the good file that would have been registered is refused. -/
theorem not_failsCleanly_second :
    let s : Registry AddressBook.library := initial
    let bad := s.initDescriptorPool AddressBook.files (fun _ => 0) [98]
    bad.1 = false ∧
      (bad.2.findMessage (AddressBook.fullName .person)).isSome = true ∧
      (s.initDescriptorPool AddressBook.files (fun _ => 0) [103]).1 = true ∧
      (bad.2.initDescriptorPool AddressBook.files (fun _ => 0) [103]).1 = false ∧
      ¬ s.FailsCleanly AddressBook.files (fun _ => 0) [98] := by
  intro s bad
  have hfails : bad.1 = false := by decide
  have hfinds : (bad.2.findMessage (AddressBook.fullName .person)).isSome = true := by decide
  refine ⟨hfails, hfinds, by decide, by decide, fun h => ?_⟩
  have hfind := (h hfails).2.2.2.1 (AddressBook.fullName .person)
  have hsome := hfinds
  rw [hfind] at hsome
  cases hsome

end Registry

end Luapb

import Luapb.Verification.Encoder.Course
import Luapb.Verification.Encoder.Size

/-! # Sizes that do not fit an `int`

`RawByteSize` adds up in an `int`, and nothing bounds what it adds: Lua strings and tables
are shared by reference, so a small state can have a size of any magnitude. -/

namespace Luapb

open Ieee754 Wire PBStream

variable {M : Type} {P : Platform} {W : WireFormatLite} {L : LuaState} {schema : Schema M}

/-! ## Narrowed sums -/

theorem int32_lt (x : ℤ) : int32 x < 2 ^ 31 := by
  have h := Int.bmod_lt (x := x) (m := 2 ^ 32) (by decide)
  rw [int32]
  omega

theorem int32_int32_add (x y : ℤ) : int32 (int32 x + y) = int32 (x + y) := by
  simp only [int32, Int.bmod_add_bmod]

/-- The `int` of a sum, however often it was narrowed on the way. -/
theorem foldl_addTerms_wrap (terms : List (ℤ × ℤ)) (size : ℤ) :
    terms.foldl (addTerms int32) (int32 size) =
      int32 (size + (terms.map fun t => t.1 + t.2).sum) := by
  induction terms generalizing size with
  | nil => simp
  | cons t terms ih =>
      have hstep : addTerms int32 (int32 size) t = int32 (size + (t.1 + t.2)) := by
        rw [addTerms, int32_int32_add, Int.add_assoc, int32_int32_add]
      rw [List.foldl_cons, hstep, ih, List.map_cons, List.sum_cons, Int.add_assoc]

theorem int32_zero : int32 0 = 0 := by decide

/-- An `int` is below `2 ^ 31`. -/
theorem rawByteSize_lt {fuel : ℕ} {msgD : M} {tab : L.Value} {n : ℤ}
    (h : rawByteSize P W L schema fuel msgD tab = .ok n) : n < 2 ^ 31 := by
  cases fuel with
  | zero => cases h
  | succ fuel =>
      rcases rawByteSizeBy_eq_ok.mp h with ⟨terms, -, rfl⟩
      have hwrap := foldl_addTerms_wrap terms 0
      rw [int32_zero] at hwrap
      rw [hwrap]
      exact int32_lt _

/-- Where `RawByteSize` returns, the exact size exists. -/
theorem exists_exactSize {fuel : ℕ} {msgD : M} {tab : L.Value} {n : ℤ}
    (h : rawByteSize P W L schema fuel msgD tab = .ok n) :
    ∃ total, rawByteSizeBy P W L schema id fuel msgD tab = .ok total := by
  rw [← Fallible.outcome_eq_ok, rawByteSizeBy_outcome_eq id int32]
  exact Fallible.outcome_eq_ok.mpr ⟨n, h⟩

/-! ## Exact sizes -/

/-- The `int` that is returned, those of all nested tables, values and string lengths, and
the size of the buffer, are the exact numbers. -/
structure SizesExact (P : Platform) (W : WireFormatLite) (L : LuaState) (schema : Schema M)
    (fuel : ℕ) (msgD : M) (tab : L.Value) (n : ℤ) : Prop where
  total : rawByteSizeBy P W L schema id fuel msgD tab = .ok n
  nested : ∀ fuel' fd value messageType, Visits P L schema fuel msgD tab fuel' (fd, value) →
    fd.type.messageType? = some messageType →
    ∃ m, rawByteSize P W L schema fuel' messageType value = .ok m ∧
      rawByteSizeBy P W L schema id fuel' messageType value = .ok m
  values : ∀ fuel' fd value, Visits P L schema fuel msgD tab fuel' (fd, value) →
    fd.type.messageType? = none →
    ∃ m, fieldSize P W fd (L.view value) = .ok m ∧ fieldSizeBy P W id fd (L.view value) = .ok m
  lengths : ∀ fuel' fd value, Visits P L schema fuel msgD tab fuel' (fd, value) →
    fd.type = .string → ∀ s, Stack.getCString P (L.view value) = .ok (some s) →
    int32 s.length = s.length
  buffer : ((BitVec.ofInt 32 n).toNat : ℤ) = n

/-- The exact total exists, and the sizes are exact if and only if it is below `2 ^ 31`. -/
theorem sizesExact_iff {fuel : ℕ} {msgD : M} {tab : L.Value} {n : ℤ}
    (h : rawByteSize P W L schema fuel msgD tab = .ok n) :
    ∃ total, rawByteSizeBy P W L schema id fuel msgD tab = .ok total ∧
      (SizesExact P W L schema fuel msgD tab n ↔ total < 2 ^ 31) := by
  obtain ⟨total, htotal⟩ := exists_exactSize h
  refine ⟨total, htotal, ?_, ?_⟩
  · intro hexact
    obtain rfl := Except.ok.inj (htotal.symm.trans hexact.total)
    exact rawByteSize_lt h
  · intro hlt
    obtain rfl := Except.ok.inj (h.symm.trans (rawByteSize_of_exact htotal hlt))
    have hnonneg := exactSize_nonneg htotal
    refine ⟨htotal, ?_, ?_, ?_, ?_⟩
    · intro fuel' fd value messageType hvisits htype
      rcases visited_message hvisits htype htotal with ⟨m, hm, hmle⟩
      exact ⟨m, rawByteSize_of_exact hm (by omega), hm⟩
    · intro fuel' fd value hvisits htype
      rcases visited_scalar hvisits htype htotal with ⟨m, hm, hmle⟩
      exact ⟨m, fieldSize_of_exact htype hm (by omega), hm⟩
    · intro fuel' fd value hvisits htype s hs
      rcases visited_scalar hvisits (by rw [htype]; rfl) htotal with ⟨m, hm, hmle⟩
      simp only [fieldSizeBy, htype, hs, Fallible.ok_bind, strlen, id] at hm
      have hsum := Fallible.pure_eq_ok.mp hm
      exact int32_natCast (by omega)
    · rw [BitVec.toNat_ofInt]
      omega

/-- Two references to `{name = "a"}` -/
theorem sizesExact_pair : SizesExact (.plain .x64) .reference LuaTree.state AddressBook.schema 2
    .addressBook (AddressBook.crowd 2 (AddressBook.named [97])) 10 := by
  have hsize : rawByteSize (.plain .x64) .reference LuaTree.state AddressBook.schema 2
      .addressBook (AddressBook.crowd 2 (AddressBook.named [97])) = .ok 10 := by decide +kernel
  have hexact : rawByteSizeBy (.plain .x64) .reference LuaTree.state AddressBook.schema id 2
      .addressBook (AddressBook.crowd 2 (AddressBook.named [97])) = .ok 10 := by decide +kernel
  obtain ⟨total, htotal, hiff⟩ := sizesExact_iff hsize
  obtain rfl := Except.ok.inj (hexact.symm.trans htotal)
  exact hiff.mpr (by decide)

/-! ## A shared table -/

/-- A list that refers to one message many times has a size for each time. -/
theorem rawByteSizeBy_shared (cast : ℤ → ℤ) {fuel : ℕ} {msgD messageType : M}
    {fd : FieldDescriptor M} (hmem : fd ∈ (schema msgD).field) (hmany : fd.isRepeated = true)
    (htype : fd.type = .message messageType) {shared : L.Value} {m : ℤ}
    (hshared : rawByteSizeBy P W L schema cast fuel messageType shared = .ok m) {count : ℕ}
    {list tab : L.Value} (hlist : L.view list = .table (sequence (List.replicate count shared)))
    (htab : L.view tab = .table [(.string fd.name, list)]) :
    rawByteSizeBy P W L schema cast (fuel + 1) msgD tab =
      .ok ((List.replicate count (tagSize W fd.number,
        cast (W.varintSize32 (BitVec.ofInt 32 m) + m))).foldl (addTerms cast) 0) := by
  have hparts : TableParts P L schema msgD tab
      ([(List.replicate count shared).map fun v => (fd, v)]).flatten :=
    .entries htab (.cons (entryParts_repeated hmem hmany hlist) .nil)
  rw [List.flatten_singleton, List.map_replicate] at hparts
  exact rawByteSizeBy_eq_ok.mpr ⟨_, ⟨_, hparts,
    Fallible.forall₂_replicate (.repeated (by rw [htype]; rfl) hmany hshared) count⟩, rfl⟩

theorem rawByteSizeBy_named (cast : ℤ → ℤ) {s : Bytes} (hs : (0 : UInt8) ∉ s) :
    rawByteSizeBy (.plain .x64) .reference LuaTree.state AddressBook.schema cast 1 .person
        (AddressBook.named s) =
      .ok (cast (cast (0 + 1) + cast
        ((Varint.encode (BitVec.ofInt 32 (cast s.length)).toNat).length + cast s.length))) := by
  have hstep : rawByteSizeBy (.plain .x64) .reference LuaTree.state AddressBook.schema cast 1
      .person (AddressBook.named s) =
        .ok (cast (cast (0 + 1) + cast ((Varint.encode (BitVec.ofInt 32
          (cast (cstr s).length)).toNat).length + cast (cstr s).length))) := rfl
  rw [hstep, cstr_of_noNul hs]

/-- The size of a list of 4096 references to a person with a name of a mebibyte. -/
theorem rawByteSizeBy_crowd (cast : ℤ → ℤ) (hcast : ∀ x, 0 ≤ x → x < 2 ^ 31 → cast x = x)
    {s : Bytes} (hs : (0 : UInt8) ∉ s) (hlen : s.length = 2 ^ 20) :
    rawByteSizeBy (.plain .x64) .reference LuaTree.state AddressBook.schema cast 2 .addressBook
        (AddressBook.crowd 4096 (AddressBook.named s)) =
      .ok ((List.replicate 4096 ((1 : ℤ), (1048583 : ℤ))).foldl (addTerms cast) 0) := by
  have hname : rawByteSizeBy (.plain .x64) .reference LuaTree.state AddressBook.schema cast 1
      .person (AddressBook.named s) = .ok 1048580 := by
    have hlength : cast ((2 ^ 20 : ℕ) : ℤ) = (2 ^ 20 : ℕ) := hcast _ (by decide) (by decide)
    have hvarint : (Varint.encode (BitVec.ofInt 32 ((2 ^ 20 : ℕ) : ℤ)).toNat).length = 3 := by
      decide
    have htag : cast (0 + 1) = 1 := hcast 1 (by decide) (by decide)
    have hstring : cast ((3 : ℕ) + (2 ^ 20 : ℕ)) = 1048579 := hcast _ (by decide) (by decide)
    have htotal : cast (1 + 1048579) = 1048580 := hcast _ (by decide) (by decide)
    rw [rawByteSizeBy_named cast hs, hlen, hlength, hvarint, htag, hstring, htotal]
  have hmem : (⟨[112, 101, 114, 115, 111, 110], 1, .message .person, true, by decide, by decide,
      by decide⟩ : FieldDescriptor AddressBook.Message) ∈
        (AddressBook.schema .addressBook).field := List.mem_cons_self
  have hlist : LuaTree.state.view (.table (sequence (List.replicate 4096 (AddressBook.named s)))) =
      .table (sequence (List.replicate 4096 (AddressBook.named s))) := rfl
  have hshared : rawByteSizeBy (.plain .x64) .reference LuaTree.state AddressBook.schema cast 2
      .addressBook (AddressBook.crowd 4096 (AddressBook.named s)) = _ :=
    rawByteSizeBy_shared cast hmem rfl rfl hname hlist rfl
  have htag : tagSize .reference 1 = 1 := by decide
  have hvarint : WireFormatLite.reference.varintSize32 (BitVec.ofInt 32 1048580) = 3 := by decide
  have hterm : cast ((3 : ℕ) + 1048580) = 1048583 := hcast _ (by decide) (by decide)
  rw [hshared, htag, hvarint, hterm]

/-- The total is `2 ^ 32 + 32768`, of which the `int` shows 32768. -/
theorem not_sizesExact_crowd :
    let tab := AddressBook.crowd 4096 (AddressBook.named (List.replicate (2 ^ 20) 97))
    rawByteSize (.plain .x64) .reference LuaTree.state AddressBook.schema 2 .addressBook tab =
        .ok 32768 ∧
      rawByteSizeBy (.plain .x64) .reference LuaTree.state AddressBook.schema id 2 .addressBook
        tab = .ok (2 ^ 32 + 32768) ∧
      ¬ SizesExact (.plain .x64) .reference LuaTree.state AddressBook.schema 2 .addressBook tab
        32768 := by
  intro tab
  have hnul : (0 : UInt8) ∉ List.replicate (2 ^ 20) 97 := by
    intro h
    cases List.eq_of_mem_replicate h
  have hlen : (List.replicate (2 ^ 20) (97 : UInt8)).length = 2 ^ 20 := List.length_replicate
  have hsum : ((List.replicate 4096 ((1 : ℤ), (1048583 : ℤ))).map fun t => t.1 + t.2).sum =
      2 ^ 32 + 32768 := by
    rw [List.map_replicate, List.sum_replicate_int]
    decide
  have hsize : rawByteSize (.plain .x64) .reference LuaTree.state AddressBook.schema 2
      .addressBook tab = .ok 32768 := by
    have hwrap := foldl_addTerms_wrap (List.replicate 4096 (1, 1048583)) 0
    rw [hsum, int32_zero] at hwrap
    exact (rawByteSizeBy_crowd int32 (fun x => int32_of_bounds) hnul hlen).trans
      (congrArg Except.ok (hwrap.trans (by decide)))
  have hexact : rawByteSizeBy (.plain .x64) .reference LuaTree.state AddressBook.schema id 2
      .addressBook tab = .ok (2 ^ 32 + 32768) := by
    rw [rawByteSizeBy_crowd id (fun _ _ _ => rfl) hnul hlen, foldl_addTerms_id, hsum]
    rfl
  refine ⟨hsize, hexact, fun h => ?_⟩
  exact absurd (Except.ok.inj (h.total.symm.trans hexact)) (by decide)

end Luapb

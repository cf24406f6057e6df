import Luapb.Verification.Decoder.Meaning
import Luapb.Verification.RoundTrip.Conforming

/-! # Encoding and decoding again

The bytes a conforming table is encoded as denote a table. It equals the one that was
encoded unless an unsigned value does not fit `lua_Integer`. -/

namespace Luapb

open Ieee754 Wire PBStream

variable {M : Type} {P : Platform} {W : WireFormatLite} {L : LuaState} {schema : Schema M}

/-! ## Scalars -/

/-- An unsigned value gets through: `lua_Integer` is wide enough, or the value small. -/
def FitsUnsigned {V : Type} (P : Platform) (type : FieldType M) (v : LuaView V) : Prop :=
  type = .uint32 → ∀ n : BitVec 32, (Scalar.uint32 n).Represents v →
    P.build = .x64 ∨ n.toNat < 2 ^ 31

theorem Scalar.Conforms.hasType {x : Scalar} {type : FieldType M} (h : x.Conforms type)
    (hlen : ∀ s, x = .string s → s.length < 2 ^ 31) : x.HasType type := by
  cases h with
  | float h => exact .float fun hnan => absurd hnan h
  | int32 v => exact .int32 v
  | uint32 v => exact .uint32 v
  | bool b => exact .bool b
  | string h => exact .string (hlen _ rfl)
  | enum h => exact .enum h

theorem Scalar.Conforms.transmissible {x : Scalar} {type : FieldType M} (h : x.Conforms type)
    (hnodup : ∀ enumType, type = .enum enumType → (enumType.value.map (·.number)).Nodup)
    (hfits : ∀ n, x = .uint32 n → P.build = .x64 ∨ n.toNat < 2 ^ 31) : x.Transmissible P type := by
  cases h with
  | float h => trivial
  | int32 v => trivial
  | uint32 v => exact hfits v rfl
  | bool b => trivial
  | string h => exact h
  | enum h =>
      have hmem := List.mem_of_find?_eq_some h
      exact find?_of_nodup_map EnumValueDescriptor.number (hnodup _ rfl) hmem

/-- Two values that represent one scalar are equal. -/
theorem Scalar.Conforms.equal {x : Scalar} {type : FieldType M} (h : x.Conforms type)
    {v : LuaView L.Value} (hv : x.Represents v) {tree : LuaTree}
    (htree : x.Represents tree.view) : Equal L v tree := by
  generalize hview : tree.view = w at htree
  cases tree with
  | boolean b =>
      subst hview
      cases htree
      cases hv
      exact .boolean _
  | string s =>
      subst hview
      cases htree <;> cases hv
      case string => exact .string _
      case enum => exact .string _
      case int64 => cases h
      case uint64 => cases h
  | table entries =>
      subst hview
      cases htree
  | number m =>
      subst hview
      cases htree with
      | float x =>
          cases hv
          cases h with
          | float hnan => exact .number (.refl (Binary.not_isNaN_convert hnan))
      | int32 hm =>
          cases hv with
          | int32 hn => exact .number (hn.trans hm.symm)
      | uint32 hm =>
          cases hv with
          | uint32 hn => exact .number (hn.trans hm.symm)

theorem represents_uint32_unique {V : Type} {v : LuaView V} {m n : BitVec 32}
    (hm : (Scalar.uint32 m).Represents v) (hn : (Scalar.uint32 n).Represents v) : m = n := by
  cases hm with
  | uint32 hm =>
      cases hn with
      | uint32 hn =>
          have hlt := m.isLt
          have hlt' := n.isLt
          have h := Binary.ofInt_injOn (by omega) (by omega) (hm.symm.trans hn)
          exact BitVec.eq_of_toNat_eq (by omega)

/-- Whatever a string's length, it is part of the size. -/
theorem length_le_fieldSize {fd : FieldDescriptor M} (htype : fd.type = .string) {s : Bytes}
    (hs : (0 : UInt8) ∉ s) {size : ℤ}
    (hsize : fieldSizeBy P W id fd (.string s : LuaView L.Value) = .ok size) :
    (s.length : ℤ) ≤ size := by
  have hbind : (Except.ok (W.varintSize32 (BitVec.ofInt 32 (cstr s).length) + (cstr s).length : ℤ)
      : Except Fault ℤ) = .ok size := by
    rw [← hsize, fieldSizeBy, htype]
    rfl
  rw [cstr_of_noNul hs] at hbind
  have := Except.ok.inj hbind
  omega

/-- On Win32 a large unsigned value comes back as the least `lua_Integer`. -/
theorem uint32_overflows (hW : W.Documented) (hbuild : P.build = .win32) {fd : FieldDescriptor M}
    (htype : fd.type = .uint32) {n : BitVec 32} (hge : 2 ^ 31 ≤ n.toNat) {v : LuaView L.Value}
    (hrep : (Scalar.uint32 n).Represents v) :
    ∃ payload tree, writeValue P W fd v = .ok (tagBytes fd.number fd.type.wireType ++ payload) ∧
      ScalarReads P fd.type payload (some tree) ∧ ¬ Equal L v tree := by
  obtain ⟨⟩ | ⟨⟩ | ⟨hn⟩ := hrep
  have hread : ScalarReads P (.uint32 : FieldType M) (Varint.encode (2 ^ 31)) _ :=
    .uint32 (decode_encode_nil (by decide))
  refine ⟨_, _, ?_, htype ▸ hread, ?_⟩
  · simp only [writeValue, htype, getUnsigned_overflow hn hbuild hge, hW.writeUInt32]
    rfl
  · rw [Stack.pushUnsigned, hbuild]
    intro hequal
    cases hequal with
    | number hm =>
        have hlt := n.isLt
        have h := Binary.ofInt_injOn (by omega) (by decide) (hn.symm.trans hm)
        have hneg : (BitVec.ofNat 32 (2 ^ 31)).toInt = -2 ^ 31 := by decide
        omega

/-- A conforming scalar is written and read, and what is read equals it if it fits. -/
theorem Scalar.Conforms.trips (hW : W.Documented) {fd : FieldDescriptor M} {x : Scalar}
    (hx : x.Conforms fd.type) {v : LuaView L.Value} (hrep : x.Represents v)
    (hnodup : ∀ enumType, fd.type = .enum enumType → (enumType.value.map (·.number)).Nodup)
    {size : ℤ} (hsize : fieldSizeBy P W id fd v = .ok size) (hlt : size < 2 ^ 31) :
    ∃ payload tree, writeValue P W fd v = .ok (tagBytes fd.number fd.type.wireType ++ payload) ∧
      ScalarReads P fd.type payload (some tree) ∧ (Equal L v tree ↔ FitsUnsigned P fd.type v) := by
  have hlen : ∀ s, x = .string s → s.length < 2 ^ 31 := by
    rintro s rfl
    generalize htype : fd.type = type at hx
    cases hx with
    | string hs =>
        cases hrep
        have := length_le_fieldSize htype hs hsize
        omega
  by_cases hfits : ∀ n, x = .uint32 n → P.build = .x64 ∨ n.toNat < 2 ^ 31
  · have hty := hx.hasType hlen
    have ht := hx.transmissible hnodup hfits
    obtain ⟨tree, hread, htree⟩ := Scalar.reads hty ht
    refine ⟨x.payload, tree, writeValue_represents hW hty hrep ht, hread,
      iff_of_true (hx.equal hrep htree) ?_⟩
    intro htype n hn
    rw [htype] at hx
    cases hx with
    | uint32 m => exact represents_uint32_unique hrep hn ▸ hfits m rfl
  · obtain ⟨n, himp⟩ := not_forall.mp hfits
    obtain ⟨rfl, hn⟩ := Classical.not_imp.mp himp
    obtain ⟨hbuild, hge⟩ := not_or.mp hn
    have hwin : P.build = .win32 := by
      cases hP : P.build with
      | win32 => rfl
      | x64 => exact absurd hP hbuild
    have htype : fd.type = .uint32 := by
      generalize fd.type = type at hx
      cases hx with
      | uint32 => rfl
    obtain ⟨payload, tree, hwrite, hread, hne⟩ := uint32_overflows hW hwin htype
      (Nat.le_of_not_lt hge) hrep
    exact ⟨payload, tree, hwrite, hread, iff_of_false hne fun h => hn (h htype n hrep)⟩

/-! ## Parts -/

/-- Unsigned values fit everywhere in a table. -/
def UnsignedFits (P : Platform) (L : LuaState) (schema : Schema M) : ℕ → M → L.Value → Prop :=
  Everywhere P L schema fun part => FitsUnsigned P part.1.type (L.view part.2)

/-- Unsigned values fit in a part and everywhere in it. -/
def PartFits (P : Platform) (L : LuaState) (schema : Schema M) (fuel : ℕ)
    (part : FieldDescriptor M × L.Value) : Prop :=
  FitsUnsigned P part.1.type (L.view part.2) ∧
    ∀ messageType, part.1.type.messageType? = some messageType →
      UnsignedFits P L schema fuel messageType part.2

/-- A part is written as a record that is read as `tree`. -/
structure PartTrips (P : Platform) (W : WireFormatLite) (L : LuaState) (schema : Schema M)
    (budget fuel : ℕ) (part : FieldDescriptor M × L.Value) (bytes : Bytes) (tree : LuaTree) :
    Prop where
  wrote : PartBytes P W L (rawByteSize P W L schema fuel)
    (fun msgD => rawEncode P W L schema fuel msgD []) part bytes
  denotes : ∀ msgD tab, part.1 ∈ (schema msgD).field →
    Denotes P schema budget msgD tab bytes (fillValue P tab part.1 tree)
  equal_iff : Equal L (L.view part.2) tree ↔ PartFits P L schema fuel part

/-- A table is written as a message that is read as `value`. -/
structure TableTrips (P : Platform) (W : WireFormatLite) (L : LuaState) (schema : Schema M)
    (budget fuel : ℕ) (msgD : M) (tab : L.Value) (payload : Bytes) (value : LuaTable) :
    Prop where
  wrote : rawEncode P W L schema fuel msgD [] tab = .ok payload
  denotes : Denotes P schema budget msgD [] payload value
  equal_iff : Equal L (L.view tab) (.table value) ↔ UnsignedFits P L schema fuel msgD tab

/-- The tables nested in a table make the trip, one level further down. -/
def NestedTrip (P : Platform) (W : WireFormatLite) (L : LuaState) (schema : Schema M)
    (nested : M → L.Value → Prop) (budget fuel : ℕ) : Prop :=
  ∀ messageType v, nested messageType v → ∃ b, budget = b + 1 ∧
    ∀ n, rawByteSizeBy P W L schema id fuel messageType v = .ok n → n < 2 ^ 31 →
      ∃ payload value, (payload.length : ℤ) = n ∧
        TableTrips P W L schema b fuel messageType v payload value

theorem writeMessageHead_length (hW : W.Documented) (number : ℕ) {payload : Bytes}
    (hlt : payload.length < 2 ^ 31) : writeMessageHead W number payload.length =
      tagBytes number .lengthDelimited ++ Varint.encode payload.length := by
  rw [writeMessageHead, hW.writeTag, hW.writeVarint32, BitVec.ofInt_natCast, BitVec.toNat_ofNat,
    Nat.mod_eq_of_lt (by omega)]

section

variable {nested : M → L.Value → Prop} {budget fuel : ℕ} {msgD : M}

theorem ConformingValue.trips (hW : W.Documented)
    (hnested : NestedTrip P W L schema nested budget fuel) {fd : FieldDescriptor M}
    {value : L.Value} (h : ConformingValue L nested fd value)
    (hnodup : ∀ enumType, fd.type = .enum enumType → (enumType.value.map (·.number)).Nodup)
    {t : ℤ × ℤ} (hterms : PartTerms P W L id (rawByteSizeBy P W L schema id fuel) (fd, value) t)
    (hlt : t.1 + t.2 < 2 ^ 31) :
    ∃ bytes tree, PartTrips P W L schema budget fuel (fd, value) bytes tree := by
  cases h with
  | scalar hx hrep =>
      have hnone := hx.messageType_eq_none
      cases hterms with
      | repeated htype => rw [hnone] at htype; cases htype
      | singular htype => rw [hnone] at htype; cases htype
      | @scalar _ _ size _ hsize =>
          have htag : 0 ≤ tagSize W fd.number := Int.natCast_nonneg _
          obtain ⟨payload, tree, hwrite, hread, hiff⟩ := hx.trips hW hrep hnodup hsize
            (by simp only at hlt; omega)
          refine ⟨_, tree, .scalar hnone hwrite, ?_, hiff.trans ?_⟩
          · intro msgD tab hmem
            have hrecord : Denotes P schema budget msgD tab _ _ :=
              .value hmem (decode_tagBytes fd _) hread .nil
            rwa [List.append_nil] at hrecord
          · refine ⟨fun hfits => ⟨hfits, ?_⟩, And.left⟩
            rw [hnone]
            exact fun _ htype => nomatch htype
  | @message messageType htype hvalue =>
      have hmessage : fd.type.messageType? = some messageType := by rw [htype]; rfl
      obtain ⟨n, hn, hle⟩ := hterms.message_le hmessage
      obtain ⟨b, rfl, htrip⟩ := hnested _ _ hvalue
      obtain ⟨payload, body, hlen, hwrote, hdenotes, hiff⟩ := htrip n hn (by omega)
      subst hlen
      have hlt' : payload.length < 2 ^ 31 := by omega
      refine ⟨_, .table body,
        .message hmessage (rawByteSize_of_exact hn (by omega)) hwrote, ?_, hiff.trans ?_⟩
      · intro msgD tab hmem
        have hrecord : Denotes P schema (b + 1) msgD tab _ _ :=
          .message hmem htype (decode_tagBytes fd _)
            (decode_encode_nil (by omega)) hlt' hdenotes .nil
        rwa [List.append_nil, ← List.append_assoc, ← writeMessageHead_length hW _ hlt'] at hrecord
      · constructor
        · intro hfits
          have hscalar : FitsUnsigned P fd.type (L.view value) := by
            rw [htype]
            exact fun huint => nomatch huint
          refine ⟨hscalar, ?_⟩
          intro messageType' hmessage'
          exact Option.some.inj (hmessage.symm.trans hmessage') ▸ hfits
        · exact fun hfits => hfits.2 _ hmessage

/-! ## Entries -/

/-- Records of one field, read one after the other. -/
theorem denotes_fold {fd : FieldDescriptor M} {written : List Bytes} {trees : List LuaTree}
    (h : List.Forall₂ (fun bytes tree => ∀ tab,
      Denotes P schema budget msgD tab bytes (fillValue P tab fd tree)) written trees)
    (tab : LuaTable) : Denotes P schema budget msgD tab written.flatten
      (trees.foldl (fun tab tree => fillValue P tab fd tree) tab) := by
  induction h generalizing tab with
  | nil => exact .nil
  | cons hrecord _ ih => exact (hrecord tab).append (ih _)

/-- A singular field is stored under a new key. -/
theorem fillValue_singular {fd : FieldDescriptor M} (hone : fd.isRepeated = false)
    {tab : LuaTable} (hkey : .string fd.name ∉ tab.map (·.1)) (tree : LuaTree) :
    fillValue P tab fd tree = tab ++ [(.string fd.name, tree)] := by
  rw [fillValue, hone]
  exact LuaTable.set_of_notMem hkey tree

theorem fillValue_first {fd : FieldDescriptor M} (hmany : fd.isRepeated = true)
    {tab : LuaTable} (hkey : .string fd.name ∉ tab.map (·.1)) (tree : LuaTree) :
    fillValue P tab fd tree = tab ++ [(.string fd.name, .table (LuaTable.ofList [tree]))] := by
  simp only [fillValue, hmany, if_true, (LuaTable.get_eq_none_iff _ _).mpr hkey,
    LuaTable.luaLRef_nil]
  exact LuaTable.set_of_notMem hkey _

theorem fillValue_next {fd : FieldDescriptor M} (hmany : fd.isRepeated = true)
    {tab : LuaTable} (hkey : .string fd.name ∉ tab.map (·.1)) (trees : List LuaTree)
    (tree : LuaTree) :
    fillValue P (tab ++ [(.string fd.name, .table (LuaTable.ofList trees))]) fd tree =
      tab ++ [(.string fd.name, .table (LuaTable.ofList (trees ++ [tree])))] := by
  simp only [fillValue, hmany, if_true, LuaTable.get_concat hkey, LuaTable.luaLRef_ofList]
  exact LuaTable.set_concat hkey _ _

/-- A repeated field becomes a sequence under a new key. -/
theorem foldl_fillValue {fd : FieldDescriptor M} (hmany : fd.isRepeated = true)
    {tab : LuaTable} (hkey : .string fd.name ∉ tab.map (·.1)) {trees : List LuaTree}
    (hne : trees ≠ []) : trees.foldl (fun tab tree => fillValue P tab fd tree) tab =
      tab ++ [(.string fd.name, .table (LuaTable.ofList trees))] := by
  have hrest : ∀ rest done, rest.foldl (fun tab tree => fillValue P tab fd tree)
      (tab ++ [(.string fd.name, .table (LuaTable.ofList done))]) =
        tab ++ [(.string fd.name, .table (LuaTable.ofList (done ++ rest)))] := by
    intro rest
    induction rest with
    | nil => simp
    | cons tree rest ih =>
        intro done
        rw [List.foldl_cons, fillValue_next hmany hkey, ih, List.append_assoc,
          List.singleton_append]
  cases trees with
  | nil => exact absurd rfl hne
  | cons tree trees =>
      rw [List.foldl_cons, fillValue_first hmany hkey, hrest]
      rfl

/-- An entry is written as records that are read as one entry under the same key. -/
structure EntryTrips (P : Platform) (W : WireFormatLite) (L : LuaState) (schema : Schema M)
    (budget fuel : ℕ) (msgD : M) (e : LuaKey × L.Value) (parts : List (FieldDescriptor M × L.Value))
    (written : List Bytes) (tree : LuaTree) : Prop where
  wrote : List.Forall₂ (PartBytes P W L (rawByteSize P W L schema fuel)
    fun msgD => rawEncode P W L schema fuel msgD []) parts written
  denotes : ∀ tab : LuaTable, e.1 ∉ tab.map (·.1) →
    Denotes P schema budget msgD tab written.flatten (tab ++ [(e.1, tree)])
  equal_iff : Equal L (L.view e.2) tree ↔ ∀ part ∈ parts, PartFits P L schema fuel part

theorem PartTrips.singular {fd : FieldDescriptor M} (hmem : fd ∈ (schema msgD).field)
    (hone : fd.isRepeated = false) {value : L.Value} {bytes : Bytes} {tree : LuaTree}
    (h : PartTrips P W L schema budget fuel (fd, value) bytes tree) :
    EntryTrips P W L schema budget fuel msgD (.string fd.name, value) [(fd, value)] [bytes]
      tree where
  wrote := .cons h.wrote .nil
  denotes := by
    intro tab hkey
    have hrecord := h.denotes msgD tab hmem
    rw [fillValue_singular hone hkey] at hrecord
    rwa [List.flatten_singleton]
  equal_iff := by
    rw [List.forall_mem_singleton]
    exact h.equal_iff

theorem PartTrips.repeated {fd : FieldDescriptor M} (hmem : fd ∈ (schema msgD).field)
    (hmany : fd.isRepeated = true) {list : L.Value} {values : List L.Value}
    (hlist : L.view list = .table (sequence values)) (hne : values ≠ [])
    {pairs : List (Bytes × LuaTree)}
    (h : List.Forall₂ (fun v p => PartTrips P W L schema budget fuel (fd, v) p.1 p.2)
      values pairs) :
    EntryTrips P W L schema budget fuel msgD (.string fd.name, list) (values.map fun v => (fd, v))
      (pairs.map Prod.fst) (.table (LuaTable.ofList (pairs.map Prod.snd))) := by
  have hlen : values.length = (pairs.map Prod.snd).length := by
    rw [List.length_map, h.length_eq]
  refine ⟨?_, ?_, ?_⟩
  · rw [List.forall₂_map_left_iff, List.forall₂_map_right_iff]
    exact h.imp fun _ _ htrip => htrip.wrote
  · intro tab hkey
    have hrecords : List.Forall₂ (fun bytes tree => ∀ tab,
        Denotes P schema budget msgD tab bytes (fillValue P tab fd tree))
        (pairs.map Prod.fst) (pairs.map Prod.snd) := by
      rw [List.forall₂_map_left_iff, List.forall₂_map_right_iff, List.forall₂_same]
      intro p hp
      obtain ⟨v, -, htrip⟩ := Fallible.exists_of_mem_right h hp
      exact fun tab => htrip.denotes msgD tab hmem
    have hnonempty : pairs.map Prod.snd ≠ [] := by
      rwa [← List.length_pos_iff, ← hlen, List.length_pos_iff]
    have hfold := denotes_fold hrecords tab
    rwa [foldl_fillValue hmany hkey hnonempty] at hfold
  · have hall := Fallible.forall₂_iff_forall (h.imp fun _ _ htrip => htrip.equal_iff)
    simp only [hlist, LuaTable.ofList]
    rw [equal_sequence_iff hlen, List.forall₂_map_right_iff, hall, List.forall_mem_map]

theorem ConformingEntry.trips (hW : W.Documented) (hschema : SchemaSupported schema)
    (hnested : NestedTrip P W L schema nested budget fuel) {e : LuaKey × L.Value}
    (h : ConformingEntry L schema nested msgD e) {parts : List (FieldDescriptor M × L.Value)}
    (hparts : EntryParts P L schema msgD e parts)
    (hterms : ∀ part ∈ parts, ∃ t,
      PartTerms P W L id (rawByteSizeBy P W L schema id fuel) part t ∧ t.1 + t.2 < 2 ^ 31) :
    ∃ written tree, EntryTrips P W L schema budget fuel msgD e parts written tree := by
  cases h with
  | singular hmem hone hvalue =>
      obtain rfl := hparts.deterministic (entryParts_singular hmem hone)
      obtain ⟨t, ht, hlt⟩ := hterms _ (List.mem_singleton_self _)
      obtain ⟨bytes, tree, htrip⟩ :=
        hvalue.trips hW hnested (hschema.numbers_nodup _ _ hmem) ht hlt
      exact ⟨_, _, htrip.singular hmem hone⟩
  | @repeated fd list values hmem hmany hlist hne hvalues =>
      obtain rfl := hparts.deterministic (entryParts_repeated hmem hmany hlist)
      have htrips : ∀ v ∈ values, ∃ p : Bytes × LuaTree,
          PartTrips P W L schema budget fuel (fd, v) p.1 p.2 := by
        intro v hv
        obtain ⟨t, ht, hlt⟩ := hterms _ (List.mem_map_of_mem hv)
        obtain ⟨bytes, tree, htrip⟩ :=
          (hvalues v hv).trips hW hnested (hschema.numbers_nodup _ _ hmem) ht hlt
        exact ⟨(bytes, tree), htrip⟩
      obtain ⟨pairs, hpairs⟩ := Fallible.forall₂_of_exists htrips
      exact ⟨_, _, PartTrips.repeated hmem hmany hlist hne hpairs⟩

/-! ## Tables -/

/-- Entries with new keys are written as records that are read as entries with the same
keys, in the same order. -/
theorem entries_trip (hW : W.Documented) (hschema : SchemaSupported schema)
    (hnested : NestedTrip P W L schema nested budget fuel) {entries : List (LuaKey × L.Value)}
    {partss : List (List (FieldDescriptor M × L.Value))}
    (hparts : List.Forall₂ (EntryParts P L schema msgD) entries partss)
    (hentries : ∀ e ∈ entries, ConformingEntry L schema nested msgD e)
    (hterms : ∀ part ∈ partss.flatten, ∃ t,
      PartTerms P W L id (rawByteSizeBy P W L schema id fuel) part t ∧ t.1 + t.2 < 2 ^ 31)
    {tab : LuaTable} (hkeys : (tab.map (·.1) ++ entries.map (·.1)).Nodup) :
    ∃ written, ∃ value : LuaTable,
      List.Forall₂ (PartBytes P W L (rawByteSize P W L schema fuel)
        fun msgD => rawEncode P W L schema fuel msgD []) partss.flatten written ∧
      Denotes P schema budget msgD tab written.flatten (tab ++ value) ∧
      entries.map (·.1) = value.map (·.1) ∧
      (List.Forall₂ (fun e e' => Equal L (L.view e.2) e'.2) entries value ↔
        ∀ part ∈ partss.flatten, PartFits P L schema fuel part) := by
  induction hparts generalizing tab with
  | nil => exact ⟨[], [], .nil, by simpa using .nil, rfl, by simp⟩
  | @cons e parts entries partss hparts _ ih =>
      rw [List.flatten_cons, List.forall_mem_append] at hterms
      obtain ⟨hentry, hentries⟩ := List.forall_mem_cons.mp hentries
      obtain ⟨written, tree, hwrote, hdenotes, hiff⟩ : ∃ written tree,
          EntryTrips P W L schema budget fuel msgD e parts written tree :=
        hentry.trips hW hschema hnested hparts hterms.1
      have hkey : e.1 ∉ tab.map (·.1) := by
        intro hmem
        exact (List.nodup_append.mp hkeys).2.2 _ hmem _ List.mem_cons_self rfl
      have hkeys' : ((tab ++ [(e.1, tree)]).map (·.1) ++ entries.map (·.1)).Nodup := by
        simpa using hkeys
      obtain ⟨written', value, hwrote', hdenotes', hsame, hiff'⟩ :=
        ih hentries hterms.2 hkeys'
      refine ⟨written ++ written', (e.1, tree) :: value, ?_, ?_, ?_, ?_⟩
      · exact List.rel_append hwrote hwrote'
      · rw [List.flatten_append]
        simpa using (hdenotes tab hkey).append hdenotes'
      · rw [List.map_cons, List.map_cons, hsame]
      · rw [List.forall₂_cons, List.flatten_cons, List.forall_mem_append, hiff, hiff']

theorem ConformingEntries.trips (hW : W.Documented) (hschema : SchemaSupported schema)
    (hnested : NestedTrip P W L schema nested budget fuel) {tab : L.Value}
    (h : ConformingEntries L schema nested msgD tab) {n : ℤ}
    (hsize : rawByteSizeBy P W L schema id (fuel + 1) msgD tab = .ok n) (hlt : n < 2 ^ 31) :
    ∃ payload value, TableTrips P W L schema budget (fuel + 1) msgD tab payload value := by
  obtain ⟨terms, ⟨parts, hparts, -⟩, -⟩ := rawByteSizeBy_eq_ok.mp hsize
  obtain ⟨htab, hkeys, hentries⟩ := h
  obtain ⟨htab', hpartss⟩ := hparts
  obtain rfl := LuaView.table.inj (htab.symm.trans htab')
  rename_i entries partss
  have hbounded : ∀ part ∈ partss.flatten, ∃ t,
      PartTerms P W L id (rawByteSizeBy P W L schema id fuel) part t ∧ t.1 + t.2 < 2 ^ 31 := by
    intro part hpart
    obtain ⟨t, hterm, hle⟩ := exists_terms_of_mem (.entries htab hpartss) hpart hsize
    exact ⟨t, hterm, by omega⟩
  have hnew : (([] : LuaTable).map (·.1) ++ entries.map (·.1)).Nodup := by simpa using hkeys
  obtain ⟨written, value, hwrote, hdenotes, hsame, hiff⟩ :=
    entries_trip hW hschema hnested hpartss hentries hbounded hnew
  refine ⟨written.flatten, value, ?_, hdenotes, ?_⟩
  · exact rawEncode_eq_ok.mpr ⟨written, ⟨_, .entries htab hpartss, hwrote⟩, rfl⟩
  · rw [htab, equal_table_iff hsame (hsame ▸ hkeys), hiff, UnsignedFits,
      everywhere_succ (.entries htab hpartss)]
    rfl

end

theorem ConformingValue.enumDeclared {nested : M → L.Value → Prop} {fd : FieldDescriptor M}
    {value : L.Value} (h : ConformingValue L nested fd value) :
    EnumDeclared P fd.type (L.view value) := by
  intro enumType name htype hname
  cases h with
  | message htype' => rw [htype] at htype'; cases htype'
  | scalar hx hrep =>
      rw [htype] at hx
      cases hx with
      | enum hfind =>
          generalize L.view value = v at hrep hname
          cases hrep
          obtain rfl := Except.ok.inj hname
          exact Option.isSome_iff_exists.mpr ⟨_, hfind⟩

/-- Every conforming table makes the trip. -/
theorem Conforming.trips (hW : W.Documented) (hschema : SchemaSupported schema)
    {depth fuel : ℕ} {msgD : M} {tab : L.Value} (h : Conforming L schema depth msgD tab)
    (hfuel : depth < fuel) {n : ℤ} (hsize : rawByteSizeBy P W L schema id fuel msgD tab = .ok n)
    (hlt : n < 2 ^ 31) :
    ∃ payload value, (payload.length : ℤ) = n ∧
      TableTrips P W L schema depth fuel msgD tab payload value := by
  induction depth using Nat.strong_induction_on generalizing fuel msgD tab n with
  | _ depth ih =>
      obtain ⟨fuel, rfl⟩ := Nat.exists_eq_add_one.mpr (Nat.zero_lt_of_lt hfuel)
      obtain ⟨nested, hentries, hdeeper⟩ := h.entries
      have hnested : NestedTrip P W L schema nested depth fuel := by
        intro messageType v hv
        obtain ⟨d, rfl, hconforming⟩ := hdeeper _ _ hv
        exact ⟨d, rfl, fun n hn hnlt => ih d (by omega) hconforming (by omega) hn hnlt⟩
      obtain ⟨payload, value, htrips⟩ := hentries.trips hW hschema hnested hsize hlt
      have henum : EnumsDeclared P L schema (fuel + 1) msgD tab :=
        h.everywhere (fun _ _ _ hvalue => hvalue.enumDeclared) _
      have hlen := (exactSize_le hW hschema.sized henum hsize hlt htrips.wrote).2.mpr
        (messagesRepeated_of_schema hschema.messages_repeated _ _ _)
      exact ⟨payload, value, hlen.symm, htrips⟩

/-! ## `Encode` and `Decode` -/

/-- `Encode` returns bytes of which `Decode` makes an equal table. -/
def RoundTrips (P : Platform) (W : WireFormatLite) (S : CodedInputStream) (L : LuaState)
    (schema : Schema M) (findMessage : Bytes → Option M) (heap : ℕ → UInt8)
    (garbage : S.Stream → ℤ) (fuel : ℕ) (name tab : L.Value) : Prop :=
  ∃ bytes, encode P W L schema findMessage heap fuel name tab = .ok (some bytes) ∧
    ∀ steps, bytes.length < steps → ∃ run,
      decode P S garbage schema findMessage steps (L.view name) (.string bytes) = .ok (some run) ∧
        Equal L (L.view tab) (.table run.tab)

theorem roundTrips_iff_equal {S : CodedInputStream} {findMessage : Bytes → Option M}
    {heap : ℕ → UInt8} {garbage : S.Stream → ℤ} {fuel : ℕ} {name tab : L.Value} {payload : Bytes}
    {value : LuaTable}
    (hencode : encode P W L schema findMessage heap fuel name tab = .ok (some payload))
    (hdecode : ∀ steps, payload.length < steps → ∃ run,
      decode P S garbage schema findMessage steps (L.view name) (.string payload) =
        .ok (some run) ∧ run.tab = value) :
    RoundTrips P W S L schema findMessage heap garbage fuel name tab ↔
      Equal L (L.view tab) (.table value) := by
  constructor
  · rintro ⟨bytes, hbytes, hback⟩
    obtain rfl := Option.some.inj (Except.ok.inj (hencode.symm.trans hbytes))
    obtain ⟨run, hrun, hequal⟩ := hback _ (Nat.lt_succ_self _)
    obtain ⟨run', hrun', rfl⟩ := hdecode _ (Nat.lt_succ_self _)
    obtain rfl := Option.some.inj (Except.ok.inj (hrun.symm.trans hrun'))
    exact hequal
  · intro hequal
    refine ⟨payload, hencode, ?_⟩
    intro steps hsteps
    obtain ⟨run, hrun, rfl⟩ := hdecode steps hsteps
    exact ⟨run, hrun, hequal⟩

/-- `Encode` and `Decode` both succeed on a conforming table that is not too large. -/
theorem Conforming.encode_decode (hW : W.Documented) {S : CodedInputStream} (hS : S.Documented)
    (hschema : SchemaSupported schema) {findMessage : Bytes → Option M} (heap : ℕ → UInt8)
    (garbage : S.Stream → ℤ) {fuel : ℕ} (hfuel : S.recursionLimit < fuel) {name tab : L.Value}
    {s : Bytes} (hname : Stack.checklstring P (L.view name) = .ok s) {msgD : M}
    (hfind : findMessage (cstr s) = some msgD)
    (htab : Conforming L schema S.recursionLimit msgD tab)
    (hsize : ∀ n, rawByteSizeBy P W L schema id fuel msgD tab = .ok n → n ≤ S.totalBytesLimit) :
    ∃ payload value, encode P W L schema findMessage heap fuel name tab = .ok (some payload) ∧
      (∀ steps, payload.length < steps → ∃ run,
        decode P S garbage schema findMessage steps (L.view name) (.string payload) =
          .ok (some run) ∧ run.tab = value) ∧
      (Equal L (L.view tab) (.table value) ↔ UnsignedFits P L schema fuel msgD tab) := by
  obtain ⟨n, hn⟩ := htab.exists_size (P := P) (W := W) hfuel
  have hlimit := hsize n hn
  have hlt := hS.totalBytesLimit_lt
  obtain ⟨payload, value, hlen, hwrote, hdenotes, hiff⟩ :=
    htab.trips hW hschema hfuel hn (by omega)
  have hraw := rawByteSize_of_exact hn (by omega)
  rw [← hlen] at hraw
  refine ⟨payload, value, encode_of_size heap hname hfind hraw hwrote (by omega), ?_, hiff⟩
  intro steps hsteps
  obtain ⟨run, hrun, hvalue⟩ : ∃ run, rawDecode P S garbage schema steps 1 (S.create payload) msgD =
      some run ∧ run.tab = value := hdenotes.rawDecode hS (by omega) hsteps
  have hbuff : Stack.getString P (.string payload : LuaView L.Value) = .ok payload := rfl
  refine ⟨run, ?_, hvalue⟩
  simp only [decode, hname, Fallible.ok_bind, hbuff, hfind, hrun]
  rfl

/-- A conforming table comes back as an equal one exactly if its unsigned values fit. -/
theorem roundTrips_iff (hW : W.Documented) {S : CodedInputStream} (hS : S.Documented)
    (hschema : SchemaSupported schema) {findMessage : Bytes → Option M} (heap : ℕ → UInt8)
    (garbage : S.Stream → ℤ) {fuel : ℕ} (hfuel : S.recursionLimit < fuel) {name tab : L.Value}
    {s : Bytes} (hname : Stack.checklstring P (L.view name) = .ok s) {msgD : M}
    (hfind : findMessage (cstr s) = some msgD)
    (htab : Conforming L schema S.recursionLimit msgD tab)
    (hsize : ∀ n, rawByteSizeBy P W L schema id fuel msgD tab = .ok n → n ≤ S.totalBytesLimit) :
    RoundTrips P W S L schema findMessage heap garbage fuel name tab ↔
      UnsignedFits P L schema fuel msgD tab := by
  obtain ⟨payload, value, hencode, hdecode, hiff⟩ :=
    htab.encode_decode hW hS hschema heap garbage hfuel hname hfind hsize
  exact (roundTrips_iff_equal hencode hdecode).trans hiff

/-! ### A tree of two levels -/

theorem tree_supported : SchemaSupported Tree.schema where
  sized := by simp [Tree.schema, Tree.tree, Sized]
  messages_repeated := by simp [Tree.schema, Tree.tree, FieldType.messageType?]
  numbers_nodup := by simp [Tree.schema, Tree.tree]

theorem represents_number (n : BitVec 32) : (Scalar.uint32 n).Represents
    (LuaTree.state.view (LuaTree.number (.ofInt binary64 n.toNat))) :=
  .uint32 (.refl (Binary.not_isNaN_ofInt _))

theorem leaf_conforming (depth : ℕ) (n : BitVec 32) :
    Conforming LuaTree.state Tree.schema depth () (Tree.leaf n) := by
  have hmem : (⟨[118, 97, 108, 117, 101], 2, .uint32, false, by decide, by decide, by decide⟩ :
      FieldDescriptor Unit) ∈ (Tree.schema ()).field := List.mem_cons_of_mem _ List.mem_cons_self
  have hentries : ∀ nested, ConformingEntries LuaTree.state Tree.schema nested () (Tree.leaf n) :=
    fun nested => .entries rfl (List.pairwise_singleton _ _) (List.forall_mem_singleton.mpr
      (.singular hmem rfl (.scalar (.uint32 n) (represents_number n))))
  cases depth with
  | zero => exact hentries _
  | succ depth => exact hentries _

theorem node_conforming (depth : ℕ) (n : BitVec 32) :
    Conforming LuaTree.state Tree.schema (depth + 1) () (Tree.node n) := by
  have hmem : (⟨[99, 104, 105, 108, 100], 1, .message (), true, by decide, by decide, by decide⟩ :
      FieldDescriptor Unit) ∈ (Tree.schema ()).field := List.mem_cons_self
  have hlist : LuaTree.state.view (LuaTree.table [(.integer 1, Tree.leaf n)]) =
      .table (sequence [Tree.leaf n]) := rfl
  exact ConformingEntries.entries rfl (List.pairwise_singleton _ _) (List.forall_mem_singleton.mpr
    (.repeated hmem rfl hlist (List.cons_ne_nil _ _)
      (List.forall_mem_singleton.mpr (.message rfl (leaf_conforming depth n)))))

/-- On Win32 the value must be below `2 ^ 31`. -/
theorem node_fits_iff (fuel : ℕ) (n : BitVec 32) :
    UnsignedFits (.plain .win32) LuaTree.state Tree.schema (fuel + 2) () (Tree.node n) ↔
      n.toNat < 2 ^ 31 := by
  have hleaf : TableParts (.plain .win32) LuaTree.state Tree.schema () (Tree.leaf n) _ :=
    .entries rfl (.cons (.singular rfl rfl rfl) .nil)
  have hnode : TableParts (.plain .win32) LuaTree.state Tree.schema () (Tree.node n) _ :=
    .entries rfl (.cons (.repeated rfl rfl rfl rfl) .nil)
  constructor
  · intro h
    have hvalue := h _ _ (.nested hnode List.mem_cons_self rfl (.part hleaf List.mem_cons_self))
    exact (hvalue rfl n (represents_number n)).resolve_left (by decide)
  · intro hlt
    refine (everywhere_succ hnode).mpr (List.forall_mem_singleton.mpr ⟨?_, ?_⟩)
    · intro huint
      cases huint
    · rintro _ ⟨⟩
      refine (everywhere_succ hleaf).mpr (List.forall_mem_singleton.mpr ⟨?_, ?_⟩)
      · intro _ m hm
        exact .inr (represents_uint32_unique hm (represents_number n) ▸ hlt)
      · rintro _ ⟨⟩

theorem roundTrips_tree : RoundTrips (.plain .win32) .reference .reference LuaTree.state Tree.schema
    Tree.findMessage (fun _ => 0) (fun _ => 0) 101 (.string Tree.fullName) (Tree.node 7) := by
  have hsize : rawByteSizeBy (.plain .win32) .reference LuaTree.state Tree.schema id 101 ()
      (Tree.node 7) = .ok 4 := by decide +kernel
  refine (roundTrips_iff WireFormatLite.reference_documented
    CodedInputStream.reference_documented tree_supported _ _ (by decide) rfl rfl
    (node_conforming 99 7) ?_).mpr ((node_fits_iff 99 7).mpr (by decide))
  intro n hn
  rw [hsize] at hn
  exact Except.ok.inj hn ▸ by decide

/-- `{child = {{value = 3000000000}}}` comes back with the value -2147483648. -/
theorem not_roundTrips_tree : Conforming LuaTree.state Tree.schema 100 () (Tree.node 3000000000) ∧
    rawByteSizeBy (.plain .win32) .reference LuaTree.state Tree.schema id 101 ()
      (Tree.node 3000000000) = .ok 8 ∧
    ¬ RoundTrips (.plain .win32) .reference .reference LuaTree.state Tree.schema
      Tree.findMessage (fun _ => 0) (fun _ => 0) 101 (.string Tree.fullName)
      (Tree.node 3000000000) := by
  have hconforming := node_conforming 99 3000000000
  have hsize : rawByteSizeBy (.plain .win32) .reference LuaTree.state Tree.schema id 101 ()
      (Tree.node 3000000000) = .ok 8 := by decide +kernel
  refine ⟨hconforming, hsize, ?_⟩
  have hlimit : ∀ n, rawByteSizeBy (.plain .win32) .reference LuaTree.state Tree.schema id 101 ()
      (Tree.node 3000000000) = .ok n → n ≤ CodedInputStream.reference.totalBytesLimit := by
    intro n hn
    rw [hsize] at hn
    exact Except.ok.inj hn ▸ by decide
  have hname : Stack.checklstring (.plain .win32)
      (LuaTree.state.view (LuaTree.string Tree.fullName)) = .ok Tree.fullName := rfl
  have hfind : Tree.findMessage (cstr Tree.fullName) = some () := rfl
  obtain ⟨payload, value, hencode, hdecode, hiff⟩ :=
    hconforming.encode_decode WireFormatLite.reference_documented
      CodedInputStream.reference_documented tree_supported (fun _ => 0) (fun _ => 0)
      (by decide) hname hfind hlimit
  rw [roundTrips_iff_equal hencode hdecode, hiff, node_fits_iff]
  decide

end Luapb

import Luapb.Verification.Decoder.Packed
import Mathlib.Tactic.IntervalCases

/-! # Packed fields that are misread

Where the records of a split list are not records of the field with the same values, there
is a message around them that shows it: behind the first bytes that are none, the loop
stops, or comes to a field that is not there. -/

namespace Luapb

open Ieee754 Wire PBStream

variable {M : Type} {P : Platform} {S : CodedInputStream} {garbage : S.Stream → ℤ}
  {schema : Schema M} {fd : FieldDescriptor M}

/-! ## Where the records end -/

/-- Bytes that do not start with a record of the field. -/
def NoRecord (P : Platform) (fd : FieldDescriptor M) (bytes : Bytes) : Prop :=
  ∀ tagBytes n payload v rest, bytes = tagBytes ++ payload ++ rest →
    Varint.decode tagBytes = some (n, []) → n % 2 ^ 32 / 8 = fd.number →
    ¬ ScalarReads P fd.type payload v

/-- Any bytes are records of the field, followed by bytes that start with none. -/
theorem exists_fieldRecords (P : Platform) (fd : FieldDescriptor M) (bytes : Bytes) :
    ∃ front rest trees, bytes = front ++ rest ∧ FieldRecords P fd front trees ∧
      NoRecord P fd rest := by
  induction hlen : bytes.length using Nat.strong_induction_on generalizing bytes with
  | _ len ih =>
      by_cases hnone : NoRecord P fd bytes
      · exact ⟨[], bytes, [], rfl, .nil, hnone⟩
      · simp only [NoRecord, not_forall, not_not] at hnone
        rcases hnone with ⟨tagBytes, n, payload, v, rest, rfl, htag, hnumber, hvalue⟩
        have hpos : 0 < tagBytes.length := by
          rw [List.length_pos_iff_ne_nil]
          rintro rfl
          cases htag
        have hlt : rest.length < len := by
          rw [← hlen]
          simp only [List.length_append]
          omega
        rcases ih rest.length hlt rest rfl with ⟨front, rest', trees, rfl, hrecords, hnone⟩
        exact ⟨tagBytes ++ payload ++ front, rest', v.toList ++ trees,
          (List.append_assoc _ _ _).symm, .cons htag hnumber hvalue hrecords, hnone⟩

/-- Values other than floats are varints, and so are tags and lengths. -/
theorem Carries.varint {type : FieldType M} (htype : Packable type) (hfloat : type ≠ .float)
    {payload : Bytes} {x : Option Scalar} (h : Carries type payload x) :
    ∃ n, Varint.decode payload = some (n, []) := by
  cases h with
  | float h => exact absurd rfl hfloat
  | int32 h => exact ⟨_, h⟩
  | uint32 h => exact ⟨_, h⟩
  | bool h => exact ⟨_, h⟩
  | string h hlt => cases htype
  | enum h => exact ⟨_, h⟩

/-- Without floats, a split list consists of varints. -/
theorem sequence_chunkRecords (htype : Packable fd.type) (hfloat : fd.type ≠ .float)
    {chunks : List Chunk} (hchunks : ∀ chunk ∈ chunks, ∀ payload ∈ chunk.payloads,
      ∃ x, Carries fd.type payload x)
    (hlen : (chunkRecords fd chunks).length < 2 ^ 64) :
    Varint.Sequence (chunkRecords fd chunks) := by
  refine Varint.Sequence.flatMap ?_
  intro chunk hchunk
  have hpayload : ∀ payload ∈ chunk.payloads, Varint.Sequence payload := by
    intro payload hpayload
    rcases hchunks chunk hchunk payload hpayload with ⟨x, hx⟩
    rcases hx.varint htype hfloat with ⟨n, hn⟩
    exact .single hn
  have hle : (chunk.records fd).length ≤ (chunkRecords fd chunks).length := by
    rw [chunkRecords, List.flatMap_def]
    exact (List.sublist_flatten_of_mem (List.mem_map_of_mem hchunk)).length_le
  rw [Chunk.records] at hle ⊢
  split
  · rename_i hpacked
    simp only [hpacked, if_true, List.length_append, length_lengthDelimited] at hle
    refine .cons (decode_tagBytes fd _) (.cons (decode_encode_nil (by omega)) ?_)
    rw [← List.flatMap_id]
    exact Varint.Sequence.flatMap hpayload
  · refine Varint.Sequence.flatMap ?_
    intro payload hmem
    exact .cons (decode_tagBytes fd _) (hpayload payload hmem)

/-! ## Messages around them -/

/-- Numbers for two more fields of a message type. -/
structure Probe (fd : FieldDescriptor M) where
  sent : ℕ
  absent : ℕ
  sent_pos : 0 < sent
  sent_le : sent ≤ maxFieldNumber
  absent_pos : 0 < absent
  absent_le : absent ≤ maxFieldNumber
  sent_ne : sent ≠ fd.number
  absent_ne : absent ≠ fd.number
  sent_ne_absent : sent ≠ absent

namespace Probe

variable (p : Probe fd)

def sentField : FieldDescriptor M where
  name := fd.name ++ [1]
  number := p.sent
  type := .bool
  isRepeated := false
  name_noNul := by simpa using fd.name_noNul
  number_pos := p.sent_pos
  number_le := p.sent_le

def absentField : FieldDescriptor M where
  name := fd.name ++ [2]
  number := p.absent
  type := .bool
  isRepeated := false
  name_noNul := by simpa using fd.name_noNul
  number_pos := p.absent_pos
  number_le := p.absent_le

/-- A message type with the field and two singular bool fields. -/
def descriptor : Descriptor M where
  field := [fd, p.sentField, p.absentField]
  names_nodup := by simp [sentField, absentField]
  numbers_nodup := by
    simp [sentField, absentField, p.sent_ne.symm, p.absent_ne.symm, p.sent_ne_absent]

/-- A record of the field that is sent. Read from behind the first bytes of it, the last
byte is the tag of the other one. -/
def record (k : ℕ) : Bytes :=
  UInt8.ofNat (8 * p.sent) :: (List.replicate k 128 ++ [UInt8.ofNat (8 * p.absent)])

theorem mem_field : fd ∈ p.descriptor.field := List.mem_cons_self

theorem sentField_mem : p.sentField ∈ p.descriptor.field :=
  List.mem_cons_of_mem _ List.mem_cons_self

theorem absentField_mem : p.absentField ∈ p.descriptor.field :=
  List.mem_cons_of_mem _ (List.mem_cons_of_mem _ List.mem_cons_self)

theorem sentField_ne : LuaKey.string p.sentField.name ≠ .string fd.name := by
  simp [sentField]

theorem absentField_ne : LuaKey.string p.absentField.name ≠ .string fd.name := by
  simp [absentField]

theorem absentField_ne_sentField :
    LuaKey.string p.absentField.name ≠ .string p.sentField.name := by
  simp [absentField, sentField]

theorem findFieldByNumber_eq_none {number : ℕ} (hfd : number ≠ fd.number)
    (hsent : number ≠ p.sent) (habsent : number ≠ p.absent) :
    p.descriptor.findFieldByNumber number = none := by
  simp [Descriptor.findFieldByNumber, descriptor, sentField, absentField, hfd.symm, hsent.symm,
    habsent.symm]

/-- A number below 16 makes a tag of one byte. -/
theorem decode_smallTag {number : ℕ} (h : number < 16) (rest : Bytes) :
    Varint.decode (UInt8.ofNat (8 * number) :: rest) = some (tag number .varint, rest) := by
  have hbyte : (UInt8.ofNat (8 * number)).toNat = 8 * number := by
    rw [UInt8.toNat_ofNat']
    omega
  rw [Varint.decode, Varint.maxBytes, Varint.decodeAux, hbyte, if_pos (by omega)]
  simp [tag, WireType.code, Nat.mul_comm]

theorem contents_record {inner : M} {budget k : ℕ} (hsent : p.sent < 16) (habsent : p.absent < 16)
    (hk : k < 10) : ∃ b, Contents (fun _ => p.descriptor) budget inner (p.record k)
      [(p.sentField, .scalar (.bool b))] := by
  have hlast : (UInt8.ofNat (8 * p.absent)).toNat < 128 := by
    rw [UInt8.toNat_ofNat']
    omega
  rcases Varint.decodeAux_replicate hk hlast with ⟨n, hn⟩
  have hrecord : Contents (fun _ => p.descriptor) budget inner _ _ :=
    .scalar p.sentField_mem (decode_smallTag hsent []) (.bool hn) .nil
  rw [List.append_nil] at hrecord
  exact ⟨_, hrecord⟩

end Probe

/-- Values of the field leave nothing under another name. -/
theorem get_fillAll_values {k : LuaKey} (hk : k ≠ .string fd.name) (trees : List LuaTree) :
    (fillAll P [] (trees.map (fd, ·))).get k = none := by
  refine get_fillAll_of_ne ?_
  intro s hs
  rcases List.mem_map.mp hs with ⟨tree, -, rfl⟩
  exact hk

theorem exists_number (a b : ℕ) : ∃ c, 0 < c ∧ c < 4 ∧ c ≠ a ∧ c ≠ b := by
  by_cases h₁ : 1 ≠ a ∧ 1 ≠ b
  · exact ⟨1, by decide, by decide, h₁⟩
  · by_cases h₂ : 2 ≠ a ∧ 2 ≠ b
    · exact ⟨2, by decide, by decide, h₂⟩
    · exact ⟨3, by decide, by decide, by omega⟩

/-- Any number but that of the field can be one that is absent. -/
theorem exists_probe {number : ℕ} (hpos : 0 < number) (hle : number ≤ maxFieldNumber)
    (hne : number ≠ fd.number) : ∃ p : Probe fd, p.absent = number ∧ p.sent < 16 := by
  rcases exists_number fd.number number with ⟨sent, hsent, hlt, hfd, hnumber⟩
  have hmax : sent ≤ maxFieldNumber := by
    simp only [maxFieldNumber]
    omega
  exact ⟨⟨sent, number, hsent, hmax, hpos, hle, hfd, hne, hnumber⟩, rfl, by simp only; omega⟩

theorem exists_smallProbe (fd : FieldDescriptor M) :
    ∃ p : Probe fd, p.sent < 16 ∧ p.absent < 16 := by
  rcases exists_number fd.number fd.number with ⟨number, hpos, hlt, hne, -⟩
  have hle : number ≤ maxFieldNumber := by
    simp only [maxFieldNumber]
    omega
  rcases exists_probe hpos hle hne with ⟨p, habsent, hsent⟩
  exact ⟨p, hsent, by omega⟩

/-- The first byte of a record completes the bytes of a tag: not to a tag of that record. -/
theorem exists_cutNumber (number : ℕ) {v j : ℕ} (hj : 0 < j) (hv : v < 128 ^ j) :
    ∃ c, c < 16 ∧ c % 2 = 1 ∧ c ≠ number ∧ (v + 8 * c * 128 ^ j) % 2 ^ 32 / 8 ≠ c := by
  by_cases hshort : j < 5
  · -- the record's number stays above what the tag has so far
    obtain ⟨c, hc, hodd, hne⟩ : ∃ c, c < 4 ∧ c % 2 = 1 ∧ c ≠ number := by
      by_cases h : number = 1
      · exact ⟨3, by decide, rfl, by omega⟩
      · exact ⟨1, by decide, rfl, by omega⟩
    refine ⟨c, by omega, hodd, hne, ?_⟩
    interval_cases j <;> omega
  · -- it is lost in the narrowing to 32 bits
    obtain ⟨m, hm⟩ : ∃ m, 128 ^ j = 2 ^ 32 * m := by
      refine ⟨8 * 128 ^ (j - 5), ?_⟩
      have hpow : 128 ^ j = 128 ^ 5 * 128 ^ (j - 5) := by
        rw [← pow_add]
        congr 1
        omega
      rw [hpow]
      ring
    have hlost : ∀ c, (v + 8 * c * 128 ^ j) % 2 ^ 32 = v % 2 ^ 32 := by
      intro c
      have hmul : v + 8 * c * 128 ^ j = v + 2 ^ 32 * (8 * c * m) := by
        rw [hm]
        ring
      rw [hmul, Nat.add_mul_mod_self_left]
    rcases exists_number ((number - 1) / 2 + 1) ((v % 2 ^ 32 / 8 - 1) / 2 + 1) with
      ⟨c, hpos, hc, hne, hne'⟩
    refine ⟨2 * c - 1, by omega, by omega, by omega, ?_⟩
    rw [hlost]
    omega

theorem exists_cutProbe (fd : FieldDescriptor M) {v j : ℕ} (hj : 0 < j) (hv : v < 128 ^ j) :
    ∃ p : Probe fd, p.sent < 16 ∧ p.absent < 16 ∧
      (v + 8 * p.sent * 128 ^ j) % 2 ^ 32 / 8 ≠ p.sent := by
  rcases exists_cutNumber fd.number hj hv with ⟨sent, hlt, hodd, hne, hother⟩
  obtain ⟨absent, heven, hpos, habsent, hne'⟩ :
      ∃ absent, absent % 2 = 0 ∧ 0 < absent ∧ absent < 16 ∧ absent ≠ fd.number := by
    by_cases h : fd.number = 2
    · exact ⟨4, rfl, by decide, by decide, by omega⟩
    · exact ⟨2, rfl, by decide, by decide, by omega⟩
  have hmax : ∀ number < 16, number ≤ maxFieldNumber := by
    intro number h
    simp only [maxFieldNumber]
    omega
  exact ⟨⟨sent, absent, by omega, hmax sent hlt, hpos, hmax absent habsent, hne, hne', by omega⟩,
    hlt, habsent, hother⟩

/-! ## Loop heads -/

/-- What is in the table stays in it. -/
theorem DecodeDerivation.keeps {depth : ℕ} {s : S.Stream} {msgD : M} {tab : LuaTable} {run : Run S}
    (h : DecodeDerivation P S garbage schema depth s msgD tab run) {k : LuaKey}
    (hk : (tab.get k).isSome) : (run.tab.get k).isSome := by
  induction h with
  | stop => exact hk
  | unknown _ _ _ ih => exact ih hk
  | message _ _ _ _ _ _ ihr => exact ihr (isSome_get_fillValue hk _ _)
  | @value _ s _ tab fd _ _ _ _ _ ih =>
      apply ih
      rcases readValue_tab (P := P) (readFieldNumber S s).2 tab fd with htab | ⟨tree, htab⟩
      · rw [htab]
        exact hk
      · rw [htab]
        exact isSome_get_fillValue hk fd tree

section

variable {depth : ℕ} {s : S.Stream} {msgD : M} {tab : LuaTable} {run : Run S}
  (h : DecodeDerivation P S garbage schema depth s msgD tab run)

include h

theorem DecodeDerivation.of_zero (hzero : (readFieldNumber S s).1 = 0) : run.tab = tab := by
  cases h with
  | stop => rfl
  | unknown hnum => exact absurd hzero hnum
  | message hnum => exact absurd hzero hnum
  | value hnum => exact absurd hzero hnum

theorem DecodeDerivation.of_undeclared (hnum : (readFieldNumber S s).1 ≠ 0)
    (hfind : (schema msgD).findFieldByNumber (readFieldNumber S s).1 = none) :
    ∃ rest, DecodeDerivation P S garbage schema depth (readFieldNumber S s).2 msgD tab rest ∧
      run.tab = rest.tab := by
  cases h with
  | stop hzero => exact absurd hzero hnum
  | unknown _ _ hrest => exact ⟨_, hrest, rfl⟩
  | message _ hfind' => cases hfind.symm.trans hfind'
  | value _ hfind' => cases hfind.symm.trans hfind'

theorem DecodeDerivation.of_value {fd : FieldDescriptor M} (hmem : fd ∈ (schema msgD).field)
    (htype : fd.type.messageType? = none) (hnumber : (readFieldNumber S s).1 = fd.number) :
    ∃ rest, DecodeDerivation P S garbage schema depth
        (readValue P S (readFieldNumber S s).2 tab fd).stream msgD
        (readValue P S (readFieldNumber S s).2 tab fd).tab rest ∧ run.tab = rest.tab := by
  have hfind := Descriptor.findFieldByNumber_of_mem hmem
  rw [← hnumber] at hfind
  cases h with
  | stop hzero => exact absurd (hnumber.symm.trans hzero) fd.number_pos.ne'
  | unknown _ hfind' => cases hfind.symm.trans hfind'
  | message _ hfind' htype' =>
      obtain rfl := Option.some.inj (hfind.symm.trans hfind')
      cases htype.symm.trans htype'
  | value _ hfind' _ hrest =>
      obtain rfl := Option.some.inj (hfind.symm.trans hfind')
      exact ⟨_, hrest, rfl⟩

/-- A bool field whose number is read has a value in the end. -/
theorem DecodeDerivation.of_bool {fd : FieldDescriptor M} (hmem : fd ∈ (schema msgD).field)
    (htype : fd.type = .bool) (hone : fd.isRepeated = false)
    (hnumber : (readFieldNumber S s).1 = fd.number) : (run.tab.get (.string fd.name)).isSome := by
  rcases h.of_value hmem (by rw [htype]; rfl) hnumber with ⟨rest, hrest, htab⟩
  rw [htab]
  apply hrest.keeps
  simp only [readValue, htype, fillFrom]
  exact Option.isSome_of_eq_some (get_fillValue_singular tab hone _)

end

/-- The number of the tag that is next. -/
theorem readFieldNumber_eq (hS : S.Reads) {s : S.Stream} (hs : S.Readable s) {tagBytes rest : Bytes}
    {n : ℕ} (hunread : (S.view s).unread = tagBytes ++ rest)
    (htag : Varint.decode tagBytes = some (n, [])) :
    (readFieldNumber S s).1 = n % 2 ^ 32 / 8 := by
  by_cases hnum : n % 2 ^ 32 / 8 = 0
  · have hread := (hS.readTag_some s _ _ hs (StreamView.readVarint_append hunread htag)).1
    rw [readFieldNumber]
    split
    · exact hnum.symm
    · rw [hread, BitVec.toNat_ofNat]
  · exact (readFieldNumber_decode hS hs hunread htag hnum).1

/-! ## A list that is decoded alike -/

section

variable (hS : S.Documented) {inner : M} {chunks : List Chunk}
  (h : PackedAlike P S garbage inner fd chunks) {values : List LuaTree}
  (hvalues : FieldRecords P fd (valueRecords fd (chunks.flatMap Chunk.payloads)) values)
  {front rest : Bytes} {trees : List LuaTree} (hsplit : chunkRecords fd chunks = front ++ rest)
  (hfront : FieldRecords P fd front trees)

include hS h hvalues hsplit hfront

/-- In any message the loop comes behind the records at the start of the list, and ends with
the table that the other list leads to. -/
theorem PackedAlike.arrives (p : Probe fd) {after : Bytes} {fields : Fields M}
    (hafter : Contents (fun _ => p.descriptor) S.recursionLimit inner after fields)
    (hlen : (chunkRecords fd chunks ++ after).length ≤ S.totalBytesLimit)
    (hlen' : (valueRecords fd (chunks.flatMap Chunk.payloads) ++ after).length ≤
      S.totalBytesLimit) :
    ∃ s run, S.Readable s ∧ (S.view s).unread = rest ++ after ∧
      DecodeDerivation P S garbage (fun _ => p.descriptor) 1 s inner
        (fillAll P [] (trees.map (fd, ·))) run ∧
      Same (.table run.tab)
        (.table (fillAll P [] (values.map (fd, ·) ++ storesOf P fields))) := by
  have haround : Around (fun _ => p.descriptor) inner (chunkRecords fd chunks)
      (valueRecords fd (chunks.flatMap Chunk.payloads)) S.recursionLimit inner
      (chunkRecords fd chunks ++ after)
      (valueRecords fd (chunks.flatMap Chunk.payloads) ++ after) := .here .nil hafter
  rcases h _ p.mem_field inner _ _ haround hlen hlen' _ (Nat.lt_succ_of_le (Nat.le_max_left _ _))
    (Nat.lt_succ_of_le (Nat.le_max_right _ _)) with ⟨run, run', hrun, hrun', hsame⟩
  have hlist : LeadsTo P S garbage (fun _ => p.descriptor) S.recursionLimit inner [] _ _ :=
    hvalues.leadsTo hS p.mem_field []
  have htab' := ((hlist.append ((hafter.denotes _).leadsTo hS)).run_eq hS hlen' hrun').1
  rw [← fillAll_append] at htab'
  have hs := hS.create_readable hlen
  have hunread := hS.create_unread (chunkRecords fd chunks ++ after)
  conv_rhs at hunread => rw [hsplit, List.append_assoc]
  have hdepth : (S.view (S.create (chunkRecords fd chunks ++ after))).depth + S.recursionLimit ≤
      S.recursionLimit := by
    rw [hS.create]
    exact (Nat.zero_add _).le
  have hstart : LeadsTo P S garbage (fun _ => p.descriptor) S.recursionLimit inner [] front _ :=
    hfront.leadsTo hS p.mem_field []
  rcases hstart _ _ 1 hs hunread hdepth with ⟨s, b, hview, hcontinue⟩
  rcases hs.advance hunread hview with ⟨hs', hunread'⟩
  obtain ⟨run₁, hrun₁⟩ : ∃ run₁, decodeLoop P S garbage (fun _ => p.descriptor)
      ((S.view s).data.length + 1) 1 s inner (fillAll P [] (trees.map (fd, ·))) = some run₁ :=
    decodeLoop_isSome hS.toProgress _ 1 s inner _ (Nat.lt_add_right _ (Nat.lt_succ_self _))
  have hder₁ := decodeLoop_derivation hrun₁
  rcases hcontinue run₁ hder₁ with ⟨run₂, hder, htab, -⟩
  refine ⟨s, run₁, hs', hunread', hder₁, ?_⟩
  rw [← htab, ← (rawDecode_unique hder hrun).1, ← htab']
  exact hsame

/-- Where nothing follows the list, the loop ends with the values of the other list. -/
theorem PackedAlike.arrives_end (p : Probe fd)
    (hlen : (chunkRecords fd chunks).length ≤ S.totalBytesLimit)
    (hlen' : (valueRecords fd (chunks.flatMap Chunk.payloads)).length ≤ S.totalBytesLimit) :
    ∃ s run, S.Readable s ∧ (S.view s).unread = rest ∧
      DecodeDerivation P S garbage (fun _ => p.descriptor) 1 s inner
        (fillAll P [] (trees.map (fd, ·))) run ∧
      Same (.table run.tab) (.table (fillAll P [] (values.map (fd, ·)))) := by
  rw [← List.append_nil (chunkRecords fd chunks)] at hlen
  rw [← List.append_nil (valueRecords fd (chunks.flatMap Chunk.payloads))] at hlen'
  rcases h.arrives hS hvalues hsplit hfront p .nil hlen hlen' with
    ⟨s, run, hs, hunread, hder, hsame⟩
  rw [List.append_nil] at hunread
  simp only [storesOf, List.filterMap_nil, List.append_nil] at hsame
  exact ⟨s, run, hs, hunread, hder, hsame⟩

/-- Where a record of another field follows, the loop does not stop in front of it, and
does not come to a field that is absent. -/
theorem PackedAlike.arrives_record (p : Probe fd) (hsent : p.sent < 16) (habsent : p.absent < 16)
    {k : ℕ} (hk : k < 5)
    (hlen : (chunkRecords fd chunks).length + 6 ≤ S.totalBytesLimit)
    (hlen' : (valueRecords fd (chunks.flatMap Chunk.payloads)).length + 6 ≤ S.totalBytesLimit) :
    ∃ s run, S.Readable s ∧ (S.view s).unread = rest ++ p.record k ∧
      DecodeDerivation P S garbage (fun _ => p.descriptor) 1 s inner
        (fillAll P [] (trees.map (fd, ·))) run ∧
      (readFieldNumber S s).1 ≠ 0 ∧ run.tab.get (.string p.absentField.name) = none := by
  have hrecord : (p.record k).length ≤ 6 := by
    simp only [Probe.record, List.length_cons, List.length_append, List.length_replicate,
      List.length_nil]
    omega
  obtain ⟨b, hcontents⟩ : ∃ b, Contents (fun _ => p.descriptor) S.recursionLimit inner (p.record k)
      [(p.sentField, .scalar (.bool b))] := p.contents_record hsent habsent (by omega)
  rcases h.arrives hS hvalues hsplit hfront p hcontents
    (by rw [List.length_append]; omega) (by rw [List.length_append]; omega) with
    ⟨s, run, hs, hunread, hder, hsame⟩
  rw [fillAll_append, fillAll_single _ p.sentField (FieldValue.push_scalar _)] at hsame
  have hone : p.sentField.isRepeated = false := rfl
  refine ⟨s, run, hs, hunread, hder, ?_, ?_⟩
  · intro hzero
    have hsome := (hsame.isSome_get _).mpr
      (Option.isSome_of_eq_some (get_fillValue_singular _ hone _))
    rw [hder.of_zero hzero, get_fillAll_values p.sentField_ne] at hsome
    cases hsome
  · rw [← Option.not_isSome_iff_eq_none, hsame.isSome_get,
      get_fillValue_of_ne _ p.absentField_ne_sentField, get_fillAll_values p.absentField_ne]
    exact Bool.false_ne_true

end

/-! ## What cannot be left of it -/

/-- Where the tag of the absent field is next, it is not absent in the end. -/
theorem DecodeDerivation.of_absent (hS : S.Reads) {p : Probe fd} (habsent : p.absent < 16)
    {inner : M} {s : S.Stream} {tab : LuaTable} {run : Run S}
    (h : DecodeDerivation P S garbage (fun _ => p.descriptor) 1 s inner tab run)
    (hs : S.Readable s) (hunread : (S.view s).unread = [UInt8.ofNat (8 * p.absent)]) :
    run.tab.get (.string p.absentField.name) ≠ none := by
  have hnumber := readFieldNumber_eq hS hs (hunread.trans (List.append_nil _).symm)
    (Probe.decode_smallTag habsent [])
  rw [tag_narrow_div p.absent_le] at hnumber
  exact Option.isSome_iff_ne_none.mp (h.of_bool p.absentField_mem rfl rfl hnumber)

/-- So it is behind a value of the field. -/
theorem DecodeDerivation.of_value_absent (hS : S.Reads) {p : Probe fd} (habsent : p.absent < 16)
    {inner : M} {s : S.Stream} {tab : LuaTable} {run : Run S}
    (h : DecodeDerivation P S garbage (fun _ => p.descriptor) 1 s inner tab run)
    (hs : S.Readable s) {tagBytes payload : Bytes} {n : ℕ} {v : Option LuaTree}
    (hunread : (S.view s).unread = tagBytes ++ (payload ++ [UInt8.ofNat (8 * p.absent)]))
    (htag : Varint.decode tagBytes = some (n, [])) (hnumber : n % 2 ^ 32 / 8 = fd.number)
    (hv : ScalarReads P fd.type payload v) :
    run.tab.get (.string p.absentField.name) ≠ none := by
  rcases readFieldNumber_decode hS hs hunread htag (hnumber ▸ fd.number_pos.ne') with
    ⟨hread, hview⟩
  rcases hs.advance hunread hview with ⟨hs₁, hunread₁⟩
  rcases readValue_reads hS hs₁ hunread₁ hv tab with ⟨-, -, hview₁⟩
  rcases hs₁.advance hunread₁ hview₁ with ⟨hs₂, hunread₂⟩
  rcases h.of_value p.mem_field hv.messageType_eq_none (hread.trans hnumber) with
    ⟨rest, hrest, htab⟩
  rw [htab]
  exact hrest.of_absent hS habsent hs₂ hunread₂

section

variable (hS : S.Documented) {inner : M} {chunks : List Chunk}
  (h : PackedAlike P S garbage inner fd chunks) {values : List LuaTree}
  (hvalues : FieldRecords P fd (valueRecords fd (chunks.flatMap Chunk.payloads)) values)
  {front rest : Bytes} {trees : List LuaTree} (hsplit : chunkRecords fd chunks = front ++ rest)
  (hfront : FieldRecords P fd front trees)
  (hlen : (chunkRecords fd chunks).length + 6 ≤ S.totalBytesLimit)
  (hlen' : (valueRecords fd (chunks.flatMap Chunk.payloads)).length + 6 ≤ S.totalBytesLimit)

include hS h hvalues hsplit hfront hlen hlen'

/-- No tag without a number. -/
theorem PackedAlike.number_ne_zero {tagBytes more : Bytes} {n : ℕ} (hrest : rest = tagBytes ++ more)
    (htag : Varint.decode tagBytes = some (n, [])) : n % 2 ^ 32 / 8 ≠ 0 := by
  rcases exists_smallProbe fd with ⟨p, hsent, habsent⟩
  rcases h.arrives_record hS hvalues hsplit hfront p hsent habsent (by decide : 0 < 5) hlen hlen'
    with ⟨s, run, hs, hunread, -, hnumber, -⟩
  rw [hrest, List.append_assoc] at hunread
  rwa [readFieldNumber_eq hS.toReads hs hunread htag] at hnumber

/-- No bytes that cannot become a tag. -/
theorem PackedAlike.length_lt (hdecode : Varint.decode rest = none) :
    rest.length < Varint.maxBytes := by
  by_contra hge
  rcases exists_smallProbe fd with ⟨p, hsent, habsent⟩
  rcases h.arrives_record hS hvalues hsplit hfront p hsent habsent (by decide : 0 < 5) hlen hlen'
    with ⟨s, run, hs, hunread, -, hnumber, -⟩
  have hread : (S.view s).readVarint = none := by
    rw [StreamView.readVarint, hunread, Varint.decode,
      Varint.decodeAux_overlong hdecode (Nat.le_of_not_lt hge), Option.map_none]
  apply hnumber
  rw [readFieldNumber, hS.readTag_none s hs hread, if_pos rfl]

/-- No tag of another field. -/
theorem PackedAlike.number_eq {tagBytes more : Bytes} {n : ℕ} (hrest : rest = tagBytes ++ more)
    (htag : Varint.decode tagBytes = some (n, [])) : n % 2 ^ 32 / 8 = fd.number := by
  by_contra hne
  have hpos : 0 < n % 2 ^ 32 / 8 := Nat.pos_of_ne_zero
    (h.number_ne_zero hS hvalues hsplit hfront hlen hlen' hrest htag)
  have hle : n % 2 ^ 32 / 8 ≤ maxFieldNumber := by
    simp only [maxFieldNumber]
    omega
  rcases exists_probe hpos hle hne with ⟨p, habsent, -⟩
  rcases h.arrives_end hS hvalues hsplit hfront p (by omega) (by omega) with
    ⟨s, run, hs, hunread, hder, hsame⟩
  have hnumber := readFieldNumber_eq hS.toReads hs (hunread.trans hrest) htag
  have hsome := (hsame.isSome_get _).mp
    (hder.of_bool p.absentField_mem rfl rfl (hnumber.trans habsent.symm))
  rw [get_fillAll_values p.absentField_ne] at hsome
  cases hsome

/-- No tag of the field with a value that only the bytes that follow complete. -/
theorem PackedAlike.no_value {tagBytes part : Bytes} {n : ℕ} (hrest : rest = tagBytes ++ part)
    (htag : Varint.decode tagBytes = some (n, [])) {k : ℕ} (hk : k < 5)
    (hvalue : ∀ b : UInt8, b.toNat < 128 →
      ∃ v, ScalarReads P fd.type (part ++ b :: List.replicate k 128) v) : False := by
  have hnumber := h.number_eq hS hvalues hsplit hfront hlen hlen' hrest htag
  rcases exists_smallProbe fd with ⟨p, hsent, habsent⟩
  rcases h.arrives_record hS hvalues hsplit hfront p hsent habsent hk hlen hlen' with
    ⟨s, run, hs, hunread, hder, -, hnone⟩
  have hbyte : (UInt8.ofNat (8 * p.sent)).toNat < 128 := by
    rw [UInt8.toNat_ofNat']
    omega
  rcases hvalue _ hbyte with ⟨v, hv⟩
  have hunread' : (S.view s).unread = tagBytes ++
      ((part ++ UInt8.ofNat (8 * p.sent) :: List.replicate k 128) ++
        [UInt8.ofNat (8 * p.absent)]) := by
    rw [hunread, hrest, Probe.record]
    simp only [List.append_assoc, List.cons_append]
  exact hder.of_value_absent hS.toReads habsent hs hunread' htag hnumber hv hnone

/-- No bytes at which a tag is cut off, unless there are none. -/
theorem PackedAlike.no_cut (hdecode : Varint.decode rest = none) (hne : rest ≠ [])
    (hfloat : ∀ bytes : Bytes, bytes.length = 4 → ∃ v, ScalarReads P fd.type bytes v) : False := by
  have hlt := h.length_lt hS hvalues hsplit hfront hlen hlen' hdecode
  rcases Varint.decodeAux_cut hdecode hlt with ⟨v, hv, hnext⟩
  rcases exists_cutProbe fd (List.length_pos_iff.mpr hne) hv with ⟨p, hsent, habsent, hother⟩
  have hbyte : (UInt8.ofNat (8 * p.sent)).toNat = 8 * p.sent := by
    rw [UInt8.toNat_ofNat']
    omega
  -- the first byte of the record that follows completes the tag
  have htag := hnext (UInt8.ofNat (8 * p.sent)) [] (by omega)
  rw [hbyte] at htag
  have hrecord : ∀ k, rest ++ p.record k = (rest ++ [UInt8.ofNat (8 * p.sent)]) ++
      (List.replicate k 128 ++ [UInt8.ofNat (8 * p.absent)]) := by
    intro k
    rw [Probe.record, List.append_assoc, List.singleton_append]
  by_cases hfd : (v + 8 * p.sent * 128 ^ rest.length) % 2 ^ 32 / 8 = fd.number
  · rcases h.arrives_record hS hvalues hsplit hfront p hsent habsent (by decide : 4 < 5) hlen hlen'
      with ⟨s, run, hs, hunread, hder, -, hnone⟩
    rcases hfloat (List.replicate 4 128) rfl with ⟨w, hw⟩
    exact hder.of_value_absent hS.toReads habsent hs (hunread.trans (hrecord 4)) htag hfd hw hnone
  · rcases h.arrives_record hS hvalues hsplit hfront p hsent habsent (by decide : 0 < 5) hlen hlen'
      with ⟨s, run, hs, hunread, hder, hnum, hnone⟩
    have hunread' := hunread.trans (hrecord 0)
    have hread := readFieldNumber_eq hS.toReads hs hunread' htag
    by_cases habs : (v + 8 * p.sent * 128 ^ rest.length) % 2 ^ 32 / 8 = p.absent
    · have hsome := hder.of_bool p.absentField_mem rfl rfl (hread.trans habs)
      rw [hnone] at hsome
      cases hsome
    · have hfind := p.findFieldByNumber_eq_none hfd hother habs
      rw [← hread] at hfind
      rcases hder.of_undeclared hnum hfind with ⟨run', hder', htab⟩
      have hview := (readFieldNumber_decode hS.toReads hs hunread' htag (hread ▸ hnum)).2
      rcases hs.advance hunread' hview with ⟨hs', hrest'⟩
      rw [htab] at hnone
      exact hder'.of_absent hS.toReads habsent hs' hrest' hnone

end

/-! ## Values -/

theorem exists_scalarReads_float {bytes : Bytes} (hlen : bytes.length = 4) :
    ∃ v, ScalarReads P (.float : FieldType M) bytes v := by
  match bytes, hlen with
  | [a, b, c, d], _ => exact ⟨_, (Carries.float rfl).reads⟩

theorem Packable.exists_scalarReads {type : FieldType M} (htype : Packable type)
    (hfloat : type ≠ .float) {payload : Bytes} {n : ℕ} (h : Varint.decode payload = some (n, [])) :
    ∃ v, ScalarReads P type payload v := by
  cases htype with
  | float => exact absurd rfl hfloat
  | int32 => exact ⟨_, .int32 h⟩
  | uint32 => exact ⟨_, .uint32 h⟩
  | bool => exact ⟨_, .bool h⟩
  | enum => exact ⟨_, .enum h⟩

/-- What is stored for a value is no table. -/
theorem FieldRecords.not_table {bytes : Bytes} {trees : List LuaTree}
    (h : FieldRecords P fd bytes trees) : ∀ tree ∈ trees, ∀ tab, tree ≠ .table tab := by
  induction h with
  | nil => exact List.forall_mem_nil _
  | @cons _ _ _ v _ _ _ _ hvalue _ ih =>
      refine List.forall_mem_append.mpr ⟨?_, ih⟩
      intro tree htree tab heq
      subst heq
      generalize fd.type = type at hvalue
      cases hvalue with
      | @enum enumType _ n _ =>
          rcases Option.map_eq_some_iff.mp (Option.mem_toList.mp htree) with ⟨_, _, heq⟩
          cases heq
      | _ => cases Option.mem_toList.mp htree

theorem Same.eq_of_not_table {tree tree' : LuaTree} (h : Same tree tree')
    (htree : ∀ tab, tree ≠ .table tab) : tree = tree' := by
  cases h with
  | refl => rfl
  | table => exact absurd rfl (htree _)

/-- The values of a repeated field are a list under its name. -/
theorem get_fillAll_values_self (hmany : fd.isRepeated = true) (trees : List LuaTree) :
    (fillAll P [] (trees.map (fd, ·))).get (.string fd.name) = listed trees := by
  rcases exists_smallProbe fd with ⟨p, -, -⟩
  have hmem : ∀ s ∈ trees.map (fd, ·), s.1 ∈ p.descriptor.field := by
    intro s hs
    rcases List.mem_map.mp hs with ⟨tree, -, rfl⟩
    exact p.mem_field
  have htrees : treesOf fd (trees.map (fd, ·)) = trees := by
    simp [treesOf, List.filter_map, Function.comp_def]
  rw [get_fillAll hmem p.mem_field, collected, if_pos hmany, htrees]

/-- Lists of scalars that differ in nothing but the order of entries are equal. -/
theorem eq_of_same_ofList {trees values : List LuaTree}
    (htrees : ∀ tree ∈ trees, ∀ tab, tree ≠ .table tab)
    (h : Same (.table (LuaTable.ofList trees)) (.table (LuaTable.ofList values))) :
    trees = values := by
  refine List.ext_getElem? fun i => ?_
  have hkeys := h.isSome_get (.integer (i + 1))
  rw [LuaTable.get_ofList_isSome, LuaTable.get_ofList_isSome] at hkeys
  by_cases hi : i < trees.length
  · have htree := List.getElem?_eq_getElem hi
    have hvalue := List.getElem?_eq_getElem (hkeys.mp hi)
    have hsame := h.get (LuaTable.get_ofList trees i htree) (LuaTable.get_ofList values i hvalue)
    rw [htree, hvalue, hsame.eq_of_not_table (htrees _ (List.getElem_mem hi))]
  · rw [List.getElem?_eq_none (Nat.le_of_not_lt hi),
      List.getElem?_eq_none (Nat.le_of_not_lt (mt hkeys.mpr hi))]

theorem eq_of_same_values (hmany : fd.isRepeated = true) {trees values : List LuaTree}
    (htrees : ∀ tree ∈ trees, ∀ tab, tree ≠ .table tab)
    (h : Same (.table (fillAll P [] (trees.map (fd, ·))))
      (.table (fillAll P [] (values.map (fd, ·))))) : trees = values := by
  have hget := get_fillAll_values_self (P := P) hmany trees
  have hget' := get_fillAll_values_self (P := P) hmany values
  have hkeys := h.isSome_get (.string fd.name)
  rw [hget, hget', listed, listed] at hkeys
  by_cases hnil : trees = []
  · by_cases hnil' : values = []
    · rw [hnil, hnil']
    · simp [hnil, hnil'] at hkeys
  · by_cases hnil' : values = []
    · simp [hnil, hnil'] at hkeys
    · rw [listed, if_neg hnil] at hget
      rw [listed, if_neg hnil'] at hget'
      exact eq_of_same_ofList htrees (h.get hget hget')

/-! ## The condition -/

/-- A list that is decoded alike consists of records of the field. -/
theorem PackedAlike.rest_eq_nil (hS : S.Documented) {inner : M} {chunks : List Chunk}
    (h : PackedAlike P S garbage inner fd chunks) (htype : Packable fd.type)
    (hchunks : ∀ chunk ∈ chunks, ∀ payload ∈ chunk.payloads, ∃ x, Carries fd.type payload x)
    {values : List LuaTree}
    (hvalues : FieldRecords P fd (valueRecords fd (chunks.flatMap Chunk.payloads)) values)
    {front rest : Bytes} {trees : List LuaTree} (hsplit : chunkRecords fd chunks = front ++ rest)
    (hfront : FieldRecords P fd front trees)
    (hlen : (chunkRecords fd chunks).length + 6 ≤ S.totalBytesLimit)
    (hlen' : (valueRecords fd (chunks.flatMap Chunk.payloads)).length + 6 ≤ S.totalBytesLimit)
    (hnone : NoRecord P fd rest) : rest = [] := by
  by_contra hne
  by_cases hfloat : fd.type = .float
  · have hfour : ∀ bytes : Bytes, bytes.length = 4 → ∃ v, ScalarReads P fd.type bytes v := by
      rw [hfloat]
      exact fun bytes => exists_scalarReads_float
    cases hdecode : Varint.decode rest with
    | none => exact h.no_cut hS hvalues hsplit hfront hlen hlen' hdecode hne hfour
    | some p =>
        rcases Varint.decode_suffix hdecode with ⟨tagBytes, -, hrest, htag⟩
        have hnumber := h.number_eq hS hvalues hsplit hfront hlen hlen' hrest htag
        have hpart : p.2.length < 4 := by
          by_contra hge
          rcases hfour (p.2.take 4) (by rw [List.length_take]; omega) with ⟨v, hv⟩
          refine hnone tagBytes p.1 (p.2.take 4) v (p.2.drop 4) ?_ htag hnumber hv
          rw [List.append_assoc, List.take_append_drop, hrest]
        refine h.no_value hS hvalues hsplit hfront hlen hlen' hrest htag
          (by omega : 3 - p.2.length < 5) fun b _ => hfour _ ?_
        rw [List.length_append, List.length_cons, List.length_replicate]
        omega
  · have hlimit := hS.totalBytesLimit_lt
    have hvarints := sequence_chunkRecords htype hfloat hchunks (by omega)
    rw [hsplit] at hvarints
    rcases hvarints.drop.exists_decode hne with ⟨tagBytes, n, part, hrest, htag, hpart⟩
    have hnumber := h.number_eq hS hvalues hsplit hfront hlen hlen' hrest htag
    by_cases hnil : part = []
    · refine h.no_value hS hvalues hsplit hfront hlen hlen' hrest htag (by decide : 0 < 5) ?_
      intro b hb
      subst hnil
      refine htype.exists_scalarReads hfloat (n := b.toNat) ?_
      simp [Varint.decode, Varint.maxBytes, Varint.decodeAux, hb]
    · rcases hpart.exists_decode hnil with ⟨payload, m, more, rfl, hpayload, -⟩
      rcases htype.exists_scalarReads (P := P) hfloat hpayload with ⟨v, hv⟩
      refine hnone tagBytes n payload v more ?_ htag hnumber hv
      rw [List.append_assoc, hrest]

/-- Without packed chunks the records are those of the whole list. -/
theorem chunkRecords_of_unpacked {chunks : List Chunk}
    (h : ∀ chunk ∈ chunks, chunk.packed = false) :
    chunkRecords fd chunks = valueRecords fd (chunks.flatMap Chunk.payloads) := by
  induction chunks with
  | nil => rfl
  | cons chunk chunks ih =>
      rcases List.forall_mem_cons.mp h with ⟨hchunk, hchunks⟩
      have hrecords : chunk.records fd = valueRecords fd chunk.payloads := by
        rw [Chunk.records, hchunk, if_neg Bool.false_ne_true]
      have ih := ih hchunks
      rw [chunkRecords] at ih ⊢
      rw [List.flatMap_cons, ih, hrecords, List.flatMap_cons, valueRecords, valueRecords,
        valueRecords, List.flatMap_append]

end Luapb

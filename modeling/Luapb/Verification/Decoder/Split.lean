import Luapb.Verification.Decoder.Shown

/-! # Embedded messages in several records

An encoder may put the parts of an embedded message into several records of its field.
The decoder stores a new table for each of them, so that the last record is all that is
left, where the format asks for the fields of all of them. -/

namespace Luapb

open Ieee754 Wire PBStream

variable {M : Type} {P : Platform} {schema : Schema M}

/-- A record of a message field. -/
inductive MessageRecord (fd : FieldDescriptor M) (body : Bytes) : Bytes → Prop
  | record {tagBytes lengthBytes}
      (htag : Varint.decode tagBytes = some (tag fd.number .lengthDelimited, []))
      (hlength : Varint.decode lengthBytes = some (body.length, [])) (hlt : body.length < 2 ^ 31) :
      MessageRecord fd body (tagBytes ++ (lengthBytes ++ body))

/-- The shortest one. -/
def messageRecord (fd : FieldDescriptor M) (body : Bytes) : Bytes :=
  tagBytes fd.number .lengthDelimited ++ lengthDelimited body

theorem messageRecord_record (fd : FieldDescriptor M) {body : Bytes} (hlt : body.length < 2 ^ 31) :
    MessageRecord fd body (messageRecord fd body) :=
  .record (decode_tagBytes fd .lengthDelimited) (decode_encode_nil (by omega)) hlt

/-- Splitting the payload of a record does not change the decoded table, whatever records
of other fields stand before, between and after the two. -/
def SplitAlike (P : Platform) (S : CodedInputStream) (garbage : S.Stream → ℤ) (schema : Schema M)
    (msgD : M) (fd : FieldDescriptor M) (p q : Bytes) : Prop :=
  ∀ before between after beforeFields betweenFields afterFields first second whole,
    Contents schema S.recursionLimit msgD before beforeFields →
    Contents schema S.recursionLimit msgD between betweenFields →
    Contents schema S.recursionLimit msgD after afterFields →
    (∀ f ∈ beforeFields ++ (betweenFields ++ afterFields), f.1.number ≠ fd.number) →
    MessageRecord fd p first → MessageRecord fd q second → MessageRecord fd (p ++ q) whole →
    (before ++ (first ++ (between ++ (second ++ after)))).length ≤ S.totalBytesLimit →
    (before ++ (whole ++ (between ++ after))).length ≤ S.totalBytesLimit →
    ∃ fuel run run',
      rawDecode P S garbage schema fuel 1
        (S.create (before ++ (first ++ (between ++ (second ++ after))))) msgD = some run ∧
      rawDecode P S garbage schema fuel 1
        (S.create (before ++ (whole ++ (between ++ after)))) msgD = some run' ∧
      Same (.table run.tab) (.table run'.tab)

/-- Everything the first message says is said again by the second. -/
def Overridden (d : Descriptor M) (fields more : Fields M) : Prop :=
  ∀ fd ∈ d.field, retained fd fields = [] ∨ fd.isRepeated = false ∧ retained fd more ≠ []

/-! ## Records and fields -/

theorem MessageRecord.contents {fd : FieldDescriptor M} {body record : Bytes}
    (h : MessageRecord fd body record) {budget : ℕ} {msgD messageType : M}
    (hmem : fd ∈ (schema msgD).field) (htype : fd.type = .message messageType)
    {inner : Fields M} (hbody : Contents schema budget messageType body inner) :
    Contents schema (budget + 1) msgD record [(fd, .message inner)] := by
  cases h with
  | record htag hlength hlt =>
      have hrecord := Contents.message hmem htype htag hlength hlt hbody .nil
      rwa [List.append_nil] at hrecord

theorem retained_append (fd : FieldDescriptor M) (fields more : Fields M) :
    retained fd (fields ++ more) = retained fd fields ++ retained fd more := by
  simp [retained]

theorem retained_of_number_ne {fd : FieldDescriptor M} {fields : Fields M}
    (h : ∀ f ∈ fields, f.1.number ≠ fd.number) : retained fd fields = [] := by
  induction fields with
  | nil => rfl
  | cons f fields ih =>
      obtain ⟨hf, hfields⟩ := List.forall_mem_cons.mp h
      have hrest := ih hfields
      rw [retained] at hrest ⊢
      simpa [hf] using hrest

theorem retained_message_self (fd : FieldDescriptor M) (inner : Fields M) :
    retained fd [(fd, .message inner)] = [.message inner] := by
  simp [retained, FieldValue.isDeclared]

/-! ## Tables -/

theorem Same.of_get_eq {tab tab' : LuaTable} (h : ∀ k, tab.get k = tab'.get k) :
    Same (.table tab) (.table tab') := by
  refine .table (fun k => by rw [h]) ?_
  intro k v v' hv hv'
  rw [h, hv'] at hv
  cases hv
  exact .refl v

/-- Where everything is overridden, the table of both messages is that of the second. -/
theorem collected_of_overridden {d : Descriptor M} {fields fields' : Fields M}
    (h : Overridden d fields fields') {fd : FieldDescriptor M} (hfd : fd ∈ d.field) :
    collected fd (storesOf P fields') = collected fd (storesOf P (fields ++ fields')) := by
  rw [storesOf_append, collected, collected, treesOf_append]
  rcases h fd hfd with hnil | ⟨hone, hne⟩
  · rw [treesOf_eq_nil.mpr hnil, List.nil_append]
  · rw [hone]
    simp only [Bool.false_eq_true, if_false]
    rw [List.getLast?_append_of_ne_nil _ (mt treesOf_eq_nil.mp hne)]

section

variable {d : Descriptor M} {fields fields' : Fields M} (hmem : ∀ f ∈ fields, f.1 ∈ d.field)
  (hmem' : ∀ f ∈ fields', f.1 ∈ d.field)

include hmem hmem'

/-- Under a key is the same if what is collected for the field of that name is. -/
theorem get_storesOf_congr {k : LuaKey}
    (h : ∀ fd ∈ d.field, k = .string fd.name →
      collected fd (storesOf P fields) = collected fd (storesOf P fields')) :
    (fillAll P [] (storesOf P fields)).get k = (fillAll P [] (storesOf P fields')).get k := by
  by_cases hk : ∃ fd ∈ d.field, k = .string fd.name
  · obtain ⟨fd, hfd, rfl⟩ := hk
    rw [get_storesOf hmem hfd, get_storesOf hmem' hfd]
    exact h fd hfd rfl
  · have hnone : ∀ {fields : Fields M}, (∀ f ∈ fields, f.1 ∈ d.field) →
        ∀ s ∈ storesOf P fields, k ≠ .string s.1.name := by
      intro fields hmem s hs hname
      obtain ⟨f, hf, heq, -⟩ := exists_of_mem_storesOf hs
      exact hk ⟨f.1, hmem f hf, heq ▸ hname⟩
    rw [get_fillAll_of_ne (hnone hmem), get_fillAll_of_ne (hnone hmem')]

/-- The table of the second message is that of both only if everything is overridden. -/
theorem overridden_of_same (h : Same (.table (fillAll P [] (storesOf P fields')))
    (.table (fillAll P [] (storesOf P (fields ++ fields'))))) : Overridden d fields fields' := by
  have hboth : ∀ f ∈ fields ++ fields', f.1 ∈ d.field := List.forall_mem_append.mpr ⟨hmem, hmem'⟩
  intro fd hfd
  apply or_iff_not_imp_left.mpr
  intro hne
  have hxs : treesOf fd (storesOf P fields) ≠ [] := mt treesOf_eq_nil.mp hne
  have hget := get_storesOf (P := P) hmem' hfd
  have hget' := get_storesOf (P := P) hboth hfd
  have htrees : treesOf fd (storesOf P (fields ++ fields')) =
      treesOf fd (storesOf P fields) ++ treesOf fd (storesOf P fields') := by
    rw [storesOf_append, treesOf_append]
  have happend := List.append_ne_nil_of_left_ne_nil hxs (treesOf fd (storesOf P fields'))
  have hkeys := h.isSome_get (.string fd.name)
  rw [hget, hget', collected_isSome, collected_isSome, htrees] at hkeys
  have hys := hkeys.mpr happend
  refine ⟨?_, mt treesOf_eq_nil.mpr hys⟩
  -- the list of a repeated field would be longer
  cases hmany : fd.isRepeated with
  | false => rfl
  | true =>
      rw [collected, if_pos hmany, listed, if_neg hys] at hget
      rw [collected, if_pos hmany, htrees, listed, if_neg happend] at hget'
      have hlists := (h.get hget hget').isSome_get
        (.integer ((treesOf fd (storesOf P fields')).length + 1))
      rw [LuaTable.get_ofList_isSome, LuaTable.get_ofList_isSome, List.length_append] at hlists
      have hpos := List.length_pos_iff_ne_nil.mpr hxs
      omega

end

/-! ## The two messages -/

section

variable {S : CodedInputStream} {garbage : S.Stream → ℤ} {msgD messageType : M}
  {fd : FieldDescriptor M} {before between after inner more : Fields M}

/-- Under the name of a singular message field is the table of its last record. -/
theorem get_message {d : Descriptor M} {fields : Fields M} (hmem : ∀ f ∈ fields, f.1 ∈ d.field)
    (hfd : fd ∈ d.field) (hone : fd.isRepeated = false)
    (hlast : (retained fd fields).getLast? = some (.message inner)) :
    (fillAll P [] (storesOf P fields)).get (.string fd.name) =
      some (.table (fillAll P [] (storesOf P inner))) := by
  obtain ⟨tree, hpush, hget⟩ := get_storesOf_singular (P := P) hmem hfd hone hlast
  rw [FieldValue.push_message] at hpush
  rw [hget, hpush]

/-- Nothing is stored for another field. -/
theorem treesOf_storesOf_of_ne {fd fd' : FieldDescriptor M} (h : fd.number ≠ fd'.number)
    (v : FieldValue M) : treesOf fd' (storesOf P [(fd, v)]) = [] := by
  cases hpush : v.push P with
  | none => simp [storesOf, treesOf, hpush]
  | some tree => simp [storesOf, treesOf, hpush, h]

variable (fd before between after inner more) in
/-- The fields of a message with two records of a field, and of one with a record for both. -/
def splitFields : Fields M :=
  before ++ ([(fd, .message inner)] ++ (between ++ ([(fd, .message more)] ++ after)))

variable (fd before between after inner more) in
def wholeFields : Fields M := before ++ ([(fd, .message (inner ++ more))] ++ (between ++ after))

/-- Both messages have the same records of other fields. -/
theorem treesOf_split {fd' : FieldDescriptor M} (h : fd.number ≠ fd'.number) :
    treesOf fd' (storesOf P (splitFields fd before between after inner more)) =
      treesOf fd' (storesOf P (wholeFields fd before between after inner more)) := by
  simp only [splitFields, wholeFields, storesOf_append, treesOf_append,
    treesOf_storesOf_of_ne h, List.nil_append]

section

variable (hothers : ∀ f ∈ before ++ (between ++ after), f.1.number ≠ fd.number)

include hothers

theorem retained_others : retained fd before = [] ∧ retained fd between = [] ∧
    retained fd after = [] := by
  obtain ⟨hbefore, hrest⟩ := List.forall_mem_append.mp hothers
  obtain ⟨hbetween, hafter⟩ := List.forall_mem_append.mp hrest
  exact ⟨retained_of_number_ne hbefore, retained_of_number_ne hbetween,
    retained_of_number_ne hafter⟩

theorem retained_split : (retained fd (splitFields fd before between after inner more)).getLast? =
    some (.message more) := by
  obtain ⟨hbefore, hbetween, hafter⟩ := retained_others hothers
  simp only [splitFields, retained_append, retained_message_self, hbefore, hbetween, hafter]
  rfl

theorem retained_whole : (retained fd (wholeFields fd before between after inner more)).getLast? =
    some (.message (inner ++ more)) := by
  obtain ⟨hbefore, hbetween, hafter⟩ := retained_others hothers
  simp only [wholeFields, retained_append, retained_message_self, hbefore, hbetween, hafter]
  rfl

end

/-- The tables of the two messages are the same exactly if everything is overridden. -/
theorem same_split_iff {d d' : Descriptor M}
    (hsplit : ∀ f ∈ splitFields fd before between after inner more, f.1 ∈ d.field)
    (hwhole : ∀ f ∈ wholeFields fd before between after inner more, f.1 ∈ d.field)
    (hinner : ∀ f ∈ inner, f.1 ∈ d'.field) (hmore : ∀ f ∈ more, f.1 ∈ d'.field)
    (hfd : fd ∈ d.field) (hone : fd.isRepeated = false)
    (hothers : ∀ f ∈ before ++ (between ++ after), f.1.number ≠ fd.number) :
    Same (.table (fillAll P [] (storesOf P (splitFields fd before between after inner more))))
        (.table (fillAll P [] (storesOf P (wholeFields fd before between after inner more)))) ↔
      Overridden d' inner more := by
  have hgetSplit := get_message (P := P) hsplit hfd hone (retained_split hothers)
  have hgetWhole := get_message (P := P) hwhole hfd hone (retained_whole hothers)
  constructor
  · intro h
    exact overridden_of_same hinner hmore (h.get hgetSplit hgetWhole)
  · intro h
    have hinnerSame : Same (.table (fillAll P [] (storesOf P more)))
        (.table (fillAll P [] (storesOf P (inner ++ more)))) := by
      apply Same.of_get_eq
      intro k
      apply get_storesOf_congr hmore (List.forall_mem_append.mpr ⟨hinner, hmore⟩)
      intro fd' hfd' _
      exact collected_of_overridden h hfd'
    have hget : ∀ k, k ≠ .string fd.name →
        (fillAll P [] (storesOf P (splitFields fd before between after inner more))).get k =
          (fillAll P [] (storesOf P (wholeFields fd before between after inner more))).get k := by
      intro k hk
      apply get_storesOf_congr hsplit hwhole
      rintro fd' hfd' rfl
      have hne : fd.number ≠ fd'.number := by
        intro hnumber
        exact hk (by rw [Descriptor.eq_of_number hfd hfd' hnumber])
      rw [collected, collected, treesOf_split hne]
    refine .table ?_ ?_
    · intro k
      by_cases hk : k = .string fd.name
      · rw [hk, hgetSplit, hgetWhole]
        rfl
      · rw [hget k hk]
    · intro k v v' hv hv'
      by_cases hk : k = .string fd.name
      · rw [hk, hgetSplit] at hv
        rw [hk, hgetWhole] at hv'
        cases hv
        cases hv'
        exact hinnerSame
      · rw [hget k hk, hv'] at hv
        cases hv
        exact .refl v

end

/-! ## `RawDecode` -/

variable {S : CodedInputStream} {garbage : S.Stream → ℤ}

variable (P schema) in
theorem exists_runs (hS : S.Progress) (garbage : S.Stream → ℤ) (msgD : M) (bytes bytes' : Bytes) :
    ∃ fuel run run', rawDecode P S garbage schema fuel 1 (S.create bytes) msgD = some run ∧
      rawDecode P S garbage schema fuel 1 (S.create bytes') msgD = some run' := by
  obtain ⟨run, hrun⟩ : ∃ run, rawDecode P S garbage schema (bytes.length + bytes'.length + 1) 1
      (S.create bytes) msgD = some run := rawDecode_isSome hS (by omega)
  obtain ⟨run', hrun'⟩ : ∃ run', rawDecode P S garbage schema (bytes.length + bytes'.length + 1) 1
      (S.create bytes') msgD = some run' := rawDecode_isSome hS (by omega)
  exact ⟨_, run, run', hrun, hrun'⟩

/-- The runs on two such messages. -/
theorem same_runs_iff (hS : S.Documented) {budget : ℕ} (hlimit : S.recursionLimit = budget + 1)
    {msgD messageType : M} {fd : FieldDescriptor M} (hfd : fd ∈ (schema msgD).field)
    (htype : fd.type = .message messageType) (hone : fd.isRepeated = false)
    {p q first second whole : Bytes} {inner more : Fields M}
    (hp : Contents schema budget messageType p inner)
    (hq : Contents schema budget messageType q more) (hfirst : MessageRecord fd p first)
    (hsecond : MessageRecord fd q second) (hwhole : MessageRecord fd (p ++ q) whole)
    {before between after : Bytes} {beforeFields betweenFields afterFields : Fields M}
    (hbefore : Contents schema S.recursionLimit msgD before beforeFields)
    (hbetween : Contents schema S.recursionLimit msgD between betweenFields)
    (hafter : Contents schema S.recursionLimit msgD after afterFields)
    (hothers : ∀ f ∈ beforeFields ++ (betweenFields ++ afterFields), f.1.number ≠ fd.number)
    (hlen : (before ++ (first ++ (between ++ (second ++ after)))).length ≤ S.totalBytesLimit)
    (hlen' : (before ++ (whole ++ (between ++ after))).length ≤ S.totalBytesLimit)
    {fuel : ℕ} {run run' : Run S}
    (hrun : rawDecode P S garbage schema fuel 1
      (S.create (before ++ (first ++ (between ++ (second ++ after))))) msgD = some run)
    (hrun' : rawDecode P S garbage schema fuel 1
      (S.create (before ++ (whole ++ (between ++ after)))) msgD = some run') :
    Same (.table run.tab) (.table run'.tab) ↔ Overridden (schema messageType) inner more := by
  have hcontents : ∀ {body record : Bytes} {fields : Fields M}, MessageRecord fd body record →
      Contents schema budget messageType body fields →
      Contents schema S.recursionLimit msgD record [(fd, .message fields)] := by
    intro body record fields hrecord hbody
    rw [hlimit]
    exact hrecord.contents hfd htype hbody
  have htwo : Contents schema S.recursionLimit msgD _
      (splitFields fd beforeFields betweenFields afterFields inner more) :=
    hbefore.append ((hcontents hfirst hp).append (hbetween.append
      ((hcontents hsecond hq).append hafter)))
  have hboth : Contents schema S.recursionLimit msgD _
      (wholeFields fd beforeFields betweenFields afterFields inner more) :=
    hbefore.append ((hcontents hwhole (hp.append hq)).append (hbetween.append hafter))
  have hinner : ∀ f ∈ inner, f.1 ∈ (schema messageType).field := by
    cases hp.declared with
    | message hmem _ => exact hmem
  have hmore : ∀ f ∈ more, f.1 ∈ (schema messageType).field := by
    cases hq.declared with
    | message hmem _ => exact hmem
  rw [(htwo.run_eq hS hlen hrun).1, (hboth.run_eq hS hlen' hrun').1]
  exact same_split_iff htwo.mem hboth.mem hinner hmore hfd hone hothers

namespace Chain

theorem contents_value {n : ℕ} {payload : Bytes} (h : Varint.decode payload = some (n, [])) :
    Contents Chain.schema 99 () (16 :: payload)
      [(value, .scalar (.uint32 (BitVec.ofNat 32 n)))] := by
  have hvalue : value ∈ (Chain.schema ()).field := List.mem_cons_of_mem _ List.mem_cons_self
  have hleaf : Contents Chain.schema 99 () ([16] ++ (payload ++ [])) _ :=
    .scalar hvalue (by decide) (.uint32 h) .nil
  rwa [List.append_nil] at hleaf

end Chain

end Luapb

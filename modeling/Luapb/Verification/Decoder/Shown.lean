import Luapb.Verification.Decoder.Contents

/-! # The table of a message

What the decoder stores for the records of a message is what the message says, as far as
Lua's integers reach. Records of different fields may change places, and what follows a
message appends to its lists and overrides the rest. -/

namespace Luapb

open Ieee754 Wire PBStream

variable {M : Type} {P : Platform}

/-- The scalars that `Stack<T>::push` does not change. -/
def Scalar.Fits (P : Platform) : Scalar → Prop
  | .uint32 n => P.build = .x64 ∨ n.toNat < 2 ^ 31
  | _ => True

/-- The values with no other scalars in them. -/
def FieldValue.Fits (P : Platform) : FieldValue M → Prop
  | .scalar x => x.Fits P
  | .undeclared => True
  | .message fields => ∀ x, Kept fields x → x.Fits P

theorem Scalar.represents_push_iff (x : Scalar) : x.Represents (x.push P).view ↔ x.Fits P := by
  have hrefl : ∀ i, (Binary.ofInt binary64 i).NumEq (Binary.ofInt binary64 i) :=
    fun i => .refl (Binary.not_isNaN_ofInt i)
  cases x with
  | float x => exact iff_of_true (.float x) trivial
  | int32 v => exact iff_of_true (.int32 (hrefl _)) trivial
  | bool b => exact iff_of_true (.bool b) trivial
  | string s => exact iff_of_true (.string s) trivial
  | enum value => exact iff_of_true (.enum value) trivial
  | int64 v => exact iff_of_true (.int64 v) trivial
  | uint64 v => exact iff_of_true (.uint64 v) trivial
  | uint32 v =>
      constructor
      · intro h
        apply uint32_fits_of_represents
        rw [BitVec.ofNat_toNat, BitVec.setWidth_eq]
        exact h
      · intro h
        refine .uint32 ?_
        rw [pushUnsigned_of_fits h]
        exact hrefl _

/-! ## Fields and what is stored for them -/

/-- A value that is kept belongs to a record of the field. -/
theorem mem_of_mem_keptValues {fd : FieldDescriptor M} {fields : Fields M} {v : FieldValue M}
    (h : v ∈ keptValues fd fields) : v ∈ retained fd fields := by
  rw [keptValues] at h
  split at h
  · exact h
  · exact List.mem_of_getLast? (Option.mem_toList.mp h)

theorem mem_of_mem_retained {fd : FieldDescriptor M} {fields : Fields M} {v : FieldValue M}
    (h : v ∈ retained fd fields) :
    ∃ f ∈ fields, f.1.number = fd.number ∧ f.2 = v ∧ v.isDeclared := by
  rcases List.mem_map.mp h with ⟨f, hf, rfl⟩
  rcases List.mem_filter.mp hf with ⟨hf, hkept⟩
  rcases of_decide_eq_true hkept with ⟨hnumber, hdeclared⟩
  exact ⟨f, hf, hnumber, rfl, hdeclared⟩

/-- The scalars kept in a message are those of the values kept for its fields. -/
theorem fits_message_iff {fields : Fields M} :
    (FieldValue.message fields).Fits P ↔ ∀ f ∈ fields, ∀ v ∈ keptValues f.1 fields, v.Fits P := by
  constructor
  · intro h f hf v hv
    cases v with
    | scalar x => exact h x (.scalar hf hv)
    | undeclared => trivial
    | message inner => exact fun x hx => h x (.nested hf hv hx)
  · intro h x hx
    cases hx with
    | scalar hf hv => exact h _ hf _ hv
    | nested hf hv hinner => exact h _ hf _ hv x hinner

/-- What is stored under the name of a field, if anything is. -/
theorem collected_isSome {fd : FieldDescriptor M} {stores : List (FieldDescriptor M × LuaTree)} :
    (collected fd stores).isSome ↔ treesOf fd stores ≠ [] := by
  rw [collected]
  split
  · rw [listed]
    split <;> simp [*]
  · simp

theorem treesOf_eq_nil {fd : FieldDescriptor M} {fields : Fields M} :
    treesOf fd (storesOf P fields) = [] ↔ retained fd fields = [] := by
  rw [← List.length_eq_zero_iff, ← (retained_push fd fields).length_eq, List.length_eq_zero_iff]

section

variable {d : Descriptor M} {fields : Fields M} (hmem : ∀ f ∈ fields, f.1 ∈ d.field)

theorem exists_of_mem_storesOf {s : FieldDescriptor M × LuaTree} (h : s ∈ storesOf P fields) :
    ∃ f ∈ fields, f.1 = s.1 ∧ f.2.push P = some s.2 := by
  rcases List.mem_filterMap.mp h with ⟨f, hf, heq⟩
  rcases Option.map_eq_some_iff.mp heq with ⟨tree, hpush, rfl⟩
  exact ⟨f, hf, rfl, hpush⟩

include hmem

theorem get_storesOf {fd : FieldDescriptor M} (hfd : fd ∈ d.field) :
    (fillAll P [] (storesOf P fields)).get (.string fd.name) =
      collected fd (storesOf P fields) := by
  refine get_fillAll ?_ hfd
  intro s hs
  rcases exists_of_mem_storesOf hs with ⟨f, hf, heq, -⟩
  exact heq ▸ hmem f hf

/-- The keys are the names of the fields with a value. -/
theorem isSome_get_storesOf (k : LuaKey) :
    ((fillAll P [] (storesOf P fields)).get k).isSome ↔
      ∃ f ∈ fields, k = .string f.1.name ∧ retained f.1 fields ≠ [] := by
  have hfield : ∀ f ∈ fields, ((fillAll P [] (storesOf P fields)).get (.string f.1.name)).isSome ↔
      retained f.1 fields ≠ [] := by
    intro f hf
    rw [get_storesOf hmem (hmem f hf), collected_isSome, Ne, treesOf_eq_nil]
  constructor
  · intro h
    by_cases hname : ∀ s ∈ storesOf P fields, k ≠ .string s.1.name
    · rw [get_fillAll_of_ne hname] at h
      cases h
    · rcases not_forall.mp hname with ⟨s, hs⟩
      rcases Classical.not_imp.mp hs with ⟨hs, hk⟩
      rcases exists_of_mem_storesOf hs with ⟨f, hf, heq, -⟩
      have hk : k = .string f.1.name := heq ▸ not_not.mp hk
      exact ⟨f, hf, hk, (hfield f hf).mp (hk ▸ h)⟩
  · rintro ⟨f, hf, rfl, hne⟩
    exact (hfield f hf).mpr hne

/-- Under the name of a singular field is what is stored for its last value. -/
theorem get_storesOf_singular {fd : FieldDescriptor M} (hfd : fd ∈ d.field)
    (hone : fd.isRepeated = false) {v : FieldValue M}
    (hlast : (retained fd fields).getLast? = some v) :
    ∃ tree, v.push P = some tree ∧
      (fillAll P [] (storesOf P fields)).get (.string fd.name) = some tree := by
  have hpushes := retained_push (P := P) fd fields
  rw [List.getLast?_eq_getElem?] at hlast
  rcases Fallible.getElem?_of_forall₂ hpushes hlast with ⟨tree, htree, hpush⟩
  refine ⟨tree, hpush, ?_⟩
  rw [get_storesOf hmem hfd, collected, hone, if_neg Bool.false_ne_true,
    List.getLast?_eq_getElem?, ← hpushes.length_eq, htree]

/-- Under the name of a repeated field is a list of what is stored for its values. -/
theorem get_storesOf_repeated {fd : FieldDescriptor M} (hfd : fd ∈ d.field)
    (hmany : fd.isRepeated = true) (hne : retained fd fields ≠ []) :
    ∃ list : LuaTable,
      (fillAll P [] (storesOf P fields)).get (.string fd.name) = some (.table list) ∧
      (∀ k, (list.get k).isSome ↔ ∃ i < (retained fd fields).length, k = .integer (i + 1)) ∧
      ∀ (i : ℕ) v, (retained fd fields)[i]? = some v →
        ∃ tree, v.push P = some tree ∧ list.get (.integer (i + 1)) = some tree := by
  have hpushes := retained_push (P := P) fd fields
  refine ⟨LuaTable.ofList (treesOf fd (storesOf P fields)), ?_, ?_, ?_⟩
  · rw [get_storesOf hmem hfd, collected, if_pos hmany, listed,
      if_neg (mt treesOf_eq_nil.mp hne)]
  · intro k
    rw [LuaTable.get_isSome_iff, LuaTable.mem_keys_ofList, ← hpushes.length_eq]
  · intro i v hi
    rcases Fallible.getElem?_of_forall₂ hpushes hi with ⟨tree, htree, hpush⟩
    exact ⟨tree, hpush, LuaTable.get_ofList _ _ htree⟩

/-- The table shows the fields if what is stored for each value that is kept shows it. -/
theorem shows_storesOf_iff :
    Shows (.message fields) (.table (fillAll P [] (storesOf P fields))) ↔
      ∀ f ∈ fields, ∀ v ∈ keptValues f.1 fields, ∀ tree, v.push P = some tree → Shows v tree := by
  constructor
  · intro h
    cases h with
    | message hkeys hsingular hlist hitems =>
        intro f hf v hv tree hpush
        cases hmany : f.1.isRepeated with
        | true =>
            rw [keptValues, if_pos hmany] at hv
            rcases List.mem_iff_getElem?.mp hv with ⟨i, hi⟩
            rcases get_storesOf_repeated (P := P) hmem (hmem f hf) hmany (List.ne_nil_of_mem hv)
              with ⟨list, hget, -, hvalues⟩
            rcases hvalues i v hi with ⟨tree', hpush', hitem⟩
            obtain rfl := Option.some.inj (hpush.symm.trans hpush')
            exact hitems f hf hmany list i v tree hget hi hitem
        | false =>
            rw [keptValues, hmany, if_neg Bool.false_ne_true] at hv
            have hlast := Option.mem_toList.mp hv
            rcases get_storesOf_singular (P := P) hmem (hmem f hf) hmany hlast with
              ⟨tree', hpush', hget⟩
            obtain rfl := Option.some.inj (hpush.symm.trans hpush')
            exact hsingular f hf hmany v tree hlast hget
  · intro h
    refine .message (isSome_get_storesOf hmem) ?_ ?_ ?_
    · intro f hf hone v tree hlast hget
      rcases get_storesOf_singular (P := P) hmem (hmem f hf) hone hlast with ⟨tree', hpush, hget'⟩
      obtain rfl := Option.some.inj (hget.symm.trans hget')
      refine h f hf v ?_ tree hpush
      rw [keptValues, hone, if_neg Bool.false_ne_true]
      exact Option.mem_toList.mpr hlast
    · intro f hf hmany tree hget
      have hne : retained f.1 fields ≠ [] := by
        rcases (isSome_get_storesOf (P := P) hmem (.string f.1.name)).mp
          (Option.isSome_of_eq_some hget) with ⟨f', hf', hname, hne⟩
        have heq := Descriptor.eq_of_name (hmem f' hf') (hmem f hf) (LuaKey.string.inj hname).symm
        exact heq ▸ hne
      rcases get_storesOf_repeated (P := P) hmem (hmem f hf) hmany hne with ⟨list, hget', hkeys, -⟩
      obtain rfl := Option.some.inj (hget.symm.trans hget')
      exact ⟨list, rfl, hkeys⟩
    · intro f hf hmany list i v tree hget hi hitem
      have hv : v ∈ retained f.1 fields := List.mem_of_getElem? hi
      rcases get_storesOf_repeated (P := P) hmem (hmem f hf) hmany (List.ne_nil_of_mem hv) with
        ⟨list', hget', -, hvalues⟩
      obtain rfl := LuaTree.table.inj (Option.some.inj (hget.symm.trans hget'))
      rcases hvalues i v hi with ⟨tree', hpush, hitem'⟩
      obtain rfl := Option.some.inj (hitem.symm.trans hitem')
      refine h f hf v ?_ tree hpush
      rw [keptValues, if_pos hmany]
      exact hv

end

/-- Messages in a value have declared fields only, at any depth. -/
inductive Declared (schema : Schema M) : FieldType M → FieldValue M → Prop
  | scalar (type x) : Declared schema type (.scalar x)
  | undeclared (type) : Declared schema type .undeclared
  | message {messageType} {fields : Fields M}
      (hmem : ∀ f ∈ fields, f.1 ∈ (schema messageType).field)
      (hvalues : ∀ f ∈ fields, Declared schema f.1.type f.2) :
      Declared schema (.message messageType) (.message fields)

variable {schema : Schema M}

theorem Declared.cons {msgD : M} {fd : FieldDescriptor M} {v : FieldValue M} {fields : Fields M}
    (hfd : fd ∈ (schema msgD).field) (hv : Declared schema fd.type v)
    (h : Declared schema (.message msgD) (.message fields)) :
    Declared schema (.message msgD) (.message ((fd, v) :: fields)) := by
  cases h with
  | message hmem hvalues =>
      exact .message (List.forall_mem_cons.mpr ⟨hfd, hmem⟩)
        (List.forall_mem_cons.mpr ⟨hv, hvalues⟩)

theorem Contents.declared {budget : ℕ} {msgD : M} {bytes : Bytes} {fields : Fields M}
    (h : Contents schema budget msgD bytes fields) :
    Declared schema (.message msgD) (.message fields) := by
  induction h with
  | nil => exact .message (List.forall_mem_nil _) (List.forall_mem_nil _)
  | @scalar _ _ _ _ _ x _ _ hmem _ _ _ ih =>
      cases x with
      | none => exact .cons hmem (.undeclared _) ih
      | some x => exact .cons hmem (.scalar _ x) ih
  | message hmem htype _ _ _ _ _ ihb ih =>
      exact .cons hmem (htype ▸ ihb) ih

/-- What is stored for a value shows it if it fits. -/
theorem Declared.shows_iff {type : FieldType M} {v : FieldValue M} (h : Declared schema type v)
    {tree : LuaTree} (hpush : v.push P = some tree) : Shows v tree ↔ v.Fits P := by
  induction h generalizing tree with
  | scalar type x =>
      obtain rfl := Option.some.inj ((FieldValue.push_scalar x).symm.trans hpush)
      constructor
      · intro h
        cases h with
        | scalar h => exact x.represents_push_iff.mp h
      · intro hfits
        exact .scalar (x.represents_push_iff.mpr hfits)
  | undeclared type => cases FieldValue.push_undeclared.symm.trans hpush
  | @message messageType fields hmem _ ih =>
      obtain rfl := Option.some.inj ((FieldValue.push_message fields).symm.trans hpush)
      rw [shows_storesOf_iff hmem, fits_message_iff]
      refine forall₂_congr fun f _ => forall₂_congr fun v hv => ?_
      rcases mem_of_mem_retained (mem_of_mem_keptValues hv) with ⟨f', hf', -, rfl, hdeclared⟩
      rw [← FieldValue.push_isSome (P := P)] at hdeclared
      rcases Option.isSome_iff_exists.mp hdeclared with ⟨tree, hpush⟩
      constructor
      · intro h
        exact (ih f' hf' hpush).mp (h tree hpush)
      · intro hfits tree' hpush'
        exact (ih f' hf' hpush').mpr hfits

/-! ## Order -/

/-- Values that differ in the order of records of different fields, and in numbers that
enums do not declare. -/
inductive Rearranged : FieldValue M → FieldValue M → Prop
  | refl (v) : Rearranged v v
  | message {fields fields' : Fields M}
      (hlength : ∀ fd, (retained fd fields).length = (retained fd fields').length)
      (hvalues : ∀ fd (i : ℕ) v v', (retained fd fields)[i]? = some v →
        (retained fd fields')[i]? = some v' → Rearranged v v') :
      Rearranged (.message fields) (.message fields')

/-- Tables that differ in the order of their entries. -/
inductive Same : LuaTree → LuaTree → Prop
  | refl (tree) : Same tree tree
  | table {tab tab' : LuaTable} (hkeys : ∀ k, (tab.get k).isSome ↔ (tab'.get k).isSome)
      (hvalues : ∀ k v v', tab.get k = some v → tab'.get k = some v' → Same v v') :
      Same (.table tab) (.table tab')

theorem Same.isSome_get {tab tab' : LuaTable} (h : Same (.table tab) (.table tab')) (k : LuaKey) :
    (tab.get k).isSome ↔ (tab'.get k).isSome := by
  cases h with
  | refl => rfl
  | table hkeys _ => exact hkeys k

theorem Same.get {tab tab' : LuaTable} (h : Same (.table tab) (.table tab')) {k : LuaKey}
    {v v' : LuaTree} (hv : tab.get k = some v) (hv' : tab'.get k = some v') : Same v v' := by
  cases h with
  | refl =>
      obtain rfl := Option.some.inj (hv.symm.trans hv')
      exact .refl v
  | table _ hvalues => exact hvalues k v v' hv hv'

section

variable {d : Descriptor M} {fields fields' : Fields M} (hmem : ∀ f ∈ fields, f.1 ∈ d.field)
  (hmem' : ∀ f ∈ fields', f.1 ∈ d.field)
  (hlength : ∀ fd, (retained fd fields).length = (retained fd fields').length)

include hmem hmem' hlength

theorem isSome_get_rearranged {k : LuaKey}
    (h : ((fillAll P [] (storesOf P fields)).get k).isSome) :
    ((fillAll P [] (storesOf P fields')).get k).isSome := by
  rcases (isSome_get_storesOf hmem k).mp h with ⟨f, hf, rfl, hne⟩
  have hne' : retained f.1 fields' ≠ [] := by
    rw [← List.length_pos_iff_ne_nil, ← hlength, List.length_pos_iff_ne_nil]
    exact hne
  rcases List.exists_mem_of_ne_nil _ hne' with ⟨v, hv⟩
  rcases mem_of_mem_retained hv with ⟨f', hf', hnumber, -⟩
  have heq := Descriptor.eq_of_number (hmem' f' hf') (hmem f hf) hnumber
  exact (isSome_get_storesOf hmem' _).mpr ⟨f', hf', by rw [heq], heq ▸ hne'⟩

/-- The tables of messages whose values are alike are. -/
theorem same_storesOf (hvalues : ∀ f ∈ fields, ∀ (i : ℕ) v v' tree tree',
      (retained f.1 fields)[i]? = some v → (retained f.1 fields')[i]? = some v' →
      v.push P = some tree → v'.push P = some tree' → Same tree tree') :
    Same (.table (fillAll P [] (storesOf P fields)))
      (.table (fillAll P [] (storesOf P fields'))) := by
  refine .table (fun k => ⟨isSome_get_rearranged hmem hmem' hlength,
    isSome_get_rearranged hmem' hmem fun fd => (hlength fd).symm⟩) ?_
  intro k w w' hget hget'
  rcases (isSome_get_storesOf hmem k).mp (Option.isSome_of_eq_some hget) with ⟨f, hf, rfl, hne⟩
  have hne' : retained f.1 fields' ≠ [] := by
    rw [← List.length_pos_iff_ne_nil, ← hlength, List.length_pos_iff_ne_nil]
    exact hne
  cases hmany : f.1.isRepeated with
  | true =>
      rcases get_storesOf_repeated (P := P) hmem (hmem f hf) hmany hne with
        ⟨list, hlist, hkeys, hitems⟩
      rcases get_storesOf_repeated (P := P) hmem' (hmem f hf) hmany hne' with
        ⟨list', hlist', hkeys', hitems'⟩
      obtain rfl := Option.some.inj (hget.symm.trans hlist)
      obtain rfl := Option.some.inj (hget'.symm.trans hlist')
      refine .table (fun k => by rw [hkeys, hkeys', hlength]) ?_
      intro k tree tree' hitem hitem'
      rcases (hkeys k).mp (Option.isSome_of_eq_some hitem) with ⟨i, hi, rfl⟩
      have hi' : i < (retained f.1 fields').length := hlength f.1 ▸ hi
      rcases hitems i _ (List.getElem?_eq_getElem hi) with ⟨_, hpush, hitem₁⟩
      rcases hitems' i _ (List.getElem?_eq_getElem hi') with ⟨_, hpush', hitem₁'⟩
      obtain rfl := Option.some.inj (hitem.symm.trans hitem₁)
      obtain rfl := Option.some.inj (hitem'.symm.trans hitem₁')
      exact hvalues f hf i _ _ _ _ (List.getElem?_eq_getElem hi) (List.getElem?_eq_getElem hi')
        hpush hpush'
  | false =>
      have hlast := List.getLast?_eq_some_getLast hne
      have hlast' := List.getLast?_eq_some_getLast hne'
      rcases get_storesOf_singular (P := P) hmem (hmem f hf) hmany hlast with ⟨_, hpush, hget₁⟩
      rcases get_storesOf_singular (P := P) hmem' (hmem f hf) hmany hlast' with
        ⟨_, hpush', hget₁'⟩
      obtain rfl := Option.some.inj (hget.symm.trans hget₁)
      obtain rfl := Option.some.inj (hget'.symm.trans hget₁')
      rw [List.getLast?_eq_getElem?] at hlast hlast'
      rw [← hlength] at hlast'
      exact hvalues f hf _ _ _ _ _ hlast hlast' hpush hpush'

end

/-- What is stored for values that differ in the order of records differs in the order of
entries. -/
theorem Rearranged.same {v v' : FieldValue M} (h : Rearranged v v') {type : FieldType M}
    (hv : Declared schema type v) (hv' : Declared schema type v') {tree tree' : LuaTree}
    (hpush : v.push P = some tree) (hpush' : v'.push P = some tree') : Same tree tree' := by
  induction h generalizing type tree tree' with
  | refl v =>
      obtain rfl := Option.some.inj (hpush.symm.trans hpush')
      exact .refl tree
  | @message fields fields' hlength _ ih =>
      obtain rfl := Option.some.inj ((FieldValue.push_message fields).symm.trans hpush)
      obtain rfl := Option.some.inj ((FieldValue.push_message fields').symm.trans hpush')
      cases hv with
      | message hmem hvalues =>
          cases hv' with
          | message hmem' hvalues' =>
              apply same_storesOf hmem hmem' hlength
              intro f hf i w w' t t' hi hi' ht ht'
              rcases mem_of_mem_retained (List.mem_of_getElem? hi) with ⟨g, hg, hnumber, rfl, -⟩
              rcases mem_of_mem_retained (List.mem_of_getElem? hi') with
                ⟨g', hg', hnumber', rfl, -⟩
              have heq : g'.1 = g.1 := Descriptor.eq_of_number (hmem' g' hg') (hmem g hg)
                (hnumber'.trans hnumber.symm)
              exact ih f.1 i _ _ hi hi' (hvalues g hg) (heq ▸ hvalues' g' hg') ht ht'

/-! ## Concatenation -/

/-- A message that follows another appends to its lists and overrides the rest. -/
def Appended (fd : FieldDescriptor M) (tab more both : LuaTable) : Prop :=
  if fd.isRepeated then
    ∃ xs ys, tab.get (.string fd.name) = listed xs ∧ more.get (.string fd.name) = listed ys ∧
      both.get (.string fd.name) = listed (xs ++ ys)
  else both.get (.string fd.name) = (more.get (.string fd.name)).or (tab.get (.string fd.name))

theorem appended_storesOf {d : Descriptor M} {fields more : Fields M}
    (hmem : ∀ f ∈ fields, f.1 ∈ d.field) (hmore : ∀ f ∈ more, f.1 ∈ d.field)
    {fd : FieldDescriptor M} (hfd : fd ∈ d.field) :
    Appended fd (fillAll P [] (storesOf P fields)) (fillAll P [] (storesOf P more))
      (fillAll P [] (storesOf P (fields ++ more))) := by
  have hboth : ∀ f ∈ fields ++ more, f.1 ∈ d.field := List.forall_mem_append.mpr ⟨hmem, hmore⟩
  rw [Appended, get_storesOf hmem hfd, get_storesOf hmore hfd, get_storesOf hboth hfd, collected,
    collected, collected, storesOf_append, treesOf_append]
  cases hmany : fd.isRepeated with
  | true => exact ⟨_, _, rfl, rfl, rfl⟩
  | false => exact List.getLast?_append

/-! ## `RawDecode` -/

section

variable {S : CodedInputStream} {garbage : S.Stream → ℤ} {msgD : M} {bytes : Bytes}
  {fields : Fields M}

/-- `RawDecode` consumes a message and returns a table that shows its fields, whatever the
order of records of different fields, and as an extension of the messages before it. -/
structure DecodesAsMeant (P : Platform) (S : CodedInputStream) (garbage : S.Stream → ℤ)
    (schema : Schema M) (msgD : M) (bytes : Bytes) (fields : Fields M) : Prop where
  shown : ∀ fuel, bytes.length < fuel →
    ∃ run, rawDecode P S garbage schema fuel 1 (S.create bytes) msgD = some run ∧
      S.view run.stream =
        { (StreamView.start bytes).advance bytes.length with legitimateEnd := true } ∧
      Shows (.message fields) (.table run.tab)
  rearranged : ∀ bytes' fields', Contents schema S.recursionLimit msgD bytes' fields' →
    bytes'.length ≤ S.totalBytesLimit → Rearranged (.message fields) (.message fields') →
    ∀ fuel fuel' run run',
      rawDecode P S garbage schema fuel 1 (S.create bytes) msgD = some run →
      rawDecode P S garbage schema fuel' 1 (S.create bytes') msgD = some run' →
      Same (.table run.tab) (.table run'.tab)
  appended : ∀ more moreFields, Contents schema S.recursionLimit msgD more moreFields →
    (bytes ++ more).length ≤ S.totalBytesLimit → ∀ fuel fuel' fuel'' run run' run'',
      rawDecode P S garbage schema fuel 1 (S.create bytes) msgD = some run →
      rawDecode P S garbage schema fuel' 1 (S.create more) msgD = some run' →
      rawDecode P S garbage schema fuel'' 1 (S.create (bytes ++ more)) msgD = some run'' →
      ∀ fd ∈ (schema msgD).field, Appended fd run.tab run'.tab run''.tab

theorem Contents.run_eq (hS : S.Documented)
    (h : Contents schema S.recursionLimit msgD bytes fields)
    (hlen : bytes.length ≤ S.totalBytesLimit) {fuel : ℕ} {run : Run S}
    (hrun : rawDecode P S garbage schema fuel 1 (S.create bytes) msgD = some run) :
    run.tab = fillAll P [] (storesOf P fields) ∧ S.view run.stream =
      { (StreamView.start bytes).advance bytes.length with legitimateEnd := true } :=
  ((h.denotes []).leadsTo hS).run_eq hS hlen hrun

theorem Contents.mem {budget : ℕ} (h : Contents schema budget msgD bytes fields) :
    ∀ f ∈ fields, f.1 ∈ (schema msgD).field := by
  cases h.declared with
  | message hmem _ => exact hmem

/-- `RawDecode` returns what a message means if `Stack<T>::push` changes no scalar in it. -/
theorem Contents.decodesAsMeant_iff_fits (hS : S.Documented)
    (h : Contents schema S.recursionLimit msgD bytes fields)
    (hlen : bytes.length ≤ S.totalBytesLimit) :
    DecodesAsMeant P S garbage schema msgD bytes fields ↔ (FieldValue.message fields).Fits P := by
  rw [← h.declared.shows_iff (FieldValue.push_message fields)]
  constructor
  · intro hmeant
    rcases hmeant.shown _ (Nat.lt_succ_self _) with ⟨run, hrun, -, hshown⟩
    rwa [(h.run_eq hS hlen hrun).1] at hshown
  · intro hshown
    refine ⟨?_, ?_, ?_⟩
    · intro fuel hfuel
      rcases rawDecode_isSome (P := P) hS.toProgress hfuel with ⟨run, hrun⟩
      rcases h.run_eq hS hlen hrun with ⟨htab, hview⟩
      exact ⟨run, hrun, hview, htab ▸ hshown⟩
    · intro bytes' fields' h' hlen' hrearranged fuel fuel' run run' hrun hrun'
      rw [(h.run_eq hS hlen hrun).1, (h'.run_eq hS hlen' hrun').1]
      exact hrearranged.same h.declared h'.declared (FieldValue.push_message _)
        (FieldValue.push_message _)
    · intro more moreFields hmore hboth fuel fuel' fuel'' run run' run'' hrun hrun' hrun'' fd hfd
      have hlenMore : more.length ≤ S.totalBytesLimit := by
        rw [List.length_append] at hboth
        omega
      rw [(h.run_eq hS hlen hrun).1, (hmore.run_eq hS hlenMore hrun').1,
        ((h.append hmore).run_eq hS hboth hrun'').1]
      exact appended_storesOf h.mem hmore.mem hfd

/-- Only unsigned integers can fail to fit, and only on Win32. -/
theorem fits_message_iff_uint32 : (FieldValue.message fields).Fits P ↔
    P.build = .x64 ∨ ∀ n, Kept fields (.uint32 n) → n.toNat < 2 ^ 31 := by
  constructor
  · intro hfits
    cases hbuild : P.build with
    | x64 => exact .inl rfl
    | win32 =>
        right
        intro n hn
        rcases hfits _ hn with hx64 | hlt
        · cases hbuild.symm.trans hx64
        · exact hlt
  · intro hcond x hx
    cases x with
    | uint32 n => exact hcond.imp_right fun hlt => hlt n hx
    | _ => trivial

/-- Where `Stack<unsigned int>` has room, and only there, `RawDecode` returns what a
message means. -/
theorem decodesAsMeant_iff (hS : S.Documented)
    (h : Contents schema S.recursionLimit msgD bytes fields)
    (hlen : bytes.length ≤ S.totalBytesLimit) :
    DecodesAsMeant P S garbage schema msgD bytes fields ↔
      P.build = .x64 ∨ ∀ n, Kept fields (.uint32 n) → n.toNat < 2 ^ 31 :=
  (h.decodesAsMeant_iff_fits hS hlen).trans fits_message_iff_uint32

end

namespace Tree

/-- `{child = {{value = n}}}` -/
def nodeFields (n : BitVec 32) : Fields Unit :=
  [(child, .message [(value, .scalar (.uint32 n))])]

theorem contents_node {n : ℕ} {lengthBytes payload : Bytes}
    (h : Varint.decode payload = some (n, []))
    (hlength : Varint.decode lengthBytes = some (payload.length + 1, []))
    (hlt : payload.length + 1 < 2 ^ 31) :
    Contents Tree.schema 100 () (10 :: (lengthBytes ++ 16 :: payload))
      (nodeFields (BitVec.ofNat 32 n)) := by
  have hchild : child ∈ (Tree.schema ()).field := List.mem_cons_self
  have hvalue : value ∈ (Tree.schema ()).field := List.mem_cons_of_mem _ List.mem_cons_self
  have hleaf : Contents Tree.schema 99 () ([16] ++ (payload ++ [])) _ :=
    .scalar hvalue (by decide) (.uint32 h) .nil
  rw [List.append_nil] at hleaf
  have hnode : Contents Tree.schema 100 () ([10] ++ (lengthBytes ++ (([16] ++ payload) ++ []))) _ :=
    .message hchild rfl (by decide) hlength hlt hleaf .nil
  rw [List.append_nil] at hnode
  exact hnode

theorem kept_node {n : BitVec 32} {x : Scalar} :
    Kept (nodeFields n) x ↔ x = .uint32 n := by
  have hchild : keptValues child (nodeFields n) = [.message [(value, .scalar (.uint32 n))]] := rfl
  have hvalue : keptValues value [(value, .scalar (.uint32 n))] = [.scalar (.uint32 n)] := rfl
  constructor
  · intro h
    cases h with
    | scalar hmem hkept =>
        obtain rfl := List.mem_singleton.mp hmem
        rw [hchild] at hkept
        cases List.mem_singleton.mp hkept
    | nested hmem hkept hinner =>
        obtain rfl := List.mem_singleton.mp hmem
        rw [hchild] at hkept
        cases List.mem_singleton.mp hkept
        cases hinner with
        | scalar hmem hkept =>
            obtain rfl := List.mem_singleton.mp hmem
            rw [hvalue] at hkept
            exact FieldValue.scalar.inj (List.mem_singleton.mp hkept)
        | nested hmem hkept _ =>
            obtain rfl := List.mem_singleton.mp hmem
            rw [hvalue] at hkept
            cases List.mem_singleton.mp hkept
  · rintro rfl
    refine .nested List.mem_cons_self (hchild ▸ List.mem_cons_self) ?_
    exact .scalar List.mem_cons_self (hvalue ▸ List.mem_cons_self)

end Tree

/-- `{child = {{value = 7}}}` -/
theorem decodesAsMeant_tree : DecodesAsMeant (.plain .win32) .reference (fun _ => 0) Tree.schema ()
    [10, 2, 16, 7] (Tree.nodeFields 7) := by
  have hvalue : Varint.decode [7] = some (7, []) := by decide
  have hlength : Varint.decode [2] = some (2, []) := by decide
  have hcontents : Contents Tree.schema 100 () [10, 2, 16, 7] (Tree.nodeFields 7) :=
    Tree.contents_node hvalue hlength (by decide)
  refine (decodesAsMeant_iff CodedInputStream.reference_documented hcontents (by decide)).mpr ?_
  right
  intro n hn
  obtain rfl := Scalar.uint32.inj (Tree.kept_node.mp hn)
  decide

/-- `{child = {{value = 3000000000}}}` is read as `{child = {{value = -1294967296}}}`. -/
theorem not_decodesAsMeant_tree :
    Contents Tree.schema 100 () [10, 6, 16, 128, 188, 193, 150, 11] (Tree.nodeFields 3000000000) ∧
      ¬ DecodesAsMeant (.plain .win32) .reference (fun _ => 0) Tree.schema ()
        [10, 6, 16, 128, 188, 193, 150, 11] (Tree.nodeFields 3000000000) := by
  have hvalue : Varint.decode [128, 188, 193, 150, 11] = some (3000000000, []) := by decide
  have hlength : Varint.decode [6] = some (6, []) := by decide
  have hcontents : Contents Tree.schema 100 () [10, 6, 16, 128, 188, 193, 150, 11]
      (Tree.nodeFields 3000000000) := Tree.contents_node hvalue hlength (by decide)
  refine ⟨hcontents, ?_⟩
  rw [hcontents.decodesAsMeant_iff_fits CodedInputStream.reference_documented (by decide)]
  intro hfits
  rcases hfits _ (Tree.kept_node.mpr rfl) with hbuild | hlt
  · cases hbuild
  · exact absurd hlt (by decide)

end Luapb

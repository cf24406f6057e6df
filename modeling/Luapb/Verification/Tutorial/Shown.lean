import Luapb.Verification.RoundTrip.Records
import Luapb.Verification.Tutorial.RoundTrip
import Mathlib.Data.List.Nodup

/-! # Messages in tables

A table shows a message if it has the fields of the message under their names, where it has
anything there. What it lacks are the values that fields have when they are not set. -/

namespace Luapb

open Ieee754 PBStream

/-! ## Fields -/

namespace AddressBook

def numberField : FieldDescriptor Message := phoneNumber.field.get ⟨0, by decide⟩

def typeField : FieldDescriptor Message := phoneNumber.field.get ⟨1, by decide⟩

def nameField : FieldDescriptor Message := person.field.get ⟨0, by decide⟩

def idField : FieldDescriptor Message := person.field.get ⟨1, by decide⟩

def emailField : FieldDescriptor Message := person.field.get ⟨2, by decide⟩

def phoneField : FieldDescriptor Message := person.field.get ⟨3, by decide⟩

def testField : FieldDescriptor Message := person.field.get ⟨4, by decide⟩

def personField : FieldDescriptor Message := addressBook.field.get ⟨0, by decide⟩

theorem field_phoneNumber : (schema .phoneNumber).field = [numberField, typeField] := rfl

theorem field_person : (schema .person).field =
    [nameField, idField, emailField, phoneField, testField] := rfl

theorem field_addressBook : (schema .addressBook).field = [personField] := rfl

theorem mem_numberField : numberField ∈ (schema .phoneNumber).field := by simp [field_phoneNumber]

theorem mem_typeField : typeField ∈ (schema .phoneNumber).field := by simp [field_phoneNumber]

theorem mem_nameField : nameField ∈ (schema .person).field := by simp [field_person]

theorem mem_idField : idField ∈ (schema .person).field := by simp [field_person]

theorem mem_emailField : emailField ∈ (schema .person).field := by simp [field_person]

theorem mem_phoneField : phoneField ∈ (schema .person).field := by simp [field_person]

theorem mem_testField : testField ∈ (schema .person).field := by simp [field_person]

theorem mem_personField : personField ∈ (schema .addressBook).field := by simp [field_addressBook]

end AddressBook

namespace Tutorial

/-! ## What a table shows -/

section

variable {V α : Type} (view : V → LuaView V)

/-- The value under a name. -/
def entryOf (entries : List (LuaKey × V)) (name : Bytes) : Option V :=
  (entries.find? (·.1 = .string name)).map (·.2)

/-- A singular field. -/
def Under (unset : Prop) (shows : V → Prop) : Option V → Prop
  | none => unset
  | some v => shows v

/-- A repeated field. -/
def ListUnder (shows : V → α → Prop) (as : List α) : Option V → Prop
  | none => as = []
  | some v => ∃ values, view v = .table (sequence values) ∧ List.Forall₂ shows values as

/-- A table that shows a message. -/
def Tabled (shows : (Bytes → Option V) → α → Prop) (v : V) (a : α) : Prop :=
  ∃ entries, view v = .table entries ∧ shows (entryOf entries) a

/-- Which integer. -/
def ShowsInt (v : V) (n : BitVec 32) : Prop := (Scalar.int32 n).Represents (view v)

/-- Which string. -/
def ShowsString (v : V) (s : Bytes) : Prop := (Scalar.string s).Represents (view v)

/-- The name that a `PhoneType` declares for a number. -/
def ShowsType (v : V) (n : BitVec 32) : Prop :=
  ∃ value ∈ AddressBook.phoneType.value, value.number = n ∧ (Scalar.enum value).Represents (view v)

structure PhoneNumber.ShownBy (get : Bytes → Option V) (m : PhoneNumber) : Prop where
  number : Under (m.number = []) (ShowsString view · m.number) (get AddressBook.numberField.name)
  type : Under (m.type = 0) (ShowsType view · m.type) (get AddressBook.typeField.name)

structure Person.ShownBy (get : Bytes → Option V) (m : Person) : Prop where
  name : Under (m.name = []) (ShowsString view · m.name) (get AddressBook.nameField.name)
  id : Under (m.id = 0) (ShowsInt view · m.id) (get AddressBook.idField.name)
  email : Under (m.email = []) (ShowsString view · m.email) (get AddressBook.emailField.name)
  phone : ListUnder view (Tabled view (PhoneNumber.ShownBy view)) m.phone
    (get AddressBook.phoneField.name)
  test : ListUnder view (ShowsInt view) m.test (get AddressBook.testField.name)

structure AddressBook.ShownBy (get : Bytes → Option V) (m : AddressBook) : Prop where
  person : ListUnder view (Tabled view (Person.ShownBy view)) m.person
    (get AddressBook.personField.name)

end

/-! ### It is determined -/

section

variable {V : Type} {view : V → LuaView V} {get : Bytes → Option V} {v : V}

theorem ShowsInt.eq {n n' : BitVec 32} (h : ShowsInt view v n) (h' : ShowsInt view v n') :
    n = n' := by
  rw [ShowsInt] at h h'
  generalize view v = w at h h'
  cases h with
  | int32 hn =>
      cases h' with
      | int32 hn' =>
          have hge := n.le_toInt
          have hlt := n.toInt_lt
          have hge' := n'.le_toInt
          have hlt' := n'.toInt_lt
          have hint := Binary.ofInt_injOn (by omega) (by omega) (hn.symm.trans hn')
          exact BitVec.eq_of_toInt_eq hint

theorem ShowsString.eq {s s' : Bytes} (h : ShowsString view v s) (h' : ShowsString view v s') :
    s = s' := by
  rw [ShowsString] at h h'
  generalize view v = w at h h'
  cases h
  cases h'
  rfl

theorem ShowsType.eq {n n' : BitVec 32} (h : ShowsType view v n) (h' : ShowsType view v n') :
    n = n' := by
  obtain ⟨value, hmem, rfl, hrep⟩ := h
  obtain ⟨value', hmem', rfl, hrep'⟩ := h'
  generalize view v = w at hrep hrep'
  cases hrep with
  | enum =>
      have heq := List.inj_on_of_nodup_map AddressBook.phoneType.names_nodup hmem hmem'
        hrep'.enum_name
      exact congrArg EnumValueDescriptor.number heq

theorem Under.eq {α : Type} {shows : V → α → Prop} {unset a a' : α} {o : Option V}
    (heq : ∀ v, shows v a → shows v a' → a = a') (h : Under (a = unset) (shows · a) o)
    (h' : Under (a' = unset) (shows · a') o) : a = a' := by
  cases o with
  | none => exact h.trans h'.symm
  | some v => exact heq v h h'

/-- Lists are determined up to what determines their elements. -/
theorem ListUnder.map_eq {α β : Type} {shows : V → α → Prop} {data : α → β} {as as' : List α}
    {o : Option V} (heq : ∀ v a a', shows v a → shows v a' → data a = data a')
    (h : ListUnder view shows as o) (h' : ListUnder view shows as' o) :
    as.map data = as'.map data := by
  cases o with
  | none => rw [show as = [] from h, show as' = [] from h']
  | some v =>
      obtain ⟨values, hv, has⟩ := h
      obtain ⟨values', hv', has'⟩ := h'
      have hsequence := congrArg (List.map Prod.snd) (LuaView.table.inj (hv.symm.trans hv'))
      rw [values_sequence, values_sequence] at hsequence
      subst hsequence
      clear hv hv'
      induction has generalizing as' with
      | nil => cases has'; rfl
      | cons ha _ ih =>
          cases has' with
          | cons ha' has' => rw [List.map_cons, List.map_cons, heq _ _ _ ha ha', ih has']

theorem ListUnder.eq {α : Type} {shows : V → α → Prop} {as as' : List α} {o : Option V}
    (heq : ∀ v a a', shows v a → shows v a' → a = a') (h : ListUnder view shows as o)
    (h' : ListUnder view shows as' o) : as = as' := by
  have hid : ∀ v a a', shows v a → shows v a' → id a = id a' := heq
  have hmap := map_eq hid h h'
  rwa [List.map_id, List.map_id] at hmap

theorem Tabled.data_eq {α β : Type} {shows : (Bytes → Option V) → α → Prop} {data : α → β}
    {a a' : α} (heq : ∀ get, shows get a → shows get a' → data a = data a')
    (h : Tabled view shows v a) (h' : Tabled view shows v a') : data a = data a' := by
  obtain ⟨entries, hv, ha⟩ := h
  obtain ⟨entries', hv', ha'⟩ := h'
  obtain rfl := LuaView.table.inj (hv.symm.trans hv')
  exact heq _ ha ha'

theorem PhoneNumber.ShownBy.data_eq {m m' : PhoneNumber} (h : m.ShownBy view get)
    (h' : m'.ShownBy view get) : m.data = m'.data := by
  have hnumber := Under.eq (fun _ => ShowsString.eq) h.number h'.number
  have htype := Under.eq (fun _ => ShowsType.eq) h.type h'.type
  rw [data, data, hnumber, htype]

/-- A table shows one message at most, apart from cached sizes. -/
theorem Person.ShownBy.data_eq {m m' : Person} (h : m.ShownBy view get)
    (h' : m'.ShownBy view get) : m.data = m'.data := by
  have hname := Under.eq (fun _ => ShowsString.eq) h.name h'.name
  have hid := Under.eq (fun _ => ShowsInt.eq) h.id h'.id
  have hemail := Under.eq (fun _ => ShowsString.eq) h.email h'.email
  have hphones : ∀ v (phone phone' : PhoneNumber), Tabled view (PhoneNumber.ShownBy view) v phone →
      Tabled view (PhoneNumber.ShownBy view) v phone' → phone.data = phone'.data :=
    fun _ _ _ => Tabled.data_eq fun _ => PhoneNumber.ShownBy.data_eq
  have hphone := ListUnder.map_eq hphones h.phone h'.phone
  have hints : ∀ v n n', ShowsInt view v n → ShowsInt view v n' → n = n' :=
    fun _ _ _ => ShowsInt.eq
  have htest := ListUnder.eq hints h.test h'.test
  rw [data, data, hname, hid, hemail, hphone, htest]

theorem AddressBook.ShownBy.data_eq {m m' : AddressBook} (h : m.ShownBy view get)
    (h' : m'.ShownBy view get) : m.data = m'.data := by
  have hpersons : ∀ v (person person' : Person), Tabled view (Person.ShownBy view) v person →
      Tabled view (Person.ShownBy view) v person' → person.data = person'.data :=
    fun _ _ _ => Tabled.data_eq fun _ => Person.ShownBy.data_eq
  exact ListUnder.map_eq hpersons h.person h'.person

/-! ### Its types have names -/

theorem ListUnder.exists_of_mem {α : Type} {shows : V → α → Prop} {as : List α} {o : Option V}
    (h : ListUnder view shows as o) {a : α} (ha : a ∈ as) : ∃ v, shows v a := by
  cases o with
  | none =>
      rw [show as = [] from h] at ha
      cases ha
  | some v =>
      obtain ⟨values, -, hvalues⟩ := h
      obtain ⟨v, -, hv⟩ := Fallible.exists_of_mem_right hvalues ha
      exact ⟨v, hv⟩

/-- A type that is not there is `MOBILE`. -/
theorem PhoneNumber.ShownBy.type_named {m : PhoneNumber} (h : m.ShownBy view get) :
    (AddressBook.phoneType.findValueByNumber m.type).isSome := by
  have htype := h.type
  cases hget : get AddressBook.typeField.name with
  | none =>
      rw [hget] at htype
      rw [show m.type = 0 from htype]
      decide
  | some v =>
      rw [hget] at htype
      obtain ⟨value, hmem, hnumber, -⟩ := htype
      rw [EnumDescriptor.findValueByNumber, List.find?_isSome]
      exact ⟨value, hmem, decide_eq_true hnumber⟩

theorem AddressBook.ShownBy.types_named {m : AddressBook} (h : m.ShownBy view get) :
    ∀ person ∈ m.person, ∀ phone ∈ person.phone,
      (AddressBook.phoneType.findValueByNumber phone.type).isSome := by
  intro person hperson phone hphone
  obtain ⟨v, entries, -, hshown⟩ := h.person.exists_of_mem hperson
  obtain ⟨v', entries', -, hshown'⟩ := hshown.phone.exists_of_mem hphone
  exact hshown'.type_named

/-- Equal elements are shown in equal lists. -/
theorem ListUnder.congr {α β : Type} {shows : V → α → Prop} {data : α → β} {as as' : List α}
    {o : Option V} (heq : ∀ v a a', data a = data a' → shows v a → shows v a')
    (has : as.map data = as'.map data) (h : ListUnder view shows as o) :
    ListUnder view shows as' o := by
  cases o with
  | none =>
      rw [show as = [] from h, List.map_nil] at has
      exact List.map_eq_nil_iff.mp has.symm
  | some v =>
      obtain ⟨values, hv, hvalues⟩ := h
      refine ⟨values, hv, ?_⟩
      clear hv
      induction hvalues generalizing as' with
      | nil => rw [List.map_eq_nil_iff.mp has.symm]; exact .nil
      | cons ha _ ih =>
          obtain ⟨a', as', rfl, ha', has'⟩ := List.map_eq_cons_iff.mp has.symm
          exact .cons (heq _ _ _ ha'.symm ha) (ih has'.symm)

theorem Tabled.congr {α : Type} {shows : (Bytes → Option V) → α → Prop} {a a' : α}
    (heq : ∀ get, shows get a → shows get a') (h : Tabled view shows v a) :
    Tabled view shows v a' := by
  obtain ⟨entries, hv, ha⟩ := h
  exact ⟨entries, hv, heq _ ha⟩

theorem PhoneNumber.ShownBy.congr {m m' : PhoneNumber} (hdata : m.data = m'.data)
    (h : m.ShownBy view get) : m'.ShownBy view get := by
  obtain ⟨hnumber, htype⟩ := Prod.mk.inj hdata
  exact ⟨hnumber ▸ h.number, htype ▸ h.type⟩

theorem Person.ShownBy.congr {m m' : Person} (hdata : m.data = m'.data)
    (h : m.ShownBy view get) : m'.ShownBy view get := by
  simp only [data, Prod.mk.injEq] at hdata
  obtain ⟨hname, hid, hemail, hphone, htest⟩ := hdata
  refine ⟨hname ▸ h.name, hid ▸ h.id, hemail ▸ h.email, ?_, htest ▸ h.test⟩
  exact h.phone.congr (fun _ _ _ heq => Tabled.congr fun _ => PhoneNumber.ShownBy.congr heq) hphone

theorem AddressBook.ShownBy.congr {m m' : AddressBook} (hdata : m.data = m'.data)
    (h : m.ShownBy view get) : m'.ShownBy view get :=
  ⟨h.person.congr (fun _ _ _ heq => Tabled.congr fun _ => Person.ShownBy.congr heq) hdata⟩

end

/-! ## Values filled in -/

section

variable {M α : Type} {P : Platform} {fd : FieldDescriptor M} {tab : LuaTable} {tree : LuaTree}

theorem entryOf_fillValue {name : Bytes} (hne : name ≠ fd.name) :
    entryOf (fillValue P tab fd tree) name = entryOf tab name :=
  get_fillValue_of_ne tab (fun h => hne (LuaKey.string.inj h)) tree

theorem under_fillValue (hone : fd.isRepeated = false) {unset : Prop} {shows : LuaTree → Prop}
    (h : shows tree) : Under unset shows (entryOf (fillValue P tab fd tree) fd.name) := by
  rw [show entryOf (fillValue P tab fd tree) fd.name = some tree from
    get_fillValue_singular tab hone tree]
  exact h

theorem view_eq_table {entries : List (LuaKey × LuaTree)} (h : tree.view = .table entries) :
    tree = .table entries := by
  cases tree <;> cases h
  rfl

/-- An element more at the end of the list. -/
theorem listUnder_fillValue (hmany : fd.isRepeated = true) {shows : LuaTree → α → Prop}
    {as : List α} {a : α} (h : ListUnder LuaTree.view shows as (entryOf tab fd.name))
    (ha : shows tree a) :
    ListUnder LuaTree.view shows (as ++ [a]) (entryOf (fillValue P tab fd tree) fd.name) := by
  obtain ⟨values, hvalues, hshown⟩ : ∃ values, List.Forall₂ shows values as ∧
      entryOf (fillValue P tab fd tree) fd.name =
        some (.table (LuaTable.ofList (values ++ [tree]))) := by
    have hset : ∀ list, (tab.set (.string fd.name) list).get (.string fd.name) = some list :=
      LuaTable.get_set_self tab _
    cases hget : entryOf tab fd.name with
    | none =>
        rw [hget] at h
        rw [show as = [] from h]
        refine ⟨[], .nil, ?_⟩
        have hnone : tab.get (.string fd.name) = none := hget
        rw [fillValue, if_pos hmany, hnone, LuaTable.luaLRef_nil]
        exact hset _
    | some list =>
        rw [hget] at h
        obtain ⟨values, hlist, hvalues⟩ := h
        refine ⟨values, hvalues, ?_⟩
        have hsome : tab.get (.string fd.name) = some (.table (LuaTable.ofList values)) :=
          hget.trans (congrArg some (view_eq_table hlist))
        simp only [fillValue, if_pos hmany, hsome, LuaTable.luaLRef_ofList]
        exact hset _
  rw [hshown]
  exact ⟨_, rfl, List.rel_append hvalues (.cons ha .nil)⟩

end

/-! ## Equal tables -/

section

variable {L : LuaState}

/-- Equal values represent the same scalars, unless these are floats. -/
theorem represents_of_equal {x : Scalar} (hx : ∀ y, x ≠ .float y) {v : LuaView L.Value}
    {tree : LuaTree} (h : Equal L v tree) (hrep : x.Represents tree.view) : x.Represents v := by
  cases h with
  | boolean b =>
      cases hrep
      exact .bool b
  | number hnm =>
      cases hrep with
      | float y => exact absurd rfl (hx y)
      | int32 hm => exact .int32 (hnm.trans hm)
      | uint32 hm => exact .uint32 (hnm.trans hm)
  | string s => cases hrep <;> constructor
  | table => cases hrep

theorem ShowsInt.of_equal {v : L.Value} {w : LuaTree} {n : BitVec 32} (h : Equal L (L.view v) w)
    (hw : ShowsInt LuaTree.view w n) : ShowsInt L.view v n :=
  represents_of_equal (by simp) h hw

variable {entries : List (LuaKey × L.Value)} {tab : LuaTable} {name : Bytes}

theorem mem_of_entryOf {v : L.Value} (h : entryOf entries name = some v) :
    (.string name, v) ∈ entries := by
  obtain ⟨e, he, rfl⟩ := Option.map_eq_some_iff.mp h
  have hkey := List.find?_some he
  simp only [decide_eq_true_eq] at hkey
  exact hkey ▸ List.mem_of_find?_eq_some he

/-- What is under a name in one of them is so in the other. -/
theorem entryOf_equal (h : Equal L (.table entries) (.table tab)) (name : Bytes) :
    entryOf entries name = none ∧ entryOf tab name = none ∨
      ∃ v w, entryOf entries name = some v ∧ entryOf tab name = some w ∧ Equal L (L.view v) w := by
  have hkeys : LuaKey.string name ∈ entries.map (·.1) ↔ (entryOf tab name).isSome := by
    cases h with
    | table hkeys _ => exact (hkeys _).trans (LuaTable.get_isSome_iff tab _).symm
  cases hentry : entryOf entries name with
  | none =>
      have hnot : LuaKey.string name ∉ entries.map (·.1) := by
        rintro hmem
        obtain ⟨e, he, heq⟩ := List.mem_map.mp hmem
        have hfind := List.find?_eq_none.mp (Option.map_eq_none_iff.mp hentry) e he
        exact hfind (decide_eq_true heq)
      exact .inl ⟨rfl, Option.not_isSome_iff_eq_none.mp fun hsome => hnot (hkeys.mpr hsome)⟩
  | some v =>
      have hmem := mem_of_entryOf hentry
      obtain ⟨w, hw⟩ := Option.isSome_iff_exists.mp (hkeys.mp (List.mem_map_of_mem hmem))
      exact .inr ⟨v, w, rfl, hw, h.value hmem hw⟩

theorem Under.of_equal (h : Equal L (.table entries) (.table tab)) {unset : Prop}
    {shows : L.Value → Prop} {shows' : LuaTree → Prop}
    (hshows : ∀ v w, Equal L (L.view v) w → shows' w → shows v)
    (hunder : Under unset shows' (entryOf tab name)) :
    Under unset shows (entryOf entries name) := by
  rcases entryOf_equal h name with ⟨hnone, hnone'⟩ | ⟨v, w, hv, hw, hequal⟩
  · rw [hnone'] at hunder
    rwa [hnone]
  · rw [hw] at hunder
    rw [hv]
    exact hshows v w hequal hunder

theorem length_of_equal {values : List L.Value} {trees : List LuaTree}
    (h : Equal L (.table (sequence values)) (.table (sequence trees))) :
    values.length = trees.length := by
  have hmem : ∀ {V : Type} (values : List V) (i : ℕ),
      LuaKey.integer (i + 1) ∈ (sequence values).map (·.1) ↔ i < values.length := by
    intro V values i
    simp [keys_sequence]
  cases h with
  | table hkeys _ =>
      have hiff : ∀ i, i < values.length ↔ i < trees.length := by
        intro i
        rw [← hmem, ← hmem]
        exact hkeys _
      have hle := hiff values.length
      have hge := hiff trees.length
      omega

/-- A list that is a sequence is compared element by element. -/
theorem ListUnder.of_equal {α : Type} (h : Equal L (.table entries) (.table tab))
    {shows : L.Value → α → Prop} {shows' : LuaTree → α → Prop} {Q : L.Value → Prop}
    (hlist : ∀ v, entryOf entries name = some v →
      ∃ values, L.view v = .table (sequence values) ∧ ∀ v ∈ values, Q v)
    (hshows : ∀ v w a, Q v → Equal L (L.view v) w → shows' w a → shows v a) {as : List α}
    (hunder : ListUnder LuaTree.view shows' as (entryOf tab name)) :
    ListUnder L.view shows as (entryOf entries name) := by
  rcases entryOf_equal h name with ⟨hnone, hnone'⟩ | ⟨v, w, hv, hw, hequal⟩
  · rw [hnone'] at hunder
    rwa [hnone]
  · rw [hw] at hunder
    obtain ⟨trees, htrees, hshown⟩ := hunder
    obtain ⟨values, hvalues, hQ⟩ := hlist v hv
    rw [hv]
    refine ⟨values, hvalues, ?_⟩
    obtain rfl := view_eq_table htrees
    rw [hvalues] at hequal
    have hlen := length_of_equal hequal
    have hpairs := (equal_sequence_iff hlen).mp hequal
    clear hvalues hequal hw hv htrees hlen hlist
    induction hpairs generalizing as with
    | nil => cases hshown; exact .nil
    | cons hpair _ ih =>
        obtain ⟨hQv, hQ⟩ := List.forall_mem_cons.mp hQ
        cases hshown with
        | cons ha hshown => exact .cons (hshows _ _ _ hQv hpair ha) (ih hshown hQ)

theorem PhoneNumber.ShownBy.of_equal (h : Equal L (.table entries) (.table tab))
    {m : PhoneNumber} (hm : m.ShownBy LuaTree.view (entryOf tab)) :
    m.ShownBy L.view (entryOf entries) where
  number := hm.number.of_equal h fun _ _ => represents_of_equal (by simp)
  type := by
    refine hm.type.of_equal h ?_
    rintro v w hequal ⟨value, hmem, hnumber, hrep⟩
    exact ⟨value, hmem, hnumber, represents_of_equal (by simp) hequal hrep⟩

theorem Tabled.of_equal {α : Type} {shows : (Bytes → Option L.Value) → α → Prop}
    {shows' : (Bytes → Option LuaTree) → α → Prop} {v : L.Value} {w : LuaTree} {a : α}
    (hshows : ∀ entries tab, L.view v = .table entries → Equal L (.table entries) (.table tab) →
      shows' (entryOf tab) a → shows (entryOf entries) a)
    (h : Equal L (L.view v) w) (hw : Tabled LuaTree.view shows' w a) : Tabled L.view shows v a := by
  obtain ⟨tab, htab, ha⟩ := hw
  obtain rfl := view_eq_table htab
  generalize hview : L.view v = view at h
  cases h with
  | @table entries _ hkeys hvalues =>
      exact ⟨entries, hview, hshows entries tab hview (.table hkeys hvalues) ha⟩

/-- The value for a repeated field is a sequence. -/
theorem entryOf_list {nested : AddressBook.Message → L.Value → Prop}
    {msgD : AddressBook.Message} {v list : L.Value}
    (h : ConformingEntries L AddressBook.schema nested msgD v) (hv : L.view v = .table entries)
    {fd : FieldDescriptor AddressBook.Message} (hmem : fd ∈ (AddressBook.schema msgD).field)
    (hmany : fd.isRepeated = true)
    (hlist : entryOf entries fd.name = some list) :
    ∃ values, L.view list = .table (sequence values) ∧
      ∀ v ∈ values, ConformingValue L nested fd v := by
  obtain ⟨hentries', -, hentries⟩ := h
  obtain rfl := LuaView.table.inj (hv.symm.trans hentries')
  have hentry := hentries _ (mem_of_entryOf hlist)
  generalize hkey : LuaKey.string fd.name = key at hentry
  cases hentry with
  | singular hmem' hone =>
      obtain rfl := Descriptor.eq_of_name hmem hmem' (LuaKey.string.inj hkey)
      rw [hmany] at hone
      cases hone
  | repeated hmem' _ hlist' _ hvalues =>
      obtain rfl := Descriptor.eq_of_name hmem hmem' (LuaKey.string.inj hkey)
      exact ⟨_, hlist', hvalues⟩

theorem Person.ShownBy.of_equal {depth : ℕ} {v : L.Value}
    (hv : Conforming L AddressBook.schema depth .person v) (hentries : L.view v = .table entries)
    (h : Equal L (.table entries) (.table tab)) {m : Person}
    (hm : m.ShownBy LuaTree.view (entryOf tab)) : m.ShownBy L.view (entryOf entries) := by
  obtain ⟨nested, hv, -⟩ := hv.entries
  have hphone := fun list (hlist : entryOf entries AddressBook.phoneField.name = some list) =>
    entryOf_list hv hentries AddressBook.mem_phoneField rfl hlist
  have htest := fun list (hlist : entryOf entries AddressBook.testField.name = some list) =>
    entryOf_list hv hentries AddressBook.mem_testField rfl hlist
  exact {
    name := hm.name.of_equal h fun _ _ => represents_of_equal (by simp)
    id := hm.id.of_equal h fun _ _ => ShowsInt.of_equal
    email := hm.email.of_equal h fun _ _ => represents_of_equal (by simp)
    phone := by
      refine hm.phone.of_equal h hphone ?_
      exact fun _ _ _ _ => Tabled.of_equal fun _ _ _ hequal => PhoneNumber.ShownBy.of_equal hequal
    test := by
      refine hm.test.of_equal h htest ?_
      exact fun _ _ _ _ => ShowsInt.of_equal }

theorem AddressBook.ShownBy.of_equal {depth : ℕ} {v : L.Value}
    (hv : Conforming L AddressBook.schema depth .addressBook v)
    (hentries : L.view v = .table entries) (h : Equal L (.table entries) (.table tab))
    {m : AddressBook} (hm : m.ShownBy LuaTree.view (entryOf tab)) :
    m.ShownBy L.view (entryOf entries) := by
  obtain ⟨nested, hv, hdeeper⟩ := hv.entries
  have hperson := fun list (hlist : entryOf entries AddressBook.personField.name = some list) =>
    entryOf_list hv hentries AddressBook.mem_personField rfl hlist
  refine ⟨hm.person.of_equal h hperson ?_⟩
  intro v w person hconforming
  refine Tabled.of_equal ?_
  intro entries' tab' hentries' hequal
  cases hconforming with
  | scalar hx => cases hx
  | message htype hnested =>
      obtain rfl := FieldType.message.inj htype
      obtain ⟨d, -, hd⟩ := hdeeper _ _ hnested
      exact Person.ShownBy.of_equal hd hentries' hequal

end

end Tutorial

end Luapb

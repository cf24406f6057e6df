import Luapb.Verification.Ltable.Runs

/-! # Going through a table

`luaH_next` goes on behind the place of a key. Assigning to the keys of a table changes no
place, so that a traversal that does so never fails, and comes once to every key that it
leaves a value. -/

namespace Luapb

namespace LuaH

variable {V : Type} {identity : ℕ → Identity} {t : Table V}

/-! ## Places -/

/-- The slots in the order of a traversal. -/
def slots (t : Table V) : List (Option (LuaKey × V)) := arraySlots t ++ nodeSlots t

/-- Where a slot stands in this order. -/
def Table.index (t : Table V) : Slot → ℕ
  | .array i => i
  | .node i => t.sizearray + i

theorem length_arraySlots (t : Table V) : (arraySlots t).length = t.sizearray :=
  List.length_mapIdx ..

theorem At.array_lt {key : LuaKey} {i : ℕ} (h : At t key (.array i)) : i < t.sizearray := by
  cases h with
  | array hin =>
      have hpos := hin.1
      have hle := hin.2
      omega

/-- Different keys stand in different places. -/
theorem At.key_eq {key key' : LuaKey} {slot slot' : Slot} (h : At t key slot)
    (h' : At t key' slot') (hindex : t.index slot = t.index slot') : key = key' := by
  by_contra hne
  refine h.slot_ne h' hne ?_
  cases slot with
  | array i =>
      have hi := h.array_lt
      cases slot' with
      | array j => exact congrArg _ hindex
      | node j =>
          simp only [Table.index] at hindex
          omega
  | node i =>
      cases slot' with
      | array j =>
          have hj := h'.array_lt
          simp only [Table.index] at hindex
          omega
      | node j => exact congrArg _ (Nat.add_left_cancel hindex)

theorem slots_of_at {key : LuaKey} {slot : Slot} {v : V} (hslot : At t key slot)
    (hvalue : t.value slot = some v) : (slots t)[t.index slot]? = some (some (key, v)) := by
  rw [slots]
  cases hslot with
  | array hin =>
      have hlt := (At.array hin).array_lt
      obtain ⟨hkey, -⟩ := eq_integer_of_arrayindex_pos hin.1
      have hpos := hin.1
      have hindex : (((arrayindex key - 1).toNat : ℕ) : ℤ) + 1 = arrayindex key := by omega
      rw [Table.index, List.getElem?_append_left (by rwa [length_arraySlots]), arraySlots,
        List.getElem?_mapIdx, Option.join_eq_some_iff.mp hvalue, Option.map_some, Option.map_some,
        hindex, ← hkey]
  | node hin hkey =>
      have hlt := Table.lt_length_of_key hkey
      rw [Table.index, List.getElem?_append_right (by rw [length_arraySlots]; omega),
        length_arraySlots, Nat.add_sub_cancel_left, nodeSlots, List.getElem?_map,
        List.getElem?_eq_getElem hlt, Option.map_some]
      rw [Table.gkey, Table.gnode, List.getD_eq_getElem?_getD, List.getElem?_eq_getElem hlt] at hkey
      rw [Table.value, Table.gval, Table.gnode, List.getD_eq_getElem?_getD,
        List.getElem?_eq_getElem hlt] at hvalue
      simp only [Option.getD_some] at hkey hvalue
      simp only [hkey, hvalue]

theorem WellFormed.at_of_slots (h : WellFormed identity t) {j : ℕ} {e : LuaKey × V}
    (hj : (slots t)[j]? = some (some e)) :
    ∃ slot, At t e.1 slot ∧ t.index slot = j ∧ t.value slot = some e.2 := by
  rw [slots] at hj
  rcases Nat.lt_or_ge j t.sizearray with hlt | hge
  · rw [List.getElem?_append_left (by rwa [length_arraySlots]), arraySlots,
      List.getElem?_mapIdx] at hj
    obtain ⟨v?, hv?, heq⟩ := Option.map_eq_some_iff.mp hj
    obtain ⟨v, rfl, rfl⟩ := Option.map_eq_some_iff.mp heq
    obtain ⟨hin, hindex⟩ := h.inArray_of_lt hlt
    refine ⟨_, .array hin, hindex, ?_⟩
    rw [hindex, Table.value, hv?]
    rfl
  · rw [List.getElem?_append_right (by rwa [length_arraySlots]), length_arraySlots, nodeSlots,
      List.getElem?_map] at hj
    obtain ⟨n, hn, heq⟩ := Option.map_eq_some_iff.mp hj
    have hnode : t.gnode (j - t.sizearray) = n := by
      rw [Table.gnode, List.getD_eq_getElem?_getD, hn]
      rfl
    rcases n with ⟨_ | key, _ | v, next⟩ <;> cases heq
    have hkey : t.gkey (j - t.sizearray) = some key := by rw [Table.gkey, hnode]
    refine ⟨.node (j - t.sizearray), .node (h.outside hkey) hkey, Nat.add_sub_cancel' hge, ?_⟩
    rw [Table.value, Table.gval, hnode]

/-! ## One step -/

/-- The next step of a traversal looks at the slots from this one on. -/
inductive Position (t : Table V) : Option LuaKey → ℕ → Prop
  | start : Position t none 0
  | after {key slot} (h : At t key slot) : Position t (some key) (t.index slot + 1)

theorem WellFormed.findindex_eq (h : WellFormed identity t) {key : Option LuaKey} {i : ℕ}
    (hi : Position t key i) : findindex identity t key = .ok i := by
  cases hi with
  | start => rfl
  | @after key slot hslot =>
      rw [findindex]
      cases hslot with
      | array hin =>
          have hpos := hin.1
          have hindex : (arrayindex key).toNat = (arrayindex key - 1).toNat + 1 := by omega
          rw [if_pos (And.intro hin.1 hin.2), hindex]
          rfl
      | node hin hkey =>
          rw [InArray] at hin
          rw [if_neg hin, h.search_eq_some (h.mainposition_lt_length key) (h.chained.reaches hkey)
            (decide_eq_true hkey) fun j hj => h.chained.unique (of_decide_eq_true hj) hkey]
          rfl

theorem next_eq {key : Option LuaKey} {i : ℕ} (hi : findindex identity t key = .ok i) :
    next identity t key = .ok (((slots t).drop i).findSome? id) := by
  rw [next, hi, Fallible.ok_bind, slots, List.drop_append, List.findSome?_append,
    length_arraySlots]
  rfl

variable (identity) in
/-- A step comes to the first key with a value, or there is none. -/
inductive Steps (t : Table V) (key : Option LuaKey) (i : ℕ) : Prop
  | done (h : next identity t key = .ok none)
      (hrest : ∀ {k slot}, At t k slot → i ≤ t.index slot → t.value slot = none)
  | visit {e slot} (h : next identity t key = .ok (some e)) (hslot : At t e.1 slot)
      (hvalue : t.value slot = some e.2) (hle : i ≤ t.index slot)
      (hskip : ∀ {k slot'}, At t k slot' → i ≤ t.index slot' → t.index slot' < t.index slot →
        t.value slot' = none)

theorem WellFormed.steps (h : WellFormed identity t) {key : Option LuaKey} {i : ℕ}
    (hi : Position t key i) : Steps identity t key i := by
  have hnext := next_eq (h.findindex_eq hi)
  cases hfind : ((slots t).drop i).findSome? id with
  | none =>
      rw [hfind] at hnext
      refine .done hnext ?_
      intro k slot hslot hle
      by_contra hne
      obtain ⟨v, hv⟩ := Option.ne_none_iff_exists'.mp hne
      have hget := slots_of_at hslot hv
      have hmem : some (k, v) ∈ (slots t).drop i := by
        refine List.mem_of_getElem? (i := t.index slot - i) ?_
        rwa [List.getElem?_drop, Nat.add_sub_cancel' hle]
      cases List.findSome?_eq_none_iff.mp hfind _ hmem
  | some e =>
      rw [hfind] at hnext
      obtain ⟨l₁, a, l₂, heq, ha, hnone⟩ := List.findSome?_eq_some_iff.mp hfind
      obtain rfl : a = some e := ha
      have hget : (slots t)[i + l₁.length]? = some (some e) := by
        rw [← List.getElem?_drop, heq, List.getElem?_append_right (le_refl _), Nat.sub_self]
        rfl
      obtain ⟨slot, hslot, hindex, hvalue⟩ := h.at_of_slots hget
      refine .visit hnext hslot hvalue (by omega) ?_
      intro k slot' hslot' hle hlt
      by_contra hne
      obtain ⟨v, hv⟩ := Option.ne_none_iff_exists'.mp hne
      have hget' := slots_of_at hslot' hv
      have hlt' : t.index slot' - i < l₁.length := by omega
      have happend : ((slots t).drop i)[t.index slot' - i]? = l₁[t.index slot' - i]? := by
        rw [heq, List.getElem?_append_left hlt']
      have hmem : some (k, v) ∈ l₁ := by
        refine List.mem_of_getElem? (i := t.index slot' - i) ?_
        rw [← happend, List.getElem?_drop, Nat.add_sub_cancel' hle, hget']
      cases hnone _ hmem

/-! ## Whole traversals -/

variable (identity) in
/-- A traversal that has come so far: the table, the key that the next step starts from, and
the entries visited. Between two steps keys of the table may be assigned to. -/
inductive Traversal (t₀ : Table V) : Table V → Option LuaKey → List (LuaKey × V) → Prop
  | start : Traversal t₀ t₀ none []
  | step {t key seen e} (h : Traversal t₀ t key seen) (hnext : next identity t key = .ok (some e)) :
      Traversal t₀ t (some e.1) (seen ++ [e])
  | assign {t key seen k old v t'} (h : Traversal t₀ t key seen)
      (hold : rawget identity t k = .ok (some old)) (hset : rawset identity t k v = .ok t') :
      Traversal t₀ t' key seen

theorem At.of_write {key : LuaKey} {slot slot' : Slot} {v : Option V}
    (h : At (t.write slot' v) key slot) : At t key slot := by
  have hsize := t.sizearray_write slot' v
  cases h with
  | array harray => exact .array ((inArray_congr hsize key).mp harray)
  | node harray hkey =>
      rw [Table.gkey_write] at hkey
      exact .node (fun h => harray ((inArray_congr hsize key).mpr h)) hkey

theorem index_write (t : Table V) (slot' : Slot) (v : Option V) (slot : Slot) :
    (t.write slot' v).index slot = t.index slot := by
  cases slot with
  | array i => rfl
  | node i => rw [Table.index, Table.sizearray_write, Table.index]

/-- Assigning to a key with a value is a write to its place. -/
theorem WellFormed.rawset_live (h : WellFormed identity t) {key : LuaKey} {old : V}
    (hold : rawget identity t key = .ok (some old)) (v : Option V) :
    ∃ slot, At t key slot ∧ rawset identity t key v = .ok (t.write slot v) := by
  rw [h.rawget_eq] at hold
  rcases at_or_absent t key with ⟨slot, hslot⟩ | habsent
  · refine ⟨slot, hslot, ?_⟩
    rw [rawset, set, setBy_of_at h _ hslot]
    rfl
  · cases (content_of_absent habsent).symm.trans (Except.ok.inj hold)

variable (identity) in
/-- What holds all the way. -/
structure Progress (t₀ t : Table V) (key : Option LuaKey) (seen : List (LuaKey × V)) (i : ℕ) :
    Prop where
  wellFormed : WellFormed identity t
  at_iff : ∀ {k slot}, At t k slot ↔ At t₀ k slot
  index_eq : ∀ slot, t.index slot = t₀.index slot
  live : ∀ {k}, t.content k ≠ none → t₀.content k ≠ none
  position : Position t key i
  seen_before : ∀ e ∈ seen, t₀.content e.1 ≠ none ∧ ∃ slot, At t e.1 slot ∧ t.index slot < i
  nodup : (seen.map (·.1)).Nodup
  complete : ∀ {k slot}, At t k slot → t.index slot < i → t.content k ≠ none → k ∈ seen.map (·.1)

theorem At.slot_eq (h : WellFormed identity t) {key : LuaKey} {slot slot' : Slot}
    (hslot : At t key slot) (hslot' : At t key slot') : slot = slot' :=
  Option.some.inj (Except.ok.inj ((h.get_of_at hslot).symm.trans (h.get_of_at hslot')))

section

variable {t₀ : Table V} {key : Option LuaKey} {seen : List (LuaKey × V)} {i : ℕ}
  (hprogress : Progress identity t₀ t key seen i)

include hprogress

theorem Progress.step {e : LuaKey × V} (hnext : next identity t key = .ok (some e)) :
    ∃ j, Progress identity t₀ t (some e.1) (seen ++ [e]) j := by
  have h := hprogress.wellFormed
  cases h.steps hprogress.position with
  | done hdone => cases hdone.symm.trans hnext
  | @visit e' slot hvisit hslot hvalue hle hskip =>
      obtain rfl : e' = e := Option.some.inj (Except.ok.inj (hvisit.symm.trans hnext))
      have hcontent : t.content e'.1 ≠ none := by
        rw [h.content_of_at hslot, hvalue]
        exact Option.some_ne_none _
      refine ⟨t.index slot + 1, h, hprogress.at_iff, hprogress.index_eq, hprogress.live,
        .after hslot, ?_, ?_, ?_⟩
      · intro e he
        rcases List.mem_append.mp he with hseen | hnew
        · obtain ⟨hlive, slot', hslot', hlt⟩ := hprogress.seen_before e hseen
          exact ⟨hlive, slot', hslot', by omega⟩
        · obtain rfl := List.mem_singleton.mp hnew
          exact ⟨hprogress.live hcontent, slot, hslot, Nat.lt_succ_self _⟩
      · rw [List.map_append, List.nodup_append]
        refine ⟨hprogress.nodup, List.nodup_singleton _, ?_⟩
        rintro k hk k' hk' rfl
        obtain rfl := List.mem_singleton.mp hk'
        obtain ⟨e, he, heq⟩ := List.mem_map.mp hk
        obtain ⟨-, slot', hslot', hlt⟩ := hprogress.seen_before e he
        have hsame := (heq ▸ hslot').slot_eq h hslot
        rw [hsame] at hlt
        omega
      · intro k slot' hslot' hlt hlive
        rw [List.map_append, List.mem_append]
        rcases Nat.lt_or_ge (t.index slot') i with hbefore | hge
        · exact .inl (hprogress.complete hslot' hbefore hlive)
        · rcases Nat.lt_succ_iff_lt_or_eq.mp hlt with hbetween | heq
          · rw [h.content_of_at hslot', hskip hslot' hge hbetween] at hlive
            exact absurd rfl hlive
          · exact .inr (List.mem_singleton.mpr (hslot'.key_eq hslot heq))

theorem Progress.assign {k : LuaKey} {old : V} {v : Option V} {t' : Table V}
    (hold : rawget identity t k = .ok (some old)) (hset : rawset identity t k v = .ok t') :
    Progress identity t₀ t' key seen i := by
  have h := hprogress.wellFormed
  obtain ⟨slot, hslot, heq⟩ := h.rawset_live hold v
  obtain rfl : t.write slot v = t' := Except.ok.inj (heq.symm.trans hset)
  have hlive : ∀ {k'}, (t.write slot v).content k' ≠ none → t.content k' ≠ none := by
    intro k' hk'
    rw [h.content_write hslot] at hk'
    by_cases hk : k' = k
    · rw [hk, Except.ok.inj ((h.rawget_eq k).symm.trans hold)]
      exact Option.some_ne_none old
    · rwa [Function.update_of_ne hk] at hk'
  refine ⟨h.write hslot v, ?_, ?_, fun hk => hprogress.live (hlive hk), ?_, ?_, hprogress.nodup, ?_⟩
  · exact ⟨fun h => hprogress.at_iff.mp h.of_write, fun h => (hprogress.at_iff.mpr h).write slot v⟩
  · intro slot'
    rw [index_write, hprogress.index_eq]
  · cases hprogress.position with
    | start => exact .start
    | after hafter =>
        rw [← index_write t slot v]
        exact .after (hafter.write slot v)
  · intro e he
    obtain ⟨hseen, slot', hslot', hlt⟩ := hprogress.seen_before e he
    exact ⟨hseen, slot', hslot'.write slot v, by rwa [index_write]⟩
  · intro k' slot' hslot' hlt hk'
    rw [index_write] at hlt
    exact hprogress.complete hslot'.of_write hlt (hlive hk')

end

theorem Traversal.progress {t₀ : Table V} (h₀ : WellFormed identity t₀) {key : Option LuaKey}
    {seen : List (LuaKey × V)} (h : Traversal identity t₀ t key seen) :
    ∃ i, Progress identity t₀ t key seen i := by
  induction h with
  | start =>
      exact ⟨0, h₀, Iff.rfl, fun _ => rfl, id, .start, (fun _ he => nomatch he), List.nodup_nil,
        fun _ hlt => absurd hlt (Nat.not_lt_zero _)⟩
  | step h hnext ih =>
      obtain ⟨i, hi⟩ := ih
      exact hi.step hnext
  | assign h hold hset ih =>
      obtain ⟨i, hi⟩ := ih
      exact ⟨i, hi.assign hold hset⟩

/-- A traversal never fails, comes to no key twice and to none that had no value when it began,
and when it ends it has come to every key that still has a value. -/
theorem traversal_visits {m : LuaKey → Option V} {t₀ : Table V} (h₀ : Runs identity t₀ m)
    {key : Option LuaKey} {seen : List (LuaKey × V)} (h : Traversal identity t₀ t key seen) :
    (∃ r, next identity t key = .ok r ∧
      ∀ e, r = some e → rawget identity t e.1 = .ok (some e.2) ∧ e.1 ∉ seen.map (·.1)) ∧
    (seen.map (·.1)).Nodup ∧ (∀ k ∈ seen.map (·.1), m k ≠ none) ∧
    (next identity t key = .ok none →
      ∀ k v, rawget identity t k = .ok (some v) → k ∈ seen.map (·.1)) := by
  obtain ⟨hwf₀, rfl⟩ := h₀.spec
  obtain ⟨i, hprogress⟩ := h.progress hwf₀
  have hwf := hprogress.wellFormed
  refine ⟨?_, hprogress.nodup, ?_, ?_⟩
  · cases hwf.steps hprogress.position with
    | done hdone => exact ⟨none, hdone, fun e he => nomatch he⟩
    | @visit e slot hvisit hslot hvalue hle hskip =>
        refine ⟨some e, hvisit, ?_⟩
        rintro e' heq
        obtain rfl := Option.some.inj heq
        obtain ⟨j, hstep⟩ := hprogress.step hvisit
        have hnodup := hstep.nodup
        rw [List.map_append, List.nodup_append] at hnodup
        refine ⟨by rw [hwf.rawget_eq, hwf.content_of_at hslot, hvalue], ?_⟩
        exact fun hmem => hnodup.2.2 _ hmem _ (List.mem_singleton.mpr rfl) rfl
  · intro k hk
    obtain ⟨e, he, rfl⟩ := List.mem_map.mp hk
    exact (hprogress.seen_before e he).1
  · intro hend k v hk
    have hcontent : t.content k = some v := Except.ok.inj ((hwf.rawget_eq k).symm.trans hk)
    rcases at_or_absent t k with ⟨slot, hslot⟩ | habsent
    · cases hwf.steps hprogress.position with
      | done hdone hrest =>
          rcases Nat.lt_or_ge (t.index slot) i with hlt | hge
          · exact hprogress.complete hslot hlt (hcontent ▸ Option.some_ne_none v)
          · cases (hrest hslot hge).symm.trans ((hwf.content_of_at hslot).symm.trans hcontent)
      | visit hvisit => cases hvisit.symm.trans hend
    · cases (content_of_absent habsent).symm.trans hcontent

/-- Two strings, of which the first that is visited is cleared. -/
theorem traversal_visits_clearing : ∃ (t : Table ℕ) (seen : List (LuaKey × ℕ)),
    (seen.map (·.1)).Nodup ∧
      ∀ k v, rawget (fun _ => .boolean true) t k = .ok (some v) → k ∈ seen.map (·.1) :=
  let run : ∃ (t₀ t : Table ℕ) (key : Option LuaKey) (seen : List (LuaKey × ℕ)),
      Runs (fun _ => .boolean true) t₀
        (Function.update (Function.update (fun _ => none) (.string [120]) (some 5))
          (.string [121]) (some 7)) ∧
      Traversal (fun _ => .boolean true) t₀ t key seen ∧
      next (fun _ => .boolean true) t key = .ok none :=
    ⟨_, _, _, _,
      .rawset (.rawset (.new (by decide) (by decide) (rfl : new 0 0 = .ok _)) rfl) rfl,
      .step (.assign (.step .start rfl (e := (.string [121], 7))) (k := .string [121]) (v := none)
        rfl rfl) rfl (e := (.string [120], 5)), rfl⟩
  run.elim fun _ ⟨t, _, seen, h₀, h, hend⟩ =>
    ⟨t, seen, (traversal_visits h₀ h).2.1, (traversal_visits h₀ h).2.2.2 hend⟩

end LuaH

end Luapb

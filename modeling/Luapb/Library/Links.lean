import Mathlib.Data.Finset.Card
import Mathlib.Data.List.Nodup
import Mathlib.Logic.Function.Basic

/-! # Linked nodes

Nodes of which each leads to at most one other, as a partial function says: the way from a
node to the end, a search along it, and how putting a node into a way changes all ways. -/

namespace Links

variable {α : Type*}

/-- The nodes from `a` to the end. -/
inductive Path (next : α → Option α) : α → List α → Prop
  | last {a} (h : next a = none) : Path next a [a]
  | link {a b l} (h : next a = some b) (hb : Path next b l) : Path next a (a :: l)

/-- The way from `a` passes `b`. -/
def Reaches (next : α → Option α) (a b : α) : Prop := ∃ l, Path next a l ∧ b ∈ l

/-- No two nodes lead to the same one, and every way ends. -/
structure Linear (next : α → Option α) : Prop where
  injective : ∀ {a b c}, next a = some c → next b = some c → a = b
  path : ∀ a, ∃ l, Path next a l

/-- The first node on the way from `a` that `p` holds of; `none` stands for a way that does
not end within the fuel. -/
def search (next : α → Option α) (p : α → Bool) : ℕ → α → Option (Option α)
  | 0, _ => none
  | fuel + 1, a =>
      if p a then some (some a)
      else
        match next a with
        | none => some none
        | some b => search next p fuel b

variable {next : α → Option α} {a b c : α} {l : List α}

/-! ## Ways -/

theorem Path.head_mem (h : Path next a l) : a ∈ l := by
  cases h <;> exact List.mem_cons_self

theorem Path.unique {l' : List α} (h : Path next a l) (h' : Path next a l') : l = l' := by
  induction h generalizing l' with
  | last hlast =>
      cases h' with
      | last => rfl
      | link hlink => cases hlast.symm.trans hlink
  | link hlink _ ih =>
      cases h' with
      | last hlast => cases hlast.symm.trans hlink
      | link hlink' hb' =>
          obtain rfl := Option.some.inj (hlink.symm.trans hlink')
          rw [ih hb']

/-- From a node on the way, the rest of the way is its own. -/
theorem Path.split (h : Path next a l) (hb : b ∈ l) : ∃ front rest, l = front ++ rest ∧
    Path next b rest := by
  induction h with
  | last hlast =>
      obtain rfl := List.mem_singleton.mp hb
      exact ⟨[], [b], rfl, .last hlast⟩
  | @link x y l hlink hrest ih =>
      rcases List.mem_cons.mp hb with rfl | hb
      · exact ⟨[], b :: l, rfl, .link hlink hrest⟩
      · obtain ⟨front, rest, rfl, hpath⟩ := ih hb
        exact ⟨x :: front, rest, rfl, hpath⟩

/-- A way that ends does not pass a node twice. -/
theorem Path.nodup (h : Path next a l) : l.Nodup := by
  induction h with
  | last => exact List.nodup_singleton _
  | @link x y l hlink hrest ih =>
      refine List.nodup_cons.mpr ⟨?_, ih⟩
      intro hmem
      obtain ⟨front, rest, hsplit, hpath⟩ := hrest.split hmem
      have heq := hpath.unique (.link hlink hrest)
      have hlen := congrArg List.length hsplit
      rw [heq, List.length_append, List.length_cons] at hlen
      omega

/-- What comes after the first node is led to from the way. -/
theorem Path.mem_cases (h : Path next a l) (hb : b ∈ l) :
    b = a ∨ ∃ c ∈ l, next c = some b := by
  induction h with
  | last => exact .inl (List.mem_singleton.mp hb)
  | @link x y l hlink hrest ih =>
      rcases List.mem_cons.mp hb with rfl | hb
      · exact .inl rfl
      · right
        rcases ih hb with rfl | ⟨c, hc, hcb⟩
        · exact ⟨x, List.mem_cons_self, hlink⟩
        · exact ⟨c, List.mem_cons_of_mem _ hc, hcb⟩

/-- The way stays within bounds that no link leads out of. -/
theorem Path.length_le {next : ℕ → Option ℕ} {a size : ℕ} {l : List ℕ} (h : Path next a l)
    (ha : a < size) (hnext : ∀ {i j}, next i = some j → j < size) : l.length ≤ size := by
  have hsubset : l.toFinset ⊆ Finset.range size := by
    intro i hi
    rcases h.mem_cases (List.mem_toFinset.mp hi) with rfl | ⟨j, -, hj⟩
    · exact Finset.mem_range.mpr ha
    · exact Finset.mem_range.mpr (hnext hj)
  have hcard := Finset.card_le_card hsubset
  rwa [List.toFinset_card_of_nodup h.nodup, Finset.card_range] at hcard

theorem Reaches.refl (h : Linear next) (a : α) : Reaches next a a := by
  obtain ⟨l, hl⟩ := h.path a
  exact ⟨l, hl, hl.head_mem⟩

/-! ## Searching -/

theorem Path.search_eq (h : Path next a l) (p : α → Bool) {fuel : ℕ} (hfuel : l.length ≤ fuel) :
    search next p fuel a = some (l.find? p) := by
  induction h generalizing fuel with
  | @last x hlast =>
      obtain ⟨fuel, rfl⟩ : ∃ n, fuel = n + 1 := ⟨fuel - 1, by simp at hfuel; omega⟩
      rw [search, hlast]
      cases hx : p x <;> simp [hx]
  | @link x y l hlink _ ih =>
      rw [List.length_cons] at hfuel
      obtain ⟨fuel, rfl⟩ : ∃ n, fuel = n + 1 := ⟨fuel - 1, by omega⟩
      rw [search, hlink]
      cases hx : p x with
      | true => simp [hx]
      | false => simpa [hx] using ih (by omega)

/-- The only node that `p` holds of is found if the way passes it. -/
theorem Path.search_eq_some (h : Path next a l) {p : α → Bool} (hb : b ∈ l) (hp : p b = true)
    (hunique : ∀ c, p c = true → c = b) {fuel : ℕ} (hfuel : l.length ≤ fuel) :
    search next p fuel a = some (some b) := by
  rw [h.search_eq p hfuel]
  have hsome : (l.find? p).isSome := List.find?_isSome.mpr ⟨b, hb, hp⟩
  obtain ⟨c, hc⟩ := Option.isSome_iff_exists.mp hsome
  rw [hc, hunique c (List.find?_some hc)]

theorem Path.search_eq_none (h : Path next a l) {p : α → Bool} (hp : ∀ c, p c = false) {fuel : ℕ}
    (hfuel : l.length ≤ fuel) : search next p fuel a = some none := by
  rw [h.search_eq p hfuel, List.find?_eq_none.mpr fun c _ => by simp [hp c]]

/-! ## A node more -/

/-- A node that nothing leads to or from. -/
structure Fresh (next : α → Option α) (n : α) : Prop where
  next_eq : next n = none
  ne_of_next : ∀ {a}, next a ≠ some n

theorem Path.fresh_notMem {n : α} (h : Path next a l) (hn : Fresh next n) (hne : a ≠ n) :
    n ∉ l := by
  intro hmem
  rcases h.mem_cases hmem with rfl | ⟨c, -, hc⟩
  · exact hne rfl
  · exact hn.ne_of_next hc

/-- Links of other nodes do not matter. -/
theorem Path.congr {next' : α → Option α} (h : Path next a l) (hnext : ∀ x ∈ l, next' x = next x) :
    Path next' a l := by
  induction h with
  | last hlast => exact .last ((hnext _ List.mem_cons_self).trans hlast)
  | link hlink _ ih =>
      exact .link ((hnext _ List.mem_cons_self).trans hlink)
        (ih fun x hx => hnext x (List.mem_cons_of_mem _ hx))

/-- `n` is put behind `m`. -/
def insertAfter [DecidableEq α] (next : α → Option α) (m n : α) : α → Option α :=
  Function.update (Function.update next n (next m)) m (some n)

section

variable [DecidableEq α] {m n : α} (hn : Fresh next n) (hmn : m ≠ n)

include hn hmn

theorem insertAfter_path (h : Path next a l) (hne : a ≠ n) : Path (insertAfter next m n) a
    (l.flatMap fun x => if x = m then [m, n] else [x]) := by
  have hself : insertAfter next m n m = some n := Function.update_self _ _ _
  have hnew : insertAfter next m n n = next m := by simp [insertAfter, hmn.symm]
  have hother : ∀ {x}, x ≠ m → x ≠ n → insertAfter next m n x = next x := by
    intro x hxm hxn
    simp [insertAfter, hxm, hxn]
  induction h with
  | @last x hlast =>
      by_cases hxm : x = m
      · subst hxm
        simpa using Path.link hself (.last (hnew.trans hlast))
      · simpa [hxm] using Path.last ((hother hxm hne).trans hlast)
  | @link x y l hlink hrest ih =>
      have hy : y ≠ n := fun heq => hn.ne_of_next (heq ▸ hlink)
      by_cases hxm : x = m
      · subst hxm
        simpa using Path.link hself (.link (hnew.trans hlink) (ih hy))
      · simpa [hxm] using Path.link ((hother hxm hne).trans hlink) (ih hy)

theorem insertAfter_linear (h : Linear next) : Linear (insertAfter next m n) := by
  constructor
  · intro x y z hx hy
    simp only [insertAfter, Function.update_apply] at hx hy
    have hinj := @h.injective
    have hfresh := @hn.ne_of_next
    grind
  · intro x
    by_cases hx : x = n
    · subst hx
      have hnew : insertAfter next m x x = next m := by simp [insertAfter, hmn.symm]
      cases hm : next m with
      | none => exact ⟨_, .last (hnew.trans hm)⟩
      | some y =>
          have hy : y ≠ x := fun heq => hn.ne_of_next (heq ▸ hm)
          obtain ⟨l, hl⟩ := h.path y
          exact ⟨_, .link (hnew.trans hm) (insertAfter_path hn hmn hl hy)⟩
    · obtain ⟨l, hl⟩ := h.path x
      exact ⟨_, insertAfter_path hn hmn hl hx⟩

theorem insertAfter_reaches (h : Reaches next a b) (hne : a ≠ n) :
    Reaches (insertAfter next m n) a b := by
  obtain ⟨l, hl, hb⟩ := h
  refine ⟨_, insertAfter_path hn hmn hl hne, List.mem_flatMap.mpr ⟨b, hb, ?_⟩⟩
  split
  · rename_i heq
    exact heq ▸ List.mem_cons_self
  · exact List.mem_singleton_self b

/-- The way from `m` passes the new node. -/
theorem insertAfter_reaches_new (h : Linear next) : Reaches (insertAfter next m n) m n := by
  obtain ⟨l, hl⟩ := h.path m
  exact ⟨_, insertAfter_path hn hmn hl hmn, List.mem_flatMap.mpr ⟨m, hl.head_mem, by simp⟩⟩

end

/-- `n` takes the place of `m` behind `p`, and `m` is left alone. -/
def replace [DecidableEq α] (next : α → Option α) (p m n : α) : α → Option α :=
  Function.update (Function.update (Function.update next p (some n)) n (next m)) m none

section

variable [DecidableEq α] {p m n : α} (hlinear : Linear next) (hn : Fresh next n) (hmn : m ≠ n)
  (hp : next p = some m)

include hlinear hn hmn hp

theorem replace_path (h : Path next a l) (ham : a ≠ m) (han : a ≠ n) :
    Path (replace next p m n) a (l.map fun x => if x = m then n else x) := by
  obtain ⟨rest, hrest⟩ := hlinear.path m
  have hloop := (Path.link hp hrest).nodup
  have hpm : p ≠ m := fun heq => (List.nodup_cons.mp hloop).1 (heq ▸ hrest.head_mem)
  have hpn : p ≠ n := by
    rintro rfl
    cases hn.next_eq.symm.trans hp
  have hprev : replace next p m n p = some n := by simp [replace, hpm, hpn]
  have hnew : replace next p m n n = next m := by simp [replace, hmn.symm]
  have hother : ∀ {x}, x ≠ p → x ≠ n → x ≠ m → replace next p m n x = next x := by
    intro x hxp hxn hxm
    simp [replace, hxp, hxn, hxm]
  induction h with
  | @last x hlast =>
      have hxp : x ≠ p := by
        rintro rfl
        cases hlast.symm.trans hp
      simpa [ham] using Path.last ((hother hxp han ham).trans hlast)
  | @link x y l hlink hl ih =>
      have hyn : y ≠ n := fun heq => hn.ne_of_next (heq ▸ hlink)
      rw [List.map_cons, if_neg ham]
      by_cases hym : y = m
      · subst hym
        obtain rfl := hlinear.injective hlink hp
        obtain rfl := hl.unique hrest
        refine .link hprev ?_
        cases hl with
        | last hlast => simpa using Path.last (hnew.trans hlast)
        | @link _ z l hlink' hl' =>
            -- behind the node that is replaced nothing changes
            have hzn : z ≠ n := fun heq => hn.ne_of_next (heq ▸ hlink')
            simp only [List.nodup_cons, List.mem_cons, not_or] at hloop
            have hrest' : Path (replace next x y n) z l := by
              refine hl'.congr fun w hw => hother ?_ ?_ ?_
              · rintro rfl
                exact hloop.1.2 hw
              · rintro rfl
                exact hl'.fresh_notMem hn hzn hw
              · rintro rfl
                exact hloop.2.1 hw
            have hmap : l.map (fun x => if x = y then n else x) = l := by
              refine (List.map_congr_left fun w hw => if_neg ?_).trans (List.map_id l)
              rintro rfl
              exact hloop.2.1 hw
            simpa [hmap] using Path.link (hnew.trans hlink') hrest'
      · have hxp : x ≠ p := by
          rintro rfl
          exact hym (Option.some.inj (hlink.symm.trans hp))
        exact .link ((hother hxp han ham).trans hlink) (ih hym hyn)

theorem replace_linear : Linear (replace next p m n) := by
  constructor
  · intro x y z hx hy
    simp only [replace, Function.update_apply] at hx hy
    have hinj := @hlinear.injective
    have hfresh := @hn.ne_of_next
    grind
  · intro x
    by_cases hxm : x = m
    · exact ⟨[x], .last (by simp [replace, hxm])⟩
    by_cases hxn : x = n
    · subst hxn
      have hnew : replace next p m x x = next m := by simp [replace, hmn.symm]
      cases hm : next m with
      | none => exact ⟨_, .last (hnew.trans hm)⟩
      | some y =>
          have hyn : y ≠ x := fun heq => hn.ne_of_next (heq ▸ hm)
          obtain ⟨l, hl⟩ := hlinear.path y
          have hym : y ≠ m := by
            rintro rfl
            exact (List.nodup_cons.mp (Path.link hm hl).nodup).1 hl.head_mem
          exact ⟨_, .link (hnew.trans hm) (replace_path hlinear hn hmn hp hl hym hyn)⟩
    · obtain ⟨l, hl⟩ := hlinear.path x
      exact ⟨_, replace_path hlinear hn hmn hp hl hxm hxn⟩

theorem replace_reaches (h : Reaches next a b) (ham : a ≠ m) (han : a ≠ n) (hbm : b ≠ m) :
    Reaches (replace next p m n) a b := by
  obtain ⟨l, hl, hb⟩ := h
  refine ⟨_, replace_path hlinear hn hmn hp hl ham han, List.mem_map.mpr ⟨b, hb, if_neg hbm⟩⟩

/-- What passes `m` passes the node in its place. -/
theorem replace_reaches_new (h : Reaches next a m) (ham : a ≠ m) (han : a ≠ n) :
    Reaches (replace next p m n) a n := by
  obtain ⟨l, hl, hm⟩ := h
  exact ⟨_, replace_path hlinear hn hmn hp hl ham han, List.mem_map.mpr ⟨m, hm, if_pos rfl⟩⟩

end

end Links

import Luapb.Library.Links

/-! # Chained scatter tables

Keys stand in the nodes of a table, each in its home node if it can. Another key in a home
node is moved away if it is not at home there; otherwise the new key goes to a free node, which
the home node is linked to. So a key is always on the way from its home. -/

namespace Scatter

open Links

variable {K α : Type*} {home : K → α} {key : α → Option K} {next : α → Option α}

variable (home key next) in
/-- The keys can be found. If one is not at home, the key there is. -/
structure Chained : Prop where
  linear : Linear next
  used_of_next : ∀ {i j}, next i = some j → key i ≠ none ∧ key j ≠ none
  reaches : ∀ {i k}, key i = some k → Reaches next (home k) i
  main : ∀ {i k}, key i = some k → ∃ k', key (home k) = some k' ∧ home k' = home k
  unique : ∀ {i j k}, key i = some k → key j = some k → i = j

/-- A table without keys. -/
theorem Chained.empty (hkey : ∀ i, key i = none) (hnext : ∀ i, next i = none) :
    Chained home key next where
  linear := ⟨fun h => (nomatch (hnext _).symm.trans h), fun i => ⟨[i], .last (hnext i)⟩⟩
  used_of_next h := nomatch (hnext _).symm.trans h
  reaches h := nomatch (hkey _).symm.trans h
  main h := nomatch (hkey _).symm.trans h
  unique h := nomatch (hkey _).symm.trans h

section

variable (h : Chained home key next)

include h

/-- A node without a key is not linked. -/
theorem Chained.fresh {n : α} (hn : key n = none) : Fresh next n := by
  constructor
  · by_contra hne
    obtain ⟨j, hj⟩ := Option.ne_none_iff_exists'.mp hne
    exact (h.used_of_next hj).1 hn
  · intro i hi
    exact (h.used_of_next hi).2 hn

/-- A key that is not at home has a node before it on the way from there. -/
theorem Chained.exists_previous {m : α} {k : K} (hm : key m = some k) (hne : home k ≠ m) :
    ∃ p, next p = some m ∧ Reaches next (home k) p := by
  obtain ⟨l, hl, hmem⟩ := h.reaches hm
  rcases hl.mem_cases hmem with heq | ⟨p, hpmem, hp⟩
  · exact absurd heq.symm hne
  · exact ⟨p, hp, l, hl, hpmem⟩

variable [DecidableEq α] {k : K} (hk : ∀ i, key i ≠ some k)

include hk

/-- A new key takes its home node from a key that is not needed any more. -/
theorem Chained.put : Chained home (Function.update key (home k) (some k)) next where
  linear := h.linear
  used_of_next {i j} hij := by
    have hused := h.used_of_next hij
    simp only [Function.update_apply]
    exact ⟨by split <;> simp [hused.1], by split <;> simp [hused.2]⟩
  reaches {i k'} hi := by
    by_cases him : i = home k
    · subst him
      obtain rfl : k = k' := by simpa using hi
      exact .refl h.linear _
    · rw [Function.update_of_ne him] at hi
      exact h.reaches hi
  main {i k'} hi := by
    by_cases hhome : home k' = home k
    · exact ⟨k, by rw [hhome, Function.update_self], hhome.symm⟩
    · by_cases him : i = home k
      · subst him
        obtain rfl : k = k' := by simpa using hi
        exact absurd rfl hhome
      · rw [Function.update_of_ne him] at hi
        rw [Function.update_of_ne hhome]
        exact h.main hi
  unique {i j k'} hi hj := by
    simp only [Function.update_apply] at hi hj
    have hunique := @h.unique
    grind

variable {n : α} (hn : key n = none) {k₀ : K} (hmain : key (home k) = some k₀)

include hn hmain

/-- A new key goes to a free node behind its home, where the key at home is. -/
theorem Chained.insertAfter (hhome : home k₀ = home k) :
    Chained home (Function.update key n (some k)) (Links.insertAfter next (home k) n) := by
  have hfresh := h.fresh hn
  have hne : home k ≠ n := by
    intro heq
    rw [heq, hn] at hmain
    cases hmain
  refine ⟨insertAfter_linear hfresh hne h.linear, ?_, ?_, ?_, ?_⟩
  · intro i j hij
    simp only [Links.insertAfter, Function.update_apply] at hij ⊢
    have hused := @h.used_of_next
    grind
  · intro i k' hi
    by_cases hin : i = n
    · subst hin
      obtain rfl : k = k' := by simpa using hi
      exact insertAfter_reaches_new hfresh hne h.linear
    · rw [Function.update_of_ne hin] at hi
      refine insertAfter_reaches hfresh hne (h.reaches hi) ?_
      rintro heq
      obtain ⟨k₁, hk₁, -⟩ := h.main hi
      rw [heq, hn] at hk₁
      cases hk₁
  · intro i k' hi
    have hhomeNe : home k' ≠ n := by
      intro heq
      by_cases hin : i = n
      · subst hin
        obtain rfl : k = k' := by simpa using hi
        exact hne heq
      · rw [Function.update_of_ne hin] at hi
        obtain ⟨k₁, hk₁, -⟩ := h.main hi
        rw [heq, hn] at hk₁
        cases hk₁
    rw [Function.update_of_ne hhomeNe]
    by_cases hin : i = n
    · subst hin
      obtain rfl : k = k' := by simpa using hi
      exact ⟨k₀, hmain, hhome⟩
    · rw [Function.update_of_ne hin] at hi
      exact h.main hi
  · intro i j k' hi hj
    simp only [Function.update_apply] at hi hj
    have hunique := @h.unique
    grind

/-- A new key takes its home node from a key that is not at home there, which goes to a free
node behind the node before. -/
theorem Chained.replace {p : α} (hhome : home k₀ ≠ home k) (hp : next p = some (home k)) :
    Chained home (Function.update (Function.update key n (some k₀)) (home k) (some k))
      (Links.replace next p (home k) n) := by
  have hfresh := h.fresh hn
  have hne : home k ≠ n := by
    intro heq
    rw [heq, hn] at hmain
    cases hmain
  -- no key is at home in either node
  have hhomes : ∀ {i k'}, key i = some k' → home k' ≠ home k ∧ home k' ≠ n := by
    intro i k' hi
    obtain ⟨k₁, hk₁, hk₁home⟩ := h.main hi
    constructor
    · intro heq
      rw [heq, hmain] at hk₁
      cases hk₁
      exact hhome (hk₁home.trans heq)
    · intro heq
      rw [heq, hn] at hk₁
      cases hk₁
  have hkeys : ∀ {i k'}, Function.update (Function.update key n (some k₀)) (home k) (some k) i =
      some k' → (i = home k ∧ k' = k) ∨ (i = n ∧ k' = k₀) ∨
        (i ≠ home k ∧ i ≠ n ∧ key i = some k') := by
    intro i k' hi
    simp only [Function.update_apply] at hi
    grind
  refine ⟨replace_linear h.linear hfresh hne hp, ?_, ?_, ?_, ?_⟩
  · intro i j hij
    simp only [Links.replace, Function.update_apply] at hij ⊢
    have hused := @h.used_of_next
    grind
  · intro i k' hi
    rcases hkeys hi with ⟨rfl, rfl⟩ | ⟨rfl, rfl⟩ | ⟨him, hin, hi⟩
    · exact .refl (replace_linear h.linear hfresh hne hp) _
    · exact replace_reaches_new h.linear hfresh hne hp (h.reaches hmain) hhome (hhomes hmain).2
    · exact replace_reaches h.linear hfresh hne hp (h.reaches hi) (hhomes hi).1 (hhomes hi).2 him
  · intro i k' hi
    by_cases heq : home k' = home k
    · exact ⟨k, by rw [heq, Function.update_self], heq.symm⟩
    · obtain ⟨i₀, hi₀⟩ : ∃ i₀, key i₀ = some k' := by
        rcases hkeys hi with ⟨-, rfl⟩ | ⟨-, rfl⟩ | ⟨-, -, hi⟩
        · exact absurd rfl heq
        · exact ⟨_, hmain⟩
        · exact ⟨_, hi⟩
      rw [Function.update_of_ne heq, Function.update_of_ne (hhomes hi₀).2]
      exact h.main hi₀
  · intro i j k' hi hj
    have hunique := @h.unique
    rcases hkeys hi with ⟨rfl, rfl⟩ | ⟨rfl, rfl⟩ | ⟨him, hin, hi⟩ <;>
      rcases hkeys hj with ⟨hj, hjk⟩ | ⟨hj, hjk⟩ | ⟨hjm, hjn, hj⟩ <;> grind

end

end Scatter

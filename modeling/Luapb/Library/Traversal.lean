import Luapb.Library.Fallible
import Mathlib.Logic.Relation

/-! # Traversals that stop at the first failure

A node is expanded into steps, which are taken in order: a leaf is checked, a node is
gone through in turn, and the first failure ends everything. Nodes may lead back to
themselves, so the executable traversal carries fuel. -/

namespace Traversal

universe u

variable {α β ε : Type u}

/-- What a traversal finds in a node. -/
inductive Step (α β ε : Type u)
  | fail (e : ε)
  | leaf (b : β)
  | node (a : α)

section

variable (expand : α → Except ε (List (Step α β ε))) (check : β → Except ε PUnit.{u + 1})
  (exhausted : ε)

def runStep (visit : α → Except ε PUnit.{u + 1}) : Step α β ε → Except ε PUnit.{u + 1}
  | .fail e => .error e
  | .leaf b => check b
  | .node a => visit a

def runSteps (visit : α → Except ε PUnit.{u + 1}) :
    List (Step α β ε) → Except ε PUnit.{u + 1}
  | [] => .ok ⟨⟩
  | step :: steps => runStep check visit step >>= fun _ => runSteps visit steps

def run : ℕ → α → Except ε PUnit.{u + 1}
  | 0, _ => .error exhausted
  | fuel + 1, a => expand a >>= runSteps check (run fuel)

/-- The nodes that are gone through without a failure. -/
inductive Passes : α → Prop
  | intro {a steps} (hexpand : expand a = .ok steps) (hfail : ∀ e, .fail e ∉ steps)
      (hleaf : ∀ b, .leaf b ∈ steps → check b = .ok ⟨⟩)
      (hnode : ∀ b, .node b ∈ steps → Passes b) : Passes a

/-- A step that passes. -/
inductive StepPasses : Step α β ε → Prop
  | leaf {b} (h : check b = .ok ⟨⟩) : StepPasses (.leaf b)
  | node {a} (h : Passes expand check a) : StepPasses (.node a)

/-- In a node, everything in front of a step passes. -/
inductive Meets : α → Step α β ε → Prop
  | intro {a before step after} (hexpand : expand a = .ok (before ++ step :: after))
      (hbefore : ∀ step ∈ before, StepPasses expand check step) : Meets a step

/-- The traversal of a node comes to another one inside it. -/
def Leads (a b : α) : Prop := Meets expand check a (.node b)

/-- The traversal comes to a node, through any number of others. -/
def Reaches : α → α → Prop := Relation.ReflTransGen (Leads expand check)

/-- A node at which the traversal fails, in itself or at a leaf of its own. -/
inductive FailsAt (a : α) (e : ε) : Prop
  | expand (hexpand : expand a = .error e)
  | fail (hmeets : Meets expand check a (.fail e))
  | leaf {b} (hmeets : Meets expand check a (.leaf b)) (hcheck : check b = .error e)

end

variable {expand : α → Except ε (List (Step α β ε))} {check : β → Except ε PUnit.{u + 1}}
  {exhausted : ε}

theorem passes_iff {a : α} :
    Passes expand check a ↔
      ∃ steps, expand a = .ok steps ∧ ∀ step ∈ steps, StepPasses expand check step := by
  constructor
  · intro h
    cases h with
    | @intro _ steps hexpand hfail hleaf hnode =>
        refine ⟨steps, hexpand, ?_⟩
        intro step hmem
        cases step with
        | fail e => exact absurd hmem (hfail e)
        | leaf b => exact .leaf (hleaf b hmem)
        | node b => exact .node (hnode b hmem)
  · rintro ⟨steps, hexpand, hsteps⟩
    apply Passes.intro hexpand
    · intro e he
      cases hsteps _ he
    · intro b hb
      cases hsteps _ hb with
      | leaf h => exact h
    · intro b hb
      cases hsteps _ hb with
      | node h => exact h

/-! ## Results do not depend on the fuel -/

theorem runSteps_mono {visit visit' : α → Except ε PUnit.{u + 1}}
    (h : ∀ a, visit a ≠ .error exhausted → visit' a = visit a) {steps : List (Step α β ε)}
    (hrun : runSteps check visit steps ≠ .error exhausted) :
    runSteps check visit' steps = runSteps check visit steps := by
  induction steps with
  | nil => rfl
  | cons step steps ih =>
      have hstep : runStep check visit step ≠ .error exhausted := by
        intro heq
        rw [runSteps, heq] at hrun
        exact hrun rfl
      have heq : runStep check visit' step = runStep check visit step := by
        cases step with
        | fail e => rfl
        | leaf b => rfl
        | node a => exact h a hstep
      rw [runSteps, runSteps, heq]
      rw [runSteps] at hrun
      cases hr : runStep check visit step with
      | error e => rfl
      | ok r =>
          rw [hr, Fallible.ok_bind] at hrun
          exact ih hrun

theorem run_mono {fuel fuel' : ℕ} (hle : fuel ≤ fuel') {a : α}
    (h : run expand check exhausted fuel a ≠ .error exhausted) :
    run expand check exhausted fuel' a = run expand check exhausted fuel a := by
  induction fuel generalizing fuel' a with
  | zero => exact absurd rfl h
  | succ fuel ih =>
      cases fuel' with
      | zero => omega
      | succ fuel' =>
          rw [run] at h ⊢
          rw [run]
          cases hexpand : expand a with
          | error e => rfl
          | ok steps =>
              rw [hexpand, Fallible.ok_bind] at h
              exact runSteps_mono (fun b hb => ih (by omega) hb) h

/-! ## Loops as traversals -/

theorem runSteps_append (visit : α → Except ε PUnit.{u + 1}) (before after : List (Step α β ε)) :
    runSteps check visit (before ++ after) =
      runSteps check visit before >>= fun _ => runSteps check visit after := by
  induction before with
  | nil => rfl
  | cons step before ih =>
      rw [List.cons_append, runSteps, runSteps, ih]
      cases runStep check visit step <;> rfl

theorem runSteps_congr {visit visit' : α → Except ε PUnit.{u + 1}} {steps : List (Step α β ε)}
    (h : ∀ a, .node a ∈ steps → visit a = visit' a) :
    runSteps check visit steps = runSteps check visit' steps := by
  induction steps with
  | nil => rfl
  | cons step steps ih =>
      have hstep : runStep check visit step = runStep check visit' step := by
        cases step with
        | fail e => rfl
        | leaf b => rfl
        | node a => exact h a List.mem_cons_self
      rw [runSteps, runSteps, hstep, ih fun a ha => h a (List.mem_cons_of_mem _ ha)]

/-- Steps that are related one by one: if what passes here passes there, and what fails
here with `e` fails there with `e`, then so do all of them together. -/
theorem runSteps_error_of_forall₂ {check' : β → Except ε PUnit.{u + 1}}
    {visit visit' : α → Except ε PUnit.{u + 1}} {R : Step α β ε → Step α β ε → Prop}
    {steps steps' : List (Step α β ε)} (hsteps : List.Forall₂ R steps steps') {e : ε}
    (hok : ∀ s ∈ steps, ∀ s', R s s' → runStep check visit s = .ok ⟨⟩ →
      runStep check' visit' s' = .ok ⟨⟩)
    (herror : ∀ s ∈ steps, ∀ s', R s s' → runStep check visit s = .error e →
      runStep check' visit' s' = .error e)
    (h : runSteps check visit steps = .error e) : runSteps check' visit' steps' = .error e := by
  induction hsteps with
  | nil => cases h
  | @cons s s' steps steps' hs _ ih =>
      rw [runSteps] at h ⊢
      rcases Fallible.bind_eq_error.mp h with h | ⟨_, hs', h⟩
      · rw [herror s List.mem_cons_self s' hs h]
        rfl
      · rw [hok s List.mem_cons_self s' hs hs', Fallible.ok_bind]
        exact ih (fun s hs => hok s (List.mem_cons_of_mem _ hs))
          (fun s hs => herror s (List.mem_cons_of_mem _ hs)) h

/-- A loop whose body fails as certain steps do fails as all of them, in order. -/
theorem outcome_foldlM {γ δ : Type u} {visit : α → Except ε PUnit.{u + 1}}
    {f : γ → δ → Except ε γ} {steps : δ → List (Step α β ε)}
    (h : ∀ c d, Fallible.outcome (f c d) = runSteps check visit (steps d)) (l : List δ) (c : γ) :
    Fallible.outcome (l.foldlM f c) = runSteps check visit (l.flatMap steps) := by
  induction l generalizing c with
  | nil => rfl
  | cons d l ih =>
      rw [List.foldlM_cons, List.flatMap_cons, runSteps_append, ← h c d, Fallible.outcome_bind]
      cases f c d with
      | error e => rfl
      | ok c' => exact ih c'

/-! ## Success -/

theorem runSteps_eq_ok {visit : α → Except ε PUnit.{u + 1}} {steps : List (Step α β ε)} :
    runSteps check visit steps = .ok ⟨⟩ ↔ ∀ step ∈ steps, runStep check visit step = .ok ⟨⟩ := by
  induction steps with
  | nil => simp [runSteps]
  | cons step steps ih =>
      rw [runSteps, Fallible.bind_eq_ok, List.forall_mem_cons, ih]
      constructor
      · rintro ⟨_, hstep, hsteps⟩
        exact ⟨hstep, hsteps⟩
      · rintro ⟨hstep, hsteps⟩
        exact ⟨_, hstep, hsteps⟩

theorem passes_of_run {fuel : ℕ} {a : α} (h : run expand check exhausted fuel a = .ok ⟨⟩) :
    Passes expand check a := by
  induction fuel generalizing a with
  | zero => cases h
  | succ fuel ih =>
      rw [run, Fallible.bind_eq_ok] at h
      rcases h with ⟨steps, hexpand, hsteps⟩
      rw [runSteps_eq_ok] at hsteps
      apply Passes.intro hexpand
      · intro e he
        cases hsteps _ he
      · exact fun b hb => hsteps _ hb
      · exact fun b hb => ih (hsteps _ hb)

/-- Enough fuel for each of finitely many steps is enough for all. -/
theorem exists_bound {γ : Type*} {p : γ → ℕ → Prop} (l : List γ)
    (h : ∀ x ∈ l, ∃ n, ∀ fuel, n ≤ fuel → p x fuel) :
    ∃ n, ∀ fuel, n ≤ fuel → ∀ x ∈ l, p x fuel := by
  induction l with
  | nil => exact ⟨0, by simp⟩
  | cons x l ih =>
      rcases List.forall_mem_cons.mp h with ⟨⟨n, hn⟩, hrest⟩
      rcases ih hrest with ⟨m, hm⟩
      refine ⟨max n m, fun fuel hfuel => List.forall_mem_cons.mpr ⟨?_, ?_⟩⟩
      · exact hn fuel (by omega)
      · exact hm fuel (by omega)

theorem Passes.run {a : α} (h : Passes expand check a) :
    ∃ n, ∀ fuel, n ≤ fuel → Traversal.run expand check exhausted fuel a = .ok ⟨⟩ := by
  induction h with
  | @intro a steps hexpand hfail hleaf _ ih =>
      have hsteps : ∀ step ∈ steps, ∃ n, ∀ fuel, n ≤ fuel →
          runStep check (Traversal.run expand check exhausted fuel) step = .ok ⟨⟩ := by
        intro step hmem
        cases step with
        | fail e => exact absurd hmem (hfail e)
        | leaf b => exact ⟨0, fun _ _ => hleaf b hmem⟩
        | node b => exact ih b hmem
      rcases exists_bound steps hsteps with ⟨n, hn⟩
      refine ⟨n + 1, fun fuel hfuel => ?_⟩
      cases fuel with
      | zero => omega
      | succ fuel =>
          rw [Traversal.run, hexpand, Fallible.ok_bind, runSteps_eq_ok]
          exact hn fuel (by omega)

/-! ## Failure and exhaustion -/

/-- A sequence of steps fails where the first of them does. -/
theorem runSteps_eq_error {visit : α → Except ε PUnit.{u + 1}} {steps : List (Step α β ε)}
    {e : ε} :
    runSteps check visit steps = .error e ↔
      ∃ before step after, steps = before ++ step :: after ∧
        (∀ s ∈ before, runStep check visit s = .ok ⟨⟩) ∧ runStep check visit step = .error e := by
  induction steps with
  | nil => simp [runSteps]
  | cons head steps ih =>
      rw [runSteps]
      cases hhead : runStep check visit head with
      | error e' =>
          constructor
          · intro h
            exact ⟨[], head, steps, rfl, by simp, hhead.trans h⟩
          · rintro ⟨before, step, after, hsplit, hbefore, hstep⟩
            cases before with
            | nil =>
                cases hsplit
                exact hhead.symm.trans hstep
            | cons _ before =>
                cases hsplit
                have hok := hbefore head List.mem_cons_self
                rw [hhead] at hok
                cases hok
      | ok r =>
          rw [Fallible.ok_bind, ih]
          constructor
          · rintro ⟨before, step, after, rfl, hbefore, hstep⟩
            exact ⟨head :: before, step, after, rfl,
              List.forall_mem_cons.mpr ⟨hhead, hbefore⟩, hstep⟩
          · rintro ⟨before, step, after, hsplit, hbefore, hstep⟩
            cases before with
            | nil =>
                cases hsplit
                rw [hhead] at hstep
                cases hstep
            | cons _ before =>
                cases hsplit
                exact ⟨before, step, after, rfl, (List.forall_mem_cons.mp hbefore).2, hstep⟩

/-- What ran in front of a step passes. -/
theorem stepPasses_of_run {fuel : ℕ} {step : Step α β ε}
    (h : runStep check (run expand check exhausted fuel) step = .ok ⟨⟩) :
    StepPasses expand check step := by
  cases step with
  | fail e => cases h
  | leaf b => exact .leaf h
  | node a => exact .node (passes_of_run h)

/-- What passes runs, given the fuel, or else the fuel runs out. -/
theorem StepPasses.run_or {step : Step α β ε} (h : StepPasses expand check step) (fuel : ℕ) :
    runStep check (run expand check exhausted fuel) step = .ok ⟨⟩ ∨
      runStep check (run expand check exhausted fuel) step = .error exhausted := by
  cases h with
  | leaf h => exact .inl h
  | @node a h =>
      by_cases hex : run expand check exhausted fuel a = .error exhausted
      · exact .inr hex
      · rcases h.run with ⟨n, hn⟩
        refine .inl ?_
        change run expand check exhausted fuel a = .ok ⟨⟩
        rw [← run_mono (Nat.le_max_left fuel n) hex]
        exact hn _ (Nat.le_max_right fuel n)

/-- A run that fails comes to a node that fails. -/
theorem reaches_of_run {fuel : ℕ} {a : α} {e : ε}
    (h : run expand check exhausted fuel a = .error e) (hne : e ≠ exhausted) :
    ∃ b, Reaches expand check a b ∧ FailsAt expand check b e := by
  induction fuel generalizing a with
  | zero => exact absurd (Except.error.inj h).symm hne
  | succ fuel ih =>
      rw [run] at h
      cases hexpand : expand a with
      | error e' =>
          rw [hexpand] at h
          cases h
          exact ⟨a, .refl, .expand hexpand⟩
      | ok steps =>
          rw [hexpand, Fallible.ok_bind, runSteps_eq_error] at h
          rcases h with ⟨before, step, after, rfl, hbefore, hstep⟩
          have hmeets : Meets expand check a step :=
            .intro hexpand fun s hs => stepPasses_of_run (hbefore s hs)
          cases step with
          | fail e' =>
              cases hstep
              exact ⟨a, .refl, .fail hmeets⟩
          | leaf b => exact ⟨a, .refl, .leaf hmeets hstep⟩
          | node b =>
              rcases ih hstep with ⟨c, hreach, hfails⟩
              exact ⟨c, hreach.head hmeets, hfails⟩

/-- Up to a step that is met, a run with enough fuel does not stop. -/
theorem Meets.run {a : α} {step : Step α β ε} (h : Meets expand check a step) {e : ε}
    (hstep : ∃ n, ∀ fuel, n ≤ fuel →
      runStep check (Traversal.run expand check exhausted fuel) step = .error e) :
    ∃ n, ∀ fuel, n ≤ fuel → Traversal.run expand check exhausted fuel a = .error e := by
  rcases h with ⟨hexpand, hbefore⟩
  rename_i before after
  have hruns : ∀ s ∈ before, ∃ n, ∀ fuel, n ≤ fuel →
      runStep check (Traversal.run expand check exhausted fuel) s = .ok ⟨⟩ := by
    intro s hs
    cases hbefore s hs with
    | leaf h => exact ⟨0, fun _ _ => h⟩
    | node h => exact h.run
  rcases exists_bound before hruns with ⟨n, hn⟩
  rcases hstep with ⟨m, hm⟩
  refine ⟨n + m + 1, fun fuel hfuel => ?_⟩
  cases fuel with
  | zero => omega
  | succ fuel =>
      rw [Traversal.run, hexpand, Fallible.ok_bind, runSteps_eq_error]
      exact ⟨before, step, after, rfl, hn fuel (by omega), hm fuel (by omega)⟩

theorem FailsAt.run {a : α} {e : ε} (h : FailsAt expand check a e) :
    ∃ n, ∀ fuel, n ≤ fuel → Traversal.run expand check exhausted fuel a = .error e := by
  cases h with
  | expand hexpand =>
      refine ⟨1, fun fuel hfuel => ?_⟩
      cases fuel with
      | zero => omega
      | succ fuel =>
          rw [Traversal.run, hexpand]
          rfl
  | fail hmeets => exact hmeets.run ⟨0, fun _ _ => rfl⟩
  | leaf hmeets hcheck => exact hmeets.run ⟨0, fun _ _ => hcheck⟩

theorem Reaches.run {a b : α} {e : ε} (h : Reaches expand check a b)
    (hb : FailsAt expand check b e) :
    ∃ n, ∀ fuel, n ≤ fuel → Traversal.run expand check exhausted fuel a = .error e := by
  induction h using Relation.ReflTransGen.head_induction_on with
  | refl => exact hb.run
  | head hleads _ ih => exact hleads.run ih

/-- The traversal fails exactly where it comes to a node that fails. -/
theorem run_eq_error_iff {a : α} {e : ε} (hne : e ≠ exhausted) :
    (∃ fuel, run expand check exhausted fuel a = .error e) ↔
      ∃ b, Reaches expand check a b ∧ FailsAt expand check b e := by
  constructor
  · rintro ⟨fuel, h⟩
    exact reaches_of_run h hne
  · rintro ⟨b, hreach, hfails⟩
    rcases hreach.run hfails with ⟨n, hn⟩
    exact ⟨n, hn n (Nat.le_refl n)⟩

/-! ## Termination -/

/-- The traversal ends, in success or in a failure of its own. -/
def Halts (expand : α → Except ε (List (Step α β ε))) (check : β → Except ε PUnit.{u + 1})
    (exhausted : ε) (a : α) : Prop :=
  ∃ n, ∀ fuel, n ≤ fuel → run expand check exhausted fuel a ≠ .error exhausted

theorem halts_iff_exists {a : α} :
    Halts expand check exhausted a ↔
      ∃ fuel, run expand check exhausted fuel a ≠ .error exhausted := by
  constructor
  · rintro ⟨n, hn⟩
    exact ⟨n, hn n (Nat.le_refl n)⟩
  · rintro ⟨n, hn⟩
    refine ⟨n, fun fuel hfuel => ?_⟩
    rwa [run_mono hfuel hn]

/-- From a node on which a run ends, every chain of nodes is finite. -/
theorem acc_of_run {fuel : ℕ} {a : α}
    (h : run expand check exhausted fuel a ≠ .error exhausted) :
    Acc (fun b a => Leads expand check a b) a := by
  induction fuel generalizing a with
  | zero => exact absurd rfl h
  | succ fuel ih =>
      apply Acc.intro
      intro b hleads
      rcases hleads with ⟨hexpand, hbefore⟩
      rename_i before after
      apply ih
      intro hb
      apply h
      rw [run, hexpand, Fallible.ok_bind]
      -- the first step that is out of fuel is the node or one in front of it
      by_cases hall : ∀ s ∈ before,
          runStep check (run expand check exhausted fuel) s = .ok ⟨⟩
      · exact runSteps_eq_error.mpr ⟨before, .node b, after, rfl, hall, hb⟩
      · have hexhausted : runSteps check (run expand check exhausted fuel) before =
            .error exhausted := by
          cases hrun : runSteps check (run expand check exhausted fuel) before with
          | ok r => exact absurd (runSteps_eq_ok.mp hrun) hall
          | error e =>
              rcases runSteps_eq_error.mp hrun with ⟨pre, s, post, rfl, -, hs⟩
              have hmem : s ∈ pre ++ s :: post := by simp
              rcases (hbefore s hmem).run_or fuel with hok | herror
              · rw [hs] at hok
                cases hok
              · exact hs.symm.trans herror
        rcases runSteps_eq_error.mp hexhausted with ⟨pre, s, post, rfl, hpre, hs⟩
        exact runSteps_eq_error.mpr ⟨pre, s, post ++ .node b :: after, by simp, hpre, hs⟩

/-- A run over the rest of a node's steps ends, if those in front of them pass and the
nodes that are met are such that runs over them end. -/
theorem runSteps_halts {a : α} {before steps : List (Step α β ε)}
    (hexpand : expand a = .ok (before ++ steps))
    (hbefore : ∀ step ∈ before, StepPasses expand check step)
    (hcheck : ∀ b, check b ≠ .error exhausted) (hfail : .fail exhausted ∉ steps)
    (hnode : ∀ b, Leads expand check a b → Halts expand check exhausted b) :
    ∃ n, ∀ fuel, n ≤ fuel →
      runSteps check (run expand check exhausted fuel) steps ≠ .error exhausted := by
  induction steps generalizing before with
  | nil => exact ⟨0, fun fuel _ h => nomatch h⟩
  | cons step steps ih =>
      have hmeets : Meets expand check a step := .intro hexpand hbefore
      have hsplit : before ++ step :: steps = before ++ [step] ++ steps := by simp
      have hrest : StepPasses expand check step → ∃ n, ∀ fuel, n ≤ fuel →
          runSteps check (run expand check exhausted fuel) steps ≠ .error exhausted := by
        intro hstep
        apply ih (hsplit ▸ hexpand)
        · intro s hs
          rcases List.mem_append.mp hs with hs | hs
          · exact hbefore s hs
          · rw [List.mem_singleton.mp hs]
            exact hstep
        · exact fun h => hfail (List.mem_cons_of_mem _ h)
      have hhead : ∃ n, ∀ fuel, n ≤ fuel →
          runStep check (run expand check exhausted fuel) step ≠ .error exhausted := by
        cases step with
        | fail e =>
            refine ⟨0, fun _ _ h => hfail ?_⟩
            rw [← Except.error.inj h]
            exact List.mem_cons_self
        | leaf b => exact ⟨0, fun _ _ => hcheck b⟩
        | node b => exact hnode b hmeets
      rcases hhead with ⟨n, hn⟩
      by_cases hpass : StepPasses expand check step
      · rcases hrest hpass with ⟨m, hm⟩
        refine ⟨n + m, fun fuel hfuel hrun => ?_⟩
        rw [runSteps] at hrun
        cases hr : runStep check (run expand check exhausted fuel) step with
        | error e => exact hn fuel (by omega) (by rw [hr] at hrun ⊢; exact hrun)
        | ok r =>
            rw [hr, Fallible.ok_bind] at hrun
            exact hm fuel (by omega) hrun
      · refine ⟨n, fun fuel hfuel hrun => ?_⟩
        rw [runSteps] at hrun
        cases hr : runStep check (run expand check exhausted fuel) step with
        | error e => exact hn fuel hfuel (by rw [hr] at hrun ⊢; exact hrun)
        | ok r => exact hpass (stepPasses_of_run hr)

/-- The traversal ends exactly if no chain of nodes that it comes to is infinite. -/
theorem halts_iff_acc (hexpand : ∀ a, expand a ≠ .error exhausted)
    (hcheck : ∀ b, check b ≠ .error exhausted)
    (hfail : ∀ a steps, expand a = .ok steps → .fail exhausted ∉ steps) {a : α} :
    Halts expand check exhausted a ↔ Acc (fun b a => Leads expand check a b) a := by
  constructor
  · rintro ⟨n, hn⟩
    exact acc_of_run (hn n (Nat.le_refl n))
  · intro h
    induction h with
    | intro a _ ih =>
        rw [halts_iff_exists]
        cases hsteps : expand a with
        | error e =>
            refine ⟨1, fun h => hexpand a ?_⟩
            rw [run, hsteps] at h
            rw [hsteps]
            exact congrArg Except.error (Except.error.inj h)
        | ok steps =>
            have hrun := runSteps_halts (List.nil_append steps ▸ hsteps) (List.forall_mem_nil _)
              hcheck (hfail a steps hsteps) ih
            rcases hrun with ⟨n, hn⟩
            refine ⟨n + 1, ?_⟩
            rw [run, hsteps]
            exact hn n (Nat.le_refl n)

end Traversal

import Mathlib.Data.List.Basic
import Mathlib.Data.List.Induction
import Mathlib.Logic.Function.Basic
import Mathlib.Logic.Relation

/-!
# Runs of a partial step function

A system is a step function `σ → α → Option σ`: an action is either blocked in a state, or
it leads to one next state. A *run* takes a list of actions one after the other.

* `run_append` splits a run in the middle.
* `run_invariant` is the induction every safety proof uses: what one step preserves, a run
  preserves.
* `run_countP` counts the actions of one kind.
* `run_potential` bounds how many actions of one kind there are, by what they use up.
* `run_simulates`: a run follows a fold when each step follows a step of the fold.
* `run_follows`: the same for a run that is given, whatever step may be blocked.
* `reflTransGen_simulates` is the simulation rule for relations: a step is matched by any number of
  steps.
* `run_related` carries a relation along two systems that take the same actions.
* `run_invariant_of` is the invariant rule when each step has to meet a condition on the state before
  it (`RunOk`), and `runOk_iff` says that the condition is exact when it is exact for one step;
  `checkRun` tells of a given run that a condition is met.
* `run_rel` relates two runs that may both be blocked, and `run_exchange` lifts the exchange of two
  actions to runs.
-/

namespace Slimmer

variable {σ α β : Type*}

/-- Take the actions in order; `none` when one of them is blocked. -/
def run (step : σ → α → Option σ) : σ → List α → Option σ
  | s, [] => some s
  | s, a :: as => (step s a).bind fun s' => run step s' as

section

variable {step : σ → α → Option σ}

@[simp] theorem run_nil (s : σ) : run step s [] = some s := rfl

theorem run_cons (s : σ) (a : α) (as : List α) :
    run step s (a :: as) = (step s a).bind fun s' => run step s' as := rfl

theorem run_cons_eq_some {s t : σ} {a : α} {as : List α} :
    run step s (a :: as) = some t ↔ ∃ s', step s a = some s' ∧ run step s' as = some t := by
  rw [run_cons, Option.bind_eq_some_iff]

theorem run_append (s : σ) (as bs : List α) :
    run step s (as ++ bs) = (run step s as).bind fun s' => run step s' bs := by
  induction as generalizing s with
  | nil => rfl
  | cons a as ih =>
    rw [List.cons_append, run_cons, run_cons, Option.bind_assoc]
    exact congrArg _ (funext fun s' => ih s')

theorem run_append_eq_some {s t : σ} {as bs : List α} :
    run step s (as ++ bs) = some t ↔
      ∃ s', run step s as = some s' ∧ run step s' bs = some t := by
  rw [run_append, Option.bind_eq_some_iff]

theorem run_concat_eq_some {s t : σ} {as : List α} {a : α} :
    run step s (as ++ [a]) = some t ↔ ∃ s', run step s as = some s' ∧ step s' a = some t := by
  rw [run_append_eq_some]
  simp [run_cons]

/-- **The invariant rule.** What holds at the start and is kept by every step holds at the end
of every run. -/
theorem run_invariant {P : σ → Prop} (hstep : ∀ s a s', P s → step s a = some s' → P s')
    {s t : σ} {as : List α} (hs : P s) (hrun : run step s as = some t) : P t := by
  induction as generalizing s with
  | nil => cases hrun; exact hs
  | cons a as ih =>
    obtain ⟨s', h₁, h₂⟩ := run_cons_eq_some.mp hrun
    exact ih (hstep s a s' hs h₁) h₂

/-- A quantity that a step increases by one exactly when it takes an action of some kind counts the
actions of that kind in a run. -/
theorem run_countP {P : σ → Prop} {f : σ → Nat} {p : α → Bool}
    (hstep : ∀ s a s', P s → step s a = some s' → P s' ∧ f s' = f s + if p a then 1 else 0)
    {s t : σ} {as : List α} (hs : P s) (hrun : run step s as = some t) :
    f t = f s + as.countP p := by
  induction as generalizing s with
  | nil => cases hrun; simp
  | cons a as ih =>
    obtain ⟨s', h₁, h₂⟩ := run_cons_eq_some.mp hrun
    obtain ⟨hs', hf⟩ := hstep s a s' hs h₁
    rw [ih hs' h₂, hf, List.countP_cons]
    omega

/-- **The potential rule.** When the actions of one kind use up a potential, and those of another kind
add at most `c` to it, there are no more of the first kind than the potential allows. -/
theorem run_potential {P : σ → Prop} {f : σ → Nat} {p q : α → Bool} {c : Nat}
    (hstep : ∀ s a s', P s → step s a = some s' →
      P s' ∧ f s' + (if p a then 1 else 0) ≤ f s + if q a then c else 0)
    {s t : σ} {as : List α} (hs : P s) (hrun : run step s as = some t) :
    f t + as.countP p ≤ f s + c * as.countP q := by
  induction as generalizing s with
  | nil => cases hrun; simp
  | cons a as ih =>
    obtain ⟨s', h₁, h₂⟩ := run_cons_eq_some.mp hrun
    obtain ⟨hs', hf⟩ := hstep s a s' hs h₁
    have := ih hs' h₂
    rw [List.countP_cons, List.countP_cons, Nat.mul_add]
    split_ifs at hf ⊢ <;> omega

/-- **The simulation rule.** When every step can be taken and follows the step `g` of a reference,
the run can be taken and follows the fold of `g`. -/
theorem run_simulates {R : σ → β → Prop} {g : β → α → β} {as : List α}
    (hstep : ∀ s r a, a ∈ as → R s r → ∃ s', step s a = some s' ∧ R s' (g r a))
    {s : σ} {r : β} (h : R s r) : ∃ t, run step s as = some t ∧ R t (as.foldl g r) := by
  induction as generalizing s r with
  | nil => exact ⟨s, rfl, h⟩
  | cons a as ih =>
    obtain ⟨s', hs', h'⟩ := hstep s r a List.mem_cons_self h
    obtain ⟨t, ht, hR⟩ := ih (fun s r b hb => hstep s r b (List.mem_cons_of_mem _ hb)) h'
    exact ⟨t, run_cons_eq_some.mpr ⟨s', hs', ht⟩, hR⟩

/-- When an invariant lets every step be taken, the run can be taken. -/
theorem exists_run {P : σ → Prop} {as : List α}
    (hstep : ∀ s a, a ∈ as → P s → ∃ s', step s a = some s' ∧ P s') {s : σ} (hs : P s) :
    ∃ t, run step s as = some t ∧ P t :=
  run_simulates (R := fun s (_ : Unit) => P s) (g := fun _ _ => ())
    (fun s _ a ha h => hstep s a ha h) (r := ()) hs

/-- **The rule for a run that is given.** A relation to a fold of the actions that every step keeps
holds at the end. -/
theorem run_follows {R : σ → β → Prop} {g : β → α → β} {as : List α}
    (hstep : ∀ s r a s', a ∈ as → R s r → step s a = some s' → R s' (g r a)) {s t : σ} {r : β}
    (h : R s r) (hrun : run step s as = some t) : R t (as.foldl g r) := by
  induction as generalizing s r with
  | nil => cases hrun; exact h
  | cons a as ih =>
    obtain ⟨s', h₁, h₂⟩ := run_cons_eq_some.mp hrun
    exact ih (fun s r b t hb => hstep s r b t (List.mem_cons_of_mem _ hb))
      (hstep s r a s' List.mem_cons_self h h₁) h₂

/-- **The simulation rule for relations.** When every step from related states is matched by steps of
the other system to related states, so is every run. -/
theorem reflTransGen_simulates {τ : Type*} {r : σ → σ → Prop} {r' : τ → τ → Prop} {R : σ → τ → Prop}
    (hstep : ∀ s s₁ t, R s t → r s s₁ → ∃ t₁, Relation.ReflTransGen r' t t₁ ∧ R s₁ t₁)
    {s s₁ : σ} {t : τ} (h : R s t) (hrun : Relation.ReflTransGen r s s₁) :
    ∃ t₁, Relation.ReflTransGen r' t t₁ ∧ R s₁ t₁ := by
  induction hrun with
  | refl => exact ⟨t, .refl, h⟩
  | tail _ hs ih =>
    obtain ⟨t₁, hrun₁, h₁⟩ := ih
    obtain ⟨t₂, hrun₂, h₂⟩ := hstep _ _ _ h₁ hs
    exact ⟨t₂, hrun₁.trans hrun₂, h₂⟩

/-- **The rule for two systems** that take the same actions: a relation between their states that
every step keeps holds at the end. A step may use what was reached before it. -/
theorem run_related {τ : Type*} {step' : τ → α → Option τ} {R : σ → τ → Prop} {s₀ s : σ} {t₀ t : τ}
    {as : List α} (h : R s₀ t₀)
    (hstep : ∀ pre a post s s' t t', as = pre ++ a :: post → run step s₀ pre = some s →
      run step' t₀ pre = some t → R s t → step s a = some s' → step' t a = some t' → R s' t')
    (hs : run step s₀ as = some s) (ht : run step' t₀ as = some t) : R s t := by
  induction as using List.reverseRecOn generalizing s t with
  | nil =>
    cases hs
    cases ht
    exact h
  | append_singleton as a ih =>
    obtain ⟨s₁, hs₁, hstep₁⟩ := run_concat_eq_some.mp hs
    obtain ⟨t₁, ht₁, hstep₂⟩ := run_concat_eq_some.mp ht
    refine hstep as a [] s₁ s t₁ t rfl hs₁ ht₁ (ih (fun pre b post => ?_) hs₁ ht₁) hstep₁ hstep₂
    intro s s' t t' has
    exact hstep pre b (post ++ [a]) s s' t t' (by rw [has, List.append_assoc, List.cons_append])

/-- Every step of the run meets the condition `C` in the state before it. -/
def RunOk (step : σ → α → Option σ) (C : σ → α → Prop) (s : σ) (as : List α) : Prop :=
  ∀ pre a post s', as = pre ++ a :: post → run step s pre = some s' → C s' a

theorem RunOk.nil {C : σ → α → Prop} (s : σ) : RunOk step C s [] :=
  fun pre a post _ h => absurd h (by simp)

theorem RunOk.cons {C : σ → α → Prop} {s : σ} {a : α} {as : List α} (ha : C s a)
    (htail : ∀ s', step s a = some s' → RunOk step C s' as) : RunOk step C s (a :: as) := by
  intro pre b post t has hrun
  cases pre with
  | nil =>
    cases has
    cases hrun
    exact ha
  | cons c pre =>
    obtain ⟨rfl, has'⟩ := List.cons.inj has
    obtain ⟨s', h₁, h₂⟩ := run_cons_eq_some.mp hrun
    exact htail s' h₁ pre b post t has' h₂

theorem RunOk.head {C : σ → α → Prop} {s : σ} {a : α} {as : List α}
    (h : RunOk step C s (a :: as)) : C s a := h [] a as s rfl rfl

theorem RunOk.tail {C : σ → α → Prop} {s s' : σ} {a : α} {as : List α}
    (h : RunOk step C s (a :: as)) (hstep : step s a = some s') : RunOk step C s' as :=
  fun pre b post t has hrun =>
    h (a :: pre) b post t (by rw [has, List.cons_append])
      (run_cons_eq_some.mpr ⟨s', hstep, hrun⟩)

theorem RunOk.left {C : σ → α → Prop} {s : σ} {as bs : List α} (h : RunOk step C s (as ++ bs)) :
    RunOk step C s as := by
  intro pre a post s' hsplit hrun
  refine h pre a (post ++ bs) s' ?_ hrun
  rw [hsplit, List.append_assoc, List.cons_append]

theorem runOk_cons {C : σ → α → Prop} {s s' : σ} {a : α} {as : List α}
    (hstep : step s a = some s') : RunOk step C s (a :: as) ↔ C s a ∧ RunOk step C s' as := by
  refine ⟨fun h => ⟨h.head, h.tail hstep⟩, fun h => RunOk.cons h.1 fun t ht => ?_⟩
  cases hstep.symm.trans ht
  exact h.2

/-- Whether every step of the run passes a check in the state before it. -/
def checkRun (step : σ → α → Option σ) (check : σ → α → Bool) : σ → List α → Bool
  | _, [] => true
  | s, a :: as => check s a && (step s a).all fun s' => checkRun step check s' as

/-- A run that passes a check meets the condition the check is sound for. -/
theorem runOk_of_check {C : σ → α → Prop} {check : σ → α → Bool}
    (hcheck : ∀ s a, check s a = true → C s a) {s : σ} {as : List α}
    (h : checkRun step check s as = true) : RunOk step C s as := by
  induction as generalizing s with
  | nil => exact .nil s
  | cons a as ih =>
    rw [checkRun, Bool.and_eq_true] at h
    refine .cons (hcheck s a h.1) fun s' hs' => ih ?_
    simpa [hs'] using h.2

/-- The invariant rule for runs whose steps all meet a condition. -/
theorem run_invariant_of {C : σ → α → Prop} {P : σ → Prop}
    (hstep : ∀ s a s', C s a → P s → step s a = some s' → P s')
    {s t : σ} {as : List α} (hok : RunOk step C s as) (hs : P s)
    (hrun : run step s as = some t) : P t := by
  induction as generalizing s with
  | nil => cases hrun; exact hs
  | cons a as ih =>
    obtain ⟨s', h₁, h₂⟩ := run_cons_eq_some.mp hrun
    exact ih (hok.tail h₁) (hstep s a s' hok.head hs h₁) h₂

/-- **When a step keeps an invariant** exactly if it meets a condition, the invariant holds in all
states of a run exactly if all steps of the run meet the condition. -/
theorem runOk_iff {C : σ → α → Prop} {P : σ → Prop}
    (hstep : ∀ s a s', P s → step s a = some s' → (P s' ↔ C s a))
    {s t : σ} {as : List α} (hs : P s) (hrun : run step s as = some t) :
    RunOk step C s as ↔ ∀ pre s', pre <+: as → run step s pre = some s' → P s' := by
  induction as generalizing s with
  | nil =>
    refine ⟨fun _ pre s' hpre hpre' => ?_, fun _ => RunOk.nil s⟩
    rw [List.prefix_nil.mp hpre] at hpre'
    cases hpre'
    exact hs
  | cons a as ih =>
    obtain ⟨s₁, h₁, h₂⟩ := run_cons_eq_some.mp hrun
    have hiff := hstep s a s₁ hs h₁
    rw [runOk_cons h₁, ← hiff]
    constructor
    · rintro ⟨hs₁, hok⟩ pre s' hpre hpre'
      cases pre with
      | nil =>
        cases hpre'
        exact hs
      | cons b pre =>
        obtain ⟨rfl, htail⟩ := List.cons_prefix_cons.mp hpre
        obtain ⟨s₂, h₃, h₄⟩ := run_cons_eq_some.mp hpre'
        cases h₁.symm.trans h₃
        exact (ih hs₁ h₂).mp hok pre s' htail h₄
    · intro hall
      have hs₁ : P s₁ := hall [a] s₁ ⟨as, rfl⟩ (run_cons_eq_some.mpr ⟨s₁, h₁, rfl⟩)
      refine ⟨hs₁, (ih hs₁ h₂).mpr fun pre s' hpre hpre' => ?_⟩
      apply hall (a :: pre) s' (List.cons_prefix_cons.mpr ⟨rfl, hpre⟩)
      exact run_cons_eq_some.mpr ⟨s₁, h₁, hpre'⟩

/-! ## Two runs side by side -/

/-- Computations whose results are related, or that both have none, go on together. -/
theorem rel_bind {α' β' γ γ' : Type*} {R : α' → β' → Prop} {R' : γ → γ' → Prop} {a : Option α'}
    {b : Option β'} {f : α' → Option γ} {g : β' → Option γ'} (h : Option.Rel R a b)
    (hfg : ∀ x y, a = some x → b = some y → R x y → Option.Rel R' (f x) (g y)) :
    Option.Rel R' (a.bind f) (b.bind g) := by
  cases h with
  | none => exact .none
  | some hxy => exact hfg _ _ rfl rfl hxy

theorem rel_map {α' β' γ γ' : Type*} {R : α' → β' → Prop} {R' : γ → γ' → Prop} {a : Option α'}
    {b : Option β'} {f : α' → γ} {g : β' → γ'} (h : Option.Rel R a b)
    (hfg : ∀ x y, a = some x → b = some y → R x y → R' (f x) (g y)) :
    Option.Rel R' (a.map f) (b.map g) := by
  cases h with
  | none => exact .none
  | some hxy => exact .some (hfg _ _ rfl rfl hxy)

theorem rel_mono {α' β' : Type*} {R R' : α' → β' → Prop} {a : Option α'} {b : Option β'}
    (h : Option.Rel R a b) (hR : ∀ x y, a = some x → b = some y → R x y → R' x y) :
    Option.Rel R' a b := by
  cases h with
  | none => exact .none
  | some hxy => exact .some (hR _ _ rfl rfl hxy)

theorem rel_eq {α' : Type*} {a b : Option α'} (h : Option.Rel (· = ·) a b) : a = b := by
  cases h with
  | none => rfl
  | some hxy => rw [hxy]

theorem eq_none_of_rel {α' β' : Type*} {R : α' → β' → Prop} {b : Option β'}
    (h : Option.Rel R none b) : b = none := by
  cases h
  rfl

theorem exists_of_rel {α' β' : Type*} {R : α' → β' → Prop} {x : α'} {b : Option β'}
    (h : Option.Rel R (some x) b) : ∃ y, b = some y ∧ R x y := by
  cases h with
  | some hxy => exact ⟨_, rfl, hxy⟩

/-- A relation that every step keeps is kept by runs. -/
theorem run_rel {τ : Type*} {step' : τ → α → Option τ} {R : σ → τ → Prop} {as : List α}
    (hstep : ∀ s t a, a ∈ as → R s t → Option.Rel R (step s a) (step' t a)) {s : σ} {t : τ}
    (h : R s t) : Option.Rel R (run step s as) (run step' t as) := by
  induction as generalizing s t with
  | nil => exact .some h
  | cons a as ih =>
    refine rel_bind (hstep s t a List.mem_cons_self h) fun s' t' _ _ h' => ?_
    exact ih (fun s t c hc => hstep s t c (List.mem_cons_of_mem a hc)) h'

/-- **The exchange rule.** When two actions can be exchanged in a state, up to a relation that every
step from a state with the invariant `P` keeps, they can be exchanged in a run from it. -/
theorem run_exchange {P : σ → Prop} {R : σ → σ → Prop}
    (hP : ∀ s a s', P s → step s a = some s' → P s')
    (hstep : ∀ s t a, P s → R s t → Option.Rel R (step s a) (step t a)) {s : σ} {a b : α} (hs : P s)
    (hswap : Option.Rel R (run step s [a, b]) (run step s [b, a])) (as : List α) :
    Option.Rel R (run step s (a :: b :: as)) (run step s (b :: a :: as)) := by
  have hsplit : ∀ c d, run step s (c :: d :: as) =
      (run step s [c, d]).bind fun t => run step t as := fun c d => run_append s [c, d] as
  rw [hsplit, hsplit]
  refine rel_bind hswap fun s' t' hs' _ h => ?_
  have hboth : Option.Rel (fun s t => P s ∧ R s t) (run step s' as) (run step t' as) := by
    refine run_rel (fun s t c _ hst => ?_) ⟨run_invariant hP hs hs', h⟩
    exact rel_mono (hstep s t c hst.1 hst.2) fun s₁ t₁ hs₁ _ h₁ => ⟨hP s c s₁ hst.1 hs₁, h₁⟩
  exact rel_mono hboth fun _ _ _ _ h => h.2

end

end Slimmer

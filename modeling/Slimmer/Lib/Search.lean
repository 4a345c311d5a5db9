import Mathlib.Data.Finset.Card
import Mathlib.Order.RelClasses
import Mathlib.Data.Prod.Lex
import Slimmer.Lib.Loops

/-!
# Search with an explicit stack

`Search.step next` takes a node off the stack, marks it and pushes its neighbours that are not marked,
so a node may lie on the stack more than once. The marks `seen` are those of earlier searches as well,
`found` are the nodes of this search.

**Theorem (`search_component`).** On a symmetric graph, with the marks of earlier searches closed under
neighbours, the search from an unmarked node ends and finds the nodes connected with it.
-/

namespace Slimmer

variable {α : Type*} {next : α → List α} {seen U S : Finset α} {stack nodes : List α} {v w : α}

/-! ## Paths -/

/-- The edges of a graph. -/
def Neighbour (next : α → List α) (a b : α) : Prop := b ∈ next a

theorem reach_of_closed {a b : α} (hclosed : ∀ a ∈ S, ∀ b ∈ next a, b ∈ S) (ha : a ∈ S)
    (h : Relation.ReflTransGen (Neighbour next) a b) : b ∈ S := by
  induction h with
  | refl => exact ha
  | tail _ hedge ih => exact hclosed _ ih _ hedge

/-- On a symmetric graph every path has a way back. -/
theorem reach_symm {a b : α} (hsymm : ∀ a b, b ∈ next a → a ∈ next b)
    (h : Relation.ReflTransGen (Neighbour next) a b) :
    Relation.ReflTransGen (Neighbour next) b a := by
  induction h with
  | refl => exact .refl
  | tail _ hedge ih => exact .head (hsymm _ _ hedge) ih

/-! ## The search -/

/-- The state of a search. The top of the stack is first. -/
structure Search (α : Type*) where
  stack : List α
  found : Finset α := ∅
  seen : Finset α

variable [DecidableEq α]

/-- Push the nodes that are not marked. -/
def pushUnseen (seen : Finset α) (stack : List α) (nodes : List α) : List α :=
  nodes.foldl (fun stack w => if w ∈ seen then stack else w :: stack) stack

/-- One turn. -/
def Search.step (next : α → List α) (s : Search α) : Option (Search α) :=
  match s.stack with
  | [] => none
  | v :: rest => some
    { stack := pushUnseen (insert v s.seen) rest (next v)
      found := insert v s.found
      seen := insert v s.seen }

variable {s s' : Search α}

theorem mem_pushUnseen : w ∈ pushUnseen seen stack nodes ↔ w ∈ stack ∨ (w ∈ nodes ∧ w ∉ seen) := by
  induction nodes generalizing stack with
  | nil => simp [pushUnseen]
  | cons a nodes ih =>
    show w ∈ pushUnseen seen (if a ∈ seen then stack else a :: stack) nodes ↔ _
    rw [ih]
    split_ifs with ha
    · aesop
    · aesop

/-- What is pushed is not marked, so it does not count. -/
theorem countP_pushUnseen : (pushUnseen seen stack nodes).countP (· ∈ seen) =
    stack.countP (· ∈ seen) := by
  induction nodes generalizing stack with
  | nil => rfl
  | cons a nodes ih =>
    show (pushUnseen seen (if a ∈ seen then stack else a :: stack) nodes).countP _ = _
    rw [ih]
    split_ifs with ha
    · rfl
    · simp [ha]

/-- The search from `v`, when the nodes `S` have been marked before. -/
structure Searching (next : α → List α) (U S : Finset α) (v : α) (s : Search α) : Prop where
  seen : s.seen = S ∪ s.found
  reach : ∀ w, w ∈ s.found ∨ w ∈ s.stack → Relation.ReflTransGen (Neighbour next) v w
  closed : ∀ a ∈ s.found, ∀ b ∈ next a, b ∈ s.seen ∨ b ∈ s.stack
  start : v ∈ s.found ∨ v ∈ s.stack
  inside : ∀ w ∈ s.stack, w ∈ U

theorem Searching.init (hv : v ∈ U) : Searching next U S v ⟨[v], ∅, S⟩ where
  seen := (Finset.union_empty S).symm
  reach w hw := by
    obtain hw | hw := hw
    · simp at hw
    · rw [List.mem_singleton.mp hw]
  closed := by simp
  start := Or.inr List.mem_cons_self
  inside w hw := by rwa [List.mem_singleton.mp hw]

theorem Searching.step (h : Searching next U S v s) (hU : ∀ a ∈ U, ∀ b ∈ next a, b ∈ U)
    (hstep : s.step next = some s') : Searching next U S v s' := by
  obtain ⟨stack, found, seen⟩ := s
  cases stack with
  | nil => cases hstep
  | cons a rest =>
    obtain rfl := Option.some.inj hstep
    have ha : Relation.ReflTransGen (Neighbour next) v a := h.reach a (Or.inr List.mem_cons_self)
    have haU := h.inside a List.mem_cons_self
    have hseen : seen = S ∪ found := h.seen
    constructor
    · show insert a seen = S ∪ insert a found
      rw [hseen, Finset.union_insert]
    · intro w hw
      obtain hw | hw := hw
      · obtain rfl | hw := Finset.mem_insert.mp hw
        · exact ha
        · exact h.reach w (Or.inl hw)
      · obtain hw | ⟨hw, -⟩ := mem_pushUnseen.mp hw
        · exact h.reach w (Or.inr (List.mem_cons_of_mem a hw))
        · exact ha.tail hw
    · intro b hb c hc
      show c ∈ insert a seen ∨ c ∈ pushUnseen (insert a seen) rest (next a)
      by_cases hcs : c ∈ insert a seen
      · exact Or.inl hcs
      · refine Or.inr (mem_pushUnseen.mpr ?_)
        obtain rfl | hb := Finset.mem_insert.mp hb
        · exact Or.inr ⟨hc, hcs⟩
        · obtain hc | hc := h.closed b hb c hc
          · exact absurd (Finset.mem_insert_of_mem hc) hcs
          · obtain rfl | hc := List.mem_cons.mp hc
            · exact absurd (Finset.mem_insert_self _ _) hcs
            · exact Or.inl hc
    · obtain hv | hv := h.start
      · exact Or.inl (Finset.mem_insert_of_mem hv)
      · obtain rfl | hv := List.mem_cons.mp hv
        · exact Or.inl (Finset.mem_insert_self _ _)
        · exact Or.inr (mem_pushUnseen.mpr (Or.inl hv))
    · intro w hw
      obtain hw | ⟨hw, -⟩ := mem_pushUnseen.mp hw
      · exact h.inside w (List.mem_cons_of_mem a hw)
      · exact hU a haU w hw

/-- A turn marks a node, or takes a marked one off the stack. -/
theorem Searching.smaller (h : Searching next U S v s) (hstep : s.step next = some s') :
    Prod.Lex (· < ·) (· < ·) ((U \ s'.seen).card, s'.stack.countP (· ∈ s'.seen))
      ((U \ s.seen).card, s.stack.countP (· ∈ s.seen)) := by
  obtain ⟨stack, found, seen⟩ := s
  cases stack with
  | nil => cases hstep
  | cons a rest =>
    obtain rfl := Option.some.inj hstep
    by_cases ha : a ∈ seen
    · have hseen : insert a seen = seen := Finset.insert_eq_of_mem ha
      simp only [hseen, countP_pushUnseen]
      apply Prod.Lex.right
      rw [List.countP_cons_of_pos (by simpa using ha)]
      omega
    · apply Prod.Lex.left
      apply Finset.card_lt_card
      refine Finset.ssubset_iff_subset_ne.mpr ⟨Finset.sdiff_subset_sdiff le_rfl
        (Finset.subset_insert _ _), fun heq => ?_⟩
      have hmem : a ∈ U \ seen := Finset.mem_sdiff.mpr ⟨h.inside a List.mem_cons_self, ha⟩
      rw [← heq] at hmem
      exact (Finset.mem_sdiff.mp hmem).2 (Finset.mem_insert_self _ _)

/-- **The search finds a component.** -/
theorem search_component (hsymm : ∀ a b, b ∈ next a → a ∈ next b)
    (hU : ∀ a ∈ U, ∀ b ∈ next a, b ∈ U) (hv : v ∈ U) (hclosed : ∀ a ∈ S, ∀ b ∈ next a, b ∈ S)
    (hvS : v ∉ S) :
    ∃ t, EndsIn (Search.step next) ⟨[v], ∅, S⟩ t ∧ t.seen = S ∪ t.found ∧
      ∀ w, w ∈ t.found ↔ Relation.ReflTransGen (Neighbour next) v w := by
  have hwf : WellFounded (Prod.Lex (fun m n : Nat => m < n) (fun m n : Nat => m < n)) :=
    WellFounded.prod_lex Nat.lt_wfRel.wf Nat.lt_wfRel.wf
  have hturn : ∀ s s', Searching next U S v s → s.step next = some s' →
      Searching next U S v s' ∧
        Prod.Lex (· < ·) (· < ·) ((U \ s'.seen).card, s'.stack.countP (· ∈ s'.seen))
          ((U \ s.seen).card, s.stack.countP (· ∈ s.seen)) :=
    fun s s' h hstep => ⟨h.step hU hstep, h.smaller hstep⟩
  obtain ⟨t, ht⟩ := exists_endsIn hwf
    (fun s : Search α => ((U \ s.seen).card, s.stack.countP (· ∈ s.seen))) hturn
    (Searching.init hv)
  obtain ⟨hinv, hend⟩ := ht.invariant (Searching.init hv) fun s s' h hstep => h.step hU hstep
  refine ⟨t, ht, hinv.seen, fun w => ⟨fun hw => hinv.reach w (Or.inl hw), fun hreach => ?_⟩⟩
  have hstack : t.stack = [] := by
    cases hs : t.stack with
    | nil => rfl
    | cons a rest => simp [Search.step, hs] at hend
  induction hreach with
  | refl =>
    obtain h | h := hinv.start
    · exact h
    · rw [hstack] at h
      cases h
  | @tail a b hreach hedge ih =>
    obtain hb | hb := hinv.closed a ih b hedge
    · rw [hinv.seen] at hb
      obtain hb | hb := Finset.mem_union.mp hb
      · -- then the search would have started at a marked node
        exact absurd (reach_of_closed hclosed hb (reach_symm hsymm (hreach.tail hedge))) hvS
      · exact hb
    · rw [hstack] at hb
      cases hb

end Slimmer

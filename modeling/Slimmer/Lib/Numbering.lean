import Mathlib.Data.List.Forall2

/-!
# Numbering the elements of groups

The elements of the groups of a list are numbered through, one group behind the other.
`grouped f bs` lists them with the number of their group, where `f` gives the elements of a group.

* `filter_grouped`: the elements of one group.
* `positions_filter`: which numbers they have.
-/

namespace Slimmer

variable {α β γ : Type*}

/-- The elements of all groups, each with the number of its group. -/
def grouped (f : β → List γ) (bs : List β) : List (Nat × γ) :=
  bs.zipIdx.flatMap fun b => (f b.1).map fun c => (b.2, c)

theorem map_snd_grouped (f : β → List γ) (bs : List β) : (grouped f bs).map Prod.snd = bs.flatMap f := by
  unfold grouped
  generalize 0 = k
  induction bs generalizing k with
  | nil => rfl
  | cons b bs ih =>
    rw [List.zipIdx_cons, List.flatMap_cons, List.flatMap_cons, List.map_append, List.map_map, ih]
    exact congrArg (· ++ _) (List.map_id _)

/-- **The elements of one group**, in their order. -/
theorem filter_grouped (f : β → List γ) (bs : List β) (n : Nat) :
    (grouped f bs).filter (fun p => p.1 = n) = ((bs[n]?).elim [] f).map fun c => (n, c) := by
  -- with the first group numbered `k`
  have hfrom : ∀ k, (((bs.zipIdx k).flatMap fun b => (f b.1).map fun c => (b.2, c)).filter
      fun p => p.1 = n) =
        if k ≤ n then ((bs[n - k]?).elim [] f).map (fun c => (n, c)) else [] := by
    induction bs with
    | nil => simp
    | cons b bs ih =>
      intro k
      rw [List.zipIdx_cons, List.flatMap_cons, List.filter_append, ih]
      rcases Nat.lt_trichotomy k n with hk | rfl | hk
      · obtain ⟨d, hd⟩ : ∃ d, n - k = d + 1 := ⟨n - k - 1, by omega⟩
        rw [if_pos (Nat.succ_le_of_lt hk), if_pos (Nat.le_of_lt hk), hd, List.getElem?_cons_succ,
          show n - (k + 1) = d by omega, List.filter_eq_nil_iff.mpr, List.nil_append]
        intro p hp
        obtain ⟨c, -, rfl⟩ := List.mem_map.mp hp
        simp only [decide_eq_true_eq]
        omega
      · rw [if_neg (Nat.not_succ_le_self k), if_pos (Nat.le_refl k), Nat.sub_self, List.append_nil,
          List.filter_eq_self.mpr]
        · rfl
        · intro p hp
          obtain ⟨c, -, rfl⟩ := List.mem_map.mp hp
          exact decide_eq_true rfl
      · rw [if_neg (by omega), if_neg (by omega), List.append_nil, List.filter_eq_nil_iff]
        intro p hp
        obtain ⟨c, -, rfl⟩ := List.mem_map.mp hp
        simp only [decide_eq_true_eq]
        omega
  have := hfrom 0
  rwa [if_pos (Nat.zero_le n), Nat.sub_zero] at this

/-- The positions of the elements with some property, where `g` knows the position of each. -/
theorem positions_filter {l : List α} {p : α → Bool} {g : α → Nat}
    (hg : ∀ k a, l[k]? = some a → g a = k) :
    ((l.zipIdx).filter fun x => p x.1).map Prod.snd = (l.filter p).map g := by
  have hcongr : ((l.zipIdx).filter fun x => p x.1).map Prod.snd =
      ((l.zipIdx).filter fun x => p x.1).map (g ∘ Prod.fst) := by
    refine List.map_congr_left fun x hx => ?_
    exact (hg x.2 x.1 (List.mem_zipIdx_iff_getElem?.mp (List.mem_of_mem_filter hx))).symm
  have hfst : (l.filter p) = ((l.zipIdx).filter fun x => p x.1).map Prod.fst := by
    conv_lhs => rw [← List.zipIdx_map_fst 0 l]
    rw [List.filter_map]
    rfl
  rw [hcongr, hfst, List.map_map]

/-- The results of a function on the elements of a list. -/
theorem forall₂_of_mapM {f : α → Option β} :
    ∀ {as : List α} {bs : List β}, as.mapM f = some bs → List.Forall₂ (fun a b => f a = some b) as bs
  | [], bs, h => by
    rw [List.mapM_nil] at h
    cases h
    exact .nil
  | a :: as, bs, h => by
    rw [List.mapM_cons] at h
    obtain ⟨b, hb, h⟩ := Option.bind_eq_some_iff.mp h
    obtain ⟨bs', hbs, h⟩ := Option.bind_eq_some_iff.mp h
    cases h
    exact .cons hb (forall₂_of_mapM hbs)

end Slimmer

import Mathlib.Data.List.Induction
import BundleMerge.Manifest.Merge

/-! Lists without their repetitions. -/
namespace BundleMerge.Manifest

/-- What is left of a list without the items that are related to an earlier one. -/
inductive Sifted (R : Json → Json → Prop) : List Json → List Json → Prop where
  | nil : Sifted R [] []
  | keep {items kept x} (sifted : Sifted R items kept) (new : ∀ y ∈ items, ¬R y x) :
      Sifted R (items ++ [x]) (kept ++ [x])
  | drop {items kept x y} (sifted : Sifted R items kept) (earlier : y ∈ items) (related : R y x) :
      Sifted R (items ++ [x]) kept

/-- An equality of the items of a list, which `same` tells. -/
structure Equates (same : Json → Json → Bool) (R : Json → Json → Prop) (items : List Json) :
    Prop where
  refl : ∀ x ∈ items, R x x
  symm : ∀ {x y}, R x y → R y x
  trans : ∀ {x y z}, R x y → R y z → R x z
  tells : ∀ x ∈ items, ∀ y, same x y = true ↔ R x y

/-- The items of a list that differ from all earlier ones: no two of them are equal, they stand in
their order, and for each item of the list the first one that is equal to it is there. -/
structure FirstsOf (R : Json → Json → Prop) (items kept : List Json) : Prop where
  sifted : Sifted R items kept
  unique : ∀ other, Sifted R items other → other = kept
  distinct : kept.Pairwise (¬R · ·)
  sublist : kept.Sublist items
  covers : ∀ x ∈ items, ∃ before y after, items = before ++ y :: after ∧
    y ∈ kept ∧ R y x ∧ ∀ z ∈ before, ¬R z x

variable {same : Json → Json → Bool} {R : Json → Json → Prop} {items kept more : List Json}
  {x : Json}

theorem Equates.left (equates : Equates same R (items ++ more)) : Equates same R items where
  refl x member := equates.refl x (List.mem_append_left _ member)
  symm := equates.symm
  trans := equates.trans
  tells x member := equates.tells x (List.mem_append_left _ member)

namespace Sifted

theorem append_iff : Sifted R (items ++ [x]) kept ↔
    (∃ before, kept = before ++ [x] ∧ Sifted R items before ∧ ∀ y ∈ items, ¬R y x) ∨
      Sifted R items kept ∧ ∃ y ∈ items, R y x := by
  constructor
  · intro sifted
    generalize whole : items ++ [x] = all at sifted
    cases sifted with
    | nil => simp at whole
    | keep sifted new =>
      obtain ⟨rfl, same⟩ := List.append_inj' whole rfl
      cases same
      exact .inl ⟨_, rfl, sifted, new⟩
    | drop sifted earlier related =>
      obtain ⟨rfl, same⟩ := List.append_inj' whole rfl
      cases same
      exact .inr ⟨sifted, _, earlier, related⟩
  · rintro (⟨before, rfl, sifted, new⟩ | ⟨sifted, y, earlier, related⟩)
    · exact .keep sifted new
    · exact .drop sifted earlier related

theorem unique {other : List Json} (sifted : Sifted R items kept) (again : Sifted R items other) :
    other = kept := by
  induction sifted generalizing other with
  | nil =>
    generalize whole : ([] : List Json) = items at again
    cases again with
    | nil => rfl
    | keep | drop => simp at whole
  | keep _ new ih =>
    obtain ⟨before, rfl, again, -⟩ | ⟨-, y, earlier, related⟩ := append_iff.mp again
    · rw [ih again]
    · exact absurd related (new y earlier)
  | drop _ earlier related ih =>
    obtain ⟨before, -, -, new⟩ | ⟨again, -⟩ := append_iff.mp again
    · exact absurd related (new _ earlier)
    · exact ih again

theorem sublist (sifted : Sifted R items kept) : kept.Sublist items := by
  induction sifted with
  | nil => exact .refl _
  | keep _ _ ih => exact ih.append (.refl _)
  | drop _ _ _ ih => exact ih.trans (List.sublist_append_left ..)

theorem distinct (sifted : Sifted R items kept) : kept.Pairwise (¬R · ·) := by
  induction sifted with
  | nil => exact .nil
  | keep sifted new ih =>
    refine List.pairwise_append.mpr ⟨ih, List.pairwise_singleton .., fun y member x last => ?_⟩
    rw [List.mem_singleton.mp last]
    exact new y (sifted.sublist.subset member)
  | drop _ _ _ ih => exact ih

theorem covers (sifted : Sifted R items kept) (equates : Equates same R items) :
    ∀ x ∈ items, ∃ before y after, items = before ++ y :: after ∧
      y ∈ kept ∧ R y x ∧ ∀ z ∈ before, ¬R z x := by
  induction sifted with
  | nil => exact nofun
  | @keep items kept last sifted new ih =>
    intro x member
    obtain member | here := List.mem_append.mp member
    · obtain ⟨before, y, after, rfl, inside, related, first⟩ := ih equates.left x member
      exact ⟨before, y, after ++ [last], by simp, List.mem_append_left _ inside, related, first⟩
    · obtain rfl := List.mem_singleton.mp here
      have reflexive := equates.refl x (List.mem_append_right _ here)
      exact ⟨items, x, [], rfl, List.mem_append_right _ here, reflexive, new⟩
  | @drop items kept last repeated sifted earlier again ih =>
    have extend : ∀ x ∈ items, ∃ before y after, items ++ [last] = before ++ y :: after ∧
        y ∈ kept ∧ R y x ∧ ∀ z ∈ before, ¬R z x := by
      intro x member
      obtain ⟨before, y, after, whole, found⟩ := ih equates.left x member
      exact ⟨before, y, after ++ [last], by simp [whole], found⟩
    intro x member
    obtain member | here := List.mem_append.mp member
    · exact extend x member
    · obtain rfl := List.mem_singleton.mp here
      obtain ⟨before, y, after, whole, inside, related, first⟩ := extend repeated earlier
      have new : ∀ z ∈ before, ¬R z x := fun z member there =>
        first z member (equates.trans there (equates.symm again))
      exact ⟨before, y, after, whole, inside, equates.trans related again, new⟩

end Sifted

theorem firsts_append (same : Json → Json → Bool) (items : List Json) (x : Json) :
    firsts same (items ++ [x]) =
      if (firsts same items).any (same · x) then firsts same items
      else firsts same items ++ [x] := by
  rw [firsts, List.foldl_append]
  rfl

theorem firsts_subset (same : Json → Json → Bool) (items : List Json) :
    firsts same items ⊆ items := by
  induction items using List.reverseRecOn with
  | nil => exact List.Subset.refl _
  | append_singleton items x ih =>
    have kept := List.subset_append_of_subset_left [x] ih
    rw [firsts_append]
    split
    · exact kept
    · exact List.append_subset.mpr ⟨kept, List.subset_append_right ..⟩

/-- Where an earlier item is equal, so is an earlier one that was kept. -/
theorem firsts_sifted (equates : Equates same R items) : Sifted R items (firsts same items) := by
  induction items using List.reverseRecOn with
  | nil => exact .nil
  | append_singleton items x ih =>
    have sifted := ih equates.left
    rw [firsts_append]
    split
    · next found =>
      obtain ⟨y, member, related⟩ := List.any_eq_true.mp found
      have earlier := sifted.sublist.subset member
      exact .drop sifted earlier ((equates.left.tells y earlier x).mp related)
    · next missing =>
      refine .keep sifted fun y earlier related => missing ?_
      obtain ⟨before, z, after, -, member, same, -⟩ := sifted.covers equates.left y earlier
      have early := sifted.sublist.subset member
      exact List.any_eq_true.mpr
        ⟨z, member, (equates.left.tells z early x).mpr (equates.trans same related)⟩

/-- Of the items that stay, none is the same as an earlier one. -/
theorem firsts_distinct (same : Json → Json → Bool) (items : List Json) :
    (firsts same items).Pairwise (same · · = false) := by
  induction items using List.reverseRecOn with
  | nil => exact .nil
  | append_singleton items x ih =>
    rw [firsts_append]
    split
    · exact ih
    · next new =>
      refine List.pairwise_append.mpr ⟨ih, List.pairwise_singleton .., fun y kept z last => ?_⟩
      rw [List.mem_singleton.mp last]
      exact Bool.eq_false_iff.mpr fun found => new (List.any_eq_true.mpr ⟨y, kept, found⟩)

/-- A list without repetitions is left as it is. -/
theorem firsts_of_distinct (distinct : items.Pairwise (same · · = false)) :
    firsts same items = items := by
  induction items using List.reverseRecOn with
  | nil => rfl
  | append_singleton items x ih =>
    obtain ⟨earlier, -, new⟩ := List.pairwise_append.mp distinct
    have missing : ¬ items.any (same · x) = true := by
      intro found
      obtain ⟨y, member, again⟩ := List.any_eq_true.mp found
      rw [new y member x (List.mem_singleton_self x)] at again
      cases again
    rw [firsts_append, ih earlier, if_neg missing]

theorem firsts_firstsOf (equates : Equates same R items) :
    FirstsOf R items (firsts same items) where
  sifted := firsts_sifted equates
  unique _ again := (firsts_sifted equates).unique again
  distinct := (firsts_sifted equates).distinct
  sublist := (firsts_sifted equates).sublist
  covers := (firsts_sifted equates).covers equates

end BundleMerge.Manifest

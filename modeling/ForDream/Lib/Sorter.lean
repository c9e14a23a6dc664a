import Mathlib.Data.List.Sort
import Mathlib.Order.Defs.Unbundled

/-!
# Sorting procedures

A `Sorter` sorts lists by a comparison, and all that is known of it is that it
returns a permutation of its input, which is in order when the comparison is a
strict weak order.  Nothing is assumed about the order in which it leaves elements
the comparison does not tell apart, so what is proved for every `Sorter` is proved
for stable and unstable sorts alike.

Sorting by a key leaves the keys ascending, and a list with pairwise distinct keys
has only one such arrangement.
-/

/-- A procedure that returns an ordered permutation of its input. -/
structure Sorter (α : Type*) where
  /-- The list, arranged by the comparison. -/
  sorted : (α → α → Bool) → List α → List α
  perm : ∀ lt l, (sorted lt l).Perm l
  ordered : ∀ lt l, IsStrictWeakOrder α (fun a b => lt a b = true) →
    (sorted lt l).Pairwise fun a b => lt b a = false

namespace Sorter

variable {α β : Type*}

/-- Sorting by insertion. -/
def insertion : Sorter α where
  sorted lt l := l.insertionSort fun a b => lt b a = false
  perm _ l := List.perm_insertionSort _ l
  ordered lt l h := by
    have total : Std.Total fun a b => lt b a = false := ⟨fun a b => by
      by_contra hab
      simp only [not_or, Bool.not_eq_false] at hab
      apply h.irrefl a (h.trans a b a hab.2 hab.1)⟩
    have trans : IsTrans α fun a b => lt b a = false := ⟨fun a b c hab hbc => by
      by_contra hca
      simp only [Bool.not_eq_false] at hca
      by_cases hcb : lt a b = true
      · have hcb' := h.trans c a b hca hcb
        simp [hbc] at hcb'
      · by_cases hbc' : lt b c = true
        · have hba := h.trans b c a hbc' hca
          simp [hab] at hba
        · obtain ⟨hac, -⟩ := h.incomp_trans c b a ⟨by simp [hbc], hbc'⟩ ⟨by simp [hab], hcb⟩
          apply hac hca⟩
    apply List.pairwise_insertionSort

variable (S : Sorter α)

@[simp]
theorem mem_sorted {lt : α → α → Bool} {l : List α} {a : α} :
  a ∈ S.sorted lt l ↔ a ∈ l
  := (S.perm lt l).mem_iff

@[simp]
theorem length_sorted (lt : α → α → Bool) (l : List α) :
  (S.sorted lt l).length = l.length
  := (S.perm lt l).length_eq

@[simp]
theorem sorted_nil (lt : α → α → Bool) :
  S.sorted lt [] = []
  := (S.perm lt []).eq_nil

variable [LinearOrder β] (key : α → β)

/-- Comparing keys is a strict weak order. -/
theorem isStrictWeakOrder_key :
  IsStrictWeakOrder α fun a b => decide (key a < key b) = true
  where
  irrefl a := by simp
  trans a b c := by simpa using lt_trans
  incomp_trans a b c := by
    simp only [decide_eq_true_eq, not_lt]
    rintro ⟨hba, hab⟩ ⟨hcb, hbc⟩
    use hcb.trans hba, hab.trans hbc

/-- Sorting by a key leaves the keys ascending. -/
theorem sorted_key (l : List α) :
  (S.sorted (fun a b => decide (key a < key b)) l).Pairwise fun a b => key a ≤ key b
  := by
  apply (S.ordered _ l (isStrictWeakOrder_key key)).imp
  intro a b h
  simpa using h

/-- Sorting by a key the other way round leaves the keys descending. -/
theorem sorted_key_reverse (l : List α) :
  (S.sorted (fun a b => decide (key a > key b)) l).Pairwise fun a b => key b ≤ key a
  := by
  apply (S.ordered _ l (isStrictWeakOrder_key fun a => OrderDual.toDual (key a))).imp
  intro a b h
  simpa using h

omit [LinearOrder β] in
/-- A list with pairwise distinct keys has only one arrangement in which the keys are in
order. -/
theorem eq_of_perm_of_nodup [PartialOrder β] {l l' : List α} (hperm : l.Perm l')
    (hl : l.Pairwise fun a b => key a ≤ key b) (hl' : l'.Pairwise fun a b => key a ≤ key b)
    (hnodup : (l.map key).Nodup) :
  l = l'
  := by
  apply hperm.eq_of_pairwise _ hl hl'
  intro a b ha hb hab hba
  apply List.inj_on_of_nodup_map hnodup ha (hperm.mem_iff.mpr hb) (le_antisymm hab hba)

end Sorter

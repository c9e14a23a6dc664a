import Mathlib.Data.List.Basic
import Mathlib.Data.List.Chain

/-!
# Association lists in the order of a comparator

A comparator compares keys by a total preorder, so that different keys may compare
as the same.  An association list is ascending when the keys of its entries strictly
ascend.  Around a key such a list falls into the entries `below` it, at most one
entry at it and the entries `above` it; `lookup`, `erase` and insertion are given by
these parts.
-/

/-- A comparison of keys by a total preorder. -/
structure Comparator (κ : Type*) where
  compare : κ → κ → Ordering
  trans : Std.TransCmp compare

namespace Comparator

variable {κ : Type*}

instance : CoeFun (Comparator κ) fun _ => κ → κ → Ordering := ⟨compare⟩

instance (cmp : Comparator κ) : Std.TransCmp cmp := cmp.trans

/-- The comparison of an ordered type. -/
def ofOrd (κ : Type*) [Ord κ] [Std.TransOrd κ] : Comparator κ where
  compare := Ord.compare
  trans := inferInstanceAs (Std.TransOrd κ)

/-- The comparison of what keys are mapped to. -/
def comap {κ' : Type*} (cmp : Comparator κ) (f : κ' → κ) : Comparator κ' where
  compare a b := cmp (f a) (f b)
  trans :=
    { eq_swap := Std.OrientedCmp.eq_swap
      isLE_trans := Std.TransCmp.isLE_trans }

variable {cmp : Comparator κ} {a b c : κ}

@[simp]
theorem refl (cmp : Comparator κ) (a : κ) :
  cmp a a = .eq
  := Std.ReflCmp.compare_self

theorem lt_trans (hab : cmp a b = .lt) (hbc : cmp b c = .lt) :
  cmp a c = .lt
  := Std.TransCmp.lt_trans hab hbc

theorem gt_iff :
  cmp a b = .gt ↔ cmp b a = .lt
  := Std.OrientedCmp.gt_iff_lt

theorem eq_comm :
  cmp a b = .eq ↔ cmp b a = .eq
  := Std.OrientedCmp.eq_comm

/-- Keys that compare as the same compare alike with every key. -/
theorem congr_left (h : cmp a b = .eq) (c : κ) :
  cmp a c = cmp b c
  := Std.TransCmp.congr_left h

theorem congr_right (c : κ) (h : cmp a b = .eq) :
  cmp c a = cmp c b
  := Std.TransCmp.congr_right h

/-- A key not before `b` is not before what is before `b`. -/
theorem gt_of_ge_of_lt (hab : cmp a b ≠ .lt) (hcb : cmp c b = .lt) :
  cmp a c = .gt
  := by
  rcases h : cmp a b with _ | _ | _
  · contradiction
  · rw [congr_left h, gt_iff]
    exact hcb
  · rw [gt_iff] at h ⊢
    apply lt_trans hcb h

end Comparator

namespace Assoc

variable {κ ν : Type*} (cmp : Comparator κ)

/-- The keys of the entries strictly ascend. -/
def Ascending (l : List (κ × ν)) : Prop := l.Pairwise fun p q => cmp p.1 q.1 = .lt

/-- No two entries have keys that compare as the same. -/
def Distinct (l : List (κ × ν)) : Prop := l.Pairwise fun p q => cmp p.1 q.1 ≠ .eq

/-- The value of the first entry whose key compares as the same. -/
def lookup (l : List (κ × ν)) (k : κ) : Option ν :=
  (l.find? fun p => cmp k p.1 = .eq).map Prod.snd

/-- The entries whose keys are before `k`. -/
def below (k : κ) (l : List (κ × ν)) : List (κ × ν) := l.filter fun p => cmp k p.1 = .gt

/-- The entries whose keys are after `k`. -/
def above (k : κ) (l : List (κ × ν)) : List (κ × ν) := l.filter fun p => cmp k p.1 = .lt

/-- The entries whose keys do not compare as the same as `k`. -/
def erase (k : κ) (l : List (κ × ν)) : List (κ × ν) := below cmp k l ++ above cmp k l

/-- The entries with one in the place of `k`. -/
def insert (k : κ) (v : ν) (l : List (κ × ν)) : List (κ × ν) :=
  below cmp k l ++ (k, v) :: above cmp k l

variable {cmp} {k k' : κ} {v : ν} {e : κ × ν} {l r : List (κ × ν)}

theorem ascending_append :
  Ascending cmp (l ++ e :: r)
    ↔ Ascending cmp l ∧ Ascending cmp r ∧ (∀ p ∈ l, cmp p.1 e.1 = .lt)
      ∧ (∀ q ∈ r, cmp e.1 q.1 = .lt)
  := by
  constructor
  · intro h
    rw [Ascending, List.pairwise_append, List.pairwise_cons] at h
    obtain ⟨hl, ⟨her, hr⟩, hlr⟩ := h
    use hl, hr, fun p hp => hlr p hp e (by simp)
  · rintro ⟨hl, hr, hle, her⟩
    rw [Ascending, List.pairwise_append, List.pairwise_cons]
    use hl, ⟨her, hr⟩
    intro p hp q hq
    rcases List.mem_cons.mp hq with rfl | hq
    · apply hle p hp
    · apply Comparator.lt_trans (hle p hp) (her q hq)

theorem Ascending.left (h : Ascending cmp (l ++ e :: r)) : Ascending cmp l :=
  (ascending_append.mp h).1

theorem Ascending.right (h : Ascending cmp (l ++ e :: r)) : Ascending cmp r :=
  (ascending_append.mp h).2.1

theorem below_eq_self (h : ∀ p ∈ l, cmp p.1 k = .lt) :
  below cmp k l = l
  := by
  rw [below, List.filter_eq_self]
  intro p hp
  simpa [Comparator.gt_iff] using h p hp

theorem below_eq_nil (h : ∀ p ∈ l, cmp k p.1 = .lt) :
  below cmp k l = []
  := by
  rw [below, List.filter_eq_nil_iff]
  intro p hp
  simp [h p hp]

theorem above_eq_self (h : ∀ p ∈ l, cmp k p.1 = .lt) :
  above cmp k l = l
  := by
  rw [above, List.filter_eq_self]
  intro p hp
  simpa using h p hp

theorem above_eq_nil (h : ∀ p ∈ l, cmp p.1 k = .lt) :
  above cmp k l = []
  := by
  rw [above, List.filter_eq_nil_iff]
  intro p hp
  simp [Comparator.gt_iff.mpr (h p hp)]

/-- The keys beyond an entry that is after `k` are after `k`. -/
theorem lt_of_lt_entry (h : Ascending cmp (l ++ e :: r)) (hk : cmp k e.1 = .lt) :
  ∀ q ∈ e :: r, cmp k q.1 = .lt
  := by
  intro q hq
  rcases List.mem_cons.mp hq with rfl | hq
  · exact hk
  · apply Comparator.lt_trans hk ((ascending_append.mp h).2.2.2 q hq)

/-- The keys up to an entry that is before `k` are before `k`. -/
theorem gt_of_gt_entry (h : Ascending cmp (l ++ e :: r)) (hk : cmp k e.1 = .gt) :
  ∀ p ∈ l ++ [e], cmp p.1 k = .lt
  := by
  intro p hp
  rw [Comparator.gt_iff] at hk
  rcases List.mem_append.mp hp with hp | hp
  · apply Comparator.lt_trans ((ascending_append.mp h).2.2.1 p hp) hk
  · obtain rfl := List.mem_singleton.mp hp
    exact hk

section Parts

variable (h : Ascending cmp (l ++ e :: r))

include h

theorem below_of_lt (hk : cmp k e.1 = .lt) :
  below cmp k (l ++ e :: r) = below cmp k l
  := by
  have hnil := below_eq_nil (lt_of_lt_entry h hk)
  rw [below, List.filter_append]
  change below cmp k l ++ below cmp k (e :: r) = _
  rw [hnil, List.append_nil]

theorem above_of_lt (hk : cmp k e.1 = .lt) :
  above cmp k (l ++ e :: r) = above cmp k l ++ e :: r
  := by
  have hself := above_eq_self (lt_of_lt_entry h hk)
  rw [above, List.filter_append]
  change above cmp k l ++ above cmp k (e :: r) = _
  rw [hself]

theorem below_of_eq (hk : cmp k e.1 = .eq) :
  below cmp k (l ++ e :: r) = l
  := by
  obtain ⟨-, -, hle, her⟩ := ascending_append.mp h
  have hl : below cmp k l = l := by
    apply below_eq_self
    intro p hp
    rw [Comparator.congr_right _ hk]
    apply hle p hp
  have hr : below cmp k r = [] := by
    apply below_eq_nil
    intro q hq
    rw [Comparator.congr_left hk]
    apply her q hq
  rw [below, List.filter_append, List.filter_cons_of_neg (by simp [hk])]
  change below cmp k l ++ below cmp k r = _
  rw [hl, hr, List.append_nil]

theorem above_of_eq (hk : cmp k e.1 = .eq) :
  above cmp k (l ++ e :: r) = r
  := by
  obtain ⟨-, -, hle, her⟩ := ascending_append.mp h
  have hl : above cmp k l = [] := by
    apply above_eq_nil
    intro p hp
    rw [Comparator.congr_right _ hk]
    apply hle p hp
  have hr : above cmp k r = r := by
    apply above_eq_self
    intro q hq
    rw [Comparator.congr_left hk]
    apply her q hq
  rw [above, List.filter_append, List.filter_cons_of_neg (by simp [hk])]
  change above cmp k l ++ above cmp k r = _
  rw [hl, hr, List.nil_append]

theorem below_of_gt (hk : cmp k e.1 = .gt) :
  below cmp k (l ++ e :: r) = l ++ e :: below cmp k r
  := by
  have hself := below_eq_self (gt_of_gt_entry h hk)
  rw [List.append_cons l e r, below, List.filter_append]
  change below cmp k (l ++ [e]) ++ below cmp k r = _
  rw [hself, ← List.append_cons]

theorem above_of_gt (hk : cmp k e.1 = .gt) :
  above cmp k (l ++ e :: r) = above cmp k r
  := by
  have hnil := above_eq_nil (gt_of_gt_entry h hk)
  rw [List.append_cons l e r, above, List.filter_append]
  change above cmp k (l ++ [e]) ++ above cmp k r = _
  rw [hnil, List.nil_append]

theorem erase_of_lt (hk : cmp k e.1 = .lt) :
  erase cmp k (l ++ e :: r) = erase cmp k l ++ e :: r
  := by
  rw [erase, below_of_lt h hk, above_of_lt h hk, erase, List.append_assoc]

theorem erase_of_eq (hk : cmp k e.1 = .eq) :
  erase cmp k (l ++ e :: r) = l ++ r
  := by
  rw [erase, below_of_eq h hk, above_of_eq h hk]

theorem erase_of_gt (hk : cmp k e.1 = .gt) :
  erase cmp k (l ++ e :: r) = l ++ e :: erase cmp k r
  := by
  rw [erase, below_of_gt h hk, above_of_gt h hk, erase, List.append_assoc, List.cons_append]

end Parts

theorem Ascending.distinct (h : Ascending cmp l) :
  Distinct cmp l
  := by
  apply h.imp
  intro p q hpq
  simp [hpq]

/-- The values a list without a repeated key gives to a key. -/
theorem Distinct.lookup_eq_some_iff (h : Distinct cmp l) :
  lookup cmp l k = some v ↔ ∃ k', (k', v) ∈ l ∧ cmp k k' = .eq
  := by
  induction l with
  | nil => simp [lookup]
  | cons e l ih =>
    obtain ⟨he, hl⟩ := List.pairwise_cons.mp h
    rw [lookup]
    by_cases hk : cmp k e.1 = .eq
    · rw [List.find?_cons_of_pos (by simpa using hk)]
      constructor
      · intro hv
        obtain rfl := Option.some.inj hv
        use e.1, by simp
      · rintro ⟨k', hmem, hk'⟩
        rcases List.mem_cons.mp hmem with rfl | hmem
        · rfl
        · rw [Comparator.congr_left hk] at hk'
          exact absurd hk' (he _ hmem)
    · rw [List.find?_cons_of_neg (by simpa using hk)]
      change lookup cmp l k = some v ↔ _
      rw [ih hl]
      constructor
      · rintro ⟨k', hmem, hk'⟩
        use k', by simp [hmem]
      · rintro ⟨k', hmem, hk'⟩
        rcases List.mem_cons.mp hmem with rfl | hmem
        · contradiction
        · use k'

theorem lookup_eq_some_iff (h : Ascending cmp l) :
  lookup cmp l k = some v ↔ ∃ k', (k', v) ∈ l ∧ cmp k k' = .eq
  := h.distinct.lookup_eq_some_iff

theorem lookup_eq_none_iff :
  lookup cmp l k = none ↔ ∀ p ∈ l, cmp k p.1 ≠ .eq
  := by
  simp [lookup]

theorem mem_below :
  e ∈ below cmp k l ↔ e ∈ l ∧ cmp e.1 k = .lt
  := by
  simp [below, Comparator.gt_iff]

theorem mem_above :
  e ∈ above cmp k l ↔ e ∈ l ∧ cmp k e.1 = .lt
  := by
  simp [above]

/-- An entry in the place of a key leaves an ascending list ascending. -/
theorem Ascending.insert (h : Ascending cmp l) (hk : cmp k k' = .eq) :
  Ascending cmp (below cmp k l ++ (k', v) :: above cmp k l)
  := by
  rw [ascending_append]
  refine ⟨h.filter _, h.filter _, ?_, ?_⟩
  · intro p hp
    rw [← Comparator.congr_right _ hk]
    apply (mem_below.mp hp).2
  · intro q hq
    rw [← Comparator.congr_left hk]
    apply (mem_above.mp hq).2

theorem Ascending.erase (h : Ascending cmp l) :
  Ascending cmp (erase cmp k l)
  := by
  rw [Ascending, Assoc.erase, List.pairwise_append]
  refine ⟨h.filter _, h.filter _, ?_⟩
  intro p hp q hq
  apply Comparator.lt_trans (mem_below.mp hp).2 (mem_above.mp hq).2

theorem mem_of_cmp (he : e ∈ l) (hne : cmp k e.1 ≠ .eq) :
  e ∈ below cmp k l ∨ e ∈ above cmp k l
  := by
  rw [mem_below, mem_above, ← Comparator.gt_iff]
  rcases hcmp : cmp k e.1 with _ | _ | _
  · exact .inr ⟨he, rfl⟩
  · contradiction
  · exact .inl ⟨he, rfl⟩

/-- What a list with an entry in the place of a key gives to the keys. -/
theorem lookup_insert (h : Ascending cmp l) (hk : cmp k k' = .eq) (j : κ) :
  lookup cmp (below cmp k l ++ (k', v) :: above cmp k l) j
    = if cmp j k = .eq then some v else lookup cmp l j
  := by
  have hasc : Ascending cmp (below cmp k l ++ (k', v) :: above cmp k l) := h.insert hk
  ext w
  rw [lookup_eq_some_iff hasc]
  split
  case isTrue hj =>
    constructor
    · rintro ⟨i, hmem, hi⟩
      have hki : cmp k i = .eq := by rw [← Comparator.congr_left hj, hi]
      simp only [List.mem_append, List.mem_cons, mem_below, mem_above, Comparator.eq_comm.mp hki,
        hki, Prod.mk.injEq] at hmem
      simp_all
    · intro hw
      obtain rfl := Option.some.inj hw
      use k', by simp
      rw [Comparator.congr_left hj, hk]
  case isFalse hj =>
    rw [lookup_eq_some_iff h]
    constructor
    · rintro ⟨i, hmem, hi⟩
      simp only [List.mem_append, List.mem_cons, mem_below, mem_above] at hmem
      rcases hmem with hmem | hmem | hmem
      · use i, hmem.1
      · obtain ⟨rfl, rfl⟩ := Prod.mk.inj hmem
        rw [← Comparator.congr_right _ hk] at hi
        contradiction
      · use i, hmem.1
    · rintro ⟨i, hmem, hi⟩
      use i
      refine ⟨?_, hi⟩
      have hne : cmp k i ≠ .eq := by
        intro hki
        apply hj
        rw [Comparator.congr_right _ hki, hi]
      rcases mem_of_cmp (e := (i, w)) hmem hne with hmem | hmem <;> simp [hmem]

theorem lookup_erase (h : Ascending cmp l) (j : κ) :
  lookup cmp (erase cmp k l) j = if cmp j k = .eq then none else lookup cmp l j
  := by
  ext w
  rw [lookup_eq_some_iff h.erase]
  split
  case isTrue hj =>
    constructor
    · rintro ⟨i, hmem, hi⟩
      have hki : cmp k i = .eq := by rw [← Comparator.congr_left hj, hi]
      simp [Assoc.erase, mem_below, mem_above, hki, Comparator.eq_comm.mp hki] at hmem
    · intro hw
      cases hw
  case isFalse hj =>
    rw [lookup_eq_some_iff h]
    constructor
    · rintro ⟨i, hmem, hi⟩
      use i
      rcases List.mem_append.mp hmem with hmem | hmem
      · use (mem_below.mp hmem).1
      · use (mem_above.mp hmem).1
    · rintro ⟨i, hmem, hi⟩
      use i
      refine ⟨?_, hi⟩
      have hne : cmp k i ≠ .eq := by
        intro hki
        apply hj
        rw [Comparator.congr_right _ hki, hi]
      apply List.mem_append.mpr (mem_of_cmp (e := (i, w)) hmem hne)

/-- An entry of an ascending list determines the parts around it. -/
theorem lookup_of_lt (h : Ascending cmp (l ++ e :: r)) (hk : cmp k e.1 = .lt) :
  lookup cmp (l ++ e :: r) k = lookup cmp l k
  := by
  have hnone : (e :: r).find? (fun p => cmp k p.1 = .eq) = none := by
    rw [List.find?_eq_none]
    intro q hq
    simp [lt_of_lt_entry h hk q hq]
  rw [lookup, List.find?_append, hnone, Option.or_none, lookup]

theorem lookup_of_gt (h : Ascending cmp (l ++ e :: r)) (hk : cmp k e.1 = .gt) :
  lookup cmp (l ++ e :: r) k = lookup cmp r k
  := by
  have hnone : (l ++ [e]).find? (fun p => cmp k p.1 = .eq) = none := by
    rw [List.find?_eq_none]
    intro q hq
    simp [Comparator.gt_iff.mpr (gt_of_gt_entry h hk q hq)]
  rw [List.append_cons l e r, lookup, List.find?_append, hnone, Option.none_or, lookup]

theorem lookup_of_eq (h : Ascending cmp (l ++ e :: r)) (hk : cmp k e.1 = .eq) :
  lookup cmp (l ++ e :: r) k = some e.2
  := by
  rw [lookup_eq_some_iff h]
  use e.1, by simp

/-- Around a key that it lacks an ascending list is what is below and what is above. -/
theorem below_append_above (h : Ascending cmp l) (hk : lookup cmp l k = none) :
  below cmp k l ++ above cmp k l = l
  := by
  rw [lookup_eq_none_iff] at hk
  induction l with
  | nil => rfl
  | cons e l ih =>
    have hasc : Ascending cmp ([] ++ e :: l) := h
    have hl := ih (List.pairwise_cons.mp h).2 (fun p hp => hk p (by simp [hp]))
    rcases he : cmp k e.1 with _ | _ | _
    · have hbelow := below_of_lt hasc he
      have habove := above_of_lt hasc he
      simp only [List.nil_append] at hbelow habove
      rw [hbelow, habove]
      rfl
    · exact absurd he (hk e (by simp))
    · have hbelow := below_of_gt hasc he
      have habove := above_of_gt hasc he
      simp only [List.nil_append] at hbelow habove
      rw [hbelow, habove, List.cons_append, hl]

theorem erase_eq_self (h : Ascending cmp l) (hk : lookup cmp l k = none) :
  erase cmp k l = l
  := below_append_above h hk

/-- An ascending list all of whose entries another one has is not longer; if it is not
shorter either, the two give the same values. -/
theorem Ascending.lookup_eq_of_length
    (hl : Ascending cmp l) (hr : Ascending cmp r)
    (hmatch : ∀ p ∈ l, lookup cmp r p.1 = some p.2) :
  l.length ≤ r.length ∧ (r.length ≤ l.length → ∀ k, lookup cmp l k = lookup cmp r k)
  := by
  induction l generalizing r with
  | nil =>
    use Nat.zero_le _
    intro hlen k
    rw [List.length_nil, Nat.le_zero, List.length_eq_zero_iff] at hlen
    rw [hlen]
  | cons p l ih =>
    have hpl : Ascending cmp ([] ++ p :: l) := hl
    obtain ⟨k', hmem, hk'⟩ := (lookup_eq_some_iff hr).mp (hmatch p (by simp))
    obtain ⟨a, b, rfl⟩ := List.append_of_mem hmem
    -- the other entries are after this one, and so is what they match
    have hmatch' : ∀ q ∈ l, lookup cmp b q.1 = some q.2 := by
      intro q hq
      have hgt : cmp q.1 k' = .gt := by
        rw [Comparator.gt_iff, ← Comparator.congr_left hk']
        apply (ascending_append.mp hpl).2.2.2 q hq
      rw [← hmatch q (by simp [hq]), lookup_of_gt hr hgt]
    obtain ⟨hle, heq⟩ := ih hpl.right hr.right hmatch'
    simp only [List.length_append, List.length_cons]
    refine ⟨by omega, ?_⟩
    intro hlen k
    obtain rfl : a = [] := by
      rw [← List.length_eq_zero_iff]
      omega
    have hkeys := Comparator.congr_right k hk'
    change lookup cmp ([] ++ p :: l) k = _
    rcases hcmp : cmp k p.1 with _ | _ | _
    · rw [lookup_of_lt hpl hcmp, lookup_of_lt hr (hkeys.symm.trans hcmp)]
    · rw [lookup_of_eq hpl hcmp, lookup_of_eq hr (hkeys.symm.trans hcmp)]
    · rw [lookup_of_gt hpl hcmp, lookup_of_gt hr (hkeys.symm.trans hcmp)]
      apply heq (by simpa using hlen)

section Sorting

variable (cmp)

/-- The entries sorted by their keys. -/
def sort (l : List (κ × ν)) : List (κ × ν) := l.mergeSort fun p q => (cmp p.1 q.1).isLE

variable {cmp}

theorem sort_perm (l : List (κ × ν)) :
  (sort cmp l).Perm l
  := List.mergeSort_perm _ _

theorem ascending_iff_isChain :
  Ascending cmp l ↔ l.IsChain fun p q => cmp p.1 q.1 = .lt
  := by
  have : IsTrans (κ × ν) fun p q => cmp p.1 q.1 = .lt := ⟨fun _ _ _ => Comparator.lt_trans⟩
  apply List.isChain_iff_pairwise.symm

theorem distinct_of_perm (hperm : l.Perm r) :
  Distinct cmp l ↔ Distinct cmp r
  := by
  apply hperm.pairwise_iff
  intro p q hpq hqp
  apply hpq (Comparator.eq_comm.mp hqp)

/-- Sorting leaves strictly ascending keys exactly when no two compare as the same. -/
theorem ascending_sort_iff :
  Ascending cmp (sort cmp l) ↔ Distinct cmp l
  := by
  constructor
  · intro h
    rw [← distinct_of_perm (sort_perm l)]
    exact h.distinct
  · intro h
    have hle : (sort cmp l).Pairwise fun p q => (cmp p.1 q.1).isLE = true := by
      apply List.pairwise_mergeSort
      · intro p q s
        apply Std.TransCmp.isLE_trans
      · intro p q
        have hswap : cmp p.1 q.1 = (cmp q.1 p.1).swap := Std.OrientedCmp.eq_swap
        rw [hswap]
        cases cmp q.1 p.1 <;> rfl
    have hne : Distinct cmp (sort cmp l) := (distinct_of_perm (sort_perm l)).mpr h
    apply (hle.and hne).imp
    rintro p q ⟨hpq, hpq'⟩
    rcases hcmp : cmp p.1 q.1 with _ | _ | _ <;> simp_all

theorem isChain_sort_iff :
  (sort cmp l).IsChain (fun p q => cmp p.1 q.1 = .lt) ↔ Distinct cmp l
  := by
  rw [← ascending_iff_isChain, ascending_sort_iff]

/-- Ascending lists with the same entries are the same. -/
theorem Ascending.eq_of_perm (hl : Ascending cmp l) (hr : Ascending cmp r) (hperm : l.Perm r) :
  l = r
  := by
  apply List.Perm.eq_of_pairwise _ hl hr hperm
  intro p q _ _ hpq hqp
  rw [← Comparator.gt_iff, hpq] at hqp
  cases hqp

end Sorting

theorem lookup_cons_self (k : κ) (v : ν) (l : List (κ × ν)) :
  lookup cmp ((k, v) :: l) k = some v
  := by
  rw [lookup, List.find?_cons_of_pos (by simp)]
  rfl

/-- Ascending keys are different. -/
theorem Ascending.keys_ne (h : Ascending cmp l) :
  l.Pairwise fun d e => d.1 ≠ e.1
  := by
  apply h.imp
  intro d e hlt heq
  rw [heq, Comparator.refl] at hlt
  cases hlt

theorem lookup_map {μ : Type*} (f : ν → μ) (l : List (κ × ν)) (k : κ) :
  lookup cmp (l.map fun e => (e.1, f e.2)) k = (lookup cmp l k).map f
  := by
  rw [lookup, List.find?_map, Option.map_map, lookup, Option.map_map]
  rfl

theorem lookup_insert_self (h : Ascending cmp l) (k : κ) (v : ν) :
  lookup cmp (insert cmp k v l) k = some v
  := by
  rw [insert, lookup_insert h (Comparator.refl cmp k), if_pos (Comparator.refl cmp k)]

theorem lookup_erase_self (h : Ascending cmp l) (k : κ) :
  lookup cmp (erase cmp k l) k = none
  := by
  rw [lookup_erase h, if_pos (Comparator.refl cmp k)]

section Lawful

/-! ### Comparators that tell all keys apart -/

variable (lawful : ∀ {a b : κ}, cmp a b = .eq → a = b)

include lawful

theorem cmp_eq_iff {a b : κ} :
  cmp a b = .eq ↔ a = b
  := by
  constructor
  · exact lawful
  · rintro rfl
    exact Comparator.refl cmp a

theorem Ascending.mem_iff_lookup (h : Ascending cmp l) :
  (k, v) ∈ l ↔ lookup cmp l k = some v
  := by
  rw [lookup_eq_some_iff h]
  constructor
  · intro hmem
    use k, hmem, Comparator.refl cmp k
  · rintro ⟨k', hmem, hk'⟩
    rwa [lawful hk']

theorem mem_keys_iff :
  k ∈ l.map Prod.fst ↔ (lookup cmp l k).isSome = true
  := by
  rw [← Option.ne_none_iff_isSome, ne_eq, lookup_eq_none_iff, List.mem_map]
  constructor
  · rintro ⟨e, he, rfl⟩ hne
    exact hne e he (Comparator.refl cmp e.1)
  · intro hex
    push Not at hex
    obtain ⟨e, he, heq⟩ := hex
    exact ⟨e, he, (lawful heq).symm⟩

/-- Ascending lists that give every key the same value are the same. -/
theorem Ascending.ext (hl : Ascending cmp l) (hr : Ascending cmp r)
    (h : ∀ k, lookup cmp l k = lookup cmp r k) :
  l = r
  := by
  have hnodup : ∀ {s : List (κ × ν)}, Ascending cmp s → s.Nodup := by
    intro s hs
    apply hs.imp
    rintro p q hpq rfl
    rw [Comparator.refl] at hpq
    cases hpq
  apply hl.eq_of_perm hr
  rw [List.perm_ext_iff_of_nodup (hnodup hl) (hnodup hr)]
  rintro ⟨k, v⟩
  rw [hl.mem_iff_lookup lawful, hr.mem_iff_lookup lawful, h]

theorem lookup_cons_of_ne {j k : κ} (hne : j ≠ k) {v : ν} {l : List (κ × ν)} :
  lookup cmp ((k, v) :: l) j = lookup cmp l j
  := by
  rw [lookup, List.find?_cons_of_neg, lookup]
  simpa using fun h => hne (lawful h)

theorem lookup_insert_of_ne (h : Ascending cmp l) {j k : κ} (hne : j ≠ k) (v : ν) :
  lookup cmp (insert cmp k v l) j = lookup cmp l j
  := by
  rw [insert, lookup_insert h (Comparator.refl cmp k), if_neg]
  intro hjk
  apply hne (lawful hjk)

theorem lookup_erase_of_ne (h : Ascending cmp l) {j k : κ} (hne : j ≠ k) :
  lookup cmp (erase cmp k l) j = lookup cmp l j
  := by
  rw [lookup_erase h, if_neg]
  intro hjk
  apply hne (lawful hjk)

end Lawful

theorem ascending_insert (h : Ascending cmp l) (k : κ) (v : ν) :
  Ascending cmp (insert cmp k v l)
  := h.insert (Comparator.refl cmp k)

/-- An entry whose key is after all others is inserted at the end. -/
theorem insert_eq_append (h : ∀ p ∈ l, cmp p.1 k = .lt) (v : ν) :
  insert cmp k v l = l ++ [(k, v)]
  := by
  rw [insert, below_eq_self h, above_eq_nil h]

theorem mem_insert :
  e ∈ insert cmp k v l ↔ (e ∈ l ∧ cmp k e.1 ≠ .eq) ∨ e = (k, v)
  := by
  rw [insert, List.mem_append, List.mem_cons, mem_below, mem_above, ← Comparator.gt_iff]
  constructor
  · rintro (⟨hmem, hgt⟩ | rfl | ⟨hmem, hlt⟩)
    · exact .inl ⟨hmem, by simp [hgt]⟩
    · exact .inr rfl
    · exact .inl ⟨hmem, by simp [hlt]⟩
  · rintro (⟨hmem, hne⟩ | rfl)
    · rcases hcmp : cmp k e.1 with _ | _ | _
      · exact .inr (.inr ⟨hmem, rfl⟩)
      · contradiction
      · exact .inl ⟨hmem, rfl⟩
    · exact .inr (.inl rfl)

theorem mem_of_mem_erase (h : e ∈ erase cmp k l) :
  e ∈ l
  := by
  rcases List.mem_append.mp h with h | h
  · exact (mem_below.mp h).1
  · exact (mem_above.mp h).1

section Sparse

/-! ### Lists that leave empty values out

A key that the list lacks has the empty value, and to store an empty value is to erase
the key.
-/

variable (cmp) (isEmpty : ν → Bool)

/-- The entries with a value under a key, without the key if the value is empty. -/
def store (k : κ) (v : ν) (l : List (κ × ν)) : List (κ × ν) :=
  if isEmpty v then erase cmp k l else insert cmp k v l

/-- The value under a key, the empty one if there is none. -/
def lookupD (l : List (κ × ν)) (k : κ) (empty : ν) : ν := (lookup cmp l k).getD empty

variable {cmp isEmpty} {j : κ} {empty : ν}

theorem ascending_store (h : Ascending cmp l) (k : κ) (v : ν) :
  Ascending cmp (store cmp isEmpty k v l)
  := by
  rw [store]
  split
  · exact h.erase
  · apply ascending_insert h

theorem mem_store (he : e ∈ store cmp isEmpty k v l) :
  e ∈ l ∨ e = (k, v) ∧ isEmpty v = false
  := by
  rw [store] at he
  split at he
  · exact .inl (mem_of_mem_erase he)
  case isFalse hempty =>
    rcases mem_insert.mp he with ⟨he, -⟩ | he
    · exact .inl he
    · exact .inr ⟨he, by simpa using hempty⟩

theorem lookupD_store_self (h : Ascending cmp l) (hv : isEmpty v = true → v = empty) :
  lookupD cmp (store cmp isEmpty k v l) k empty = v
  := by
  rw [lookupD, store]
  split
  case isTrue hempty =>
    rw [lookup_erase_self h, hv hempty]
    rfl
  case isFalse =>
    rw [lookup_insert_self h]
    rfl

theorem lookupD_mem {P : ν → Prop} (h : ∀ e ∈ l, P e.2) (hempty : P empty) (k : κ) :
  P (lookupD cmp l k empty)
  := by
  rw [lookupD, lookup]
  rcases hfind : l.find? _ with _ | e
  · exact hempty
  · apply h e (List.mem_of_find?_eq_some hfind)

/-- A value that is not the one for missing keys is there. -/
theorem lookup_of_lookupD (h : lookupD cmp l k empty = v) (hv : v ≠ empty) :
  lookup cmp l k = some v
  := by
  rw [lookupD] at h
  rcases hk : lookup cmp l k with _ | w
  · rw [hk, Option.getD_none] at h
    exact absurd h.symm hv
  · rw [hk, Option.getD_some] at h
    rw [h]

variable (lawful : ∀ {a b : κ}, cmp a b = .eq → a = b)

include lawful

theorem lookupD_store_of_ne (h : Ascending cmp l) (hne : j ≠ k) :
  lookupD cmp (store cmp isEmpty k v l) j empty = lookupD cmp l j empty
  := by
  rw [lookupD, store]
  split
  · rw [lookup_erase_of_ne lawful h hne, lookupD]
  · rw [lookup_insert_of_ne lawful h hne, lookupD]

/-- Lists without empty values are told apart by what is under the keys. -/
theorem Ascending.ext_lookupD (hl : Ascending cmp l) (hr : Ascending cmp r)
    (hempty : isEmpty empty = true) (hl' : ∀ e ∈ l, isEmpty e.2 = false)
    (hr' : ∀ e ∈ r, isEmpty e.2 = false)
    (heq : ∀ k, lookupD cmp l k empty = lookupD cmp r k empty) :
  l = r
  := by
  apply hl.ext lawful hr
  intro k
  have hne : ∀ {s : List (κ × ν)} {v : ν}, Ascending cmp s → (∀ e ∈ s, isEmpty e.2 = false) →
      lookup cmp s k = some v → v ≠ empty := by
    rintro s v hs hs' hv rfl
    rw [← hs.mem_iff_lookup lawful] at hv
    rw [hs' _ hv] at hempty
    cases hempty
  have hk := heq k
  rw [lookupD, lookupD] at hk
  rcases hv : lookup cmp l k with _ | v
  · rcases hw : lookup cmp r k with _ | w
    · rfl
    · rw [hv, hw] at hk
      exact absurd hk.symm (hne hr hr' hw)
  · rcases hw : lookup cmp r k with _ | w
    · rw [hv, hw] at hk
      exact absurd hk (hne hl hl' hv)
    · rw [hv, hw] at hk
      exact congrArg some hk

/-- Storing what is there changes nothing. -/
theorem store_lookupD (h : Ascending cmp l) (hempty : isEmpty empty = true)
    (hl : ∀ e ∈ l, isEmpty e.2 = false) (k : κ) :
  store cmp isEmpty k (lookupD cmp l k empty) l = l
  := by
  have hv : isEmpty (lookupD cmp l k empty) = true → lookupD cmp l k empty = empty := by
    intro hv
    rcases hk : lookup cmp l k with _ | w
    · rw [lookupD, hk, Option.getD_none]
    · have := hl _ ((h.mem_iff_lookup lawful).mpr hk)
      rw [lookupD, hk, Option.getD_some, this] at hv
      cases hv
  apply (ascending_store h k _).ext_lookupD lawful h hempty _ hl
  · intro j
    rcases eq_or_ne j k with rfl | hne
    · rw [lookupD_store_self h hv]
    · rw [lookupD_store_of_ne lawful h hne]
  · intro e he
    rcases mem_store he with he | ⟨rfl, hne⟩
    · apply hl e he
    · exact hne

end Sparse

end Assoc

import Mathlib.Data.Finmap
import Mathlib.Data.Finset.Lattice.Fold

/-!
# Sequences kept in finite maps

A finite map on the natural numbers keeps a sequence when its keys are the numbers
below some length.  `ofList l` keeps the list `l`, each entry under its position;
the maps of this form are the `Dense` ones.

Inserting at a position of `l` replaces the entry there, inserting at the length of
`l` appends, and inserting beyond it leaves a hole.
-/

/-- A finite map on the natural numbers. -/
abbrev IndexMap (α : Type*) : Type _ := Finmap fun _ : ℕ => α

namespace IndexMap

variable {α : Type*}

/-- The entries of `l`, each under its position, starting with position `k`. -/
def ofListFrom (k : ℕ) (l : List α) : IndexMap α :=
  ((l.zipIdx k).map fun p => ⟨p.2, p.1⟩).toFinmap

/-- The entries of `l`, each under its position. -/
def ofList (l : List α) : IndexMap α := ofListFrom 0 l

/-- The entries of a map, each as often as it is held. -/
def values (m : IndexMap α) : Multiset α := m.entries.map Sigma.snd

/-- The keys of the map are the numbers below some length. -/
def Dense (m : IndexMap α) : Prop := ∃ l, m = ofList l

theorem lookup_ofListFrom (k i : ℕ) (l : List α) :
  (ofListFrom k l).lookup i = if i < k then none else l[i - k]?
  := by
  induction l generalizing k with
  | nil => simp [ofListFrom]
  | cons a l ih =>
    have hcons : ofListFrom k (a :: l) = (ofListFrom (k + 1) l).insert k a := by
      rw [ofListFrom, List.zipIdx_cons, List.map_cons, Finmap.toFinmap_cons]
      rfl
    rw [hcons]
    rcases lt_trichotomy i k with hik | rfl | hki
    · rw [Finmap.lookup_insert_of_ne _ hik.ne, ih, if_pos (by omega), if_pos hik]
    · simp
    · rw [Finmap.lookup_insert_of_ne _ hki.ne', ih, if_neg (by omega), if_neg (by omega),
        ← List.getElem?_cons_succ (a := a), show i - (k + 1) + 1 = i - k by omega]

@[simp]
theorem lookup_ofList (l : List α) (i : ℕ) :
  (ofList l).lookup i = l[i]?
  := by
  simp [ofList, lookup_ofListFrom]

@[simp]
theorem ofList_nil :
  ofList ([] : List α) = ∅
  := rfl

theorem ofList_injective :
  Function.Injective (ofList : List α → IndexMap α)
  := by
  intro l l' h
  apply List.ext_getElem?
  intro i
  rw [← lookup_ofList, ← lookup_ofList, h]

@[simp]
theorem ofList_inj {l l' : List α} :
  ofList l = ofList l' ↔ l = l'
  := ofList_injective.eq_iff

@[simp]
theorem ofList_eq_empty {l : List α} :
  ofList l = ∅ ↔ l = []
  := by
  rw [← ofList_nil, ofList_inj]

@[simp]
theorem mem_ofList {l : List α} {i : ℕ} :
  i ∈ ofList l ↔ i < l.length
  := by
  rw [← Finmap.lookup_isSome, lookup_ofList]
  simp

@[simp]
theorem keys_ofList (l : List α) :
  (ofList l).keys = Finset.range l.length
  := by
  ext i
  simp [Finmap.mem_keys]

/-- Inserting at the length of the list appends. -/
theorem insert_length (l : List α) (a : α) :
  (ofList l).insert l.length a = ofList (l ++ [a])
  := by
  apply Finmap.ext_lookup
  intro i
  rcases eq_or_ne i l.length with rfl | hi
  · simp
  · rw [Finmap.lookup_insert_of_ne _ hi, lookup_ofList, lookup_ofList]
    rcases lt_or_gt_of_ne hi with hlt | hgt
    · rw [List.getElem?_append_left hlt]
    · rw [List.getElem?_eq_none hgt.le, List.getElem?_eq_none]
      simpa using Nat.succ_le_of_lt hgt

/-- Inserting at a position of the list replaces the entry there. -/
theorem insert_of_lt {l : List α} {k : ℕ} (h : k < l.length) (a : α) :
  (ofList l).insert k a = ofList (l.set k a)
  := by
  apply Finmap.ext_lookup
  intro i
  rcases eq_or_ne i k with rfl | hi
  · simp [h]
  · rw [Finmap.lookup_insert_of_ne _ hi, lookup_ofList, lookup_ofList,
      List.getElem?_set_ne hi.symm]

/-- A dense map stays dense under an insertion exactly when the insertion leaves no
hole. -/
theorem dense_insert_iff (l : List α) (k : ℕ) (a : α) :
  Dense ((ofList l).insert k a) ↔ k ≤ l.length
  := by
  constructor
  · rintro ⟨l', h⟩
    have hk : k ∈ ofList l' := by
      rw [← h]
      simp
    by_contra hlt
    have hmem : l.length ∈ (ofList l).insert k a := by
      rw [h, mem_ofList]
      rw [mem_ofList] at hk
      omega
    rw [Finmap.mem_insert, mem_ofList] at hmem
    omega
  · intro h
    rcases h.lt_or_eq with hlt | rfl
    · use l.set k a, insert_of_lt hlt a
    · use l ++ [a], insert_length l a

@[simp]
theorem values_ofList (l : List α) :
  values (ofList l) = (l : Multiset α)
  := by
  induction l using List.reverseRecOn with
  | nil => rfl
  | append_singleton l a ih =>
    rw [← insert_length, values, Finmap.entries_insert_of_notMem (by simp), Multiset.map_cons]
    change a ::ₘ values (ofList l) = _
    rw [ih, Multiset.cons_coe, Multiset.coe_eq_coe]
    apply (List.perm_append_singleton a l).symm

/-- An entry is held exactly when it is the entry of some key. -/
theorem mem_values {m : IndexMap α} {a : α} :
  a ∈ values m ↔ ∃ k, m.lookup k = some a
  := by
  simp only [values, Multiset.mem_map, Finmap.lookup_eq_some_iff]
  constructor
  · rintro ⟨⟨k, a⟩, h, rfl⟩
    use k
  · rintro ⟨k, h⟩
    use ⟨k, a⟩

end IndexMap

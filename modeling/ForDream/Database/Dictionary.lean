import ForDream.Database.Builder
import ForDream.Database.Removal
import ForDream.Lib.Machine

/-!
# Sorted dictionaries

`FImmutableSortedDictionary` keeps its entries in an array as long as they are at most
`SORTED_DICTIONARY_ARRAY_TO_RB_TREE_SIZE_THRESHOLD` many, and in a left-leaning
red-black tree afterwards.  A dictionary made of a tree stays one.

In every dictionary that insertions and removals lead to the entries ascend and the
tree is balanced, no operation raises an exception, and the value of a key is the one
of the last operation on a key that compares as the same.
-/

namespace ForDream

open FLLRBNode FLLRBColor

variable {κ ν : Type*} (cmp : Comparator κ)

/-- The number of entries from which on a new key makes a tree of an array. -/
def SORTED_DICTIONARY_ARRAY_TO_RB_TREE_SIZE_THRESHOLD : ℕ := 25

/-! ## The tree -/

namespace FTreeSortedDictionary

/-- The value of a key. -/
def get (key : κ) : FLLRBNode κ ν → Option ν
  | empty => none
  | node _ l k v r =>
      match cmp key k with
      | .eq => some v
      | .lt => get key l
      | .gt => get key r

/-- Whether the tree has a value for a key. -/
def contains (key : κ) (root : FLLRBNode κ ν) : Bool := (get cmp key root).isSome

/-- The tree with a value for a key. -/
def insertKey (aKey : κ) (aValue : ν) (root : FLLRBNode κ ν) : FLLRBNode κ ν :=
  (root.insertKey cmp aKey aValue).paint black

/-- The tree without a key. -/
def removeKey (aKey : κ) (root : FLLRBNode κ ν) : FLLRBNode κ ν :=
  if contains cmp aKey root then (root.remove cmp aKey).paint black else root

/-- The key of the rightmost node. -/
def maxKey : FLLRBNode κ ν → Option κ
  | empty => none
  | node _ _ k _ empty => some k
  | node _ _ _ _ r => maxKey r

/-- The search for the key before a key, with the last node it went to the right from;
nothing where the source throws. -/
def predecessorKeyFrom (key : κ) : FLLRBNode κ ν → Option κ → Option (Option κ)
  | empty, _ => none
  | node _ l k _ r, rightParent =>
      match cmp key k with
      | .eq => some (if l.isEmpty then rightParent else maxKey l)
      | .lt => predecessorKeyFrom key l rightParent
      | .gt => predecessorKeyFrom key r (some k)

/-- The key before a key of the tree. -/
def getPredecessorKey (key : κ) (root : FLLRBNode κ ν) : Option (Option κ) :=
  predecessorKeyFrom cmp key root none

/-- The tree of a dictionary; nothing where two keys compare as the same. -/
def fromDictionary (dictionary : List (κ × ν)) : Option (FLLRBNode κ ν) :=
  let sortedKeyList := Assoc.sort cmp dictionary
  if sortedKeyList.IsChain fun p q => cmp p.1 q.1 = .lt then
    rootFrom12List (.new sortedKeyList.length) sortedKeyList
  else none

end FTreeSortedDictionary

/-! ## The array -/

namespace FArraySortedDictionary

/-- The position a new key is inserted at. -/
def findInsertPositionForKey (key : κ) : List (κ × ν) → ℕ
  | [] => 0
  | e :: es => if cmp e.1 key = .lt then findInsertPositionForKey key es + 1 else 0

/-- The position of a key. -/
def findKey (key : κ) : List (κ × ν) → Option ℕ
  | [] => none
  | e :: es =>
      match cmp key e.1 with
      | .eq => some 0
      | .lt => none
      | .gt => (findKey key es).map (· + 1)

/-- The value of a key. -/
def get (key : κ) (entries : List (κ × ν)) : Option ν :=
  (findKey cmp key entries).bind fun pos => (entries[pos]?).map Prod.snd

/-- The array without a key. -/
def removeKey (key : κ) (entries : List (κ × ν)) : List (κ × ν) :=
  match findKey cmp key entries with
  | none => entries
  | some pos => entries.eraseIdx pos

/-- The key before a key of the array; nothing where the source raises. -/
def getPredecessorKey (key : κ) (entries : List (κ × ν)) : Option (Option κ) :=
  (findKey cmp key entries).map fun pos =>
    if pos = 0 then none else (entries[pos - 1]?).map Prod.fst

/-- The array of a dictionary; nothing where two keys compare as the same. -/
def fromDictionary (dictionary : List (κ × ν)) : Option (List (κ × ν)) :=
  let keys := Assoc.sort cmp dictionary
  if keys.IsChain fun p q => cmp p.1 q.1 = .lt then some keys else none

end FArraySortedDictionary

/-! ## The dictionary -/

/-- A sorted dictionary on an array or on a tree. -/
inductive FImmutableSortedDictionary (κ ν : Type*) where
  | array (entries : List (κ × ν))
  | tree (root : FLLRBNode κ ν)

namespace FImmutableSortedDictionary

/-- The dictionary without entries. -/
def dictionaryWithComparator : FImmutableSortedDictionary κ ν := array []

/-- The dictionary of a dictionary; nothing where two keys compare as the same. -/
def fromDictionary (dictionary : List (κ × ν)) : Option (FImmutableSortedDictionary κ ν) :=
  if dictionary.length ≤ SORTED_DICTIONARY_ARRAY_TO_RB_TREE_SIZE_THRESHOLD then
    (FArraySortedDictionary.fromDictionary cmp dictionary).map array
  else (FTreeSortedDictionary.fromDictionary cmp dictionary).map tree

/-- The dictionary with a value for a key; nothing where the source raises. -/
def insertKey (key : κ) (value : ν) :
    FImmutableSortedDictionary κ ν → Option (FImmutableSortedDictionary κ ν)
  | array entries =>
      match FArraySortedDictionary.findKey cmp key entries with
      | none =>
          if entries.length ≥ SORTED_DICTIONARY_ARRAY_TO_RB_TREE_SIZE_THRESHOLD then
            (FTreeSortedDictionary.fromDictionary cmp (entries ++ [(key, value)])).map tree
          else
            some (array (entries.insertIdx
              (FArraySortedDictionary.findInsertPositionForKey cmp key entries) (key, value)))
      | some pos => some (array (entries.set pos (key, value)))
  | tree root => some (tree (FTreeSortedDictionary.insertKey cmp key value root))

/-- The dictionary without a key. -/
def removeKey (key : κ) : FImmutableSortedDictionary κ ν → FImmutableSortedDictionary κ ν
  | array entries => array (FArraySortedDictionary.removeKey cmp key entries)
  | tree root => tree (FTreeSortedDictionary.removeKey cmp key root)

/-- The value of a key. -/
def get (key : κ) : FImmutableSortedDictionary κ ν → Option ν
  | array entries => FArraySortedDictionary.get cmp key entries
  | tree root => FTreeSortedDictionary.get cmp key root

/-- The key before a key; nothing where the source raises. -/
def getPredecessorKey (key : κ) : FImmutableSortedDictionary κ ν → Option (Option κ)
  | array entries => FArraySortedDictionary.getPredecessorKey cmp key entries
  | tree root => FTreeSortedDictionary.getPredecessorKey cmp key root

/-- The number of entries. -/
def count : FImmutableSortedDictionary κ ν → ℕ
  | array entries => entries.length
  | tree root => root.count

/-- The entries in the order of an enumeration. -/
def entries : FImmutableSortedDictionary κ ν → List (κ × ν)
  | array entries => entries
  | tree root => root.toList

end FImmutableSortedDictionary

/-! ## Trees and ascending lists -/

namespace FTreeSortedDictionary

variable {cmp} {root : FLLRBNode κ ν}

theorem get_eq_lookup (key : κ) (h : Assoc.Ascending cmp root.toList) :
  get cmp key root = Assoc.lookup cmp root.toList key
  := by
  induction root with
  | empty => rfl
  | node c l k v r ihl ihr =>
    rw [get, toList]
    split
    case h_1 hk => rw [Assoc.lookup_of_eq h hk]
    case h_2 hk => rw [Assoc.lookup_of_lt h hk, ihl h.left]
    case h_3 hk => rw [Assoc.lookup_of_gt h hk, ihr h.right]

/-- Insertion puts one entry in the place of the key, under the key itself or under the
one the tree had. -/
theorem toList_insertKey (aKey : κ) (aValue : ν) (h : Assoc.Ascending cmp root.toList) :
  ∃ k', cmp aKey k' = .eq
    ∧ (root.insertKey cmp aKey aValue).toList
      = Assoc.below cmp aKey root.toList ++ (k', aValue) :: Assoc.above cmp aKey root.toList
  := by
  induction root with
  | empty =>
    use aKey, Comparator.refl cmp aKey
    rfl
  | node c l k v r ihl ihr =>
    rw [FLLRBNode.insertKey]
    simp only [toList] at h ⊢
    split
    case h_1 hk =>
      obtain ⟨k', hk', hl⟩ := ihl h.left
      use k', hk'
      rw [toList_fixUp, toList, hl, Assoc.below_of_lt h hk, Assoc.above_of_lt h hk,
        List.append_assoc, List.cons_append]
    case h_2 hk =>
      use k, hk
      rw [toList_fixUp, toList, Assoc.below_of_eq h hk, Assoc.above_of_eq h hk]
    case h_3 hk =>
      obtain ⟨k', hk', hr⟩ := ihr h.right
      use k', hk'
      rw [toList_fixUp, toList, hr, Assoc.below_of_gt h hk, Assoc.above_of_gt h hk,
        List.append_assoc, List.cons_append]

/-- A value node has a last entry. -/
theorem exists_getLast?_toList (c : FLLRBColor) (l : FLLRBNode κ ν) (k : κ) (v : ν)
    (r : FLLRBNode κ ν) :
  ∃ e, (node c l k v r).toList.getLast? = some e
  := by
  rw [toList, List.getLast?_append, List.getLast?_cons]
  exact ⟨_, rfl⟩

theorem maxKey_eq_getLast? (t : FLLRBNode κ ν) :
  maxKey t = (t.toList.getLast?).map Prod.fst
  := by
  induction t with
  | empty => rfl
  | node c l k v r ihl ihr =>
    cases r with
    | empty => simp [maxKey, toList]
    | node rc rl rk rv rr =>
      obtain ⟨e, he⟩ := exists_getLast?_toList rc rl rk rv rr
      rw [toList, List.getLast?_append, List.getLast?_cons, he, maxKey, ihr, he]
      · rfl
      · intro hempty
        cases hempty

/-- The search finds the last key before a key of the tree, or before the tree. -/
theorem predecessorKeyFrom_eq
    (key : κ) (rightParent : Option κ) (h : Assoc.Ascending cmp root.toList) :
  predecessorKeyFrom cmp key root rightParent
    = (Assoc.lookup cmp root.toList key).map fun _ =>
        (((Assoc.below cmp key root.toList).getLast?).map Prod.fst).or rightParent
  := by
  induction root generalizing rightParent with
  | empty => rfl
  | node c l k v r ihl ihr =>
    rw [predecessorKeyFrom]
    simp only [toList] at h ⊢
    split
    case h_1 hk =>
      rw [Assoc.lookup_of_eq h hk, Assoc.below_of_eq h hk, Option.map_some, maxKey_eq_getLast?]
      cases l with
      | empty => rfl
      | node lc ll lk lv lr =>
        obtain ⟨e, he⟩ := exists_getLast?_toList lc ll lk lv lr
        rw [he]
        rfl
    case h_2 hk => rw [Assoc.lookup_of_lt h hk, Assoc.below_of_lt h hk, ihl _ h.left]
    case h_3 hk =>
      rw [Assoc.lookup_of_gt h hk, Assoc.below_of_gt h hk, ihr _ h.right]
      congr 1
      funext _
      rw [List.getLast?_append, List.getLast?_cons]
      cases (Assoc.below cmp key r.toList).getLast? <;> rfl

/-- The tree of a dictionary is balanced and holds the sorted entries; the source raises
exactly when two keys compare as the same. -/
theorem fromDictionary_spec (dictionary : List (κ × ν)) :
  (¬ Assoc.Distinct cmp dictionary → fromDictionary cmp dictionary = none)
    ∧ (Assoc.Distinct cmp dictionary → ∃ root n, fromDictionary cmp dictionary = some root
      ∧ Balanced root black n ∧ root.toList = Assoc.sort cmp dictionary)
  := by
  rw [← Assoc.isChain_sort_iff, fromDictionary]
  constructor
  · intro h
    apply if_neg h
  · intro h
    obtain ⟨root, hroot, hbal, hlist⟩ := rootFrom12List_spec (Assoc.sort cmp dictionary)
    exact ⟨root, _, (if_pos h).trans hroot, hbal, hlist⟩

/-- The tree of the entries of a full array and of a new one. -/
theorem fromDictionary_append
    {entries : List (κ × ν)} {key : κ} (h : Assoc.Ascending cmp entries)
    (hnone : Assoc.lookup cmp entries key = none) (value : ν) :
  ∃ root n, fromDictionary cmp (entries ++ [(key, value)]) = some root ∧ Balanced root black n
    ∧ root.toList = Assoc.below cmp key entries ++ (key, value) :: Assoc.above cmp key entries
  := by
  have hinsert := h.insert (v := value) (Comparator.refl cmp key)
  have hperm : (Assoc.below cmp key entries ++ (key, value) :: Assoc.above cmp key entries).Perm
      (entries ++ [(key, value)]) := by
    have hmiddle : (Assoc.below cmp key entries ++ (key, value)
        :: Assoc.above cmp key entries).Perm _ := List.perm_middle
    rw [Assoc.below_append_above h hnone] at hmiddle
    apply hmiddle.trans (List.perm_append_singleton _ _).symm
  have hdistinct := (Assoc.distinct_of_perm hperm).mp hinsert.distinct
  obtain ⟨root, n, hroot, hbal, hlist⟩ := (fromDictionary_spec _).2 hdistinct
  have hsort := Assoc.ascending_sort_iff.mpr hdistinct
  use root, n, hroot, hbal
  rw [hlist]
  apply hsort.eq_of_perm hinsert ((Assoc.sort_perm _).trans hperm.symm)

end FTreeSortedDictionary

/-! ## Arrays and ascending lists -/

namespace FArraySortedDictionary

variable {cmp} {entries : List (κ × ν)}

/-- A key is found at the entry it compares as the same with. -/
theorem findKey_eq_some {key : κ} {pos : ℕ} (h : findKey cmp key entries = some pos) :
  ∃ l e r, entries = l ++ e :: r ∧ l.length = pos ∧ cmp key e.1 = .eq
  := by
  induction entries generalizing pos with
  | nil => cases h
  | cons e es ih =>
    rw [findKey] at h
    split at h
    case h_1 hk =>
      obtain rfl := Option.some.inj h
      use [], e, es, rfl, rfl
    case h_2 => cases h
    case h_3 =>
      obtain ⟨pos', hpos, rfl⟩ := Option.map_eq_some_iff.mp h
      obtain ⟨l, e', r, rfl, rfl, hk⟩ := ih hpos
      use e :: l, e', r, rfl, rfl

/-- A key that is not found in an ascending array is not there. -/
theorem findKey_eq_none {key : κ}
    (hasc : Assoc.Ascending cmp entries) (h : findKey cmp key entries = none) :
  Assoc.lookup cmp entries key = none
  := by
  induction entries with
  | nil => rfl
  | cons e es ih =>
    have hasc' : Assoc.Ascending cmp ([] ++ e :: es) := hasc
    rw [findKey] at h
    split at h
    case h_1 => cases h
    case h_2 hk =>
      have hlookup := Assoc.lookup_of_lt hasc' hk
      rw [List.nil_append] at hlookup
      rw [hlookup]
      rfl
    case h_3 hk =>
      have hlookup := Assoc.lookup_of_gt hasc' hk
      rw [List.nil_append] at hlookup
      rw [hlookup, ih hasc'.right (Option.map_eq_none_iff.mp h)]

theorem get_eq_lookup (key : κ) (h : Assoc.Ascending cmp entries) :
  get cmp key entries = Assoc.lookup cmp entries key
  := by
  rw [get]
  rcases hfind : findKey cmp key entries with _ | pos
  · rw [findKey_eq_none h hfind]
    rfl
  · obtain ⟨l, e, r, rfl, rfl, hk⟩ := findKey_eq_some hfind
    rw [Assoc.lookup_of_eq h hk]
    simp

theorem removeKey_eq_erase (key : κ) (h : Assoc.Ascending cmp entries) :
  removeKey cmp key entries = Assoc.erase cmp key entries
  := by
  rw [removeKey]
  split
  case h_1 hfind => rw [Assoc.erase_eq_self h (findKey_eq_none h hfind)]
  case h_2 pos hfind =>
    obtain ⟨l, e, r, rfl, rfl, hk⟩ := findKey_eq_some hfind
    rw [Assoc.erase_of_eq h hk, List.eraseIdx_append_of_length_le (Nat.le_refl _), Nat.sub_self,
      List.eraseIdx_cons_zero]

theorem getPredecessorKey_eq (key : κ) (h : Assoc.Ascending cmp entries) :
  getPredecessorKey cmp key entries
    = (Assoc.lookup cmp entries key).map fun _ =>
        ((Assoc.below cmp key entries).getLast?).map Prod.fst
  := by
  rw [getPredecessorKey]
  rcases hfind : findKey cmp key entries with _ | pos
  · rw [findKey_eq_none h hfind]
    rfl
  · obtain ⟨l, e, r, rfl, rfl, hk⟩ := findKey_eq_some hfind
    rw [Assoc.lookup_of_eq h hk, Assoc.below_of_eq h hk, List.getLast?_eq_getElem?]
    rcases eq_or_ne l [] with rfl | hl
    · rfl
    · have hpos := List.length_pos_iff.mpr hl
      have hlt : l.length - 1 < l.length := by omega
      simp [List.getElem?_append_left hlt, hl]

/-- The position for a new key is the number of entries below it. -/
theorem findInsertPositionForKey_eq (key : κ) (h : Assoc.Ascending cmp entries) :
  findInsertPositionForKey cmp key entries = (Assoc.below cmp key entries).length
  := by
  induction entries with
  | nil => rfl
  | cons e es ih =>
    have hasc : Assoc.Ascending cmp ([] ++ e :: es) := h
    have hparts := And.intro (Assoc.below_of_lt (k := key) hasc)
      (And.intro (Assoc.below_of_eq (k := key) hasc) (Assoc.below_of_gt (k := key) hasc))
    simp only [List.nil_append] at hparts
    rw [findInsertPositionForKey]
    split
    case isTrue hlt =>
      rw [hparts.2.2 (Comparator.gt_iff.mpr hlt), ih hasc.right]
      rfl
    case isFalse hge =>
      rw [← Comparator.gt_iff] at hge
      rcases hk : cmp key e.1 with _ | _ | _
      · rw [hparts.1 hk]
        rfl
      · rw [hparts.2.1 hk]
        rfl
      · contradiction

/-- A new key is inserted between the entries below it and those above it. -/
theorem insertIdx_eq {key : κ}
    (h : Assoc.Ascending cmp entries) (hnone : Assoc.lookup cmp entries key = none) (value : ν) :
  entries.insertIdx (findInsertPositionForKey cmp key entries) (key, value)
    = Assoc.below cmp key entries ++ (key, value) :: Assoc.above cmp key entries
  := by
  have hinsert : ∀ l r : List (κ × ν),
      (l ++ r).insertIdx l.length (key, value) = l ++ (key, value) :: r := by
    intro l r
    induction l with
    | nil => rfl
    | cons e l ih => rw [List.cons_append, List.length_cons, List.insertIdx_succ_cons, ih,
        List.cons_append]
  have hparts := hinsert (Assoc.below cmp key entries) (Assoc.above cmp key entries)
  rwa [Assoc.below_append_above h hnone, ← findInsertPositionForKey_eq key h] at hparts

/-- A key that is found takes the place of the key it compares as the same with. -/
theorem set_eq {key : κ} {pos : ℕ}
    (h : Assoc.Ascending cmp entries) (hfind : findKey cmp key entries = some pos) (value : ν) :
  entries.set pos (key, value)
    = Assoc.below cmp key entries ++ (key, value) :: Assoc.above cmp key entries
  := by
  obtain ⟨l, e, r, rfl, rfl, hk⟩ := findKey_eq_some hfind
  rw [Assoc.below_of_eq h hk, Assoc.above_of_eq h hk, List.set_append_right _ _ (Nat.le_refl _),
    Nat.sub_self, List.set_cons_zero]

end FArraySortedDictionary

/-! ## Dictionaries and ascending lists -/

namespace FImmutableSortedDictionary

/-- The entries of the dictionary ascend, an array is not longer than the threshold, and
a tree is balanced under a root that is not red. -/
inductive Wf : FImmutableSortedDictionary κ ν → Prop
  | array {entries : List (κ × ν)} :
      Assoc.Ascending cmp entries →
      entries.length ≤ SORTED_DICTIONARY_ARRAY_TO_RB_TREE_SIZE_THRESHOLD → Wf (array entries)
  | tree {root : FLLRBNode κ ν} {n : ℕ} :
      Assoc.Ascending cmp root.toList → Balanced root black n → Wf (tree root)

variable {cmp} {d : FImmutableSortedDictionary κ ν}

theorem Wf.ascending (h : Wf cmp d) :
  Assoc.Ascending cmp d.entries
  := by
  cases h with
  | array hasc _ => exact hasc
  | tree hasc _ => exact hasc

theorem Wf.get_eq_lookup (h : Wf cmp d) (key : κ) :
  d.get cmp key = Assoc.lookup cmp d.entries key
  := by
  cases h with
  | array hasc _ => apply FArraySortedDictionary.get_eq_lookup key hasc
  | tree hasc _ => apply FTreeSortedDictionary.get_eq_lookup key hasc

theorem wf_dictionaryWithComparator :
  Wf cmp (dictionaryWithComparator : FImmutableSortedDictionary κ ν)
  := .array .nil (Nat.zero_le _)

/-- Insertion does not raise, keeps the dictionary well formed and puts one entry in the
place of the key. -/
theorem Wf.insertKey (h : Wf cmp d) (key : κ) (value : ν) :
  ∃ d' k', d.insertKey cmp key value = some d' ∧ Wf cmp d' ∧ cmp key k' = .eq
    ∧ d'.entries
      = Assoc.below cmp key d.entries ++ (k', value) :: Assoc.above cmp key d.entries
  := by
  cases h with
  | @tree root n hasc hbal =>
    obtain ⟨k', hk', hlist⟩ := FTreeSortedDictionary.toList_insertKey key value hasc
    have hlist' : (FTreeSortedDictionary.insertKey cmp key value root).toList = _ :=
      (toList_paint _ _).trans hlist
    obtain ⟨c, hins⟩ := (hbal.insertKey cmp key value).1 rfl
    obtain ⟨m, hpaint⟩ := hins.paint
    refine ⟨_, k', rfl, .tree ?_ hpaint, hk', hlist'⟩
    rw [hlist']
    apply hasc.insert hk'
  | @array entries hasc hlen =>
    have hinsert := hasc.insert (v := value) (Comparator.refl cmp key)
    simp only [FImmutableSortedDictionary.insertKey]
    rcases hfind : FArraySortedDictionary.findKey cmp key entries with _ | pos
    · have hnone := FArraySortedDictionary.findKey_eq_none hasc hfind
      simp only
      split
      case isTrue =>
        obtain ⟨root, n, hroot, hbal, hlist⟩ :=
          FTreeSortedDictionary.fromDictionary_append hasc hnone value
        rw [hroot]
        refine ⟨_, key, rfl, .tree ?_ hbal, Comparator.refl cmp key, hlist⟩
        rw [hlist]
        exact hinsert
      case isFalse hfree =>
        have hentries := FArraySortedDictionary.insertIdx_eq hasc hnone value
        refine ⟨_, key, rfl, .array ?_ ?_, Comparator.refl cmp key, hentries⟩
        · rw [hentries]
          exact hinsert
        · have hle : (entries.insertIdx (FArraySortedDictionary.findInsertPositionForKey cmp key
              entries) (key, value)).length ≤ entries.length + 1 := List.length_insertIdx_le_succ
          omega
    · have hentries := FArraySortedDictionary.set_eq hasc hfind value
      refine ⟨_, key, rfl, .array ?_ (by simpa using hlen), Comparator.refl cmp key, hentries⟩
      rw [hentries]
      exact hinsert

/-- Removal keeps the dictionary well formed and takes the entry of the key away. -/
theorem Wf.removeKey (h : Wf cmp d) (key : κ) :
  Wf cmp (d.removeKey cmp key) ∧ (d.removeKey cmp key).entries = Assoc.erase cmp key d.entries
  := by
  cases h with
  | @array entries hasc hlen =>
    have herase := FArraySortedDictionary.removeKey_eq_erase key hasc
    refine ⟨.array ?_ ?_, herase⟩
    · rw [herase]
      exact hasc.erase
    rw [FArraySortedDictionary.removeKey]
    split
    · exact hlen
    · apply Nat.le_trans (List.length_eraseIdx_le _ _) hlen
  | @tree root n hasc hbal =>
    have hget := FTreeSortedDictionary.get_eq_lookup key hasc
    simp only [FImmutableSortedDictionary.removeKey, FImmutableSortedDictionary.entries,
      FTreeSortedDictionary.removeKey, FTreeSortedDictionary.contains, hget]
    split
    case isTrue =>
      obtain ⟨⟨m, hbal'⟩, hlist⟩ := hbal.remove key hasc
      have hlist' := (toList_paint (root.remove cmp key) black).trans hlist
      refine ⟨.tree ?_ hbal', hlist'⟩
      rw [hlist']
      exact hasc.erase
    case isFalse hnone =>
      rw [Bool.not_eq_true, Option.isSome_eq_false_iff, Option.isNone_iff_eq_none] at hnone
      rw [Assoc.erase_eq_self hasc hnone]
      exact ⟨.tree hasc hbal, rfl⟩

/-- The source raises when two keys compare as the same. -/
theorem fromDictionary_eq_none {dictionary : List (κ × ν)}
    (h : ¬ Assoc.Distinct cmp dictionary) :
  fromDictionary cmp dictionary = none
  := by
  have harray : FArraySortedDictionary.fromDictionary cmp dictionary = none := by
    rw [← Assoc.isChain_sort_iff] at h
    apply if_neg h
  have htree := (FTreeSortedDictionary.fromDictionary_spec dictionary).1 h
  rw [fromDictionary, harray, htree]
  split <;> rfl

/-- The dictionary made of entries no two of whose keys compare as the same. -/
theorem fromDictionary_of_distinct {dictionary : List (κ × ν)}
    (h : Assoc.Distinct cmp dictionary) :
  ∃ d, fromDictionary cmp dictionary = some d ∧ Wf cmp d ∧ d.entries = Assoc.sort cmp dictionary
  := by
  have hasc := Assoc.ascending_sort_iff.mpr h
  rw [fromDictionary]
  split
  case isTrue hlen =>
    have harray : FArraySortedDictionary.fromDictionary cmp dictionary
        = some (Assoc.sort cmp dictionary) := by
      rw [← Assoc.isChain_sort_iff] at h
      apply if_pos h
    use array (Assoc.sort cmp dictionary)
    rw [harray]
    refine ⟨rfl, .array hasc ?_, rfl⟩
    rwa [(Assoc.sort_perm dictionary).length_eq]
  case isFalse =>
    obtain ⟨root, n, hroot, hbal, hlist⟩ :=
      (FTreeSortedDictionary.fromDictionary_spec dictionary).2 h
    use tree root
    rw [hroot]
    refine ⟨rfl, .tree ?_ hbal, hlist⟩
    rw [hlist]
    exact hasc

/-- The order in which a dictionary enumerates its entries plays no role. -/
theorem fromDictionary_perm {dictionary dictionary' : List (κ × ν)}
    (h : dictionary'.Perm dictionary) :
  fromDictionary cmp dictionary' = fromDictionary cmp dictionary
  := by
  by_cases hdistinct : Assoc.Distinct cmp dictionary
  · have hsort : Assoc.sort cmp dictionary' = Assoc.sort cmp dictionary := by
      have hdistinct' := (Assoc.distinct_of_perm h).mpr hdistinct
      apply (Assoc.ascending_sort_iff.mpr hdistinct').eq_of_perm
        (Assoc.ascending_sort_iff.mpr hdistinct)
      apply ((Assoc.sort_perm _).trans h).trans (Assoc.sort_perm _).symm
    simp only [fromDictionary, FArraySortedDictionary.fromDictionary,
      FTreeSortedDictionary.fromDictionary, hsort, h.length_eq]
  · have hdistinct' : ¬ Assoc.Distinct cmp dictionary' := by
      rwa [Assoc.distinct_of_perm h]
    rw [fromDictionary_eq_none hdistinct, fromDictionary_eq_none hdistinct']

/-- What is made of a dictionary is well formed and gives every key the value it has
there. -/
theorem wf_of_fromDictionary {dictionary : List (κ × ν)}
    (h : fromDictionary cmp dictionary = some d) :
  Wf cmp d ∧ ∀ key, d.get cmp key = Assoc.lookup cmp dictionary key
  := by
  have hdistinct : Assoc.Distinct cmp dictionary := by
    by_contra hne
    rw [fromDictionary_eq_none hne] at h
    cases h
  obtain ⟨d', hd', hwf, hentries⟩ := fromDictionary_of_distinct hdistinct
  obtain rfl : d' = d := Option.some.inj (hd'.symm.trans h)
  use hwf
  intro key
  ext value
  rw [hwf.get_eq_lookup, Assoc.lookup_eq_some_iff hwf.ascending, hdistinct.lookup_eq_some_iff,
    hentries]
  simp only [(Assoc.sort_perm dictionary).mem_iff]

/-- Making a sorted dictionary raises exactly when two keys compare as the same.  What is
made does not depend on the order of the entries, is well formed, and gives every key the
value it has in the dictionary. -/
theorem fromDictionary_characterization (dictionary : List (κ × ν)) :
  (fromDictionary cmp dictionary = none ↔ ¬ Assoc.Distinct cmp dictionary)
    ∧ (∀ dictionary', dictionary'.Perm dictionary →
      fromDictionary cmp dictionary' = fromDictionary cmp dictionary)
    ∧ ∀ d, fromDictionary cmp dictionary = some d →
      Wf cmp d ∧ ∀ key, d.get cmp key = Assoc.lookup cmp dictionary key
  := by
  refine ⟨⟨?_, fromDictionary_eq_none⟩, fun _ => fromDictionary_perm,
    fun _ => wf_of_fromDictionary⟩
  intro hnone hdistinct
  obtain ⟨d, hd, -⟩ := fromDictionary_of_distinct hdistinct
  rw [hd] at hnone
  cases hnone

/-! ## Equality -/

/-- Whether two dictionaries have as many entries, and the second has the entries of the
first. -/
def isEqual [DecidableEq ν] (cmp : Comparator κ) (d other : FImmutableSortedDictionary κ ν) :
    Bool :=
  d.count = other.count && d.entries.all fun p => other.get cmp p.1 = some p.2

theorem length_entries (d : FImmutableSortedDictionary κ ν) :
  d.entries.length = d.count
  := by
  cases d with
  | array entries => rfl
  | tree root => apply length_toList

/-- Two dictionaries are equal exactly when they give every key the same value, whether
they are kept in an array or in a tree. -/
theorem isEqual_iff [DecidableEq ν] {d' : FImmutableSortedDictionary κ ν}
    (h : Wf cmp d) (h' : Wf cmp d') :
  d.isEqual cmp d' = true ↔ ∀ key, d.get cmp key = d'.get cmp key
  := by
  simp only [isEqual, Bool.and_eq_true, decide_eq_true_eq, List.all_eq_true, ← length_entries,
    h.get_eq_lookup, h'.get_eq_lookup]
  constructor
  · rintro ⟨hcount, hall⟩
    apply (h.ascending.lookup_eq_of_length h'.ascending hall).2 hcount.ge
  · intro heq
    have hself : ∀ {es : List (κ × ν)}, Assoc.Ascending cmp es →
        ∀ p ∈ es, Assoc.lookup cmp es p.1 = some p.2 := by
      intro es hasc p hp
      rw [Assoc.lookup_eq_some_iff hasc]
      use p.1, hp, Comparator.refl cmp p.1
    have hle : ∀ p ∈ d.entries, Assoc.lookup cmp d'.entries p.1 = some p.2 := by
      intro p hp
      rw [← heq, hself h.ascending p hp]
    have hge : ∀ p ∈ d'.entries, Assoc.lookup cmp d.entries p.1 = some p.2 := by
      intro p hp
      rw [heq, hself h'.ascending p hp]
    use Nat.le_antisymm (h.ascending.lookup_eq_of_length h'.ascending hle).1
      (h'.ascending.lookup_eq_of_length h.ascending hge).1

/-- An array and a tree with the same two entries. -/
theorem isEqual_iff_tree :
  (array [(1, 10), (2, 20)]).isEqual (.ofOrd ℕ)
      (tree (node black (node red empty 1 10 empty) 2 20 empty)) = true
    ↔ ∀ key, (array [(1, 10), (2, 20)]).get (.ofOrd ℕ) key
      = (tree (node black (node red empty 1 10 empty) 2 20 empty)).get (.ofOrd ℕ) key
  := by
  apply isEqual_iff
  · apply Wf.array
    · unfold Assoc.Ascending
      decide
    · decide
  · apply Wf.tree
    · unfold Assoc.Ascending
      decide
    · exact .black (.red .empty .empty) .empty

/-! ## Runs -/

/-- An operation on a dictionary. -/
inductive Operation (κ ν : Type*) where
  | setObject (key : κ) (value : ν)
  | removeObject (key : κ)

/-- The values of the keys after an operation. -/
def Operation.update (cmp : Comparator κ) (values : κ → Option ν) :
    Operation κ ν → κ → Option ν
  | setObject key value, k => if cmp k key = .eq then some value else values k
  | removeObject key, k => if cmp k key = .eq then none else values k

/-- The dictionary after an operation; nothing where the source raises. -/
def step (cmp : Comparator κ) (d : FImmutableSortedDictionary κ ν) :
    Operation κ ν → Option (FImmutableSortedDictionary κ ν)
  | .setObject key value => d.insertKey cmp key value
  | .removeObject key => some (d.removeKey cmp key)

/-- An operation does not raise, keeps the dictionary well formed and changes the values
of the keys that compare as the same as its own. -/
theorem Wf.step (h : Wf cmp d) (op : Operation κ ν) :
  ∃ d', step cmp d op = some d' ∧ Wf cmp d'
    ∧ (fun k => d'.get cmp k) = op.update cmp fun k => d.get cmp k
  := by
  cases op with
  | setObject key value =>
    obtain ⟨d', k', hd', hwf, hk', hentries⟩ := h.insertKey key value
    use d', hd', hwf
    funext k
    rw [hwf.get_eq_lookup, hentries, Assoc.lookup_insert h.ascending hk', Operation.update,
      h.get_eq_lookup]
  | removeObject key =>
    obtain ⟨hwf, hentries⟩ := h.removeKey key
    use d.removeKey cmp key, rfl, hwf
    funext k
    rw [hwf.get_eq_lookup, hentries, Assoc.lookup_erase h.ascending, Operation.update,
      h.get_eq_lookup]

/-- A run of operations does not raise, ends in a well-formed dictionary, and leaves every
key with the value of the last operation on a key that compares as the same. -/
theorem Wf.run (h : Wf cmp d) (ops : List (Operation κ ν)) :
  ∃ d', Machine.run (FImmutableSortedDictionary.step cmp) d ops = some d' ∧ Wf cmp d'
    ∧ (fun k => d'.get cmp k) = ops.foldl (Operation.update cmp) fun k => d.get cmp k
  := by
  induction ops generalizing d with
  | nil => exact ⟨d, rfl, h, rfl⟩
  | cons op ops ih =>
    obtain ⟨d₁, hstep, hwf, hget⟩ := h.step op
    obtain ⟨d₂, hrun, hwf₂, hget₂⟩ := ih hwf
    use d₂
    rw [Machine.run_cons, hstep, Option.bind_some, List.foldl_cons, ← hget]
    exact ⟨hrun, hwf₂, hget₂⟩

/-- The predecessor of a key is the greatest key below it. -/
theorem Wf.getPredecessorKey_eq (h : Wf cmp d) (key : κ) :
  d.getPredecessorKey cmp key
    = (d.get cmp key).map fun _ => ((Assoc.below cmp key d.entries).getLast?).map Prod.fst
  := by
  rw [h.get_eq_lookup]
  cases h with
  | array hasc _ => apply FArraySortedDictionary.getPredecessorKey_eq key hasc
  | tree hasc _ =>
    apply (FTreeSortedDictionary.predecessorKeyFrom_eq key none hasc).trans
    simp only [Option.or_none]
    rfl

/-- From every dictionary, a run of insertions and removals raises no exception; the
entries ascend in the dictionary it ends in, a tree in it passes its own checks, the value
of a key is the one of the last operation on a key that compares as the same, and the
predecessor of a key is the greatest key below it. -/
theorem run_fromDictionary
    {dictionary : List (κ × ν)} {d₀ : FImmutableSortedDictionary κ ν}
    (h : fromDictionary cmp dictionary = some d₀) (ops : List (Operation κ ν)) :
  ∃ d, Machine.run (step cmp) d₀ ops = some d
    ∧ Assoc.Ascending cmp d.entries
    ∧ (∀ root, d = tree root → root.checkMaxDepth = some true ∧ root.isRed = false)
    ∧ (∀ key, d.get cmp key = ops.foldl (Operation.update cmp) (Assoc.lookup cmp dictionary) key)
    ∧ ∀ key, d.getPredecessorKey cmp key
      = (d.get cmp key).map fun _ => ((Assoc.below cmp key d.entries).getLast?).map Prod.fst
  := by
  obtain ⟨hwf₀, hget₀⟩ := wf_of_fromDictionary h
  obtain ⟨d, hrun, hwf, hget⟩ := hwf₀.run ops
  refine ⟨d, hrun, hwf.ascending, ?_, ?_, hwf.getPredecessorKey_eq⟩
  · rintro root rfl
    cases hwf with
    | tree _ hbal => exact ⟨hbal.checkMaxDepth, hbal.isRed_false⟩
  · intro key
    have hstart : (fun k => d₀.get cmp k) = Assoc.lookup cmp dictionary := funext hget₀
    rw [hstart] at hget
    apply congrFun hget key

/-- A key removed from a tree of thirty entries, and one with a new value. -/
theorem run_fromDictionary_thirty :
  ∃ d₀ d, fromDictionary (.ofOrd ℕ) ((List.range 30).map fun i => (i, i)) = some d₀
    ∧ Machine.run (step (.ofOrd ℕ)) d₀ [.removeObject 3, .setObject 5 50] = some d
    ∧ d.get (.ofOrd ℕ) 3 = none ∧ d.get (.ofOrd ℕ) 5 = some 50
  := by
  have hdistinct : Assoc.Distinct (.ofOrd ℕ) ((List.range 30).map fun i => (i, i)) := by
    unfold Assoc.Distinct
    decide
  obtain ⟨d₀, hd₀, -⟩ := fromDictionary_of_distinct hdistinct
  obtain ⟨d, hd, -, -, hget, -⟩ := run_fromDictionary hd₀ [.removeObject 3, .setObject 5 50]
  use d₀, d, hd₀, hd
  rw [hget, hget]
  exact ⟨rfl, rfl⟩

end FImmutableSortedDictionary

end ForDream

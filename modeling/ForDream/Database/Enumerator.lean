import ForDream.Database.Dictionary

/-!
# Enumerating the keys of a sorted dictionary

An enumerator of an array is a position in it, an enumerator of a tree a stack of the
nodes whose keys are still to come, each ahead of what lies on its far side.  `pending`
is what an enumerator has still to give; `nextObject` gives its head.

The two kinds of dictionary enumerate alike from a start key, in both directions, and
from the beginning.  They differ in the backward enumeration without a start key, which
gives no key of a tree: there the sign of the comparison that stands for the missing key
is changed, too.
-/

namespace ForDream

open FLLRBNode

variable {κ ν : Type*}

/-- An enumeration of keys. -/
inductive NSEnumerator (κ ν : Type*) where
  | array (keys : List κ) (pos : ℤ) (reverse : Bool)
  | tree (stack : List (FLLRBNode κ ν)) (isReverse : Bool)

/-! ## The stack -/

namespace FTreeSortedDictionaryEnumerator

variable (isReverse : Bool)

/-- The stack with a node and the nodes the enumeration goes through before it. -/
def push : FLLRBNode κ ν → List (FLLRBNode κ ν) → List (FLLRBNode κ ν)
  | empty, stack => stack
  | node c l k v r, stack =>
      if isReverse then push r (node c l k v r :: stack) else push l (node c l k v r :: stack)

/-- The stack an enumeration starts with. -/
def initWithImmutableSortedDictionary (cmp : Comparator κ) (startKey : Option κ) :
    FLLRBNode κ ν → List (FLLRBNode κ ν) → List (FLLRBNode κ ν)
  | empty, stack => stack
  | node c l k v r, stack =>
      let order :=
        match startKey with
        | some s => cmp k s
        | none => .gt
      -- flip the comparison if we're going in reverse
      match if isReverse then order.swap else order with
      | .lt =>
          if isReverse then initWithImmutableSortedDictionary cmp startKey l stack
          else initWithImmutableSortedDictionary cmp startKey r stack
      | .eq => node c l k v r :: stack
      | .gt =>
          if isReverse then
            initWithImmutableSortedDictionary cmp startKey r (node c l k v r :: stack)
          else initWithImmutableSortedDictionary cmp startKey l (node c l k v r :: stack)

/-- The next key and the stack after it. -/
def nextObject : List (FLLRBNode κ ν) → Option (κ × List (FLLRBNode κ ν))
  | node _ l k _ r :: stack => some (k, push isReverse (if isReverse then l else r) stack)
  | _ => none

/-- The keys of a node in the direction of the enumeration. -/
def keys (t : FLLRBNode κ ν) : List κ :=
  if isReverse then (t.toList.map Prod.fst).reverse else t.toList.map Prod.fst

/-- The keys a stack has still to give. -/
def pending : List (FLLRBNode κ ν) → List κ
  | node _ l k _ r :: stack => k :: keys isReverse (if isReverse then l else r) ++ pending stack
  | _ => []

theorem keys_forward (t : FLLRBNode κ ν) :
  keys false t = t.toList.map Prod.fst
  := rfl

theorem keys_reverse (t : FLLRBNode κ ν) :
  keys true t = (t.toList.map Prod.fst).reverse
  := rfl

theorem pending_push (t : FLLRBNode κ ν) (stack : List (FLLRBNode κ ν)) :
  pending isReverse (push isReverse t stack) = keys isReverse t ++ pending isReverse stack
  := by
  induction t generalizing stack with
  | empty => cases isReverse <;> rfl
  | node c l k v r ihl ihr =>
    cases isReverse with
    | true => simp [push, ihr, pending, keys, toList]
    | false => simp [push, ihl, pending, keys, toList]

/-- `nextObject` gives the head of what is pending. -/
theorem map_nextObject (stack : List (FLLRBNode κ ν)) :
  (nextObject isReverse stack).map (fun p => (p.1, pending isReverse p.2))
    = match pending isReverse stack with
      | [] => none
      | k :: ks => some (k, ks)
  := by
  rcases stack with _ | ⟨_ | ⟨c, l, k, v, r⟩, stack⟩
  · rfl
  · rfl
  · simp [nextObject, pending, pending_push]

end FTreeSortedDictionaryEnumerator

/-! ## The keys from a start key on -/

/-- The keys that are not before a start key. -/
def keysFrom (cmp : Comparator κ) (s : κ) (entries : List (κ × ν)) : List κ :=
  (entries.filter fun p => cmp p.1 s ≠ .lt).map Prod.fst

/-- The keys that are not after a start key, the last one first. -/
def reverseKeysFrom (cmp : Comparator κ) (s : κ) (entries : List (κ × ν)) : List κ :=
  ((entries.filter fun p => cmp p.1 s ≠ .gt).map Prod.fst).reverse

section KeysFrom

variable {cmp : Comparator κ} {s : κ} {l r : List (κ × ν)} {e : κ × ν}

/-- What is ahead of an entry not after the start key is before the start key. -/
theorem lt_of_entry_le (h : Assoc.Ascending cmp (l ++ e :: r)) (he : cmp e.1 s ≠ .gt) :
  ∀ p ∈ l, cmp p.1 s = .lt
  := by
  intro p hp
  have hpe := (Assoc.ascending_append.mp h).2.2.1 p hp
  rcases hes : cmp e.1 s with _ | _ | _
  · apply Comparator.lt_trans hpe hes
  · rwa [← Comparator.congr_right p.1 hes]
  · contradiction

/-- What is behind an entry not before the start key is after the start key. -/
theorem gt_of_entry_ge (h : Assoc.Ascending cmp (l ++ e :: r)) (he : cmp e.1 s ≠ .lt) :
  ∀ q ∈ r, cmp q.1 s = .gt
  := by
  intro q hq
  have heq := (Assoc.ascending_append.mp h).2.2.2 q hq
  rcases hes : cmp e.1 s with _ | _ | _
  · contradiction
  · rwa [← Comparator.congr_right q.1 hes, Comparator.gt_iff]
  · rw [Comparator.gt_iff] at hes ⊢
    apply Comparator.lt_trans hes heq

/-- The keys up to an entry before the start key are skipped. -/
theorem keysFrom_of_lt (h : Assoc.Ascending cmp (l ++ e :: r)) (he : cmp e.1 s = .lt) :
  keysFrom cmp s (l ++ e :: r) = keysFrom cmp s r
  := by
  have hl : l.filter (fun p => cmp p.1 s ≠ .lt) = [] := by
    rw [List.filter_eq_nil_iff]
    intro p hp
    simp [lt_of_entry_le (s := s) h (by simp [he]) p hp]
  rw [keysFrom, List.filter_append, hl, List.filter_cons_of_neg (by simpa using he)]
  rfl

/-- The keys from an entry not before the start key on are all kept. -/
theorem keysFrom_of_ge (h : Assoc.Ascending cmp (l ++ e :: r)) (he : cmp e.1 s ≠ .lt) :
  keysFrom cmp s (l ++ e :: r) = keysFrom cmp s l ++ e.1 :: r.map Prod.fst
  := by
  have hr : r.filter (fun p => cmp p.1 s ≠ .lt) = r := by
    rw [List.filter_eq_self]
    intro q hq
    simp [gt_of_entry_ge h he q hq]
  rw [keysFrom, List.filter_append, List.filter_cons_of_pos (by simpa using he), hr,
    List.map_append]
  rfl

theorem keysFrom_of_eq (h : Assoc.Ascending cmp (l ++ e :: r)) (he : cmp e.1 s = .eq) :
  keysFrom cmp s (l ++ e :: r) = e.1 :: r.map Prod.fst
  := by
  have hl : keysFrom cmp s l = [] := by
    rw [keysFrom, List.map_eq_nil_iff, List.filter_eq_nil_iff]
    intro p hp
    simp [lt_of_entry_le (s := s) h (by simp [he]) p hp]
  rw [keysFrom_of_ge h (by simp [he]), hl, List.nil_append]

/-- The keys from an entry after the start key on are skipped. -/
theorem reverseKeysFrom_of_gt (h : Assoc.Ascending cmp (l ++ e :: r)) (he : cmp e.1 s = .gt) :
  reverseKeysFrom cmp s (l ++ e :: r) = reverseKeysFrom cmp s l
  := by
  have hr : (e :: r).filter (fun p => cmp p.1 s ≠ .gt) = [] := by
    rw [List.filter_eq_nil_iff]
    intro q hq
    rcases List.mem_cons.mp hq with rfl | hq
    · simpa using he
    · simp [gt_of_entry_ge (s := s) h (by simp [he]) q hq]
  rw [reverseKeysFrom, List.filter_append, hr, List.append_nil]
  rfl

/-- The keys up to an entry not after the start key are all kept. -/
theorem reverseKeysFrom_of_le (h : Assoc.Ascending cmp (l ++ e :: r)) (he : cmp e.1 s ≠ .gt) :
  reverseKeysFrom cmp s (l ++ e :: r)
    = reverseKeysFrom cmp s r ++ e.1 :: (l.map Prod.fst).reverse
  := by
  have hl : l.filter (fun p => cmp p.1 s ≠ .gt) = l := by
    rw [List.filter_eq_self]
    intro p hp
    simp [lt_of_entry_le h he p hp]
  rw [reverseKeysFrom, List.filter_append, List.filter_cons_of_pos (by simpa using he), hl]
  simp [reverseKeysFrom]

theorem reverseKeysFrom_of_eq (h : Assoc.Ascending cmp (l ++ e :: r)) (he : cmp e.1 s = .eq) :
  reverseKeysFrom cmp s (l ++ e :: r) = e.1 :: (l.map Prod.fst).reverse
  := by
  have hr : reverseKeysFrom cmp s r = [] := by
    rw [reverseKeysFrom, List.reverse_eq_nil_iff, List.map_eq_nil_iff, List.filter_eq_nil_iff]
    intro q hq
    simp [gt_of_entry_ge (s := s) h (by simp [he]) q hq]
  rw [reverseKeysFrom_of_le h (by simp [he]), hr, List.nil_append]

end KeysFrom

namespace FTreeSortedDictionaryEnumerator

variable {cmp : Comparator κ} {t : FLLRBNode κ ν}

/-- A forward enumeration of a tree starts with the keys that are not before the start
key. -/
theorem pending_init_forward
    (h : Assoc.Ascending cmp t.toList) (s : κ) (stack : List (FLLRBNode κ ν)) :
  pending false (initWithImmutableSortedDictionary false cmp (some s) t stack)
    = keysFrom cmp s t.toList ++ pending false stack
  := by
  induction t generalizing stack with
  | empty => rfl
  | node c l k v r ihl ihr =>
    simp only [toList] at h ⊢
    rcases hks : cmp k s with _ | _ | _
    · rw [keysFrom_of_lt h hks]
      simp [initWithImmutableSortedDictionary, hks, ihr h.right]
    · rw [keysFrom_of_eq h hks]
      simp [initWithImmutableSortedDictionary, hks, pending, keys]
    · rw [keysFrom_of_ge h (by simp [hks])]
      simp [initWithImmutableSortedDictionary, hks, ihl h.left, pending, keys]

/-- A backward enumeration of a tree starts with the keys that are not after the start
key. -/
theorem pending_init_reverse
    (h : Assoc.Ascending cmp t.toList) (s : κ) (stack : List (FLLRBNode κ ν)) :
  pending true (initWithImmutableSortedDictionary true cmp (some s) t stack)
    = reverseKeysFrom cmp s t.toList ++ pending true stack
  := by
  induction t generalizing stack with
  | empty => rfl
  | node c l k v r ihl ihr =>
    simp only [toList] at h ⊢
    rcases hks : cmp k s with _ | _ | _
    · rw [reverseKeysFrom_of_le h (by simp [hks])]
      simp [initWithImmutableSortedDictionary, hks, ihr h.right, pending, keys]
    · rw [reverseKeysFrom_of_eq h hks]
      simp [initWithImmutableSortedDictionary, hks, pending, keys]
    · rw [reverseKeysFrom_of_gt h hks]
      simp [initWithImmutableSortedDictionary, hks, ihl h.left]

/-- Without a start key a forward enumeration starts with all keys. -/
theorem pending_init_none (stack : List (FLLRBNode κ ν)) :
  pending false (initWithImmutableSortedDictionary false cmp none t stack)
    = t.toList.map Prod.fst ++ pending false stack
  := by
  induction t generalizing stack with
  | empty => rfl
  | node c l k v r ihl ihr =>
    simp [initWithImmutableSortedDictionary, ihl, pending, keys, toList]

/-- Without a start key a backward enumeration starts with no key. -/
theorem init_reverse_none (stack : List (FLLRBNode κ ν)) :
  initWithImmutableSortedDictionary true cmp none t stack = stack
  := by
  induction t with
  | empty => rfl
  | node c l k v r ihl ihr => simp [initWithImmutableSortedDictionary, ihl]

end FTreeSortedDictionaryEnumerator

/-! ## Enumerators -/

namespace NSEnumerator

/-- The next key and the enumerator after it. -/
def nextObject : NSEnumerator κ ν → Option (κ × NSEnumerator κ ν)
  | array keys pos reverse =>
      if 0 ≤ pos ∧ pos < keys.length then
        keys[pos.toNat]?.map fun k => (k, array keys (if reverse then pos - 1 else pos + 1) reverse)
      else none
  | tree stack isReverse =>
      (FTreeSortedDictionaryEnumerator.nextObject isReverse stack).map fun p =>
        (p.1, tree p.2 isReverse)

/-- The first `n` keys an enumerator gives. -/
def objects : ℕ → NSEnumerator κ ν → List κ
  | 0, _ => []
  | n + 1, e =>
      match e.nextObject with
      | none => []
      | some (k, e') => k :: objects n e'

/-- The keys an enumerator has still to give. -/
def pending : NSEnumerator κ ν → List κ
  | array keys pos reverse =>
      if 0 ≤ pos ∧ pos < keys.length then
        if reverse then (keys.take (pos.toNat + 1)).reverse else keys.drop pos.toNat
      else []
  | tree stack isReverse => FTreeSortedDictionaryEnumerator.pending isReverse stack

/-- `nextObject` gives the head of what is pending. -/
theorem map_nextObject (e : NSEnumerator κ ν) :
  e.nextObject.map (fun p => (p.1, p.2.pending))
    = match e.pending with
      | [] => none
      | k :: ks => some (k, ks)
  := by
  cases e with
  | tree stack isReverse =>
    rw [nextObject, Option.map_map]
    apply FTreeSortedDictionaryEnumerator.map_nextObject isReverse stack
  | array keys pos reverse =>
    rw [nextObject, pending]
    split
    case isFalse => rfl
    case isTrue hpos =>
      obtain ⟨p, rfl⟩ := Int.eq_ofNat_of_zero_le hpos.1
      have hlt : p < keys.length := by simpa using hpos.2
      simp only [Int.toNat_natCast, List.getElem?_eq_getElem hlt, Option.map_some]
      cases reverse with
      | false =>
        have hdrop : keys.drop p = keys[p] :: keys.drop (p + 1) := List.drop_eq_getElem_cons hlt
        simp only [Bool.false_eq_true, if_false, hdrop, pending]
        split
        case isTrue => rfl
        case isFalse hend =>
          rw [List.drop_of_length_le (by omega)]
      | true =>
        have htake : (keys.take (p + 1)).reverse = keys[p] :: (keys.take p).reverse := by
          rw [List.take_succ_eq_append_getElem hlt, List.reverse_concat]
        simp only [if_true, htake, pending]
        split
        case isTrue hbegin =>
          rw [show ((p : ℤ) - 1).toNat + 1 = p by omega]
        case isFalse hend =>
          obtain rfl : p = 0 := by omega
          rfl

theorem pending_array_forward (keys : List κ) (pos : ℕ) :
  (array keys pos false : NSEnumerator κ ν).pending = keys.drop pos
  := by
  rw [pending]
  split
  case isTrue => rfl
  case isFalse hend => rw [List.drop_of_length_le (by omega)]

/-- A backward enumerator at the last of the first `n` positions. -/
theorem pending_array_reverse {keys : List κ} {n : ℕ} (h : n ≤ keys.length) :
  (array keys (n - 1) true : NSEnumerator κ ν).pending = (keys.take n).reverse
  := by
  rw [pending]
  split
  case isTrue hpos =>
    rw [if_pos rfl, show ((n : ℤ) - 1).toNat + 1 = n by omega]
  case isFalse hend =>
    obtain rfl : n = 0 := by omega
    rfl

/-- An enumerator gives what is pending, in order, and then ends. -/
theorem objects_eq_take (n : ℕ) (e : NSEnumerator κ ν) :
  objects n e = e.pending.take n
  := by
  induction n generalizing e with
  | zero => rfl
  | succ n ih =>
    have hnext := map_nextObject e
    rw [objects]
    rcases hpending : e.pending with _ | ⟨k, ks⟩
    · rw [hpending] at hnext
      rw [Option.map_eq_none_iff.mp hnext]
      rfl
    · rw [hpending] at hnext
      obtain ⟨⟨k', e'⟩, he', hpair⟩ := Option.map_eq_some_iff.mp hnext
      obtain ⟨rfl, rfl⟩ := Prod.mk.inj hpair
      rw [he', List.take_succ_cons, ← ih]

end NSEnumerator

/-! ## The enumerators of a dictionary -/

namespace FImmutableSortedDictionary

variable (cmp : Comparator κ)

/-- The enumerator of all keys. -/
def keyEnumerator : FImmutableSortedDictionary κ ν → NSEnumerator κ ν
  | array entries => .array (entries.map Prod.fst) 0 false
  | tree root =>
      .tree (FTreeSortedDictionaryEnumerator.initWithImmutableSortedDictionary false cmp none
        root []) false

/-- The enumerator of the keys from a key on. -/
def keyEnumeratorFrom (startKey : κ) : FImmutableSortedDictionary κ ν → NSEnumerator κ ν
  | array entries =>
      .array (entries.map Prod.fst)
        (FArraySortedDictionary.findInsertPositionForKey cmp startKey entries) false
  | tree root =>
      .tree (FTreeSortedDictionaryEnumerator.initWithImmutableSortedDictionary false cmp
        (some startKey) root []) false

/-- The enumerator of all keys, backward. -/
def reverseKeyEnumerator : FImmutableSortedDictionary κ ν → NSEnumerator κ ν
  | array entries => .array (entries.map Prod.fst) (entries.length - 1) true
  | tree root =>
      .tree (FTreeSortedDictionaryEnumerator.initWithImmutableSortedDictionary true cmp none
        root []) true

/-- The enumerator of the keys from a key on, backward. -/
def reverseKeyEnumeratorFrom (startKey : κ) : FImmutableSortedDictionary κ ν → NSEnumerator κ ν
  | array entries =>
      let startPos := FArraySortedDictionary.findInsertPositionForKey cmp startKey entries
      -- without an exact match the position is the one after the closest match
      let exact := (entries[startPos]?).any fun e => cmp e.1 startKey = .eq
      .array (entries.map Prod.fst) (if exact then startPos else startPos - 1) true
  | tree root =>
      .tree (FTreeSortedDictionaryEnumerator.initWithImmutableSortedDictionary true cmp
        (some startKey) root []) true

variable {cmp} {entries : List (κ × ν)} {d : FImmutableSortedDictionary κ ν}

/-- The entries from the insert position on are those not before the key. -/
theorem drop_findInsertPositionForKey (h : Assoc.Ascending cmp entries) (s : κ) :
  (entries.map Prod.fst).drop (FArraySortedDictionary.findInsertPositionForKey cmp s entries)
    = keysFrom cmp s entries
  := by
  induction entries with
  | nil => rfl
  | cons e es ih =>
    have hasc : Assoc.Ascending cmp ([] ++ e :: es) := h
    have hlt := keysFrom_of_lt (s := s) hasc
    have hge := keysFrom_of_ge (s := s) hasc
    simp only [List.nil_append] at hlt hge
    rw [FArraySortedDictionary.findInsertPositionForKey]
    split
    case isTrue he =>
      rw [hlt he, List.map_cons, List.drop_succ_cons, ih hasc.right]
    case isFalse he =>
      rw [hge he]
      rfl

theorem findInsertPositionForKey_le (cmp : Comparator κ) (s : κ) (entries : List (κ × ν)) :
  FArraySortedDictionary.findInsertPositionForKey cmp s entries ≤ entries.length
  := by
  induction entries with
  | nil => simp [FArraySortedDictionary.findInsertPositionForKey]
  | cons e es ih =>
    rw [FArraySortedDictionary.findInsertPositionForKey]
    split
    · simpa using ih
    · simp

/-- The entries up to the insert position, and an exact match there, are those not after
the key. -/
theorem take_findInsertPositionForKey (h : Assoc.Ascending cmp entries) (s : κ) :
  ((entries.map Prod.fst).take (FArraySortedDictionary.findInsertPositionForKey cmp s entries
      + if (entries[FArraySortedDictionary.findInsertPositionForKey cmp s entries]?).any
        fun e => cmp e.1 s = .eq then 1 else 0)).reverse
    = reverseKeysFrom cmp s entries
  := by
  induction entries with
  | nil => rfl
  | cons e es ih =>
    have hasc : Assoc.Ascending cmp ([] ++ e :: es) := h
    have hle := reverseKeysFrom_of_le (s := s) hasc
    have heq := reverseKeysFrom_of_eq (s := s) hasc
    have hgt := reverseKeysFrom_of_gt (s := s) hasc
    simp only [List.nil_append, List.map_nil, List.reverse_nil] at hle heq hgt
    rw [FArraySortedDictionary.findInsertPositionForKey]
    rcases he : cmp e.1 s with _ | _ | _
    · rw [hle (by simp [he]), ← ih hasc.right]
      simp [Nat.add_right_comm _ 1]
    · rw [heq he]
      simp [he]
    · rw [hgt he]
      simp [he, reverseKeysFrom]

theorem Wf.pending_keyEnumerator (h : Wf cmp d) :
  (d.keyEnumerator cmp).pending = d.entries.map Prod.fst
  := by
  cases h with
  | tree => exact (FTreeSortedDictionaryEnumerator.pending_init_none []).trans (List.append_nil _)
  | array => apply NSEnumerator.pending_array_forward

theorem Wf.pending_keyEnumeratorFrom (h : Wf cmp d) (s : κ) :
  (d.keyEnumeratorFrom cmp s).pending = keysFrom cmp s d.entries
  := by
  cases h with
  | tree hasc _ =>
    exact (FTreeSortedDictionaryEnumerator.pending_init_forward hasc s []).trans
      (List.append_nil _)
  | array hasc _ =>
    exact (NSEnumerator.pending_array_forward _ _).trans (drop_findInsertPositionForKey hasc s)

theorem Wf.pending_reverseKeyEnumeratorFrom (h : Wf cmp d) (s : κ) :
  (d.reverseKeyEnumeratorFrom cmp s).pending = reverseKeysFrom cmp s d.entries
  := by
  cases h with
  | tree hasc _ =>
    exact (FTreeSortedDictionaryEnumerator.pending_init_reverse hasc s []).trans
      (List.append_nil _)
  | @array entries hasc hlen =>
    have hpos := findInsertPositionForKey_le cmp s entries
    rw [FImmutableSortedDictionary.entries, ← take_findInsertPositionForKey hasc s,
      reverseKeyEnumeratorFrom]
    split
    case isTrue hexact =>
      rw [← NSEnumerator.pending_array_reverse (ν := ν)]
      · simp
      · rcases hentry : entries[FArraySortedDictionary.findInsertPositionForKey cmp s entries]?
          with _ | e
        · rw [hentry] at hexact
          cases hexact
        · obtain ⟨hlt, -⟩ := List.getElem?_eq_some_iff.mp hentry
          simpa using Nat.succ_le_of_lt hlt
    case isFalse =>
      rw [← NSEnumerator.pending_array_reverse (ν := ν)]
      · simp
      · simpa using hpos

/-- Enumerating a well-formed dictionary gives all keys in order, and from a start key on
the keys not before it, or, backward, the keys not after it.  Without a start key the
backward enumeration gives all keys of an array, and no key of a tree. -/
theorem Wf.objects_enumerators (h : Wf cmp d) (n : ℕ) (s : κ) :
  (d.keyEnumerator cmp).objects n = (d.entries.map Prod.fst).take n
    ∧ (d.keyEnumeratorFrom cmp s).objects n = (keysFrom cmp s d.entries).take n
    ∧ (d.reverseKeyEnumeratorFrom cmp s).objects n = (reverseKeysFrom cmp s d.entries).take n
    ∧ (d.reverseKeyEnumerator cmp).objects n
      = match d with
        | .array entries => (entries.map Prod.fst).reverse.take n
        | .tree _ => []
  := by
  simp only [NSEnumerator.objects_eq_take, h.pending_keyEnumerator, h.pending_keyEnumeratorFrom,
    h.pending_reverseKeyEnumeratorFrom, true_and]
  cases h with
  | @array entries hasc hlen =>
    have hall : (NSEnumerator.array (entries.map Prod.fst) (entries.length - 1) true :
        NSEnumerator κ ν).pending = ((entries.map Prod.fst).take entries.length).reverse :=
      NSEnumerator.pending_array_reverse (by simp)
    rw [reverseKeyEnumerator, hall, List.take_of_length_le (List.length_map _).le]
  | tree hasc _ =>
    rw [reverseKeyEnumerator, FTreeSortedDictionaryEnumerator.init_reverse_none]
    simp [NSEnumerator.pending, FTreeSortedDictionaryEnumerator.pending]

/-- Enumerating a tree of two entries. -/
theorem objects_enumerators_tree :
  ((tree (node .black (node .red empty 1 10 empty) 2 20 empty)).keyEnumeratorFrom
      (.ofOrd ℕ) 2).objects 5 = [2]
    ∧ ((tree (node .black (node .red empty 1 10 empty) 2 20 empty)).reverseKeyEnumerator
      (.ofOrd ℕ)).objects 5 = []
  := by
  have hwf : Wf (.ofOrd ℕ) (tree (node .black (node .red empty 1 10 empty) 2 20 empty)) := by
    apply Wf.tree
    · unfold Assoc.Ascending
      decide
    · exact .black (.red .empty .empty) .empty
  obtain ⟨-, hfrom, -, hreverse⟩ := hwf.objects_enumerators 5 2
  exact ⟨hfrom, hreverse⟩

end FImmutableSortedDictionary

end ForDream

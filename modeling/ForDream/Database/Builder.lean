import ForDream.Database.Balance
import Mathlib.Tactic.Common

/-!
# Building a tree from sorted entries

`rootFrom12List` builds a left-leaning red-black tree from sorted entries without
comparing keys.  The number of entries is written with the digits one and two; a digit
stands for one black pennant or for a black pennant with a red one, a pennant of size
`2 ^ i` being a node whose right child is a perfect black tree of height `i`.  Each
pennant is the left child of the one before it.
-/

namespace ForDream

namespace FTreeSortedDictionary

open FLLRBNode FLLRBColor

variable {κ ν : Type*}

/-- The numeral with digits one and two of a number: the binary digits of the number
after it, without the leading one. -/
structure Base1_2List where
  bits : ℕ
  count : ℕ

namespace Base1_2List

/-- The numeral of `length`. -/
def new (length : ℕ) : Base1_2List where
  bits := (length + 1) % 2 ^ Nat.log2 (length + 1)
  count := Nat.log2 (length + 1)

/-- The pennants of the `current` last digits, from the most significant one on. -/
def pennants (bits : ℕ) : ℕ → List (FLLRBColor × ℕ)
  | 0 => []
  | current + 1 =>
      let chunkSize := 2 ^ current
      if bits.testBit current then
        (black, chunkSize) :: (red, chunkSize) :: pennants bits current
      else (black, chunkSize) :: pennants bits current

end Base1_2List

/-- The perfect tree of `length` black nodes from `startIndex` on; nothing where the
source reads beyond the end. -/
def buildBalancedTree (entries : List (κ × ν)) (startIndex length : ℕ) :
    Option (FLLRBNode κ ν) :=
  let bounded := min (entries.length - startIndex) length
  if bounded = 0 then some empty
  else if bounded = 1 then
    entries[startIndex]?.map fun e => node black empty e.1 e.2 empty
  else
    let middle := bounded / 2
    (buildBalancedTree entries startIndex middle).bind fun left =>
    (buildBalancedTree entries (startIndex + middle + 1) middle).bind fun right =>
    entries[startIndex + middle]?.map fun e => node black left e.1 e.2 right
termination_by length

/-- The pennants one below the other, taking their entries from the end of the first
`index` entries. -/
def buildPennants (entries : List (κ × ν)) :
    List (FLLRBColor × ℕ) → ℕ → Option (FLLRBNode κ ν)
  | [], _ => some empty
  | (color, chunkSize) :: pennants, index =>
      let startIndex := index - chunkSize + 1
      entries[index - chunkSize]?.bind fun e =>
      (buildBalancedTree entries startIndex (chunkSize - 1)).bind fun childTree =>
      (buildPennants entries pennants (index - chunkSize)).map fun left =>
        node color left e.1 e.2 childTree

/-- The tree of the pennants of a numeral. -/
def rootFrom12List (list : Base1_2List) (entries : List (κ × ν)) : Option (FLLRBNode κ ν) :=
  buildPennants entries (Base1_2List.pennants list.bits list.count) entries.length

/-- The entries from `start` on, `length` many. -/
def segment (entries : List (κ × ν)) (start length : ℕ) : List (κ × ν) :=
  (entries.drop start).take length

section Segment

variable {entries : List (κ × ν)} {start i j : ℕ} {e : κ × ν}

/-- A segment falls apart at each of its entries. -/
theorem segment_split (he : entries[start + i]? = some e) :
  segment entries start (i + 1 + j)
    = segment entries start i ++ e :: segment entries (start + i + 1) j
  := by
  have hdrop : entries.drop (start + i) = e :: entries.drop (start + i + 1) := by
    apply List.drop_eq_getElem?_toList_append.trans
    simp [he]
  rw [segment, Nat.add_assoc, List.take_add, List.drop_drop, hdrop, Nat.add_comm 1 j,
    List.take_succ_cons]
  rfl

theorem exists_getElem? (entries : List (κ × ν)) (i : ℕ) (h : i < entries.length) :
  ∃ e, entries[i]? = some e
  := ⟨entries[i], List.getElem?_eq_getElem h⟩

end Segment

/-- `buildBalancedTree` builds the perfect tree of a segment within the entries. -/
theorem buildBalancedTree_spec
    (entries : List (κ × ν)) (k start : ℕ) (h : start + (2 ^ k - 1) ≤ entries.length) :
  ∃ t, buildBalancedTree entries start (2 ^ k - 1) = some t
    ∧ Balanced t black k ∧ t.toList = segment entries start (2 ^ k - 1)
  := by
  induction k generalizing start with
  | zero =>
    use empty
    rw [buildBalancedTree]
    simp [segment, toList, Balanced.empty]
  | succ k ih =>
    have hpos : 0 < 2 ^ k := Nat.two_pow_pos k
    have hsize : 2 ^ (k + 1) - 1 = (2 ^ k - 1) + 1 + (2 ^ k - 1) := by
      rw [Nat.pow_succ]
      omega
    have hbounded : min (entries.length - start) (2 ^ (k + 1) - 1) = 2 ^ (k + 1) - 1 := by omega
    have hmiddle : (2 ^ (k + 1) - 1) / 2 = 2 ^ k - 1 := by omega
    obtain ⟨e, he⟩ := exists_getElem? entries (start + (2 ^ k - 1)) (by omega)
    obtain ⟨l, hl, hlbal, hllist⟩ := ih start (by omega)
    obtain ⟨r, hr, hrbal, hrlist⟩ := ih (start + (2 ^ k - 1) + 1) (by omega)
    use node black l e.1 e.2 r
    refine ⟨?_, .black hlbal hrbal, ?_⟩
    · rw [buildBalancedTree]
      simp only [hbounded, hmiddle]
      rw [if_neg (by omega)]
      split
      case isTrue hone =>
        -- a single node has no entries on either side
        obtain hk : 2 ^ k - 1 = 0 := by omega
        have hl0 : l = empty := by
          rw [buildBalancedTree] at hl
          simpa [hk] using hl.symm
        have hr0 : r = empty := by
          rw [buildBalancedTree] at hr
          simpa [hk] using hr.symm
        rw [hk, Nat.add_zero] at he
        rw [he, hl0, hr0]
        rfl
      case isFalse =>
        rw [hl, hr, he]
        rfl
    · rw [hsize, segment_split he, toList, hllist, hrlist]

/-- The number of entries the last digits of a numeral stand for. -/
def Base1_2List.size (bits current : ℕ) : ℕ := 2 ^ current - 1 + bits % 2 ^ current

theorem Base1_2List.size_succ (bits current : ℕ) :
  size bits (current + 1)
    = size bits current + (if bits.testBit current then 2 * 2 ^ current else 2 ^ current)
  := by
  have hpos : 0 < 2 ^ current := Nat.two_pow_pos current
  have hmod : bits % 2 ^ (current + 1)
      = bits % 2 ^ current + 2 ^ current * (bits / 2 ^ current % 2) := Nat.mod_pow_succ
  rw [size, size, hmod, Nat.pow_succ, Nat.testBit_eq_decide_div_mod_eq]
  rcases Nat.mod_two_eq_zero_or_one (bits / 2 ^ current) with hbit | hbit
  · rw [hbit, if_neg (by simp)]
    omega
  · rw [hbit, if_pos (by simp)]
    omega

/-- A pennant on top of what the digits after it stand for. -/
theorem buildPennants_cons
    {entries : List (κ × ν)} {ps : List (FLLRBColor × ℕ)} {index : ℕ}
    {left : FLLRBNode κ ν} (color : FLLRBColor) (current : ℕ)
    (hindex : index + 2 ^ current ≤ entries.length)
    (hleft : buildPennants entries ps index = some left)
    (hlist : left.toList = entries.take index) :
  ∃ k v child, Balanced child black current
    ∧ buildPennants entries ((color, 2 ^ current) :: ps) (index + 2 ^ current)
      = some (node color left k v child)
    ∧ (node color left k v child).toList = entries.take (index + 2 ^ current)
  := by
  have hpos : 0 < 2 ^ current := Nat.two_pow_pos current
  obtain ⟨e, he⟩ := exists_getElem? entries index (by omega)
  obtain ⟨child, hchild, hbal, hclist⟩ :=
    buildBalancedTree_spec entries current (index + 1) (by omega)
  use e.1, e.2, child, hbal
  constructor
  · simp [buildPennants, he, hchild, hleft]
  · have hsplit : segment entries 0 (index + 1 + (2 ^ current - 1))
        = segment entries 0 index ++ e :: segment entries (0 + index + 1) (2 ^ current - 1) :=
      segment_split (by simpa using he)
    rw [show index + 1 + (2 ^ current - 1) = index + 2 ^ current by omega, Nat.zero_add] at hsplit
    simp only [segment, List.drop_zero] at hsplit hclist
    rw [toList, hlist, hclist, hsplit]

/-- The pennants of the last digits form a balanced black tree of the first entries. -/
theorem buildPennants_spec
    (entries : List (κ × ν)) (bits current : ℕ)
    (h : Base1_2List.size bits current ≤ entries.length) :
  ∃ t, buildPennants entries (Base1_2List.pennants bits current) (Base1_2List.size bits current)
      = some t
    ∧ Balanced t black current ∧ t.toList = entries.take (Base1_2List.size bits current)
  := by
  induction current with
  | zero =>
    use empty
    simp [Base1_2List.pennants, buildPennants, Base1_2List.size, Nat.mod_one, toList,
      Balanced.empty]
  | succ current ih =>
    have hsize := Base1_2List.size_succ bits current
    obtain ⟨t, ht, hbal, hlist⟩ := ih (by omega)
    rw [Base1_2List.pennants]
    split at hsize
    case isTrue hbit =>
      rw [hsize, Nat.two_mul, ← Nat.add_assoc] at h ⊢
      rw [if_pos hbit]
      obtain ⟨k, v, child, hcbal, htree, htlist⟩ :=
        buildPennants_cons red current (by omega) ht hlist
      obtain ⟨k', v', child', hcbal', htree', htlist'⟩ :=
        buildPennants_cons black current (by omega) htree htlist
      use node black (node red t k v child) k' v' child'
      exact ⟨htree', .black (.red hbal hcbal) hcbal', htlist'⟩
    case isFalse hbit =>
      rw [hsize] at h ⊢
      rw [if_neg hbit]
      obtain ⟨k, v, child, hcbal, htree, htlist⟩ :=
        buildPennants_cons black current (by omega) ht hlist
      use node black t k v child
      exact ⟨htree, .black hbal hcbal, htlist⟩

/-- The numeral of a number stands for it. -/
theorem Base1_2List.size_new (length : ℕ) :
  size (new length).bits (new length).count = length
  := by
  have hle : 2 ^ Nat.log2 (length + 1) ≤ length + 1 := Nat.log2_self_le (by omega)
  have hlt : length + 1 < 2 ^ (Nat.log2 (length + 1) + 1) := Nat.lt_log2_self
  rw [Nat.pow_succ] at hlt
  have hmod : (length + 1) % 2 ^ Nat.log2 (length + 1)
      = length + 1 - 2 ^ Nat.log2 (length + 1) := by
    rw [Nat.mod_eq_sub_mod hle, Nat.mod_eq_of_lt (by omega)]
  change 2 ^ Nat.log2 (length + 1) - 1 + (length + 1) % 2 ^ Nat.log2 (length + 1)
    % 2 ^ Nat.log2 (length + 1) = length
  rw [Nat.mod_mod, hmod]
  omega

/-- The tree built from entries holds them in their order, has a root that is not red
and is balanced. -/
theorem rootFrom12List_spec (entries : List (κ × ν)) :
  ∃ t, rootFrom12List (.new entries.length) entries = some t
    ∧ Balanced t black (Base1_2List.new entries.length).count ∧ t.toList = entries
  := by
  have hsize := Base1_2List.size_new entries.length
  obtain ⟨t, ht, hbal, hlist⟩ := buildPennants_spec entries (Base1_2List.new entries.length).bits
    (Base1_2List.new entries.length).count (Nat.le_of_eq hsize)
  rw [hsize] at ht hlist
  use t, ht, hbal
  rw [hlist, List.take_length]

end FTreeSortedDictionary

end ForDream

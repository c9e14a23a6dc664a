import ForDream.Lib.Ascending
import Mathlib.Tactic.Use

/-!
# Left-leaning red-black trees

`FLLRBNode` is a node of a left-leaning red-black tree: the empty node, or a value
node with a color, two children, a key and a value.  `insertKey` and `remove` rebuild
the path to the key by `fixUp`; `remove` moves a red node along the path it descends.

The color of a node is never tested by the operations on the node itself, and a root
is painted black after each of them.
-/

namespace ForDream

/-- The color of a value node. -/
inductive FLLRBColor where
  | red
  | black
  deriving DecidableEq, Repr

namespace FLLRBColor

/-- The other color. -/
def flip : FLLRBColor → FLLRBColor
  | red => black
  | black => red

@[simp]
theorem flip_red :
  flip red = black
  := rfl

@[simp]
theorem flip_black :
  flip black = red
  := rfl

end FLLRBColor

/-- A node of a left-leaning red-black tree. -/
inductive FLLRBNode (κ ν : Type*) where
  | empty
  | node (color : FLLRBColor) (left : FLLRBNode κ ν) (key : κ) (value : ν) (right : FLLRBNode κ ν)
  deriving DecidableEq, Repr

namespace FLLRBNode

variable {κ ν : Type*}

/-- Whether the node is the empty node. -/
def isEmpty : FLLRBNode κ ν → Bool
  | empty => true
  | node .. => false

/-- Whether the node is red; the empty node is not. -/
def isRed : FLLRBNode κ ν → Bool
  | node .red .. => true
  | _ => false

/-- The left child; the empty node has none. -/
def left : FLLRBNode κ ν → FLLRBNode κ ν
  | empty => empty
  | node _ l _ _ _ => l

/-- The right child; the empty node has none. -/
def right : FLLRBNode κ ν → FLLRBNode κ ν
  | empty => empty
  | node _ _ _ _ r => r

/-- A copy in another color; the empty node is its own copy. -/
def paint (color : FLLRBColor) : FLLRBNode κ ν → FLLRBNode κ ν
  | empty => empty
  | node _ l k v r => node color l k v r

/-- A copy in the other color. -/
def flipped : FLLRBNode κ ν → FLLRBNode κ ν
  | empty => empty
  | node c l k v r => node c.flip l k v r

/-- The number of value nodes. -/
def count : FLLRBNode κ ν → ℕ
  | empty => 0
  | node _ l _ _ r => l.count + 1 + r.count

/-- The entries in the order of a traversal. -/
def toList : FLLRBNode κ ν → List (κ × ν)
  | empty => []
  | node _ l k v r => l.toList ++ (k, v) :: r.toList

/-- The entry of the leftmost value node. -/
def min : FLLRBNode κ ν → Option (κ × ν)
  | empty => none
  | node _ empty k v _ => some (k, v)
  | node _ l _ _ _ => l.min

/-- The right child takes the place of the node, which becomes its red left child.
The copy of an empty right child is that child. -/
def rotateLeft : FLLRBNode κ ν → FLLRBNode κ ν
  | node c l k v (node _ rl rk rv rr) => node c (node .red l k v rl) rk rv rr
  | _ => empty

/-- The left child takes the place of the node, which becomes its red right child. -/
def rotateRight : FLLRBNode κ ν → FLLRBNode κ ν
  | node c (node _ ll lk lv lr) k v r => node c ll lk lv (node .red lr k v r)
  | _ => empty

/-- The node and its children change their colors. -/
def colorFlip : FLLRBNode κ ν → FLLRBNode κ ν
  | empty => empty
  | node c l k v r => node c.flip l.flipped k v r.flipped

/-- A red right child is moved to the left. -/
def leanLeft (n : FLLRBNode κ ν) : FLLRBNode κ ν :=
  if n.right.isRed && !n.left.isRed then n.rotateLeft else n

/-- Two red nodes in a row on the left are moved apart. -/
def leanRight (n : FLLRBNode κ ν) : FLLRBNode κ ν :=
  if n.left.isRed && n.left.left.isRed then n.rotateRight else n

/-- Two red children pass their color to their parent. -/
def passUp (n : FLLRBNode κ ν) : FLLRBNode κ ν :=
  if n.left.isRed && n.right.isRed then n.colorFlip else n

/-- The three repairs of a node whose children changed, one after the other. -/
def fixUp (n : FLLRBNode κ ν) : FLLRBNode κ ν := n.leanLeft.leanRight.passUp

/-- The right child is copied by `rotateRight`. -/
def rotateRightChild : FLLRBNode κ ν → FLLRBNode κ ν
  | empty => empty
  | node c l k v r => node c l k v r.rotateRight

/-- A red node is moved to the left child. -/
def moveRedLeft (self : FLLRBNode κ ν) : FLLRBNode κ ν :=
  let n := self.colorFlip
  if n.right.left.isRed then n.rotateRightChild.rotateLeft.colorFlip else n

/-- A red node is moved to the right child. -/
def moveRedRight (self : FLLRBNode κ ν) : FLLRBNode κ ν :=
  let n := self.colorFlip
  if n.left.left.isRed then n.rotateRight.colorFlip else n

/-- The node `remove` descends to the left from. -/
def readyLeft (n : FLLRBNode κ ν) : FLLRBNode κ ν :=
  if !n.left.isEmpty && !n.left.isRed && !n.left.left.isRed then n.moveRedLeft else n

/-- A red left child is moved to the right. -/
def spillRight (n : FLLRBNode κ ν) : FLLRBNode κ ν := if n.left.isRed then n.rotateRight else n

/-- A right child that is not about to give up a red node gets one. -/
def borrowRight (n : FLLRBNode κ ν) : FLLRBNode κ ν :=
  if !n.right.isEmpty && !n.right.isRed && !n.right.left.isRed then n.moveRedRight else n

/-- The node `remove` descends to the right from. -/
def readyRight (n : FLLRBNode κ ν) : FLLRBNode κ ν := n.spillRight.borrowRight

section Simp

variable (c : FLLRBColor) (l : FLLRBNode κ ν) (k : κ) (v : ν) (r : FLLRBNode κ ν)

@[simp]
theorem left_node :
  (node c l k v r).left = l
  := rfl

@[simp]
theorem right_node :
  (node c l k v r).right = r
  := rfl

@[simp]
theorem isEmpty_node :
  (node c l k v r).isEmpty = false
  := rfl

@[simp]
theorem isEmpty_empty :
  (empty : FLLRBNode κ ν).isEmpty = true
  := rfl

@[simp]
theorem isRed_node_red :
  (node .red l k v r).isRed = true
  := rfl

@[simp]
theorem isRed_node_black :
  (node .black l k v r).isRed = false
  := rfl

@[simp]
theorem isRed_empty :
  (empty : FLLRBNode κ ν).isRed = false
  := rfl

@[simp]
theorem flipped_node :
  (node c l k v r).flipped = node c.flip l k v r
  := rfl

@[simp]
theorem flipped_empty :
  (empty : FLLRBNode κ ν).flipped = empty
  := rfl

end Simp

/-- A red node is a value node. -/
theorem exists_of_isRed {t : FLLRBNode κ ν} (h : t.isRed = true) :
  ∃ l k v r, t = node .red l k v r
  := by
  rcases t with _ | ⟨_ | _, l, k, v, r⟩
  · cases h
  · use l, k, v, r
  · cases h

section Traversal

variable (t : FLLRBNode κ ν)

theorem length_toList :
  t.toList.length = t.count
  := by
  induction t with
  | empty => rfl
  | node c l k v r ihl ihr =>
    simp only [toList, count, List.length_append, List.length_cons, ihl, ihr]
    omega

@[simp]
theorem toList_flipped :
  t.flipped.toList = t.toList
  := by
  cases t <;> rfl

@[simp]
theorem toList_paint (c : FLLRBColor) :
  (t.paint c).toList = t.toList
  := by
  cases t <;> rfl

@[simp]
theorem toList_colorFlip :
  t.colorFlip.toList = t.toList
  := by
  cases t <;> simp [colorFlip, toList]

theorem toList_rotateLeft {t : FLLRBNode κ ν} (h : t.right.isRed = true) :
  t.rotateLeft.toList = t.toList
  := by
  rcases t with _ | ⟨c, l, k, v, r⟩
  · cases h
  · obtain ⟨rl, rk, rv, rr, hr⟩ := exists_of_isRed h
    simp only [right] at hr
    simp [hr, rotateLeft, toList]

theorem toList_rotateRight {t : FLLRBNode κ ν} (h : t.left.isEmpty = false) :
  t.rotateRight.toList = t.toList
  := by
  rcases t with _ | ⟨c, _ | ⟨lc, ll, lk, lv, lr⟩, k, v, r⟩
  · cases h
  · cases h
  · simp [rotateRight, toList]

theorem isEmpty_eq_false_of_isRed {t : FLLRBNode κ ν} (h : t.isRed = true) :
  t.isEmpty = false
  := by
  obtain ⟨l, k, v, r, rfl⟩ := exists_of_isRed h
  rfl

theorem isEmpty_eq_false_of_left {t : FLLRBNode κ ν} (h : t.left.isRed = true) :
  t.isEmpty = false
  := by
  cases t with
  | empty => cases h
  | node c l k v r => rfl

@[simp]
theorem toList_leanLeft :
  t.leanLeft.toList = t.toList
  := by
  rw [leanLeft]
  split
  case isTrue h => apply toList_rotateLeft (Bool.and_eq_true_iff.mp h).1
  case isFalse => rfl

@[simp]
theorem toList_leanRight :
  t.leanRight.toList = t.toList
  := by
  rw [leanRight]
  split
  case isTrue h =>
    apply toList_rotateRight (isEmpty_eq_false_of_isRed (Bool.and_eq_true_iff.mp h).1)
  case isFalse => rfl

@[simp]
theorem toList_passUp :
  t.passUp.toList = t.toList
  := by
  rw [passUp]
  split
  · apply toList_colorFlip
  · rfl

@[simp]
theorem toList_fixUp :
  t.fixUp.toList = t.toList
  := by
  simp [fixUp]

@[simp]
theorem toList_moveRedLeft :
  t.moveRedLeft.toList = t.toList
  := by
  rw [moveRedLeft]
  split
  case isTrue h =>
    rcases t with _ | ⟨c, l, k, v, _ | ⟨rc, _ | ⟨rlc, rll, rlk, rlv, rlr⟩, rk, rv, rr⟩⟩
    · cases h
    · cases h
    · cases h
    · simp [colorFlip, rotateRightChild, rotateRight, rotateLeft, toList]
  case isFalse => apply toList_colorFlip

@[simp]
theorem toList_moveRedRight :
  t.moveRedRight.toList = t.toList
  := by
  rw [moveRedRight]
  split
  case isTrue h =>
    rw [toList_colorFlip, toList_rotateRight (isEmpty_eq_false_of_left h), toList_colorFlip]
  case isFalse => apply toList_colorFlip

@[simp]
theorem toList_readyLeft :
  t.readyLeft.toList = t.toList
  := by
  rw [readyLeft]
  split <;> simp

@[simp]
theorem toList_readyRight :
  t.readyRight.toList = t.toList
  := by
  have hspill : t.spillRight.toList = t.toList := by
    rw [spillRight]
    split
    case isTrue h => apply toList_rotateRight (isEmpty_eq_false_of_isRed h)
    case isFalse => rfl
  rw [readyRight, borrowRight]
  split <;> simp [hspill]

end Traversal

/-- The parts of a node with the same traversal are smaller. -/
theorem count_of_toList_eq
    {t l r : FLLRBNode κ ν} {c : FLLRBColor} {k : κ} {v : ν}
    (h : (node c l k v r).toList = t.toList) :
  l.count + 1 + r.count = t.count
  := by
  rw [← length_toList t, ← h, length_toList, count]

/-- The tree without its leftmost value node. -/
def removeMin : FLLRBNode κ ν → FLLRBNode κ ν
  | empty => empty
  | node _ empty _ _ _ => empty
  | node c l k v r =>
      match _hready : readyLeft (node c l k v r) with
      | empty => empty
      | node c' l' k' v' r' => (node c' l'.removeMin k' v' r').fixUp
termination_by t => t.count
decreasing_by
  have := count_of_toList_eq (_hready ▸ toList_readyLeft (node c l k v r))
  omega

/-- `removeMin` descends from the node `readyLeft` gives. -/
theorem removeMin_of_ready
    {c c' : FLLRBColor} {l r l' r' : FLLRBNode κ ν} {k k' : κ} {v v' : ν}
    (hl : l ≠ empty) (h : readyLeft (node c l k v r) = node c' l' k' v' r') :
  removeMin (node c l k v r) = (node c' l'.removeMin k' v' r').fixUp
  := by
  rw [removeMin]
  · split
    case h_1 h' =>
      rw [h] at h'
      cases h'
    case h_2 h' =>
      rw [h] at h'
      cases h'
      rfl
  · exact hl

theorem count_removeMin_le (t : FLLRBNode κ ν) :
  t.removeMin.count ≤ t.count
  := by
  induction t using removeMin.induct with
  | case1 => simp [removeMin]
  | case2 => simp [removeMin, count]
  | case3 c l k v r hl h =>
    have hlen := congrArg List.length (h ▸ toList_readyLeft (node c l k v r))
    simp [toList] at hlen
  | case4 c l k v r hl c' l' k' v' r' h ih =>
    have hcount := count_of_toList_eq (h ▸ toList_readyLeft (node c l k v r))
    rw [removeMin_of_ready hl h, ← length_toList, toList_fixUp, length_toList, ← hcount, count]
    omega

section Operations

variable (cmp : Comparator κ) (aKey : κ)

/-- The tree with a value for a key. -/
def insertKey (aValue : ν) : FLLRBNode κ ν → FLLRBNode κ ν
  | empty => node .red empty aKey aValue empty
  | node c l k v r =>
      match cmp aKey k with
      | .lt => (node c (l.insertKey aValue) k v r).fixUp
      | .eq => (node c l k aValue r).fixUp
      | .gt => (node c l k v (r.insertKey aValue)).fixUp

/-- The tree without a key.  When the key is found its entry is replaced by the least
one on the right, and the descent to the right goes on. -/
def remove : FLLRBNode κ ν → FLLRBNode κ ν
  | empty => empty
  | node c l k v r =>
      if cmp aKey k = .lt then
        match _hready : readyLeft (node c l k v r) with
        | empty => empty
        | node c' l' k' v' r' => (node c' l'.remove k' v' r').fixUp
      else
        match _hready : readyRight (node c l k v r) with
        | empty => empty
        | node c' l' k' v' r' =>
            if cmp aKey k' = .eq then
              match r'.min with
              | none => empty
              | some (k₀, v₀) => (node c' l' k₀ v₀ r'.removeMin.remove).fixUp
            else (node c' l' k' v' r'.remove).fixUp
termination_by t => t.count
decreasing_by
  · have := count_of_toList_eq (_hready ▸ toList_readyLeft (node c l k v r))
    omega
  · have := count_of_toList_eq (_hready ▸ toList_readyRight (node c l k v r))
    have := count_removeMin_le r'
    omega
  · have := count_of_toList_eq (_hready ▸ toList_readyRight (node c l k v r))
    omega

variable {cmp aKey}

section Ready

variable {c c' : FLLRBColor} {l r l' r' : FLLRBNode κ ν} {k k' k₀ : κ} {v v' v₀ : ν}

/-- `remove` of a key before the key of the node. -/
theorem remove_of_lt
    (hk : cmp aKey k = .lt) (h : readyLeft (node c l k v r) = node c' l' k' v' r') :
  remove cmp aKey (node c l k v r) = (node c' (remove cmp aKey l') k' v' r').fixUp
  := by
  rw [remove, if_pos hk]
  split
  case h_1 h' =>
    rw [h] at h'
    cases h'
  case h_2 h' =>
    rw [h] at h'
    cases h'
    rfl

/-- `remove` of a key that is not before the key of the node. -/
theorem remove_of_ge
    (hk : cmp aKey k ≠ .lt) (h : readyRight (node c l k v r) = node c' l' k' v' r') :
  remove cmp aKey (node c l k v r)
    = if cmp aKey k' = .eq then
        match r'.min with
        | none => empty
        | some (k₀, v₀) => (node c' l' k₀ v₀ (remove cmp aKey r'.removeMin)).fixUp
      else (node c' l' k' v' (remove cmp aKey r')).fixUp
  := by
  rw [remove, if_neg hk]
  split
  case h_1 h' =>
    rw [h] at h'
    cases h'
  case h_2 h' =>
    rw [h] at h'
    cases h'
    rfl

end Ready

end Operations

end FLLRBNode

end ForDream

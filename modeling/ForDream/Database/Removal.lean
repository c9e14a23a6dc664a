import ForDream.Database.Balance
import Mathlib.Tactic.Common

/-!
# Removal from left-leaning red-black trees

A tree can spare a node of its path when its root is red or the left child of its
root is: `Spare`.  `remove` descends only into such trees, or into a tree whose right
child is red when the key is not before its own: `Ready`.  What is left of a tree that
can spare a node has the height of the tree, and is black if the tree was: `Shrunk`.
-/

namespace ForDream

namespace FLLRBNode

open FLLRBColor

variable {κ ν : Type*}

/-! ## The color of the root -/

section Flipped

variable (t : FLLRBNode κ ν)

@[simp]
theorem left_flipped :
  t.flipped.left = t.left
  := by
  cases t <;> rfl

@[simp]
theorem right_flipped :
  t.flipped.right = t.right
  := by
  cases t <;> rfl

@[simp]
theorem flipped_flipped :
  t.flipped.flipped = t
  := by
  rcases t with _ | ⟨_ | _, l, k, v, r⟩ <;> rfl

@[simp]
theorem paint_flipped (c : FLLRBColor) :
  t.flipped.paint c = t.paint c
  := by
  cases t <;> rfl

theorem rotateLeft_flipped :
  t.flipped.rotateLeft = t.rotateLeft.flipped
  := by
  rcases t with _ | ⟨c, l, k, v, _ | ⟨rc, rl, rk, rv, rr⟩⟩ <;> rfl

theorem rotateRight_flipped :
  t.flipped.rotateRight = t.rotateRight.flipped
  := by
  rcases t with _ | ⟨c, _ | ⟨lc, ll, lk, lv, lr⟩, k, v, r⟩ <;> rfl

theorem colorFlip_flipped :
  t.flipped.colorFlip = t.colorFlip.flipped
  := by
  cases t <;> rfl

theorem rotateRightChild_flipped :
  t.flipped.rotateRightChild = t.rotateRightChild.flipped
  := by
  cases t <;> rfl

theorem fixUp_flipped :
  t.flipped.fixUp = t.fixUp.flipped
  := by
  have hleft : ∀ s : FLLRBNode κ ν, s.flipped.leanLeft = s.leanLeft.flipped := by
    intro s
    simp only [leanLeft, left_flipped, right_flipped, rotateLeft_flipped]
    split <;> rfl
  have hright : ∀ s : FLLRBNode κ ν, s.flipped.leanRight = s.leanRight.flipped := by
    intro s
    simp only [leanRight, left_flipped, rotateRight_flipped]
    split <;> rfl
  have hup : ∀ s : FLLRBNode κ ν, s.flipped.passUp = s.passUp.flipped := by
    intro s
    simp only [passUp, left_flipped, right_flipped, colorFlip_flipped]
    split <;> rfl
  simp only [fixUp, hleft, hright, hup]

theorem readyLeft_flipped :
  t.flipped.readyLeft = t.readyLeft.flipped
  := by
  have hmove : t.flipped.moveRedLeft = t.moveRedLeft.flipped := by
    simp only [moveRedLeft, colorFlip_flipped, right_flipped, rotateRightChild_flipped,
      rotateLeft_flipped]
    split <;> rfl
  simp only [readyLeft, left_flipped, hmove]
  split <;> rfl

theorem readyRight_flipped :
  t.flipped.readyRight = t.readyRight.flipped
  := by
  have hspill : t.flipped.spillRight = t.spillRight.flipped := by
    simp only [spillRight, left_flipped, rotateRight_flipped]
    split <;> rfl
  have hmove : ∀ s : FLLRBNode κ ν, s.flipped.moveRedRight = s.moveRedRight.flipped := by
    intro s
    simp only [moveRedRight, colorFlip_flipped, left_flipped, rotateRight_flipped]
    split <;> rfl
  simp only [readyRight, borrowRight, hspill, right_flipped, hmove]
  split <;> rfl

/-- A tree with an entry is a value node. -/
theorem exists_of_toList_eq
    {s l r : FLLRBNode κ ν} {c : FLLRBColor} {k : κ} {v : ν}
    (h : s.toList = (node c l k v r).toList) :
  ∃ c' l' k' v' r', s = node c' l' k' v' r'
  := by
  cases s with
  | empty =>
    have hlen := congrArg List.length h
    simp [toList] at hlen
  | node c' l' k' v' r' => use c', l', k', v', r'

/-- `remove` commutes with a change of the color of the root. -/
theorem remove_flipped (cmp : Comparator κ) (aKey : κ) :
  remove cmp aKey t.flipped = (remove cmp aKey t).flipped
  := by
  cases t with
  | empty => simp [remove]
  | node c l k v r =>
    by_cases hk : cmp aKey k = .lt
    · obtain ⟨c', l', k', v', r', h⟩ := exists_of_toList_eq (toList_readyLeft (node c l k v r))
      have h' := readyLeft_flipped (node c l k v r)
      rw [h, flipped_node, flipped_node] at h'
      rw [flipped_node, remove_of_lt hk h, remove_of_lt hk h', ← flipped_node, fixUp_flipped]
    · obtain ⟨c', l', k', v', r', h⟩ := exists_of_toList_eq (toList_readyRight (node c l k v r))
      have h' := readyRight_flipped (node c l k v r)
      rw [h, flipped_node, flipped_node] at h'
      rw [flipped_node, remove_of_ge hk h, remove_of_ge hk h']
      split
      · split
        · rfl
        · rw [← flipped_node, fixUp_flipped]
      · rw [← flipped_node, fixUp_flipped]

end Flipped

variable {cmp : Comparator κ} {aKey : κ} {l r s t : FLLRBNode κ ν} {k : κ} {v : ν}
  {c d : FLLRBColor} {n m : ℕ}

/-! ## Trees that can spare a node -/

/-- The root or its left child is red. -/
inductive Spare : FLLRBNode κ ν → FLLRBColor → ℕ → Prop
  | red {l r : FLLRBNode κ ν} {k : κ} {v : ν} {n : ℕ} :
      Balanced l black n → Balanced r black n → Spare (node red l k v r) red n
  | left {l r : FLLRBNode κ ν} {k : κ} {v : ν} {n : ℕ} :
      Balanced l red n → Balanced r black n → Spare (node black l k v r) black (n + 1)

/-- What is left of a tree of color `c` and height `n` that could spare a node. -/
def Shrunk (t : FLLRBNode κ ν) (c : FLLRBColor) (n : ℕ) : Prop :=
  Balanced t black n ∨ (c = red ∧ Balanced t red n)

theorem Spare.of_red (h : Balanced t .red n) :
  Spare t .red n
  := by
  cases h with
  | red hl hr => exact .red hl hr

theorem Spare.balanced (h : Spare t c n) :
  Balanced t c n
  := by
  cases h with
  | red hl hr => exact .red hl hr
  | left hl hr => exact .black hl hr

theorem Shrunk.of_black (h : Shrunk t .black n) :
  Balanced t .black n
  := by
  rcases h with h | ⟨hc, -⟩
  · exact h
  · cases hc

theorem Shrunk.balanced (h : Shrunk t c n) :
  ∃ d, Balanced t d n
  := by
  rcases h with h | ⟨-, h⟩
  · use .black
  · use .red

/-- A balanced tree is of the color its place asks for. -/
theorem Shrunk.of_balanced (h : Balanced t c n) :
  Shrunk t c n
  := by
  cases c with
  | red => exact .inr ⟨rfl, h⟩
  | black => exact .inl h

/-- A node the descent to the left can start from: its left child can spare a node, and
the node is repaired whether the left child shrinks or stays as it is. -/
inductive LeftReady : FLLRBNode κ ν → FLLRBColor → ℕ → Prop
  | intro {l r : FLLRBNode κ ν} {k : κ} {v : ν} {c c' d : FLLRBColor} {n m : ℕ} :
      Spare l d m →
      (∀ s, Shrunk s d m → Shrunk (node c' s k v r).fixUp c n) →
      (∀ s, Balanced s d m → Balanced (node c' s k v r).fixUp c n) →
      LeftReady (node c' l k v r) c n

theorem leftReady_black (hl : Spare l d n) (hr : Balanced r .black n) :
  LeftReady (node .black l k v r) .black (n + 1)
  := by
  apply LeftReady.intro hl
  · intro s hs
    obtain ⟨d', hs⟩ := hs.balanced
    rw [fixUp_of_leaning hs hr]
    exact .inl (.black hs hr)
  · intro s hs
    rw [fixUp_of_leaning hs hr]
    exact .black hs hr

theorem leftReady_red (hl : Spare l .black n) (hr : Balanced r .black n) :
  LeftReady (node .red l k v r) .red n
  := by
  apply LeftReady.intro hl
  · intro s hs
    rw [fixUp_of_leaning hs.of_black hr]
    exact .inr ⟨rfl, .red hs.of_black hr⟩
  · intro s hs
    rw [fixUp_of_leaning hs hr]
    exact .red hs hr

theorem leftReady_flip (hl : Balanced l .red n) (hr : Balanced r .red n) :
  LeftReady (node .black l k v r) .red (n + 1)
  := by
  have hred : ∀ s, Balanced s .red n → Balanced (node .black s k v r).fixUp .red (n + 1) := by
    intro s hs
    rw [fixUp_of_red hs hr]
    exact .red hs.flipped hr.flipped
  apply LeftReady.intro (.of_red hl)
  · intro s hs
    rcases hs with hs | ⟨-, hs⟩
    · exact .inl (leaning_fixUp hs hr).balanced
    · exact .inr ⟨rfl, hred s hs⟩
  · exact hred

/-- A node that can spare a node is made ready for the descent to the left. -/
theorem Spare.leftReady (h : Spare t c n) (hleft : t.left ≠ .empty) :
  LeftReady t.readyLeft c n
  := by
  cases h with
  | left hl hr =>
    rw [readyLeft, if_neg (by simp [hl.isRed_true])]
    apply leftReady_black (.of_red hl) hr
  | red hl hr =>
    cases hl with
    | empty => contradiction
    | @black ll lr lk lv cll m hll hlr =>
      cases cll with
      | red =>
        rw [readyLeft, if_neg (by simp [hll.isRed_true])]
        apply leftReady_red (.left hll hlr) hr
      | black =>
        rw [readyLeft, if_pos (by simp [hll.isRed_false])]
        cases hr with
        | @black rl rr rk rv crl _ hrl hrr =>
          cases hrl with
          | red hrll hrlr =>
            apply leftReady_red (.left (.red hll hlr) hrll) (.black hrlr hrr)
          | empty => apply leftReady_flip (.red hll hlr) (.red .empty hrr)
          | black hrll hrlr => apply leftReady_flip (.red hll hlr) (.red (.black hrll hrlr) hrr)

/-- The key of a node made ready for the descent to the left is its own or one of its
right child. -/
theorem key_readyLeft
    {c' : FLLRBColor} {l' r' : FLLRBNode κ ν} {k' : κ} {v' : ν}
    (h : readyLeft (node c l k v r) = node c' l' k' v' r') :
  k' = k ∨ (k', v') ∈ r.toList
  := by
  rw [readyLeft] at h
  split at h
  case isFalse =>
    cases h
    exact .inl rfl
  case isTrue =>
    rw [moveRedLeft] at h
    split at h
    case isFalse =>
      cases h
      exact .inl rfl
    case isTrue hred =>
      rcases r with _ | ⟨rc, _ | ⟨rlc, rll, rlk, rlv, rlr⟩, rk, rv, rr⟩
      · cases hred
      · cases hred
      · cases h
        right
        simp [toList]

/-! ## Removing the least entry -/

/-- `min` is the first entry of a traversal. -/
theorem head?_toList (t : FLLRBNode κ ν) :
  t.toList.head? = t.min
  := by
  induction t with
  | empty => rfl
  | node c l k v r ihl ihr =>
    cases l with
    | empty => rfl
    | node lc ll lk lv lr =>
      rw [toList, List.head?_append_of_ne_nil _ (by simp [toList]), ihl]
      rfl

/-- `removeMin` takes the first entry away, and the tree shrinks as it may. -/
theorem Spare.removeMin (h : Spare t c n) :
  Shrunk t.removeMin c n ∧ t.removeMin.toList = t.toList.tail
  := by
  induction hcount : t.count using Nat.strongRecOn generalizing t c n with
  | _ m ih =>
    cases t with
    | empty => cases h
    | node c₀ l k v r =>
      by_cases hl : l = .empty
      · -- a node without a left child that can spare a node is a red leaf
        subst hl
        cases h with
        | left hl hr => cases hl
        | red hl hr =>
          obtain ⟨-, rfl⟩ := hl.eq_of_empty
          obtain rfl := hr.eq_empty
          rw [FLLRBNode.removeMin]
          exact ⟨.inl .empty, rfl⟩
      · have hlist := toList_readyLeft (node c₀ l k v r)
        obtain ⟨c', l', k', v', r', hs⟩ := exists_of_toList_eq hlist
        have hready := h.leftReady hl
        rw [hs] at hready hlist
        cases hready with
        | intro hl' hshrunk _ =>
          have hlt := count_of_toList_eq hlist
          obtain ⟨hs', htail⟩ := ih l'.count (by omega) hl' rfl
          rw [removeMin_of_ready hl hs]
          use hshrunk _ hs'
          have hne : l'.toList ≠ [] := by cases hl' <;> simp [toList]
          rw [toList_fixUp, ← hlist, toList, toList, htail, List.tail_append_of_ne_nil hne]

/-! ## A key before all others -/

/-- Removing a key before all others keeps the entries, the color and the height. -/
theorem Spare.remove_absent
    (h : Spare t c n) (hkeys : ∀ p ∈ t.toList, cmp aKey p.1 = .lt) :
  Balanced (remove cmp aKey t) c n ∧ (remove cmp aKey t).toList = t.toList
  := by
  induction hcount : t.count using Nat.strongRecOn generalizing t c n with
  | _ m ih =>
    cases t with
    | empty => cases h
    | node c₀ l k v r =>
      have hk : cmp aKey k = .lt := hkeys (k, v) (by simp [toList])
      by_cases hl : l = .empty
      · subst hl
        have hself : readyLeft (node c₀ .empty k v r) = node c₀ .empty k v r := by
          simp [readyLeft]
        rw [remove_of_lt hk hself, remove]
        cases h with
        | left hl hr => cases hl
        | red hl hr =>
          rw [fixUp_of_leaning hl hr]
          exact ⟨.red hl hr, rfl⟩
      · have hlist := toList_readyLeft (node c₀ l k v r)
        obtain ⟨c', l', k', v', r', hs⟩ := exists_of_toList_eq hlist
        have hready := h.leftReady hl
        rw [hs] at hready hlist
        cases hready with
        | intro hl' _ hsame =>
          have hlt := count_of_toList_eq hlist
          have hkeys' : ∀ p ∈ l'.toList, cmp aKey p.1 = .lt := by
            intro p hp
            apply hkeys
            rw [← hlist]
            simp [toList, hp]
          obtain ⟨hs', hl''⟩ := ih l'.count (by omega) hl' hkeys' rfl
          rw [remove_of_lt hk hs]
          use hsame _ hs'
          rw [toList_fixUp, ← hlist, toList, toList, hl'']

/-- The same for every balanced tree; a black node with black children is taken as a
red one. -/
theorem Balanced.remove_absent
    (h : Balanced t c n) (hkeys : ∀ p ∈ t.toList, cmp aKey p.1 = .lt) :
  Balanced (remove cmp aKey t) c n ∧ (remove cmp aKey t).toList = t.toList
  := by
  cases h with
  | empty =>
    rw [remove]
    exact ⟨.empty, rfl⟩
  | red hl hr => apply (Spare.red hl hr).remove_absent hkeys
  | @black l r k v d m hl hr =>
    cases d with
    | red => apply (Spare.left hl hr).remove_absent hkeys
    | black =>
      have hred : Spare (node .red l k v r) .red m := .red hl hr
      have hremove := remove_flipped (node .red l k v r) cmp aKey
      obtain ⟨hbal, hlist⟩ := hred.remove_absent hkeys
      rw [flipped_node, flip_red] at hremove
      rw [hremove, toList_flipped, hlist]
      exact ⟨hbal.flipped, rfl⟩

/-- The least entry and what is left on the right once the descent after a found key
has gone through it. -/
theorem Spare.removeMin_absent
    (h : Spare t c n) (hkeys : ∀ p ∈ t.toList, cmp aKey p.1 = .lt) :
  ∃ k₀ v₀, t.min = some (k₀, v₀)
    ∧ Shrunk (remove cmp aKey t.removeMin) c n
    ∧ (k₀, v₀) :: (remove cmp aKey t.removeMin).toList = t.toList
  := by
  obtain ⟨hshrunk, htail⟩ := h.removeMin
  have hhead := head?_toList t
  have hkeys' : ∀ p ∈ t.removeMin.toList, cmp aKey p.1 = .lt := by
    intro p hp
    rw [htail] at hp
    apply hkeys p (List.mem_of_mem_tail hp)
  rcases hmin : t.min with _ | ⟨k₀, v₀⟩
  · rw [hmin, List.head?_eq_none_iff] at hhead
    cases h <;> simp [toList] at hhead
  · rw [hmin] at hhead
    refine ⟨k₀, v₀, rfl, ?_, ?_⟩
    · rcases hshrunk with hbal | ⟨hc, hbal⟩
      · exact .inl (hbal.remove_absent hkeys').1
      · exact .inr ⟨hc, (hbal.remove_absent hkeys').1⟩
    · obtain ⟨d, hbal⟩ := hshrunk.balanced
      rw [(hbal.remove_absent hkeys').2, htail]
      apply List.cons_head?_tail hhead

/-! ## Removing a key -/

/-- A tree `remove` descends into: one that can spare a node, or one with a red right
child when the key is not before its own. -/
inductive Ready (cmp : Comparator κ) (aKey : κ) : FLLRBNode κ ν → FLLRBColor → ℕ → Prop
  | spare {t : FLLRBNode κ ν} {c : FLLRBColor} {n : ℕ} : Spare t c n → Ready cmp aKey t c n
  | right {l r : FLLRBNode κ ν} {k : κ} {v : ν} {n : ℕ} :
      Balanced l black n → Balanced r red n → cmp aKey k ≠ .lt →
      Ready cmp aKey (node black l k v r) black (n + 1)

/-- A node the descent to the right can start from: a leaf, or a node that is repaired
when its right child shrinks.  The entry of the node is taken away only from a node
whose right child can spare one. -/
inductive RightReady (cmp : Comparator κ) (aKey : κ) : FLLRBNode κ ν → FLLRBColor → ℕ → Prop
  | leaf {k : κ} {v : ν} : cmp aKey k ≠ .lt → RightReady cmp aKey (node red empty k v empty) red 0
  | intro {l r : FLLRBNode κ ν} {k : κ} {v : ν} {c c' d : FLLRBColor} {n m : ℕ} :
      Ready cmp aKey r d m → cmp aKey k ≠ .lt → (cmp aKey k = .eq → Spare r d m) →
      (∀ s k₀ v₀, Shrunk s d m → Shrunk (node c' l k₀ v₀ s).fixUp c n) →
      RightReady cmp aKey (node c' l k v r) c n

theorem rightReady_black
    (hl : Balanced l .black n) (hr : Balanced r .red n) (hk : cmp aKey k ≠ .lt) :
  RightReady cmp aKey (node .black l k v r) .black (n + 1)
  := by
  apply RightReady.intro (.spare (.of_red hr)) hk (fun _ => .of_red hr)
  intro s k₀ v₀ hs
  obtain ⟨d, hs⟩ := hs.balanced
  exact .inl (leaning_fixUp hl hs).balanced

theorem rightReady_red
    (hl : Balanced l .black n) (hr : Ready cmp aKey r .black n) (hk : cmp aKey k ≠ .lt)
    (heq : cmp aKey k = .eq → Spare r .black n) :
  RightReady cmp aKey (node .red l k v r) .red n
  := by
  apply RightReady.intro hr hk heq
  intro s k₀ v₀ hs
  rw [fixUp_of_leaning hl hs.of_black]
  exact .inr ⟨rfl, .red hl hs.of_black⟩

theorem rightReady_flip
    (hl : Balanced l .red n) (hr : Balanced r .red n) (hk : cmp aKey k ≠ .lt) :
  RightReady cmp aKey (node .black l k v r) .red (n + 1)
  := by
  apply RightReady.intro (.spare (.of_red hr)) hk (fun _ => .of_red hr)
  intro s k₀ v₀ hs
  rcases hs with hs | ⟨-, hs⟩
  · rw [fixUp_of_leaning hl hs]
    exact .inl (.black hl hs)
  · rw [fixUp_of_red hl hs]
    exact .inr ⟨rfl, .red hl.flipped hs.flipped⟩

/-- A node of a tree `remove` descends into is made ready for the descent to the
right. -/
theorem Ready.rightReady
    (h : Ready cmp aKey (node c l k v r) d n) (hk : cmp aKey k ≠ .lt)
    (hkeys : ∀ p ∈ l.toList, cmp p.1 k = .lt) :
  RightReady cmp aKey (readyRight (node c l k v r)) d n
  := by
  -- an entry that comes up from the left is before the key
  have hup : ∀ p ∈ l.toList, cmp aKey p.1 = .gt := by
    intro p hp
    apply Comparator.gt_of_ge_of_lt hk (hkeys p hp)
  cases h with
  | right hl hr _ =>
    have hready : readyRight (node .black l k v r) = node .black l k v r := by
      simp [readyRight, spillRight, borrowRight, hl.isRed_false, hr.isRed_true]
    rw [hready]
    apply rightReady_black hl hr hk
  | spare h =>
    cases h with
    | left hl hr =>
      cases hl with
      | @red ll lr lk lv _ hll hlr =>
        have hlk := hup (lk, lv) (by simp [toList])
        apply rightReady_black hll (.red hlr hr) (by simp [hlk])
    | red hl hr =>
      have hspill : spillRight (node .red l k v r) = node .red l k v r := by
        simp [spillRight, hl.isRed_false]
      rw [readyRight, hspill]
      cases hr with
      | empty =>
        obtain rfl := hl.eq_empty
        exact .leaf hk
      | @black rl rr rk rv crl m hrl hrr =>
        cases crl with
        | red =>
          rw [borrowRight, if_neg (by simp [hrl.isRed_true])]
          have hspare : Spare (node .black rl rk rv rr) .black (m + 1) := .left hrl hrr
          apply rightReady_red hl (.spare hspare) hk (fun _ => hspare)
        | black =>
          rw [borrowRight, if_pos (by simp [hrl.isRed_false])]
          cases hl with
          | @black ll lr lk lv cll _ hll hlr =>
            cases hll with
            | @red a b ak av _ ha hb =>
              have hlk := hup (lk, lv) (by simp [toList])
              apply rightReady_red (.black ha hb) (.right hlr (.red hrl hrr) hk) (by simp [hlk])
              intro heq
              rw [hlk] at heq
              cases heq
            | empty => apply rightReady_flip (.red .empty hlr) (.red hrl hrr) hk
            | black ha hb => apply rightReady_flip (.red (.black ha hb) hlr) (.red hrl hrr) hk

/-- `remove` takes the entry of the key away, and the tree shrinks as it may. -/
theorem Ready.remove (h : Ready cmp aKey t c n) (hasc : Assoc.Ascending cmp t.toList) :
  Shrunk (remove cmp aKey t) c n
    ∧ (remove cmp aKey t).toList = Assoc.erase cmp aKey t.toList
  := by
  induction hcount : t.count using Nat.strongRecOn generalizing t c n with
  | _ m ih =>
    cases t with
    | empty =>
      cases h with
      | spare h => cases h
    | node c₀ l k v r =>
      obtain ⟨-, -, hlk, hkr⟩ := Assoc.ascending_append.mp hasc
      by_cases hk : cmp aKey k = .lt
      · have hspare : Spare (node c₀ l k v r) c n := by
          cases h with
          | spare h => exact h
          | right _ _ hk' => contradiction
        by_cases hl : l = .empty
        · -- a key before the key of a red leaf
          subst hl
          have hkeys : ∀ p ∈ (node c₀ .empty k v r).toList, cmp aKey p.1 = .lt := by
            intro p hp
            apply Assoc.lt_of_lt_entry hasc hk p
            simpa [toList] using hp
          obtain ⟨hbal, hlist⟩ := hspare.remove_absent hkeys
          use .of_balanced hbal
          rw [hlist]
          exact (Assoc.erase_of_lt hasc hk).symm
        · have hlist := toList_readyLeft (node c₀ l k v r)
          obtain ⟨c', l', k', v', r', hs⟩ := exists_of_toList_eq hlist
          have hready := hspare.leftReady hl
          rw [hs] at hready hlist
          have hk' : cmp aKey k' = .lt := by
            rcases key_readyLeft hs with rfl | hmem
            · exact hk
            · apply Comparator.lt_trans hk (hkr _ hmem)
          cases hready with
          | intro hl' hshrunk _ =>
            have hlt := count_of_toList_eq hlist
            rw [← hlist] at hasc
            obtain ⟨hs', hl''⟩ := ih l'.count (by omega) (.spare hl') hasc.left rfl
            rw [remove_of_lt hk hs]
            use hshrunk _ hs'
            rw [toList_fixUp, ← hlist, toList, toList, hl'', Assoc.erase_of_lt hasc hk']
      · have hlist := toList_readyRight (node c₀ l k v r)
        obtain ⟨c', l', k', v', r', hs⟩ := exists_of_toList_eq hlist
        have hready := h.rightReady hk hlk
        rw [hs] at hready hlist
        rw [← hlist] at hasc
        rw [remove_of_ge hk hs, ← hlist]
        cases hready with
        | leaf hk' =>
          split
          case isTrue heq =>
            use .inl .empty
            rw [toList, Assoc.erase_of_eq hasc heq]
            rfl
          case isFalse hne =>
            have hgt : cmp aKey k' = .gt := by
              rcases hcmp : cmp aKey k' with _ | _ | _ <;> simp_all
            rw [FLLRBNode.remove, fixUp_of_leaning .empty .empty]
            use .inr ⟨rfl, .red .empty .empty⟩
            rw [toList, Assoc.erase_of_gt hasc hgt]
            rfl
        | intro hr' hk' heq' hshrunk =>
          have hlt := count_of_toList_eq hlist
          split
          case isTrue heq =>
            have hafter : ∀ p ∈ r'.toList, cmp aKey p.1 = .lt := by
              intro p hp
              rw [Comparator.congr_left heq]
              apply (Assoc.ascending_append.mp hasc).2.2.2 p hp
            obtain ⟨k₀, v₀, hmin, hs', hr''⟩ := (heq' heq).removeMin_absent hafter
            simp only [hmin]
            use hshrunk _ k₀ v₀ hs'
            rw [toList_fixUp, toList, hr'', toList, Assoc.erase_of_eq hasc heq]
          case isFalse hne =>
            have hgt : cmp aKey k' = .gt := by
              rcases hcmp : cmp aKey k' with _ | _ | _ <;> simp_all
            obtain ⟨hs', hr''⟩ := ih r'.count (by omega) hr' hasc.right rfl
            use hshrunk _ _ _ hs'
            rw [toList_fixUp, toList, toList, hr'', Assoc.erase_of_gt hasc hgt]

/-- `remove` from a balanced tree takes the entry of the key away, and leaves a tree
that is balanced once its root is painted black. -/
theorem Balanced.remove (aKey : κ) (h : Balanced t .black n) (hasc : Assoc.Ascending cmp t.toList) :
  (∃ m, Balanced ((remove cmp aKey t).paint .black) .black m)
    ∧ (remove cmp aKey t).toList = Assoc.erase cmp aKey t.toList
  := by
  cases h with
  | empty =>
    rw [FLLRBNode.remove]
    exact ⟨⟨0, .empty⟩, rfl⟩
  | @black l r k v d m hl hr =>
    cases d with
    | red =>
      have hready : Ready cmp aKey (node .black l k v r) .black (m + 1) := .spare (.left hl hr)
      obtain ⟨hs, hlist⟩ := hready.remove hasc
      exact ⟨hs.of_black.paint, hlist⟩
    | black =>
      have hred : Ready cmp aKey (node .red l k v r) .red m := .spare (.red hl hr)
      have hremove := remove_flipped (node .red l k v r) cmp aKey
      obtain ⟨hs, hlist⟩ := hred.remove hasc
      obtain ⟨d, hbal⟩ := hs.balanced
      rw [flipped_node, flip_red] at hremove
      rw [hremove, paint_flipped, toList_flipped, hlist]
      exact ⟨hbal.paint, rfl⟩

end FLLRBNode

end ForDream

import ForDream.Database.Tree
import Mathlib.Algebra.Ring.Nat

/-!
# Balance of left-leaning red-black trees

`Balanced t c n` says that the root of `t` has the color `c`, that no red node has a
red child, that only left children are red and that every path to an empty node has
`n` black nodes; it is what `check` computes.

`insertKey` and `remove` keep trees balanced once the root is painted black.  For
`remove` the argument rests on two facts: the operations commute with a change of the
color of the root, so that a black root whose children are black may be taken as red;
and the descent that goes on after the key was found meets only keys after it, and
then changes neither the color nor the height.
-/

namespace ForDream

namespace FLLRBNode

open FLLRBColor

variable {κ ν : Type*}

/-- The number of black nodes on every path, or nothing where the source throws. -/
def check : FLLRBNode κ ν → Option ℕ
  | empty => some 0
  | node c l _ _ r =>
      if (c = red ∧ l.isRed) ∨ r.isRed then none
      else
        match l.check, r.check with
        | some n, some m => if n = m then some (n + if c = red then 0 else 1) else none
        | _, _ => none

/-- Whether a tree of black nodes of the height of the tree has at most as many nodes. -/
def checkMaxDepth (t : FLLRBNode κ ν) : Option Bool :=
  t.check.map fun blackDepth => 2 ^ blackDepth ≤ t.count + 1

/-- The tree has a root of color `c` and is balanced with `n` black nodes on every
path. -/
inductive Balanced : FLLRBNode κ ν → FLLRBColor → ℕ → Prop
  | empty : Balanced empty black 0
  | red {l r : FLLRBNode κ ν} {k : κ} {v : ν} {n : ℕ} :
      Balanced l black n → Balanced r black n → Balanced (node red l k v r) red n
  | black {l r : FLLRBNode κ ν} {k : κ} {v : ν} {c : FLLRBColor} {n : ℕ} :
      Balanced l c n → Balanced r black n → Balanced (node black l k v r) black (n + 1)

/-- A node whose children are balanced and lean to the left. -/
inductive Leaning : FLLRBNode κ ν → FLLRBColor → ℕ → Prop
  | intro {l r : FLLRBNode κ ν} {k : κ} {v : ν} {c d : FLLRBColor} {n : ℕ} :
      Balanced l d n → Balanced r black n → Leaning (node c l k v r) c n

variable {l r t : FLLRBNode κ ν} {k : κ} {v : ν} {c d : FLLRBColor} {n h : ℕ}

theorem Balanced.isRed_eq (h : Balanced t c n) :
  t.isRed = decide (c = FLLRBColor.red)
  := by
  cases h <;> rfl

theorem Balanced.isRed_false (h : Balanced t .black n) : t.isRed = false := h.isRed_eq

theorem Balanced.isRed_true (h : Balanced t .red n) : t.isRed = true := h.isRed_eq

/-- The left child of a red node is not red. -/
theorem Balanced.left_isRed_false (h : Balanced t .red n) :
  t.left.isRed = false
  := by
  cases h with
  | red hl hr => exact hl.isRed_false

theorem Balanced.eq_empty (h : Balanced t .black 0) :
  t = .empty
  := by
  cases h
  rfl

theorem Balanced.eq_of_empty (h : Balanced (.empty : FLLRBNode κ ν) c n) :
  c = .black ∧ n = 0
  := by
  cases h
  exact ⟨rfl, rfl⟩

/-- The tree is balanced exactly when its check does not throw. -/
theorem check_eq_some_iff :
  t.check = some n ↔ ∃ c, Balanced t c n
  := by
  induction t generalizing n with
  | empty =>
    simp only [check, Option.some.injEq]
    constructor
    · rintro rfl
      use .black, .empty
    · rintro ⟨c, h⟩
      exact h.eq_of_empty.2.symm
  | node c l k v r ihl ihr =>
    constructor
    · intro h
      rw [check] at h
      split at h
      · cases h
      case isFalse hcolor =>
        push Not at hcolor
        split at h
        case h_2 => cases h
        case h_1 m m' hl hr =>
          split at h
          case isFalse => cases h
          case isTrue heq =>
            subst heq
            obtain ⟨cl, hl⟩ := ihl.mp hl
            obtain ⟨cr, hr⟩ := ihr.mp hr
            have hcr := hr.isRed_eq.symm.trans (by simpa using hcolor.2)
            obtain rfl : cr = .black := by cases cr <;> simp_all
            cases c with
            | red =>
              have hcl := hl.isRed_eq.symm.trans (by simpa using hcolor.1)
              obtain rfl : cl = .black := by cases cl <;> simp_all
              obtain rfl : m = n := by simpa using h
              use .red, .red hl hr
            | black =>
              obtain rfl : m + 1 = n := by simpa using h
              use .black, .black hl hr
    · rintro ⟨c', h⟩
      cases h with
      | red hl hr =>
        have hl' := ihl.mpr ⟨_, hl⟩
        have hr' := ihr.mpr ⟨_, hr⟩
        simp [check, hl.isRed_false, hr.isRed_false, hl', hr']
      | black hl hr =>
        have hl' := ihl.mpr ⟨_, hl⟩
        have hr' := ihr.mpr ⟨_, hr⟩
        simp [check, hr.isRed_false, hl', hr']

/-- A balanced tree has at least as many entries as a tree of black nodes of its
height. -/
theorem Balanced.two_pow_le (h : Balanced t c n) :
  2 ^ n ≤ t.count + 1
  := by
  induction h with
  | empty => simp
  | red hl hr ihl ihr =>
    rw [count]
    omega
  | black hl hr ihl ihr =>
    rw [count, Nat.pow_succ]
    omega

theorem Balanced.checkMaxDepth (h : Balanced t c n) :
  t.checkMaxDepth = some true
  := by
  have hcheck := check_eq_some_iff.mpr ⟨c, h⟩
  simp [FLLRBNode.checkMaxDepth, hcheck, h.two_pow_le]

theorem Balanced.flipped (h : Balanced t .red n) :
  Balanced t.flipped .black (n + 1)
  := by
  cases h with
  | red hl hr => exact .black hl hr

/-- Painting the root black keeps a tree balanced. -/
theorem Balanced.paint (h : Balanced t c n) :
  ∃ m, Balanced (t.paint .black) .black m
  := by
  cases h with
  | empty => use 0, .empty
  | red hl hr => exact ⟨_, .black hl hr⟩
  | black hl hr => exact ⟨_, .black hl hr⟩

theorem Leaning.balanced (h : Leaning t .black n) :
  Balanced t .black (n + 1)
  := by
  cases h with
  | intro hl hr => exact .black hl hr

theorem Leaning.paint (h : Leaning t c n) :
  Balanced (t.paint .black) .black (n + 1)
  := by
  cases h with
  | intro hl hr => exact .black hl hr

section FixUp

/-- Nothing is repaired where the children are balanced and lean to the left. -/
theorem fixUp_of_leaning (hl : Balanced l d n) (hr : Balanced r .black n) :
  (node c l k v r).fixUp = node c l k v r
  := by
  have hlean : (node c l k v r).leanLeft = node c l k v r := by
    simp [leanLeft, hr.isRed_false]
  have hlean' : (node c l k v r).leanRight = node c l k v r := by
    rw [leanRight, if_neg]
    cases d with
    | red => simp [hl.left_isRed_false]
    | black => simp [hl.isRed_false]
  rw [fixUp, hlean, hlean', passUp, if_neg]
  simp [hr.isRed_false]

/-- A red right child beside a black one moves to the left. -/
theorem leaning_fixUp (hl : Balanced l .black n) (hr : Balanced r d n) :
  Leaning (node c l k v r).fixUp c n
  := by
  cases hr with
  | empty =>
    rw [fixUp_of_leaning hl .empty]
    exact .intro hl .empty
  | black hrl hrr =>
    rw [fixUp_of_leaning hl (.black hrl hrr)]
    exact .intro hl (.black hrl hrr)
  | @red rl rr rk rv _ hrl hrr =>
    have hlean : (node c l k v (node red rl rk rv rr)).leanLeft
        = node c (node red l k v rl) rk rv rr := by
      simp [leanLeft, hl.isRed_false, rotateLeft]
    have hfix := fixUp_of_leaning (c := c) (k := rk) (v := rv) (.red (k := k) (v := v) hl hrl) hrr
    have hlean' : (node c (node red l k v rl) rk rv rr).leanLeft
        = node c (node red l k v rl) rk rv rr := by
      simp [leanLeft, hrr.isRed_false]
    rw [fixUp, hlean, ← hlean', ← fixUp, hfix]
    exact .intro (.red hl hrl) hrr

/-- Two red children pass their color up. -/
theorem fixUp_of_red (hl : Balanced l .red n) (hr : Balanced r .red n) :
  (node c l k v r).fixUp = node c.flip l.flipped k v r.flipped
  := by
  have hlean : (node c l k v r).leanLeft = node c l k v r := by
    simp [leanLeft, hl.isRed_true]
  have hlean' : (node c l k v r).leanRight = node c l k v r := by
    simp [leanRight, hl.left_isRed_false]
  rw [fixUp, hlean, hlean', passUp, if_pos]
  · rfl
  · simp [hl.isRed_true, hr.isRed_true]

end FixUp

section Insert

variable (cmp : Comparator κ) (aKey : κ) (aValue : ν)

/-- A red left child with a red left child passes its color up. -/
theorem balanced_fixUp_of_leaning_left (hl : Leaning l .red n) (hr : Balanced r .black n) :
  ∃ c, Balanced (node black l k v r).fixUp c (n + 1)
  := by
  cases hl with
  | @intro ll lr lk lv _ d _ hll hlr =>
    cases d with
    | black =>
      rw [fixUp_of_leaning (.red hll hlr) hr]
      exact ⟨_, .black (.red hll hlr) hr⟩
    | red =>
      have hlean : (node black (node red ll lk lv lr) k v r).leanLeft
          = node black (node red ll lk lv lr) k v r := by
        simp [leanLeft, hr.isRed_false]
      have hlean' : (node black (node red ll lk lv lr) k v r).leanRight
          = node black ll lk lv (node red lr k v r) := by
        simp [leanRight, hll.isRed_true, rotateRight]
      rw [fixUp, hlean, hlean', passUp, if_pos (by simp [hll.isRed_true])]
      exact ⟨_, .red hll.flipped (.black hlr hr)⟩

/-- Insertion into a balanced tree: a black root leaves a balanced tree, a red root one
that may have a red left child. -/
theorem Balanced.insertKey (ht : Balanced t c n) :
  (c = .black → ∃ d, Balanced (t.insertKey cmp aKey aValue) d n)
    ∧ (c = .red → Leaning (t.insertKey cmp aKey aValue) .red n)
  := by
  induction ht with
  | empty =>
    constructor
    · intro _
      exact ⟨_, .red .empty .empty⟩
    · intro hc
      cases hc
  | red hl hr ihl ihr =>
    constructor
    · intro hc
      cases hc
    · intro _
      rw [FLLRBNode.insertKey]
      split
      · obtain ⟨d, hl'⟩ := ihl.1 rfl
        rw [fixUp_of_leaning hl' hr]
        exact .intro hl' hr
      · rw [fixUp_of_leaning hl hr]
        exact .intro hl hr
      · obtain ⟨d, hr'⟩ := ihr.1 rfl
        apply leaning_fixUp hl hr'
  | @black l r k v cl m hl hr ihl ihr =>
    constructor
    · intro _
      rw [FLLRBNode.insertKey]
      split
      · cases cl with
        | black =>
          obtain ⟨d, hl'⟩ := ihl.1 rfl
          rw [fixUp_of_leaning hl' hr]
          exact ⟨_, .black hl' hr⟩
        | red => apply balanced_fixUp_of_leaning_left (ihl.2 rfl) hr
      · rw [fixUp_of_leaning hl hr]
        exact ⟨_, .black hl hr⟩
      · obtain ⟨d, hr'⟩ := ihr.1 rfl
        cases cl with
        | black => exact ⟨_, (leaning_fixUp hl hr').balanced⟩
        | red =>
          cases d with
          | black =>
            rw [fixUp_of_leaning hl hr']
            exact ⟨_, .black hl hr'⟩
          | red =>
            rw [fixUp_of_red hl hr']
            exact ⟨_, .red hl.flipped hr'.flipped⟩
    · intro hc
      cases hc

end Insert

end FLLRBNode

end ForDream

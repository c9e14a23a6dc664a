import ForDream.Database.Path
import ForDream.Lib.Overwrite

/-!
# Nodes

The data of the database is a tree: a leaf holds a value, any other node has children
under keys, given here by the entries of their sorted dictionary, and both may have a
priority.  An empty node is no data; to remove the last child of a node leaves it empty,
and its priority is lost with it.

A node is open when it is not a leaf and has no priority.  Where all nodes above a path
are open, `updateChild` and `getChild` are a write and a read at the path: they obey the
laws of overwriting.  A leaf above the path breaks them, since a removal below a leaf
leaves the leaf but a write below it does not; so does a priority above it.
-/

namespace ForDream

/-- A node of the database with leaf values `V`. -/
inductive FNode (V : Type*) where
  | leaf (value : V) (priorityNode : Option V)
  | children (children : List (FKey × FNode V)) (priorityNode : Option V)

namespace FNode

variable {V : Type*}

/-- The node without data. -/
def emptyNode : FNode V := .children [] none

/-- Whether a node is without data. -/
def isEmpty : FNode V → Bool
  | .leaf _ _ => false
  | .children kids _ => kids.isEmpty

/-- Whether a node is a leaf. -/
def isLeafNode : FNode V → Bool
  | .leaf _ _ => true
  | .children _ _ => false

/-- The node of a priority. -/
def ofPriority : Option V → FNode V
  | none => emptyNode
  | some value => .leaf value none

/-- The priority a node gives. -/
def toPriority : FNode V → Option V
  | .leaf value _ => some value
  | .children _ _ => none

/-- The priority of a node, itself a node. -/
def getPriority : FNode V → FNode V
  | .leaf _ priorityNode => ofPriority priorityNode
  | .children _ priorityNode => ofPriority priorityNode

/-- The node with another priority; an empty node has none. -/
def updatePriority : FNode V → FNode V → FNode V
  | .leaf value _, aPriority => .leaf value aPriority.toPriority
  | .children kids _, aPriority =>
      if kids.isEmpty then emptyNode else .children kids aPriority.toPriority

/-- The child under a key, empty if there is none. -/
def getImmediateChild : FNode V → FKey → FNode V
  | .leaf _ priorityNode, childName =>
      if childName = FKey.priority then ofPriority priorityNode else emptyNode
  | .children kids priorityNode, childName =>
      if childName = FKey.priority then ofPriority priorityNode
      else Assoc.lookupD FKey.keyComparator kids childName emptyNode

/-- The node at a path; a leaf does not look beyond the first key. -/
def getChild : FNode V → List FKey → FNode V
  | node, [] => node
  | .leaf value priorityNode, front :: _ =>
      if front = FKey.priority then (leaf value priorityNode).getPriority else emptyNode
  | .children kids priorityNode, front :: path =>
      getChild (getImmediateChild (.children kids priorityNode) front) path

/-- Children with another one under a key, removed if it is empty. -/
def setChild (kids : List (FKey × FNode V)) (childName : FKey) (newChildNode : FNode V) :
    List (FKey × FNode V) :=
  Assoc.store FKey.keyComparator isEmpty childName newChildNode kids

/-- The node with another child under a key.  A leaf gives way to a node with the one
child and its priority, unless the child is empty. -/
def updateImmediateChild : FNode V → FKey → FNode V → FNode V
  | .leaf value priorityNode, childName, newChildNode =>
      if childName = FKey.priority then updatePriority (.leaf value priorityNode) newChildNode
      else if newChildNode.isEmpty then .leaf value priorityNode
      else updatePriority (.children (setChild [] childName newChildNode) none)
        (ofPriority priorityNode)
  | .children kids priorityNode, childName, newChildNode =>
      if childName = FKey.priority then
        updatePriority (.children kids priorityNode) newChildNode
      else
        let newChildren := setChild kids childName newChildNode
        if newChildren.isEmpty then emptyNode else .children newChildren priorityNode

/-- The node with another node at a path. -/
def updateChild : FNode V → List FKey → FNode V → FNode V
  | _, [], newChildNode => newChildNode
  | .leaf value priorityNode, front :: path, newChildNode =>
      if newChildNode.isEmpty ∧ front ≠ FKey.priority then .leaf value priorityNode
      else updateImmediateChild (.leaf value priorityNode) front
        (updateChild emptyNode path newChildNode)
  | .children kids priorityNode, front :: path, newChildNode =>
      updateImmediateChild (.children kids priorityNode) front
        (updateChild (getImmediateChild (.children kids priorityNode) front) path newChildNode)

/-! ## Well-formed nodes -/

/-- Children ascend in the order of keys, none of them is empty or under the key of the
priority, and an empty node has no priority. -/
inductive Wf : FNode V → Prop
  | leaf (value : V) (priorityNode : Option V) : Wf (.leaf value priorityNode)
  | children {kids : List (FKey × FNode V)} {priorityNode : Option V}
      (ascending : Assoc.Ascending FKey.keyComparator kids)
      (name : ∀ e ∈ kids, e.1 ≠ FKey.priority)
      (isEmpty : ∀ e ∈ kids, e.2.isEmpty = false)
      (wf : ∀ e ∈ kids, Wf e.2)
      (priority : kids = [] → priorityNode = none) : Wf (.children kids priorityNode)

theorem wf_emptyNode :
  Wf (emptyNode : FNode V)
  := .children .nil (by simp) (by simp) (by simp) fun _ => rfl

theorem wf_ofPriority (priorityNode : Option V) :
  Wf (ofPriority priorityNode)
  := by
  cases priorityNode with
  | none => exact wf_emptyNode
  | some value => exact .leaf value none

theorem Wf.eq_emptyNode {node : FNode V} (h : node.Wf) (hempty : node.isEmpty = true) :
  node = emptyNode
  := by
  cases h with
  | leaf => cases hempty
  | @children kids _ _ _ _ _ hpriority =>
    obtain rfl : kids = [] := List.isEmpty_iff.mp hempty
    rw [hpriority rfl]
    rfl

@[simp]
theorem isEmpty_emptyNode :
  (emptyNode : FNode V).isEmpty = true
  := rfl

/-! ## Reads and writes of a child -/

section Immediate

variable {n m c d : FNode V} {k j : FKey}

theorem getImmediateChild_leaf {value : V} {priorityNode : Option V} (hk : k ≠ FKey.priority) :
  getImmediateChild (.leaf value priorityNode) k = emptyNode
  := if_neg hk

theorem getImmediateChild_children {kids : List (FKey × FNode V)} {priorityNode : Option V}
    (hk : k ≠ FKey.priority) :
  getImmediateChild (.children kids priorityNode) k
    = Assoc.lookupD FKey.keyComparator kids k emptyNode
  := if_neg hk

/-- A node with children gets another child. -/
theorem updateImmediateChild_children {kids : List (FKey × FNode V)} {priorityNode : Option V}
    (hk : k ≠ FKey.priority) :
  updateImmediateChild (.children kids priorityNode) k c
    = .children (setChild kids k c)
        (if (setChild kids k c).isEmpty then none else priorityNode)
  := by
  rw [updateImmediateChild, if_neg hk]
  dsimp only
  split
  case isTrue hempty =>
    rw [List.isEmpty_iff.mp hempty]
    rfl
  case isFalse => rfl

/-- A leaf gives way to a child that is not empty. -/
theorem updateImmediateChild_leaf {value : V} {priorityNode : Option V}
    (hk : k ≠ FKey.priority) (hc : c.isEmpty = false) :
  updateImmediateChild (.leaf value priorityNode) k c
    = .children [(k, c)] (ofPriority priorityNode).toPriority
  := by
  rw [updateImmediateChild, if_neg hk, if_neg (by simp [hc]), setChild, Assoc.store,
    if_neg (by simp [hc])]
  rfl

theorem updateImmediateChild_leaf_of_isEmpty {value : V} {priorityNode : Option V}
    (hk : k ≠ FKey.priority) (hc : c.isEmpty = true) :
  updateImmediateChild (.leaf value priorityNode) k c = .leaf value priorityNode
  := by
  rw [updateImmediateChild, if_neg hk, if_pos hc]

theorem Wf.getImmediateChild (h : n.Wf) (k : FKey) :
  (n.getImmediateChild k).Wf
  := by
  cases h with
  | leaf value priorityNode =>
    rw [FNode.getImmediateChild]
    split
    · apply wf_ofPriority
    · exact wf_emptyNode
  | children _ _ _ hwf _ =>
    rw [FNode.getImmediateChild]
    split
    · apply wf_ofPriority
    · apply Assoc.lookupD_mem hwf wf_emptyNode

theorem Wf.updatePriority (h : n.Wf) (c : FNode V) :
  (n.updatePriority c).Wf
  := by
  cases h with
  | leaf => exact .leaf _ _
  | children hasc hname hempty hwf _ =>
    rw [FNode.updatePriority]
    split
    · exact wf_emptyNode
    case isFalse hkids =>
      apply Wf.children hasc hname hempty hwf
      rintro rfl
      simp at hkids

theorem Wf.setChild {kids : List (FKey × FNode V)} {priorityNode : Option V}
    (h : Wf (.children kids priorityNode)) (hk : k ≠ FKey.priority) (hc : c.Wf)
    {priorityNode' : Option V} (hpriority : FNode.setChild kids k c = [] → priorityNode' = none) :
  Wf (.children (FNode.setChild kids k c) priorityNode')
  := by
  cases h with
  | children hasc hname hempty hwf _ =>
    refine .children (Assoc.ascending_store hasc k c) ?_ ?_ ?_ hpriority
    · intro e he
      rcases Assoc.mem_store he with he | ⟨rfl, -⟩
      · apply hname e he
      · exact hk
    · intro e he
      rcases Assoc.mem_store he with he | ⟨rfl, hc'⟩
      · apply hempty e he
      · exact hc'
    · intro e he
      rcases Assoc.mem_store he with he | ⟨rfl, -⟩
      · apply hwf e he
      · exact hc

theorem Wf.updateImmediateChild (h : n.Wf) (k : FKey) (hc : c.Wf) :
  (n.updateImmediateChild k c).Wf
  := by
  by_cases hk : k = FKey.priority
  · cases n with
    | leaf value priorityNode =>
      rw [FNode.updateImmediateChild, if_pos hk]
      apply h.updatePriority
    | children kids priorityNode =>
      rw [FNode.updateImmediateChild, if_pos hk]
      apply h.updatePriority
  · cases n with
    | leaf value priorityNode =>
      rw [FNode.updateImmediateChild, if_neg hk]
      split
      · exact h
      · apply Wf.updatePriority
        apply wf_emptyNode.setChild hk hc fun _ => rfl
    | children kids priorityNode =>
      rw [updateImmediateChild_children hk]
      apply h.setChild hk hc
      intro hnil
      rw [hnil]
      rfl

/-- What has been written under a key is read there. -/
theorem getImmediateChild_update_self (hn : n.Wf) (hc : c.Wf) (hk : k ≠ FKey.priority) :
  (n.updateImmediateChild k c).getImmediateChild k = c
  := by
  cases hn with
  | leaf value priorityNode =>
    rcases hempty : c.isEmpty with _ | _
    · rw [updateImmediateChild_leaf hk hempty, getImmediateChild_children hk, Assoc.lookupD,
        Assoc.lookup_cons_self]
      rfl
    · rw [updateImmediateChild_leaf_of_isEmpty hk hempty, getImmediateChild_leaf hk,
        hc.eq_emptyNode hempty]
  | children hasc _ _ _ _ =>
    rw [updateImmediateChild_children hk, getImmediateChild_children hk,
      setChild, Assoc.lookupD_store_self hasc hc.eq_emptyNode]

/-- What is under other keys is unchanged. -/
theorem getImmediateChild_update_of_ne (hn : n.Wf) (hk : k ≠ FKey.priority)
    (hj : j ≠ FKey.priority) (hne : j ≠ k) :
  (n.updateImmediateChild k c).getImmediateChild j = n.getImmediateChild j
  := by
  cases hn with
  | leaf value priorityNode =>
    rcases hempty : c.isEmpty with _ | _
    · rw [updateImmediateChild_leaf hk hempty, getImmediateChild_children hj,
        getImmediateChild_leaf hj, Assoc.lookupD,
        Assoc.lookup_cons_of_ne FKey.eq_of_keyComparator hne]
      rfl
    · rw [updateImmediateChild_leaf_of_isEmpty hk hempty]
  | children hasc _ _ _ _ =>
    rw [updateImmediateChild_children hk, getImmediateChild_children hj,
      getImmediateChild_children hj, setChild,
      Assoc.lookupD_store_of_ne FKey.eq_of_keyComparator hasc hne]

/-- A node is open when it is not a leaf and has no priority. -/
def Open (n : FNode V) : Prop := ∃ kids, n = .children kids none

theorem Open.updateImmediateChild (h : n.Open) (hk : k ≠ FKey.priority) (c : FNode V) :
  (n.updateImmediateChild k c).Open
  := by
  obtain ⟨kids, rfl⟩ := h
  rw [updateImmediateChild_children hk]
  exact ⟨setChild kids k c, by simp⟩

/-- Open nodes are told apart by their children. -/
theorem Open.ext (hn : n.Open) (hm : m.Open) (hnwf : n.Wf) (hmwf : m.Wf)
    (h : ∀ k ≠ FKey.priority, n.getImmediateChild k = m.getImmediateChild k) :
  n = m
  := by
  obtain ⟨kids, rfl⟩ := hn
  obtain ⟨kids', rfl⟩ := hm
  cases hnwf with
  | children hasc hname hempty _ _ =>
    cases hmwf with
    | children hasc' hname' hempty' _ _ =>
      have hpriority : ∀ {l : List (FKey × FNode V)},
          (∀ e ∈ l, e.1 ≠ FKey.priority) →
          Assoc.lookupD FKey.keyComparator l FKey.priority emptyNode = emptyNode := by
        intro l hl
        rw [Assoc.lookupD, Assoc.lookup_eq_none_iff.mpr]
        · rfl
        · intro e he heq
          apply hl e he (FKey.eq_of_keyComparator heq).symm
      congr 1
      apply hasc.ext_lookupD FKey.eq_of_keyComparator hasc' isEmpty_emptyNode hempty hempty'
      intro k
      by_cases hk : k = FKey.priority
      · rw [hk, hpriority hname, hpriority hname']
      · have := h k hk
        rwa [getImmediateChild_children hk, getImmediateChild_children hk] at this

/-- Writing what is read changes nothing. -/
theorem updateImmediateChild_getImmediateChild (hn : n.Wf) (hk : k ≠ FKey.priority) :
  n.updateImmediateChild k (n.getImmediateChild k) = n
  := by
  cases hn with
  | leaf value priorityNode =>
    rw [getImmediateChild_leaf hk, updateImmediateChild_leaf_of_isEmpty hk isEmpty_emptyNode]
  | @children kids priorityNode hasc _ hempty _ hpriority =>
    have hkids : FNode.setChild kids k (Assoc.lookupD FKey.keyComparator kids k emptyNode)
        = kids := by
      apply Assoc.store_lookupD FKey.eq_of_keyComparator hasc isEmpty_emptyNode hempty
    rw [getImmediateChild_children hk, updateImmediateChild_children hk, hkids]
    split
    case isTrue hnil => rw [hpriority (List.isEmpty_iff.mp hnil)]
    case isFalse => rfl

/-- The later of two writes under a key is the one that counts. -/
theorem updateImmediateChild_self (hn : n.Wf) (ho : n.Open) (hk : k ≠ FKey.priority)
    (hc : c.Wf) (hd : d.Wf) :
  (n.updateImmediateChild k c).updateImmediateChild k d = n.updateImmediateChild k d
  := by
  have hwf := hn.updateImmediateChild k hc
  have ho' := ho.updateImmediateChild hk c
  apply (ho'.updateImmediateChild hk d).ext (ho.updateImmediateChild hk d)
    (hwf.updateImmediateChild k hd) (hn.updateImmediateChild k hd)
  intro j hj
  rcases eq_or_ne j k with rfl | hne
  · rw [getImmediateChild_update_self hwf hd hj, getImmediateChild_update_self hn hd hj]
  · rw [getImmediateChild_update_of_ne hwf hk hj hne, getImmediateChild_update_of_ne hn hk hj hne,
      getImmediateChild_update_of_ne hn hk hj hne]

/-- Writes under different keys commute. -/
theorem updateImmediateChild_comm (hn : n.Wf) (ho : n.Open) (hk : k ≠ FKey.priority)
    (hj : j ≠ FKey.priority) (hne : k ≠ j) (hc : c.Wf) (hd : d.Wf) :
  (n.updateImmediateChild k c).updateImmediateChild j d
    = (n.updateImmediateChild j d).updateImmediateChild k c
  := by
  have hck := hn.updateImmediateChild k hc
  have hdj := hn.updateImmediateChild j hd
  apply ((ho.updateImmediateChild hk c).updateImmediateChild hj d).ext
    ((ho.updateImmediateChild hj d).updateImmediateChild hk c)
    (hck.updateImmediateChild j hd) (hdj.updateImmediateChild k hc)
  intro i hi
  rcases eq_or_ne i j with rfl | hij
  · rw [getImmediateChild_update_self hck hd hi, getImmediateChild_update_of_ne hdj hk hi hne.symm,
      getImmediateChild_update_self hn hd hi]
  · rw [getImmediateChild_update_of_ne hck hj hi hij]
    rcases eq_or_ne i k with rfl | hik
    · rw [getImmediateChild_update_self hn hc hi, getImmediateChild_update_self hdj hc hi]
    · rw [getImmediateChild_update_of_ne hn hk hi hik, getImmediateChild_update_of_ne hdj hk hi hik,
        getImmediateChild_update_of_ne hn hj hi hij]

end Immediate

/-! ## Reads and writes at a path -/

section Paths

variable {n c d : FNode V} {k : FKey} {p q : List FKey}

@[simp]
theorem getChild_nil (n : FNode V) :
  n.getChild [] = n
  := by
  rw [getChild]

@[simp]
theorem updateChild_nil (n c : FNode V) :
  n.updateChild [] c = c
  := by
  rw [updateChild]

theorem getChild_emptyNode (p : List FKey) :
  (emptyNode : FNode V).getChild p = emptyNode
  := by
  induction p with
  | nil => apply getChild_nil
  | cons k p ih =>
    have hget : (emptyNode : FNode V).getImmediateChild k = emptyNode := by
      rw [emptyNode, getImmediateChild]
      split <;> rfl
    rw [emptyNode, getChild]
    rw [← emptyNode, hget, ih]

/-- A read at a path begins with a read of a child. -/
theorem getChild_cons (n : FNode V) (hk : k ≠ FKey.priority) (p : List FKey) :
  n.getChild (k :: p) = (n.getImmediateChild k).getChild p
  := by
  cases n with
  | leaf value priorityNode =>
    rw [getChild, if_neg hk, getImmediateChild_leaf hk, getChild_emptyNode]
  | children kids priorityNode => rw [getChild]

theorem getChild_singleton (n : FNode V) (hk : k ≠ FKey.priority) :
  n.getChild [k] = n.getImmediateChild k
  := by
  rw [getChild_cons n hk, getChild_nil]

theorem Wf.getChild (h : n.Wf) (p : List FKey) :
  (n.getChild p).Wf
  := by
  induction p generalizing n with
  | nil =>
    rw [getChild_nil]
    exact h
  | cons k p ih =>
    cases n with
    | leaf value priorityNode =>
      rw [FNode.getChild]
      split
      · apply wf_ofPriority
      · exact wf_emptyNode
    | children kids priorityNode =>
      rw [FNode.getChild]
      apply ih (h.getImmediateChild k)

theorem Wf.updateChild (h : n.Wf) (p : List FKey) (hc : c.Wf) :
  (n.updateChild p c).Wf
  := by
  induction p generalizing n with
  | nil =>
    rw [updateChild_nil]
    exact hc
  | cons k p ih =>
    cases n with
    | leaf value priorityNode =>
      rw [FNode.updateChild]
      split
      · exact h
      · apply h.updateImmediateChild k (ih wf_emptyNode)
    | children kids priorityNode =>
      rw [FNode.updateChild]
      apply h.updateImmediateChild k (ih (h.getImmediateChild k))

/-- Removing what is not there leaves nothing. -/
theorem updateChild_emptyNode_of_isEmpty (hc : c.Wf) (hempty : c.isEmpty = true) (p : List FKey) :
  (emptyNode : FNode V).updateChild p c = emptyNode
  := by
  induction p with
  | nil =>
    rw [updateChild_nil]
    apply hc.eq_emptyNode hempty
  | cons k p ih =>
    have hget : (emptyNode : FNode V).getImmediateChild k = emptyNode := by
      rw [emptyNode, getImmediateChild]
      split <;> rfl
    rw [emptyNode, updateChild]
    rw [← emptyNode, hget, ih, emptyNode, updateImmediateChild]
    split <;> rfl

/-- A write at a path begins with a write of a child. -/
theorem updateChild_cons (n : FNode V) (hc : c.Wf) (hk : k ≠ FKey.priority) (p : List FKey) :
  n.updateChild (k :: p) c = n.updateImmediateChild k ((n.getImmediateChild k).updateChild p c)
  := by
  cases n with
  | leaf value priorityNode =>
    rw [updateChild, getImmediateChild_leaf hk]
    split
    case isTrue h =>
      rw [updateChild_emptyNode_of_isEmpty hc h.1,
        updateImmediateChild_leaf_of_isEmpty hk isEmpty_emptyNode]
    case isFalse => rfl
  | children kids priorityNode => rw [updateChild]

theorem updateChild_singleton (n : FNode V) (hc : c.Wf) (hk : k ≠ FKey.priority) :
  n.updateChild [k] c = n.updateImmediateChild k c
  := by
  rw [updateChild_cons n hc hk, updateChild_nil]

theorem Open.updateChild (h : n.Open) (hc : c.Wf) (hp : FKey.priority ∉ p) (hne : p ≠ []) :
  (n.updateChild p c).Open
  := by
  cases p with
  | nil => contradiction
  | cons k p =>
    rw [List.mem_cons, not_or] at hp
    rw [updateChild_cons n hc (Ne.symm hp.1)]
    apply h.updateImmediateChild (Ne.symm hp.1)

/-- All nodes above a path are open, and it does not lead to a priority. -/
def Clear : FNode V → List FKey → Prop
  | _, [] => True
  | n, k :: p => n.Open ∧ k ≠ FKey.priority ∧ Clear (n.getImmediateChild k) p

theorem Clear.above (h : n.Clear p) (hq : q <+: p) :
  n.Clear q
  := by
  induction q generalizing n p with
  | nil => trivial
  | cons k q ih =>
    obtain ⟨r, rfl⟩ := hq
    exact ⟨h.1, h.2.1, ih h.2.2 (List.prefix_append q r)⟩

theorem Clear.append (h : n.Clear p) (hq : (n.getChild p).Clear q) :
  n.Clear (p ++ q)
  := by
  induction p generalizing n with
  | nil =>
    rw [getChild_nil] at hq
    exact hq
  | cons k p ih =>
    obtain ⟨ho, hk, hclear⟩ := h
    rw [getChild_cons n hk] at hq
    exact ⟨ho, hk, ih hclear hq⟩

theorem Clear.priority_notMem (h : n.Clear p) :
  FKey.priority ∉ p
  := by
  induction p generalizing n with
  | nil => simp
  | cons k p ih =>
    obtain ⟨-, hk, hclear⟩ := h
    simpa [hk.symm] using ih hclear

theorem getChild_append (h : FKey.priority ∉ p) (q : List FKey) :
  n.getChild (p ++ q) = (n.getChild p).getChild q
  := by
  induction p generalizing n with
  | nil => rw [getChild_nil, List.nil_append]
  | cons k p ih =>
    rw [List.mem_cons, not_or] at h
    rw [List.cons_append, getChild_cons n (Ne.symm h.1), getChild_cons n (Ne.symm h.1), ih h.2]

/-- What has been written at a path is read there and below. -/
theorem getChild_updateChild (hn : n.Wf) (hp : FKey.priority ∉ p) (hc : c.Wf) :
  (n.updateChild p c).getChild p = c
  := by
  induction p generalizing n with
  | nil => rw [updateChild_nil, getChild_nil]
  | cons k p ih =>
    rw [List.mem_cons, not_or] at hp
    have hk := Ne.symm hp.1
    have hwf := hn.getImmediateChild k
    rw [updateChild_cons n hc hk, getChild_cons _ hk,
      getImmediateChild_update_self hn (hwf.updateChild p hc) hk, ih hwf hp.2]

/-- A write as it is seen from a path: a write below the path, or of the node at the path
if it is made above, or none if it is made elsewhere. -/
def part : List FKey → List FKey × FNode V → Option (List FKey × FNode V)
  | [], w => some w
  | k :: p, ([], c) => some ([], c.getChild (k :: p))
  | k :: p, (j :: q, c) => if k = j then part p (q, c) else none

/-- What a write leaves at a path is what is left by the write as it is seen from
there. -/
theorem getChild_updateChild_part (hn : n.Wf) (hc : c.Wf) (hp : FKey.priority ∉ p)
    (hq : FKey.priority ∉ q) :
  (n.updateChild q c).getChild p
    = (part p (q, c)).elim (n.getChild p) fun w => (n.getChild p).updateChild w.1 w.2
  := by
  induction p generalizing n q with
  | nil => rw [part, getChild_nil, getChild_nil, Option.elim_some]
  | cons k p ih =>
    cases q with
    | nil => rw [part, updateChild_nil, Option.elim_some, updateChild_nil]
    | cons j q =>
      rw [List.mem_cons, not_or] at hp hq
      have hk := Ne.symm hp.1
      have hj := Ne.symm hq.1
      rw [updateChild_cons n hc hj, getChild_cons _ hk, getChild_cons _ hk, part]
      split
      case isTrue heq =>
        subst heq
        have hwf := hn.getImmediateChild k
        rw [getImmediateChild_update_self hn (hwf.updateChild q hc) hk, ih hwf hp.2 hq.2]
      case isFalse hne =>
        rw [getImmediateChild_update_of_ne hn hj hk hne, Option.elim_none]

/-- A write below one that has been made is a write of the part that was written. -/
theorem updateChild_updateChild (hn : n.Wf) (hclear : n.Clear p) (hc : c.Wf) (hd : d.Wf)
    (q : List FKey) :
  (n.updateChild p c).updateChild (p ++ q) d = n.updateChild p (c.updateChild q d)
  := by
  induction p generalizing n with
  | nil => rw [updateChild_nil, updateChild_nil, List.nil_append]
  | cons k p ih =>
    obtain ⟨ho, hk, hclear⟩ := hclear
    have hwf := hn.getImmediateChild k
    have hpc := hwf.updateChild p hc
    rw [updateChild_cons n hc hk, List.cons_append, updateChild_cons _ hd hk,
      getImmediateChild_update_self hn hpc hk, ih hwf hclear,
      updateImmediateChild_self hn ho hk hpc (hwf.updateChild p (hc.updateChild q hd)),
      updateChild_cons n (hc.updateChild q hd) hk]

/-- Writing what is read at a path changes nothing. -/
theorem updateChild_getChild (hn : n.Wf) (hp : FKey.priority ∉ p) :
  n.updateChild p (n.getChild p) = n
  := by
  induction p generalizing n with
  | nil => rw [updateChild_nil, getChild_nil]
  | cons k p ih =>
    rw [List.mem_cons, not_or] at hp
    have hk := Ne.symm hp.1
    have hwf := hn.getImmediateChild k
    rw [getChild_cons n hk, updateChild_cons n (hwf.getChild p) hk, ih hwf hp.2,
      updateImmediateChild_getImmediateChild hn hk]

/-- A write at or above another one undoes it. -/
theorem updateChild_absorb (hn : n.Wf) (hclear : n.Clear q) (hq : q <+: p) (hc : c.Wf)
    (hd : d.Wf) :
  (n.updateChild p c).updateChild q d = n.updateChild q d
  := by
  induction q generalizing n p with
  | nil => rw [updateChild_nil, updateChild_nil]
  | cons k q ih =>
    obtain ⟨ho, hk, hclear⟩ := hclear
    obtain ⟨r, rfl⟩ := hq
    have hwf := hn.getImmediateChild k
    have hpc := hwf.updateChild (q ++ r) hc
    rw [List.cons_append, updateChild_cons n hc hk, updateChild_cons _ hd hk,
      getImmediateChild_update_self hn hpc hk, ih hwf hclear (List.prefix_append q r),
      updateImmediateChild_self hn ho hk hpc (hwf.updateChild q hd), updateChild_cons n hd hk]

/-- Writes neither of which is below the other commute. -/
theorem updateChild_comm (hn : n.Wf) (hclear : n.Clear p) (hq : FKey.priority ∉ q)
    (hpq : ¬ p <+: q) (hqp : ¬ q <+: p) (hc : c.Wf) (hd : d.Wf) :
  (n.updateChild p c).updateChild q d = (n.updateChild q d).updateChild p c
  := by
  induction p generalizing n q with
  | nil => exact absurd (List.nil_prefix) hpq
  | cons k p ih =>
    obtain ⟨ho, hk, hclear⟩ := hclear
    cases q with
    | nil => exact absurd (List.nil_prefix) hqp
    | cons j q =>
      have hj : j ≠ FKey.priority := by
        rintro rfl
        simp at hq
      have hwfk := hn.getImmediateChild k
      have hwfj := hn.getImmediateChild j
      rw [updateChild_cons n hc hk, updateChild_cons n hd hj, updateChild_cons _ hd hj,
        updateChild_cons _ hc hk]
      rcases eq_or_ne k j with rfl | hne
      · rw [List.cons_prefix_cons, not_and] at hpq hqp
        rw [getImmediateChild_update_self hn (hwfk.updateChild p hc) hk,
          getImmediateChild_update_self hn (hwfk.updateChild q hd) hk,
          ih hwfk hclear (fun h => hq (by simp [h])) (hpq rfl) (hqp rfl),
          updateImmediateChild_self hn ho hk (hwfk.updateChild p hc)
            ((hwfk.updateChild q hd).updateChild p hc),
          updateImmediateChild_self hn ho hk (hwfk.updateChild q hd)
            ((hwfk.updateChild q hd).updateChild p hc)]
      · rw [getImmediateChild_update_of_ne hn hk hj hne.symm,
          getImmediateChild_update_of_ne hn hj hk hne,
          updateImmediateChild_comm hn ho hk hj hne (hwfk.updateChild p hc)
            (hwfj.updateChild q hd)]

/-- A write not above a path leaves it clear. -/
theorem Clear.updateChild (h : n.Clear p) (hn : n.Wf) (hq : FKey.priority ∉ q)
    (hqp : q <+: p → q = p) (hc : c.Wf) :
  (n.updateChild q c).Clear p
  := by
  induction p generalizing n q with
  | nil => trivial
  | cons k p ih =>
    obtain ⟨ho, hk, hclear⟩ := h
    cases q with
    | nil => cases hqp List.nil_prefix
    | cons j q =>
      have hj : j ≠ FKey.priority := by
        rintro rfl
        simp at hq
      have hwf := (hn.getImmediateChild j).updateChild q hc
      rw [updateChild_cons n hc hj]
      refine ⟨ho.updateImmediateChild hj _, hk, ?_⟩
      rcases eq_or_ne k j with rfl | hne
      · rw [getImmediateChild_update_self hn hwf hk]
        apply ih hclear (hn.getImmediateChild k) (fun h => hq (by simp [h]))
        intro hpre
        apply (List.cons.inj (hqp (List.cons_prefix_cons.mpr ⟨rfl, hpre⟩))).2
      · rw [getImmediateChild_update_of_ne hn hj hk hne]
        exact hclear

end Paths

/-! ## Equality -/

section Equality

theorem sizeOf_getImmediateChild_le (kids : List (FKey × FNode V)) (p : Option V) (k : FKey) :
  sizeOf ((children kids p).getImmediateChild k) ≤ sizeOf (children kids p)
  := by
  rw [getImmediateChild]
  split
  · cases p <;> cases kids <;> simp [ofPriority, emptyNode]
    omega
  · rw [Assoc.lookupD, Assoc.lookup]
    rcases hfind : kids.find? _ with _ | ⟨j, n⟩
    · cases p <;> cases kids <;> simp [emptyNode] <;> omega
    · have hmem := List.sizeOf_lt_of_mem (List.mem_of_find?_eq_some hfind)
      simp at hmem ⊢
      omega

theorem sizeOf_lt_of_mem {kids : List (FKey × FNode V)} (p : Option V) {e : FKey × FNode V}
    (he : e ∈ kids) :
  sizeOf e.2 < sizeOf (children kids p)
  := by
  have hlt := List.sizeOf_lt_of_mem he
  rcases e with ⟨k, n⟩
  simp at hlt ⊢
  omega

variable [DecidableEq V]

/-- Whether two nodes are equal: leaves by their values and priorities, other nodes by
their priorities, the number of their children and the children under each key. -/
def isEqual : FNode V → FNode V → Bool
  | .leaf value priorityNode, .leaf value' priorityNode' =>
      value' = value ∧ priorityNode' = priorityNode
  | .leaf _ _, .children _ _ => false
  | .children _ _, .leaf _ _ => false
  | .children kids priorityNode, .children kids' priorityNode' =>
      if kids.isEmpty ∧ kids'.isEmpty then true
      else if priorityNode ≠ priorityNode' then false
      else if kids.length = kids'.length then
        kids.attach.all fun e =>
          isEqual ((children kids' priorityNode').getImmediateChild e.1.1) e.1.2
      else false
termination_by n m => sizeOf n + sizeOf m
decreasing_by
  have hchild := sizeOf_getImmediateChild_le kids' priorityNode' e.1.1
  have hnode := sizeOf_lt_of_mem priorityNode e.2
  omega

/-- Well-formed nodes are equal exactly when they are the same. -/
theorem Wf.isEqual_iff_eq {n m : FNode V} (hn : n.Wf) (hm : m.Wf) :
  n.isEqual m = true ↔ n = m
  := by
  induction n, m using FNode.isEqual.induct with
  | case1 value p value' p' =>
    rw [FNode.isEqual, decide_eq_true_iff]
    constructor
    · rintro ⟨rfl, rfl⟩
      rfl
    · rintro ⟨⟩
      exact ⟨rfl, rfl⟩
  | case2 => simp [FNode.isEqual]
  | case3 => simp [FNode.isEqual]
  | case4 kids p kids' p' hempty =>
    -- empty nodes have no priority
    cases hn with
    | children _ _ _ _ hpriority =>
      cases hm with
      | children _ _ _ _ hpriority' =>
        rw [List.isEmpty_iff, List.isEmpty_iff] at hempty
        simp [FNode.isEqual, hempty, hpriority hempty.1, hpriority' hempty.2]
  | case5 kids p kids' p' hempty hne =>
    rw [FNode.isEqual, if_neg hempty, if_pos hne]
    simp [hne]
  | case6 kids p kids' p' hempty heq hlen ih =>
    rw [not_not] at heq
    cases hn with
    | children hasc hname hnonempty hwf _ =>
      cases hm with
      | children hasc' hname' hnonempty' hwf' hpriority =>
        have hget : ∀ e ∈ kids, (FNode.children kids' p').getImmediateChild e.1
            = Assoc.lookupD FKey.keyComparator kids' e.1 emptyNode :=
          fun e he => getImmediateChild_children (hname e he)
        have hchild := (Wf.children hasc' hname' hnonempty' hwf' hpriority).getImmediateChild
        have hall : (FNode.children kids p).isEqual (.children kids' p') = true ↔
            ∀ e ∈ kids, (FNode.children kids' p').getImmediateChild e.1 = e.2 := by
          rw [FNode.isEqual, if_neg hempty, if_neg (not_not.mpr heq), if_pos hlen,
            List.all_eq_true]
          constructor
          · intro h e he
            apply (ih ⟨e, he⟩ (hchild e.1) (hwf e he)).mp (h ⟨e, he⟩ (List.mem_attach _ _))
          · intro h e _
            apply (ih e (hchild e.1.1) (hwf e.1 e.2)).mpr (h e.1 e.2)
        rw [hall, heq, FNode.children.injEq, and_iff_left rfl]
        constructor
        · intro h
          have hmatch : ∀ e ∈ kids,
              Assoc.lookup FKey.keyComparator kids' e.1 = some e.2 := by
            intro e he
            have hchild := h e he
            rw [hget e he] at hchild
            apply Assoc.lookup_of_lookupD hchild
            intro hnone
            have hne := hnonempty e he
            rw [hnone] at hne
            cases hne
          apply hasc.ext FKey.eq_of_keyComparator hasc'
          apply (hasc.lookup_eq_of_length hasc' hmatch).2 (Nat.le_of_eq hlen.symm)
        · rintro rfl e he
          have hlookup := (hasc.mem_iff_lookup FKey.eq_of_keyComparator).mp he
          rw [hget e he, Assoc.lookupD, hlookup, Option.getD_some]
  | case7 kids p kids' p' hempty heq hlen =>
    rw [FNode.isEqual, if_neg hempty, if_neg heq, if_neg hlen]
    constructor
    · simp
    · intro h
      rw [(FNode.children.inj h).1] at hlen
      contradiction

end Equality

/-- Writes of well-formed nodes at paths of a node that do not lead to a priority. -/
def overwrite (V : Type*) : Overwrite FKey (FNode V) (FNode V) where
  put := updateChild
  Allowed p c := FKey.priority ∉ p ∧ c.Wf
  Clear n p := n.Wf ∧ n.Clear p
  clear_above hq h := ⟨h.1, h.2.above hq⟩
  clear_put hc hqp h := ⟨h.1.updateChild _ hc.2, h.2.updateChild h.1 hc.1 hqp hc.2⟩
  absorb hc hd hq h := updateChild_absorb h.1 h.2 hq hc.2 hd.2
  commute hc hd hpq hqp h := updateChild_comm h.1 h.2 hd.1 hpq hqp hc.2 hd.2

end FNode

end ForDream

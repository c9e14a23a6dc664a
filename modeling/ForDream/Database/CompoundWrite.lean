import ForDream.Database.Node

/-!
# Compound writes

An `FImmutableTree` keeps values under paths.  A compound write is a tree of nodes: it
stands for the overwriting of all paths under which it has a node.  A write is added
below a node that the tree has already by updating that node, and at any other path by
replacing what the tree has there and below; so no two of its nodes are on one path.

Adding a write to a compound write and then applying it is the same as applying the
compound write and then making the write, for data that is open above the paths of the
writes.
-/

namespace ForDream

/-- A tree with values under paths. -/
inductive FImmutableTree (α : Type*) where
  | node (value : Option α) (children : List (FKey × FImmutableTree α))

namespace FImmutableTree

variable {α : Type*}

/-- The value at the root. -/
def value : FImmutableTree α → Option α
  | .node value _ => value

/-- The children, as the entries of their sorted dictionary. -/
def children : FImmutableTree α → List (FKey × FImmutableTree α)
  | .node _ children => children

/-- A tree with a value only at its root. -/
def initWithValue (aValue : Option α) : FImmutableTree α := .node aValue []

/-- The tree without values. -/
def empty : FImmutableTree α := initWithValue none

/-- Whether a tree has neither a value nor children. -/
def isEmpty (t : FImmutableTree α) : Bool := t.value.isNone && t.children.isEmpty

/-- The child under a key. -/
def get (t : FImmutableTree α) (key : FKey) : Option (FImmutableTree α) :=
  Assoc.lookup FKey.stringComparator t.children key

/-- The child under a key, empty if there is none. -/
def child (t : FImmutableTree α) (key : FKey) : FImmutableTree α :=
  Assoc.lookupD FKey.stringComparator t.children key empty

/-- The first value on a path that satisfies a predicate, and the path to it. -/
def findRootMostMatchingPath (predicate : α → Bool) :
    FImmutableTree α → List FKey → Option (List FKey × α)
  | t, [] => (t.value.filter predicate).map fun value => ([], value)
  | t, front :: path =>
      match t.value.filter predicate with
      | some value => some ([], value)
      | none => (t.get front).bind fun child =>
          (findRootMostMatchingPath predicate child path).map fun found =>
            (front :: found.1, found.2)

/-- The first value on a path, and the path to it. -/
def findRootMostValueAndPath (t : FImmutableTree α) (relativePath : List FKey) :
    Option (List FKey × α) :=
  findRootMostMatchingPath (fun _ => true) t relativePath

/-- The tree at a path. -/
def subtreeAtPath : FImmutableTree α → List FKey → FImmutableTree α
  | t, [] => t
  | t, front :: path =>
      match t.get front with
      | some childTree => subtreeAtPath childTree path
      | none => empty

/-- The tree with a value at a path. -/
def setValue : FImmutableTree α → α → List FKey → FImmutableTree α
  | t, newValue, [] => .node (some newValue) t.children
  | t, newValue, front :: path =>
      .node t.value
        (Assoc.insert FKey.stringComparator front (setValue (t.child front) newValue path)
          t.children)

/-- The tree with another one in the place of what it has at a path. -/
def setTree : FImmutableTree α → FImmutableTree α → List FKey → FImmutableTree α
  | _, newTree, [] => newTree
  | t, newTree, front :: path =>
      .node t.value
        (Assoc.store FKey.stringComparator isEmpty front (setTree (t.child front) newTree path)
          t.children)

mutual

/-- The paths and values a block is called with, in order: children come before the value
of their parent. -/
def forEachPathSoFar : FImmutableTree α → List FKey → List (List FKey × α)
  | .node value children, pathSoFar =>
      forEachChildPathSoFar children pathSoFar ++ (value.map fun v => (pathSoFar, v)).toList

/-- The calls for the children of a tree. -/
def forEachChildPathSoFar : List (FKey × FImmutableTree α) → List FKey → List (List FKey × α)
  | [], _ => []
  | (childKey, childTree) :: children, pathSoFar =>
      forEachPathSoFar childTree (pathSoFar ++ [childKey])
        ++ forEachChildPathSoFar children pathSoFar

end

/-- The paths and values of a tree. -/
def forEach (t : FImmutableTree α) : List (List FKey × α) := t.forEachPathSoFar []

/-- Induction on trees: what holds of a tree if it holds of its children holds of all
trees. -/
@[elab_as_elim, induction_eliminator]
theorem induction {motive : FImmutableTree α → Prop}
    (node : ∀ value children, (∀ e ∈ children, motive e.2) → motive (.node value children))
    (t : FImmutableTree α) : motive t
  := by
  refine @FImmutableTree.rec α motive (fun l => ∀ e ∈ l, motive e.2) (fun e => motive e.2)
    node ?_ ?_ ?_ t
  · simp
  · intro e l he hl
    rw [List.forall_mem_cons]
    exact ⟨he, hl⟩
  · intro k t ht
    exact ht

@[simp]
theorem child_empty (k : FKey) :
  (empty : FImmutableTree α).child k = empty
  := rfl

theorem isEmpty_empty :
  (empty : FImmutableTree α).isEmpty = true
  := rfl

theorem isEmpty_iff {t : FImmutableTree α} :
  t.isEmpty = true ↔ t = empty
  := by
  obtain ⟨value, kids⟩ := t
  simp [isEmpty, FImmutableTree.value, children, empty, initWithValue]

end FImmutableTree

/-- A compound write: a tree of nodes. -/
abbrev FCompoundWrite (V : Type*) : Type _ := FImmutableTree (FNode V)

namespace FCompoundWrite

variable {V : Type*}

/-- The compound write without writes. -/
def emptyWrite : FCompoundWrite V := FImmutableTree.initWithValue none

/-- A compound write with another write.  The path to the node that is updated is a prefix
of the path of the write, so that there is a relative path. -/
def addWrite (w : FCompoundWrite V) (node : FNode V) (path : List FKey) : FCompoundWrite V :=
  if path.isEmpty then FImmutableTree.initWithValue (some node)
  else
    match w.findRootMostValueAndPath path with
    | some (rootMostPath, rootMostValue) =>
        let relativePath := (FPath.relativePieces rootMostPath path).getD []
        w.setValue (rootMostValue.updateChild relativePath node) rootMostPath
    | none => w.setTree (FImmutableTree.initWithValue (some node)) path

/-- A compound write with all writes of another one below a path. -/
def addCompoundWrite (w compoundWrite : FCompoundWrite V) (path : List FKey) : FCompoundWrite V :=
  compoundWrite.forEach.foldl (fun newWrite e => addWrite newWrite e.2 (path ++ e.1)) w

/-- A compound write without the writes at a path and below. -/
def removeWriteAtPath (w : FCompoundWrite V) (path : List FKey) : FCompoundWrite V :=
  if path.isEmpty then emptyWrite else w.setTree FImmutableTree.empty path

/-- The node at a path that the write fully overwrites. -/
def completeNodeAtPath (w : FCompoundWrite V) (path : List FKey) : Option (FNode V) :=
  (w.findRootMostValueAndPath path).map fun rootMost =>
    rootMost.2.getChild ((FPath.relativePieces rootMost.1 path).getD [])

/-- Whether the write fully overwrites the node at a path. -/
def hasCompleteWriteAtPath (w : FCompoundWrite V) (path : List FKey) : Bool :=
  (w.completeNodeAtPath path).isSome

/-- The part of a compound write at a path and below. -/
def childCompoundWriteAtPath (w : FCompoundWrite V) (path : List FKey) : FCompoundWrite V :=
  if path.isEmpty then w
  else
    match w.completeNodeAtPath path with
    | some shadowingNode => FImmutableTree.initWithValue (some shadowingNode)
    | none => w.subtreeAtPath path

mutual

/-- A tree of writes is applied to the node at a path.  The write of a priority comes after
the writes of the children, and only if the node is not empty then. -/
def applySubtreeWrite : FCompoundWrite V → List FKey → FNode V → FNode V
  | .node (some value) _, relativePath, node => node.updateChild relativePath value
  | .node none children, relativePath, node =>
      let (priorityWrite, blockNode) := applyChildWrites children relativePath none node
      match priorityWrite with
      | none => blockNode
      | some priorityWrite =>
          if (blockNode.getChild relativePath).isEmpty then blockNode
          else blockNode.updateChild (relativePath ++ [FKey.priority]) priorityWrite

/-- The trees of the children are applied in order; the write of a priority is put
aside. -/
def applyChildWrites : List (FKey × FCompoundWrite V) → List FKey → Option (FNode V) → FNode V →
    Option (FNode V) × FNode V
  | [], _, priorityWrite, blockNode => (priorityWrite, blockNode)
  | (childKey, childTree) :: children, relativePath, priorityWrite, blockNode =>
      if childKey = FKey.priority then
        applyChildWrites children relativePath childTree.value blockNode
      else
        applyChildWrites children relativePath priorityWrite
          (applySubtreeWrite childTree (relativePath ++ [childKey]) blockNode)

end

/-- A node with all writes applied. -/
def applyToNode (w : FCompoundWrite V) (node : FNode V) : FNode V := w.applySubtreeWrite [] node

/-! ## Well-formed compound writes -/

/-- A node has no writes below it, children ascend in the order of strings, and none of
them is without writes. -/
inductive Wf : FCompoundWrite V → Prop
  | value {node : FNode V} (wf : node.Wf) : Wf (.node (some node) [])
  | children {kids : List (FKey × FCompoundWrite V)}
      (ascending : Assoc.Ascending FKey.stringComparator kids)
      (isEmpty : ∀ e ∈ kids, e.2.isEmpty = false)
      (wf : ∀ e ∈ kids, Wf e.2) : Wf (.node none kids)

section Add

variable {w : FCompoundWrite V} {c d v : FNode V} {kids : List (FKey × FCompoundWrite V)}
  {k j : FKey} {p q : List FKey}

theorem wf_empty :
  Wf (FImmutableTree.empty : FCompoundWrite V)
  := .children .nil (by simp) (by simp)

theorem Wf.child (h : w.Wf) (k : FKey) :
  Wf (w.child k)
  := by
  cases h with
  | value => exact wf_empty
  | children _ _ hwf => apply Assoc.lookupD_mem hwf wf_empty

theorem isEmpty_setTree (w : FCompoundWrite V) (c : FNode V) (p : List FKey) :
  (w.setTree (FImmutableTree.initWithValue (some c)) p).isEmpty = false
  := by
  induction p generalizing w with
  | nil => rfl
  | cons k p ih =>
    rw [FImmutableTree.setTree, Assoc.store, ih, if_neg (by simp), FImmutableTree.isEmpty,
      FImmutableTree.children, Assoc.insert]
    simp

@[simp]
theorem addWrite_nil (w : FCompoundWrite V) (c : FNode V) :
  w.addWrite c [] = .node (some c) []
  := rfl

/-- A write below a node of the compound write updates that node. -/
theorem addWrite_value :
  addWrite (.node (some v) kids) c (k :: p) = .node (some (v.updateChild (k :: p) c)) kids
  := rfl

theorem findRootMostValueAndPath_children :
  (FImmutableTree.node none kids).findRootMostValueAndPath (k :: p)
    = (((FImmutableTree.node none kids).child k).findRootMostValueAndPath p).map
        fun found => (k :: found.1, found.2)
  := by
  have hempty : ∀ p,
      (FImmutableTree.empty : FCompoundWrite V).findRootMostValueAndPath p = none := by
    intro p
    cases p with
    | nil => rfl
    | cons => rfl
  rw [FImmutableTree.findRootMostValueAndPath, FImmutableTree.findRootMostMatchingPath,
    FImmutableTree.child, Assoc.lookupD, ← FImmutableTree.get]
  change ((FImmutableTree.node none kids).get k).bind _ = _
  cases (FImmutableTree.node none kids).get k with
  | none =>
    rw [Option.getD_none, hempty]
    rfl
  | some t => rfl

/-- Elsewhere it is added to the child the path leads to. -/
theorem addWrite_children (h : Wf (.node none kids)) :
  addWrite (.node none kids) c (k :: p)
    = .node none (Assoc.insert FKey.stringComparator k
        (addWrite ((FImmutableTree.node none kids).child k) c p) kids)
  := by
  have hchild := h.child k
  rw [addWrite, if_neg (by simp), findRootMostValueAndPath_children]
  rcases hfind : ((FImmutableTree.node none kids).child k).findRootMostValueAndPath p with
    _ | ⟨q, v⟩
  · have hset : addWrite ((FImmutableTree.node none kids).child k) c p
        = ((FImmutableTree.node none kids).child k).setTree
            (FImmutableTree.initWithValue (some c)) p := by
      cases p with
      | nil => rfl
      | cons => rw [addWrite, if_neg (by simp), hfind]
    rw [Option.map_none, FImmutableTree.setTree, Assoc.store, isEmpty_setTree, if_neg (by simp),
      hset]
    rfl
  · rw [Option.map_some]
    dsimp only
    rw [FImmutableTree.setValue]
    have hset : addWrite ((FImmutableTree.node none kids).child k) c p
        = ((FImmutableTree.node none kids).child k).setValue
            (v.updateChild ((FPath.relativePieces q p).getD []) c) q := by
      cases p with
      | nil =>
        generalize (FImmutableTree.node none kids).child k = t at hchild hfind
        cases hchild with
        | value =>
          obtain ⟨rfl, rfl⟩ := Prod.mk.inj (Option.some.inj hfind)
          rw [addWrite_nil, FPath.relativePieces, Option.getD_some, FNode.updateChild_nil]
          rfl
        | children => cases hfind
      | cons => rw [addWrite, if_neg (by simp), hfind]
    rw [hset, FPath.relativePieces, if_pos rfl]
    rfl

theorem isEmpty_addWrite (w : FCompoundWrite V) (c : FNode V) (p : List FKey) :
  (addWrite w c p).isEmpty = false
  := by
  rw [addWrite]
  split
  · rfl
  · split
    · rename_i q v _
      cases q with
      | nil => rfl
      | cons k q =>
        rw [FImmutableTree.setValue, FImmutableTree.isEmpty, FImmutableTree.children, Assoc.insert]
        simp
    · apply isEmpty_setTree

theorem Wf.addWrite (h : w.Wf) (hc : c.Wf) (p : List FKey) :
  Wf (w.addWrite c p)
  := by
  induction p generalizing w with
  | nil => exact .value hc
  | cons k p ih =>
    cases h with
    | value hv => exact .value (hv.updateChild _ hc)
    | @children kids hasc hempty hwf =>
      rw [addWrite_children (.children hasc hempty hwf)]
      refine .children (Assoc.ascending_insert hasc k _) ?_ ?_
      · intro e he
        rcases Assoc.mem_insert.mp he with ⟨he, -⟩ | rfl
        · apply hempty e he
        · apply isEmpty_addWrite
      · intro e he
        rcases Assoc.mem_insert.mp he with ⟨he, -⟩ | rfl
        · apply hwf e he
        · apply ih (Wf.child (.children hasc hempty hwf) k)

theorem child_addWrite_self (h : w.Wf) (hvalue : w.value = none) :
  (w.addWrite c (k :: p)).child k = addWrite (w.child k) c p
  := by
  cases h with
  | value => cases hvalue
  | children hasc hempty hwf =>
    rw [addWrite_children (.children hasc hempty hwf), FImmutableTree.child, Assoc.lookupD,
      FImmutableTree.children, Assoc.lookup_insert_self hasc]
    rfl

theorem child_addWrite_of_ne (h : w.Wf) (hvalue : w.value = none) (hne : j ≠ k) :
  (w.addWrite c (k :: p)).child j = w.child j
  := by
  cases h with
  | value => cases hvalue
  | children hasc hempty hwf =>
    rw [addWrite_children (.children hasc hempty hwf), FImmutableTree.child, Assoc.lookupD,
      FImmutableTree.children, Assoc.lookup_insert_of_ne FKey.eq_of_stringComparator hasc hne]
    rfl

theorem value_addWrite (h : w.Wf) (hvalue : w.value = none) :
  (w.addWrite c (k :: p)).value = none
  := by
  cases h with
  | value => cases hvalue
  | children hasc hempty hwf =>
    rw [addWrite_children (.children hasc hempty hwf)]
    rfl

/-- Compound writes without a node at the root are told apart by their children. -/
theorem Wf.ext {w w' : FCompoundWrite V} (h : w.Wf) (h' : w'.Wf) (hvalue : w.value = none)
    (hvalue' : w'.value = none) (heq : ∀ k, w.child k = w'.child k) :
  w = w'
  := by
  cases h with
  | value => cases hvalue
  | children hasc hempty _ =>
    cases h' with
    | value => cases hvalue'
    | children hasc' hempty' _ =>
      congr 1
      apply hasc.ext_lookupD FKey.eq_of_stringComparator hasc' FImmutableTree.isEmpty_empty
        hempty hempty' heq

/-! ## Adding writes one after the other -/

/-- The compound write has no node above a path. -/
def Free : FCompoundWrite V → List FKey → Prop
  | _, [] => True
  | w, k :: p => w.value = none ∧ Free (w.child k) p

theorem Free.above (h : w.Free p) (hq : q <+: p) :
  w.Free q
  := by
  induction q generalizing w p with
  | nil => trivial
  | cons k q ih =>
    obtain ⟨r, rfl⟩ := hq
    exact ⟨h.1, ih h.2 (List.prefix_append q r)⟩

/-- A write not above a path leaves it free. -/
theorem Free.addWrite (h : w.Free p) (hw : w.Wf) (hqp : q <+: p → q = p) (c : FNode V) :
  Free (w.addWrite c q) p
  := by
  induction p generalizing w q with
  | nil => trivial
  | cons k p ih =>
    cases q with
    | nil => cases hqp List.nil_prefix
    | cons j q =>
      obtain ⟨hvalue, hfree⟩ := h
      refine ⟨value_addWrite hw hvalue, ?_⟩
      rcases eq_or_ne k j with rfl | hne
      · rw [child_addWrite_self hw hvalue]
        apply ih hfree (hw.child k)
        intro hpre
        apply (List.cons.inj (hqp (List.cons_prefix_cons.mpr ⟨rfl, hpre⟩))).2
      · rw [child_addWrite_of_ne hw hvalue hne]
        exact hfree

/-- A write at or above another one undoes it. -/
theorem addWrite_absorb (hw : w.Wf) (hfree : w.Free q) (hq : q <+: p) (hc : c.Wf) (hd : d.Wf) :
  addWrite (w.addWrite c p) d q = w.addWrite d q
  := by
  induction q generalizing w p with
  | nil => rfl
  | cons k q ih =>
    obtain ⟨r, rfl⟩ := hq
    obtain ⟨hvalue, hfree⟩ := hfree
    have hwc := hw.addWrite hc (k :: (q ++ r))
    have hvaluec := value_addWrite hw hvalue (c := c) (k := k) (p := q ++ r)
    rw [List.cons_append]
    apply (hwc.addWrite hd _).ext (hw.addWrite hd _) (value_addWrite hwc hvaluec)
      (value_addWrite hw hvalue)
    intro j
    rcases eq_or_ne j k with rfl | hne
    · rw [child_addWrite_self hwc hvaluec, child_addWrite_self hw hvalue,
        child_addWrite_self hw hvalue]
      apply ih (hw.child j) hfree (List.prefix_append q r)
    · rw [child_addWrite_of_ne hwc hvaluec hne, child_addWrite_of_ne hw hvalue hne,
        child_addWrite_of_ne hw hvalue hne]

/-- Writes neither of which is below the other commute. -/
theorem addWrite_comm (hw : w.Wf) (hfree : w.Free p) (hpq : ¬ p <+: q) (hqp : ¬ q <+: p)
    (hc : c.Wf) (hd : d.Wf) :
  addWrite (w.addWrite c p) d q = addWrite (w.addWrite d q) c p
  := by
  induction p generalizing w q with
  | nil => exact absurd List.nil_prefix hpq
  | cons k p ih =>
    obtain ⟨hvalue, hfree⟩ := hfree
    cases q with
    | nil => exact absurd List.nil_prefix hqp
    | cons j q =>
      have hwc := hw.addWrite hc (k :: p)
      have hwd := hw.addWrite hd (j :: q)
      have hvaluec := value_addWrite hw hvalue (c := c) (k := k) (p := p)
      have hvalued := value_addWrite hw hvalue (c := d) (k := j) (p := q)
      apply (hwc.addWrite hd _).ext (hwd.addWrite hc _) (value_addWrite hwc hvaluec)
        (value_addWrite hwd hvalued)
      intro i
      rcases eq_or_ne k j with rfl | hne
      · rw [List.cons_prefix_cons, not_and] at hpq hqp
        rcases eq_or_ne i k with rfl | hik
        · rw [child_addWrite_self hwc hvaluec, child_addWrite_self hwd hvalued,
            child_addWrite_self hw hvalue, child_addWrite_self hw hvalue]
          apply ih (hw.child i) hfree (hpq rfl) (hqp rfl)
        · rw [child_addWrite_of_ne hwc hvaluec hik, child_addWrite_of_ne hwd hvalued hik,
            child_addWrite_of_ne hw hvalue hik, child_addWrite_of_ne hw hvalue hik]
      · rcases eq_or_ne i k with rfl | hik
        · rw [child_addWrite_of_ne hwc hvaluec hne, child_addWrite_self hw hvalue,
            child_addWrite_self hwd hvalued, child_addWrite_of_ne hw hvalue hne]
        · rw [child_addWrite_of_ne hwd hvalued hik]
          rcases eq_or_ne i j with rfl | hij
          · rw [child_addWrite_self hwc hvaluec, child_addWrite_self hw hvalue,
              child_addWrite_of_ne hw hvalue hik]
          · rw [child_addWrite_of_ne hwc hvaluec hij, child_addWrite_of_ne hw hvalue hij,
              child_addWrite_of_ne hw hvalue hik]

/-! ## Removing writes -/

/-- The compound write has no node at, above or below a path. -/
def Vacant : FCompoundWrite V → List FKey → Prop
  | w, [] => w = FImmutableTree.empty
  | w, k :: p => w.value = none ∧ Vacant (w.child k) p

theorem vacant_empty (p : List FKey) :
  Vacant (FImmutableTree.empty : FCompoundWrite V) p
  := by
  induction p with
  | nil => rfl
  | cons k p ih => exact ⟨rfl, ih⟩

theorem Vacant.addWrite (h : w.Vacant p) (hw : w.Wf) (hpq : ¬ p <+: q) (hqp : ¬ q <+: p)
    (c : FNode V) :
  Vacant (w.addWrite c q) p
  := by
  induction p generalizing w q with
  | nil => exact absurd List.nil_prefix hpq
  | cons k p ih =>
    cases q with
    | nil => exact absurd List.nil_prefix hqp
    | cons j q =>
      obtain ⟨hvalue, hvacant⟩ := h
      refine ⟨value_addWrite hw hvalue, ?_⟩
      rcases eq_or_ne k j with rfl | hne
      · rw [List.cons_prefix_cons, not_and] at hpq hqp
        rw [child_addWrite_self hw hvalue]
        apply ih hvacant (hw.child k) (hpq rfl) (hqp rfl)
      · rw [child_addWrite_of_ne hw hvalue hne]
        exact hvacant

theorem Vacant.free (h : w.Vacant p) :
  w.Free p
  := by
  induction p generalizing w with
  | nil => trivial
  | cons k p ih => exact ⟨h.1, ih h.2⟩

/-- The children of a tree whose child under a key is replaced. -/
theorem child_setTree_self {t : FCompoundWrite V} (hw : w.Wf) (hvalue : w.value = none) :
  (FImmutableTree.setTree w t (k :: p)).child k = (w.child k).setTree t p
  := by
  cases hw with
  | value => cases hvalue
  | children hasc _ _ =>
    rw [FImmutableTree.setTree, FImmutableTree.child, FImmutableTree.children]
    apply Assoc.lookupD_store_self hasc FImmutableTree.isEmpty_iff.mp

theorem child_setTree_of_ne {t : FCompoundWrite V} (hw : w.Wf) (hvalue : w.value = none)
    (hne : j ≠ k) :
  (FImmutableTree.setTree w t (k :: p)).child j = w.child j
  := by
  cases hw with
  | value => cases hvalue
  | children hasc _ _ =>
    rw [FImmutableTree.setTree, FImmutableTree.child, FImmutableTree.children]
    apply Assoc.lookupD_store_of_ne FKey.eq_of_stringComparator hasc hne

theorem Wf.setTree {t : FCompoundWrite V} (hw : w.Wf) (ht : t.Wf) (hfree : w.Free p) :
  Wf (FImmutableTree.setTree w t p)
  := by
  induction p generalizing w with
  | nil => exact ht
  | cons k p ih =>
    obtain ⟨hvalue, hfree⟩ := hfree
    have hchild := ih (hw.child k) hfree
    cases hw with
    | value => cases hvalue
    | children hasc hempty hwf =>
      rw [FImmutableTree.setTree]
      refine .children (Assoc.ascending_store hasc k _) ?_ ?_
      · intro e he
        rcases Assoc.mem_store he with he | ⟨rfl, hne⟩
        · apply hempty e he
        · exact hne
      · intro e he
        rcases Assoc.mem_store he with he | ⟨rfl, -⟩
        · apply hwf e he
        · exact hchild

/-- Removing a write that was added where there was none restores the compound write. -/
theorem setTree_addWrite (hw : w.Wf) (hvacant : w.Vacant p) (hc : c.Wf) :
  FImmutableTree.setTree (w.addWrite c p) .empty p = w
  := by
  induction p generalizing w with
  | nil => exact hvacant.symm
  | cons k p ih =>
    have hfree := hvacant.free.addWrite hw (fun _ => rfl) c
    obtain ⟨hvalue, hvacant⟩ := hvacant
    have hwc := hw.addWrite hc (k :: p)
    have hvaluec := value_addWrite hw hvalue (c := c) (k := k) (p := p)
    apply (hwc.setTree wf_empty hfree).ext hw hvaluec hvalue
    intro j
    rcases eq_or_ne j k with rfl | hne
    · rw [child_setTree_self hwc hvaluec, child_addWrite_self hw hvalue, ih (hw.child j) hvacant]
    · rw [child_setTree_of_ne hwc hvaluec hne, child_addWrite_of_ne hw hvalue hne]

theorem removeWriteAtPath_addWrite (hw : w.Wf) (hvacant : w.Vacant p) (hc : c.Wf) :
  removeWriteAtPath (w.addWrite c p) p = w
  := by
  cases p with
  | nil => exact hvacant.symm
  | cons k p =>
    rw [removeWriteAtPath, if_neg (by simp)]
    apply setTree_addWrite hw hvacant hc

end Add

/-- Writes of well-formed nodes at paths of a compound write. -/
def overwrite (V : Type*) : Overwrite FKey (FNode V) (FCompoundWrite V) where
  put w p c := w.addWrite c p
  Allowed _ c := c.Wf
  Clear w p := w.Wf ∧ w.Free p
  clear_above hq h := ⟨h.1, h.2.above hq⟩
  clear_put hc hqp h := ⟨h.1.addWrite hc _, h.2.addWrite h.1 hqp _⟩
  absorb hc hd hq h := addWrite_absorb h.1 h.2 hq hc hd
  commute hc hd hpq hqp h := addWrite_comm h.1 h.2 hpq hqp hc hd

end FCompoundWrite

end ForDream

import ForDream.Database.Merge

/-!
# The tree of views

The views are kept in a tree under their paths.  An operation is taken down the tree: first
along its own path, where it is applied to each view it passes, and then to all views
below.  On the way it is turned into the operation as it is seen from each child.

`Applied` says what this leaves: each view that the operation reaches has been updated by
the operation as it is seen from there, all others are as they were, and the changes raised
are those of the views.
-/

namespace ForDream

namespace FImmutableTree

variable {α : Type*}

/-- The value at a path. -/
def valueAtPath : FImmutableTree α → List FKey → Option α
  | t, [] => t.value
  | t, front :: path =>
      match t.get front with
      | some child => valueAtPath child path
      | none => none

/-- No two children of a node are under the same key. -/
inductive Distinct : FImmutableTree α → Prop
  | node {value : Option α} {kids : List (FKey × FImmutableTree α)}
      (nodup : kids.Pairwise fun d e => d.1 ≠ e.1) (distinct : ∀ e ∈ kids, Distinct e.2) :
      Distinct (.node value kids)

variable {value value' : Option α} {kids : List (FKey × FImmutableTree α)} {t : FImmutableTree α}
  {j k : FKey} {p : List FKey}

theorem valueAtPath_value (value value' : Option α) :
  (node value kids).valueAtPath (k :: p) = (node value' kids).valueAtPath (k :: p)
  := rfl

theorem valueAtPath_cons_self :
  (node value ((k, t) :: kids)).valueAtPath (k :: p) = t.valueAtPath p
  := by
  rw [valueAtPath, get, children, Assoc.lookup_cons_self]

theorem valueAtPath_cons_of_ne (hne : j ≠ k) :
  (node value ((k, t) :: kids)).valueAtPath (j :: p) = (node value kids).valueAtPath (j :: p)
  := by
  rw [valueAtPath, get, children, Assoc.lookup_cons_of_ne FKey.eq_of_stringComparator hne]
  rfl

/-- The children with another one under a key. -/
def replaceChild (kids : List (FKey × FImmutableTree α)) (key : FKey) (t : FImmutableTree α) :
    List (FKey × FImmutableTree α) :=
  kids.map fun e => if e.1 = key then (e.1, t) else e

theorem map_fst_replaceChild (kids : List (FKey × FImmutableTree α)) (k : FKey)
    (t : FImmutableTree α) :
  (replaceChild kids k t).map Prod.fst = kids.map Prod.fst
  := by
  rw [replaceChild, List.map_map]
  apply List.map_congr_left
  intro e _
  dsimp only [Function.comp]
  split <;> rfl

theorem valueAtPath_replaceChild_self {s : FImmutableTree α}
    (hget : (node value kids).get k = some s) :
  (node value (replaceChild kids k t)).valueAtPath (k :: p) = t.valueAtPath p
  := by
  induction kids with
  | nil => cases hget
  | cons e kids ih =>
    obtain ⟨i, u⟩ := e
    rw [replaceChild, List.map_cons]
    dsimp only
    split
    case isTrue heq => rw [heq, valueAtPath_cons_self]
    case isFalse hne =>
      rw [valueAtPath_cons_of_ne (Ne.symm hne)]
      apply ih
      rw [get, children, Assoc.lookup_cons_of_ne FKey.eq_of_stringComparator (Ne.symm hne)] at hget
      exact hget

theorem valueAtPath_replaceChild_of_ne (hne : j ≠ k) :
  (node value (replaceChild kids k t)).valueAtPath (j :: p) = (node value kids).valueAtPath (j :: p)
  := by
  induction kids with
  | nil => rfl
  | cons e kids ih =>
    obtain ⟨i, u⟩ := e
    rw [replaceChild, List.map_cons, ← replaceChild]
    dsimp only
    rcases eq_or_ne j i with rfl | hji
    · rw [if_neg hne, valueAtPath_cons_self, valueAtPath_cons_self]
    · split
      · rw [valueAtPath_cons_of_ne hji, valueAtPath_cons_of_ne hji, ih]
      · rw [valueAtPath_cons_of_ne hji, valueAtPath_cons_of_ne hji, ih]

theorem get_of_mem (hnodup : kids.Pairwise fun d e => d.1 ≠ e.1) {e : FKey × FImmutableTree α}
    (he : e ∈ kids) :
  (node value kids).get e.1 = some e.2
  := by
  induction kids with
  | nil => cases he
  | cons d kids ih =>
    rw [List.pairwise_cons] at hnodup
    rcases List.mem_cons.mp he with rfl | he
    · rw [get, children, Assoc.lookup_cons_self]
    · rw [get, children,
        Assoc.lookup_cons_of_ne FKey.eq_of_stringComparator (Ne.symm (hnodup.1 e he))]
      apply ih hnodup.2 he

theorem Distinct.get (h : (FImmutableTree.node value kids).Distinct)
    (hget : (FImmutableTree.node value kids).get k = some t) :
  t.Distinct
  := by
  cases h with
  | node _ hdistinct =>
    obtain ⟨e, hfind, rfl⟩ := Option.map_eq_some_iff.mp hget
    apply hdistinct e (List.mem_of_find?_eq_some hfind)

theorem Distinct.replaceChild (h : (FImmutableTree.node value kids).Distinct) (ht : t.Distinct)
    (k : FKey) :
  (FImmutableTree.node value' (FImmutableTree.replaceChild kids k t)).Distinct
  := by
  cases h with
  | node hnodup hdistinct =>
    refine .node ?_ ?_
    · rw [← List.pairwise_map (R := fun a b => a ≠ b), map_fst_replaceChild, List.pairwise_map]
      exact hnodup
    · intro e he
      obtain ⟨d, hd, rfl⟩ := List.mem_map.mp he
      split
      · exact ht
      · apply hdistinct d hd

end FImmutableTree

variable {V : Type*}

/-! ## Operations on all views -/

/-- The changes raised, each with the path of its view. -/
abbrev Raised (V : Type*) : Type _ := List (List FKey × List (FChange V))

/-- The changes raised for the view at a path. -/
def Raised.at (events : Raised V) (path : List FKey) : List (FChange V) :=
  (events.filter fun event => event.1 = path).flatMap Prod.snd

/-- The views, each at its path with its cache, and the pending writes.  There is at most
one view at a path, of all the data there. -/
structure FSyncTree (V : Type*) where
  syncPointTree : FImmutableTree (FViewCache V)
  pendingWriteTree : FWriteTree V

namespace FSyncTree

/-- The cache of the server data that is handed down, or that of the view. -/
def resolveServerCache (serverCache : Option (FNode V)) (syncPoint : Option (FViewCache V)) :
    Option (FNode V) :=
  match serverCache with
  | some serverCache => some serverCache
  | none => syncPoint.bind FViewCache.completeServerSnap

variable [DecidableEq V]

/-- The operation is applied to the view at a path, if there is one. -/
def applyOperation (writes : FWriteTree V) (syncPoint : Option (FViewCache V))
    (operation : FOperation V) (path : List FKey) (serverCache : Option (FNode V)) :
    Option (Option (FViewCache V) × Raised V) :=
  match syncPoint with
  | none => some (none, [])
  | some view =>
      (FViewProcessor.applyOperationOn view operation ⟨path, writes⟩ serverCache).map
        fun result => (some result.1, [(path, result.2)])

mutual

/-- The operation is applied to all views in a tree. -/
def applyOperationDescendantsHelper (writes : FWriteTree V) :
    FImmutableTree (FViewCache V) → FOperation V → List FKey → Option (FNode V) →
    Option (FImmutableTree (FViewCache V) × Raised V)
  | .node syncPoint children, operation, path, serverCache => do
      let resolvedServerCache := resolveServerCache serverCache syncPoint
      let (children, events) ←
        applyOperationDescendantsChildren writes children operation path resolvedServerCache
      let (syncPoint, own) ←
        applyOperation writes syncPoint operation path resolvedServerCache
      some (.node syncPoint children, events ++ own)

/-- The operation is applied to all views below the children. -/
def applyOperationDescendantsChildren (writes : FWriteTree V) :
    List (FKey × FImmutableTree (FViewCache V)) → FOperation V → List FKey → Option (FNode V) →
    Option (List (FKey × FImmutableTree (FViewCache V)) × Raised V)
  | [], _, _, _ => some ([], [])
  | (childKey, childTree) :: children, operation, path, serverCache => do
      let (childTree, events) ←
        (operation.operationForChild childKey).elim (some (childTree, [])) fun childOperation =>
          applyOperationDescendantsHelper writes childTree childOperation (path ++ [childKey])
            (serverCache.map fun node => node.getImmediateChild childKey)
      let (children, rest) ←
        applyOperationDescendantsChildren writes children operation path serverCache
      some ((childKey, childTree) :: children, events ++ rest)

end

/-- The operation is applied to the views along its path, which is given first, and to all
views below. -/
def applyOperationHelper (writes : FWriteTree V) :
    List FKey → FImmutableTree (FViewCache V) → FOperation V → List FKey → Option (FNode V) →
    Option (FImmutableTree (FViewCache V) × Raised V)
  | [], tree, operation, path, serverCache =>
      applyOperationDescendantsHelper writes tree operation path serverCache
  | childKey :: operationPath, .node syncPoint children, operation, path, serverCache => do
      let serverCache := resolveServerCache serverCache syncPoint
      let (children, events) ←
        match FImmutableTree.get (.node syncPoint children) childKey,
          operation.operationForChild childKey with
        | some childTree, some childOperation =>
            (applyOperationHelper writes operationPath childTree childOperation
              (path ++ [childKey])
              (serverCache.map fun node => node.getImmediateChild childKey)).map
              fun result => (FImmutableTree.replaceChild children childKey result.1, result.2)
        | _, _ => some (children, [])
      let (syncPoint, own) ← applyOperation writes syncPoint operation path serverCache
      some (.node syncPoint children, events ++ own)

/-- The operation is applied to all views it meets. -/
def applyOperationToSyncPoints (tree : FSyncTree V) (operation : FOperation V) :
    Option (FSyncTree V × Raised V) :=
  (applyOperationHelper tree.pendingWriteTree operation.path tree.syncPointTree operation []
    none).map fun result => ({ tree with syncPointTree := result.1 }, result.2)

/-- The user overwrites the data at a path. -/
def applyUserOverwriteAtPath (tree : FSyncTree V) (path : List FKey) (newData : FNode V)
    (writeId : ℤ) (visible : Bool) : Option (FSyncTree V × Raised V) := do
  let writes ← tree.pendingWriteTree.addOverwriteAtPath path newData writeId visible
  let tree := { tree with pendingWriteTree := writes }
  if visible then tree.applyOperationToSyncPoints (.overwrite true path newData)
  else some (tree, [])

/-- The user merges children below a path. -/
def applyUserMergeAtPath (tree : FSyncTree V) (path : List FKey)
    (changedChildren : FCompoundWrite V) (writeId : ℤ) : Option (FSyncTree V × Raised V) := do
  let writes ← tree.pendingWriteTree.addMergeAtPath path changedChildren writeId
  applyOperationToSyncPoints { tree with pendingWriteTree := writes }
    (.merge true path changedChildren)

/-- The paths a write affects, below its own. -/
def affectedTree : FWriteRecord V → FImmutableTree Bool
  | .overwrite _ _ _ _ => FImmutableTree.empty.setValue true []
  | .merge _ merge _ =>
      merge.forEach.foldl (fun affectedTree write => affectedTree.setValue true write.1)
        FImmutableTree.empty

/-- A pending write is acknowledged, or reverted. -/
def ackUserWriteWithWriteId (tree : FSyncTree V) (writeId : ℤ) (revert : Bool) :
    Option (FSyncTree V × Raised V) := do
  let write ← tree.pendingWriteTree.allWrites.find? fun record => record.writeId = writeId
  let (needToReevaluate, writes) ← tree.pendingWriteTree.removeWriteId writeId
  let tree := { tree with pendingWriteTree := writes }
  if needToReevaluate then
    tree.applyOperationToSyncPoints (.ackUserWrite write.path (affectedTree write) revert)
  else some (tree, [])

/-- The server overwrites the data at a path. -/
def applyServerOverwriteAtPath (tree : FSyncTree V) (path : List FKey) (newData : FNode V) :
    Option (FSyncTree V × Raised V) :=
  tree.applyOperationToSyncPoints (.overwrite false path newData)

/-- The server merges children below a path. -/
def applyServerMergeAtPath (tree : FSyncTree V) (path : List FKey)
    (changedChildren : FCompoundWrite V) : Option (FSyncTree V × Raised V) :=
  tree.applyOperationToSyncPoints (.merge false path changedChildren)

/-- The server has sent all data at a path. -/
def applyListenCompleteAtPath (tree : FSyncTree V) (path : List FKey) :
    Option (FSyncTree V × Raised V) :=
  tree.applyOperationToSyncPoints (.listenComplete path)

/-- All pending writes are given up. -/
def removeAllWrites (tree : FSyncTree V) : Option (FSyncTree V × Raised V) :=
  let removedWrites := tree.pendingWriteTree.allWrites
  let tree :=
    { tree with
      pendingWriteTree :=
        { tree.pendingWriteTree with
          visibleWrites := FCompoundWrite.emptyWrite
          allWrites := [] } }
  if removedWrites.isEmpty then some (tree, [])
  else
    tree.applyOperationToSyncPoints
      (.ackUserWrite [] (FImmutableTree.empty.setValue true []) true)

end FSyncTree

/-! ## What becomes of each view -/

namespace FOperation

/-- The operation as it is seen from a path; nothing if it does not meet it. -/
def operationFor : List FKey → FOperation V → Option (FOperation V)
  | [], operation => some operation
  | childKey :: path, operation =>
      match operation.path with
      | [] => (operation.operationForChild childKey).bind (operationFor path)
      | front :: _ =>
          if childKey = front then (operation.operationForChild childKey).bind (operationFor path)
          else none

variable {operation operation' : FOperation V} {k : FKey} {p : List FKey}

theorem path_operationForChild (h : operation.operationForChild k = some operation') :
  operation'.path = operation.path.tail
  := by
  cases operation with
  | overwrite fromUser path snap =>
    cases path <;> cases h <;> rfl
  | merge fromUser path children =>
    cases path with
    | nil =>
      rw [operationForChild] at h
      split at h
      · cases h
      · split at h <;> cases h <;> rfl
    | cons => cases h; rfl
  | ackUserWrite path affectedTree revert =>
    cases path with
    | nil =>
      rw [operationForChild] at h
      split at h <;> cases h <;> rfl
    | cons => cases h; rfl
  | listenComplete path =>
    cases path <;> cases h <;> rfl

theorem operationFor_of_nil (h : operation.path = []) :
  operationFor (k :: p) operation = (operation.operationForChild k).bind (operationFor p)
  := by
  rw [operationFor, h]

theorem operationFor_of_eq {q : List FKey} (h : operation.path = k :: q) :
  operationFor (k :: p) operation = (operation.operationForChild k).bind (operationFor p)
  := by
  rw [operationFor, h]
  dsimp only
  rw [if_pos rfl]

theorem operationFor_of_ne {j : FKey} {q : List FKey} (h : operation.path = j :: q) (hne : k ≠ j) :
  operationFor (k :: p) operation = none
  := by
  rw [operationFor, h]
  dsimp only
  rw [if_neg hne]

end FOperation

namespace Raised

variable {events rest : Raised V} {p q : List FKey}

theorem at_append :
  (events ++ rest).at p = events.at p ++ rest.at p
  := by
  rw [Raised.at, List.filter_append, List.flatMap_append, Raised.at, Raised.at]

/-- What is raised below one path is not for a view that is not. -/
theorem at_eq_nil (h : ∀ e ∈ events, q <+: e.1) (hp : ¬ q <+: p) :
  events.at p = []
  := by
  rw [Raised.at, List.filter_eq_nil_iff.mpr, List.flatMap_nil]
  intro e he heq
  rw [decide_eq_true_eq] at heq
  apply hp
  rw [← heq]
  apply h e he

end Raised

namespace FSyncTree

open FOperation FImmutableTree

variable [DecidableEq V] {writes : FWriteTree V} {operation : FOperation V} {path : List FKey}

/-- The view that an operation reaches is updated by it, and the changes raised are its
own; where there is none, or the operation does not reach it, nothing happens. -/
def Outcome (writes : FWriteTree V) (path : List FKey) (operation : Option (FOperation V))
    (view view' : Option (FViewCache V)) (changes : List (FChange V)) : Prop :=
  match view, operation with
  | some view, some operation => ∃ serverCache cache,
      FViewProcessor.applyOperationOn view operation ⟨path, writes⟩ serverCache
        = some (cache, changes) ∧ view' = some cache
  | _, _ => view' = view ∧ changes = []

theorem outcome_none (view : Option (FViewCache V)) :
  Outcome writes path none view view []
  := by
  cases view <;> exact ⟨rfl, rfl⟩

/-- Each view in a tree below a path has the outcome of the operation. -/
structure Applied (writes : FWriteTree V) (operation : FOperation V) (path : List FKey)
    (tree tree' : FImmutableTree (FViewCache V)) (events : Raised V) : Prop where
  outcome : ∀ p, Outcome writes (path ++ p) (operationFor p operation) (tree.valueAtPath p)
    (tree'.valueAtPath p) (events.at (path ++ p))
  below : ∀ e ∈ events, path <+: e.1
  distinct : tree'.Distinct

/-- No view in a tree below a path raises an exception on the operation. -/
def Succeeds (writes : FWriteTree V) (operation : FOperation V) (path : List FKey)
    (tree : FImmutableTree (FViewCache V)) : Prop :=
  ∀ p view operation', tree.valueAtPath p = some view →
    operationFor p operation = some operation' → ∀ serverCache, ∃ result,
      FViewProcessor.applyOperationOn view operation' ⟨path ++ p, writes⟩ serverCache
        = some result

theorem Succeeds.root {syncPoint : Option (FViewCache V)}
    {kids : List (FKey × FImmutableTree (FViewCache V))}
    (hs : Succeeds writes operation path (node syncPoint kids)) {view : FViewCache V}
    (hview : syncPoint = some view) (serverCache : Option (FNode V)) :
  ∃ result, FViewProcessor.applyOperationOn view operation ⟨path, writes⟩ serverCache
    = some result
  := by
  have hsucceeds := hs [] view operation hview rfl serverCache
  rw [List.append_nil] at hsucceeds
  exact hsucceeds

/-- The view at the root of a tree. -/
theorem exists_applyOperation {syncPoint : Option (FViewCache V)}
    (h : ∀ {view}, syncPoint = some view → ∀ serverCache, ∃ result,
      FViewProcessor.applyOperationOn view operation ⟨path, writes⟩ serverCache = some result)
    (serverCache : Option (FNode V)) :
  ∃ syncPoint' own, applyOperation writes syncPoint operation path serverCache
      = some (syncPoint', own)
    ∧ Outcome writes path (some operation) syncPoint syncPoint' (own.at path)
    ∧ ∀ e ∈ own, e.1 = path
  := by
  cases syncPoint with
  | none => exact ⟨none, [], rfl, ⟨rfl, rfl⟩, by simp⟩
  | some view =>
    obtain ⟨⟨cache, changes⟩, hview⟩ := h rfl serverCache
    refine ⟨some cache, [(path, changes)], ?_, ⟨serverCache, cache, ?_, rfl⟩, by simp⟩
    · rw [applyOperation, hview]
      rfl
    · rw [hview]
      simp [Raised.at]

/-- A tree is done when its root and its children are. -/
theorem applied_node {syncPoint syncPoint' : Option (FViewCache V)}
    {kids kids' : List (FKey × FImmutableTree (FViewCache V))} {events own : Raised V}
    (hroot : Outcome writes path (some operation) syncPoint syncPoint' (own.at path))
    (hown : ∀ e ∈ own, e.1 = path)
    (hkids : ∀ k p, Outcome writes (path ++ k :: p) (operationFor (k :: p) operation)
      ((node none kids).valueAtPath (k :: p)) ((node none kids').valueAtPath (k :: p))
      (events.at (path ++ k :: p)))
    (hbelow : ∀ e ∈ events, ∃ k, path ++ [k] <+: e.1) (hdistinct : (node none kids').Distinct) :
  Applied writes operation path (node syncPoint kids) (node syncPoint' kids') (events ++ own)
  := by
  have hlonger : ∀ (k : FKey) (p : List FKey), path ++ k :: p ≠ path := by
    intro k p h
    have hlen := congrArg List.length h
    simp at hlen
  refine ⟨?_, ?_, ?_⟩
  · intro p
    rw [Raised.at_append]
    cases p with
    | nil =>
      have hnone : events.at path = [] := by
        rw [Raised.at, List.filter_eq_nil_iff.mpr, List.flatMap_nil]
        intro e he heq
        rw [decide_eq_true_eq] at heq
        obtain ⟨k, q, hq⟩ := hbelow e he
        rw [heq, List.append_assoc] at hq
        exact hlonger k q hq
      rw [List.append_nil, hnone, List.nil_append]
      exact hroot
    | cons k p =>
      have hnone : own.at (path ++ k :: p) = [] := by
        rw [Raised.at, List.filter_eq_nil_iff.mpr, List.flatMap_nil]
        intro e he heq
        rw [decide_eq_true_eq, hown e he] at heq
        exact hlonger k p heq.symm
      rw [hnone, List.append_nil]
      apply hkids
  · intro e he
    rcases List.mem_append.mp he with he | he
    · obtain ⟨k, hpre⟩ := hbelow e he
      apply (List.prefix_append path [k]).trans hpre
    · rw [hown e he]
  · cases hdistinct with
    | node hnodup hdistinct => exact .node hnodup hdistinct

omit [DecidableEq V] in
theorem not_below {j k : FKey} (hne : j ≠ k) (p : List FKey) :
  ¬ path ++ [k] <+: path ++ j :: p
  := by
  rw [List.prefix_append_right_inj, List.cons_prefix_cons]
  rintro ⟨rfl, -⟩
  contradiction

omit [DecidableEq V] in
theorem append_key (k : FKey) (p : List FKey) :
  path ++ [k] ++ p = path ++ k :: p
  := by
  rw [List.append_assoc, List.singleton_append]

/-- The children of a tree are done one after the other. -/
theorem exists_applied_children {kids : List (FKey × FImmutableTree (FViewCache V))}
    (ih : ∀ e ∈ kids, ∀ (operation : FOperation V) (path : List FKey)
      (serverCache : Option (FNode V)), operation.path = [] → e.2.Distinct → Succeeds writes operation path e.2 →
        ∃ tree' events, applyOperationDescendantsHelper writes e.2 operation path serverCache
          = some (tree', events) ∧ Applied writes operation path e.2 tree' events)
    (hop : operation.path = []) (hdistinct : (node none kids).Distinct)
    (hs : ∀ e ∈ kids, ∀ childOperation, operation.operationForChild e.1 = some childOperation →
      Succeeds writes childOperation (path ++ [e.1]) e.2) (serverCache : Option (FNode V)) :
  ∃ kids' events,
    applyOperationDescendantsChildren writes kids operation path serverCache = some (kids', events)
    ∧ (∀ k p, Outcome writes (path ++ k :: p) (operationFor (k :: p) operation)
        ((node none kids).valueAtPath (k :: p)) ((node none kids').valueAtPath (k :: p))
        (events.at (path ++ k :: p)))
    ∧ (∀ e ∈ events, ∃ k ∈ kids.map Prod.fst, path ++ [k] <+: e.1)
    ∧ kids'.map Prod.fst = kids.map Prod.fst ∧ ∀ e ∈ kids', e.2.Distinct
  := by
  induction kids with
  | nil =>
    refine ⟨[], [], rfl, ?_, ?_, rfl, ?_⟩
    · intro k p
      exact ⟨rfl, rfl⟩
    · simp
    · simp
  | cons e kids ihkids =>
    obtain ⟨k, t⟩ := e
    cases hdistinct with
    | node hnodup hdistinct =>
      rw [List.forall_mem_cons] at ih hs hdistinct
      rw [List.pairwise_cons] at hnodup
      obtain ⟨kids', rest, hrest, hout, hbelow, hkeys, hdistinct'⟩ :=
        ihkids ih.2 (.node hnodup.2 hdistinct.2) hs.2
      -- the first child, which the operation may not reach
      have hfirst : ∃ t' events, ((operation.operationForChild k).elim (some (t, []))
            fun childOperation => applyOperationDescendantsHelper writes t childOperation
              (path ++ [k]) (serverCache.map fun node => node.getImmediateChild k))
            = some (t', events)
          ∧ (∀ p, Outcome writes (path ++ k :: p) (operationFor (k :: p) operation)
              (t.valueAtPath p) (t'.valueAtPath p) (Raised.at events (path ++ k :: p)))
          ∧ (∀ e ∈ events, path ++ [k] <+: e.1) ∧ t'.Distinct := by
        cases hchild : operation.operationForChild k with
        | none =>
          refine ⟨t, [], rfl, ?_, by simp, hdistinct.1⟩
          intro p
          rw [operationFor_of_nil hop, hchild]
          apply outcome_none
        | some childOperation =>
          have hpath := path_operationForChild hchild
          rw [hop, List.tail_nil] at hpath
          obtain ⟨t', events, hrun, happlied⟩ := ih.1 childOperation (path ++ [k])
            (serverCache.map fun node => node.getImmediateChild k) hpath hdistinct.1
            (hs.1 childOperation hchild)
          refine ⟨t', events, hrun, ?_, happlied.below, happlied.distinct⟩
          intro p
          have hp := happlied.outcome p
          rw [append_key] at hp
          rw [operationFor_of_nil hop, hchild]
          exact hp
      obtain ⟨t', events, hrun, houtk, hbelowk, hdistinctk⟩ := hfirst
      refine ⟨(k, t') :: kids', events ++ rest, ?_, ?_, ?_, ?_, ?_⟩
      · rw [applyOperationDescendantsChildren]
        simp only [hrun, hrest, Option.bind_eq_bind, Option.bind_some]
      · intro j p
        rw [Raised.at_append]
        rcases eq_or_ne j k with rfl | hne
        · have hnone : rest.at (path ++ j :: p) = [] := by
            rw [Raised.at, List.filter_eq_nil_iff.mpr, List.flatMap_nil]
            intro e he heq
            rw [decide_eq_true_eq] at heq
            obtain ⟨i, hi, hpre⟩ := hbelow e he
            obtain ⟨d, hd, rfl⟩ := List.mem_map.mp hi
            rw [heq] at hpre
            exact not_below (hnodup.1 d hd) p hpre
          rw [valueAtPath_cons_self, valueAtPath_cons_self, hnone, List.append_nil]
          apply houtk
        · rw [valueAtPath_cons_of_ne hne, valueAtPath_cons_of_ne hne,
            Raised.at_eq_nil hbelowk (not_below hne p), List.nil_append]
          apply hout
      · intro e he
        rw [List.map_cons]
        rcases List.mem_append.mp he with he | he
        · exact ⟨k, List.mem_cons_self, hbelowk e he⟩
        · obtain ⟨i, hi, hpre⟩ := hbelow e he
          exact ⟨i, List.mem_cons_of_mem _ hi, hpre⟩
      · rw [List.map_cons, List.map_cons, hkeys]
      · rw [List.forall_mem_cons]
        exact ⟨hdistinctk, hdistinct'⟩

/-- An operation at the root of a tree is applied to all views in it. -/
theorem exists_applied_descendants (tree : FImmutableTree (FViewCache V))
    (operation : FOperation V) (path : List FKey) (serverCache : Option (FNode V))
    (hop : operation.path = []) (hdistinct : tree.Distinct)
    (hs : Succeeds writes operation path tree) :
  ∃ tree' events, applyOperationDescendantsHelper writes tree operation path serverCache
      = some (tree', events)
    ∧ Applied writes operation path tree tree' events
  := by
  induction tree using FImmutableTree.induction generalizing operation path serverCache with
  | node syncPoint kids ih =>
    obtain ⟨hnodup, hkids⟩ : kids.Pairwise (fun d e => d.1 ≠ e.1) ∧ ∀ e ∈ kids, e.2.Distinct := by
      cases hdistinct with
      | node hnodup hkids => exact ⟨hnodup, hkids⟩
    have hsub : ∀ e ∈ kids, ∀ childOperation,
        operation.operationForChild e.1 = some childOperation →
          Succeeds writes childOperation (path ++ [e.1]) e.2 := by
      intro e he childOperation hchild p view operation' hview hoperation srv
      rw [append_key]
      apply hs (e.1 :: p) view operation'
      · rw [valueAtPath, get_of_mem hnodup he]
        exact hview
      · rw [operationFor_of_nil hop, hchild]
        exact hoperation
    obtain ⟨kids', events, hrun, hout, hbelow, hkeys, hdistinct'⟩ := exists_applied_children
      (fun e he operation path serverCache => ih e he operation path serverCache) hop
      (.node hnodup hkids) hsub (resolveServerCache serverCache syncPoint)
    obtain ⟨syncPoint', own, hown, houtcome, hownpath⟩ :=
      exists_applyOperation hs.root (resolveServerCache serverCache syncPoint)
    refine ⟨node syncPoint' kids', events ++ own, ?_, ?_⟩
    · rw [applyOperationDescendantsHelper]
      simp only [hrun, hown, Option.bind_eq_bind, Option.bind_some]
    · apply applied_node houtcome hownpath hout
      · intro e he
        obtain ⟨k, -, hpre⟩ := hbelow e he
        exact ⟨k, hpre⟩
      · refine .node ?_ hdistinct'
        rw [← List.pairwise_map (R := fun a b => a ≠ b), hkeys, List.pairwise_map]
        exact hnodup

/-- An operation is applied to the views along its path and to all views below. -/
theorem exists_applied (operationPath : List FKey) (tree : FImmutableTree (FViewCache V))
    (operation : FOperation V) (path : List FKey) (serverCache : Option (FNode V))
    (hop : operation.path = operationPath) (hdistinct : tree.Distinct)
    (hs : Succeeds writes operation path tree) :
  ∃ tree' events, applyOperationHelper writes operationPath tree operation path serverCache
      = some (tree', events)
    ∧ Applied writes operation path tree tree' events
  := by
  induction operationPath generalizing tree operation path serverCache with
  | nil => apply exists_applied_descendants tree operation path serverCache hop hdistinct hs
  | cons k q ih =>
    obtain ⟨syncPoint, kids⟩ := tree
    obtain ⟨syncPoint', own, hown, houtcome, hownpath⟩ :=
      exists_applyOperation hs.root (resolveServerCache serverCache syncPoint)
    have hkids : (node none kids).Distinct := by
      cases hdistinct with
      | node hnodup hdistinct => exact .node hnodup hdistinct
    -- the children when nothing below them is reached
    have hsilent : (∀ p, Outcome writes (path ++ k :: p) (operationFor (k :: p) operation)
          ((node none kids).valueAtPath (k :: p)) ((node none kids).valueAtPath (k :: p)) []) →
        Applied writes operation path (node syncPoint kids) (node syncPoint' kids) ([] ++ own) := by
      intro hk
      apply applied_node houtcome hownpath _ (by simp) hkids
      intro j p
      rcases eq_or_ne j k with rfl | hne
      · apply hk
      · rw [operationFor_of_ne hop hne]
        apply outcome_none
    rw [applyOperationHelper]
    cases hget : (node syncPoint kids).get k with
    | none =>
      refine ⟨node syncPoint' kids, [] ++ own, ?_, ?_⟩
      · simp only [hown, Option.bind_eq_bind, Option.bind_some]
      · apply hsilent
        intro p
        have hvalue : (node none kids).valueAtPath (k :: p) = none := by
          rw [valueAtPath_value none syncPoint, valueAtPath, hget]
        rw [hvalue]
        exact ⟨rfl, rfl⟩
    | some t =>
      cases hchild : operation.operationForChild k with
      | none =>
        refine ⟨node syncPoint' kids, [] ++ own, ?_, ?_⟩
        · simp only [hown, Option.bind_eq_bind, Option.bind_some]
        · apply hsilent
          intro p
          rw [operationFor_of_eq hop, hchild]
          apply outcome_none
      | some childOperation =>
        have hpath := path_operationForChild hchild
        rw [hop, List.tail_cons] at hpath
        have hsub : Succeeds writes childOperation (path ++ [k]) t := by
          intro p view operation' hview hoperation srv
          rw [append_key]
          apply hs (k :: p) view operation'
          · rw [valueAtPath, hget]
            exact hview
          · rw [operationFor_of_eq hop, hchild]
            exact hoperation
        obtain ⟨t', events, hrun, happlied⟩ := ih t childOperation (path ++ [k])
          ((resolveServerCache serverCache syncPoint).map fun node => node.getImmediateChild k)
          hpath (hdistinct.get hget) hsub
        refine ⟨node syncPoint' (replaceChild kids k t'), events ++ own, ?_, ?_⟩
        · simp only [hrun, hown, Option.map_some, Option.bind_eq_bind, Option.bind_some]
        · apply applied_node houtcome hownpath
          · intro j p
            rcases eq_or_ne j k with rfl | hne
            · have hp := happlied.outcome p
              rw [append_key] at hp
              rw [operationFor_of_eq hop, hchild, valueAtPath_value none syncPoint,
                valueAtPath, hget, valueAtPath_value none syncPoint,
                valueAtPath_replaceChild_self hget]
              exact hp
            · rw [operationFor_of_ne hop hne, valueAtPath_replaceChild_of_ne hne,
                Raised.at_eq_nil happlied.below (not_below hne p)]
              apply outcome_none
          · intro e he
            exact ⟨k, happlied.below e he⟩
          · apply hkids.replaceChild happlied.distinct

end FSyncTree

end ForDream

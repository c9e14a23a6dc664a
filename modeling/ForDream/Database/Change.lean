import ForDream.Database.Node

/-!
# Changes of children

When the data a view shows is updated, the filter of the view tracks what happens to each
child: it is added, removed or changed.  An accumulator keeps one change a key and merges
what happens to one child several times; it raises an exception on changes that cannot
follow each other.

`Tracks` says that an accumulator describes the way from one state of the children to
another.  Both updates of the filter, of one child and of the whole node, extend what an
accumulator tracks, so it never raises one.
-/

namespace ForDream

/-- A change of the data of a view: of a child, or of the whole value. -/
inductive FChange (V : Type*) where
  | childAdded (childKey : FKey) (node : FNode V)
  | childRemoved (childKey : FKey) (node : FNode V)
  | childChanged (childKey : FKey) (node oldNode : FNode V)
  | value (node : FNode V)

namespace FChange

variable {V : Type*}

/-- The key of the child that changes. -/
def childKey : FChange V → Option FKey
  | .childAdded childKey _ => some childKey
  | .childRemoved childKey _ => some childKey
  | .childChanged childKey _ _ => some childKey
  | .value _ => none

/-- What is known under a key describes the way from one child to another. -/
def Describes (childKey : FKey) : Option (FChange V) → FNode V → FNode V → Prop
  | none, old, new => old = new
  | some (.childAdded key node), old, new =>
      key = childKey ∧ old.isEmpty = true ∧ new.isEmpty = false ∧ node = new
  | some (.childRemoved key node), old, new =>
      key = childKey ∧ old.isEmpty = false ∧ new.isEmpty = true ∧ node = old
  | some (.childChanged key node oldNode), old, new =>
      key = childKey ∧ old.isEmpty = false ∧ new.isEmpty = false ∧ node = new ∧ oldNode = old
  | some (.value _), _, _ => False

end FChange

/-- The changes tracked so far, as the entries of a dictionary under the keys of the
children. -/
structure FChildChangeAccumulator (V : Type*) where
  changeMap : List (FKey × FChange V)

namespace FChildChangeAccumulator

variable {V : Type*}

/-- No changes. -/
def init : FChildChangeAccumulator V where
  changeMap := []

/-- The change under a key. -/
def change (accumulator : FChildChangeAccumulator V) (childKey : FKey) : Option (FChange V) :=
  Assoc.lookup FKey.stringComparator accumulator.changeMap childKey

/-- The accumulator with another change under a key. -/
def setChange (accumulator : FChildChangeAccumulator V) (childKey : FKey) (change : FChange V) :
    FChildChangeAccumulator V where
  changeMap := Assoc.insert FKey.stringComparator childKey change accumulator.changeMap

/-- The accumulator without a change under a key. -/
def removeChange (accumulator : FChildChangeAccumulator V) (childKey : FKey) :
    FChildChangeAccumulator V where
  changeMap := Assoc.erase FKey.stringComparator childKey accumulator.changeMap

/-- The accumulator with a change of a child, merged with what is known of the child.
Nothing if the two cannot follow each other. -/
def trackChildChange (accumulator : FChildChangeAccumulator V) (newChange : FChange V) :
    Option (FChildChangeAccumulator V) :=
  newChange.childKey.bind fun childKey =>
    match accumulator.change childKey with
    | none => some (accumulator.setChange childKey newChange)
    | some oldChange =>
        match newChange, oldChange with
        | .childAdded _ node, .childRemoved _ oldNode =>
            some (accumulator.setChange childKey (.childChanged childKey node oldNode))
        | .childRemoved _ _, .childAdded _ _ => some (accumulator.removeChange childKey)
        | .childRemoved _ _, .childChanged _ _ oldNode =>
            some (accumulator.setChange childKey (.childRemoved childKey oldNode))
        | .childChanged _ node _, .childAdded _ _ =>
            some (accumulator.setChange childKey (.childAdded childKey node))
        | .childChanged _ node _, .childChanged _ _ oldNode =>
            some (accumulator.setChange childKey (.childChanged childKey node oldNode))
        | _, _ => none

/-- The changes, in no particular order. -/
def changes (accumulator : FChildChangeAccumulator V) : List (FChange V) :=
  accumulator.changeMap.map Prod.snd

end FChildChangeAccumulator

namespace FNode

variable {V : Type*}

/-- Whether a node has a child under a key. -/
def hasChild (node : FNode V) (childName : FKey) : Bool :=
  !(node.getImmediateChild childName).isEmpty

/-- The children of a node, in order. -/
def enumerateChildren : FNode V → List (FKey × FNode V)
  | .leaf _ _ => []
  | .children kids _ => kids

/-- The child under a key among the children, of which the priority is none. -/
def child (node : FNode V) (k : FKey) : FNode V :=
  Assoc.lookupD FKey.keyComparator node.enumerateChildren k emptyNode

variable {n m c : FNode V} {k : FKey}

theorem child_eq (n : FNode V) (hk : k ≠ FKey.priority) :
  n.child k = n.getImmediateChild k
  := by
  cases n with
  | leaf =>
    rw [getImmediateChild_leaf hk]
    rfl
  | children =>
    rw [getImmediateChild_children hk]
    rfl

theorem Wf.child_priority (h : n.Wf) :
  n.child FKey.priority = emptyNode
  := by
  cases h with
  | leaf => rfl
  | children _ hname _ _ _ =>
    rw [FNode.child, Assoc.lookupD, Assoc.lookup_eq_none_iff.mpr]
    · rfl
    · intro e he heq
      apply hname e he (FKey.eq_of_keyComparator heq).symm

theorem Wf.child (h : n.Wf) (k : FKey) :
  (n.child k).Wf
  := by
  cases h with
  | leaf => exact wf_emptyNode
  | children _ _ _ hwf _ => apply Assoc.lookupD_mem hwf wf_emptyNode

theorem child_updateImmediateChild (hn : n.Wf) (hc : c.Wf) (hk : k ≠ FKey.priority) :
  (n.updateImmediateChild k c).child = Function.update n.child k c
  := by
  funext j
  rcases eq_or_ne j k with rfl | hne
  · rw [child_eq _ hk, getImmediateChild_update_self hn hc hk, Function.update_self]
  · rw [Function.update_of_ne hne]
    by_cases hj : j = FKey.priority
    · rw [hj, hn.child_priority, (hn.updateImmediateChild k hc).child_priority]
    · rw [child_eq _ hj, child_eq _ hj, getImmediateChild_update_of_ne hn hk hj hne]

/-- The entries of a node are its children. -/
theorem Wf.child_of_mem (h : n.Wf) {e : FKey × FNode V} (he : e ∈ n.enumerateChildren) :
  n.child e.1 = e.2 ∧ e.2.isEmpty = false ∧ e.1 ≠ FKey.priority ∧ e.2.Wf
  := by
  cases h with
  | leaf => cases he
  | children hasc hname hempty hwf _ =>
    have hlookup := (hasc.mem_iff_lookup FKey.eq_of_keyComparator).mp he
    refine ⟨?_, hempty e he, hname e he, hwf e he⟩
    rw [FNode.child, FNode.enumerateChildren, Assoc.lookupD, hlookup, Option.getD_some]

theorem child_of_notMem (hk : k ∉ n.enumerateChildren.map Prod.fst) :
  n.child k = emptyNode
  := by
  rw [child, Assoc.lookupD, Assoc.lookup_eq_none_iff.mpr]
  · rfl
  · intro e he heq
    rw [FKey.eq_of_keyComparator heq] at hk
    exact hk (List.mem_map.mpr ⟨e, he, rfl⟩)

theorem Wf.enumerateChildren_nodup (h : n.Wf) :
  n.enumerateChildren.Pairwise fun d e => d.1 ≠ e.1
  := by
  cases h with
  | leaf => exact .nil
  | children hasc _ _ _ _ => exact hasc.keys_ne

/-- Nodes that are not leaves are told apart by their children and priorities. -/
theorem Wf.ext (hn : n.Wf) (hm : m.Wf) (hnleaf : n.isLeafNode = false)
    (hmleaf : m.isLeafNode = false) (hchild : n.child = m.child)
    (hpriority : n.getPriority = m.getPriority) :
  n = m
  := by
  cases hn with
  | leaf => cases hnleaf
  | @children kids p hasc _ hempty _ _ =>
    cases hm with
    | leaf => cases hmleaf
    | @children kids' p' hasc' _ hempty' _ _ =>
      have hkids : kids = kids' := by
        apply hasc.ext_lookupD FKey.eq_of_keyComparator hasc' isEmpty_emptyNode hempty hempty'
        intro k
        exact congrFun hchild k
      have hp : p = p' := by
        cases p with
        | none =>
          cases p' with
          | none => rfl
          | some => cases hpriority
        | some v =>
          cases p' with
          | none => cases hpriority
          | some v' => rw [(FNode.leaf.inj hpriority).1]
      rw [hkids, hp]

end FNode

/-! ## The filter of a view of all data -/

namespace FIndexedFilter

variable {V : Type*}

/-- The filter lets all nodes pass. -/
def filtersNodes : Bool := false

/-- The node with another priority; an empty one stays as it is. -/
def updatePriority (priority oldSnap : FNode V) : FNode V :=
  if oldSnap.isEmpty then oldSnap else oldSnap.updatePriority priority

/-- The first loop of an update of the whole node: children that are gone. -/
def trackRemoved (newSnap : FNode V) (accumulator : FChildChangeAccumulator V)
    (child : FKey × FNode V) : Option (FChildChangeAccumulator V) :=
  if newSnap.hasChild child.1 then some accumulator
  else accumulator.trackChildChange (.childRemoved child.1 child.2)

/-- The change of a child that is tracked. -/
def trackChild (node : FNode V) (childKey : FKey) (newChildSnap : FNode V)
    (accumulator : FChildChangeAccumulator V) : Option (FChildChangeAccumulator V) :=
  let oldChildSnap := node.getImmediateChild childKey
  if newChildSnap.isEmpty then
    if node.hasChild childKey then
      accumulator.trackChildChange (.childRemoved childKey oldChildSnap)
    else some accumulator
  else if oldChildSnap.isEmpty then
    accumulator.trackChildChange (.childAdded childKey newChildSnap)
  else accumulator.trackChildChange (.childChanged childKey newChildSnap oldChildSnap)

variable [DecidableEq V]

/-- The second loop: children that are new or not what they were. -/
def trackPresent (oldSnap : FNode V) (accumulator : FChildChangeAccumulator V)
    (child : FKey × FNode V) : Option (FChildChangeAccumulator V) :=
  if oldSnap.hasChild child.1 then
    let oldChildSnap := oldSnap.getImmediateChild child.1
    if oldChildSnap.isEqual child.2 then some accumulator
    else accumulator.trackChildChange (.childChanged child.1 child.2 oldChildSnap)
  else accumulator.trackChildChange (.childAdded child.1 child.2)

/-- Another node in the place of the old one, and the tracked changes with those of its
children. -/
def updateFullNode (oldSnap newSnap : FNode V)
    (optChangeAccumulator : Option (FChildChangeAccumulator V)) :
    Option (FNode V × Option (FChildChangeAccumulator V)) :=
  match optChangeAccumulator with
  | none => some (newSnap, none)
  | some accumulator => do
      let accumulator ← oldSnap.enumerateChildren.foldlM (trackRemoved newSnap) accumulator
      let accumulator ← newSnap.enumerateChildren.foldlM (trackPresent oldSnap) accumulator
      some (newSnap, some accumulator)

/-- The node with another child, which differs from the old one at a path at most, and
the tracked changes with that of the child. -/
def updateChildIn (node : FNode V) (childKey : FKey) (newChildSnap : FNode V)
    (affectedPath : List FKey) (optChangeAccumulator : Option (FChildChangeAccumulator V)) :
    Option (FNode V × Option (FChildChangeAccumulator V)) :=
  let oldChildSnap := node.getImmediateChild childKey
  if (oldChildSnap.getChild affectedPath).isEqual (newChildSnap.getChild affectedPath)
      ∧ oldChildSnap.isEmpty = newChildSnap.isEmpty then
    some (node, optChangeAccumulator)
  else
    let newNode :=
      if node.isLeafNode ∧ newChildSnap.isEmpty then node
      else node.updateImmediateChild childKey newChildSnap
    match optChangeAccumulator with
    | none => some (newNode, none)
    | some accumulator =>
        (trackChild node childKey newChildSnap accumulator).map fun accumulator =>
          (newNode, some accumulator)

end FIndexedFilter

/-! ## What an accumulator tracks -/

namespace FChildChangeAccumulator

variable {V : Type*} {accumulator : FChildChangeAccumulator V} {f g : FKey → FNode V}
  {a b c : FNode V} {k : FKey}

open FChange

/-- The accumulator describes the way from one state of the children to another. -/
structure Tracks (accumulator : FChildChangeAccumulator V) (f g : FKey → FNode V) : Prop where
  ascending : Assoc.Ascending FKey.stringComparator accumulator.changeMap
  describes : ∀ k, Describes k (accumulator.change k) (f k) (g k)

theorem tracks_init (f : FKey → FNode V) :
  Tracks init f f
  := ⟨.nil, fun _ => rfl⟩

theorem Tracks.setChange (h : Tracks accumulator f g) {change : FChange V}
    (hchange : Describes k (some change) (f k) c) :
  Tracks (accumulator.setChange k change) f (Function.update g k c)
  := by
  refine ⟨Assoc.ascending_insert h.ascending k change, ?_⟩
  intro j
  rw [FChildChangeAccumulator.change, FChildChangeAccumulator.setChange]
  rcases eq_or_ne j k with rfl | hne
  · rw [Assoc.lookup_insert_self h.ascending, Function.update_self]
    exact hchange
  · rw [Assoc.lookup_insert_of_ne FKey.eq_of_stringComparator h.ascending hne,
      Function.update_of_ne hne]
    apply h.describes

theorem Tracks.removeChange (h : Tracks accumulator f g) (hsame : f k = c) :
  Tracks (accumulator.removeChange k) f (Function.update g k c)
  := by
  refine ⟨h.ascending.erase, ?_⟩
  intro j
  rw [FChildChangeAccumulator.change, FChildChangeAccumulator.removeChange]
  rcases eq_or_ne j k with rfl | hne
  · rw [Assoc.lookup_erase_self h.ascending, Function.update_self]
    exact hsame
  · rw [Assoc.lookup_erase_of_ne FKey.eq_of_stringComparator h.ascending hne,
      Function.update_of_ne hne]
    apply h.describes

/-- A change that follows what is tracked is tracked, and raises no exception. -/
theorem Tracks.trackChildChange (h : Tracks accumulator f g) (hf : (f k).Wf) (hc : c.Wf)
    {change : FChange V} (hchange : Describes k (some change) (g k) c) :
  ∃ accumulator', accumulator.trackChildChange change = some accumulator'
    ∧ Tracks accumulator' f (Function.update g k c)
  := by
  have hold := h.describes k
  rw [FChildChangeAccumulator.trackChildChange]
  cases change with
  | value => exact hchange.elim
  | childAdded key node =>
    obtain ⟨rfl, hg, hne, rfl⟩ := hchange
    rw [childKey, Option.bind_some]
    generalize hk : accumulator.change key = old at hold
    rcases old with _ | ⟨key', node'⟩ | ⟨key', node'⟩ | ⟨key', node', old'⟩ | _
    · rw [← (show f key = g key from hold)] at hg
      exact ⟨_, rfl, h.setChange ⟨rfl, hg, hne, rfl⟩⟩
    · obtain ⟨-, -, hg', -⟩ := hold
      rw [hg] at hg'
      cases hg'
    · obtain ⟨-, hf', -, rfl⟩ := hold
      exact ⟨_, rfl, h.setChange ⟨rfl, hf', hne, rfl, rfl⟩⟩
    · obtain ⟨-, -, hg', -⟩ := hold
      rw [hg] at hg'
      cases hg'
    · exact hold.elim
  | childRemoved key node =>
    obtain ⟨rfl, hg, hempty, rfl⟩ := hchange
    rw [childKey, Option.bind_some]
    generalize hk : accumulator.change key = old at hold
    rcases old with _ | ⟨key', node'⟩ | ⟨key', node'⟩ | ⟨key', node', old'⟩ | _
    · have hsame : f key = g key := hold
      rw [← hsame] at hg
      exact ⟨_, rfl, h.setChange ⟨rfl, hg, hempty, hsame.symm⟩⟩
    · obtain ⟨-, hf', -, -⟩ := hold
      refine ⟨_, rfl, h.removeChange ?_⟩
      rw [hf.eq_emptyNode hf', hc.eq_emptyNode hempty]
    · obtain ⟨-, -, hg', -⟩ := hold
      rw [hg] at hg'
      cases hg'
    · obtain ⟨-, hf', -, -, rfl⟩ := hold
      exact ⟨_, rfl, h.setChange ⟨rfl, hf', hempty, rfl⟩⟩
    · exact hold.elim
  | childChanged key node oldNode =>
    obtain ⟨rfl, hg, hne, rfl, rfl⟩ := hchange
    rw [childKey, Option.bind_some]
    generalize hk : accumulator.change key = old at hold
    rcases old with _ | ⟨key', node'⟩ | ⟨key', node'⟩ | ⟨key', node', old'⟩ | _
    · have hsame : f key = g key := hold
      rw [← hsame] at hg
      exact ⟨_, rfl, h.setChange ⟨rfl, hg, hne, rfl, hsame.symm⟩⟩
    · obtain ⟨-, hf', -, -⟩ := hold
      exact ⟨_, rfl, h.setChange ⟨rfl, hf', hne, rfl⟩⟩
    · obtain ⟨-, -, hg', -⟩ := hold
      rw [hg] at hg'
      cases hg'
    · obtain ⟨-, hf', -, -, rfl⟩ := hold
      exact ⟨_, rfl, h.setChange ⟨rfl, hf', hne, rfl, rfl⟩⟩
    · exact hold.elim

/-- A loop over children with different keys that takes each from one state to another. -/
theorem Tracks.foldlM {step : FChildChangeAccumulator V → FKey × FNode V →
      Option (FChildChangeAccumulator V)} {l : List (FKey × FNode V)} (g' : FKey → FNode V)
    (hnodup : l.Pairwise fun d e => d.1 ≠ e.1)
    (hstep : ∀ e ∈ l, ∀ accumulator h, Tracks accumulator f h → h e.1 = g e.1 →
      ∃ accumulator', step accumulator e = some accumulator'
        ∧ Tracks accumulator' f (Function.update h e.1 (g' e.1)))
    (h : Tracks accumulator f g) :
  ∃ accumulator', l.foldlM step accumulator = some accumulator'
    ∧ Tracks accumulator' f fun k => if k ∈ l.map Prod.fst then g' k else g k
  := by
  induction l generalizing accumulator g with
  | nil => exact ⟨accumulator, rfl, by simpa using h⟩
  | cons e l ih =>
    rw [List.pairwise_cons] at hnodup
    rw [List.forall_mem_cons] at hstep
    obtain ⟨accumulator₁, hfirst, h₁⟩ := hstep.1 accumulator g h rfl
    have hrest : ∀ d ∈ l, ∀ accumulator h, Tracks accumulator f h →
        h d.1 = Function.update g e.1 (g' e.1) d.1 →
        ∃ accumulator', step accumulator d = some accumulator'
          ∧ Tracks accumulator' f (Function.update h d.1 (g' d.1)) := by
      intro d hd accumulator h ht hsame
      rw [Function.update_of_ne (hnodup.1 d hd).symm] at hsame
      apply hstep.2 d hd accumulator h ht hsame
    obtain ⟨accumulator₂, hfold, h₂⟩ := ih hnodup.2 hrest h₁
    refine ⟨accumulator₂, ?_, ?_⟩
    · rw [List.foldlM_cons, hfirst]
      exact hfold
    · have hstate : (fun k => if k ∈ l.map Prod.fst then g' k
            else Function.update g e.1 (g' e.1) k)
          = fun k => if k ∈ (e :: l).map Prod.fst then g' k else g k := by
        funext k
        rcases eq_or_ne k e.1 with rfl | hne
        · simp
        · have hmem : k ∈ (e :: l).map Prod.fst ↔ k ∈ l.map Prod.fst := by simp [hne]
          simp only [hmem, Function.update_of_ne hne]
      rw [hstate] at h₂
      exact h₂

end FChildChangeAccumulator

namespace FIndexedFilter

open FChange FChildChangeAccumulator

variable {V : Type*} [DecidableEq V] {accumulator : FChildChangeAccumulator V}
  {f : FKey → FNode V} {n m c : FNode V} {k : FKey} {p : List FKey}

omit [DecidableEq V] in
theorem hasChild_iff (n : FNode V) (hk : k ≠ FKey.priority) :
  n.hasChild k = true ↔ (n.child k).isEmpty = false
  := by
  rw [FNode.hasChild, FNode.child_eq n hk, Bool.not_eq_true']

omit [DecidableEq V] in
/-- The change of a child is tracked. -/
theorem tracks_trackChild (h : Tracks accumulator f n.child) (hf : (f k).Wf) (hn : n.Wf)
    (hc : c.Wf) (hk : k ≠ FKey.priority) :
  ∃ accumulator', trackChild n k c accumulator = some accumulator'
    ∧ Tracks accumulator' f (n.updateImmediateChild k c).child
  := by
  rw [FNode.child_updateImmediateChild hn hc hk, trackChild, ← FNode.child_eq n hk]
  split
  case isTrue hempty =>
    split
    case isTrue hold =>
      rw [hasChild_iff n hk] at hold
      have hchange : Describes k (some (.childRemoved k (n.child k))) (n.child k) c :=
        ⟨rfl, hold, hempty, rfl⟩
      apply h.trackChildChange hf hc hchange
    case isFalse hold =>
      rw [hasChild_iff n hk, Bool.not_eq_false] at hold
      have hsame : n.child k = c := by
        rw [(hn.child k).eq_emptyNode hold, hc.eq_emptyNode hempty]
      refine ⟨accumulator, rfl, ?_⟩
      rw [← hsame, Function.update_eq_self]
      exact h
  case isFalse hne =>
    rw [Bool.not_eq_true] at hne
    split
    case isTrue hold =>
      have hchange : Describes k (some (.childAdded k c)) (n.child k) c := ⟨rfl, hold, hne, rfl⟩
      apply h.trackChildChange hf hc hchange
    case isFalse hold =>
      rw [Bool.not_eq_true] at hold
      have hchange : Describes k (some (.childChanged k c (n.child k))) (n.child k) c :=
        ⟨rfl, hold, hne, rfl, rfl⟩
      apply h.trackChildChange hf hc hchange

theorem updateChildIn_of_eq (hn : n.Wf) (hk : k ≠ FKey.priority) (heq : n.child k = c)
    (optChangeAccumulator : Option (FChildChangeAccumulator V)) :
  updateChildIn n k c p optChangeAccumulator = some (n, optChangeAccumulator)
  := by
  have hwf := (hn.child k).getChild p
  rw [updateChildIn, ← FNode.child_eq n hk, ← heq]
  dsimp only
  rw [if_pos ⟨(hwf.isEqual_iff_eq hwf).mpr rfl, rfl⟩]

/-- A child that differs from the old one, and then at the path, is put in its place. -/
theorem updateChildIn_of_ne (hn : n.Wf) (hc : c.Wf) (hk : k ≠ FKey.priority)
    (hpath : (n.child k).getChild p = c.getChild p → (n.child k).isEmpty = c.isEmpty →
      n.child k = c) (hne : n.child k ≠ c)
    (optChangeAccumulator : Option (FChildChangeAccumulator V)) :
  updateChildIn n k c p optChangeAccumulator
    = match optChangeAccumulator with
      | none => some (n.updateImmediateChild k c, none)
      | some accumulator => (trackChild n k c accumulator).map fun accumulator =>
          (n.updateImmediateChild k c, some accumulator)
  := by
  have hnode : (if n.isLeafNode = true ∧ c.isEmpty = true then n
      else n.updateImmediateChild k c) = n.updateImmediateChild k c := by
    split
    case isTrue h =>
      cases n with
      | leaf => rw [FNode.updateImmediateChild_leaf_of_isEmpty hk h.2]
      | children => cases h.1
    case isFalse => rfl
  rw [updateChildIn, ← FNode.child_eq n hk]
  dsimp only
  rw [if_neg, hnode]
  rintro ⟨hequal, hempty⟩
  rw [((hn.child k).getChild p).isEqual_iff_eq (hc.getChild p)] at hequal
  exact hne (hpath hequal hempty)

/-- Without an accumulator the update of a child is just that. -/
theorem updateChildIn_none (hn : n.Wf) (hc : c.Wf) (hk : k ≠ FKey.priority)
    (hpath : (n.child k).getChild p = c.getChild p → (n.child k).isEmpty = c.isEmpty →
      n.child k = c) :
  updateChildIn n k c p none = some (n.updateImmediateChild k c, none)
  := by
  by_cases heq : n.child k = c
  · rw [updateChildIn_of_eq hn hk heq, ← heq, FNode.child_eq n hk,
      FNode.updateImmediateChild_getImmediateChild hn hk]
  · rw [updateChildIn_of_ne hn hc hk hpath heq]

/-- The update of a child raises no exception, and what it does to the child is tracked. -/
theorem tracks_updateChildIn (h : Tracks accumulator f n.child) (hf : (f k).Wf) (hn : n.Wf)
    (hc : c.Wf) (hk : k ≠ FKey.priority)
    (hpath : (n.child k).getChild p = c.getChild p → (n.child k).isEmpty = c.isEmpty →
      n.child k = c) :
  ∃ accumulator', updateChildIn n k c p (some accumulator)
      = some (n.updateImmediateChild k c, some accumulator')
    ∧ Tracks accumulator' f (n.updateImmediateChild k c).child
    ∧ (n.updateImmediateChild k c = n → accumulator' = accumulator)
  := by
  by_cases heq : n.child k = c
  · have hself : n.updateImmediateChild k c = n := by
      rw [← heq, FNode.child_eq n hk, FNode.updateImmediateChild_getImmediateChild hn hk]
    refine ⟨accumulator, ?_, ?_, fun _ => rfl⟩
    · rw [updateChildIn_of_eq hn hk heq, hself]
    · rw [hself]
      exact h
  · obtain ⟨accumulator', htrack, h'⟩ := tracks_trackChild h hf hn hc hk
    refine ⟨accumulator', ?_, h', ?_⟩
    · rw [updateChildIn_of_ne hn hc hk hpath heq]
      dsimp only
      rw [htrack, Option.map_some]
    · intro hself
      have hchild := congrFun (FNode.child_updateImmediateChild hn hc hk) k
      rw [hself, Function.update_self] at hchild
      contradiction

omit [DecidableEq V] in
/-- The first loop leaves a child that is still there, and removes any other one. -/
theorem tracks_trackRemoved {g : FKey → FNode V} (h : Tracks accumulator f g)
    (hf : ∀ k, (f k).Wf) (hn : n.Wf) (hm : m.Wf) {e : FKey × FNode V}
    (he : e ∈ n.enumerateChildren) (hg : g e.1 = n.child e.1) :
  ∃ accumulator', trackRemoved m accumulator e = some accumulator'
    ∧ Tracks accumulator' f
        (Function.update g e.1 (if m.hasChild e.1 then n.child e.1 else m.child e.1))
  := by
  obtain ⟨hchild, hne, hk, hwf⟩ := hn.child_of_mem he
  rw [trackRemoved]
  split
  case isTrue =>
    refine ⟨accumulator, rfl, ?_⟩
    rw [← hg, Function.update_eq_self]
    exact h
  case isFalse hgone =>
    rw [hasChild_iff m hk, Bool.not_eq_false] at hgone
    have hchange : Describes e.1 (some (.childRemoved e.1 e.2)) (g e.1) (m.child e.1) := by
      rw [hg, hchild]
      exact ⟨rfl, hne, hgone, rfl⟩
    apply h.trackChildChange (hf e.1) (hm.child e.1) hchange

/-- The second loop adds a child that was not there, and changes any other one. -/
theorem tracks_trackPresent {g : FKey → FNode V} (h : Tracks accumulator f g)
    (hf : ∀ k, (f k).Wf) (hn : n.Wf) (hm : m.Wf) {e : FKey × FNode V}
    (he : e ∈ m.enumerateChildren) (hg : g e.1 = n.child e.1) :
  ∃ accumulator', trackPresent n accumulator e = some accumulator'
    ∧ Tracks accumulator' f (Function.update g e.1 (m.child e.1))
  := by
  obtain ⟨hchild, hne, hk, hwf⟩ := hm.child_of_mem he
  rw [trackPresent, hchild]
  split
  case isTrue hold =>
    rw [hasChild_iff n hk] at hold
    dsimp only
    rw [← FNode.child_eq n hk]
    split
    case isTrue hequal =>
      rw [(hn.child e.1).isEqual_iff_eq hwf] at hequal
      refine ⟨accumulator, rfl, ?_⟩
      rw [← hequal, ← hg, Function.update_eq_self]
      exact h
    case isFalse =>
      have hchange : Describes e.1 (some (.childChanged e.1 e.2 (n.child e.1))) (g e.1) e.2 := by
        rw [hg]
        exact ⟨rfl, hold, hne, rfl, rfl⟩
      apply h.trackChildChange (hf e.1) hwf hchange
  case isFalse hold =>
    rw [hasChild_iff n hk, Bool.not_eq_false] at hold
    have hchange : Describes e.1 (some (.childAdded e.1 e.2)) (g e.1) e.2 := by
      rw [hg]
      exact ⟨rfl, hold, hne, rfl⟩
    apply h.trackChildChange (hf e.1) hwf hchange

omit [DecidableEq V] in
theorem hasChild_of_mem (hn : n.Wf) {e : FKey × FNode V} (he : e ∈ n.enumerateChildren) :
  n.hasChild e.1 = true
  := by
  obtain ⟨hchild, hne, hk, -⟩ := hn.child_of_mem he
  rw [hasChild_iff n hk, hchild, hne]

/-- Nothing is tracked when the node stays the same. -/
theorem updateFullNode_self (hn : n.Wf) (accumulator : FChildChangeAccumulator V) :
  updateFullNode n n (some accumulator) = some (n, some accumulator)
  := by
  have hfold : ∀ {step : FChildChangeAccumulator V → FKey × FNode V →
      Option (FChildChangeAccumulator V)} {l : List (FKey × FNode V)},
      (∀ e ∈ l, step accumulator e = some accumulator) →
      l.foldlM step accumulator = some accumulator := by
    intro step l hl
    induction l with
    | nil => rfl
    | cons e l ih =>
      rw [List.forall_mem_cons] at hl
      rw [List.foldlM_cons, hl.1]
      apply ih hl.2
  rw [updateFullNode, hfold, Option.bind_eq_bind, Option.bind_some, hfold]
  · rfl
  · intro e he
    obtain ⟨hchild, -, hk, hwf⟩ := hn.child_of_mem he
    rw [trackPresent, if_pos (hasChild_of_mem hn he), ← FNode.child_eq n hk, hchild,
      if_pos ((hwf.isEqual_iff_eq hwf).mpr rfl)]
  · intro e he
    rw [trackRemoved, if_pos (hasChild_of_mem hn he)]

/-- The update of the whole node raises no exception, and what it does to the children is
tracked. -/
theorem tracks_updateFullNode (h : Tracks accumulator f n.child) (hf : ∀ k, (f k).Wf)
    (hn : n.Wf) (hm : m.Wf) :
  ∃ accumulator', updateFullNode n m (some accumulator) = some (m, some accumulator')
    ∧ Tracks accumulator' f m.child ∧ (m = n → accumulator' = accumulator)
  := by
  obtain ⟨accumulator₁, hloop₁, h₁⟩ :=
    h.foldlM (fun k => if m.hasChild k then n.child k else m.child k)
      hn.enumerateChildren_nodup fun e he _ _ ht hg => tracks_trackRemoved ht hf hn hm he hg
  have hpresent : ∀ e ∈ m.enumerateChildren,
      (if e.1 ∈ n.enumerateChildren.map Prod.fst then
        if m.hasChild e.1 then n.child e.1 else m.child e.1 else n.child e.1) = n.child e.1 := by
    intro e he
    rw [if_pos (hasChild_of_mem hm he), ite_self]
  obtain ⟨accumulator₂, hloop₂, h₂⟩ := h₁.foldlM m.child hm.enumerateChildren_nodup
    fun e he _ _ ht hg => tracks_trackPresent ht hf hn hm he (hg.trans (hpresent e he))
  have hfull : updateFullNode n m (some accumulator) = some (m, some accumulator₂) := by
    rw [updateFullNode, hloop₁, Option.bind_eq_bind, Option.bind_some, hloop₂]
    rfl
  have hstate : (fun k => if k ∈ m.enumerateChildren.map Prod.fst then m.child k
      else if k ∈ n.enumerateChildren.map Prod.fst then
        if m.hasChild k then n.child k else m.child k else n.child k) = m.child := by
    funext k
    split
    case isTrue => rfl
    case isFalse hkm =>
      have hempty := FNode.child_of_notMem hkm
      split
      case isTrue hkn =>
        obtain ⟨e, he, rfl⟩ := List.mem_map.mp hkn
        have hk := (hn.child_of_mem he).2.2.1
        rw [if_neg]
        rw [hasChild_iff m hk, hempty]
        simp
      case isFalse hkn => rw [hempty, FNode.child_of_notMem hkn]
  rw [hstate] at h₂
  refine ⟨accumulator₂, hfull, h₂, ?_⟩
  rintro rfl
  rw [updateFullNode_self hn] at hfull
  obtain ⟨-, hsame⟩ := Prod.mk.inj (Option.some.inj hfull)
  exact (Option.some.inj hsame).symm

end FIndexedFilter

end ForDream

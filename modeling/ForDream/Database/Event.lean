import ForDream.Database.Change
import ForDream.Database.Dictionary

/-!
# Events of changes

A view turns the changes of an operation into events: removed children first, then the
added ones, the moved ones and the changed ones, each kind in the order of the index, and
the value at last.  An event names the child before the one it is about.

The index orders children by their priorities and then by their keys.  Without priorities
it is the order of the keys, no child moves, and the child before another one is the
greatest one before it.
-/

namespace ForDream

/-- The kinds of events. -/
inductive FIRDataEventType where
  | childAdded
  | childRemoved
  | childChanged
  | childMoved
  | value
deriving DecidableEq

/-- An event that is sent to a listener. -/
structure FDataEvent (V : Type*) where
  eventType : FIRDataEventType
  childKey : Option FKey
  snapshot : FNode V
  prevName : Option FKey

variable {V : Type*}

/-! ## The index -/

namespace FPriorityIndex

/-- Children are compared by their priorities, and then by their keys. -/
def compareNamedNode (V : Type*) [Ord V] [Std.TransOrd V] : Comparator (FKey × FNode V) where
  compare := compareLex
    (compareOn fun e : FKey × FNode V => e.2.getPriority.toPriority)
    (fun d e => FKey.keyComparator d.1 e.1)
  trans := by
    have : Std.TransCmp fun d e : FKey × FNode V => FKey.keyComparator d.1 e.1 :=
      (FKey.keyComparator.comap (Prod.fst : FKey × FNode V → FKey)).trans
    infer_instance

/-- Whether a node has a priority. -/
def isDefinedOn (node : FNode V) : Bool := !node.getPriority.isEmpty

variable [DecidableEq V]

/-- Whether a child has another priority. -/
def indexedValueChangedBetween (oldNode newNode : FNode V) : Bool :=
  !oldNode.getPriority.isEqual newNode.getPriority

end FPriorityIndex

namespace FNode

/-- The key before the key of a child; nothing where the source raises. -/
def predecessorChildKey : FNode V → FKey → Option (Option FKey)
  | .leaf _ _, _ => some none
  | .children kids _, childKey =>
      FArraySortedDictionary.getPredecessorKey FKey.keyComparator childKey kids

end FNode

section Order

variable [Ord V] [Std.TransOrd V]

/-- Children in the order of the index. -/
def FPriorityIndex.sort (children : List (FKey × FNode V)) : List (FKey × FNode V) :=
  children.mergeSort fun d e => (compareNamedNode V d e).isLE

/-- The key before a child in the order of the index, which is that of the keys if no child
has a priority; nothing where the source raises. -/
def FIndexedNode.predecessorForChildKey (node : FNode V) (child : FKey × FNode V) :
    Option (Option FKey) :=
  if node.enumerateChildren.any fun e => FPriorityIndex.isDefinedOn e.2 then
    (FArraySortedDictionary.getPredecessorKey (FPriorityIndex.compareNamedNode V) child
      ((FPriorityIndex.sort node.enumerateChildren).map fun e => (e, ()))).map
        fun previous => previous.map Prod.fst
  else node.predecessorChildKey child.1

/-! ## Events of changes -/

namespace FEventGenerator

/-- The event of a change of a child. -/
def generateEventForChange (eventType : FIRDataEventType) (eventCache : FNode V)
    (child : FKey × FNode V) : Option (FDataEvent V) :=
  if eventType = .childRemoved then some ⟨eventType, some child.1, child.2, none⟩
  else
    (FIndexedNode.predecessorForChildKey eventCache child).map fun prevKey =>
      ⟨eventType, some child.1, child.2, prevKey⟩

/-- The value a change is of. -/
def changedValue : FChange V → Option (FNode V)
  | .value node => some node
  | _ => none

/-- The events of the value.  Two of them cannot be sorted. -/
def generateValueEvents (responseTo : FIRDataEventType → Bool) (changes : List (FChange V)) :
    Option (List (FDataEvent V)) :=
  match changes.filterMap changedValue with
  | [] => some []
  | [node] => some (if responseTo .value then [⟨.value, none, node, none⟩] else [])
  | _ => none

variable [DecidableEq V]

/-- The child that a change is of, for a kind of events.  A changed child has moved if it
has another priority. -/
def changedChild : FIRDataEventType → FChange V → Option (FKey × FNode V)
  | .childAdded, .childAdded childKey node => some (childKey, node)
  | .childRemoved, .childRemoved childKey node => some (childKey, node)
  | .childChanged, .childChanged childKey node _ => some (childKey, node)
  | .childMoved, .childChanged childKey node oldNode =>
      if FPriorityIndex.indexedValueChangedBetween oldNode node then some (childKey, node)
      else none
  | _, _ => none

/-- The events of one kind, of a listener that responds to it. -/
def generateEvents (responseTo : FIRDataEventType → Bool) (changes : List (FChange V))
    (eventCache : FNode V) (eventType : FIRDataEventType) : Option (List (FDataEvent V)) :=
  if responseTo eventType then
    (FPriorityIndex.sort (changes.filterMap (changedChild eventType))).mapM
      (generateEventForChange eventType eventCache)
  else some []

/-- The events of changes that led to a node, in the order they are sent. -/
def generateEventsForChanges (responseTo : FIRDataEventType → Bool) (changes : List (FChange V))
    (eventCache : FNode V) : Option (List (FDataEvent V)) := do
  let removed ← generateEvents responseTo changes eventCache .childRemoved
  let added ← generateEvents responseTo changes eventCache .childAdded
  let moved ← generateEvents responseTo changes eventCache .childMoved
  let changed ← generateEvents responseTo changes eventCache .childChanged
  let value ← generateValueEvents responseTo changes
  some (removed ++ added ++ moved ++ changed ++ value)

end FEventGenerator

end Order

/-! ## Children without priorities -/

/-- No child of a node has a priority. -/
def FNode.Unranked (node : FNode V) : Prop :=
  ∀ e ∈ node.enumerateChildren, FPriorityIndex.isDefinedOn e.2 = false

namespace FNode

variable {n : FNode V}

theorem Wf.enumerateChildren_ascending (h : n.Wf) :
  Assoc.Ascending FKey.keyComparator n.enumerateChildren
  := by
  cases h with
  | leaf => exact .nil
  | children hasc _ _ _ _ => exact hasc

theorem Wf.lookup_enumerateChildren (h : n.Wf) (k : FKey) :
  Assoc.lookup FKey.keyComparator n.enumerateChildren k
    = if (n.child k).isEmpty then none else some (n.child k)
  := by
  rcases hk : Assoc.lookup FKey.keyComparator n.enumerateChildren k with _ | v
  · rw [FNode.child, Assoc.lookupD, hk, Option.getD_none, isEmpty_emptyNode, if_pos rfl]
  · have hmem := (Assoc.Ascending.mem_iff_lookup FKey.eq_of_keyComparator
      h.enumerateChildren_ascending).mpr hk
    obtain ⟨hchild, hempty, -, -⟩ := h.child_of_mem hmem
    rw [hchild, hempty, if_neg (by simp)]

theorem Unranked.child (h : n.Unranked) (k : FKey) :
  FPriorityIndex.isDefinedOn (n.child k) = false
  := Assoc.lookupD_mem (P := fun c => FPriorityIndex.isDefinedOn c = false) h rfl k

theorem getPriority_eq_emptyNode (h : FPriorityIndex.isDefinedOn n = false) :
  n.getPriority = emptyNode
  := by
  rw [FPriorityIndex.isDefinedOn, Bool.not_eq_false'] at h
  cases n with
  | leaf value priority =>
    cases priority with
    | none => rfl
    | some => cases h
  | children kids priority =>
    cases priority with
    | none => rfl
    | some => cases h

end FNode

section Unranked

variable [Ord V] [Std.TransOrd V] {n : FNode V} {d e : FKey × FNode V}

/-- Without priorities the index is that of the keys. -/
theorem FPriorityIndex.compareNamedNode_eq (hd : isDefinedOn d.2 = false)
    (he : isDefinedOn e.2 = false) :
  compareNamedNode V d e = FKey.keyComparator d.1 e.1
  := by
  have hcompare : compareNamedNode V d e
      = (compare d.2.getPriority.toPriority e.2.getPriority.toPriority).then
          (FKey.keyComparator d.1 e.1) := rfl
  rw [hcompare, FNode.getPriority_eq_emptyNode hd, FNode.getPriority_eq_emptyNode he]
  rfl

theorem FPriorityIndex.ascending_sort {es : List (FKey × FNode V)}
    (hes : es.Pairwise fun d e => d.1 ≠ e.1) (hunranked : ∀ e ∈ es, isDefinedOn e.2 = false) :
  Assoc.Ascending FKey.keyComparator (sort es)
  := by
  have hperm : (sort es).Perm es := List.mergeSort_perm _ _
  have hle : (sort es).Pairwise fun d e => (compareNamedNode V d e).isLE = true := by
    apply List.pairwise_mergeSort
    · intro a b c hab hbc
      have := (compareNamedNode V).trans
      exact Std.TransCmp.isLE_trans hab hbc
    · intro a b
      rw [Bool.or_eq_true]
      rcases hab : compareNamedNode V a b with _ | _ | _
      · exact .inl rfl
      · exact .inl rfl
      · right
        rw [Comparator.gt_iff.mp hab]
        rfl
  have hne : (sort es).Pairwise fun d e => d.1 ≠ e.1 :=
    (hperm.pairwise_iff fun h => h.symm).mpr hes
  apply (hle.and hne).imp_of_mem
  intro a b ha hb ⟨hab, hkeys⟩
  rw [compareNamedNode_eq (hunranked a (hperm.mem_iff.mp ha)) (hunranked b (hperm.mem_iff.mp hb))]
    at hab
  rcases hcmp : FKey.keyComparator a.1 b.1 with _ | _ | _
  · rfl
  · exact absurd (FKey.eq_of_keyComparator hcmp) hkeys
  · rw [hcmp] at hab
    cases hab

/-- The key before a child is the greatest one before its own. -/
theorem FIndexedNode.predecessorForChildKey_eq (hn : n.Wf) (hunranked : n.Unranked)
    (he : e ∈ n.enumerateChildren) :
  predecessorForChildKey n e
    = some (((Assoc.below FKey.keyComparator e.1 n.enumerateChildren).getLast?).map Prod.fst)
  := by
  have hany : ¬ n.enumerateChildren.any (fun e => FPriorityIndex.isDefinedOn e.2) = true := by
    rw [List.any_eq_true]
    rintro ⟨d, hd, hdefined⟩
    rw [hunranked d hd] at hdefined
    cases hdefined
  rw [predecessorForChildKey, if_neg hany]
  have hasc := hn.enumerateChildren_ascending
  cases n with
  | leaf => cases he
  | children kids priority =>
    have hlookup := (Assoc.Ascending.mem_iff_lookup FKey.eq_of_keyComparator hasc).mp he
    rw [FNode.enumerateChildren] at hasc hlookup ⊢
    rw [FNode.predecessorChildKey, FArraySortedDictionary.getPredecessorKey_eq e.1 hasc, hlookup]
    rfl

end Unranked

/-! ## The children that changes are of -/

namespace FEventGenerator

open FChildChangeAccumulator

variable {m m' : FNode V} {accumulator : FChildChangeAccumulator V} {change : FChange V}
  {e : FKey × FNode V} {k : FKey} {eventType : FIRDataEventType}

theorem childKey_of_describes {old new : FNode V} (h : FChange.Describes k (some change) old new) :
  change.childKey = some k
  := by
  cases change with
  | value => cases h
  | _ => exact congrArg some h.1

theorem mem_changes_iff (ht : Tracks accumulator m.child m'.child) :
  change ∈ accumulator.changes ↔ ∃ k, accumulator.change k = some change
  := by
  have hmem : ∀ k, (k, change) ∈ accumulator.changeMap ↔ accumulator.change k = some change :=
    fun k => Assoc.Ascending.mem_iff_lookup FKey.eq_of_stringComparator ht.ascending
  constructor
  · intro h
    obtain ⟨⟨k, c⟩, hc, rfl⟩ := List.mem_map.mp h
    use k
    apply (hmem k).mp hc
  · rintro ⟨k, h⟩
    exact List.mem_map.mpr ⟨(k, change), (hmem k).mpr h, rfl⟩

variable [DecidableEq V]

theorem childKey_of_changedChild (h : changedChild eventType change = some e) :
  change.childKey = some e.1
  := by
  cases change with
  | value => cases eventType <;> cases h
  | childAdded childKey node =>
    cases eventType <;> cases h
    rfl
  | childRemoved childKey node =>
    cases eventType <;> cases h
    rfl
  | childChanged childKey node oldNode =>
    cases eventType with
    | childMoved =>
      rw [changedChild] at h
      split at h
      · cases h
        rfl
      · cases h
    | childChanged =>
      cases h
      rfl
    | _ => cases h

variable (ht : Tracks accumulator m.child m'.child)

include ht

theorem mem_changedChildren_iff :
  e ∈ accumulator.changes.filterMap (changedChild eventType)
    ↔ ∃ change, accumulator.change e.1 = some change ∧ changedChild eventType change = some e
  := by
  rw [List.mem_filterMap]
  constructor
  · rintro ⟨change, hchange, he⟩
    obtain ⟨k, hk⟩ := (mem_changes_iff ht).mp hchange
    have hdescribes := ht.describes k
    rw [hk] at hdescribes
    have hkey := (childKey_of_changedChild he).symm.trans (childKey_of_describes hdescribes)
    rw [Option.some.inj hkey]
    exact ⟨change, hk, he⟩
  · rintro ⟨change, hchange, he⟩
    exact ⟨change, (mem_changes_iff ht).mpr ⟨e.1, hchange⟩, he⟩

theorem changedChildren_nodup :
  (accumulator.changes.filterMap (changedChild eventType)).Pairwise fun d e => d.1 ≠ e.1
  := by
  have hkeys : accumulator.changes.Pairwise fun c d => c.childKey ≠ d.childKey := by
    rw [FChildChangeAccumulator.changes, List.pairwise_map]
    apply ht.ascending.keys_ne.imp_of_mem
    intro c d hc hd hne heq
    have hkey : ∀ e ∈ accumulator.changeMap, e.2.childKey = some e.1 := by
      intro e he
      have hlookup := (Assoc.Ascending.mem_iff_lookup FKey.eq_of_stringComparator
        ht.ascending).mp he
      have hdescribes := ht.describes e.1
      rw [FChildChangeAccumulator.change, hlookup] at hdescribes
      apply childKey_of_describes hdescribes
    rw [hkey c hc, hkey d hd] at heq
    exact hne (Option.some.inj heq)
  rw [List.pairwise_filterMap]
  apply hkeys.imp
  intro c d hne a ha b hb heq
  rw [childKey_of_changedChild ha, childKey_of_changedChild hb, heq] at hne
  exact hne rfl

end FEventGenerator

end ForDream

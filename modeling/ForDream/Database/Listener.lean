import ForDream.Database.Client
import ForDream.Database.Event

/-!
# Listeners

A listener that keeps a list and does what the events of a view say, putting a child after
the one that is named, has the children of the view in their order, as long as no child has
a priority: each kind of events is sent in the order of the keys, so the child before a new
one is held when the new one is sent.
-/

namespace ForDream

variable {V : Type*}

/-! ## A listener -/

namespace FListener

/-- A child after the one under a key, or as the first one. -/
def insertAfter (child : FKey × FNode V) : Option FKey → List (FKey × FNode V) →
    List (FKey × FNode V)
  | none, held => child :: held
  | some _, [] => []
  | some prevName, e :: held =>
      if e.1 = prevName then e :: child :: held else e :: insertAfter child (some prevName) held

/-- The children a listener holds after an event. -/
def receive (held : List (FKey × FNode V)) (event : FDataEvent V) : List (FKey × FNode V) :=
  match event.eventType, event.childKey with
  | .childAdded, some childKey => insertAfter (childKey, event.snapshot) event.prevName held
  | .childRemoved, some childKey => held.filter fun e => e.1 ≠ childKey
  | .childMoved, some childKey =>
      insertAfter (childKey, event.snapshot) event.prevName (held.filter fun e => e.1 ≠ childKey)
  | .childChanged, some childKey =>
      held.map fun e => if e.1 = childKey then (childKey, event.snapshot) else e
  | _, _ => held

/-! ### What the listener does to an ascending list -/

open Assoc

variable {held : List (FKey × FNode V)} {k p : FKey}

theorem insertAfter_append {l r : List (FKey × FNode V)} (hl : ∀ e ∈ l, e.1 ≠ p)
    (child : FKey × FNode V) (v : FNode V) :
  insertAfter child (some p) (l ++ (p, v) :: r) = l ++ (p, v) :: child :: r
  := by
  induction l with
  | nil => rw [List.nil_append, List.nil_append, insertAfter, if_pos rfl]
  | cons e l ih =>
    rw [List.forall_mem_cons] at hl
    rw [List.cons_append, insertAfter, if_neg hl.1, ih hl.2, List.cons_append]

theorem filter_eq_erase (h : Ascending FKey.keyComparator held) (k : FKey) :
  held.filter (fun e => e.1 ≠ k) = erase FKey.keyComparator k held
  := by
  apply Ascending.ext FKey.eq_of_keyComparator (h.filter _) h.erase
  intro j
  rw [lookup_erase h]
  ext v
  rw [← Ascending.mem_iff_lookup FKey.eq_of_keyComparator (h.filter _), List.mem_filter]
  split
  case isTrue heq =>
    obtain rfl := FKey.eq_of_keyComparator heq
    simp
  case isFalse hne =>
    rw [← Ascending.mem_iff_lookup FKey.eq_of_keyComparator h]
    have : j ≠ k := by
      rintro rfl
      exact hne (Comparator.refl _ j)
    simp [this]

theorem map_eq_insert (h : Ascending FKey.keyComparator held)
    (hk : (lookup FKey.keyComparator held k).isSome = true) (node : FNode V) :
  held.map (fun e => if e.1 = k then (k, node) else e) = insert FKey.keyComparator k node held
  := by
  obtain ⟨v, hv⟩ := Option.isSome_iff_exists.mp hk
  rw [← Ascending.mem_iff_lookup FKey.eq_of_keyComparator h] at hv
  obtain ⟨l, r, rfl⟩ := List.append_of_mem hv
  obtain ⟨-, -, hl, hr⟩ := ascending_append.mp h
  have hkeep : ∀ s : List (FKey × FNode V), (∀ e ∈ s, e.1 ≠ k) →
      s.map (fun e => if e.1 = k then (k, node) else e) = s := by
    intro s hs
    nth_rewrite 2 [← List.map_id s]
    apply List.map_congr_left
    intro e he
    rw [if_neg (hs e he)]
    rfl
  have hne : ∀ e : FKey × FNode V, e ∈ l ∨ e ∈ r → e.1 ≠ k := by
    rintro ⟨j, w⟩ he rfl
    rcases he with he | he
    · have hlt := hl _ he
      rw [Comparator.refl] at hlt
      cases hlt
    · have hlt := hr _ he
      rw [Comparator.refl] at hlt
      cases hlt
  rw [Assoc.insert, below_of_eq h (Comparator.refl _ k), above_of_eq h (Comparator.refl _ k),
    List.map_append, List.map_cons, if_pos rfl, hkeep l fun e he => hne e (.inl he),
    hkeep r fun e he => hne e (.inr he)]

/-- The key before a key in a longer list is held, so that the new child finds its place. -/
theorem insertAfter_eq_insert {children : List (FKey × FNode V)}
    (h : Ascending FKey.keyComparator held) (hchildren : Ascending FKey.keyComparator children)
    (hk : lookup FKey.keyComparator held k = none)
    (hheld : ∀ e ∈ held, e.1 ∈ children.map Prod.fst)
    (hbelow : ∀ e ∈ below FKey.keyComparator k children, e.1 ∈ held.map Prod.fst)
    (node : FNode V) :
  insertAfter (k, node) (((below FKey.keyComparator k children).getLast?).map Prod.fst) held
    = Assoc.insert FKey.keyComparator k node held
  := by
  have hsplit := below_append_above h hk
  -- what is held before the key is before it among the children
  have hheldBelow : ∀ e ∈ below FKey.keyComparator k held,
      ∃ d ∈ below FKey.keyComparator k children, d.1 = e.1 := by
    intro e he
    obtain ⟨hmem, hlt⟩ := mem_below.mp he
    obtain ⟨d, hd, heq⟩ := List.mem_map.mp (hheld e hmem)
    refine ⟨d, mem_below.mpr ⟨hd, ?_⟩, heq⟩
    rw [heq]
    exact hlt
  rcases hlast : (below FKey.keyComparator k children).getLast? with _ | ⟨p, w⟩
  · rw [List.getLast?_eq_none_iff] at hlast
    have hnil : below FKey.keyComparator k held = [] := by
      rw [List.eq_nil_iff_forall_not_mem]
      intro e he
      obtain ⟨d, hd, -⟩ := hheldBelow e he
      rw [hlast] at hd
      cases hd
    rw [hnil, List.nil_append] at hsplit
    rw [Assoc.insert, hnil, hsplit, Option.map_none, insertAfter, List.nil_append]
  · obtain ⟨front, hfront⟩ := List.getLast?_eq_some_iff.mp hlast
    have hmem : (p, w) ∈ below FKey.keyComparator k children := by
      rw [hfront]
      simp
    have hmax : ∀ d ∈ below FKey.keyComparator k children, FKey.keyComparator p d.1 ≠ .lt := by
      intro d hd hlt
      have hasc : Ascending FKey.keyComparator (front ++ [(p, w)]) := by
        rw [← hfront]
        exact hchildren.filter _
      rw [hfront, List.mem_append, List.mem_singleton] at hd
      rcases hd with hd | rfl
      · have hgt := (ascending_append.mp hasc).2.2.1 d hd
        rw [Comparator.gt_iff.mpr hgt] at hlt
        cases hlt
      · rw [Comparator.refl] at hlt
        cases hlt
    obtain ⟨⟨q, v⟩, hv, rfl⟩ := List.mem_map.mp (hbelow (p, w) hmem)
    have hq : (q, v) ∈ below FKey.keyComparator k held :=
      mem_below.mpr ⟨hv, (mem_below.mp hmem).2⟩
    obtain ⟨l, r, hlr⟩ := List.append_of_mem hq
    have hasc : Ascending FKey.keyComparator (l ++ (q, v) :: r) := by
      rw [← hlr]
      exact h.filter _
    obtain ⟨-, -, hl, hr⟩ := ascending_append.mp hasc
    obtain rfl : r = [] := by
      rw [List.eq_nil_iff_forall_not_mem]
      intro e he
      obtain ⟨d, hd, heq⟩ := hheldBelow e (by rw [hlr]; simp [he])
      apply hmax d hd
      rw [heq]
      exact hr e he
    have hl' : ∀ e ∈ l, e.1 ≠ q := by
      rintro ⟨j, u⟩ he rfl
      have hlt := hl _ he
      rw [Comparator.refl] at hlt
      cases hlt
    rw [Assoc.insert, hlr]
    nth_rewrite 1 [← hsplit]
    rw [hlr, List.append_assoc, List.append_assoc, List.singleton_append, List.singleton_append,
      Option.map_some, insertAfter_append hl']

/-! ### All events of one kind -/

/-- Children with keys of their own that are put among the held ones. -/
def putAll (held es : List (FKey × FNode V)) : List (FKey × FNode V) :=
  es.foldl (fun held e => Assoc.insert FKey.keyComparator e.1 e.2 held) held

/-- Children whose keys are removed from the held ones. -/
def eraseAll (held es : List (FKey × FNode V)) : List (FKey × FNode V) :=
  es.foldl (fun held e => erase FKey.keyComparator e.1 held) held

variable {es : List (FKey × FNode V)}

theorem putAll_spec (h : Ascending FKey.keyComparator held)
    (hes : es.Pairwise fun d e => d.1 ≠ e.1) :
  Ascending FKey.keyComparator (putAll held es)
    ∧ ∀ j, lookup FKey.keyComparator (putAll held es) j
        = (lookup FKey.keyComparator es j).or (lookup FKey.keyComparator held j)
  := by
  induction es generalizing held with
  | nil => exact ⟨h, fun j => rfl⟩
  | cons e es ih =>
    rw [List.pairwise_cons] at hes
    obtain ⟨hasc, hlookup⟩ := ih (ascending_insert h e.1 e.2) hes.2
    refine ⟨hasc, ?_⟩
    intro j
    rw [putAll, List.foldl_cons]
    apply (hlookup j).trans
    rcases eq_or_ne j e.1 with rfl | hne
    · have hnone : lookup FKey.keyComparator es e.1 = none := by
        rw [lookup_eq_none_iff]
        intro d hd heq
        exact hes.1 d hd (FKey.eq_of_keyComparator heq)
      rw [hnone, Option.none_or, lookup_insert_self h, lookup_cons_self, Option.some_or]
    · rw [lookup_insert_of_ne FKey.eq_of_keyComparator h hne,
        lookup_cons_of_ne FKey.eq_of_keyComparator hne]

theorem eraseAll_spec (h : Ascending FKey.keyComparator held) (es : List (FKey × FNode V)) :
  Ascending FKey.keyComparator (eraseAll held es)
    ∧ ∀ j, lookup FKey.keyComparator (eraseAll held es) j
        = if (lookup FKey.keyComparator es j).isSome then none
          else lookup FKey.keyComparator held j
  := by
  induction es generalizing held with
  | nil => exact ⟨h, fun j => rfl⟩
  | cons e es ih =>
    obtain ⟨hasc, hlookup⟩ := ih (h.erase (k := e.1))
    refine ⟨hasc, ?_⟩
    intro j
    rw [eraseAll, List.foldl_cons]
    apply (hlookup j).trans
    rcases eq_or_ne j e.1 with rfl | hne
    · rw [lookup_erase_self h, lookup_cons_self, ite_self]
      rfl
    · rw [lookup_erase_of_ne FKey.eq_of_keyComparator h hne,
        lookup_cons_of_ne FKey.eq_of_keyComparator hne]

/-! ### Events of one kind -/

theorem foldl_receive_removed (h : Ascending FKey.keyComparator held) :
  (es.map fun e => ⟨.childRemoved, some e.1, e.2, none⟩).foldl receive held = eraseAll held es
  := by
  induction es generalizing held with
  | nil => rfl
  | cons e es ih =>
    rw [List.map_cons, List.foldl_cons, eraseAll, List.foldl_cons, ← eraseAll]
    have hreceive : receive held ⟨.childRemoved, some e.1, e.2, none⟩
        = erase FKey.keyComparator e.1 held := filter_eq_erase h e.1
    rw [hreceive]
    apply ih h.erase

/-- New children are put where they belong if they are sent in the order of their keys, and
each child is held or still to be sent. -/
theorem foldl_receive_added {children : List (FKey × FNode V)}
    (hchildren : Ascending FKey.keyComparator children) (h : Ascending FKey.keyComparator held)
    (hes : Ascending FKey.keyComparator es) (hnew : ∀ e ∈ es, e.1 ∉ held.map Prod.fst)
    (hkeys : ∀ k, k ∈ children.map Prod.fst ↔ k ∈ held.map Prod.fst ∨ k ∈ es.map Prod.fst) :
  (es.map fun e => ⟨.childAdded, some e.1, e.2,
      ((below FKey.keyComparator e.1 children).getLast?).map Prod.fst⟩).foldl receive held
    = putAll held es
  := by
  induction es generalizing held with
  | nil => rfl
  | cons e es ih =>
    rw [Ascending, List.pairwise_cons] at hes
    rw [List.forall_mem_cons] at hnew
    have hnone : lookup FKey.keyComparator held e.1 = none := by
      rw [lookup_eq_none_iff]
      intro d hd heq
      rw [FKey.eq_of_keyComparator heq] at hnew
      exact hnew.1 (List.mem_map_of_mem hd)
    have hreceive : receive held ⟨.childAdded, some e.1, e.2,
          ((below FKey.keyComparator e.1 children).getLast?).map Prod.fst⟩
        = Assoc.insert FKey.keyComparator e.1 e.2 held := by
      apply insertAfter_eq_insert h hchildren hnone
      · intro d hd
        exact (hkeys d.1).mpr (.inl (List.mem_map_of_mem hd))
      · intro d hd
        -- what is still to be sent is not before the child
        obtain ⟨hd, hlt⟩ := mem_below.mp hd
        rcases (hkeys d.1).mp (List.mem_map_of_mem hd) with hheld | hlater
        · exact hheld
        · obtain ⟨c, hc, heq⟩ := List.mem_map.mp hlater
          rw [← heq] at hlt
          rcases List.mem_cons.mp hc with rfl | hc
          · rw [Comparator.refl] at hlt
            cases hlt
          · rw [Comparator.gt_iff.mpr (hes.1 c hc)] at hlt
            cases hlt
    have hmem : ∀ k, k ∈ (Assoc.insert FKey.keyComparator e.1 e.2 held).map Prod.fst
        ↔ k ∈ held.map Prod.fst ∨ k = e.1 := by
      intro k
      have hperm : (Assoc.insert FKey.keyComparator e.1 e.2 held).map Prod.fst
          = (below FKey.keyComparator e.1 held).map Prod.fst
            ++ e.1 :: (above FKey.keyComparator e.1 held).map Prod.fst := by
        rw [Assoc.insert, List.map_append, List.map_cons]
      have hheld : held.map Prod.fst = (below FKey.keyComparator e.1 held).map Prod.fst
          ++ (above FKey.keyComparator e.1 held).map Prod.fst := by
        rw [← List.map_append, below_append_above h hnone]
      rw [hperm, hheld]
      simp only [List.mem_append, List.mem_cons]
      tauto
    rw [List.map_cons, List.foldl_cons, hreceive, putAll, List.foldl_cons, ← putAll]
    apply ih (ascending_insert h e.1 e.2) hes.2
    · intro d hd hheld
      rcases (hmem d.1).mp hheld with hheld | heq
      · exact hnew.2 d hd hheld
      · have hlt := hes.1 d hd
        rw [heq, Comparator.refl] at hlt
        cases hlt
    · intro k
      rw [hkeys, hmem, List.map_cons, List.mem_cons, or_assoc]

theorem foldl_receive_changed (prevName : FKey × FNode V → Option FKey)
    (h : Ascending FKey.keyComparator held)
    (hes : ∀ e ∈ es, (lookup FKey.keyComparator held e.1).isSome = true) :
  (es.map fun e => ⟨.childChanged, some e.1, e.2, prevName e⟩).foldl receive held
    = putAll held es
  := by
  induction es generalizing held with
  | nil => rfl
  | cons e es ih =>
    rw [List.forall_mem_cons] at hes
    have hreceive : receive held ⟨.childChanged, some e.1, e.2, prevName e⟩
        = Assoc.insert FKey.keyComparator e.1 e.2 held := map_eq_insert h hes.1 e.2
    rw [List.map_cons, List.foldl_cons, hreceive, putAll, List.foldl_cons, ← putAll]
    apply ih (ascending_insert h e.1 e.2)
    intro d hd
    rcases eq_or_ne d.1 e.1 with heq | hne
    · rw [heq, lookup_insert_self h]
      rfl
    · rw [lookup_insert_of_ne FKey.eq_of_keyComparator h hne]
      exact hes.2 d hd

end FListener

/-! ## Events of an operation -/

namespace FEventGenerator

open FChildChangeAccumulator

variable [DecidableEq V] {m m' : FNode V} {accumulator : FChildChangeAccumulator V}
  {responseTo : FIRDataEventType → Bool}

/-- Neither a child that was there nor one that is there has a priority. -/
theorem isDefinedOn_of_changedChild (ht : Tracks accumulator m.child m'.child)
    (hm : m.Unranked) (hm' : m'.Unranked) {eventType : FIRDataEventType} {e : FKey × FNode V}
    (he : e ∈ accumulator.changes.filterMap (changedChild eventType)) :
  FPriorityIndex.isDefinedOn e.2 = false
  := by
  obtain ⟨change, hchange, he⟩ := (mem_changedChildren_iff ht).mp he
  have hdescribes := ht.describes e.1
  rw [hchange] at hdescribes
  have hnode : e.2 = m.child e.1 ∨ e.2 = m'.child e.1 := by
    cases change with
    | value => cases hdescribes
    | childAdded childKey node =>
      cases eventType <;> cases he
      exact .inr hdescribes.2.2.2
    | childRemoved childKey node =>
      cases eventType <;> cases he
      exact .inl hdescribes.2.2.2
    | childChanged childKey node oldNode =>
      right
      cases eventType with
      | childMoved =>
        rw [changedChild] at he
        split at he
        · cases he
          exact hdescribes.2.2.2.1
        · cases he
      | childChanged =>
        cases he
        exact hdescribes.2.2.2.1
      | _ => cases he
  rcases hnode with heq | heq
  · rw [heq]
    apply hm.child
  · rw [heq]
    apply hm'.child

theorem filterMap_changedChild (value : Option (FNode V)) (eventType : FIRDataEventType) :
  (accumulator.changes ++ value.toList.map FChange.value).filterMap (changedChild eventType)
    = accumulator.changes.filterMap (changedChild eventType)
  := by
  rw [List.filterMap_append]
  cases value with
  | none => exact List.append_nil _
  | some => cases eventType <;> exact List.append_nil _

omit [DecidableEq V] in
theorem exists_generateValueEvents (responseTo : FIRDataEventType → Bool)
    (ht : Tracks accumulator m.child m'.child) (value : Option (FNode V)) :
  ∃ events, generateValueEvents responseTo (accumulator.changes ++ value.toList.map FChange.value)
      = some events
    ∧ ∀ held, events.foldl FListener.receive held = held
  := by
  have hnil : accumulator.changes.filterMap changedValue = [] := by
    rw [List.filterMap_eq_nil_iff]
    intro change hchange
    obtain ⟨k, hk⟩ := (mem_changes_iff ht).mp hchange
    have hdescribes := ht.describes k
    rw [hk] at hdescribes
    cases change with
    | value => cases hdescribes
    | _ => rfl
  rw [generateValueEvents, List.filterMap_append, hnil, List.nil_append]
  cases value with
  | none => exact ⟨[], rfl, fun _ => rfl⟩
  | some node =>
    refine ⟨_, rfl, ?_⟩
    intro held
    split <;> rfl

variable [Ord V] [Std.TransOrd V]

/-- The children that the events of one kind are of, in the order they are sent. -/
def sent (accumulator : FChildChangeAccumulator V) (eventType : FIRDataEventType) :
    List (FKey × FNode V) :=
  FPriorityIndex.sort (accumulator.changes.filterMap (changedChild eventType))

theorem ascending_sent (ht : Tracks accumulator m.child m'.child) (hm : m.Unranked)
    (hm' : m'.Unranked) (eventType : FIRDataEventType) :
  Assoc.Ascending FKey.keyComparator (sent accumulator eventType)
  := FPriorityIndex.ascending_sort (changedChildren_nodup ht)
    fun _ he => isDefinedOn_of_changedChild ht hm hm' he

theorem mem_sent_iff (ht : Tracks accumulator m.child m'.child) {eventType : FIRDataEventType}
    {e : FKey × FNode V} :
  e ∈ sent accumulator eventType
    ↔ ∃ change, accumulator.change e.1 = some change ∧ changedChild eventType change = some e
  := by
  rw [sent, FPriorityIndex.sort, (List.mergeSort_perm _ _).mem_iff, mem_changedChildren_iff ht]

theorem lookup_sent (ht : Tracks accumulator m.child m'.child) (hm : m.Unranked)
    (hm' : m'.Unranked) (eventType : FIRDataEventType) (k : FKey) :
  Assoc.lookup FKey.keyComparator (sent accumulator eventType) k
    = ((accumulator.change k).bind (changedChild eventType)).map Prod.snd
  := by
  ext v
  rw [← Assoc.Ascending.mem_iff_lookup FKey.eq_of_keyComparator
    (ascending_sent ht hm hm' eventType), mem_sent_iff ht, Option.map_eq_some_iff]
  constructor
  · rintro ⟨change, hchange, he⟩
    exact ⟨(k, v), by rw [hchange]; exact he, rfl⟩
  · rintro ⟨⟨j, w⟩, he, rfl⟩
    obtain ⟨change, hchange, he⟩ := Option.bind_eq_some_iff.mp he
    have hdescribes := ht.describes k
    rw [hchange] at hdescribes
    obtain rfl : k = j := Option.some.inj
      ((childKey_of_describes hdescribes).symm.trans (childKey_of_changedChild he))
    exact ⟨change, hchange, he⟩

theorem lookup_of_mem_sent (ht : Tracks accumulator m.child m'.child) (hm : m.Unranked)
    (hm' : m'.Unranked) {eventType : FIRDataEventType} {e : FKey × FNode V}
    (he : e ∈ sent accumulator eventType) :
  Assoc.lookup FKey.keyComparator (sent accumulator eventType) e.1 = some e.2
  := (Assoc.Ascending.mem_iff_lookup FKey.eq_of_keyComparator
    (ascending_sent ht hm hm' eventType)).mp he

/-- No child moves. -/
theorem sent_moved (ht : Tracks accumulator m.child m'.child) (hm : m.Unranked)
    (hm' : m'.Unranked) :
  sent accumulator .childMoved = []
  := by
  rw [List.eq_nil_iff_forall_not_mem]
  intro e he
  obtain ⟨change, hchange, he⟩ := (mem_sent_iff ht).mp he
  have hdescribes := ht.describes e.1
  rw [hchange] at hdescribes
  cases change with
  | childChanged childKey node oldNode =>
    obtain ⟨-, -, -, rfl, rfl⟩ := hdescribes
    rw [changedChild, if_neg] at he
    · cases he
    · rw [FPriorityIndex.indexedValueChangedBetween,
        FNode.getPriority_eq_emptyNode (hm.child e.1),
        FNode.getPriority_eq_emptyNode (hm'.child e.1),
        (FNode.wf_emptyNode.isEqual_iff_eq FNode.wf_emptyNode).mpr rfl]
      simp
  | _ => cases he

/-- The events of one kind. -/
theorem generateEvents_eq
    (hresponse : ∀ eventType, eventType ≠ .value → responseTo eventType = true)
    {eventType : FIRDataEventType} (hne : eventType ≠ .value) {changes : List (FChange V)}
    {es : List (FKey × FNode V)}
    (hes : FPriorityIndex.sort (changes.filterMap (changedChild eventType)) = es)
    (event : FKey × FNode V → FDataEvent V)
    (hevent : ∀ e ∈ es, generateEventForChange eventType m e = some (event e)) :
  generateEvents responseTo changes m eventType = some (es.map event)
  := by
  rw [generateEvents, if_pos (hresponse eventType hne), hes]
  clear hes
  induction es with
  | nil => rfl
  | cons e es ih =>
    rw [List.forall_mem_cons] at hevent
    rw [List.mapM_cons, hevent.1, ih hevent.2]
    rfl

theorem sort_changedChildren (value : Option (FNode V)) (eventType : FIRDataEventType) :
  FPriorityIndex.sort ((accumulator.changes ++ value.toList.map FChange.value).filterMap
      (changedChild eventType))
    = sent accumulator eventType
  := by
  rw [filterMap_changedChild, sent]

end FEventGenerator

namespace FListener

open FChildChangeAccumulator FEventGenerator Assoc

section Changes

variable [DecidableEq V] [Ord V] [Std.TransOrd V] {m m' : FNode V} {changes : List (FChange V)}
  {accumulator : FChildChangeAccumulator V} {responseTo : FIRDataEventType → Bool}

/-- What is held of the children once the removed ones are gone. -/
def kept (m : FNode V) (accumulator : FChildChangeAccumulator V) : List (FKey × FNode V) :=
  eraseAll m.enumerateChildren (sent accumulator .childRemoved)

section Tracks

variable (hwf : m.Wf) (hwf' : m'.Wf) (hm : m.Unranked) (hm' : m'.Unranked)
  (ht : Tracks accumulator m.child m'.child)

include hwf hwf' hm hm' ht

/-- A child is kept as it is, is new, or is kept and sent again. -/
theorem lookup_cases (k : FKey) :
  (lookup FKey.keyComparator (sent accumulator .childChanged) k = none
    ∧ lookup FKey.keyComparator (sent accumulator .childAdded) k = none
    ∧ lookup FKey.keyComparator (kept m accumulator) k
        = lookup FKey.keyComparator m'.enumerateChildren k)
  ∨ (lookup FKey.keyComparator (sent accumulator .childChanged) k = none
    ∧ lookup FKey.keyComparator (kept m accumulator) k = none
    ∧ ∃ node, lookup FKey.keyComparator (sent accumulator .childAdded) k = some node
      ∧ lookup FKey.keyComparator m'.enumerateChildren k = some node)
  ∨ (lookup FKey.keyComparator (sent accumulator .childAdded) k = none
    ∧ (lookup FKey.keyComparator (kept m accumulator) k).isSome = true
    ∧ ∃ node, lookup FKey.keyComparator (sent accumulator .childChanged) k = some node
      ∧ lookup FKey.keyComparator m'.enumerateChildren k = some node)
  := by
  have hkept := (eraseAll_spec hwf.enumerateChildren_ascending
    (sent accumulator .childRemoved)).2 k
  rw [lookup_sent ht hm hm', hwf.lookup_enumerateChildren, ← kept] at hkept
  rw [hkept, lookup_sent ht hm hm', lookup_sent ht hm hm', hwf'.lookup_enumerateChildren]
  have hdescribes := ht.describes k
  rcases hchange : accumulator.change k with _ | change
  · rw [hchange] at hdescribes
    have hsame : m.child k = m'.child k := hdescribes
    rw [hsame]
    exact .inl ⟨rfl, rfl, rfl⟩
  · rw [hchange] at hdescribes
    cases change with
    | value => cases hdescribes
    | childAdded childKey node =>
      obtain ⟨-, hold, hnew, rfl⟩ := hdescribes
      rw [hold, hnew]
      exact .inr (.inl ⟨rfl, rfl, _, rfl, rfl⟩)
    | childRemoved childKey node =>
      obtain ⟨-, -, hnew, -⟩ := hdescribes
      rw [hnew]
      exact .inl ⟨rfl, rfl, rfl⟩
    | childChanged childKey node oldNode =>
      obtain ⟨-, hold, hnew, rfl, -⟩ := hdescribes
      rw [hold, hnew]
      exact .inr (.inr ⟨rfl, rfl, _, rfl, rfl⟩)

/-- New and changed children are among the children. -/
theorem mem_of_mem_sent {eventType : FIRDataEventType}
    (htype : eventType = .childAdded ∨ eventType = .childChanged) {e : FKey × FNode V}
    (he : e ∈ sent accumulator eventType) :
  e ∈ m'.enumerateChildren
  := by
  have hsent := lookup_of_mem_sent ht hm hm' he
  apply (Ascending.mem_iff_lookup FKey.eq_of_keyComparator hwf'.enumerateChildren_ascending).mpr
  obtain ⟨hchanged, hadded, -⟩ | ⟨hchanged, -, node, hadded, hnew⟩
    | ⟨hadded, -, node, hchanged, hnew⟩ := lookup_cases hwf hwf' hm hm' ht e.1
  · rcases htype with rfl | rfl
    · rw [hadded] at hsent
      cases hsent
    · rw [hchanged] at hsent
      cases hsent
  · rcases htype with rfl | rfl
    · rw [hnew, ← hadded]
      exact hsent
    · rw [hchanged] at hsent
      cases hsent
  · rcases htype with rfl | rfl
    · rw [hadded] at hsent
      cases hsent
    · rw [hnew, ← hchanged]
      exact hsent

/-- The children after all events. -/
theorem putAll_putAll_kept :
  putAll (putAll (kept m accumulator) (sent accumulator .childAdded))
      (sent accumulator .childChanged)
    = m'.enumerateChildren
  := by
  have hkept : Ascending FKey.keyComparator (kept m accumulator) :=
    (eraseAll_spec hwf.enumerateChildren_ascending _).1
  obtain ⟨hadded, hlookup⟩ := putAll_spec hkept (ascending_sent ht hm hm' .childAdded).keys_ne
  obtain ⟨hchanged, hlookup'⟩ :=
    putAll_spec hadded (ascending_sent ht hm hm' .childChanged).keys_ne
  apply hchanged.ext FKey.eq_of_keyComparator hwf'.enumerateChildren_ascending
  intro k
  rw [hlookup', hlookup]
  obtain ⟨hc, ha, hk⟩ | ⟨hc, -, node, ha, hk⟩ | ⟨-, -, node, hc, hk⟩ :=
    lookup_cases hwf hwf' hm hm' ht k
  · rw [hc, ha, Option.none_or, Option.none_or, hk]
  · rw [hc, ha, Option.none_or, Option.some_or, hk]
  · rw [hc, Option.some_or, hk]

theorem foldl_receive_sent (prevName : FKey × FNode V → Option FKey) :
  ((sent accumulator .childChanged).map fun e => ⟨.childChanged, some e.1, e.2, prevName e⟩).foldl
    receive
      (((sent accumulator .childAdded).map fun e => ⟨.childAdded, some e.1, e.2,
          ((below FKey.keyComparator e.1 m'.enumerateChildren).getLast?).map Prod.fst⟩).foldl
        receive
          (((sent accumulator .childRemoved).map fun e =>
            ⟨.childRemoved, some e.1, e.2, none⟩).foldl receive m.enumerateChildren))
    = m'.enumerateChildren
  := by
  have hkept : Ascending FKey.keyComparator (kept m accumulator) :=
    (eraseAll_spec hwf.enumerateChildren_ascending _).1
  have hsent := ascending_sent ht hm hm' .childAdded
  have hkeys : ∀ k, k ∈ m'.enumerateChildren.map Prod.fst
      ↔ k ∈ (kept m accumulator).map Prod.fst
        ∨ k ∈ (sent accumulator .childAdded).map Prod.fst := by
    intro k
    rw [mem_keys_iff FKey.eq_of_keyComparator, mem_keys_iff FKey.eq_of_keyComparator,
      mem_keys_iff FKey.eq_of_keyComparator]
    obtain ⟨-, ha, hk⟩ | ⟨-, hk, node, ha, hnew⟩ | ⟨ha, hk, node, -, hnew⟩ :=
      lookup_cases hwf hwf' hm hm' ht k
    · simp [ha, hk]
    · simp [ha, hk, hnew]
    · simp [ha, hk, hnew]
  have hnew : ∀ e ∈ sent accumulator .childAdded, e.1 ∉ (kept m accumulator).map Prod.fst := by
    intro e he
    have hlookup := lookup_of_mem_sent ht hm hm' he
    rw [mem_keys_iff FKey.eq_of_keyComparator]
    obtain ⟨-, ha, -⟩ | ⟨-, hk, -⟩ | ⟨ha, -⟩ := lookup_cases hwf hwf' hm hm' ht e.1
    · rw [ha] at hlookup
      cases hlookup
    · simp [hk]
    · rw [ha] at hlookup
      cases hlookup
  obtain ⟨hadded, hlookup⟩ := putAll_spec hkept hsent.keys_ne
  have hthere : ∀ e ∈ sent accumulator .childChanged,
      (lookup FKey.keyComparator (putAll (kept m accumulator) (sent accumulator .childAdded))
        e.1).isSome = true := by
    intro e he
    rw [hlookup]
    have hlookup' := lookup_of_mem_sent ht hm hm' he
    obtain ⟨hc, -⟩ | ⟨hc, -⟩ | ⟨ha, hk, -⟩ := lookup_cases hwf hwf' hm hm' ht e.1
    · rw [hc] at hlookup'
      cases hlookup'
    · rw [hc] at hlookup'
      cases hlookup'
    · rw [ha, Option.none_or]
      exact hk
  rw [foldl_receive_removed hwf.enumerateChildren_ascending, ← kept,
    foldl_receive_added hwf'.enumerateChildren_ascending hkept hsent hnew hkeys,
    foldl_receive_changed prevName hadded hthere, putAll_putAll_kept hwf hwf' hm hm' ht]

end Tracks

/-- A listener that responds to all events of children and holds the children of a node has
those of another one after the events of the changes that lead to it. -/
theorem receives (hwf : m.Wf) (hwf' : m'.Wf) (hm : m.Unranked) (hm' : m'.Unranked)
    (h : FViewProcessor.Explains m m' changes)
    (hresponse : ∀ eventType, eventType ≠ .value → responseTo eventType = true) :
  ∃ events, generateEventsForChanges responseTo changes m' = some events
    ∧ events.foldl receive m.enumerateChildren = m'.enumerateChildren
  := by
  obtain ⟨accumulator, value, ht, rfl⟩ : ∃ accumulator value, Tracks accumulator m.child m'.child
      ∧ changes = accumulator.changes ++ (Option.toList value).map FChange.value := by
    rcases eq_or_ne m' m with rfl | hne
    · exact ⟨.init, none, tracks_init _, h.silent rfl⟩
    · obtain ⟨accumulator, ht, hchanges⟩ := h.raised hne
      exact ⟨accumulator, some m', ht, hchanges⟩
  obtain ⟨values, hvalues, hignored⟩ := exists_generateValueEvents responseTo ht value
  have hprev : ∀ eventType, eventType = .childAdded ∨ eventType = .childChanged →
      ∀ e ∈ sent accumulator eventType, generateEventForChange eventType m' e
        = some ⟨eventType, some e.1, e.2,
            ((below FKey.keyComparator e.1 m'.enumerateChildren).getLast?).map Prod.fst⟩ := by
    intro eventType htype e he
    have hmem := mem_of_mem_sent hwf hwf' hm hm' ht htype he
    rw [generateEventForChange, if_neg (by rcases htype with rfl | rfl <;> simp),
      FIndexedNode.predecessorForChildKey_eq hwf' hm' hmem]
    rfl
  have hsilent : ∀ e ∈ sent accumulator .childMoved, generateEventForChange .childMoved m' e
      = some ⟨.childMoved, some e.1, e.2, none⟩ := by
    intro e he
    rw [sent_moved ht hm hm'] at he
    cases he
  have hgone : ∀ e ∈ sent accumulator .childRemoved, generateEventForChange .childRemoved m' e
      = some ⟨.childRemoved, some e.1, e.2, none⟩ := fun e _ => if_pos rfl
  have hremoved := generateEvents_eq hresponse (by simp) (sort_changedChildren value _) _ hgone
  have hadded := generateEvents_eq hresponse (by simp) (sort_changedChildren value _) _
    (hprev .childAdded (.inl rfl))
  have hmoved := generateEvents_eq hresponse (by simp) (sort_changedChildren value _) _ hsilent
  have hchanged := generateEvents_eq hresponse (by simp) (sort_changedChildren value _) _
    (hprev .childChanged (.inr rfl))
  rw [sent_moved ht hm hm', List.map_nil] at hmoved
  rw [generateEventsForChanges, hremoved, hadded, hmoved, hchanged, hvalues]
  refine ⟨_, rfl, ?_⟩
  rw [List.foldl_append, hignored, List.append_nil, List.foldl_append, List.foldl_append]
  apply foldl_receive_sent hwf hwf' hm hm' ht

end Changes

/-! ## Runs -/

section Run

open FClient

/-- All that is shown is well formed. -/
theorem wf_shown {observed : FImmutableTree (FViewCache V)} {client : FClient V} {feed : Feed V}
    (h : Follows observed client feed) :
  feed.shown.Wf
  := by
  have hpending := (h.same rfl h.under).pending
  apply hpending.under.wf.replay hpending.wf

variable [DecidableEq V] [Ord V] [Std.TransOrd V]

/-- The client after an event, and what a listener at a path of it then holds. -/
def step (responseTo : FIRDataEventType → Bool) (path : List FKey)
    (state : FClient V × List (FKey × FNode V)) (e : FClientEvent V) :
    Option (FClient V × List (FKey × FNode V)) := do
  let client ← state.1.step e
  let view ← client.serverSyncTree.syncPointTree.valueAtPath path
  let events ← generateEventsForChanges responseTo (client.raised.at path)
    view.cachedEventSnap.node
  some (client, events.foldl receive state.2)

variable {observed : FImmutableTree (FViewCache V)} {path : List FKey} {view : FViewCache V}
  {responseTo : FIRDataEventType → Bool} {feed feed' : Feed V}

/-- The client follows the feed, and the listener holds the children that are shown. -/
structure Holds (observed : FImmutableTree (FViewCache V)) (path : List FKey)
    (state : FClient V × List (FKey × FNode V)) (feed : Feed V) : Prop where
  follows : Follows observed state.1 feed
  unranked : (feed.shown.getChild path).Unranked
  held : state.2 = (feed.shown.getChild path).enumerateChildren

/-- Each event the feed admits leaves the listener with the children that are shown. -/
theorem Holds.step {state : FClient V × List (FKey × FNode V)} (h : Holds observed path state feed)
    (hobserved : ∀ p view, observed.valueAtPath p = some view → FKey.priority ∉ p)
    (hview : observed.valueAtPath path = some view)
    (hresponse : ∀ eventType, eventType ≠ .value → responseTo eventType = true)
    {e : FClientEvent V} (ha : feed.Admits e) (hfeed : feed.step e = some feed')
    (hunranked : (feed'.shown.getChild path).Unranked) :
  ∃ state', FListener.step responseTo path state e = some state'
    ∧ Holds observed path state' feed'
  := by
  obtain ⟨client, hclient, hfollows, hexplained⟩ := h.follows.step hobserved ha hfeed
  obtain ⟨events, hevents, hheld⟩ := receives ((wf_shown h.follows).getChild path)
    ((wf_shown hfollows).getChild path) h.unranked hunranked (hexplained.view path view hview)
    hresponse
  have hshown : client.serverSyncTree.syncPointTree.valueAtPath path
      = some (FViewCache.full (feed'.shown.getChild path) (feed'.serverData.getChild path)) := by
    rw [hfollows.shows.view path, hview, Option.map_some]
  have hstep : FListener.step responseTo path state e
      = some (client, events.foldl receive state.2) := by
    rw [FListener.step, hclient, Option.bind_eq_bind, Option.bind_some, hshown,
      Option.bind_eq_bind, Option.bind_some, FViewCache.cachedEventSnap_full, hevents]
    rfl
  refine ⟨_, hstep, hfollows, hunranked, ?_⟩
  rw [h.held]
  exact hheld

end Run

end FListener

end ForDream

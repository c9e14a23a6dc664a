import ForDream.Database.SyncTree

/-!
# What views raise

When an operation leaves the data a view shows as it was, the view raises nothing.
Otherwise it raises the changes of the children and then that of the value.

Operations of the user and of the server, seen from the path of a view, are the parts of
their writes at that path, and take the view from showing the data under the pending
writes before to showing the data under the pending writes after.
-/

namespace ForDream

open FCompoundWrite FChildChangeAccumulator FViewCache
open FImmutableTree (ofChildren forEach_ofChildren)

variable {V : Type*}

namespace FViewProcessor

/-- The changes raised lead from the data shown before to the data shown after: none if it
is the same, and otherwise those of the children and then that of the value. -/
structure Explains (m m' : FNode V) (changes : List (FChange V)) : Prop where
  silent : m' = m → changes = []
  raised : m' ≠ m → ∃ accumulator, Tracks accumulator m.child m'.child
    ∧ changes = accumulator.changes ++ [.value m']

variable {m m' n n' : FNode V}

/-- Without changes of children, data that is neither a leaf nor empty differs in its
priority only. -/
theorem getPriority_ne (hm : m.Wf) (hm' : m'.Wf) (hchild : m.child = m'.child) (hne : m' ≠ m)
    (hleaf : m'.isLeafNode = false) (hempty : m'.isEmpty = false) :
  m'.getPriority ≠ m.getPriority
  := by
  intro hpriority
  apply hne
  apply hm'.ext hm hleaf _ hchild.symm hpriority
  -- a leaf has no children
  cases m with
  | children => rfl
  | leaf =>
    cases m' with
    | leaf => cases hleaf
    | children kids priority =>
      cases kids with
      | nil => cases hempty
      | cons e kids =>
        obtain ⟨hget, hne, -⟩ := hm'.child_of_mem (e := e) List.mem_cons_self
        rw [← hchild] at hget
        rw [← hget] at hne
        cases hne

theorem wf_getPriority (n : FNode V) :
  n.getPriority.Wf
  := by
  cases n <;> apply FNode.wf_ofPriority

variable [DecidableEq V] {operation : FOperation V} {ref : FWriteTreeRef V}

/-- The value is raised exactly when the data changes. -/
theorem explains_maybeAddValue (hm : m.Wf) (hm' : m'.Wf)
    {accumulator : FChildChangeAccumulator V} (ht : Tracks accumulator m.child m'.child)
    (hsame : m' = m → accumulator = .init) :
  Explains m m' (maybeAddValue (full m n) (full m' n') accumulator.changes)
  := by
  have hequal := hm'.isEqual_iff_eq hm
  have hpriority := (wf_getPriority m').isEqual_iff_eq (wf_getPriority m)
  have hvalue : maybeAddValue (full m n) (full m' n') accumulator.changes
      = if !accumulator.changes.isEmpty
          || ((m'.isLeafNode || m'.isEmpty) && !m'.isEqual m
            || !m'.getPriority.isEqual m.getPriority)
        then accumulator.changes ++ [.value m'] else accumulator.changes := rfl
  rw [hvalue]
  constructor
  · rintro rfl
    rw [hsame rfl, hequal.mpr rfl, hpriority.mpr rfl]
    simp [FChildChangeAccumulator.init, FChildChangeAccumulator.changes]
  · intro hne
    refine ⟨accumulator, ht, ?_⟩
    rw [if_pos]
    rcases hchanges : accumulator.changes with _ | ⟨c, cs⟩
    · have hnil : accumulator.changeMap = [] := List.map_eq_nil_iff.mp hchanges
      have hchild : m.child = m'.child := by
        funext k
        have hk := ht.describes k
        rw [FChildChangeAccumulator.change, hnil] at hk
        exact hk
      have hnot : m'.isEqual m = false := by
        rw [← Bool.not_eq_true, hequal]
        exact hne
      cases hleaf : m'.isLeafNode with
      | true => simp [hnot]
      | false =>
        cases hempty : m'.isEmpty with
        | true => simp [hnot]
        | false =>
          have hdiffer := getPriority_ne hm hm' hchild hne hleaf hempty
          have hpri : m'.getPriority.isEqual m.getPriority = false := by
            rw [← Bool.not_eq_true, hpriority]
            exact hdiffer
          simp [hpri]
    · simp

/-- The operation takes a view with all data to another one, and explains the change. -/
def Carries (operation : FOperation V) (ref : FWriteTreeRef V) (m n m' n' : FNode V) : Prop :=
  ∀ serverCache, ∃ changes,
    applyOperationOn (full m n) operation ref serverCache = some (full m' n', changes)
      ∧ Explains m m' changes

theorem carries_of_updates {op : Option (FNode V) → Option (FChildChangeAccumulator V) →
      Option (Tracked V)} (hm : m.Wf) (hm' : m'.Wf)
    (hupdates : ∀ serverCache, Updates (op serverCache) m m' n')
    (hop : ∀ serverCache, applyOperationOn (full m n) operation ref serverCache
      = (op serverCache (some .init)).bind fun result =>
        some (result.1, maybeAddValue (full m n) result.1
          ((result.2.map FChildChangeAccumulator.changes).getD []))) :
  Carries operation ref m n m' n'
  := by
  intro serverCache
  obtain ⟨accumulator, hrun, ht, hsame⟩ :=
    hupdates serverCache .init m.child hm.child (tracks_init m.child)
  refine ⟨maybeAddValue (full m n) (full m' n') accumulator.changes, ?_,
    explains_maybeAddValue hm hm' ht hsame⟩
  rw [hop, hrun]
  rfl

end FViewProcessor

/-! ## Operations seen from a path -/

namespace FNode

variable {n c : FNode V} {p q : List FKey} {w u : List FKey × FNode V}

theorem part_root (p : List FKey) (c : FNode V) :
  part p ([], c) = some ([], c.getChild p)
  := by
  cases p with
  | nil => rw [part, getChild_nil]
  | cons => rw [part]

theorem part_allowed (hpart : part p w = some u) (hw : w.2.Wf) (hq : FKey.priority ∉ w.1) :
  u.2.Wf ∧ FKey.priority ∉ u.1
  := by
  induction p generalizing w with
  | nil =>
    obtain rfl := Option.some.inj hpart
    exact ⟨hw, hq⟩
  | cons k p ih =>
    obtain ⟨q, c⟩ := w
    cases q with
    | nil =>
      rw [part_root] at hpart
      obtain rfl := Option.some.inj hpart
      exact ⟨hw.getChild _, hq⟩
    | cons j q =>
      rw [List.mem_cons, not_or] at hq
      rw [part] at hpart
      split at hpart
      case isTrue => exact ih hpart hw hq.2
      case isFalse => cases hpart

/-- The part of a write is of a well-formed node, at a path clear in the data there. -/
theorem part_spec (hpart : part p w = some u) (hp : FKey.priority ∉ p) (hw : w.2.Wf)
    (hclear : n.Clear w.1) :
  u.2.Wf ∧ (n.getChild p).Clear u.1
  := by
  induction p generalizing w n with
  | nil =>
    obtain rfl := Option.some.inj hpart
    rw [getChild_nil]
    exact ⟨hw, hclear⟩
  | cons k p ih =>
    obtain ⟨q, c⟩ := w
    cases q with
    | nil =>
      rw [part_root] at hpart
      obtain rfl := Option.some.inj hpart
      exact ⟨hw.getChild _, trivial⟩
    | cons j q =>
      rw [List.mem_cons, not_or] at hp
      rw [part] at hpart
      split at hpart
      case isTrue heq =>
        subst heq
        rw [getChild_cons n (Ne.symm hp.1)]
        exact ih hpart hp.2 hw hclear.2.2
      case isFalse => cases hpart

/-- The data at a path is open above the parts of writes that it is open above. -/
theorem Under.part {ws : List (List FKey × FNode V)} (h : n.Under ws) (hp : FKey.priority ∉ p)
    (hws : ∀ w ∈ ws, w.2.Wf) :
  (n.getChild p).Under (ws.filterMap (FNode.part p)) ∧ ∀ u ∈ ws.filterMap (FNode.part p), u.2.Wf
  := by
  have hspec : ∀ u ∈ ws.filterMap (FNode.part p), u.2.Wf ∧ (n.getChild p).Clear u.1 := by
    intro u hu
    obtain ⟨w, hw, hpart⟩ := List.mem_filterMap.mp hu
    exact part_spec hpart hp (hws w hw) (h.clear w hw)
  exact ⟨⟨h.wf.getChild p, fun u hu => (hspec u hu).2⟩, fun u hu => (hspec u hu).1⟩

end FNode

namespace FOperation

variable {vp p : List FKey} {c : FNode V}

/-- An operation with one path and one node, of which only the child is seen from a child,
is seen as the part of a write. -/
theorem operationFor_part {f : List FKey → FNode V → FOperation V}
    (hpath : ∀ p c, (f p c).path = p)
    (hroot : ∀ c k, (f [] c).operationForChild k = some (f [] (c.getImmediateChild k)))
    (hbelow : ∀ j p c k, (f (j :: p) c).operationForChild k = some (f p c))
    (hvp : FKey.priority ∉ vp) :
  operationFor vp (f p c) = (FNode.part vp (p, c)).map fun u => f u.1 u.2
  := by
  induction vp generalizing p c with
  | nil => rfl
  | cons k vp ih =>
    rw [List.mem_cons, not_or] at hvp
    cases p with
    | nil =>
      rw [operationFor_of_nil (hpath [] c), hroot, Option.bind_some, ih hvp.2,
        FNode.part_root, FNode.part_root, FNode.getChild_cons c (Ne.symm hvp.1)]
    | cons j p =>
      rw [FNode.part]
      split
      case isTrue heq =>
        subst heq
        rw [operationFor_of_eq (hpath (k :: p) c), hbelow, Option.bind_some, ih hvp.2]
      case isFalse hne =>
        rw [operationFor_of_ne (hpath (j :: p) c) hne]
        rfl

/-- An overwrite is seen as its part. -/
theorem operationFor_overwrite (hvp : FKey.priority ∉ vp) (fromUser : Bool) :
  operationFor vp (.overwrite fromUser p c)
    = (FNode.part vp (p, c)).map fun u => .overwrite fromUser u.1 u.2
  := operationFor_part (f := fun p c => .overwrite fromUser p c) (fun _ _ => rfl)
    (fun _ _ => rfl) (fun _ _ _ _ => rfl) hvp

/-- The answer to an overwrite is seen where its part is. -/
theorem operationFor_ackUserWrite (hvp : FKey.priority ∉ vp) {affectedTree : FImmutableTree Bool}
    (haffected : affectedTree.value.isSome = true) (revert : Bool) :
  operationFor vp (.ackUserWrite p affectedTree revert : FOperation V)
    = (FNode.part vp (p, c)).map fun u => .ackUserWrite u.1 affectedTree revert
  := operationFor_part (f := fun p _ => .ackUserWrite p affectedTree revert) (fun _ _ => rfl)
    (fun _ _ => if_pos haffected) (fun _ _ _ _ => rfl) hvp

theorem operationFor_listenComplete (hvp : FKey.priority ∉ vp) :
  operationFor vp (.listenComplete p : FOperation V)
    = (FNode.part vp (p, c)).map fun u => .listenComplete u.1
  := operationFor_part (f := fun p _ => .listenComplete p) (fun _ _ => rfl) (fun _ _ => rfl)
    (fun _ _ _ _ => rfl) hvp

/-! Merges of children are seen as merges above the children, and as overwrites from
them. -/

variable {l : List (FKey × FNode V)}

/-- The writes of a merge, one by one. -/
def mergeWrites (p : List FKey) (l : List (FKey × FNode V)) : List (List FKey × FNode V) :=
  l.map fun e => (p ++ [e.1], e.2)

theorem mergeWrites_cons_part_self (k : FKey) :
  (mergeWrites (k :: p) l).filterMap (FNode.part (k :: vp))
    = (mergeWrites p l).filterMap (FNode.part vp)
  := by
  rw [mergeWrites, mergeWrites, List.filterMap_map, List.filterMap_map]
  congr 1
  funext e
  dsimp only [Function.comp]
  rw [List.cons_append, FNode.part, if_pos rfl]

theorem mergeWrites_cons_part_of_ne {j k : FKey} (hne : k ≠ j) :
  (mergeWrites (j :: p) l).filterMap (FNode.part (k :: vp)) = []
  := by
  rw [mergeWrites, List.filterMap_map, List.filterMap_eq_nil_iff]
  intro e _
  dsimp only [Function.comp]
  rw [List.cons_append, FNode.part, if_neg hne]

/-- Of the writes of children the part of one of them is seen from it. -/
theorem mergeWrites_part (hl : l.Pairwise fun d e => d.1 ≠ e.1) (k : FKey) :
  (mergeWrites [] l).filterMap (FNode.part (k :: vp))
    = ((Assoc.lookup FKey.stringComparator l k).map fun c => ([], c.getChild vp)).toList
  := by
  induction l with
  | nil => rfl
  | cons e l ih =>
    obtain ⟨j, c⟩ := e
    rw [List.pairwise_cons] at hl
    have hcons : mergeWrites [] ((j, c) :: l) = ([j], c) :: mergeWrites [] l := rfl
    rw [hcons, List.filterMap_cons, FNode.part, FNode.part_root]
    rcases eq_or_ne k j with rfl | hne
    · have hrest : (mergeWrites [] l).filterMap (FNode.part (k :: vp)) = [] := by
        rw [mergeWrites, List.filterMap_map, List.filterMap_eq_nil_iff]
        intro e he
        dsimp only [Function.comp]
        rw [List.nil_append, FNode.part, if_neg (hl.1 e he)]
      rw [if_pos rfl, hrest, Assoc.lookup_cons_self]
      rfl
    · rw [if_neg hne, Assoc.lookup_cons_of_ne FKey.eq_of_stringComparator hne]
      apply ih hl.2

/-- A merge of children is seen as a merge, as an overwrite, or not at all. -/
theorem operationFor_merge (hl : Assoc.Ascending FKey.stringComparator l)
    (hwf : ∀ e ∈ l, e.2.Wf) (hvp : FKey.priority ∉ vp) (fromUser : Bool) :
  (∃ rest, p = vp ++ rest
      ∧ operationFor vp (.merge fromUser p (ofChildren l))
        = some (.merge fromUser rest (ofChildren l))
      ∧ (mergeWrites p l).filterMap (FNode.part vp) = mergeWrites rest l)
    ∨ (∃ c, operationFor vp (.merge fromUser p (ofChildren l)) = some (.overwrite fromUser [] c)
      ∧ (mergeWrites p l).filterMap (FNode.part vp) = [([], c)])
    ∨ (operationFor vp (.merge fromUser p (ofChildren l)) = none
      ∧ (mergeWrites p l).filterMap (FNode.part vp) = [])
  := by
  induction vp generalizing p with
  | nil =>
    left
    refine ⟨p, rfl, rfl, ?_⟩
    have hpart : FNode.part ([] : List FKey) = (some : List FKey × FNode V → _) := by
      funext w
      rw [FNode.part]
    rw [hpart, List.filterMap_some]
  | cons k vp ih =>
    rw [List.mem_cons, not_or] at hvp
    cases p with
    | cons j p =>
      rcases eq_or_ne k j with rfl | hne
      · rw [operationFor_of_eq rfl, operationForChild, Option.bind_some,
          mergeWrites_cons_part_self]
        rcases ih (p := p) hvp.2 with ⟨rest, rfl, hfor, hpart⟩ | h | h
        · left
          exact ⟨rest, rfl, hfor, hpart⟩
        · right
          left
          exact h
        · right
          right
          exact h
      · right
        right
        exact ⟨operationFor_of_ne rfl hne, mergeWrites_cons_part_of_ne hne⟩
    | nil =>
      right
      have hchild : childCompoundWriteAtPath (ofChildren l) [k]
          = ((Assoc.lookup FKey.stringComparator l k).map
              fun c => FImmutableTree.node (some c) []).getD .empty := by
        rw [childCompoundWriteAtPath_cons (wf_ofChildren hl hwf) rfl, childCompoundWriteAtPath,
          if_pos List.isEmpty_nil, FImmutableTree.child, Assoc.lookupD, ofChildren,
          FImmutableTree.children,
          Assoc.lookup_map (fun c => FImmutableTree.node (some c) [])]
      rw [operationFor_of_nil rfl, operationForChild, hchild, mergeWrites_part hl.keys_ne]
      cases Assoc.lookup FKey.stringComparator l k with
      | none =>
        right
        exact ⟨rfl, rfl⟩
      | some c =>
        left
        refine ⟨c.getChild vp, ?_, rfl⟩
        have hover : operationFor vp (.overwrite fromUser [] c)
            = some (.overwrite fromUser [] (c.getChild vp)) := by
          rw [operationFor_overwrite hvp.2, FNode.part_root]
          rfl
        exact hover

theorem operationFor_ackUserWrite_empty (vp : List FKey) (revert : Bool) :
  operationFor vp (.ackUserWrite [] FImmutableTree.empty revert : FOperation V)
    = some (.ackUserWrite [] FImmutableTree.empty revert)
  := by
  induction vp with
  | nil => rfl
  | cons k vp ih =>
    have hchild : operationForChild (.ackUserWrite [] FImmutableTree.empty revert : FOperation V) k
        = some (.ackUserWrite [] FImmutableTree.empty revert) := rfl
    rw [operationFor_of_nil rfl, hchild, Option.bind_some, ih]

/-- The answer to a merge of children is seen as one to a merge of them or of none, as one
to an overwrite, or not at all. -/
theorem operationFor_ackUserWrite_merge (hl : l.Pairwise fun d e => d.1 ≠ e.1)
    (hvp : FKey.priority ∉ vp) (revert : Bool) :
  (∃ rest l', l'.Sublist l ∧ rest ⊆ p
      ∧ operationFor vp (.ackUserWrite p (ofChildren (l.map fun e => (e.1, true))) revert :
          FOperation V)
        = some (.ackUserWrite rest (ofChildren (l'.map fun e => (e.1, true))) revert)
      ∧ (mergeWrites p l).filterMap (FNode.part vp) = mergeWrites rest l')
    ∨ (∃ c, operationFor vp (.ackUserWrite p (ofChildren (l.map fun e => (e.1, true))) revert :
          FOperation V)
        = some (.ackUserWrite [] (.node (some true) []) revert)
      ∧ (mergeWrites p l).filterMap (FNode.part vp) = [([], c)])
    ∨ (operationFor vp (.ackUserWrite p (ofChildren (l.map fun e => (e.1, true))) revert :
          FOperation V) = none
      ∧ (mergeWrites p l).filterMap (FNode.part vp) = [])
  := by
  induction vp generalizing p with
  | nil =>
    left
    refine ⟨p, l, List.Sublist.refl l, List.Subset.refl p, rfl, ?_⟩
    have hpart : FNode.part ([] : List FKey) = (some : List FKey × FNode V → _) := by
      funext w
      rw [FNode.part]
    rw [hpart, List.filterMap_some]
  | cons k vp ih =>
    rw [List.mem_cons, not_or] at hvp
    cases p with
    | cons j p =>
      rcases eq_or_ne k j with rfl | hne
      · rw [operationFor_of_eq rfl, operationForChild, Option.bind_some,
          mergeWrites_cons_part_self]
        rcases ih (p := p) hvp.2 with ⟨rest, l', hsub, hrest, hfor, hpart⟩ | h | h
        · left
          exact ⟨rest, l', hsub, List.subset_cons_of_subset k hrest, hfor, hpart⟩
        · right
          left
          exact h
        · right
          right
          exact h
      · right
        right
        exact ⟨operationFor_of_ne rfl hne, mergeWrites_cons_part_of_ne hne⟩
    | nil =>
      have hsubtree : (ofChildren (l.map fun e => (e.1, true))).subtreeAtPath [k]
          = ((Assoc.lookup FKey.stringComparator l k).map
              fun _ => FImmutableTree.node (some true) []).getD .empty := by
        have hget : (ofChildren (l.map fun e => (e.1, true))).get k
            = (Assoc.lookup FKey.stringComparator l k).map
                fun _ => FImmutableTree.node (some true) [] := by
          rw [FImmutableTree.get, ofChildren, FImmutableTree.children, List.map_map,
            ← Assoc.lookup_map (fun _ => FImmutableTree.node (some true) [])]
          rfl
        rw [FImmutableTree.subtreeAtPath, hget]
        cases Assoc.lookup FKey.stringComparator l k <;> rfl
      have hchild : operationForChild
            (.ackUserWrite [] (ofChildren (l.map fun e => (e.1, true))) revert : FOperation V) k
          = some (.ackUserWrite [] ((ofChildren (l.map fun e => (e.1, true))).subtreeAtPath [k])
              revert) := rfl
      rw [operationFor_of_nil rfl, hchild, hsubtree, Option.bind_some, mergeWrites_part hl]
      cases Assoc.lookup FKey.stringComparator l k with
      | none =>
        left
        exact ⟨[], [], List.nil_sublist l, List.Subset.refl [],
          operationFor_ackUserWrite_empty vp revert, rfl⟩
      | some c =>
        right
        left
        refine ⟨c.getChild vp, ?_, rfl⟩
        have hvalue : (FImmutableTree.node (some true) []).value.isSome = true := rfl
        have hack := operationFor_ackUserWrite (p := []) (c := c) hvp.2 hvalue revert
        rw [FNode.part_root] at hack
        exact hack

end FOperation

/-! ## What the views are to show -/

namespace FWriteTree

variable {p : List FKey} {ws : List (List FKey × FNode V)}

/-- The part at a path of writes layered one after the other is layered of their parts. -/
theorem childCompoundWriteAtPath_replay {cw : FCompoundWrite V} (hcw : cw.Wf)
    (hp : FKey.priority ∉ p) (hws : ∀ w ∈ ws, w.2.Wf ∧ FKey.priority ∉ w.1) :
  childCompoundWriteAtPath ((FCompoundWrite.overwrite V).replay cw ws) p
    = (FCompoundWrite.overwrite V).replay (cw.childCompoundWriteAtPath p)
        (ws.filterMap (FNode.part p))
  := by
  induction ws generalizing cw with
  | nil => rfl
  | cons w ws ih =>
    rw [List.forall_mem_cons] at hws
    have hfirst := childCompoundWriteAtPath_addWrite hcw hws.1.1 hp hws.1.2
    have hput : (FCompoundWrite.overwrite V).replay cw (w :: ws)
        = (FCompoundWrite.overwrite V).replay (cw.addWrite w.2 w.1) ws := rfl
    rw [hput, ih (hcw.addWrite hws.1.1 w.1) hws.2, List.filterMap_cons, hfirst]
    cases FNode.part p w with
    | none => rfl
    | some u => rfl

theorem childCompoundWriteAtPath_empty (p : List FKey) :
  childCompoundWriteAtPath (emptyWrite : FCompoundWrite V) p = emptyWrite
  := by
  cases p with
  | nil => rfl
  | cons k p => rfl

/-- From every path, the parts of the pending writes are seen. -/
theorem sees {tree : FWriteTree V} {n : FNode V}
    (hlayered : tree.visibleWrites = (FCompoundWrite.overwrite V).replay emptyWrite ws)
    (hn : n.Under ws) (hws : ∀ w ∈ ws, w.2.Wf) (hp : FKey.priority ∉ p) :
  FWriteTreeRef.Sees ⟨p, tree⟩ (ws.filterMap (FNode.part p))
  := by
  refine ⟨?_, hp, (hn.part hp hws).2, ?_⟩
  · dsimp only
    rw [hlayered]
    apply wf_replay wf_empty hws
  · dsimp only
    have hreplay : childCompoundWriteAtPath ((FCompoundWrite.overwrite V).replay emptyWrite ws) p
        = (FCompoundWrite.overwrite V).replay (childCompoundWriteAtPath emptyWrite p)
            (ws.filterMap (FNode.part p)) :=
      childCompoundWriteAtPath_replay wf_empty hp
        fun w hw => ⟨hws w hw, (hn.clear w hw).priority_notMem⟩
    rw [hlayered, hreplay, childCompoundWriteAtPath_empty]

end FWriteTree

/-! ## Operations on a view that shows what it is to show -/

namespace FViewProcessor

open FOperation (mergeWrites)

variable [DecidableEq V] {ref : FWriteTreeRef V} {as ws : List (List FKey × FNode V)}
  {m n c : FNode V} {p : List FKey} {l : List (FKey × FNode V)}

/-- The user overwrites data that is shown. -/
theorem carries_userOverwrite (hm : m.Wf) (hc : c.Wf) (hp : FKey.priority ∉ p) :
  Carries (.overwrite true p c) ref m n (m.updateChild p c) n
  := by
  have hupdates : ∀ serverCache,
      Updates (applyUserOverwriteTo (full m n) p c ref serverCache) m (m.updateChild p c) n :=
    fun serverCache => updates_applyUserOverwriteTo hm hc hp serverCache
  apply carries_of_updates hm (hm.updateChild p hc) hupdates
  intro serverCache
  rfl

/-- The user merges children into data that is shown. -/
theorem carries_userMerge (hm : m.Wf) (hl : Assoc.Ascending FKey.stringComparator l)
    (hwf : ∀ e ∈ l, e.2.Wf) (hp : ∀ e ∈ l, FKey.priority ∉ p ++ [e.1]) :
  Carries (.merge true p (ofChildren l)) ref m n
    ((FNode.overwrite V).replay m (mergeWrites p l)) n
  := by
  have hwrites : (ofChildren l).forEach.map (fun e => (p ++ e.1, e.2)) = mergeWrites p l := by
    rw [forEach_ofChildren, List.map_map]
    rfl
  have hupdates : ∀ serverCache,
      Updates (applyUserMergeTo (full m n) p (ofChildren l) ref serverCache) m
        ((FNode.overwrite V).replay m (mergeWrites p l)) n := by
    intro serverCache
    rw [← hwrites]
    apply updates_applyUserMergeTo hm
    · intro d hd
      rw [forEach_ofChildren] at hd
      obtain ⟨e, he, rfl⟩ := List.mem_map.mp hd
      exact ⟨hwf e he, hp e he⟩
    · rw [forEach_ofChildren, List.pairwise_map]
      apply hl.keys_ne.imp
      intro d e hne
      simp [List.prefix_append_right_inj, hne, hne.symm]
  have hall : ∀ w ∈ mergeWrites p l, w.2.Wf := by
    intro w hw
    obtain ⟨e, he, rfl⟩ := List.mem_map.mp hw
    apply hwf e he
  apply carries_of_updates hm (hm.replay hall) hupdates
  intro serverCache
  rfl

/-- The server overwrites data. -/
theorem carries_serverOverwrite (h : ref.Sees ws) (hn : n.Under ws) (hc : c.Wf)
    (hp : FKey.priority ∉ p) (hn' : (n.updateChild p c).Under ws) :
  Carries (.overwrite false p c) ref ((FNode.overwrite V).replay n ws) n
    ((FNode.overwrite V).replay (n.updateChild p c) ws) (n.updateChild p c)
  := by
  have hupdates : ∀ _ : Option (FNode V),
      Updates (applyServerOverwriteTo (full ((FNode.overwrite V).replay n ws) n) p c ref)
        ((FNode.overwrite V).replay n ws) ((FNode.overwrite V).replay (n.updateChild p c) ws)
        (n.updateChild p c) :=
    fun _ => updates_applyServerOverwriteTo h hn hc hp hn'
  apply carries_of_updates (hn.wf.replay h.writes) (hn'.wf.replay h.writes) hupdates
  intro serverCache
  rfl

/-- The server merges children. -/
theorem carries_serverMerge (h : ref.Sees ws) (hn : n.Under ws)
    (hl : Assoc.Ascending FKey.stringComparator l) (hwf : ∀ e ∈ l, e.2.Wf)
    (hmerge : n.Under (mergeWrites p l))
    (hn' : ((FNode.overwrite V).replay n (mergeWrites p l)).Under ws) :
  Carries (.merge false p (ofChildren l)) ref ((FNode.overwrite V).replay n ws) n
    ((FNode.overwrite V).replay ((FNode.overwrite V).replay n (mergeWrites p l)) ws)
    ((FNode.overwrite V).replay n (mergeWrites p l))
  := by
  obtain ⟨x, hover⟩ := exists_overwrites hl hwf hmerge
  have hupdates : ∀ _ : Option (FNode V), Updates
        (applyServerMergeTo (full ((FNode.overwrite V).replay n ws) n) p (ofChildren l) ref)
        ((FNode.overwrite V).replay n ws)
        ((FNode.overwrite V).replay ((FNode.overwrite V).replay n (mergeWrites p l)) ws)
        ((FNode.overwrite V).replay n (mergeWrites p l)) :=
    fun _ => updates_applyServerMergeTo h hn hover hn'
  apply carries_of_updates (hn.wf.replay h.writes) (hn'.wf.replay h.writes) hupdates
  intro serverCache
  rfl

/-- The server has sent all data. -/
theorem carries_listenComplete (h : ref.Sees ws) (hn : n.Under ws) (hp : FKey.priority ∉ p) :
  Carries (.listenComplete p) ref ((FNode.overwrite V).replay n ws) n
    ((FNode.overwrite V).replay n ws) n
  := by
  have hm := hn.wf.replay h.writes
  have hupdates : ∀ _ : Option (FNode V), Updates
        (listenComplete (full ((FNode.overwrite V).replay n ws) n) p ref)
        ((FNode.overwrite V).replay n ws) ((FNode.overwrite V).replay n ws) n :=
    fun _ => updates_listenComplete h hn hp
  apply carries_of_updates hm hm hupdates
  intro serverCache
  rfl

section Answer

variable (h : ref.Sees ws) (hn : n.Under (as ++ ws)) (has : ∀ a ∈ as, a.2.Wf)

include h hn has

omit [DecidableEq V] in
/-- Without writes at a path and below it, the node shown lacks at most what is there. -/
theorem behind_replay (hbelow : ∀ a ∈ as, p <+: a.1) (hp : FKey.priority ∉ p) :
  Behind ws p ((FNode.overwrite V).replay n (as ++ ws)) n
  := by
  have hwf : ∀ w ∈ as ++ ws, w.2.Wf := List.forall_mem_append.mpr ⟨has, h.writes⟩
  exact ⟨hn.replay_append_of_shadowed hwf hbelow hp, hn.updateChild_replay_append hwf hbelow hp⟩

theorem carries_revert (hbelow : ∀ a ∈ as, p <+: a.1) (hp : FKey.priority ∉ p)
    (affectedTree : FImmutableTree Bool) :
  Carries (.ackUserWrite p affectedTree true) ref ((FNode.overwrite V).replay n (as ++ ws)) n
    ((FNode.overwrite V).replay n ws) n
  := by
  have hm := hn.wf.replay (List.forall_mem_append.mpr ⟨has, h.writes⟩)
  have hupdates : ∀ _ : Option (FNode V), Updates
        (revertUserWriteOn (full ((FNode.overwrite V).replay n (as ++ ws)) n) p ref)
        ((FNode.overwrite V).replay n (as ++ ws)) ((FNode.overwrite V).replay n ws) n :=
    fun _ => updates_revertUserWriteOn h hn.right hm hp (behind_replay h hn has hbelow hp)
  apply carries_of_updates hm (hn.wf.replay h.writes) hupdates
  intro serverCache
  rfl

/-- An overwrite is answered. -/
theorem carries_ackUserWrite (hbelow : ∀ a ∈ as, p <+: a.1) (hp : FKey.priority ∉ p)
    {affectedTree : FImmutableTree Bool} (haffected : affectedTree.value.isSome = true)
    (revert : Bool) :
  Carries (.ackUserWrite p affectedTree revert) ref ((FNode.overwrite V).replay n (as ++ ws)) n
    ((FNode.overwrite V).replay n ws) n
  := by
  cases revert with
  | true => apply carries_revert h hn has hbelow hp
  | false =>
    have hm := hn.wf.replay (List.forall_mem_append.mpr ⟨has, h.writes⟩)
    have hupdates : ∀ _ : Option (FNode V), Updates
          (ackUserWriteOn (full ((FNode.overwrite V).replay n (as ++ ws)) n) p affectedTree ref)
          ((FNode.overwrite V).replay n (as ++ ws)) ((FNode.overwrite V).replay n ws) n :=
      fun _ => updates_ackUserWriteOn_overwrite h hn.right hm hp
        (behind_replay h hn has hbelow hp) haffected
    apply carries_of_updates hm (hn.wf.replay h.writes) hupdates
    intro serverCache
    rfl

end Answer

/-- A merge is answered. -/
theorem carries_ackUserWrite_merge (h : ref.Sees ws)
    (hl : Assoc.Ascending FKey.stringComparator l) (hwf : ∀ e ∈ l, e.2.Wf)
    (hn : n.Under (mergeWrites p l ++ ws)) (hp : FKey.priority ∉ p) (revert : Bool) :
  Carries (.ackUserWrite p (ofChildren (l.map fun e => (e.1, true))) revert) ref
    ((FNode.overwrite V).replay n (mergeWrites p l ++ ws)) n ((FNode.overwrite V).replay n ws) n
  := by
  have has : ∀ a ∈ mergeWrites p l, a.2.Wf := by
    intro a ha
    obtain ⟨e, he, rfl⟩ := List.mem_map.mp ha
    apply hwf e he
  cases revert with
  | true =>
    apply carries_revert h hn has _ hp
    intro a ha
    obtain ⟨e, he, rfl⟩ := List.mem_map.mp ha
    exact List.prefix_append _ _
  | false =>
    have hm := hn.wf.replay (List.forall_mem_append.mpr ⟨has, h.writes⟩)
    have hupdates : ∀ _ : Option (FNode V), Updates
          (ackUserWriteOn (full ((FNode.overwrite V).replay n (mergeWrites p l ++ ws)) n) p
            (ofChildren (l.map fun e => (e.1, true))) ref)
          ((FNode.overwrite V).replay n (mergeWrites p l ++ ws)) ((FNode.overwrite V).replay n ws)
          n :=
      fun _ => updates_ackUserWriteOn_merge h hl hwf hn hp
    apply carries_of_updates hm (hn.wf.replay h.writes) hupdates
    intro serverCache
    rfl

end FViewProcessor

end ForDream

import ForDream.Database.Processor

/-!
# Merges

A merge of the server overwrites the children it writes one after the other, those that
are there first.  When a merge of the user is acknowledged, the data of the server under
its paths is merged once more, now that the merge does not shadow it.

Merges are of nodes under the keys of one node, as they are made by updating children.
-/

namespace ForDream

open FCompoundWrite

variable {V : Type*}

namespace FNode

variable {n c : FNode V} {as ws : List (List FKey × FNode V)} {p : List FKey}

/-- The node with other children under given keys. -/
def updateChildren (n : FNode V) (l : List FKey) (x : FKey → FNode V) : FNode V :=
  (FNode.overwrite V).replay n (l.map fun k => ([k], x k))

section Children

variable {l l' : List FKey} {x : FKey → FNode V} (hx : ∀ k ∈ l, (x k).Wf ∧ k ≠ FKey.priority)

include hx

/-- The children under the given keys are the other ones, and those under other keys are
as they were. -/
theorem updateChildren_spec (hn : n.Wf) :
  (n.updateChildren l x).Wf ∧ (n.Open → (n.updateChildren l x).Open)
    ∧ ∀ j ≠ FKey.priority, (n.updateChildren l x).getImmediateChild j
        = if j ∈ l then x j else n.getImmediateChild j
  := by
  induction l generalizing n with
  | nil => exact ⟨hn, id, fun _ _ => by simp [updateChildren]⟩
  | cons k l ih =>
    rw [List.forall_mem_cons] at hx
    have hfirst : n.updateChildren (k :: l) x
        = (n.updateImmediateChild k (x k)).updateChildren l x := by
      have hkey := updateChild_cons n hx.1.1 hx.1.2 []
      rw [updateChild_nil] at hkey
      rw [← hkey]
      rfl
    obtain ⟨hwf, hopen, hget⟩ := ih hx.2 (hn.updateImmediateChild k hx.1.1)
    rw [hfirst]
    refine ⟨hwf, fun ho => hopen (ho.updateImmediateChild hx.1.2 _), ?_⟩
    intro j hj
    rw [hget j hj]
    rcases eq_or_ne j k with rfl | hne
    · rw [getImmediateChild_update_self hn hx.1.1 hj]
      simp
    · rw [getImmediateChild_update_of_ne hn hx.1.2 hj hne]
      simp [hne]

/-- The order of the keys does not matter. -/
theorem updateChildren_perm (hn : n.Wf) (ho : n.Open) (hperm : l.Perm l') :
  n.updateChildren l x = n.updateChildren l' x
  := by
  have hx' : ∀ k ∈ l', (x k).Wf ∧ k ≠ FKey.priority := fun k hk => hx k (hperm.mem_iff.mpr hk)
  obtain ⟨hwf, hopen, hget⟩ := updateChildren_spec hx hn
  obtain ⟨hwf', hopen', hget'⟩ := updateChildren_spec hx' hn
  apply (hopen ho).ext (hopen' ho) hwf hwf'
  intro j hj
  rw [hget j hj, hget' j hj]
  simp only [hperm.mem_iff]

omit hx in
/-- Writes below a key write the child under the key. -/
theorem replay_key {k : FKey} (hn : n.Wf) (ho : n.Open) (hk : k ≠ FKey.priority)
    (hws : ∀ w ∈ ws, w.2.Wf) :
  (FNode.overwrite V).replay n (ws.map fun w => (k :: w.1, w.2))
    = n.updateChildren [k] fun _ => (FNode.overwrite V).replay (n.getImmediateChild k) ws
  := by
  have hone : ∀ c : FNode V, c.Wf →
      n.updateChildren [k] (fun _ => c) = n.updateImmediateChild k c :=
    fun c hc => updateChild_singleton n hc hk
  rw [hone _ ((hn.getImmediateChild k).replay hws)]
  clear hone
  induction ws generalizing n with
  | nil => exact (updateImmediateChild_getImmediateChild hn hk).symm
  | cons w ws ih =>
    rw [List.forall_mem_cons] at hws
    have hfirst := (hn.getImmediateChild k).updateChild w.1 hws.1
    rw [List.map_cons, replay_cons, updateChild_cons n hws.1 hk,
      ih (hn.updateImmediateChild k hfirst) (ho.updateImmediateChild hk _) hws.2,
      getImmediateChild_update_self hn hfirst hk,
      updateImmediateChild_self hn ho hk hfirst (hfirst.replay hws.2), replay_cons]

/-- If the data is open above writes with all children and with none, it is with some. -/
theorem Under.updateChildren (h : n.Under ws) (h' : (n.updateChildren l x).Under ws)
    (hl : l' ⊆ l) :
  (n.updateChildren l' x).Under ws
  := by
  have hx' : ∀ k ∈ l', (x k).Wf ∧ k ≠ FKey.priority := fun k hk => hx k (hl hk)
  obtain ⟨-, -, hget⟩ := updateChildren_spec hx h.wf
  obtain ⟨hwf', hopen', hget'⟩ := updateChildren_spec hx' h.wf
  refine ⟨hwf', ?_⟩
  intro w hw
  have hclear := h.clear w hw
  have hclear' := h'.clear w hw
  generalize w.1 = q at hclear hclear' ⊢
  cases q with
  | nil => trivial
  | cons j q =>
    obtain ⟨ho, hj, hrest⟩ := hclear
    obtain ⟨-, -, hrest'⟩ := hclear'
    refine ⟨hopen' ho, hj, ?_⟩
    rw [hget j hj] at hrest'
    rw [hget' j hj]
    split
    case isTrue hmem =>
      rw [if_pos (hl hmem)] at hrest'
      exact hrest'
    case isFalse => exact hrest

end Children

end FNode

namespace FImmutableTree

variable {α : Type*}

/-- The tree with values under keys. -/
def ofChildren (l : List (FKey × α)) : FImmutableTree α :=
  .node none (l.map fun e => (e.1, .node (some e.2) []))

theorem forEach_ofChildren (l : List (FKey × α)) :
  (ofChildren l).forEach = l.map fun e => ([e.1], e.2)
  := by
  rw [ofChildren, forEach, forEachPathSoFar, Option.map_none, Option.toList_none, List.append_nil]
  induction l with
  | nil => rfl
  | cons e l ih =>
    rw [List.map_cons, forEachChildPathSoFar, ih]
    rfl

end FImmutableTree

open FImmutableTree (ofChildren forEach_ofChildren)

namespace FCompoundWrite

variable {n : FNode V} {l : List (FKey × FNode V)} {xs : List (List FKey × FNode V)} {k : FKey}

theorem wf_ofChildren (hl : Assoc.Ascending FKey.stringComparator l) (hwf : ∀ e ∈ l, e.2.Wf) :
  Wf (ofChildren l)
  := by
  refine .children ?_ ?_ ?_
  · rw [Assoc.Ascending, List.pairwise_map]
    exact hl
  · intro e he
    obtain ⟨d, hd, rfl⟩ := List.mem_map.mp he
    rfl
  · intro e he
    obtain ⟨d, hd, rfl⟩ := List.mem_map.mp he
    exact .value (hwf d hd)

/-- Writes of children in the order of their keys, one after the other. -/
theorem replay_children (hl : Assoc.Ascending FKey.stringComparator l)
    (hwf : ∀ e ∈ l, e.2.Wf) :
  (FCompoundWrite.overwrite V).replay emptyWrite (l.map fun e => ([e.1], e.2)) = ofChildren l
  := by
  induction l using List.reverseRecOn with
  | nil => rfl
  | append_singleton l e ih =>
    rw [Assoc.Ascending, List.pairwise_append] at hl
    rw [List.forall_mem_append] at hwf
    have hlast : ∀ d ∈ l, FKey.stringComparator d.1 e.1 = .lt :=
      fun d hd => hl.2.2 d hd e (List.mem_singleton_self e)
    rw [List.map_append, Overwrite.replay_append, ih hl.1 hwf.1]
    have hadd : (FCompoundWrite.overwrite V).replay (ofChildren l) ([e].map fun e => ([e.1], e.2))
        = addWrite (ofChildren l) e.2 [e.1] := rfl
    rw [hadd, ofChildren, addWrite_children (wf_ofChildren hl.1 hwf.1), Assoc.insert_eq_append]
    · rw [addWrite_nil, ofChildren, List.map_append]
      rfl
    · intro d hd
      obtain ⟨f, hf, rfl⟩ := List.mem_map.mp hd
      apply hlast f hf

theorem wf_child {w : FCompoundWrite V} (hw : w.Wf) (hempty : w.isEmpty = false) :
  Wf (.node none [(k, w)])
  := by
  refine .children (List.pairwise_singleton _ _) ?_ ?_
  · simpa using hempty
  · simpa using hw

/-- A write below the one child there is. -/
theorem addWrite_child {w : FCompoundWrite V} (hw : w.Wf) (hempty : w.isEmpty = false)
    (c : FNode V) (q : List FKey) :
  addWrite (.node none [(k, w)]) c (k :: q) = .node none [(k, w.addWrite c q)]
  := by
  have hchild : (FImmutableTree.node none [(k, w)] : FCompoundWrite V).child k = w := by
    rw [FImmutableTree.child, Assoc.lookupD, FImmutableTree.children, Assoc.lookup_cons_self]
    rfl
  rw [addWrite_children (wf_child hw hempty), hchild, Assoc.insert, Assoc.below, Assoc.above]
  simp [Comparator.refl]

/-- Writes below one child, one after the other. -/
theorem replay_child {w : FCompoundWrite V} (hw : w.Wf) (hempty : w.isEmpty = false)
    (hwf : ∀ v ∈ xs, v.2.Wf) :
  (FCompoundWrite.overwrite V).replay (.node none [(k, w)]) (xs.map fun v => (k :: v.1, v.2))
    = .node none [(k, (FCompoundWrite.overwrite V).replay w xs)]
  := by
  induction xs generalizing w with
  | nil => rfl
  | cons v xs ih =>
    rw [List.forall_mem_cons] at hwf
    have hput : (FCompoundWrite.overwrite V).put (.node none [(k, w)]) (k :: v.1) v.2
        = .node none [(k, w.addWrite v.2 v.1)] := addWrite_child hw hempty v.2 v.1
    rw [List.map_cons, Overwrite.replay_cons, hput,
      ih (hw.addWrite hwf.1 v.1) (isEmpty_addWrite w v.2 v.1) hwf.2]
    rfl

theorem replay_below (hwf : ∀ v ∈ xs, v.2.Wf) (hne : xs ≠ []) :
  (FCompoundWrite.overwrite V).replay emptyWrite (xs.map fun v => (k :: v.1, v.2))
    = .node none [(k, (FCompoundWrite.overwrite V).replay emptyWrite xs)]
  := by
  cases xs with
  | nil => contradiction
  | cons v xs =>
    rw [List.forall_mem_cons] at hwf
    have hput : (FCompoundWrite.overwrite V).put emptyWrite (k :: v.1) v.2
        = .node none [(k, (emptyWrite : FCompoundWrite V).addWrite v.2 v.1)] :=
      addWrite_children wf_empty
    have hrest : (FCompoundWrite.overwrite V).replay
          (.node none [(k, (emptyWrite : FCompoundWrite V).addWrite v.2 v.1)])
          (xs.map fun v => (k :: v.1, v.2))
        = .node none [(k, (FCompoundWrite.overwrite V).replay
            ((emptyWrite : FCompoundWrite V).addWrite v.2 v.1) xs)] :=
      replay_child (wf_empty.addWrite hwf.1 v.1) (isEmpty_addWrite _ v.2 v.1) hwf.2
    rw [List.map_cons, Overwrite.replay_cons, hput]
    exact hrest

end FCompoundWrite

namespace FViewProcessor

open FViewCache FIndexedFilter FChildChangeAccumulator

variable {ref : FWriteTreeRef V} {ws : List (List FKey × FNode V)} {m n c : FNode V}
  {p : List FKey} {k : FKey} [DecidableEq V]

/-! ## Merges of the server -/

/-- The children a merge writes, in the order the server data has them or not. -/
def visited (n : FNode V) (children : List (FKey × FCompoundWrite V)) :
    List (FKey × FCompoundWrite V) :=
  children.filter (fun e => n.hasChild e.1) ++ children.filter fun e => !n.hasChild e.1

/-- The children to be overwritten one after the other so that all writes are made. -/
structure Overwrites (n : FNode V) (xs : List (List FKey × FNode V))
    (kids : List (FKey × FCompoundWrite V)) (x : FKey → FNode V) : Prop where
  nodup : kids.Pairwise fun d e => d.1 ≠ e.1
  child : ∀ e ∈ kids, e.1 ≠ FKey.priority ∧ (x e.1).Wf
    ∧ e.2.applyToNode (n.getImmediateChild e.1) = x e.1
  isOpen : kids ≠ [] → n.Open
  replay : n.updateChildren (kids.map Prod.fst) x = (FNode.overwrite V).replay n xs
  key : ∀ w ∈ xs, ∃ e ∈ kids, [e.1] <+: w.1

omit [DecidableEq V] in
theorem Overwrites.keys {xs : List (List FKey × FNode V)}
    {kids : List (FKey × FCompoundWrite V)} {x : FKey → FNode V} (h : Overwrites n xs kids x) :
  ∀ k ∈ kids.map Prod.fst, (x k).Wf ∧ k ≠ FKey.priority
  := by
  intro k hk
  obtain ⟨e, he, rfl⟩ := List.mem_map.mp hk
  exact ⟨(h.child e he).2.1, (h.child e he).1⟩

omit [DecidableEq V] in
/-- A merge of children below a path overwrites children: those it writes, or the one its
path leads to. -/
theorem exists_overwrites {l : List (FKey × FNode V)}
    (hl : Assoc.Ascending FKey.stringComparator l) (hwf : ∀ e ∈ l, e.2.Wf)
    (hn : n.Under (l.map fun e => (p ++ [e.1], e.2))) :
  ∃ x, Overwrites n (l.map fun e => (p ++ [e.1], e.2)) (actualMerge p (ofChildren l)).children x
  := by
  have hopen : l ≠ [] → n.Open := by
    intro hne
    obtain ⟨e, he⟩ := List.exists_mem_of_ne_nil l hne
    have hclear := hn.clear _ (List.mem_map.mpr ⟨e, he, rfl⟩)
    dsimp only at hclear
    cases p with
    | nil => exact hclear.1
    | cons j p => exact hclear.1
  cases p with
  | nil =>
    -- the children that are written are overwritten
    have hx : ∀ e ∈ l, Assoc.lookupD FKey.stringComparator l e.1 FNode.emptyNode = e.2 := by
      intro e he
      rw [Assoc.lookupD, (hl.mem_iff_lookup FKey.eq_of_stringComparator).mp he, Option.getD_some]
    have hkids : (actualMerge [] (ofChildren l)).children
        = l.map fun e => (e.1, .node (some e.2) []) := rfl
    rw [hkids]
    refine ⟨fun k => Assoc.lookupD FKey.stringComparator l k FNode.emptyNode, ?_, ?_, ?_, ?_, ?_⟩
    · rw [List.pairwise_map]
      exact hl.keys_ne
    · intro d hd
      obtain ⟨e, he, rfl⟩ := List.mem_map.mp hd
      have hclear := hn.clear _ (List.mem_map.mpr ⟨e, he, rfl⟩)
      dsimp only
      rw [hx e he]
      refine ⟨hclear.2.1, hwf e he, ?_⟩
      rw [applyToNode, applySubtreeWrite, FNode.updateChild_nil]
    · intro hne
      apply hopen
      rintro rfl
      contradiction
    · rw [FNode.updateChildren, List.map_map, List.map_map]
      congr 1
      apply List.map_congr_left
      intro e he
      dsimp only [Function.comp]
      rw [hx e he, List.nil_append]
    · intro w hw
      obtain ⟨e, he, rfl⟩ := List.mem_map.mp hw
      exact ⟨_, List.mem_map.mpr ⟨e, he, rfl⟩, List.prefix_refl _⟩
  | cons j p =>
    have hbelow : (l.map fun e => (j :: p ++ [e.1], e.2))
        = (l.map fun e => (p ++ [e.1], e.2)).map fun v => (j :: v.1, v.2) := by
      rw [List.map_map]
      rfl
    have hwf' : ∀ v ∈ l.map (fun e => (p ++ [e.1], e.2)), v.2.Wf := by
      intro v hv
      obtain ⟨e, he, rfl⟩ := List.mem_map.mp hv
      apply hwf e he
    have hmerge : actualMerge (j :: p) (ofChildren l)
        = (FCompoundWrite.overwrite V).replay emptyWrite ((l.map fun e => (p ++ [e.1], e.2)).map fun v => (j :: v.1, v.2)) := by
      rw [actualMerge, if_neg (by simp), addCompoundWrite, forEach_ofChildren, ← hbelow,
        Overwrite.replay, List.foldl_map, List.foldl_map]
      rfl
    rcases eq_or_ne l [] with rfl | hne
    · refine ⟨fun _ => FNode.emptyNode, .nil, ?_, ?_, rfl, ?_⟩
      · intro e he
        cases he
      · intro hne
        exact absurd rfl hne
      · intro w hw
        cases hw
    · -- the child the path leads to is overwritten
      have hne' : l.map (fun e => (p ++ [e.1], e.2)) ≠ [] := by simpa using hne
      have ho := hopen hne
      obtain ⟨e₀, he₀⟩ := List.exists_mem_of_ne_nil l hne
      have hj : j ≠ FKey.priority := (hn.clear _ (List.mem_map.mpr ⟨e₀, he₀, rfl⟩)).2.1
      have hclear : ∀ v ∈ l.map (fun e => (p ++ [e.1], e.2)),
          v.2.Wf ∧ (n.getImmediateChild j).Clear v.1 := by
        intro v hv
        refine ⟨hwf' v hv, ?_⟩
        obtain ⟨e, he, rfl⟩ := List.mem_map.mp hv
        exact (hn.clear _ (List.mem_map.mpr ⟨e, he, rfl⟩)).2.2
      have hchild := hn.wf.getImmediateChild j
      obtain ⟨hoverlay, hfits⟩ :=
        FWriteTree.overlay_replay wf_empty (.empty (n.getImmediateChild j)) hchild hclear
      rw [overlay_empty] at hoverlay
      rw [hmerge, replay_below hwf' hne']
      refine ⟨fun _ => (FNode.overwrite V).replay (n.getImmediateChild j)
        (l.map fun e => (p ++ [e.1], e.2)), List.pairwise_singleton _ _, ?_, fun _ => ho, ?_, ?_⟩
      · intro e he
        obtain rfl := List.mem_singleton.mp he
        refine ⟨hj, hchild.replay hwf', ?_⟩
        rw [← hoverlay]
        apply applyToNode_eq_overlay (FWriteTree.wf_replay wf_empty hwf') hchild hfits
      · rw [hbelow, FNode.replay_key hn.wf ho hj hwf']
        rfl
      · intro w hw
        obtain ⟨e, he, rfl⟩ := List.mem_map.mp hw
        exact ⟨_, List.mem_singleton_self _, List.prefix_append _ _⟩

/-- A merge of the server overwrites the children it writes, one after the other. -/
theorem applyServerMergeTo_full (changes : FCompoundWrite V)
    (accumulator : Option (FChildChangeAccumulator V)) :
  applyServerMergeTo (full m n) p changes ref accumulator
    = (visited n (actualMerge p changes).children).foldlM
        (fun cur e => applyServerOverwriteTo cur.1 [e.1]
          (e.2.applyToNode (n.getImmediateChild e.1)) ref cur.2) (full m n, accumulator)
  := by
  simp only [visited, List.foldlM_append, List.foldlM_filter, applyServerMergeTo,
    cachedServerSnap_full, isCompleteForChild_full, Bool.not_true, Bool.false_eq_true, and_false,
    if_false, Bool.false_and, Bool.not_false, and_true]
  rfl

omit [DecidableEq V] in
theorem visited_perm (n : FNode V) (children : List (FKey × FCompoundWrite V)) :
  (visited n children).Perm children
  := List.filter_append_perm _ _

omit [DecidableEq V] in
theorem visited_apart {children : List (FKey × FCompoundWrite V)}
    (hnodup : children.Pairwise fun d e => d.1 ≠ e.1) :
  (visited n children).Pairwise fun d e => ¬ [d.1] <+: [e.1] ∧ ¬ [e.1] <+: [d.1]
  := by
  have hvisited : (visited n children).Pairwise fun d e => d.1 ≠ e.1 :=
    ((visited_perm n children).pairwise_iff fun h => h.symm).mpr hnodup
  apply hvisited.imp
  intro d e hne
  simp [hne, hne.symm]

omit [DecidableEq V] in
/-- After one more child has been overwritten by the server, the data to be shown has that
child as it is to be shown in the end. -/
theorem replay_updateChild_key (h : ref.Sees ws) (hn : n.Under ws) (hc : c.Wf)
    (hk : k ≠ FKey.priority) (hn' : (n.updateChild [k] c).Under ws) {n₂ : FNode V}
    (hn₂ : n₂.Under ws) (hget : n₂.getImmediateChild k = c) :
  (FNode.overwrite V).replay (n.updateChild [k] c) ws
    = ((FNode.overwrite V).replay n ws).updateChild [k]
        (((FNode.overwrite V).replay n₂ ws).getChild [k])
  := by
  have hp : FKey.priority ∉ [k] := by simpa using hk.symm
  have hsame : ((FNode.overwrite V).replay n₂ ws).getChild [k]
      = ((FNode.overwrite V).replay (n.updateChild [k] c) ws).getChild [k] := by
    rw [(h.getChild_replay hn₂ hp).1, (h.getChild_replay hn' hp).1,
      FNode.getChild_updateChild hn.wf hp hc, FNode.getChild_cons n₂ hk, FNode.getChild_nil, hget]
  obtain ⟨hhidden, hshown⟩ := replay_updateChild h hn hc hp hn'
  rw [hsame]
  by_cases hshadow : ∃ w ∈ ws, w.1 <+: [k]
  · rw [hhidden hshadow, FNode.updateChild_getChild (hn.wf.replay h.writes) hp]
  · rw [hshown hshadow]

/-- A merge of the server leaves the view showing what it is to show. -/
theorem updates_applyServerMergeTo (h : ref.Sees ws) (hn : n.Under ws)
    {changes : FCompoundWrite V} {xs : List (List FKey × FNode V)} {x : FKey → FNode V}
    (hover : Overwrites n xs (actualMerge p changes).children x)
    (hn' : ((FNode.overwrite V).replay n xs).Under ws) :
  Updates (applyServerMergeTo (full ((FNode.overwrite V).replay n ws) n) p changes ref)
    ((FNode.overwrite V).replay n ws)
    ((FNode.overwrite V).replay ((FNode.overwrite V).replay n xs) ws)
    ((FNode.overwrite V).replay n xs)
  := by
  have hmerge : ∀ m accumulator, applyServerMergeTo (full m n) p changes ref accumulator
      = (visited n (actualMerge p changes).children).foldlM
          (fun cur e => applyServerOverwriteTo cur.1 [e.1]
            (e.2.applyToNode (n.getImmediateChild e.1)) ref cur.2) (full m n, accumulator) :=
    fun _ accumulator => applyServerMergeTo_full changes accumulator
  generalize (actualMerge p changes).children = kids at hover hmerge
  have hkeys := hover.keys
  rw [← hover.replay] at hn' ⊢
  have hperm := visited_perm n kids
  have hm := hn.wf.replay h.writes
  obtain ⟨-, -, hget'⟩ := FNode.updateChildren_spec hkeys hn.wf
  -- some of the children have been overwritten so far
  let I : FNode V → FNode V → Prop := fun m₁ n₁ =>
    ∃ l, l ⊆ kids.map Prod.fst ∧ n₁ = n.updateChildren l x
      ∧ m₁ = (FNode.overwrite V).replay n₁ ws
  have hloop : Updates (fun accumulator => (visited n kids).foldlM
        (fun cur e => applyServerOverwriteTo cur.1 [e.1]
          (e.2.applyToNode (n.getImmediateChild e.1)) ref cur.2)
        (full ((FNode.overwrite V).replay n ws) n, accumulator))
      ((FNode.overwrite V).replay n ws)
      ((FNode.overwrite V).replay ((FNode.overwrite V).replay n ws) ((visited n kids).map
        fun e => ([e.1], ((FNode.overwrite V).replay
          (n.updateChildren (kids.map Prod.fst) x) ws).getChild [e.1])))
      ((visited n kids).foldl (fun n e => n.updateChild [e.1] (x e.1)) n)
      ∧ I ((FNode.overwrite V).replay ((FNode.overwrite V).replay n ws) ((visited n kids).map
        fun e => ([e.1], ((FNode.overwrite V).replay
          (n.updateChildren (kids.map Prod.fst) x) ws).getChild [e.1])))
        ((visited n kids).foldl (fun n e => n.updateChild [e.1] (x e.1)) n) := by
    apply Updates.foldlM (I := I) _ (visited_apart hover.nodup) _ hm
    · exact ⟨[], List.nil_subset _, rfl, rfl⟩
    · intro e he
      refine ⟨(hn'.wf.replay h.writes).getChild _, ?_⟩
      simpa using (hover.child e (hperm.mem_iff.mp he)).1.symm
    · rintro e he m₁ n₁ - ⟨l, hl, rfl, rfl⟩
      have hmem := hperm.mem_iff.mp he
      obtain ⟨hk, hwf, happly⟩ := hover.child e hmem
      have hkey : e.1 ∈ kids.map Prod.fst := List.mem_map.mpr ⟨e, hmem, rfl⟩
      have hnext : (n.updateChildren l x).updateChild [e.1] (x e.1)
          = n.updateChildren (l ++ [e.1]) x := by
        rw [FNode.updateChildren, FNode.updateChildren, List.map_append, Overwrite.replay_append]
        rfl
      have hl' : l ++ [e.1] ⊆ kids.map Prod.fst := by
        apply List.append_subset.mpr ⟨hl, _⟩
        simpa using hkey
      have hn₁ := hn.updateChildren hkeys hn' hl
      have hn₂ := hn.updateChildren hkeys hn' hl'
      rw [← hnext] at hn₂
      have hchild := hget' e.1 hk
      rw [if_pos hkey] at hchild
      rw [← replay_updateChild_key h hn₁ hwf hk hn₂ hn' hchild, happly]
      refine ⟨?_, l ++ [e.1], hl', hnext, rfl⟩
      apply updates_applyServerOverwriteTo h hn₁ hwf _ hn₂
      simpa using hk.symm
  have hfinal : (visited n kids).foldl (fun n e => n.updateChild [e.1] (x e.1)) n
      = n.updateChildren (kids.map Prod.fst) x := by
    have hfold : (visited n kids).foldl (fun n e => n.updateChild [e.1] (x e.1)) n
        = n.updateChildren ((visited n kids).map Prod.fst) x := by
      rw [FNode.updateChildren, Overwrite.replay, List.map_map, List.foldl_map]
      rfl
    rcases eq_or_ne kids [] with hnil | hne
    · rw [hnil]
      rfl
    · rw [hfold,
        ← FNode.updateChildren_perm hkeys hn.wf (hover.isOpen hne) (hperm.map Prod.fst).symm]
  rw [hfinal] at hloop
  obtain ⟨hupdates, l, -, -, hshown⟩ := hloop
  rw [hshown] at hupdates
  intro accumulator f hf ht
  rw [hmerge]
  apply hupdates accumulator f hf ht

/-! ## Merges that are acknowledged -/

omit [DecidableEq V] in
/-- A child that is written anew is the same whatever was written before. -/
theorem getImmediateChild_replay_of_shadowed (hn : n.Wf) {as : List (List FKey × FNode V)}
    (has : ∀ a ∈ as ++ ws, a.2.Wf ∧ FKey.priority ∉ a.1) (hk : k ≠ FKey.priority)
    (hroot : ∀ w ∈ ws, w.1 ≠ []) (hshadow : ∃ w ∈ ws, w.1 <+: [k]) :
  ((FNode.overwrite V).replay n (as ++ ws)).getImmediateChild k
    = ((FNode.overwrite V).replay n ws).getImmediateChild k
  := by
  have hp : FKey.priority ∉ [k] := by simpa using hk.symm
  have hws : ∀ w ∈ ws, w.2.Wf ∧ FKey.priority ∉ w.1 :=
    fun w hw => has w (List.mem_append_right as hw)
  rw [← FNode.getChild_singleton _ hk, ← FNode.getChild_singleton _ hk,
    FNode.getChild_replay_part hn hp has, FNode.getChild_replay_part hn hp hws,
    List.filterMap_append, Overwrite.replay_append]
  apply FNode.replay_eq_of_mem_nil
  obtain ⟨⟨q, c⟩, hw, hpre⟩ := hshadow
  have hq : q = [k] := by
    cases q with
    | nil => exact absurd rfl (hroot _ hw)
    | cons j q =>
      obtain ⟨rfl, hnil⟩ := List.cons_prefix_cons.mp hpre
      rw [List.prefix_nil.mp hnil]
  refine ⟨([], c), List.mem_filterMap.mpr ⟨(q, c), hw, ?_⟩, rfl⟩
  rw [hq, FNode.part, if_pos rfl, FNode.part]

omit [DecidableEq V] in
/-- A child below which nothing was written is the same. -/
theorem getImmediateChild_replay_of_notMem (hn : n.Wf) {as : List (List FKey × FNode V)}
    (has : ∀ a ∈ as ++ ws, a.2.Wf ∧ FKey.priority ∉ a.1) (hk : k ≠ FKey.priority)
    (hkeys : ∀ a ∈ as, ∃ j ≠ k, [j] <+: a.1) :
  ((FNode.overwrite V).replay n (as ++ ws)).getImmediateChild k
    = ((FNode.overwrite V).replay n ws).getImmediateChild k
  := by
  have hp : FKey.priority ∉ [k] := by simpa using hk.symm
  have hws : ∀ w ∈ ws, w.2.Wf ∧ FKey.priority ∉ w.1 :=
    fun w hw => has w (List.mem_append_right as hw)
  have hnone : as.filterMap (FNode.part [k]) = [] := by
    rw [List.filterMap_eq_nil_iff]
    rintro ⟨q, c⟩ ha
    obtain ⟨j, hjk, hpre⟩ := hkeys _ ha
    obtain ⟨q, rfl⟩ := hpre
    rw [List.cons_append, FNode.part, if_neg hjk.symm]
  rw [← FNode.getChild_singleton _ hk, ← FNode.getChild_singleton _ hk,
    FNode.getChild_replay_part hn hp has, FNode.getChild_replay_part hn hp hws,
    List.filterMap_append, hnone, List.nil_append]

omit [DecidableEq V] in
/-- With the children below which was written as they are to be shown without the writes,
all data is as it is to be shown. -/
theorem updateChildren_replay (hn : n.Wf) {as : List (List FKey × FNode V)}
    (has : ∀ a ∈ as ++ ws, a.2.Wf ∧ FKey.priority ∉ a.1) (hroot : ∀ w ∈ ws, w.1 ≠ [])
    {l : List FKey} (ho : l ≠ [] → n.Open) (hl : ∀ k ∈ l, k ≠ FKey.priority)
    (hkeys : ∀ a ∈ as, ∃ k ∈ l, [k] <+: a.1) :
  ((FNode.overwrite V).replay n (as ++ ws)).updateChildren l
      ((FNode.overwrite V).replay n ws).getImmediateChild
    = (FNode.overwrite V).replay n ws
  := by
  have hws : ∀ w ∈ ws, w.2.Wf ∧ FKey.priority ∉ w.1 :=
    fun w hw => has w (List.mem_append_right as hw)
  have hm := hn.replay fun a ha => (has a ha).1
  have hshown := hn.replay fun w hw => (hws w hw).1
  rcases eq_or_ne l [] with rfl | hne
  · obtain rfl : as = [] := by
      rw [List.eq_nil_iff_forall_not_mem]
      intro a ha
      obtain ⟨k, hk, -⟩ := hkeys a ha
      cases hk
    rfl
  · have hne' : ∀ a ∈ as ++ ws, a.1 ≠ [] := by
      intro a ha hnil
      rcases List.mem_append.mp ha with ha | ha
      · obtain ⟨k, -, hpre⟩ := hkeys a ha
        rw [hnil] at hpre
        simp at hpre
      · exact hroot a ha hnil
    obtain ⟨hwf, hopen, hget⟩ := FNode.updateChildren_spec
      (fun k hk => ⟨hshown.getImmediateChild k, hl k hk⟩) hm
    apply (hopen ((ho hne).replay has hne')).ext ((ho hne).replay hws hroot) hwf hshown
    intro j hj
    rw [hget j hj]
    split
    case isTrue => rfl
    case isFalse hmem =>
      apply getImmediateChild_replay_of_notMem hn has hj
      intro a ha
      obtain ⟨k, hk, hpre⟩ := hkeys a ha
      refine ⟨k, ?_, hpre⟩
      rintro rfl
      exact hmem hk

/-- A merge of data the server has sent before leaves the view showing what it is to show
without writes below the merged children. -/
theorem updates_applyServerMergeTo_same (h : ref.Sees ws) {as xs : List (List FKey × FNode V)}
    (hn : n.Under (as ++ ws)) (has : ∀ a ∈ as, a.2.Wf) {changes : FCompoundWrite V}
    {x : FKey → FNode V} (hover : Overwrites n xs (actualMerge p changes).children x)
    (hsame : (FNode.overwrite V).replay n xs = n)
    (hkeys : ∀ a ∈ as, ∃ e ∈ (actualMerge p changes).children, [e.1] <+: a.1)
    (hroot : ∀ w ∈ ws, w.1 ≠ []) :
  Updates (applyServerMergeTo (full ((FNode.overwrite V).replay n (as ++ ws)) n) p changes ref)
    ((FNode.overwrite V).replay n (as ++ ws)) ((FNode.overwrite V).replay n ws) n
  := by
  have hmerge : ∀ m accumulator, applyServerMergeTo (full m n) p changes ref accumulator
      = (visited n (actualMerge p changes).children).foldlM
          (fun cur e => applyServerOverwriteTo cur.1 [e.1]
            (e.2.applyToNode (n.getImmediateChild e.1)) ref cur.2) (full m n, accumulator) :=
    fun _ accumulator => applyServerMergeTo_full changes accumulator
  generalize (actualMerge p changes).children = kids at hover hkeys hmerge
  have hperm := visited_perm n kids
  have hall : ∀ a ∈ as ++ ws, a.2.Wf ∧ FKey.priority ∉ a.1 := by
    intro a ha
    refine ⟨?_, (hn.clear a ha).priority_notMem⟩
    rcases List.mem_append.mp ha with ha | ha
    · apply has a ha
    · apply h.writes a ha
  have hm := hn.wf.replay fun a ha => (hall a ha).1
  have hshown := hn.wf.replay h.writes
  -- the server has sent the children before
  have hx : ∀ e ∈ kids, x e.1 = n.getImmediateChild e.1 := by
    intro e he
    obtain ⟨-, -, hget⟩ := FNode.updateChildren_spec hover.keys hn.wf
    have hchild := hget e.1 (hover.child e he).1
    rw [if_pos (List.mem_map.mpr ⟨e, he, rfl⟩), hover.replay, hsame] at hchild
    exact hchild.symm
  -- children that are shadowed are shown already
  let I : FNode V → FNode V → Prop := fun m₁ n₁ => n₁ = n ∧ ∀ e ∈ kids,
    (∃ w ∈ ws, w.1 <+: [e.1]) →
      m₁.getImmediateChild e.1 = ((FNode.overwrite V).replay n ws).getImmediateChild e.1
  have hloop : Updates (fun accumulator => (visited n kids).foldlM
        (fun cur e => applyServerOverwriteTo cur.1 [e.1]
          (e.2.applyToNode (n.getImmediateChild e.1)) ref cur.2)
        (full ((FNode.overwrite V).replay n (as ++ ws)) n, accumulator))
      ((FNode.overwrite V).replay n (as ++ ws))
      ((FNode.overwrite V).replay ((FNode.overwrite V).replay n (as ++ ws))
        ((visited n kids).map fun e =>
          ([e.1], ((FNode.overwrite V).replay n ws).getImmediateChild e.1)))
      ((visited n kids).foldl (fun n _ => n) n)
      ∧ I ((FNode.overwrite V).replay ((FNode.overwrite V).replay n (as ++ ws))
        ((visited n kids).map fun e =>
          ([e.1], ((FNode.overwrite V).replay n ws).getImmediateChild e.1)))
        ((visited n kids).foldl (fun n _ => n) n) := by
    apply Updates.foldlM (I := I) _ (visited_apart hover.nodup) _ hm
    · refine ⟨rfl, ?_⟩
      intro e he hshadow
      apply getImmediateChild_replay_of_shadowed hn.wf hall (hover.child e he).1 hroot hshadow
    · intro e he
      refine ⟨hshown.getImmediateChild _, ?_⟩
      simpa using (hover.child e (hperm.mem_iff.mp he)).1.symm
    · rintro e he m₁ n₁ hm₁ ⟨rfl, hI⟩
      have hmem := hperm.mem_iff.mp he
      obtain ⟨hk, -, happly⟩ := hover.child e hmem
      have hp : FKey.priority ∉ [e.1] := by simpa using hk.symm
      have hwf := hshown.getImmediateChild e.1
      have hself : n₁.updateChild [e.1] (n₁.getImmediateChild e.1) = n₁ := by
        rw [← FNode.getChild_singleton n₁ hk, FNode.updateChild_getChild hn.wf hp]
      have hop : ∀ accumulator, applyServerOverwriteTo (full m₁ n₁) [e.1]
            (e.2.applyToNode (n₁.getImmediateChild e.1)) ref accumulator
          = generateEventCacheAfterServerEvent (full m₁ n₁) [e.1] ref accumulator := by
        intro accumulator
        rw [happly, hx e hmem,
          applyServerOverwriteTo_full hn.wf (hn.wf.getImmediateChild e.1) hp, hself]
      constructor
      · intro accumulator f hf ht
        dsimp only
        rw [hop]
        by_cases hshadow : ∃ w ∈ ws, w.1 <+: [e.1]
        · have hnext : m₁.updateChild [e.1]
              (((FNode.overwrite V).replay n₁ ws).getImmediateChild e.1) = m₁ := by
            rw [← hI e hmem hshadow, ← FNode.getChild_singleton m₁ hk,
              FNode.updateChild_getChild hm₁ hp]
          rw [hnext]
          apply updates_generateEventCacheAfterServerEvent_of_shadowed h hshadow accumulator f hf ht
        · rw [← FNode.getChild_singleton _ hk]
          apply updates_generateEventCacheAfterServerEvent h hn.right hm₁ hp hshadow
            accumulator f hf ht
      · refine ⟨rfl, ?_⟩
        intro d hd hshadow
        rw [FNode.updateChild_singleton m₁ hwf hk]
        rcases eq_or_ne d.1 e.1 with heq | hne
        · rw [heq, FNode.getImmediateChild_update_self hm₁ hwf hk]
        · rw [FNode.getImmediateChild_update_of_ne hm₁ hk (hover.child d hd).1 hne]
          apply hI d hd hshadow
  have hfinal : (FNode.overwrite V).replay ((FNode.overwrite V).replay n (as ++ ws))
        ((visited n kids).map fun e =>
          ([e.1], ((FNode.overwrite V).replay n ws).getImmediateChild e.1))
      = (FNode.overwrite V).replay n ws := by
    have hrest := updateChildren_replay (l := (visited n kids).map Prod.fst) hn.wf hall hroot
      ?_ ?_ ?_
    · rw [FNode.updateChildren, List.map_map] at hrest
      exact hrest
    · intro hne
      apply hover.isOpen
      rintro rfl
      contradiction
    · intro k hk
      obtain ⟨e, he, rfl⟩ := List.mem_map.mp hk
      exact (hover.child e (hperm.mem_iff.mp he)).1
    · intro a ha
      obtain ⟨e, he, hpre⟩ := hkeys a ha
      exact ⟨e.1, List.mem_map.mpr ⟨e, hperm.mem_iff.mpr he, rfl⟩, hpre⟩
  rw [hfinal, List.foldl_fixed] at hloop
  intro accumulator f hf ht
  rw [hmerge]
  apply hloop.1 accumulator f hf ht

omit [DecidableEq V] in
/-- Data written where it is changes nothing. -/
theorem replay_getChild (hn : n.Wf) {l : List FKey} (hl : ∀ k ∈ l, FKey.priority ∉ p ++ [k]) :
  (FNode.overwrite V).replay n (l.map fun k => (p ++ [k], n.getChild (p ++ [k]))) = n
  := by
  induction l with
  | nil => rfl
  | cons k l ih =>
    rw [List.forall_mem_cons] at hl
    rw [List.map_cons, FNode.replay_cons, FNode.updateChild_getChild hn hl.1, ih hl.2]

/-- A merge that is acknowledged leaves the view showing what it is to show. -/
theorem updates_ackUserWriteOn_merge (h : ref.Sees ws) {l : List (FKey × FNode V)}
    (hl : Assoc.Ascending FKey.stringComparator l) (hwf : ∀ e ∈ l, e.2.Wf)
    (hn : n.Under (l.map (fun e => (p ++ [e.1], e.2)) ++ ws)) (hp : FKey.priority ∉ p) :
  Updates (ackUserWriteOn
      (full ((FNode.overwrite V).replay n (l.map (fun e => (p ++ [e.1], e.2)) ++ ws)) n) p
      (ofChildren (l.map fun e => (e.1, true))) ref)
    ((FNode.overwrite V).replay n (l.map (fun e => (p ++ [e.1], e.2)) ++ ws))
    ((FNode.overwrite V).replay n ws) n
  := by
  have has : ∀ a ∈ l.map (fun e => (p ++ [e.1], e.2)), a.2.Wf := by
    intro a ha
    obtain ⟨e, he, rfl⟩ := List.mem_map.mp ha
    apply hwf e he
  by_cases hshadow : ∃ w ∈ ws, w.1 <+: p
  · rw [hn.replay_append_of_shadowed (List.forall_mem_append.mpr ⟨has, h.writes⟩) _ hp hshadow]
    · apply Updates.of_eq
      intro accumulator
      rw [ackUserWriteOn]
      dsimp only
      rw [if_pos ((h.isSome_shadowingWriteAtPath_iff p).mpr hshadow)]
    · intro a ha
      obtain ⟨e, he, rfl⟩ := List.mem_map.mp ha
      exact List.prefix_append _ _
  · have hnot : ¬ (ref.shadowingWriteAtPath p).isSome = true := by
      rw [h.isSome_shadowingWriteAtPath_iff]
      exact hshadow
    -- what the server has sent of the children the merge writes
    let l' : List (FKey × FNode V) := l.map fun e => (e.1, n.getChild (p ++ [e.1]))
    have hl' : Assoc.Ascending FKey.stringComparator l' := by
      rw [Assoc.Ascending, List.pairwise_map]
      exact hl
    have hwf' : ∀ e ∈ l', e.2.Wf := by
      intro e he
      obtain ⟨d, hd, rfl⟩ := List.mem_map.mp he
      apply hn.wf.getChild
    have hclear : ∀ e ∈ l, n.Clear (p ++ [e.1]) :=
      fun e he => hn.left.clear _ (List.mem_map.mpr ⟨e, he, rfl⟩)
    have hunder : n.Under (l'.map fun e => (p ++ [e.1], e.2)) := by
      refine ⟨hn.wf, ?_⟩
      intro w hw
      rw [List.map_map] at hw
      obtain ⟨e, he, rfl⟩ := List.mem_map.mp hw
      apply hclear e he
    have hsame : (FNode.overwrite V).replay n (l'.map fun e => (p ++ [e.1], e.2)) = n := by
      have hread := replay_getChild (p := p) (l := l.map Prod.fst) hn.wf ?_
      · rw [List.map_map] at hread ⊢
        exact hread
      · intro k hk
        obtain ⟨e, he, rfl⟩ := List.mem_map.mp hk
        apply (hclear e he).priority_notMem
    obtain ⟨x, hover⟩ := exists_overwrites hl' hwf' hunder
    have hupdates := updates_applyServerMergeTo_same h hn has hover hsame ?_ ?_
    · intro accumulator f hf ht
      have hack : ackUserWriteOn
            (full ((FNode.overwrite V).replay n (l.map (fun e => (p ++ [e.1], e.2)) ++ ws)) n) p
            (ofChildren (l.map fun e => (e.1, true))) ref (some accumulator)
          = applyServerMergeTo
            (full ((FNode.overwrite V).replay n (l.map (fun e => (p ++ [e.1], e.2)) ++ ws)) n) p
            (ofChildren l') ref (some accumulator) := by
        rw [← replay_children hl' hwf', ackUserWriteOn]
        dsimp only
        rw [if_neg hnot, if_neg (by simp [ofChildren, FImmutableTree.value]), forEach_ofChildren]
        simp only [cachedServerSnap_full, isCompleteForPath_full, if_true, List.foldl_map,
          Overwrite.replay, l']
        rfl
      rw [hack]
      apply hupdates accumulator f hf ht
    · intro a ha
      obtain ⟨e, he, rfl⟩ := List.mem_map.mp ha
      apply hover.key (p ++ [e.1], n.getChild (p ++ [e.1]))
      rw [List.map_map]
      exact List.mem_map.mpr ⟨e, he, rfl⟩
    · rintro w hw hnil
      apply hshadow ⟨w, hw, _⟩
      rw [hnil]
      exact List.nil_prefix

end FViewProcessor

end ForDream

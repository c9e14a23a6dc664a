import ForDream.Database.Raise

/-!
# Views in step with the server

A client shows data before the server has confirmed it.  What all its views are to show is
given by two things: the data the server has sent, and the queue of writes it has not
answered, made on that data one after the other.

The views are not calculated from these.  Each operation updates them where they are.  In
every run in which the data of the server is open above the pending writes, no operation
raises an exception, every view shows what it is to show after each event, and what it
raises explains what has changed.
-/

namespace ForDream

open FCompoundWrite FViewProcessor FViewCache
open FOperation (operationFor mergeWrites)
open FImmutableTree (ofChildren forEach_ofChildren)

variable {V : Type*}

namespace FSyncTree

/-! ## One operation on all views -/

variable {S S' : FNode V} {W W' : List (List FKey × FNode V)} {writes : FWriteTree V}
  {operation : FOperation V} {p : List FKey} {c : FNode V} {l : List (FKey × FNode V)}

/-- The data the server has sent, well formed and open above pending writes of well-formed
nodes, which are layered. -/
structure Pending (writes : FWriteTree V) (S : FNode V) (W : List (List FKey × FNode V)) :
    Prop where
  under : S.Under W
  wf : ∀ w ∈ W, w.2.Wf
  layered : writes.visibleWrites = (FCompoundWrite.overwrite V).replay emptyWrite W

/-- What is to be shown at a path is what the parts of the pending writes leave there. -/
theorem getChild_shown (hS : S.Under W) (hW : ∀ w ∈ W, w.2.Wf) (hp : FKey.priority ∉ p) :
  ((FNode.overwrite V).replay S W).getChild p
    = (FNode.overwrite V).replay (S.getChild p) (W.filterMap (FNode.part p))
  := FNode.getChild_replay_part hS.wf hp fun w hw =>
    ⟨hW w hw, (hS.clear w hw).priority_notMem⟩

variable [DecidableEq V]

/-- The operation takes each view it reaches from showing the data before to showing the
data after, and at the paths it does not reach these are the same. -/
def Turns (operation : FOperation V) (writes : FWriteTree V) (S : FNode V)
    (W : List (List FKey × FNode V)) (S' : FNode V) (W' : List (List FKey × FNode V)) : Prop :=
  ∀ p, FKey.priority ∉ p →
    match operationFor p operation with
    | none => S'.getChild p = S.getChild p ∧ ((FNode.overwrite V).replay S' W').getChild p
        = ((FNode.overwrite V).replay S W).getChild p
    | some operation => Carries operation ⟨p, writes⟩
        (((FNode.overwrite V).replay S W).getChild p) (S.getChild p)
        (((FNode.overwrite V).replay S' W').getChild p) (S'.getChild p)

theorem turns_userOverwrite (h : Pending writes S (W ++ [(p, c)])) :
  Turns (.overwrite true p c) writes S W S (W ++ [(p, c)])
  := by
  intro q hq
  have hW : ∀ w ∈ W, w.2.Wf := fun w hw => h.wf w (List.mem_append_left _ hw)
  obtain ⟨hc, hp⟩ : c.Wf ∧ FKey.priority ∉ p :=
    ⟨h.wf (p, c) (by simp), (h.under.clear (p, c) (by simp)).priority_notMem⟩
  rw [FOperation.operationFor_overwrite hq, getChild_shown h.under h.wf hq,
    getChild_shown h.under.left hW hq, List.filterMap_append, List.filterMap_cons,
    List.filterMap_nil]
  have hm := (h.under.wf.getChild q).replay (h.under.left.part hq hW).2
  cases hpart : FNode.part q (p, c) with
  | none =>
    rw [List.append_nil]
    exact ⟨rfl, rfl⟩
  | some u =>
    obtain ⟨hu, hup⟩ := FNode.part_allowed hpart hc hp
    rw [Overwrite.replay_append]
    apply carries_userOverwrite hm hu hup

theorem turns_serverOverwrite (h : Pending writes S W) (h' : Pending writes (S.updateChild p c) W)
    (hc : c.Wf) (hp : FKey.priority ∉ p) :
  Turns (.overwrite false p c) writes S W (S.updateChild p c) W
  := by
  intro q hq
  have hsees := FWriteTree.sees h.layered h.under h.wf hq
  have hget := FNode.getChild_updateChild_part h.under.wf hc hq hp
  have hunder := (h'.under.part hq h.wf).1
  rw [FOperation.operationFor_overwrite hq, getChild_shown h.under h.wf hq,
    getChild_shown h'.under h.wf hq]
  cases hpart : FNode.part q (p, c) with
  | none =>
    rw [hpart, Option.elim_none] at hget
    rw [hget]
    exact ⟨rfl, rfl⟩
  | some u =>
    obtain ⟨hu, hup⟩ := FNode.part_allowed hpart hc hp
    rw [hpart, Option.elim_some] at hget
    rw [hget] at hunder ⊢
    apply carries_serverOverwrite hsees (h.under.part hq h.wf).1 hu hup hunder

theorem turns_listenComplete (h : Pending writes S W) (hp : FKey.priority ∉ p) :
  Turns (.listenComplete p) writes S W S W
  := by
  intro q hq
  have hsees := FWriteTree.sees h.layered h.under h.wf hq
  rw [FOperation.operationFor_listenComplete (c := FNode.emptyNode) hq,
    getChild_shown h.under h.wf hq]
  cases hpart : FNode.part q (p, FNode.emptyNode) with
  | none => exact ⟨rfl, rfl⟩
  | some u =>
    obtain ⟨-, hup⟩ := FNode.part_allowed hpart FNode.wf_emptyNode hp
    apply carries_listenComplete hsees (h.under.part hq h.wf).1 hup

/-- The oldest of the pending writes, an overwrite, is answered. -/
theorem turns_ackUserWrite (h : Pending writes S W) (hS : S.Under ((p, c) :: W)) (hc : c.Wf)
    {affectedTree : FImmutableTree Bool} (haffected : affectedTree.value.isSome = true)
    (revert : Bool) :
  Turns (.ackUserWrite p affectedTree revert) writes S ((p, c) :: W) S W
  := by
  intro q hq
  have hall : ∀ w ∈ (p, c) :: W, w.2.Wf := List.forall_mem_cons.mpr ⟨hc, h.wf⟩
  have hp : FKey.priority ∉ p := (hS.clear (p, c) List.mem_cons_self).priority_notMem
  have hsees := FWriteTree.sees h.layered h.under h.wf hq
  have hunder := (hS.part hq hall).1
  rw [FOperation.operationFor_ackUserWrite (c := c) hq haffected, getChild_shown h.under h.wf hq,
    getChild_shown hS hall hq]
  rw [List.filterMap_cons] at hunder ⊢
  cases hpart : FNode.part q (p, c) with
  | none => exact ⟨rfl, rfl⟩
  | some u =>
    obtain ⟨hu, hup⟩ := FNode.part_allowed hpart hc hp
    rw [hpart] at hunder
    have has : ∀ a ∈ [u], a.2.Wf := by simpa using hu
    have hbelow : ∀ a ∈ [u], u.1 <+: a.1 := by simp
    exact carries_ackUserWrite hsees hunder has hbelow hup haffected revert

/-- All pending writes are given up. -/
theorem turns_removeAllWrites (hS : S.Under W) (hW : ∀ w ∈ W, w.2.Wf)
    (hlayered : writes.visibleWrites = emptyWrite) {affectedTree : FImmutableTree Bool}
    (haffected : affectedTree.value.isSome = true) :
  Turns (.ackUserWrite [] affectedTree true) writes S W S []
  := by
  intro q hq
  have hnil : S.Under [] := ⟨hS.wf, by simp⟩
  have hsees : FWriteTreeRef.Sees ⟨q, writes⟩ (List.filterMap (FNode.part q) []) :=
    FWriteTree.sees hlayered hnil (by simp) hq
  obtain ⟨hunder, hwf⟩ := hS.part hq hW
  rw [FOperation.operationFor_ackUserWrite (c := FNode.emptyNode) hq haffected, FNode.part_root,
    getChild_shown hS hW hq, getChild_shown hnil (by simp) hq]
  rw [← List.append_nil (W.filterMap (FNode.part q))] at hunder ⊢
  apply carries_revert hsees hunder hwf
  · intro a _
    exact List.nil_prefix
  · simp

/-! Merges of children are seen as merges or as overwrites. -/

section Merge

variable (hl : Assoc.Ascending FKey.stringComparator l) (hwf : ∀ e ∈ l, e.2.Wf)

include hl hwf

theorem turns_userMerge (h : Pending writes S (W ++ mergeWrites p l)) :
  Turns (.merge true p (ofChildren l)) writes S W S (W ++ mergeWrites p l)
  := by
  intro q hq
  have hW : ∀ w ∈ W, w.2.Wf := fun w hw => h.wf w (List.mem_append_left _ hw)
  obtain ⟨hunder, hparts⟩ := h.under.part hq h.wf
  have hm := (h.under.wf.getChild q).replay (h.under.left.part hq hW).2
  rw [getChild_shown h.under h.wf hq, getChild_shown h.under.left hW hq]
  rw [List.filterMap_append] at hunder hparts ⊢
  rw [List.forall_mem_append] at hparts
  rcases FOperation.operationFor_merge (p := p) hl hwf hq true with
    ⟨rest, -, hfor, hpart⟩ | ⟨d, hfor, hpart⟩ | ⟨hfor, hpart⟩
  · rw [hfor, hpart, Overwrite.replay_append]
    rw [hpart] at hunder
    apply carries_userMerge hm hl hwf
    intro e he
    apply (hunder.right.clear (rest ++ [e.1], e.2) _).priority_notMem
    exact List.mem_map.mpr ⟨e, he, rfl⟩
  · rw [hfor, hpart, Overwrite.replay_append]
    rw [hpart] at hparts
    apply carries_userOverwrite hm (hparts.2 ([], d) List.mem_cons_self)
    simp
  · rw [hfor, hpart, List.append_nil]
    exact ⟨rfl, rfl⟩

theorem turns_serverMerge (h : Pending writes S W) (hmerge : S.Under (mergeWrites p l))
    (h' : Pending writes ((FNode.overwrite V).replay S (mergeWrites p l)) W) :
  Turns (.merge false p (ofChildren l)) writes S W
    ((FNode.overwrite V).replay S (mergeWrites p l)) W
  := by
  intro q hq
  have hall : ∀ w ∈ mergeWrites p l, w.2.Wf := by
    intro w hw
    obtain ⟨e, he, rfl⟩ := List.mem_map.mp hw
    apply hwf e he
  have hsees := FWriteTree.sees h.layered h.under h.wf hq
  have hunder := (h.under.part hq h.wf).1
  have hunder' := (h'.under.part hq h.wf).1
  obtain ⟨hparts, hpartswf⟩ := hmerge.part hq hall
  have hget := getChild_shown hmerge hall hq
  rw [getChild_shown h.under h.wf hq, getChild_shown h'.under h.wf hq]
  rw [hget] at hunder' ⊢
  rcases FOperation.operationFor_merge (p := p) hl hwf hq false with
    ⟨rest, -, hfor, hpart⟩ | ⟨d, hfor, hpart⟩ | ⟨hfor, hpart⟩
  · rw [hpart] at hunder' hparts
    rw [hfor, hpart]
    apply carries_serverMerge hsees hunder hl hwf hparts hunder'
  · rw [hpart] at hunder' hpartswf
    rw [hfor, hpart]
    have hd : d.Wf := hpartswf ([], d) List.mem_cons_self
    exact carries_serverOverwrite hsees hunder hd (by simp) hunder'
  · rw [hfor, hpart]
    exact ⟨rfl, rfl⟩

/-- The oldest of the pending writes, a merge, is answered. -/
theorem turns_ackUserWrite_merge (h : Pending writes S W) (hS : S.Under (mergeWrites p l ++ W))
    (hp : FKey.priority ∉ p) (revert : Bool) :
  Turns (.ackUserWrite p (ofChildren (l.map fun e => (e.1, true))) revert) writes S
    (mergeWrites p l ++ W) S W
  := by
  intro q hq
  have hall : ∀ w ∈ mergeWrites p l ++ W, w.2.Wf := by
    rw [List.forall_mem_append]
    refine ⟨?_, h.wf⟩
    intro w hw
    obtain ⟨e, he, rfl⟩ := List.mem_map.mp hw
    apply hwf e he
  have hsees := FWriteTree.sees h.layered h.under h.wf hq
  obtain ⟨hunder, hparts⟩ := hS.part hq hall
  rw [getChild_shown h.under h.wf hq, getChild_shown hS hall hq]
  rw [List.filterMap_append] at hunder hparts ⊢
  rw [List.forall_mem_append] at hparts
  rcases FOperation.operationFor_ackUserWrite_merge (p := p) hl.keys_ne hq revert with
    ⟨rest, l', hsub, hrest, hfor, hpart⟩ | ⟨d, hfor, hpart⟩ | ⟨hfor, hpart⟩
  · rw [hpart] at hunder
    rw [hfor, hpart]
    apply carries_ackUserWrite_merge hsees (hl.sublist hsub) _ hunder
    · exact fun hmem => hp (hrest hmem)
    · exact fun e he => hwf e (hsub.subset he)
  · rw [hpart] at hunder hparts
    rw [hfor, hpart]
    apply carries_ackUserWrite hsees hunder hparts.1
    · intro a _
      exact List.nil_prefix
    · simp
    · rfl
  · rw [hfor, hpart, List.nil_append]
    exact ⟨rfl, rfl⟩

end Merge

/-! ## All views after one operation -/

/-- Each view under the paths of the given tree shows one node, and keeps another as the
data of the server. -/
structure Shows (observed tree : FImmutableTree (FViewCache V)) (T S : FNode V) : Prop where
  distinct : tree.Distinct
  view : ∀ p, tree.valueAtPath p
    = (observed.valueAtPath p).map fun _ => full (T.getChild p) (S.getChild p)

/-- What is raised explains what each view shows; at other paths nothing is raised. -/
structure Explained (observed : FImmutableTree (FViewCache V)) (T T' : FNode V)
    (events : Raised V) : Prop where
  view : ∀ p view, observed.valueAtPath p = some view →
    Explains (T.getChild p) (T'.getChild p) (events.at p)
  other : ∀ p, observed.valueAtPath p = none → events.at p = []

/-- If an operation turns all views from showing the data before to showing the data after,
the tree of views is turned so. -/
theorem Shows.applyOperationToSyncPoints (tree : FSyncTree V)
    {observed : FImmutableTree (FViewCache V)}
    (hobserved : ∀ p view, observed.valueAtPath p = some view → FKey.priority ∉ p)
    (h : Shows observed tree.syncPointTree ((FNode.overwrite V).replay S W) S)
    (hturns : Turns operation tree.pendingWriteTree S W S' W') :
  ∃ tree' events, tree.applyOperationToSyncPoints operation = some (tree', events)
    ∧ tree'.pendingWriteTree = tree.pendingWriteTree
    ∧ Shows observed tree'.syncPointTree ((FNode.overwrite V).replay S' W') S'
    ∧ Explained observed ((FNode.overwrite V).replay S W) ((FNode.overwrite V).replay S' W') events
  := by
  have hs : Succeeds tree.pendingWriteTree operation [] tree.syncPointTree := by
    intro p view operation' hview hfor serverCache
    rw [h.view p] at hview
    obtain ⟨view₀, hview₀, rfl⟩ := Option.map_eq_some_iff.mp hview
    have hp := hturns p (hobserved p view₀ hview₀)
    rw [hfor] at hp
    obtain ⟨changes, hrun, -⟩ := hp serverCache
    exact ⟨_, hrun⟩
  obtain ⟨tree', events, hrun, happlied⟩ :=
    exists_applied operation.path tree.syncPointTree operation [] none rfl h.distinct hs
  have hroot : tree.applyOperationToSyncPoints operation
      = some ({ tree with syncPointTree := tree' }, events) := by
    rw [FSyncTree.applyOperationToSyncPoints, hrun]
    rfl
  -- what has become of the view at a path
  have hview : ∀ p view, observed.valueAtPath p = some view →
      tree'.valueAtPath p = some
          (full (((FNode.overwrite V).replay S' W').getChild p) (S'.getChild p))
        ∧ Explains (((FNode.overwrite V).replay S W).getChild p)
          (((FNode.overwrite V).replay S' W').getChild p) (events.at p) := by
    intro p view hview
    have houtcome := happlied.outcome p
    have hp := hturns p (hobserved p view hview)
    rw [h.view p, hview, List.nil_append, Option.map_some] at houtcome
    cases hfor : operationFor p operation with
    | none =>
      rw [hfor] at houtcome hp
      obtain ⟨hserver, hshown⟩ := hp
      obtain ⟨hvalue, hsilent⟩ := houtcome
      rw [hvalue, hsilent, hserver, hshown]
      exact ⟨rfl, fun _ => rfl, fun hne => absurd rfl hne⟩
    | some operation' =>
      rw [hfor] at houtcome hp
      obtain ⟨serverCache, cache, hresult, hvalue⟩ := houtcome
      obtain ⟨changes, hcarries, hexplains⟩ := hp serverCache
      rw [hcarries] at hresult
      obtain ⟨rfl, rfl⟩ := Prod.mk.inj (Option.some.inj hresult)
      exact ⟨hvalue, hexplains⟩
  have hother : ∀ p, observed.valueAtPath p = none →
      tree'.valueAtPath p = none ∧ events.at p = [] := by
    intro p hnone
    have houtcome := happlied.outcome p
    rw [h.view p, hnone, List.nil_append, Option.map_none] at houtcome
    exact houtcome
  refine ⟨_, events, hroot, rfl, ⟨happlied.distinct, ?_⟩, ?_, ?_⟩
  · intro p
    cases hp : observed.valueAtPath p with
    | none => exact (hother p hp).1
    | some view => exact (hview p view hp).1
  · exact fun p view hp => (hview p view hp).2
  · exact fun p hp => (hother p hp).2

end FSyncTree

end ForDream

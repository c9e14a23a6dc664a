import ForDream.Database.Sync

/-!
# Runs of a client

The user writes and the server sends data and answers writes, in any order; the server
answers writes in the order they are made.  `Feed` is what this comes to: the data of the
server and the queue of pending writes.  The client refines it.
-/

namespace ForDream

open FCompoundWrite FViewCache
open FOperation (mergeWrites)
open FImmutableTree (ofChildren forEach_ofChildren)

variable {V : Type*}

/-- What happens to a client: the user sets a node or updates children, the server answers
the oldest pending write, all pending writes are given up, or the server sends data. -/
inductive FClientEvent (V : Type*) where
  | set (path : List FKey) (node : FNode V)
  | update (path : List FKey) (nodes : FCompoundWrite V)
  | answer (revert : Bool)
  | purgeOutstandingWrites
  | serverOverwrite (path : List FKey) (node : FNode V)
  | serverMerge (path : List FKey) (children : FCompoundWrite V)
  | listenComplete (path : List FKey)

/-! ## What is to be shown -/

/-- The data the server has sent, and the writes it has not answered, each of them a list of
single writes. -/
structure Feed (V : Type*) where
  serverData : FNode V
  queue : List (List (List FKey × FNode V))

namespace Feed

/-- All data as the user is to see it. -/
def shown (feed : Feed V) : FNode V :=
  (FNode.overwrite V).replay feed.serverData feed.queue.flatten

/-- The feed after an event; there is none if nothing is pending that could be answered. -/
def step (feed : Feed V) : FClientEvent V → Option (Feed V)
  | .set path node => some { feed with queue := feed.queue ++ [[(path, node)]] }
  | .update path nodes =>
      if nodes.isEmpty then some feed
      else
        some { feed with queue := feed.queue ++ [nodes.forEach.map fun e => (path ++ e.1, e.2)] }
  | .answer _ =>
      match feed.queue with
      | [] => none
      | _ :: queue => some { feed with queue := queue }
  | .purgeOutstandingWrites => some { feed with queue := [] }
  | .serverOverwrite path node =>
      some { feed with serverData := feed.serverData.updateChild path node }
  | .serverMerge path children =>
      some { feed with
        serverData := (FNode.overwrite V).replay feed.serverData
          (children.forEach.map fun e => (path ++ e.1, e.2)) }
  | .listenComplete _ => some feed

end Feed

/-- Writes of children under the keys of one node. -/
def FCompoundWrite.OfChildren (nodes : FCompoundWrite V) : Prop :=
  nodes.Wf ∧ nodes.value = none ∧ ∀ e ∈ nodes.children, e.2.value.isSome = true

/-- Nodes are well formed, merges are of children, and no path leads to a priority. -/
def FClientEvent.Plain : FClientEvent V → Prop
  | .set _ node => node.Wf
  | .update path nodes => nodes.OfChildren ∧ FKey.priority ∉ path
  | .answer _ => True
  | .purgeOutstandingWrites => True
  | .serverOverwrite path node => node.Wf ∧ FKey.priority ∉ path
  | .serverMerge _ children => children.OfChildren
  | .listenComplete path => FKey.priority ∉ path

/-- A plain event after which the data of the server is open above the pending writes; a
merge of the server is made on data that is open above it. -/
structure Feed.Admits (feed : Feed V) (e : FClientEvent V) : Prop where
  plain : e.Plain
  merge : ∀ path children, e = .serverMerge path children →
    feed.serverData.Under (children.forEach.map fun e => (path ++ e.1, e.2))
  under : ∀ feed', feed.step e = some feed' → feed'.serverData.Under feed'.queue.flatten

/-! ## The client -/

/-- The part of a repository that numbers the writes of the user, its tree of views, and
what has been raised last. -/
structure FClient (V : Type*) where
  writeIdCounter : ℤ
  serverSyncTree : FSyncTree V
  raised : Raised V

namespace FClient

/-- The pending writes of a client. -/
def repo (client : FClient V) : FRepo V where
  writeIdCounter := client.writeIdCounter
  pendingWriteTree := client.serverSyncTree.pendingWriteTree

/-- No writes have been made, and views are observed. -/
def start (observed : FImmutableTree (FViewCache V)) : FClient V where
  writeIdCounter := 0
  serverSyncTree := ⟨observed, .init⟩
  raised := []

variable [DecidableEq V]

/-- The client after an event.  There is none if nothing is pending that could be answered,
or if an exception is raised. -/
def step (client : FClient V) : FClientEvent V → Option (FClient V)
  | .set path node =>
      (client.serverSyncTree.applyUserOverwriteAtPath path node client.writeIdCounter true).map
        fun result => ⟨client.writeIdCounter + 1, result.1, result.2⟩
  | .update path nodes =>
      if nodes.isEmpty then some { client with raised := [] }
      else
        (client.serverSyncTree.applyUserMergeAtPath path nodes client.writeIdCounter).map
          fun result => ⟨client.writeIdCounter + 1, result.1, result.2⟩
  | .answer revert =>
      match client.serverSyncTree.pendingWriteTree.allWrites with
      | [] => none
      | oldest :: _ =>
          (client.serverSyncTree.ackUserWriteWithWriteId oldest.writeId revert).map
            fun result => ⟨client.writeIdCounter, result.1, result.2⟩
  | .purgeOutstandingWrites =>
      client.serverSyncTree.removeAllWrites.map
        fun result => ⟨client.writeIdCounter, result.1, result.2⟩
  | .serverOverwrite path node =>
      (client.serverSyncTree.applyServerOverwriteAtPath path node).map
        fun result => ⟨client.writeIdCounter, result.1, result.2⟩
  | .serverMerge path children =>
      (client.serverSyncTree.applyServerMergeAtPath path children).map
        fun result => ⟨client.writeIdCounter, result.1, result.2⟩
  | .listenComplete path =>
      (client.serverSyncTree.applyListenCompleteAtPath path).map
        fun result => ⟨client.writeIdCounter, result.1, result.2⟩

/-- The pending writes are those of the feed, and the views show what they are to show. -/
structure Follows (observed : FImmutableTree (FViewCache V)) (client : FClient V)
    (feed : Feed V) : Prop where
  layered : client.repo.Layered
  queue : client.repo.queue = feed.queue
  merges : ∀ path nodes writeId,
    .merge path nodes writeId ∈ client.serverSyncTree.pendingWriteTree.allWrites →
      nodes.OfChildren ∧ FKey.priority ∉ path
  under : feed.serverData.Under feed.queue.flatten
  shows : FSyncTree.Shows observed client.serverSyncTree.syncPointTree feed.shown feed.serverData

end FClient

namespace FCompoundWrite

theorem OfChildren.exists_eq {nodes : FCompoundWrite V} (h : nodes.OfChildren) :
  ∃ l, nodes = ofChildren l ∧ Assoc.Ascending FKey.stringComparator l ∧ ∀ e ∈ l, e.2.Wf
  := by
  obtain ⟨hwf, hvalue, hchildren⟩ := h
  cases hwf with
  | value => cases hvalue
  | @children kids hasc _ hwf =>
    refine ⟨kids.map fun e => (e.1, e.2.value.getD FNode.emptyNode), ?_, ?_, ?_⟩
    · rw [ofChildren, List.map_map]
      congr 1
      nth_rewrite 1 [← List.map_id kids]
      apply List.map_congr_left
      intro e he
      have hvalue := hchildren e he
      obtain ⟨k, t⟩ := e
      cases hwf (k, t) he with
      | value => rfl
      | children => cases hvalue
    · rw [Assoc.Ascending, List.pairwise_map]
      exact hasc
    · intro d hd
      obtain ⟨e, he, rfl⟩ := List.mem_map.mp hd
      apply FRepo.wf_value (hwf e he)

theorem map_forEach_ofChildren (path : List FKey) (l : List (FKey × FNode V)) :
  (ofChildren l).forEach.map (fun e => (path ++ e.1, e.2)) = mergeWrites path l
  := by
  rw [forEach_ofChildren, List.map_map]
  rfl

end FCompoundWrite

namespace FSyncTree

/-- The paths a merge of children affects. -/
theorem affectedTree_merge {l : List (FKey × FNode V)}
    (hl : Assoc.Ascending FKey.stringComparator l) (path : List FKey) (writeId : ℤ) :
  affectedTree (.merge path (ofChildren l) writeId) = ofChildren (l.map fun e => (e.1, true))
  := by
  rw [affectedTree, forEach_ofChildren, List.foldl_map]
  induction l using List.reverseRecOn with
  | nil => rfl
  | append_singleton l e ih =>
    rw [Assoc.Ascending, List.pairwise_append] at hl
    have hlast : ∀ d ∈ l.map (fun e => (e.1, true)), FKey.stringComparator d.1 e.1 = .lt := by
      intro d hd
      obtain ⟨f, hf, rfl⟩ := List.mem_map.mp hd
      exact hl.2.2 f hf e (List.mem_singleton_self e)
    have hchild : (ofChildren (l.map fun e => (e.1, true))).child e.1 = .empty := by
      rw [FImmutableTree.child, Assoc.lookupD, ofChildren, FImmutableTree.children,
        Assoc.lookup_eq_none_iff.mpr]
      · rfl
      · intro d hd heq
        obtain ⟨f, hf, rfl⟩ := List.mem_map.mp hd
        have hlt := hlast f hf
        rw [Comparator.eq_comm.mp heq] at hlt
        cases hlt
    rw [List.foldl_append, ih hl.1, List.foldl_cons, List.foldl_nil, FImmutableTree.setValue,
      FImmutableTree.setValue, hchild, ofChildren, FImmutableTree.children, Assoc.insert_eq_append,
      ofChildren, List.map_append, List.map_append]
    · rfl
    · intro d hd
      obtain ⟨f, hf, rfl⟩ := List.mem_map.mp hd
      apply hlast f hf

/-- The pending writes of a repository are layered. -/
theorem pending_of_layered {repo : FRepo V} {S : FNode V} (h : repo.Layered)
    (hS : S.Under repo.queue.flatten) :
  Pending repo.pendingWriteTree S repo.queue.flatten
  := by
  have hqueue : repo.queue.flatten = FWriteTree.pendingWrites repo.pendingWriteTree.allWrites := by
    rw [FRepo.queue, FWriteTree.pendingWrites, List.flatMap]
  refine ⟨hS, ?_, ?_⟩
  · intro w hw
    rw [hqueue] at hw
    obtain ⟨u, hu, hwu⟩ := List.mem_flatMap.mp hw
    apply (h.allWrites u hu).1.wf w hwu
  · rw [h.visibleWrites, FWriteTree.layerTreeFromWrites_eq, ← hqueue]

end FSyncTree

/-! ## The client follows the feed -/

namespace FClient

open FSyncTree

variable [DecidableEq V] {observed : FImmutableTree (FViewCache V)} {client : FClient V}
  {feed feed' : Feed V} {counter : ℤ} {writes : FWriteTree V}

/-- What an event leads to. -/
def Reaches (observed : FImmutableTree (FViewCache V)) (feed feed' : Feed V)
    (client' : Option (FClient V)) : Prop :=
  ∃ client, client' = some client ∧ Follows observed client feed'
    ∧ Explained observed feed.shown feed'.shown client.raised

/-- The repository after an event, of which the queue is that of the feed. -/
structure Next (counter : ℤ) (writes : FWriteTree V) (feed' : Feed V) : Prop where
  layered : FRepo.Layered ⟨counter, writes⟩
  queue : FRepo.queue ⟨counter, writes⟩ = feed'.queue
  merges : ∀ path nodes writeId, .merge path nodes writeId ∈ writes.allWrites →
    nodes.OfChildren ∧ FKey.priority ∉ path
  under : feed'.serverData.Under feed'.queue.flatten

omit [DecidableEq V] in
theorem Next.pending (h : Next counter writes feed') :
  Pending writes feed'.serverData feed'.queue.flatten
  := by
  have hpending := pending_of_layered h.layered (by rw [h.queue]; exact h.under)
  rw [h.queue] at hpending
  exact hpending

/-- An operation that turns the views is applied to them. -/
theorem Follows.turn (h : Follows observed client feed)
    (hobserved : ∀ p view, observed.valueAtPath p = some view → FKey.priority ∉ p)
    (hnext : Next counter writes feed') {operation : FOperation V}
    (hturns : Turns operation writes feed.serverData feed.queue.flatten feed'.serverData
      feed'.queue.flatten) :
  Reaches observed feed feed' ((applyOperationToSyncPoints
    { client.serverSyncTree with pendingWriteTree := writes } operation).map
      fun result => ⟨counter, result.1, result.2⟩)
  := by
  obtain ⟨tree', events, hrun, hpending, hshows, hexplained⟩ :=
    Shows.applyOperationToSyncPoints
      { client.serverSyncTree with pendingWriteTree := writes } hobserved h.shows hturns
  refine ⟨⟨counter, tree', events⟩, ?_, ?_, hexplained⟩
  · rw [hrun]
    rfl
  · obtain ⟨tree, writes'⟩ := tree'
    obtain rfl : writes' = writes := hpending
    exact ⟨hnext.layered, hnext.queue, hnext.merges, hnext.under, hshows⟩

omit [DecidableEq V] in
/-- Nothing is applied to the views when what they show stays. -/
theorem Follows.still (h : Follows observed client feed) (hnext : Next counter writes feed')
    (hserver : feed'.serverData = feed.serverData) (hshown : feed'.shown = feed.shown) :
  Reaches observed feed feed'
    (some ⟨counter, { client.serverSyncTree with pendingWriteTree := writes }, []⟩)
  := by
  refine ⟨_, rfl, ⟨hnext.layered, hnext.queue, hnext.merges, hnext.under, ?_⟩, ?_, ?_⟩
  · rw [hshown, hserver]
    exact h.shows
  · intro p view _
    rw [hshown]
    exact ⟨fun _ => rfl, fun hne => absurd rfl hne⟩
  · intro p _
    rfl

section Step

variable (h : Follows observed client feed)
  (hobserved : ∀ p view, observed.valueAtPath p = some view → FKey.priority ∉ p)

include h

omit [DecidableEq V] in
theorem Follows.lastWriteId :
  client.writeIdCounter > client.serverSyncTree.pendingWriteTree.lastWriteId
  := h.layered.lastWriteId

omit [DecidableEq V] in
/-- An event of the repository leads to the next one. -/
theorem Follows.next {e : FRepo.Event V} (he : e.Plain)
    (hstep : client.repo.step e = some ⟨counter, writes⟩)
    (hqueue : FRepo.queueStep feed.queue e = some feed'.queue)
    (hmerges : ∀ path nodes writeId, .merge path nodes writeId ∈ writes.allWrites →
      nodes.OfChildren ∧ FKey.priority ∉ path)
    (hunder : feed'.serverData.Under feed'.queue.flatten) :
  Next counter writes feed'
  := by
  obtain ⟨hmap, hlayered⟩ := h.layered.step he
  rw [hstep, Option.map_some, h.queue, hqueue] at hmap
  exact ⟨hlayered _ hstep, Option.some.inj hmap, hmerges, hunder⟩

omit [DecidableEq V] in
/-- The repository stays as it is. -/
theorem Follows.same (hqueue : feed'.queue = feed.queue)
    (hunder : feed'.serverData.Under feed'.queue.flatten) :
  Next client.writeIdCounter client.serverSyncTree.pendingWriteTree feed'
  := ⟨h.layered, h.queue.trans hqueue.symm, h.merges, hunder⟩

include hobserved

theorem Follows.set {path : List FKey} {node : FNode V} (ha : feed.Admits (.set path node)) :
  Reaches observed feed { feed with queue := feed.queue ++ [[(path, node)]] }
    (client.step (.set path node))
  := by
  have hunder := ha.under _ rfl
  obtain ⟨writes, hadd, hall⟩ : ∃ writes, client.serverSyncTree.pendingWriteTree.addOverwriteAtPath
        path node client.writeIdCounter true = some writes
      ∧ writes.allWrites = client.serverSyncTree.pendingWriteTree.allWrites
        ++ [.overwrite path node client.writeIdCounter true] := by
    rw [FWriteTree.addOverwriteAtPath, if_pos h.lastWriteId]
    exact ⟨_, rfl, rfl⟩
  have hstep : client.repo.step (.set path node) = some ⟨client.writeIdCounter + 1, writes⟩ := by
    rw [FRepo.step, repo]
    dsimp only
    rw [hadd]
    rfl
  have hnext : Next (client.writeIdCounter + 1) writes
      { feed with queue := feed.queue ++ [[(path, node)]] } := by
    apply h.next (e := .set path node) ha.plain hstep rfl _ hunder
    intro path' nodes writeId hmem
    rw [hall, List.mem_append] at hmem
    rcases hmem with hmem | hmem
    · apply h.merges path' nodes writeId hmem
    · cases List.mem_singleton.mp hmem
  have hpending : Pending writes feed.serverData (feed.queue.flatten ++ [(path, node)]) := by
    simpa using hnext.pending
  have hturns : Turns (.overwrite true path node) writes feed.serverData feed.queue.flatten
      feed.serverData (feed.queue ++ [[(path, node)]]).flatten := by
    simpa using turns_userOverwrite hpending
  have hreaches := h.turn hobserved hnext hturns
  rw [step, applyUserOverwriteAtPath, hadd]
  exact hreaches

theorem Follows.update {path : List FKey} {nodes : FCompoundWrite V}
    (ha : feed.Admits (.update path nodes)) (hfeed : feed.step (.update path nodes) = some feed') :
  Reaches observed feed feed' (client.step (.update path nodes))
  := by
  have hunder := ha.under feed' hfeed
  obtain ⟨hof, hpath⟩ := ha.plain
  rw [Feed.step] at hfeed
  rw [step]
  split at hfeed
  case isTrue hempty =>
    obtain rfl := Option.some.inj hfeed
    rw [if_pos hempty]
    exact h.still (h.same rfl hunder) rfl rfl
  case isFalse hempty =>
    obtain rfl := Option.some.inj hfeed
    rw [if_neg hempty]
    obtain ⟨l, rfl, hl, hwf⟩ := hof.exists_eq
    rw [map_forEach_ofChildren] at hunder ⊢
    obtain ⟨writes, hadd, hall⟩ : ∃ writes, client.serverSyncTree.pendingWriteTree.addMergeAtPath
          path (ofChildren l) client.writeIdCounter = some writes
        ∧ writes.allWrites = client.serverSyncTree.pendingWriteTree.allWrites
          ++ [.merge path (ofChildren l) client.writeIdCounter] := by
      rw [FWriteTree.addMergeAtPath, if_pos h.lastWriteId]
      exact ⟨_, rfl, rfl⟩
    have hstep : client.repo.step (.update path (ofChildren l))
        = some ⟨client.writeIdCounter + 1, writes⟩ := by
      rw [FRepo.step, if_neg hempty, repo]
      dsimp only
      rw [hadd]
      rfl
    have hqueue : FRepo.queueStep feed.queue (.update path (ofChildren l))
        = some (feed.queue ++ [mergeWrites path l]) := by
      rw [FRepo.queueStep, if_neg hempty, map_forEach_ofChildren]
    have hnext : Next (client.writeIdCounter + 1) writes
        { feed with queue := feed.queue ++ [mergeWrites path l] } := by
      apply h.next (e := .update path (ofChildren l)) hof hstep hqueue _ hunder
      intro path' nodes writeId hmem
      rw [hall, List.mem_append] at hmem
      rcases hmem with hmem | hmem
      · apply h.merges path' nodes writeId hmem
      · cases List.mem_singleton.mp hmem
        exact ⟨hof, hpath⟩
    have hpending : Pending writes feed.serverData (feed.queue.flatten ++ mergeWrites path l) := by
      simpa using hnext.pending
    have hturns : Turns (.merge true path (ofChildren l)) writes feed.serverData feed.queue.flatten
        feed.serverData (feed.queue ++ [mergeWrites path l]).flatten := by
      simpa using turns_userMerge hl hwf hpending
    have hreaches := h.turn hobserved hnext hturns
    rw [applyUserMergeAtPath, hadd]
    exact hreaches

theorem Follows.serverOverwrite {path : List FKey} {node : FNode V}
    (ha : feed.Admits (.serverOverwrite path node)) :
  Reaches observed feed { feed with serverData := feed.serverData.updateChild path node }
    (client.step (.serverOverwrite path node))
  := by
  obtain ⟨hnode, hpath⟩ := ha.plain
  have hnext : Next client.writeIdCounter client.serverSyncTree.pendingWriteTree
      { feed with serverData := feed.serverData.updateChild path node } :=
    h.same rfl (ha.under _ rfl)
  have hturns : Turns (.overwrite false path node) client.serverSyncTree.pendingWriteTree
      feed.serverData feed.queue.flatten (feed.serverData.updateChild path node)
      feed.queue.flatten :=
    turns_serverOverwrite (h.same rfl h.under).pending hnext.pending hnode hpath
  exact h.turn hobserved hnext hturns

theorem Follows.serverMerge {path : List FKey} {children : FCompoundWrite V}
    (ha : feed.Admits (.serverMerge path children)) :
  Reaches observed feed
    { feed with
      serverData := (FNode.overwrite V).replay feed.serverData
        (children.forEach.map fun e => (path ++ e.1, e.2)) }
    (client.step (.serverMerge path children))
  := by
  have hmerge := ha.merge path children rfl
  have hnext : Next client.writeIdCounter client.serverSyncTree.pendingWriteTree
      { feed with
        serverData := (FNode.overwrite V).replay feed.serverData
          (children.forEach.map fun e => (path ++ e.1, e.2)) } :=
    h.same rfl (ha.under _ rfl)
  obtain ⟨l, rfl, hl, hwf⟩ := OfChildren.exists_eq ha.plain
  rw [map_forEach_ofChildren] at hmerge hnext ⊢
  have hturns : Turns (.merge false path (ofChildren l)) client.serverSyncTree.pendingWriteTree
      feed.serverData feed.queue.flatten
      ((FNode.overwrite V).replay feed.serverData (mergeWrites path l)) feed.queue.flatten :=
    turns_serverMerge hl hwf (h.same rfl h.under).pending hmerge hnext.pending
  exact h.turn hobserved hnext hturns

theorem Follows.listenComplete {path : List FKey} (ha : feed.Admits (.listenComplete path)) :
  Reaches observed feed feed (client.step (.listenComplete path))
  := by
  have hnext := h.same rfl (ha.under _ rfl)
  have hturns : Turns (.listenComplete path) client.serverSyncTree.pendingWriteTree
      feed.serverData feed.queue.flatten feed.serverData feed.queue.flatten :=
    turns_listenComplete hnext.pending ha.plain
  exact h.turn hobserved hnext hturns

theorem Follows.purgeOutstandingWrites (ha : feed.Admits .purgeOutstandingWrites) :
  Reaches observed feed { feed with queue := [] } (client.step .purgeOutstandingWrites)
  := by
  have hpending := (h.same rfl h.under).pending
  have hnext : Next client.writeIdCounter
      { client.serverSyncTree.pendingWriteTree with
        visibleWrites := emptyWrite
        allWrites := [] } { feed with queue := [] } := by
    apply h.next (e := .purgeOutstandingWrites) trivial rfl _ _ (ha.under _ rfl)
    · rw [FRepo.queueStep]
    · intro path nodes writeId hmem
      cases hmem
  rw [step, removeAllWrites]
  dsimp only
  split
  case isTrue hempty =>
    have hqueue : feed.queue = [] := by
      rw [← h.queue, FRepo.queue, repo]
      dsimp only
      rw [List.isEmpty_iff.mp hempty, List.map_nil]
    apply h.still hnext rfl
    rw [Feed.shown, Feed.shown, hqueue]
  case isFalse =>
    have hturns : Turns (.ackUserWrite [] (FImmutableTree.empty.setValue true []) true)
        { client.serverSyncTree.pendingWriteTree with
          visibleWrites := emptyWrite
          allWrites := [] } feed.serverData feed.queue.flatten feed.serverData
        ([] : List (List (List FKey × FNode V))).flatten :=
      turns_removeAllWrites h.under hpending.wf rfl rfl
    exact h.turn hobserved hnext hturns

/-- The oldest pending write is answered. -/
theorem Follows.answer {revert : Bool} {answered : List (List FKey × FNode V)}
    {queue : List (List (List FKey × FNode V))} (hqueue : feed.queue = answered :: queue)
    (ha : feed.Admits (.answer revert)) :
  Reaches observed feed { feed with queue := queue } (client.step (.answer revert))
  := by
  have hunder := ha.under { feed with queue := queue } (by rw [Feed.step, hqueue])
  have hpending := (h.same rfl h.under).pending
  obtain ⟨w, ws, hall, rfl, rfl⟩ : ∃ w ws,
      client.serverSyncTree.pendingWriteTree.allWrites = w :: ws ∧ w.writes = answered ∧ ws.map FWriteRecord.writes = queue := by
    have hmap := h.queue
    rw [hqueue, FRepo.queue, List.map_eq_cons_iff] at hmap
    exact hmap
  have hrecords := h.layered.allWrites
  rw [repo] at hrecords
  dsimp only at hrecords
  rw [hall, List.forall_mem_cons] at hrecords
  obtain ⟨needToReevaluate, writes, hremove, hws, -, -, hcovered⟩ :=
    FWriteTree.removeWriteId_oldest hall hrecords.1.1 (fun u hu => (hrecords.2 u hu).1)
      h.layered.visibleWrites
  have hstep : client.repo.step .ack = some ⟨client.writeIdCounter, writes⟩ := by
    rw [FRepo.step, repo]
    dsimp only
    rw [hall]
    dsimp only
    rw [hremove]
    rfl
  have hnext : Next client.writeIdCounter writes
      { feed with queue := ws.map FWriteRecord.writes } := by
    apply h.next (e := .ack) trivial hstep _ _ hunder
    · rw [hqueue, FRepo.queueStep]
    · intro path nodes writeId hmem
      rw [hws] at hmem
      apply h.merges path nodes writeId
      rw [hall]
      exact List.mem_cons_of_mem w hmem
  have hS := h.under
  have hwf := hpending.wf
  rw [hqueue, List.flatten_cons] at hS hwf
  have hack : client.step (.answer revert) = (if needToReevaluate then
      applyOperationToSyncPoints { client.serverSyncTree with pendingWriteTree := writes }
        (.ackUserWrite w.path (affectedTree w) revert)
      else some ({ client.serverSyncTree with pendingWriteTree := writes }, [])).map
        fun result => ⟨client.writeIdCounter, result.1, result.2⟩ := by
    rw [step, hall]
    dsimp only
    rw [ackUserWriteWithWriteId, hall, List.find?_cons_of_pos (by simp), hremove]
    rfl
  rw [hack]
  cases needToReevaluate with
  | false =>
    -- a later write covers the answered one
    rw [if_neg (by simp), Option.map_some]
    apply h.still hnext rfl
    rw [Feed.shown, Feed.shown, hqueue, List.flatten_cons]
    rcases hwrites : w.writes with _ | ⟨a, as⟩
    · rfl
    · rw [← hwrites]
      symm
      have hmem : a ∈ w.writes := by
        rw [hwrites]
        exact List.mem_cons_self
      have hpath : FKey.priority ∉ w.path := by
        intro hmem'
        apply (hS.clear a (List.mem_append_left _ hmem)).priority_notMem
        exact (hrecords.1.1.path a hmem).1.subset hmem'
      apply hS.replay_append_of_shadowed hwf (fun b hb => (hrecords.1.1.path b hb).1) hpath
      obtain ⟨x, hx, hpre⟩ := hcovered rfl
      refine ⟨x, ?_, hpre⟩
      rw [FWriteTree.pendingWrites, List.flatMap] at hx
      exact hx
  | true =>
    rw [if_pos rfl]
    apply h.turn hobserved hnext
    dsimp only
    rw [hqueue, List.flatten_cons]
    cases w with
    | overwrite path node writeId visible =>
      apply turns_ackUserWrite hnext.pending hS _ rfl
      apply hwf (path, node)
      exact List.mem_append_left _ (List.mem_singleton_self _)
    | merge path nodes writeId =>
      obtain ⟨hof, hpath⟩ := h.merges path nodes writeId (by rw [hall]; exact List.mem_cons_self)
      obtain ⟨l, rfl, hl, hlwf⟩ := hof.exists_eq
      have hwrites : FWriteRecord.writes (.merge path (ofChildren l) writeId)
          = mergeWrites path l := map_forEach_ofChildren path l
      rw [hwrites] at hS ⊢
      rw [affectedTree_merge hl]
      exact turns_ackUserWrite_merge hl hlwf hnext.pending hS hpath revert

/-- Each event the feed admits leaves the client following it. -/
theorem Follows.step {e : FClientEvent V} (ha : feed.Admits e) (hfeed : feed.step e = some feed') :
  Reaches observed feed feed' (client.step e)
  := by
  cases e with
  | set path node =>
    obtain rfl := Option.some.inj hfeed
    apply h.set hobserved ha
  | update path nodes => apply h.update hobserved ha hfeed
  | answer revert =>
    rw [Feed.step] at hfeed
    split at hfeed
    case h_1 => cases hfeed
    case h_2 answered queue hqueue =>
      obtain rfl := Option.some.inj hfeed
      apply h.answer hobserved hqueue ha
  | purgeOutstandingWrites =>
    obtain rfl := Option.some.inj hfeed
    apply h.purgeOutstandingWrites hobserved ha
  | serverOverwrite path node =>
    obtain rfl := Option.some.inj hfeed
    apply h.serverOverwrite hobserved ha
  | serverMerge path children =>
    obtain rfl := Option.some.inj hfeed
    apply h.serverMerge hobserved ha
  | listenComplete path =>
    obtain rfl := Option.some.inj hfeed
    apply h.listenComplete hobserved ha

end Step

/-! ## Runs -/

end FClient

end ForDream

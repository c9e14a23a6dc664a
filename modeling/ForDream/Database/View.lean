import ForDream.Database.Change
import ForDream.Database.WriteTree

/-!
# Views

A view shows the data at a path to the user.  It keeps the data of the server as far as it
is known, and the data it shows: that of the server under the pending writes.  An operation
updates both: the user writes, the server sends data, or a write is acknowledged or
reverted.  The data shown is not calculated anew but updated at the path of the operation,
and the changes of its children are tracked on the way.

These are the views of all data at their path, whose filter is `FIndexedFilter`; views of
queries with limits or ranges are not modelled.
-/

namespace ForDream

variable {V : Type*}

/-! ## Caches -/

/-- Data that may be partial. -/
structure FCacheNode (V : Type*) where
  node : FNode V
  isFullyInitialized : Bool
  isFiltered : Bool

namespace FCacheNode

/-- Whether the child under a key is known. -/
def isCompleteForChild (cache : FCacheNode V) (childKey : FKey) : Bool :=
  cache.isFullyInitialized && !cache.isFiltered || cache.node.hasChild childKey

/-- Whether the data at a path is known. -/
def isCompleteForPath (cache : FCacheNode V) : List FKey → Bool
  | [] => cache.isFullyInitialized && !cache.isFiltered
  | childKey :: _ => cache.isCompleteForChild childKey

end FCacheNode

/-- The data a view shows, and that of the server. -/
structure FViewCache (V : Type*) where
  cachedEventSnap : FCacheNode V
  cachedServerSnap : FCacheNode V

namespace FViewCache

def updateEventSnap (cache : FViewCache V) (eventSnap : FNode V) (complete filtered : Bool) :
    FViewCache V :=
  { cache with cachedEventSnap := ⟨eventSnap, complete, filtered⟩ }

def updateServerSnap (cache : FViewCache V) (serverSnap : FNode V) (complete filtered : Bool) :
    FViewCache V :=
  { cache with cachedServerSnap := ⟨serverSnap, complete, filtered⟩ }

def completeEventSnap (cache : FViewCache V) : Option (FNode V) :=
  if cache.cachedEventSnap.isFullyInitialized then some cache.cachedEventSnap.node else none

def completeServerSnap (cache : FViewCache V) : Option (FNode V) :=
  if cache.cachedServerSnap.isFullyInitialized then some cache.cachedServerSnap.node else none

end FViewCache

/-! ## The pending writes below the path of a view -/

namespace FCompoundWrite

/-- The children that the writes fully overwrite. -/
def completeChildren : FCompoundWrite V → List (FKey × FNode V)
  | .node (some node) _ => node.enumerateChildren
  | .node none children =>
      children.filterMap fun child => child.2.value.map fun node => (child.1, node)

end FCompoundWrite

namespace FWriteTree

/-- The node the pending writes leave at a path whatever the server sends. -/
def shadowingWriteAtPath (tree : FWriteTree V) (path : List FKey) : Option (FNode V) :=
  tree.visibleWrites.completeNodeAtPath path

/-- The children that are known, of the server or from writes. -/
def calculateCompleteEventChildrenAtPath (tree : FWriteTree V) (treePath : List FKey)
    (completeServerChildren : FNode V) : FNode V :=
  match tree.visibleWrites.completeNodeAtPath treePath with
  | some topLevelSet =>
      topLevelSet.enumerateChildren.foldl
        (fun completeChildren child => completeChildren.updateImmediateChild child.1 child.2)
        FNode.emptyNode
  | none =>
      let merge := tree.visibleWrites.childCompoundWriteAtPath treePath
      let completeChildren := completeServerChildren.enumerateChildren.foldl
        (fun completeChildren child => completeChildren.updateImmediateChild child.1
          ((merge.childCompoundWriteAtPath [child.1]).applyToNode child.2))
        FNode.emptyNode
      merge.completeChildren.foldl
        (fun completeChildren child => completeChildren.updateImmediateChild child.1 child.2)
        completeChildren

/-- What the data shown is to be updated with at a path after the server has sent data
there, unless a write shadows it. -/
def calculateEventCacheAfterServerOverwriteAtPath (tree : FWriteTree V)
    (treePath childPath : List FKey) (existingServerSnap : FNode V) : Option (FNode V) :=
  let path := treePath ++ childPath
  if tree.visibleWrites.hasCompleteWriteAtPath path then none
  else
    let childMerge := tree.visibleWrites.childCompoundWriteAtPath path
    if childMerge.isEmpty then some (existingServerSnap.getChild childPath)
    else some (childMerge.applyToNode (existingServerSnap.getChild childPath))

/-- The child under a key under the pending writes, if it is known. -/
def calculateCompleteChildAtPath (tree : FWriteTree V) (treePath : List FKey) (childKey : FKey)
    (existingServerCache : FCacheNode V) : Option (FNode V) :=
  let path := treePath ++ [childKey]
  match tree.visibleWrites.completeNodeAtPath path with
  | some shadowingNode => some shadowingNode
  | none =>
      if existingServerCache.isCompleteForChild childKey then
        let childMerge := tree.visibleWrites.childCompoundWriteAtPath path
        some (childMerge.applyToNode (existingServerCache.node.getImmediateChild childKey))
      else none

end FWriteTree

/-- The pending writes as they are seen from a path. -/
structure FWriteTreeRef (V : Type*) where
  path : List FKey
  writeTree : FWriteTree V

namespace FWriteTreeRef

def shadowingWriteAtPath (writes : FWriteTreeRef V) (path : List FKey) : Option (FNode V) :=
  writes.writeTree.shadowingWriteAtPath (writes.path ++ path)

def calculateCompleteEventCache (writes : FWriteTreeRef V)
    (completeServerCache : Option (FNode V)) : Option (FNode V) :=
  writes.writeTree.calculateCompleteEventCacheAtPath writes.path completeServerCache none false

def calculateCompleteEventChildren (writes : FWriteTreeRef V)
    (completeServerChildren : FNode V) : FNode V :=
  writes.writeTree.calculateCompleteEventChildrenAtPath writes.path completeServerChildren

def calculateEventCacheAfterServerOverwrite (writes : FWriteTreeRef V) (childPath : List FKey)
    (existingServerSnap : FNode V) : Option (FNode V) :=
  writes.writeTree.calculateEventCacheAfterServerOverwriteAtPath writes.path childPath
    existingServerSnap

def calculateCompleteChild (writes : FWriteTreeRef V) (childKey : FKey)
    (existingServerCache : FCacheNode V) : Option (FNode V) :=
  writes.writeTree.calculateCompleteChildAtPath writes.path childKey existingServerCache

end FWriteTreeRef

/-! ## Operations -/

/-- An operation on the data: the user or the server overwrites a node or merges children,
a write of the user is acknowledged or reverted, or the server has sent all data. -/
inductive FOperation (V : Type*) where
  | overwrite (fromUser : Bool) (path : List FKey) (snap : FNode V)
  | merge (fromUser : Bool) (path : List FKey) (children : FCompoundWrite V)
  | ackUserWrite (path : List FKey) (affectedTree : FImmutableTree Bool) (revert : Bool)
  | listenComplete (path : List FKey)

namespace FOperation

def path : FOperation V → List FKey
  | .overwrite _ path _ => path
  | .merge _ path _ => path
  | .ackUserWrite path _ _ => path
  | .listenComplete path => path

/-- The operation as it is seen from a child: nothing for a merge that does not write it. -/
def operationForChild : FOperation V → FKey → Option (FOperation V)
  | .overwrite fromUser [] snap, childKey =>
      some (.overwrite fromUser [] (snap.getImmediateChild childKey))
  | .overwrite fromUser (_ :: path) snap, _ => some (.overwrite fromUser path snap)
  | .merge fromUser [] children, childKey =>
      let childTree := children.childCompoundWriteAtPath [childKey]
      if childTree.isEmpty then none
      else
        match childTree.value with
        | some rootWrite => some (.overwrite fromUser [] rootWrite)
        | none => some (.merge fromUser [] childTree)
  | .merge fromUser (_ :: path) children, _ => some (.merge fromUser path children)
  | .ackUserWrite [] affectedTree revert, childKey =>
      if affectedTree.value.isSome then some (.ackUserWrite [] affectedTree revert)
      else some (.ackUserWrite [] (affectedTree.subtreeAtPath [childKey]) revert)
  | .ackUserWrite (_ :: path) affectedTree revert, _ =>
      some (.ackUserWrite path affectedTree revert)
  | .listenComplete [], _ => some (.listenComplete [])
  | .listenComplete (_ :: path), _ => some (.listenComplete path)

end FOperation

/-! ## The processor of a view -/

namespace FViewProcessor

open FIndexedFilter

/-- A child of the data shown, or calculated from the data of the server if it is not
there. -/
def completeChild (writes : FWriteTreeRef V) (viewCache : FViewCache V)
    (optCompleteServerCache : Option (FNode V)) (childKey : FKey) : Option (FNode V) :=
  if viewCache.cachedEventSnap.isCompleteForChild childKey then
    some (viewCache.cachedEventSnap.node.getImmediateChild childKey)
  else
    let serverNode :=
      match optCompleteServerCache with
      | some serverCache => ⟨serverCache, true, false⟩
      | none => viewCache.cachedServerSnap
    writes.calculateCompleteChild childKey serverNode

/-- A child with another node at a path below it, written by the user. -/
def overwrittenChild (oldViewCache : FViewCache V) (childKey : FKey)
    (childChangePath : List FKey) (changedSnap : FNode V) (writesCache : FWriteTreeRef V)
    (optCompleteCache : Option (FNode V)) : FNode V :=
  if childChangePath.isEmpty then changedSnap
  else
    match completeChild writesCache oldViewCache optCompleteCache childKey with
    | some childNode =>
        -- the server sends the priority of a node that is empty here
        if childChangePath.getLast? = some FKey.priority
            ∧ (childNode.getChild childChangePath.dropLast).isEmpty then childNode
        else childNode.updateChild childChangePath changedSnap
    | none => FNode.emptyNode

/-- A merge below a path as a merge of the whole data. -/
def actualMerge (path : List FKey) (changedChildren : FCompoundWrite V) : FCompoundWrite V :=
  if path.isEmpty then changedChildren
  else FCompoundWrite.emptyWrite.addCompoundWrite changedChildren path

/-- A cache and the changes tracked so far.  There is none after an operation if the
tracking raises an exception or data is missing. -/
abbrev Tracked (V : Type*) : Type _ := FViewCache V × Option (FChildChangeAccumulator V)

variable [DecidableEq V]

/-- The data shown after the data of the server has changed at a path. -/
def generateEventCacheAfterServerEvent (viewCache : FViewCache V) (changePath : List FKey)
    (writesCache : FWriteTreeRef V) (accumulator : Option (FChildChangeAccumulator V)) :
    Option (Tracked V) :=
  let oldEventSnap := viewCache.cachedEventSnap
  if (writesCache.shadowingWriteAtPath changePath).isSome then some (viewCache, accumulator)
  else do
    let (newEventCache, accumulator) ←
      match changePath with
      | [] => do
          let nodeWithLocalWrites ←
            if viewCache.cachedServerSnap.isFiltered then
              let completeChildren := (viewCache.completeServerSnap.filter fun serverCache =>
                !serverCache.isLeafNode).getD FNode.emptyNode
              some (writesCache.calculateCompleteEventChildren completeChildren)
            else writesCache.calculateCompleteEventCache viewCache.completeServerSnap
          updateFullNode oldEventSnap.node nodeWithLocalWrites accumulator
      | childKey :: childChangePath =>
          let serverNode := viewCache.cachedServerSnap.node
          let update :=
            writesCache.calculateEventCacheAfterServerOverwrite changePath serverNode
          if childKey = FKey.priority then
            match update with
            | some updatedPriority =>
                some (updatePriority updatedPriority oldEventSnap.node, accumulator)
            | none => some (oldEventSnap.node, accumulator)
          else
            let oldEventChild := oldEventSnap.node.getImmediateChild childKey
            let newEventChild :=
              if oldEventSnap.isCompleteForChild childKey then
                match update with
                | some eventChildUpdate =>
                    some (oldEventChild.updateChild childChangePath eventChildUpdate)
                | none => some oldEventChild
              else writesCache.calculateCompleteChild childKey viewCache.cachedServerSnap
            match newEventChild with
            | some newEventChild =>
                updateChildIn oldEventSnap.node childKey newEventChild childChangePath accumulator
            | none => some (oldEventSnap.node, accumulator)
    let complete := oldEventSnap.isFullyInitialized || changePath.isEmpty
    some (viewCache.updateEventSnap newEventCache complete filtersNodes, accumulator)

/-- The server overwrites the data at a path. -/
def applyServerOverwriteTo (oldViewCache : FViewCache V) (changePath : List FKey)
    (changedSnap : FNode V) (writesCache : FWriteTreeRef V)
    (accumulator : Option (FChildChangeAccumulator V)) : Option (Tracked V) :=
  let oldServerSnap := oldViewCache.cachedServerSnap
  let generate (newServerCache : FNode V) : Option (Tracked V) :=
    let complete := oldServerSnap.isFullyInitialized || changePath.isEmpty
    generateEventCacheAfterServerEvent
      (oldViewCache.updateServerSnap newServerCache complete filtersNodes) changePath writesCache
      accumulator
  match changePath with
  | [] => do
      let (newServerCache, _) ← updateFullNode oldServerSnap.node changedSnap none
      generate newServerCache
  | childKey :: childChangePath =>
      -- updates for other listeners do not make an incomplete node
      if !oldServerSnap.isCompleteForPath changePath ∧ changePath.length > 1 then
        some (oldViewCache, accumulator)
      else
        let childNode := oldServerSnap.node.getImmediateChild childKey
        let newChildNode := childNode.updateChild childChangePath changedSnap
        if childKey = FKey.priority then generate (updatePriority newChildNode oldServerSnap.node)
        else do
          let (newServerCache, _) ←
            updateChildIn oldServerSnap.node childKey newChildNode childChangePath none
          generate newServerCache

/-- The user overwrites the data at a path. -/
def applyUserOverwriteTo (oldViewCache : FViewCache V) (changePath : List FKey)
    (changedSnap : FNode V) (writesCache : FWriteTreeRef V)
    (optCompleteCache : Option (FNode V)) (accumulator : Option (FChildChangeAccumulator V)) :
    Option (Tracked V) :=
  let oldEventSnap := oldViewCache.cachedEventSnap
  match changePath with
  | [] => do
      let (newEventCache, accumulator) ←
        updateFullNode oldEventSnap.node changedSnap accumulator
      some (oldViewCache.updateEventSnap newEventCache true filtersNodes, accumulator)
  | childKey :: childChangePath =>
      if childKey = FKey.priority then
        let newEventCache := updatePriority changedSnap oldEventSnap.node
        some (oldViewCache.updateEventSnap newEventCache oldEventSnap.isFullyInitialized
          oldEventSnap.isFiltered, accumulator)
      else
        let oldChild := oldEventSnap.node.getImmediateChild childKey
        let newChild := overwrittenChild oldViewCache childKey childChangePath changedSnap
          writesCache optCompleteCache
        if oldChild.isEqual newChild then some (oldViewCache, accumulator)
        else do
          let (newEventSnap, accumulator) ←
            updateChildIn oldEventSnap.node childKey newChild childChangePath accumulator
          some (oldViewCache.updateEventSnap newEventSnap oldEventSnap.isFullyInitialized
            filtersNodes, accumulator)

omit [DecidableEq V] in
/-- Whether the data shown has the child a path leads to. -/
def cacheHasChild (viewCache : FViewCache V) (writePath : List FKey) : Bool :=
  viewCache.cachedEventSnap.isCompleteForPath (writePath.take 1)

/-- The user merges children below a path: those in the data shown come first. -/
def applyUserMergeTo (viewCache : FViewCache V) (path : List FKey)
    (changedChildren : FCompoundWrite V) (writesCache : FWriteTreeRef V)
    (serverCache : Option (FNode V)) (accumulator : Option (FChildChangeAccumulator V)) :
    Option (Tracked V) := do
  let overwrite (cur : Tracked V)
      (write : List FKey × FNode V) : Option (Tracked V) :=
    applyUserOverwriteTo cur.1 (path ++ write.1) write.2 writesCache serverCache cur.2
  let cur ← changedChildren.forEach.foldlM
    (fun cur write => if cacheHasChild viewCache (path ++ write.1) then overwrite cur write
      else some cur) (viewCache, accumulator)
  changedChildren.forEach.foldlM
    (fun cur write => if cacheHasChild viewCache (path ++ write.1) then some cur
      else overwrite cur write) cur

/-- The server merges children below a path: those in the data of the server come first. -/
def applyServerMergeTo (viewCache : FViewCache V) (path : List FKey)
    (changedChildren : FCompoundWrite V) (writesCache : FWriteTreeRef V)
    (accumulator : Option (FChildChangeAccumulator V)) : Option (Tracked V) :=
  let serverSnap := viewCache.cachedServerSnap
  if serverSnap.node.isEmpty ∧ !serverSnap.isFullyInitialized then some (viewCache, accumulator)
  else do
    let overwrite (cur : Tracked V)
        (child : FKey × FCompoundWrite V) : Option (Tracked V) :=
      applyServerOverwriteTo cur.1 [child.1]
        (child.2.applyToNode (serverSnap.node.getImmediateChild child.1)) writesCache cur.2
    let cur ← (actualMerge path changedChildren).children.foldlM
      (fun cur child => if serverSnap.node.hasChild child.1 then overwrite cur child
        else some cur) (viewCache, accumulator)
    (actualMerge path changedChildren).children.foldlM
      (fun cur child =>
        let isUnknownDeepMerge := !serverSnap.isCompleteForChild child.1 && child.2.value.isNone
        if !serverSnap.node.hasChild child.1 ∧ !isUnknownDeepMerge then overwrite cur child
        else some cur) cur

/-- A write of the user is acknowledged: the data of the server at its paths is applied
again, now that the write does not shadow it. -/
def ackUserWriteOn (viewCache : FViewCache V) (ackPath : List FKey)
    (affectedTree : FImmutableTree Bool) (writesCache : FWriteTreeRef V)
    (accumulator : Option (FChildChangeAccumulator V)) : Option (Tracked V) :=
  let serverCache := viewCache.cachedServerSnap
  if (writesCache.shadowingWriteAtPath ackPath).isSome then some (viewCache, accumulator)
  else if affectedTree.value.isSome then
    if ackPath.isEmpty ∧ serverCache.isFullyInitialized
        ∨ serverCache.isCompleteForPath ackPath then
      applyServerOverwriteTo viewCache ackPath (serverCache.node.getChild ackPath) writesCache
        accumulator
    else if ackPath.isEmpty then
      let changedChildren := serverCache.node.enumerateChildren.foldl
        (fun changedChildren child => changedChildren.addWrite child.2 [child.1])
        FCompoundWrite.emptyWrite
      applyServerMergeTo viewCache ackPath changedChildren writesCache accumulator
    else some (viewCache, accumulator)
  else
    let changedChildren := affectedTree.forEach.foldl
      (fun changedChildren affected =>
        if serverCache.isCompleteForPath (ackPath ++ affected.1) then
          changedChildren.addWrite (serverCache.node.getChild (ackPath ++ affected.1)) affected.1
        else changedChildren)
      FCompoundWrite.emptyWrite
    applyServerMergeTo viewCache ackPath changedChildren writesCache accumulator

/-- A write of the user is reverted. -/
def revertUserWriteOn (viewCache : FViewCache V) (path : List FKey)
    (writesCache : FWriteTreeRef V) (accumulator : Option (FChildChangeAccumulator V)) :
    Option (Tracked V) :=
  let serverSnap := viewCache.cachedServerSnap
  let oldEventCache := viewCache.cachedEventSnap.node
  let revertAll : Option (FNode V × Option (FChildChangeAccumulator V)) := do
    let newNode ←
      if serverSnap.isFullyInitialized then
        writesCache.calculateCompleteEventCache viewCache.completeServerSnap
      else some (writesCache.calculateCompleteEventChildren serverSnap.node)
    updateFullNode oldEventCache newNode accumulator
  if (writesCache.shadowingWriteAtPath path).isSome then some (viewCache, accumulator)
  else do
    let (newEventCache, accumulator) ←
      match path with
      | [] => revertAll
      | childKey :: affectedPath =>
          if childKey = FKey.priority then revertAll
          else do
            let oldChild := oldEventCache.getImmediateChild childKey
            let newChild :=
              match writesCache.calculateCompleteChild childKey serverSnap with
              | some newChild => some newChild
              | none => if serverSnap.isCompleteForChild childKey then some oldChild else none
            let (newEventCache, accumulator) ←
              match newChild with
              | some newChild =>
                  updateChildIn oldEventCache childKey newChild affectedPath accumulator
              | none =>
                  if oldEventCache.hasChild childKey then
                    updateChildIn oldEventCache childKey FNode.emptyNode affectedPath accumulator
                  else some (oldEventCache, accumulator)
            if newEventCache.isEmpty ∧ serverSnap.isFullyInitialized then
              -- all writes of children may be reverted, and the data a leaf
              match writesCache.calculateCompleteEventCache viewCache.completeServerSnap with
              | some complete =>
                  if complete.isLeafNode then updateFullNode newEventCache complete accumulator
                  else some (newEventCache, accumulator)
              | none => some (newEventCache, accumulator)
            else some (newEventCache, accumulator)
    let complete :=
      serverSnap.isFullyInitialized || (writesCache.shadowingWriteAtPath []).isSome
    some (viewCache.updateEventSnap newEventCache complete filtersNodes, accumulator)

/-- The server has sent all data at a path. -/
def listenComplete (viewCache : FViewCache V) (path : List FKey) (writesCache : FWriteTreeRef V)
    (accumulator : Option (FChildChangeAccumulator V)) : Option (Tracked V) :=
  let oldServerNode := viewCache.cachedServerSnap
  let complete := oldServerNode.isFullyInitialized || path.isEmpty
  generateEventCacheAfterServerEvent
    (viewCache.updateServerSnap oldServerNode.node complete oldServerNode.isFiltered) path
    writesCache accumulator

/-- The changes with that of the value, if there are any, or if the value changes in a way
its children do not show. -/
def maybeAddValue (oldViewCache newViewCache : FViewCache V) (changes : List (FChange V)) :
    List (FChange V) :=
  let eventSnap := newViewCache.cachedEventSnap
  if eventSnap.isFullyInitialized then
    let isLeafOrEmpty := eventSnap.node.isLeafNode || eventSnap.node.isEmpty
    let changed :=
      match oldViewCache.completeEventSnap with
      | none => true
      | some oldNode =>
          isLeafOrEmpty && !eventSnap.node.isEqual oldNode
            || !eventSnap.node.getPriority.isEqual oldNode.getPriority
    if !changes.isEmpty || changed then changes ++ [.value eventSnap.node] else changes
  else changes

/-- The cache after an operation, and the changes to raise. -/
def applyOperationOn (oldViewCache : FViewCache V) (operation : FOperation V)
    (writesCache : FWriteTreeRef V) (optCompleteCache : Option (FNode V)) :
    Option (FViewCache V × List (FChange V)) := do
  let accumulator := some FChildChangeAccumulator.init
  let (newViewCache, accumulator) ←
    match operation with
    | .overwrite true path snap =>
        applyUserOverwriteTo oldViewCache path snap writesCache optCompleteCache accumulator
    | .overwrite false path snap =>
        applyServerOverwriteTo oldViewCache path snap writesCache accumulator
    | .merge true path children =>
        applyUserMergeTo oldViewCache path children writesCache optCompleteCache accumulator
    | .merge false path children =>
        applyServerMergeTo oldViewCache path children writesCache accumulator
    | .ackUserWrite path affectedTree false =>
        ackUserWriteOn oldViewCache path affectedTree writesCache accumulator
    | .ackUserWrite path _ true => revertUserWriteOn oldViewCache path writesCache accumulator
    | .listenComplete path => listenComplete oldViewCache path writesCache accumulator
  let changes := (accumulator.map FChildChangeAccumulator.changes).getD []
  some (newViewCache, maybeAddValue oldViewCache newViewCache changes)

end FViewProcessor

end ForDream

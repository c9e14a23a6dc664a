import ForDream.Database.Overlay
import ForDream.Lib.Machine

/-!
# Pending writes

`FWriteTree` keeps the writes of the user that the server has not acknowledged: all of
them, in order, and the visible ones layered into one compound write.  When a write is
acknowledged it is removed.  If a later write covers it, the layered write stays as it
is; if it meets another write, the layered write is made anew; otherwise the write is
removed from the layered write.

The server answers writes in the order they are made.  For writes that are visible, and
merges of children only, the layered write is throughout the one made from the pending
writes, and what it leaves of the data of the server is what the pending writes leave,
made one after the other.
-/

namespace ForDream

/-- A write of the user: of a node at a path, or of several nodes below it.  Only the
former may be hidden. -/
inductive FWriteRecord (V : Type*) where
  | overwrite (path : List FKey) (node : FNode V) (writeId : ℤ) (visible : Bool)
  | merge (path : List FKey) (merge : FCompoundWrite V) (writeId : ℤ)

namespace FWriteRecord

variable {V : Type*}

def path : FWriteRecord V → List FKey
  | .overwrite path _ _ _ => path
  | .merge path _ _ => path

def writeId : FWriteRecord V → ℤ
  | .overwrite _ _ writeId _ => writeId
  | .merge _ _ writeId => writeId

def visible : FWriteRecord V → Bool
  | .overwrite _ _ _ visible => visible
  | .merge _ _ _ => true

end FWriteRecord

/-- The pending writes. -/
structure FWriteTree (V : Type*) where
  visibleWrites : FCompoundWrite V
  allWrites : List (FWriteRecord V)
  lastWriteId : ℤ

namespace FWriteTree

open FCompoundWrite

variable {V : Type*}

/-- No pending writes. -/
def init : FWriteTree V where
  visibleWrites := emptyWrite
  allWrites := []
  lastWriteId := -1

/-- A write at a path is recorded, unless its number is not after the last one. -/
def addOverwriteAtPath (tree : FWriteTree V) (path : List FKey) (newData : FNode V)
    (writeId : ℤ) (visible : Bool) : Option (FWriteTree V) :=
  if writeId > tree.lastWriteId then
    some
      { visibleWrites := if visible then tree.visibleWrites.addWrite newData path
          else tree.visibleWrites
        allWrites := tree.allWrites ++ [.overwrite path newData writeId visible]
        lastWriteId := writeId }
  else none

/-- A merge below a path is recorded, unless its number is not after the last one. -/
def addMergeAtPath (tree : FWriteTree V) (path : List FKey) (changedChildren : FCompoundWrite V)
    (writeId : ℤ) : Option (FWriteTree V) :=
  if writeId > tree.lastWriteId then
    some
      { visibleWrites := tree.visibleWrites.addCompoundWrite changedChildren path
        allWrites := tree.allWrites ++ [.merge path changedChildren writeId]
        lastWriteId := writeId }
  else none

/-- Whether a write overwrites all of a path. -/
def recordContainsPath (record : FWriteRecord V) (path : List FKey) : Bool :=
  match record with
  | .overwrite recordPath _ _ _ => FPath.containsLoop recordPath path
  | .merge recordPath merge _ =>
      merge.forEach.any fun e => FPath.containsLoop (recordPath ++ e.1) path

/-- A record is layered over a compound write at a path: what it writes at the path and
below, or of the node it writes above the path the part at the path. -/
def layerRecord (treeRoot : List FKey) (compoundWrite : FCompoundWrite V)
    (record : FWriteRecord V) : FCompoundWrite V :=
  let writePath := record.path
  if FPath.containsLoop treeRoot writePath then
    let relativePath := (FPath.relativePieces treeRoot writePath).getD []
    match record with
    | .overwrite _ node _ _ => compoundWrite.addWrite node relativePath
    | .merge _ merge _ => compoundWrite.addCompoundWrite merge relativePath
  else if FPath.containsLoop writePath treeRoot then
    let relativePath := (FPath.relativePieces writePath treeRoot).getD []
    match record with
    | .overwrite _ node _ _ => compoundWrite.addWrite (node.getChild relativePath) []
    | .merge _ merge _ =>
        if relativePath.isEmpty then compoundWrite.addCompoundWrite merge []
        else
          match merge.completeNodeAtPath relativePath with
          | some child => compoundWrite.addWrite (child.getChild relativePath.tail) []
          | none => compoundWrite
  else compoundWrite

/-- The records that pass a filter, layered in order. -/
def layerTreeFromWrites (writes : List (FWriteRecord V)) (filter : FWriteRecord V → Bool)
    (treeRoot : List FKey) : FCompoundWrite V :=
  (writes.filter filter).foldl (layerRecord treeRoot) emptyWrite

/-- The filter that lets every record pass, hidden ones too. -/
def defaultFilter : FWriteRecord V → Bool := fun _ => true

/-- The layered write is made anew. -/
def resetTree (tree : FWriteTree V) : FWriteTree V where
  visibleWrites := layerTreeFromWrites tree.allWrites defaultFilter []
  allWrites := tree.allWrites
  lastWriteId :=
    match tree.allWrites.getLast? with
    | some lastRecord => lastRecord.writeId
    | none => -1

/-- The loop over the other records, the last one first: whether the removed write was
visible, and whether it meets other writes. -/
def removalLoop (writeToRemove : FWriteRecord V) (index : ℕ) :
    List (FWriteRecord V × ℕ) → Bool → Bool → Bool × Bool
  | [], wasVisible, overlaps => (wasVisible, overlaps)
  | (currentWrite, i) :: rest, wasVisible, overlaps =>
      if wasVisible then
        if currentWrite.visible then
          if i ≥ index ∧ recordContainsPath currentWrite writeToRemove.path then
            removalLoop writeToRemove index rest false overlaps
          else if FPath.containsLoop writeToRemove.path currentWrite.path then
            removalLoop writeToRemove index rest wasVisible true
          else removalLoop writeToRemove index rest wasVisible overlaps
        else removalLoop writeToRemove index rest wasVisible overlaps
      else (wasVisible, overlaps)

/-- A write is removed; the result says whether it may have been visible.  Nothing where
there is no such write. -/
def removeWriteId (tree : FWriteTree V) (writeId : ℤ) : Option (Bool × FWriteTree V) :=
  match tree.allWrites.findIdx? fun record => record.writeId = writeId with
  | none => none
  | some index =>
    match tree.allWrites[index]? with
    | none => none
    | some writeToRemove =>
      let tree := { tree with allWrites := tree.allWrites.eraseIdx index }
      match removalLoop writeToRemove index tree.allWrites.zipIdx.reverse writeToRemove.visible
        false with
      | (false, _) => some (false, tree)
      | (true, true) => some (true, tree.resetTree)
      | (true, false) =>
          let visibleWrites :=
            match writeToRemove with
            | .overwrite path _ _ _ => tree.visibleWrites.removeWriteAtPath path
            | .merge path merge _ => merge.forEach.foldl
                (fun writes e => removeWriteAtPath writes (path ++ e.1)) tree.visibleWrites
          some (true, { tree with visibleWrites := visibleWrites })

/-- The data at a path as the user is to see it: the data of the server, if it is known,
under the pending writes, without excluded ones and with the hidden ones if asked for. -/
def calculateCompleteEventCacheAtPath (tree : FWriteTree V) (treePath : List FKey)
    (completeServerCache : Option (FNode V)) (writeIdsToExclude : Option (List ℤ))
    (includeHiddenWrites : Bool) : Option (FNode V) :=
  if writeIdsToExclude.isNone ∧ ¬ includeHiddenWrites then
    match tree.visibleWrites.completeNodeAtPath treePath with
    | some shadowingNode => some shadowingNode
    | none =>
        let subMerge := tree.visibleWrites.childCompoundWriteAtPath treePath
        if subMerge.isEmpty then completeServerCache
        else if completeServerCache.isNone ∧ ¬ subMerge.hasCompleteWriteAtPath [] then none
        else some (subMerge.applyToNode (completeServerCache.getD FNode.emptyNode))
  else
    let merge := tree.visibleWrites.childCompoundWriteAtPath treePath
    if ¬ includeHiddenWrites ∧ merge.isEmpty then completeServerCache
    else if ¬ includeHiddenWrites ∧ completeServerCache.isNone
        ∧ ¬ merge.hasCompleteWriteAtPath [] then none
    else
      let filter := fun record : FWriteRecord V =>
        (record.visible || includeHiddenWrites)
          && !((writeIdsToExclude.getD []).contains record.writeId)
          && (FPath.containsLoop record.path treePath || FPath.containsLoop treePath record.path)
      let mergeAtPath := layerTreeFromWrites tree.allWrites filter treePath
      some (mergeAtPath.applyToNode (completeServerCache.getD FNode.emptyNode))

end FWriteTree

/-! ## The single writes of a record -/

namespace FWriteRecord

variable {V : Type*}

/-- The writes of a record, one by one. -/
def writes : FWriteRecord V → List (List FKey × FNode V)
  | .overwrite path node _ _ => [(path, node)]
  | .merge path changes _ => changes.forEach.map fun e => (path ++ e.1, e.2)

/-- A visible write of well-formed nodes, all at the path of the record or one key below
it, and none below another one. -/
structure Plain (record : FWriteRecord V) : Prop where
  visible : record.visible = true
  wf : ∀ w ∈ record.writes, w.2.Wf
  path : ∀ w ∈ record.writes, record.path <+: w.1 ∧ w.1.length ≤ record.path.length + 1
  apart : record.writes.Pairwise fun v w => ¬ v.1 <+: w.1 ∧ ¬ w.1 <+: v.1

theorem recordContainsPath_iff {record : FWriteRecord V} {p : List FKey} :
  FWriteTree.recordContainsPath record p = true ↔ ∃ w ∈ record.writes, w.1 <+: p
  := by
  cases record with
  | overwrite path node writeId visible =>
    rw [FWriteTree.recordContainsPath, FPath.containsLoop_iff]
    simp [writes, List.IsPrefix]
  | merge path merge writeId =>
    rw [FWriteTree.recordContainsPath, List.any_eq_true]
    simp only [writes, List.mem_map, FPath.containsLoop_iff]
    constructor
    · rintro ⟨e, he, hpre⟩
      exact ⟨_, ⟨e, he, rfl⟩, hpre⟩
    · rintro ⟨_, ⟨e, he, rfl⟩, hpre⟩
      exact ⟨e, he, hpre⟩

/-- Writes of two records that do not meet are not below one another. -/
theorem Plain.apart_of_not_meet {u v : FWriteRecord V} (hu : u.Plain) (hv : v.Plain)
    (hshadow : ¬ ∃ x ∈ u.writes, x.1 <+: v.path) (hmeet : ¬ v.path <+: u.path)
    {a x : List FKey × FNode V} (ha : a ∈ v.writes) (hx : x ∈ u.writes) :
  ¬ a.1 <+: x.1 ∧ ¬ x.1 <+: a.1
  := by
  obtain ⟨hva, hlena⟩ := hv.path a ha
  obtain ⟨hux, hlenx⟩ := hu.path x hx
  have hnot : ¬ x.1 <+: v.path := fun h => hshadow ⟨x, hx, h⟩
  -- a write that the path of the other record is above would meet it
  have habove : ¬ v.path <+: x.1 := by
    intro hvx
    rcases List.prefix_or_prefix_of_prefix hvx hux with h | h
    · contradiction
    · rcases Nat.lt_or_ge u.path.length v.path.length with hlt | hge
      · apply hnot
        rw [hvx.eq_of_length_le (by omega)]
      · apply hmeet
        rw [h.eq_of_length_le hge]
  constructor
  · intro h
    apply habove (hva.trans h)
  · intro h
    rcases List.prefix_or_prefix_of_prefix h hva with h | h
    · contradiction
    · contradiction

end FWriteRecord

namespace FWriteTree

open FCompoundWrite

variable {V : Type*} {w : FWriteRecord V} {ws : List (FWriteRecord V)}
  {as bs : List (List FKey × FNode V)} {p : List FKey}

/-- The pending writes, one by one. -/
def pendingWrites (ws : List (FWriteRecord V)) : List (List FKey × FNode V) :=
  ws.flatMap FWriteRecord.writes

/-- Layering records is adding their writes one after the other. -/
theorem layerTreeFromWrites_eq (ws : List (FWriteRecord V)) :
  layerTreeFromWrites ws defaultFilter [] = (overwrite V).replay emptyWrite (pendingWrites ws)
  := by
  have hrecord : ∀ (cw : FCompoundWrite V) (record : FWriteRecord V),
      layerRecord [] cw record = (overwrite V).replay cw record.writes := by
    intro cw record
    cases record with
    | overwrite => rfl
    | merge path changes writeId =>
      rw [FWriteRecord.writes, Overwrite.replay, List.foldl_map]
      rfl
  have hfilter : ws.filter defaultFilter = ws := List.filter_true ws
  rw [layerTreeFromWrites, hfilter, pendingWrites, Overwrite.replay, List.foldl_flatMap]
  congr 1
  funext cw record
  apply hrecord

theorem wf_replay {cw : FCompoundWrite V} (h : cw.Wf) (has : ∀ a ∈ as, a.2.Wf) :
  Wf ((overwrite V).replay cw as)
  := by
  induction as generalizing cw with
  | nil => exact h
  | cons a as ih =>
    rw [List.forall_mem_cons] at has
    apply ih (h.addWrite has.1 a.1) has.2

theorem vacant_replay {cw : FCompoundWrite V} (h : cw.Wf) (hvacant : cw.Vacant p)
    (has : ∀ a ∈ as, a.2.Wf) (hapart : ∀ a ∈ as, ¬ p <+: a.1 ∧ ¬ a.1 <+: p) :
  Vacant ((overwrite V).replay cw as) p
  := by
  induction as generalizing cw with
  | nil => exact hvacant
  | cons a as ih =>
    rw [List.forall_mem_cons] at has hapart
    apply ih (h.addWrite has.1 a.1) (hvacant.addWrite h hapart.1.1 hapart.1.2 a.2) has.2 hapart.2

/-- Writes that no other ones meet are removed one after the other. -/
theorem foldl_removeWriteAtPath (has : ∀ a ∈ as, a.2.Wf) (hbs : ∀ b ∈ bs, b.2.Wf)
    (hapart : as.Pairwise fun a b => ¬ a.1 <+: b.1 ∧ ¬ b.1 <+: a.1)
    (hmeet : ∀ a ∈ as, ∀ b ∈ bs, ¬ a.1 <+: b.1 ∧ ¬ b.1 <+: a.1) :
  as.foldl (fun cw a => removeWriteAtPath cw a.1) ((overwrite V).replay emptyWrite (as ++ bs))
    = (overwrite V).replay emptyWrite bs
  := by
  induction as with
  | nil => rfl
  | cons a as ih =>
    rw [List.forall_mem_cons] at has hmeet
    rw [List.pairwise_cons] at hapart
    have hall : ∀ b ∈ as ++ bs, b.2.Wf := by
      intro b hb
      rcases List.mem_append.mp hb with hb | hb
      · apply has.2 b hb
      · apply hbs b hb
    have hnot : ∀ b ∈ as ++ bs, ¬ a.1 <+: b.1 ∧ ¬ b.1 <+: a.1 := by
      intro b hb
      rcases List.mem_append.mp hb with hb | hb
      · apply hapart.1 b hb
      · apply hmeet.1 b hb
    have hclear : (overwrite V).Clear emptyWrite a.1 := ⟨wf_empty, (vacant_empty a.1).free⟩
    rw [List.foldl_cons, List.cons_append, Overwrite.replay_cons,
      Overwrite.replay_put has.1 hclear hall hnot]
    have hremove : removeWriteAtPath
        ((overwrite V).put ((overwrite V).replay emptyWrite (as ++ bs)) a.1 a.2) a.1
        = (overwrite V).replay emptyWrite (as ++ bs) :=
      removeWriteAtPath_addWrite (wf_replay wf_empty hall)
        (vacant_replay wf_empty (vacant_empty a.1) hall hnot) has.1
    rw [hremove, ih has.2 hapart.2 hmeet.2]

/-- Writes that a later one covers are without effect. -/
theorem replay_of_covered (has : ∀ a ∈ as, a.2.Wf) (hbs : ∀ b ∈ bs, b.2.Wf)
    (hcovered : ∀ a ∈ as, ∃ b ∈ bs, b.1 <+: a.1) :
  (overwrite V).replay emptyWrite (as ++ bs) = (overwrite V).replay emptyWrite bs
  := by
  induction as with
  | nil => rfl
  | cons a as ih =>
    rw [List.forall_mem_cons] at has hcovered
    have hall : ∀ b ∈ as ++ bs, b.2.Wf := by
      intro b hb
      rcases List.mem_append.mp hb with hb | hb
      · apply has.2 b hb
      · apply hbs b hb
    obtain ⟨b, hb, hba⟩ := hcovered.1
    have hclear : (overwrite V).Clear emptyWrite a.1 := ⟨wf_empty, (vacant_empty a.1).free⟩
    rw [List.cons_append, Overwrite.replay_cons,
      Overwrite.replay_shadowed has.1 hclear hall ⟨b, List.mem_append_right _ hb, hba⟩,
      ih has.2 hcovered.2]

/-- The loop finds a visible record that covers the removed one and was made after it. -/
theorem removalLoop_of_covered {l : List (FWriteRecord V × ℕ)}
    (hl : ∀ e ∈ l, e.1.visible = true) (overlaps : Bool)
    (h : ∃ e ∈ l, recordContainsPath e.1 w.path = true) :
  (removalLoop w 0 l true overlaps).1 = false
  := by
  induction l generalizing overlaps with
  | nil =>
    obtain ⟨e, he, -⟩ := h
    cases he
  | cons e l ih =>
    rw [List.forall_mem_cons] at hl
    rw [removalLoop, if_pos rfl, if_pos hl.1]
    split
    case isTrue =>
      cases l with
      | nil => rfl
      | cons => rw [removalLoop, if_neg (by simp)]
    case isFalse hshadow =>
      have hrest : ∃ e ∈ l, recordContainsPath e.1 w.path = true := by
        obtain ⟨f, hf, hcovers⟩ := h
        rcases List.mem_cons.mp hf with rfl | hf
        · exact absurd ⟨Nat.zero_le _, hcovers⟩ hshadow
        · use f
      split
      · apply ih hl.2 true hrest
      · apply ih hl.2 overlaps hrest

/-- If no record covers the removed one, the loop finds out whether it meets one. -/
theorem removalLoop_of_not_covered {l : List (FWriteRecord V × ℕ)}
    (hl : ∀ e ∈ l, e.1.visible = true) (overlaps : Bool)
    (h : ∀ e ∈ l, recordContainsPath e.1 w.path = false) :
  removalLoop w 0 l true overlaps
    = (true, overlaps || l.any fun e => FPath.containsLoop w.path e.1.path)
  := by
  induction l generalizing overlaps with
  | nil => simp [removalLoop]
  | cons e l ih =>
    rw [List.forall_mem_cons] at hl h
    rw [removalLoop, if_pos rfl, if_pos hl.1, if_neg (by simp [h.1]), List.any_cons]
    split
    case isTrue hmeets => rw [ih hl.2 true h.2, hmeets, Bool.true_or, Bool.or_true]
    case isFalse hmeets =>
      rw [Bool.not_eq_true] at hmeets
      rw [ih hl.2 overlaps h.2, hmeets, Bool.false_or]

theorem mem_of_mem_zipIdx_reverse {e : FWriteRecord V × ℕ} (he : e ∈ ws.zipIdx.reverse) :
  e.1 ∈ ws
  := by
  rw [List.mem_reverse] at he
  obtain ⟨_, _, hget⟩ := List.mem_zipIdx he
  rw [hget]
  apply List.getElem_mem

/-- A pending write that is the oldest is found and taken off the list. -/
theorem removeWriteId_eq {tree : FWriteTree V} (hall : tree.allWrites = w :: ws) :
  tree.removeWriteId w.writeId
    = match removalLoop w 0 ws.zipIdx.reverse w.visible false with
      | (false, _) => some (false, { tree with allWrites := ws })
      | (true, true) => some (true, resetTree { tree with allWrites := ws })
      | (true, false) => some (true,
          { tree with
            visibleWrites := w.writes.foldl (fun cw a => removeWriteAtPath cw a.1)
              tree.visibleWrites
            allWrites := ws })
  := by
  have hidx : tree.allWrites.findIdx? (fun record => record.writeId = w.writeId) = some 0 := by
    rw [hall, List.findIdx?_cons]
    simp
  have hget : tree.allWrites[0]? = some w := by
    rw [hall]
    rfl
  rw [removeWriteId, hidx]
  dsimp only
  rw [hget, hall]
  dsimp only [List.eraseIdx]
  cases w with
  | overwrite => rfl
  | merge =>
    simp only [FWriteRecord.writes, List.foldl_map]

/-- Removing the oldest of visible writes leaves the others, layered. -/
theorem removeWriteId_oldest {tree : FWriteTree V} (hall : tree.allWrites = w :: ws)
    (hw : w.Plain) (hws : ∀ u ∈ ws, u.Plain)
    (hvisible : tree.visibleWrites = layerTreeFromWrites tree.allWrites defaultFilter []) :
  ∃ b tree', tree.removeWriteId w.writeId = some (b, tree') ∧ tree'.allWrites = ws
    ∧ tree'.visibleWrites = layerTreeFromWrites ws defaultFilter []
    ∧ (tree'.lastWriteId = tree.lastWriteId ∨ tree'.lastWriteId = -1
      ∨ ∃ u ∈ ws, tree'.lastWriteId = u.writeId)
    ∧ (b = false → ∃ x ∈ pendingWrites ws, x.1 <+: w.path)
  := by
  have hseen : ∀ e ∈ ws.zipIdx.reverse, e.1.visible = true := by
    intro e he
    apply (hws e.1 (mem_of_mem_zipIdx_reverse he)).visible
  have hwf : ∀ b ∈ pendingWrites ws, b.2.Wf := by
    intro b hb
    obtain ⟨u, hu, hbu⟩ := List.mem_flatMap.mp hb
    apply (hws u hu).wf b hbu
  rw [layerTreeFromWrites_eq, hall, pendingWrites, List.flatMap_cons, ← pendingWrites] at hvisible
  rw [removeWriteId_eq hall, hw.visible]
  by_cases hcovered : ∃ e ∈ ws.zipIdx.reverse, recordContainsPath e.1 w.path = true
  · -- a later write covers the removed one: the layered write stays
    rcases hres : removalLoop w 0 ws.zipIdx.reverse true false with ⟨b, overlaps⟩
    have hloop := removalLoop_of_covered hseen false hcovered
    rw [hres] at hloop
    obtain rfl : b = false := hloop
    obtain ⟨e, he, hcovers⟩ := hcovered
    obtain ⟨x, hx, hpre⟩ := FWriteRecord.recordContainsPath_iff.mp hcovers
    have hmem : x ∈ pendingWrites ws :=
      List.mem_flatMap.mpr ⟨e.1, mem_of_mem_zipIdx_reverse he, hx⟩
    refine ⟨false, _, rfl, rfl, ?_, .inl rfl, fun _ => ⟨x, hmem, hpre⟩⟩
    dsimp only
    rw [hvisible, layerTreeFromWrites_eq, replay_of_covered hw.wf hwf]
    intro a ha
    exact ⟨x, hmem, hpre.trans (hw.path a ha).1⟩
  · have hnot : ∀ e ∈ ws.zipIdx.reverse, recordContainsPath e.1 w.path = false := by
      intro e he
      rw [← Bool.not_eq_true]
      exact fun h => hcovered ⟨e, he, h⟩
    rw [removalLoop_of_not_covered hseen false hnot, Bool.false_or]
    rcases hmeets : ws.zipIdx.reverse.any fun e => FPath.containsLoop w.path e.1.path with _ | _
    · -- no other write meets it: it is removed from the layered write
      refine ⟨true, _, rfl, rfl, ?_, .inl rfl, by simp⟩
      dsimp only
      rw [hvisible, layerTreeFromWrites_eq, foldl_removeWriteAtPath hw.wf hwf hw.apart]
      intro a ha b hb
      obtain ⟨u, hu, hbu⟩ := List.mem_flatMap.mp hb
      obtain ⟨i, hi, rfl⟩ := List.mem_iff_getElem.mp hu
      have hmem : (ws[i], i) ∈ ws.zipIdx.reverse := by
        rw [List.mem_reverse, List.mem_zipIdx_iff_getElem?]
        simp [hi]
      apply (hws _ hu).apart_of_not_meet hw _ _ ha hbu
      · rw [← FWriteRecord.recordContainsPath_iff, hnot _ hmem]
        simp
      · rw [List.any_eq_false] at hmeets
        intro hpre
        exact hmeets _ hmem (FPath.containsLoop_iff.mpr hpre)
    · -- it meets another one: the layered write is made anew
      refine ⟨true, _, rfl, rfl, rfl, ?_, by simp⟩
      right
      dsimp only [resetTree]
      rcases hlast : ws.getLast? with _ | u
      · left
        rfl
      · right
        exact ⟨u, List.mem_of_getLast? hlast, rfl⟩

/-! ## The data under the pending writes -/

/-- Layered writes laid over data leave what the writes leave, made one after the other. -/
theorem overlay_replay {cw : FCompoundWrite V} {n : FNode V} (hcw : cw.Wf) (hfits : cw.Fits n)
    (hn : n.Wf) (has : ∀ a ∈ as, a.2.Wf ∧ n.Clear a.1) :
  overlay ((overwrite V).replay cw as) n = (FNode.overwrite V).replay (overlay cw n) as
    ∧ Fits ((overwrite V).replay cw as) n
  := by
  induction as generalizing cw with
  | nil => exact ⟨rfl, hfits⟩
  | cons a as ih =>
    rw [List.forall_mem_cons] at has
    obtain ⟨⟨ha, hclear⟩, has⟩ := has
    have hstep := overlay_addWrite hcw hfits hn hclear ha
    obtain ⟨hoverlay, hfits⟩ := ih (hcw.addWrite ha a.1) (hfits.addWrite hcw hclear a.2) has
    refine ⟨?_, hfits⟩
    rw [Overwrite.replay_cons, Overwrite.replay_cons]
    exact hoverlay.trans (congrArg (fun m => (FNode.overwrite V).replay m as) hstep)

/-- The data at a path as the user is to see it is the data of the server there with the
visible writes below the path laid over it. -/
theorem calculateCompleteEventCacheAtPath_eq_overlay (tree : FWriteTree V) {n : FNode V}
    (hn : n.Wf) (hw : tree.visibleWrites.Wf)
    (hfits : Fits (tree.visibleWrites.childCompoundWriteAtPath p) n) :
  tree.calculateCompleteEventCacheAtPath p (some n) none false
    = some (overlay (tree.visibleWrites.childCompoundWriteAtPath p) n)
  := by
  rw [calculateCompleteEventCacheAtPath, if_pos (by simp)]
  cases hcomplete : tree.visibleWrites.completeNodeAtPath p with
  | some c =>
    rw [childCompoundWriteAtPath_of_complete hw hcomplete, overlay]
  | none =>
    dsimp only
    split
    case isTrue hempty =>
      rw [FImmutableTree.isEmpty_iff.mp hempty, overlay_empty]
    case isFalse =>
      rw [if_neg (by simp), Option.getD_some,
        applyToNode_eq_overlay (hw.childCompoundWriteAtPath p) hn hfits]

end FWriteTree

/-! ## Runs -/

/-- The part of a repository that numbers the writes of the user and keeps the pending
ones. -/
structure FRepo (V : Type*) where
  writeIdCounter : ℤ
  pendingWriteTree : FWriteTree V

namespace FRepo

open FCompoundWrite

variable {V : Type*}

/-- What happens to the writes: the user sets a node or updates children, the server
answers the oldest pending write, or all pending writes are given up. -/
inductive Event (V : Type*) where
  | set (path : List FKey) (node : FNode V)
  | update (path : List FKey) (nodes : FCompoundWrite V)
  | ack
  | purgeOutstandingWrites

/-- No writes have been made. -/
def start : FRepo V where
  writeIdCounter := 0
  pendingWriteTree := .init

/-- The repository after an event; there is none if nothing is pending that could be
answered. -/
def step (repo : FRepo V) : Event V → Option (FRepo V)
  | .set path node =>
      (repo.pendingWriteTree.addOverwriteAtPath path node repo.writeIdCounter true).map
        fun tree => ⟨repo.writeIdCounter + 1, tree⟩
  | .update path nodes =>
      if nodes.isEmpty then some repo
      else
        (repo.pendingWriteTree.addMergeAtPath path nodes repo.writeIdCounter).map
          fun tree => ⟨repo.writeIdCounter + 1, tree⟩
  | .ack =>
      match repo.pendingWriteTree.allWrites with
      | [] => none
      | oldest :: _ =>
          (repo.pendingWriteTree.removeWriteId oldest.writeId).map
            fun removed => { repo with pendingWriteTree := removed.2 }
  | .purgeOutstandingWrites =>
      some { repo with
        pendingWriteTree :=
          { repo.pendingWriteTree with visibleWrites := emptyWrite, allWrites := [] } }

/-- The writes are of well-formed nodes, and updates are of children. -/
def Event.Plain : Event V → Prop
  | .set _ node => node.Wf
  | .update _ nodes =>
      nodes.Wf ∧ nodes.value = none ∧ ∀ e ∈ nodes.children, e.2.value.isSome = true
  | .ack => True
  | .purgeOutstandingWrites => True

/-- A queue of writes, each of them a list of single writes. -/
def queueStep : List (List (List FKey × FNode V)) → Event V →
    Option (List (List (List FKey × FNode V)))
  | queue, .set path node => some (queue ++ [[(path, node)]])
  | queue, .update path nodes =>
      if nodes.isEmpty then some queue
      else some (queue ++ [nodes.forEach.map fun e => (path ++ e.1, e.2)])
  | [], .ack => none
  | _ :: queue, .ack => some queue
  | _, .purgeOutstandingWrites => some []

/-- The queue a repository stands for. -/
def queue (repo : FRepo V) : List (List (List FKey × FNode V)) :=
  repo.pendingWriteTree.allWrites.map FWriteRecord.writes

/-- The layered write is that of the pending writes, and the next number is beyond all
others. -/
structure Layered (repo : FRepo V) : Prop where
  visibleWrites : repo.pendingWriteTree.visibleWrites
    = FWriteTree.layerTreeFromWrites repo.pendingWriteTree.allWrites FWriteTree.defaultFilter []
  allWrites : ∀ u ∈ repo.pendingWriteTree.allWrites, u.Plain ∧ u.writeId < repo.writeIdCounter
  lastWriteId : repo.pendingWriteTree.lastWriteId < repo.writeIdCounter
  writeIdCounter : -1 < repo.writeIdCounter

theorem plain_overwrite {path : List FKey} {node : FNode V} (h : node.Wf) (writeId : ℤ) :
  (FWriteRecord.overwrite path node writeId true).Plain
  := by
  refine ⟨rfl, ?_, ?_, ?_⟩
  · intro w hw
    obtain rfl := List.mem_singleton.mp hw
    exact h
  · intro w hw
    obtain rfl := List.mem_singleton.mp hw
    exact ⟨List.prefix_refl path, Nat.le_succ _⟩
  · apply List.pairwise_singleton

theorem wf_value {w : FCompoundWrite V} (h : w.Wf) :
  (w.value.getD FNode.emptyNode).Wf
  := by
  cases h with
  | value h => exact h
  | children => exact FNode.wf_emptyNode

/-- The writes of an update of children. -/
theorem forEach_children {kids : List (FKey × FCompoundWrite V)}
    (hwf : ∀ e ∈ kids, Wf e.2) (hvalue : ∀ e ∈ kids, e.2.value.isSome = true) :
  (FImmutableTree.node none kids).forEach
    = kids.map fun e => ([e.1], e.2.value.getD FNode.emptyNode)
  := by
  rw [FImmutableTree.forEach, FImmutableTree.forEachPathSoFar, Option.map_none,
    Option.toList_none, List.append_nil]
  induction kids with
  | nil => rfl
  | cons e kids ih =>
    obtain ⟨k, t⟩ := e
    rw [List.forall_mem_cons] at hwf hvalue
    rw [FImmutableTree.forEachChildPathSoFar, ih hwf.2 hvalue.2]
    cases hwf.1 with
    | value => rfl
    | children => cases hvalue.1

theorem plain_merge {path : List FKey} {nodes : FCompoundWrite V} (hwf : nodes.Wf)
    (hvalue : nodes.value = none) (hchildren : ∀ e ∈ nodes.children, e.2.value.isSome = true)
    (writeId : ℤ) :
  (FWriteRecord.merge path nodes writeId).Plain
  := by
  cases hwf with
  | value => cases hvalue
  | @children kids hasc _ hwf =>
    have hwrites : (FWriteRecord.merge path (.node none kids) writeId).writes
        = kids.map fun e => (path ++ [e.1], e.2.value.getD FNode.emptyNode) := by
      rw [FWriteRecord.writes, forEach_children hwf hchildren, List.map_map]
      rfl
    refine ⟨rfl, ?_, ?_, ?_⟩
    · intro w hw
      rw [hwrites] at hw
      obtain ⟨e, he, rfl⟩ := List.mem_map.mp hw
      apply wf_value (hwf e he)
    · intro w hw
      rw [hwrites] at hw
      obtain ⟨e, he, rfl⟩ := List.mem_map.mp hw
      exact ⟨List.prefix_append path _, by simp [FWriteRecord.path]⟩
    · rw [hwrites, List.pairwise_map]
      apply hasc.keys_ne.imp
      intro e f hne
      simp [hne, hne.symm]

/-- A record made after the others is layered over them. -/
theorem layerTreeFromWrites_append (ws : List (FWriteRecord V)) (u : FWriteRecord V) :
  FWriteTree.layerTreeFromWrites (ws ++ [u]) FWriteTree.defaultFilter []
    = (overwrite V).replay
        (FWriteTree.layerTreeFromWrites ws FWriteTree.defaultFilter []) u.writes
  := by
  rw [FWriteTree.layerTreeFromWrites_eq, FWriteTree.layerTreeFromWrites_eq,
    FWriteTree.pendingWrites, List.flatMap_append, Overwrite.replay_append,
    FWriteTree.pendingWrites]
  simp

/-- A recorded write leaves the repository layered. -/
theorem Layered.append {repo : FRepo V} (h : repo.Layered) {u : FWriteRecord V} (hu : u.Plain)
    (hid : u.writeId = repo.writeIdCounter) :
  Layered
    { writeIdCounter := repo.writeIdCounter + 1
      pendingWriteTree :=
        { visibleWrites := (overwrite V).replay repo.pendingWriteTree.visibleWrites u.writes
          allWrites := repo.pendingWriteTree.allWrites ++ [u]
          lastWriteId := u.writeId } }
  := by
  obtain ⟨hvisible, hall, hlast, hcounter⟩ := h
  refine ⟨?_, ?_, ?_, ?_⟩
  · dsimp only
    rw [layerTreeFromWrites_append, hvisible]
  · intro v hv
    dsimp only at hv ⊢
    rcases List.mem_append.mp hv with hv | hv
    · obtain ⟨hplain, hlt⟩ := hall v hv
      exact ⟨hplain, by omega⟩
    · obtain rfl := List.mem_singleton.mp hv
      exact ⟨hu, by omega⟩
  · dsimp only
    omega
  · dsimp only
    omega

/-- Every event takes a layered repository to a layered one, and its queue to the queue
after the event. -/
theorem Layered.step {repo : FRepo V} {e : Event V} (h : repo.Layered) (he : e.Plain) :
  (repo.step e).map queue = queueStep repo.queue e ∧ ∀ t, repo.step e = some t → t.Layered
  := by
  cases e with
  | set path node =>
    have hstep : repo.step (.set path node) = some
        { writeIdCounter := repo.writeIdCounter + 1
          pendingWriteTree :=
            { visibleWrites := repo.pendingWriteTree.visibleWrites.addWrite node path
              allWrites := repo.pendingWriteTree.allWrites
                ++ [.overwrite path node repo.writeIdCounter true]
              lastWriteId := repo.writeIdCounter } } := by
      rw [FRepo.step, FWriteTree.addOverwriteAtPath, if_pos h.lastWriteId]
      rfl
    rw [hstep]
    constructor
    · simp [queue, queueStep, FWriteRecord.writes]
    · intro t ht
      obtain rfl := Option.some.inj ht
      apply h.append (plain_overwrite he repo.writeIdCounter) rfl
  | update path nodes =>
    obtain ⟨hwf, hvalue, hchildren⟩ := he
    rw [FRepo.step, queueStep]
    split
    · refine ⟨rfl, ?_⟩
      intro t ht
      obtain rfl := Option.some.inj ht
      exact h
    · have hadd : repo.pendingWriteTree.addMergeAtPath path nodes repo.writeIdCounter = some
          { visibleWrites := (overwrite V).replay repo.pendingWriteTree.visibleWrites
              (FWriteRecord.merge path nodes repo.writeIdCounter).writes
            allWrites := repo.pendingWriteTree.allWrites ++ [.merge path nodes repo.writeIdCounter]
            lastWriteId := repo.writeIdCounter } := by
        rw [FWriteTree.addMergeAtPath, if_pos h.lastWriteId, FWriteRecord.writes,
          Overwrite.replay, List.foldl_map]
        rfl
      rw [hadd]
      constructor
      · simp [queue, FWriteRecord.writes]
      · intro t ht
        obtain rfl := Option.some.inj ht
        apply h.append (plain_merge hwf hvalue hchildren repo.writeIdCounter) rfl
  | ack =>
    rw [FRepo.step]
    cases hall : repo.pendingWriteTree.allWrites with
    | nil => simp [queue, queueStep, hall]
    | cons w ws =>
      have hplain := h.allWrites
      rw [hall, List.forall_mem_cons] at hplain
      obtain ⟨b, tree, hremove, hws, hvisible, hlast, -⟩ := FWriteTree.removeWriteId_oldest hall
        hplain.1.1 (fun u hu => (hplain.2 u hu).1) h.visibleWrites
      dsimp only
      rw [hremove]
      constructor
      · simp [queue, queueStep, hall, hws]
      · intro t ht
        obtain rfl := Option.some.inj ht
        refine ⟨?_, ?_, ?_, h.writeIdCounter⟩
        · dsimp only
          rw [hvisible, hws]
        · dsimp only
          rw [hws]
          exact hplain.2
        · dsimp only
          have hlt := h.lastWriteId
          have hcounter := h.writeIdCounter
          rcases hlast with hlast | hlast | ⟨u, hu, hlast⟩
          · omega
          · omega
          · have := (hplain.2 u hu).2
            omega
  | purgeOutstandingWrites =>
    refine ⟨?_, ?_⟩
    · cases hq : repo.queue <;> simp [FRepo.step, queueStep, queue]
    · intro t ht
      obtain rfl := Option.some.inj ht
      refine ⟨rfl, ?_, h.lastWriteId, h.writeIdCounter⟩
      intro u hu
      cases hu

end FRepo

end ForDream

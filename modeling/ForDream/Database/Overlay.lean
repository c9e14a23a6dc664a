import ForDream.Database.CompoundWrite

/-!
# Applying compound writes

`applyToNode` walks the tree of writes and updates the whole node at the absolute path of
each of them.  `overlay` is the same by recursion on the tree alone: a node of the tree
takes the place of the data, and where the tree has children each child of the data is
overlaid by its own.  The two agree on data that `Fits` the compound write, that is, data
that is open wherever the compound write has children.
-/

namespace ForDream

namespace FCompoundWrite

variable {V : Type*}

mutual

/-- The node with the writes of a tree laid over it. -/
def overlay : FCompoundWrite V → FNode V → FNode V
  | .node (some value) _, _ => value
  | .node none children, n => overlayChildren children n

/-- The node with the writes of children laid over it. -/
def overlayChildren : List (FKey × FCompoundWrite V) → FNode V → FNode V
  | [], n => n
  | (childKey, childTree) :: children, n =>
      overlayChildren children
        (n.updateImmediateChild childKey (overlay childTree (n.getImmediateChild childKey)))

end

/-- The data is open wherever the compound write has children, none of which is the write
of a priority. -/
inductive Fits : FCompoundWrite V → FNode V → Prop
  | value (value : FNode V) (kids : List (FKey × FCompoundWrite V)) (n : FNode V) :
      Fits (.node (some value) kids) n
  | empty (n : FNode V) : Fits (.node none []) n
  | children {kids : List (FKey × FCompoundWrite V)} {n : FNode V} (isOpen : n.Open)
      (name : ∀ e ∈ kids, e.1 ≠ FKey.priority)
      (fits : ∀ e ∈ kids, Fits e.2 (n.getImmediateChild e.1)) : Fits (.node none kids) n

variable {w t : FCompoundWrite V} {n c : FNode V} {kids : List (FKey × FCompoundWrite V)}
  {k j : FKey} {p rel : List FKey}

@[simp]
theorem overlay_empty (n : FNode V) :
  overlay FImmutableTree.empty n = n
  := by
  rw [FImmutableTree.empty, FImmutableTree.initWithValue, overlay, overlayChildren]

theorem wf_overlayChildren (h : ∀ e ∈ kids, ∀ n : FNode V, n.Wf → (overlay e.2 n).Wf) (hn : n.Wf) :
  (overlayChildren kids n).Wf
  := by
  induction kids generalizing n with
  | nil =>
    rw [overlayChildren]
    exact hn
  | cons e kids ih =>
    rw [List.forall_mem_cons] at h
    rw [overlayChildren]
    apply ih h.2
    apply hn.updateImmediateChild
    apply h.1 _ (hn.getImmediateChild e.1)

theorem Wf.overlay (hw : w.Wf) (hn : n.Wf) :
  (overlay w n).Wf
  := by
  induction w using FImmutableTree.induction generalizing n with
  | node value kids ih =>
    cases hw with
    | value hv =>
      rw [FCompoundWrite.overlay]
      exact hv
    | children _ _ hwf =>
      rw [FCompoundWrite.overlay]
      apply wf_overlayChildren _ hn
      intro e he m hm
      apply ih e he (hwf e he) hm

/-- What children of writes with different keys leave under a key. -/
theorem overlayChildren_spec
    (hnodup : kids.Pairwise fun e f => e.1 ≠ f.1) (hname : ∀ e ∈ kids, e.1 ≠ FKey.priority)
    (hwf : ∀ e ∈ kids, e.2.Wf) (hn : n.Wf) (ho : n.Open) :
  (overlayChildren kids n).Open
    ∧ ∀ j ≠ FKey.priority, (overlayChildren kids n).getImmediateChild j
        = overlay ((kids.find? fun e => e.1 = j).elim .empty Prod.snd) (n.getImmediateChild j)
  := by
  induction kids generalizing n with
  | nil =>
    rw [overlayChildren]
    refine ⟨ho, ?_⟩
    intro j _
    exact (overlay_empty _).symm
  | cons e kids ih =>
    obtain ⟨k, t⟩ := e
    rw [List.pairwise_cons] at hnodup
    rw [List.forall_mem_cons] at hname hwf
    have ht := hwf.1.overlay (hn.getImmediateChild k)
    obtain ⟨ho', hget⟩ := ih hnodup.2 hname.2 hwf.2 (hn.updateImmediateChild k ht)
      (ho.updateImmediateChild hname.1 _)
    rw [overlayChildren]
    refine ⟨ho', ?_⟩
    intro j hj
    rw [hget j hj]
    rcases eq_or_ne j k with rfl | hne
    · have hnone : (kids.find? fun e => e.1 = j) = none := by
        rw [List.find?_eq_none]
        intro e he
        simpa using (hnodup.1 e he).symm
      rw [hnone, FNode.getImmediateChild_update_self hn ht hj, List.find?_cons_of_pos (by simp)]
      exact overlay_empty _
    · rw [FNode.getImmediateChild_update_of_ne hn hname.1 hj hne,
        List.find?_cons_of_neg (by simpa using hne.symm)]

/-- What a compound write without a node at the root leaves under a key. -/
theorem overlay_spec (hw : w.Wf) (hvalue : w.value = none) (hfits : w.Fits n) (hn : n.Wf)
    (ho : n.Open) :
  (overlay w n).Open
    ∧ ∀ j ≠ FKey.priority,
        (overlay w n).getImmediateChild j = overlay (w.child j) (n.getImmediateChild j)
  := by
  cases hw with
  | value => cases hvalue
  | @children kids hasc hempty hwf =>
    have hname : ∀ e ∈ kids, e.1 ≠ FKey.priority := by
      cases hfits with
      | empty => simp
      | children _ hname _ => exact hname
    have hnodup : kids.Pairwise fun e f => e.1 ≠ f.1 := by
      apply hasc.imp
      intro e f hlt heq
      rw [heq, Comparator.refl] at hlt
      cases hlt
    obtain ⟨ho', hget⟩ := overlayChildren_spec hnodup hname hwf hn ho
    rw [overlay]
    refine ⟨ho', ?_⟩
    intro j hj
    rw [hget j hj, FImmutableTree.child, Assoc.lookupD, Assoc.lookup, FImmutableTree.children]
    simp only [Assoc.cmp_eq_iff FKey.eq_of_stringComparator, eq_comm (a := j)]
    cases kids.find? fun e => e.1 = j <;> rfl

/-- What a compound write without a node at the root leaves under a key, of any data. -/
theorem getImmediateChild_overlay (hw : w.Wf) (hvalue : w.value = none) (hfits : w.Fits n)
    (hn : n.Wf) (hk : k ≠ FKey.priority) :
  (overlay w n).getImmediateChild k = overlay (w.child k) (n.getImmediateChild k)
  := by
  by_cases ho : n.Open
  · apply (overlay_spec hw hvalue hfits hn ho).2 k hk
  · cases hfits with
    | value => cases hvalue
    | empty =>
      rw [overlay, overlayChildren]
      exact (overlay_empty _).symm
    | children => contradiction

theorem Fits.child (h : w.Fits n) (hw : w.Wf) (k : FKey) :
  Fits (w.child k) (n.getImmediateChild k)
  := by
  cases h with
  | value =>
    cases hw with
    | value => exact .empty _
  | empty => exact .empty _
  | @children kids _ _ _ hfits =>
    rw [FImmutableTree.child, Assoc.lookupD, FImmutableTree.children]
    rcases hk : Assoc.lookup FKey.stringComparator kids k with _ | t
    · exact .empty _
    · cases hw with
      | children hasc _ _ =>
        rw [← hasc.mem_iff_lookup FKey.eq_of_stringComparator] at hk
        apply hfits _ hk

/-- Adding a write at a clear path leaves the compound write fitting. -/
theorem Fits.addWrite (h : w.Fits n) (hw : w.Wf) (hclear : n.Clear p) (c : FNode V) :
  Fits (w.addWrite c p) n
  := by
  induction p generalizing w n with
  | nil => exact .value _ _ _
  | cons k p ih =>
    obtain ⟨ho, hk, hclear⟩ := hclear
    have hchild := ih (h.child hw k) (hw.child k) hclear
    cases hw with
    | value => exact .value _ _ _
    | @children kids hasc hempty hwf =>
      rw [addWrite_children (.children hasc hempty hwf)]
      refine .children ho ?_ ?_
      · intro e he
        rcases Assoc.mem_insert.mp he with ⟨he, -⟩ | rfl
        · cases h with
          | empty => cases he
          | children _ hname _ => apply hname e he
        · exact hk
      · intro e he
        rcases Assoc.mem_insert.mp he with ⟨he, -⟩ | rfl
        · cases h with
          | empty => cases he
          | children _ _ hfits => apply hfits e he
        · exact hchild

/-- Adding a write and laying the writes over a node is laying them over the node and then
making the write. -/
theorem overlay_addWrite (hw : w.Wf) (hfits : w.Fits n) (hn : n.Wf) (hclear : n.Clear p)
    (hc : c.Wf) :
  overlay (w.addWrite c p) n = (overlay w n).updateChild p c
  := by
  induction p generalizing w n with
  | nil => rw [addWrite_nil, overlay, FNode.updateChild_nil]
  | cons k p ih =>
    rcases hvalue : w.value with _ | v
    · have hwc := hw.addWrite hc (k :: p)
      have hfitsc := hfits.addWrite hw hclear c
      obtain ⟨ho, hk, hclear⟩ := hclear
      obtain ⟨how, hget⟩ := overlay_spec hw hvalue hfits hn ho
      obtain ⟨howc, hgetc⟩ := overlay_spec hwc (value_addWrite hw hvalue) hfitsc hn ho
      have hwn := hw.overlay hn
      have hchild := (hw.child k).overlay (hn.getImmediateChild k)
      have hpc := hchild.updateChild p hc
      rw [FNode.updateChild_cons _ hc hk, hget k hk]
      apply howc.ext (how.updateImmediateChild hk _) (hwc.overlay hn)
        (hwn.updateImmediateChild k hpc)
      intro j hj
      rw [hgetc j hj]
      rcases eq_or_ne j k with rfl | hne
      · rw [child_addWrite_self hw hvalue, FNode.getImmediateChild_update_self hwn hpc hj]
        apply ih (hw.child j) (hfits.child hw j) (hn.getImmediateChild j) hclear
      · rw [child_addWrite_of_ne hw hvalue hne,
          FNode.getImmediateChild_update_of_ne hwn hk hj hne, hget j hj]
    · cases hw with
      | value =>
        obtain rfl := Option.some.inj hvalue
        rw [addWrite_value, overlay, overlay]
      | children => cases hvalue

/-! ## The part of a compound write below a path -/

theorem findRootMostValueAndPath_cons (hvalue : w.value = none) :
  FImmutableTree.findRootMostValueAndPath w (k :: p)
    = ((w.child k).findRootMostValueAndPath p).map fun found => (k :: found.1, found.2)
  := by
  obtain ⟨value, kids⟩ := w
  obtain rfl : value = none := hvalue
  exact findRootMostValueAndPath_children

theorem completeNodeAtPath_cons (hvalue : w.value = none) :
  w.completeNodeAtPath (k :: p) = completeNodeAtPath (w.child k) p
  := by
  rw [completeNodeAtPath, findRootMostValueAndPath_cons hvalue, completeNodeAtPath,
    Option.map_map]
  congr 1
  funext found
  simp [FPath.relativePieces]

theorem subtreeAtPath_cons (w : FCompoundWrite V) (k : FKey) (p : List FKey) :
  FImmutableTree.subtreeAtPath w (k :: p) = (w.child k).subtreeAtPath p
  := by
  have hempty : ∀ p, (FImmutableTree.empty : FCompoundWrite V).subtreeAtPath p = .empty := by
    intro p
    cases p with
    | nil => rfl
    | cons => rfl
  rw [FImmutableTree.subtreeAtPath, FImmutableTree.child, Assoc.lookupD, ← FImmutableTree.get]
  cases FImmutableTree.get w k with
  | none => exact (hempty p).symm
  | some t => rfl

/-- The part of a compound write below a path is the part of a child below the rest of the
path. -/
theorem childCompoundWriteAtPath_cons (hw : w.Wf) (hvalue : w.value = none) :
  w.childCompoundWriteAtPath (k :: p) = childCompoundWriteAtPath (w.child k) p
  := by
  rw [childCompoundWriteAtPath, if_neg (by simp), completeNodeAtPath_cons hvalue,
    subtreeAtPath_cons, childCompoundWriteAtPath]
  cases p with
  | nil =>
    rw [if_pos List.isEmpty_nil]
    have hchild := hw.child k
    generalize w.child k = t at hchild
    cases hchild with
    | value =>
      rw [completeNodeAtPath]
      exact congrArg (fun n => FImmutableTree.node (some n) []) (FNode.getChild_nil _)
    | children => rfl
  | cons => rw [if_neg (by simp)]

/-- What the writes laid over a node leave at a path is what the part of the writes below
the path leaves there. -/
theorem getChild_overlay (hw : w.Wf) (hfits : w.Fits n) (hn : n.Wf) (hp : FKey.priority ∉ p) :
  (overlay w n).getChild p = overlay (w.childCompoundWriteAtPath p) (n.getChild p)
  := by
  induction p generalizing w n with
  | nil =>
    rw [FNode.getChild_nil, FNode.getChild_nil]
    rfl
  | cons k p ih =>
    have hk : k ≠ FKey.priority := by
      rintro rfl
      simp at hp
    have hp' : FKey.priority ∉ p := fun h => hp (by simp [h])
    rcases hvalue : w.value with _ | v
    · rw [childCompoundWriteAtPath_cons hw hvalue, FNode.getChild_cons n hk,
        ← ih (hw.child k) (hfits.child hw k) (hn.getImmediateChild k) hp',
        FNode.getChild_cons _ hk]
      congr 1
      apply getImmediateChild_overlay hw hvalue hfits hn hk
    · cases hw with
      | @value v =>
        have hpart : childCompoundWriteAtPath (.node (some v) []) (k :: p)
            = .node (some (v.getChild (k :: p))) [] := rfl
        rw [hpart, overlay, overlay]
      | children => cases hvalue

theorem childCompoundWriteAtPath_of_complete (hw : w.Wf) (h : w.completeNodeAtPath p = some c) :
  w.childCompoundWriteAtPath p = .node (some c) []
  := by
  cases p with
  | nil =>
    cases hw with
    | value =>
      rw [completeNodeAtPath] at h
      obtain rfl := Option.some.inj h
      exact congrArg (fun n => FImmutableTree.node (some n) []) (FNode.getChild_nil _).symm
    | children => cases h
  | cons =>
    rw [childCompoundWriteAtPath, if_neg (by simp), h]
    rfl

theorem Wf.childCompoundWriteAtPath (hw : w.Wf) (p : List FKey) :
  Wf (w.childCompoundWriteAtPath p)
  := by
  induction p generalizing w with
  | nil => exact hw
  | cons k p ih =>
    rcases hvalue : w.value with _ | v
    · rw [childCompoundWriteAtPath_cons hw hvalue]
      apply ih (hw.child k)
    · cases hw with
      | value hv => exact .value (hv.getChild (k :: p))
      | children => cases hvalue

theorem Fits.childCompoundWriteAtPath (h : w.Fits n) (hw : w.Wf) (hp : FKey.priority ∉ p) :
  Fits (w.childCompoundWriteAtPath p) (n.getChild p)
  := by
  induction p generalizing w n with
  | nil =>
    rw [FNode.getChild_nil]
    exact h
  | cons k p ih =>
    rw [List.mem_cons, not_or] at hp
    rcases hvalue : w.value with _ | v
    · rw [childCompoundWriteAtPath_cons hw hvalue, FNode.getChild_cons n (Ne.symm hp.1)]
      apply ih (h.child hw k) (hw.child k) hp.2
    · cases hw with
      | value => exact .value _ _ _
      | children => cases hvalue

/-! ## Writes as they are seen from a path -/

/-- What the part of a compound write below a path fully overwrites is what the compound
write does. -/
theorem completeNodeAtPath_append (hw : w.Wf) (hp : FKey.priority ∉ p) (q : List FKey) :
  w.completeNodeAtPath (p ++ q) = completeNodeAtPath (w.childCompoundWriteAtPath p) q
  := by
  induction p generalizing w with
  | nil => rfl
  | cons k p ih =>
    rcases hvalue : w.value with _ | v
    · rw [List.mem_cons, not_or] at hp
      rw [List.cons_append, completeNodeAtPath_cons hvalue,
        childCompoundWriteAtPath_cons hw hvalue, ih (hw.child k) hp.2]
    · cases hw with
      | @value v =>
        have hpart : childCompoundWriteAtPath (.node (some v) []) (k :: p)
            = .node (some (v.getChild (k :: p))) [] := rfl
        have hnode : ∀ (v : FNode V) (q : List FKey),
            completeNodeAtPath (.node (some v) []) q = some (v.getChild q) := by
          intro v q
          cases q <;> rfl
        rw [hpart, hnode, hnode, FNode.getChild_append hp]
      | children => cases hvalue

/-- The part below a path of the part below another one. -/
theorem childCompoundWriteAtPath_append (hw : w.Wf) (hp : FKey.priority ∉ p) (q : List FKey) :
  w.childCompoundWriteAtPath (p ++ q)
    = childCompoundWriteAtPath (w.childCompoundWriteAtPath p) q
  := by
  induction p generalizing w with
  | nil => rfl
  | cons k p ih =>
    rcases hvalue : w.value with _ | v
    · rw [List.mem_cons, not_or] at hp
      rw [List.cons_append, childCompoundWriteAtPath_cons hw hvalue,
        childCompoundWriteAtPath_cons hw hvalue, ih (hw.child k) hp.2]
    · cases hw with
      | @value v =>
        have hnode : ∀ (v : FNode V) (q : List FKey),
            childCompoundWriteAtPath (.node (some v) []) q = .node (some (v.getChild q)) [] := by
          intro v q
          cases q with
          | nil =>
            exact congrArg (fun n => FImmutableTree.node (some n) []) (FNode.getChild_nil v).symm
          | cons => rfl
        rw [hnode, hnode, hnode, FNode.getChild_append hp]
      | children => cases hvalue

/-- A write that is added is, as it is seen from a path, added to the part below it. -/
theorem childCompoundWriteAtPath_addWrite {q : List FKey} (hw : w.Wf) (hc : c.Wf)
    (hp : FKey.priority ∉ p) (hq : FKey.priority ∉ q) :
  childCompoundWriteAtPath (w.addWrite c q) p
    = (FNode.part p (q, c)).elim (w.childCompoundWriteAtPath p)
        fun u => addWrite (w.childCompoundWriteAtPath p) u.2 u.1
  := by
  induction p generalizing w q with
  | nil => rfl
  | cons k p ih =>
    cases q with
    | nil =>
      rw [addWrite_nil, FNode.part, Option.elim_some, addWrite_nil]
      rfl
    | cons j q =>
      rcases hvalue : w.value with _ | v
      · rw [List.mem_cons, not_or] at hp hq
        rw [childCompoundWriteAtPath_cons (hw.addWrite hc _) (value_addWrite hw hvalue),
          childCompoundWriteAtPath_cons hw hvalue, FNode.part]
        split
        case isTrue heq =>
          subst heq
          rw [child_addWrite_self hw hvalue, ih (hw.child k) hp.2 hq.2]
        case isFalse hne => rw [child_addWrite_of_ne hw hvalue hne, Option.elim_none]
      · cases hw with
        | @value v hv =>
          have hnode : ∀ v : FNode V, childCompoundWriteAtPath (.node (some v) []) (k :: p)
              = .node (some (v.getChild (k :: p))) [] := fun _ => rfl
          rw [addWrite_value, hnode, hnode, FNode.getChild_updateChild_part hv hc hp hq]
          rcases FNode.part (k :: p) (j :: q, c) with _ | ⟨r, d⟩
          · rfl
          · rw [Option.elim_some, Option.elim_some]
            cases r with
            | nil => rw [FNode.updateChild_nil, addWrite_nil]
            | cons => rw [addWrite_value]
        | children => cases hvalue

/-- After a write is added, a path is fully overwritten if it was before or the write is at
or above it. -/
theorem isSome_completeNodeAtPath_addWrite {q : List FKey} (hw : w.Wf) :
  (completeNodeAtPath (w.addWrite c q) p).isSome = true
    ↔ q <+: p ∨ (w.completeNodeAtPath p).isSome = true
  := by
  have hnode : ∀ (v : FNode V) (kids : List (FKey × FCompoundWrite V)) (p : List FKey),
      (completeNodeAtPath (.node (some v) kids) p).isSome = true := by
    intro v kids p
    cases p <;> rfl
  induction p generalizing w q with
  | nil =>
    cases q with
    | nil => simp [addWrite_nil, hnode]
    | cons j q =>
      cases hw with
      | value => simp [addWrite_value, hnode]
      | children hasc hempty hwf =>
        rw [addWrite_children (.children hasc hempty hwf)]
        simp [completeNodeAtPath, FImmutableTree.findRootMostValueAndPath,
          FImmutableTree.findRootMostMatchingPath, FImmutableTree.value]
  | cons k p ih =>
    cases q with
    | nil => simp [addWrite_nil, hnode]
    | cons j q =>
      rcases hvalue : w.value with _ | v
      · rw [completeNodeAtPath_cons (value_addWrite hw hvalue), completeNodeAtPath_cons hvalue,
          List.cons_prefix_cons]
        rcases eq_or_ne k j with rfl | hne
        · rw [child_addWrite_self hw hvalue, and_iff_right rfl]
          apply ih (hw.child k)
        · rw [child_addWrite_of_ne hw hvalue hne]
          simp [hne.symm]
      · cases hw with
        | value => simp [addWrite_value, hnode]
        | children => cases hvalue

/-! ## Writes to the data under a compound write -/

/-- A child written to the data shows under the writes of the child. -/
theorem overlay_updateImmediateChild (hw : w.Wf) (hvalue : w.value = none) (hfits : w.Fits n)
    (hn : n.Wf) (hc : c.Wf) (hk : k ≠ FKey.priority)
    (hfits' : w.Fits (n.updateImmediateChild k c)) :
  overlay w (n.updateImmediateChild k c)
    = (overlay w n).updateImmediateChild k (overlay (w.child k) c)
  := by
  by_cases ho : n.Open
  · have hn' := hn.updateImmediateChild k hc
    have ho' := ho.updateImmediateChild hk c
    obtain ⟨hopen, hget⟩ := overlay_spec hw hvalue hfits hn ho
    obtain ⟨hopen', hget'⟩ := overlay_spec hw hvalue hfits' hn' ho'
    have hchild := (hw.child k).overlay hc
    apply hopen'.ext (hopen.updateImmediateChild hk _) (hw.overlay hn')
      ((hw.overlay hn).updateImmediateChild k hchild)
    intro j hj
    rw [hget' j hj]
    rcases eq_or_ne j k with rfl | hne
    · rw [FNode.getImmediateChild_update_self hn hc hj,
        FNode.getImmediateChild_update_self (hw.overlay hn) hchild hj]
    · rw [FNode.getImmediateChild_update_of_ne hn hk hj hne,
        FNode.getImmediateChild_update_of_ne (hw.overlay hn) hk hj hne, hget j hj]
  · cases hfits with
    | value => cases hvalue
    | empty => exact (overlay_empty _).trans (by rw [FImmutableTree.child]; rfl)
    | children => contradiction

/-- Data that the compound write fully overwrites does not show. -/
theorem overlay_updateChild_of_complete (hw : w.Wf) (hfits : w.Fits n) (hn : n.Wf) (hc : c.Wf)
    (hp : FKey.priority ∉ p) (hfits' : w.Fits (n.updateChild p c))
    (hcomplete : (w.completeNodeAtPath p).isSome = true) :
  overlay w (n.updateChild p c) = overlay w n
  := by
  induction p generalizing w n with
  | nil =>
    cases hw with
    | value => rw [overlay, overlay]
    | children => cases hcomplete
  | cons k p ih =>
    rw [List.mem_cons, not_or] at hp
    have hk := Ne.symm hp.1
    rcases hvalue : w.value with _ | v
    · have hwf := hn.getImmediateChild k
      have hchild := hwf.updateChild p hc
      rw [completeNodeAtPath_cons hvalue] at hcomplete
      rw [FNode.updateChild_cons n hc hk] at hfits' ⊢
      have hfitsk := hfits'.child hw k
      rw [FNode.getImmediateChild_update_self hn hchild hk] at hfitsk
      rw [overlay_updateImmediateChild hw hvalue hfits hn hchild hk hfits',
        ih (hw.child k) (hfits.child hw k) hwf hp.2 hfitsk hcomplete,
        ← getImmediateChild_overlay hw hvalue hfits hn hk,
        FNode.updateImmediateChild_getImmediateChild (hw.overlay hn) hk]
    · cases hw with
      | value => rw [overlay, overlay]
      | children => cases hvalue

/-- Other data shows under the writes below its path. -/
theorem overlay_updateChild_of_not_complete (hw : w.Wf) (hfits : w.Fits n) (hn : n.Wf)
    (hc : c.Wf) (hp : FKey.priority ∉ p) (hfits' : w.Fits (n.updateChild p c))
    (hcomplete : w.completeNodeAtPath p = none) :
  overlay w (n.updateChild p c)
    = (overlay w n).updateChild p (overlay (w.childCompoundWriteAtPath p) c)
  := by
  induction p generalizing w n with
  | nil =>
    rw [FNode.updateChild_nil, FNode.updateChild_nil]
    rfl
  | cons k p ih =>
    rw [List.mem_cons, not_or] at hp
    have hk := Ne.symm hp.1
    rcases hvalue : w.value with _ | v
    · have hwf := hn.getImmediateChild k
      have hchild := hwf.updateChild p hc
      rw [completeNodeAtPath_cons hvalue] at hcomplete
      rw [FNode.updateChild_cons n hc hk] at hfits' ⊢
      have hfitsk := hfits'.child hw k
      rw [FNode.getImmediateChild_update_self hn hchild hk] at hfitsk
      have hpart := (hw.childCompoundWriteAtPath (k :: p)).overlay hc
      rw [overlay_updateImmediateChild hw hvalue hfits hn hchild hk hfits',
        ih (hw.child k) (hfits.child hw k) hwf hp.2 hfitsk hcomplete,
        FNode.updateChild_cons _ hpart hk, childCompoundWriteAtPath_cons hw hvalue,
        getImmediateChild_overlay hw hvalue hfits hn hk]
    · cases hw with
      | value => cases hcomplete
      | children => cases hvalue

/-! ## Writes at absolute paths -/

/-- Writing each child at its absolute path is laying the children over the node at the
path. -/
theorem applyChildWrites_eq
    (ih : ∀ e ∈ kids, ∀ {m : FNode V} {p : List FKey}, m.Wf → m.Clear p → e.2.Fits (m.getChild p) →
      applySubtreeWrite e.2 p m = m.updateChild p (overlay e.2 (m.getChild p)))
    (hwf : ∀ e ∈ kids, e.2.Wf) (hname : ∀ e ∈ kids, e.1 ≠ FKey.priority)
    (hnodup : kids.Pairwise fun e f => e.1 ≠ f.1) (hn : n.Wf) (hclear : n.Clear rel)
    (ho : (n.getChild rel).Open)
    (hfits : ∀ e ∈ kids, Fits e.2 ((n.getChild rel).getImmediateChild e.1)) :
  applyChildWrites kids rel none n
    = (none, n.updateChild rel (overlayChildren kids (n.getChild rel)))
  := by
  induction kids generalizing n with
  | nil =>
    rw [applyChildWrites, overlayChildren, FNode.updateChild_getChild hn hclear.priority_notMem]
  | cons e kids ihkids =>
    obtain ⟨k, t⟩ := e
    rw [List.forall_mem_cons] at ih hwf hname hfits
    rw [List.pairwise_cons] at hnodup
    have hx := hn.getChild rel
    have hgetk : n.getChild (rel ++ [k]) = (n.getChild rel).getImmediateChild k := by
      rw [FNode.getChild_append hclear.priority_notMem, FNode.getChild_cons _ hname.1,
        FNode.getChild_nil]
    have hy := hwf.1.overlay (hx.getImmediateChild k)
    have hclearx : (n.getChild rel).Clear [k] := ⟨ho, hname.1, trivial⟩
    -- the write of the child changes the node at the path, and nothing else
    have hwrite : applySubtreeWrite t (rel ++ [k]) n
        = n.updateChild rel ((n.getChild rel).updateImmediateChild k
            (overlay t ((n.getChild rel).getImmediateChild k))) := by
      rw [ih.1 hn (hclear.append hclearx) (hgetk ▸ hfits.1), hgetk]
      have hself := FNode.updateChild_updateChild hn hclear hx hy [k]
      rw [FNode.updateChild_getChild hn hclear.priority_notMem] at hself
      rw [hself, FNode.updateChild_cons _ hy hname.1, FNode.updateChild_nil]
    have hz := hx.updateImmediateChild k hy
    have hgetrel := FNode.getChild_updateChild hn hclear.priority_notMem hz
    rw [applyChildWrites, if_neg hname.1, hwrite, overlayChildren]
    rw [ihkids ih.2 hwf.2 hname.2 hnodup.2 (hn.updateChild rel hz)
      (hclear.updateChild hn hclear.priority_notMem (fun _ => rfl) hz)]
    · rw [hgetrel, FNode.updateChild_absorb hn hclear (List.prefix_refl rel) hz]
      apply wf_overlayChildren _ hz
      intro e he m hm
      apply (hwf.2 e he).overlay hm
    · rw [hgetrel]
      apply ho.updateImmediateChild hname.1
    · intro e he
      rw [hgetrel, FNode.getImmediateChild_update_of_ne hx hname.1 (hname.2 e he)
        (hnodup.1 e he).symm]
      apply hfits.2 e he

/-- Applying a tree of writes at a path is laying it over the node there. -/
theorem applySubtreeWrite_eq (hw : w.Wf) (hn : n.Wf) (hclear : n.Clear rel)
    (hfits : w.Fits (n.getChild rel)) :
  w.applySubtreeWrite rel n = n.updateChild rel (overlay w (n.getChild rel))
  := by
  induction w using FImmutableTree.induction generalizing n rel with
  | node value kids ih =>
    cases hw with
    | value => rw [applySubtreeWrite, overlay]
    | children hasc _ hwf =>
      rw [applySubtreeWrite, overlay]
      cases hfits with
      | empty =>
        rw [applyChildWrites, overlayChildren, FNode.updateChild_getChild hn hclear.priority_notMem]
      | children ho hname hfits =>
        rw [applyChildWrites_eq _ hwf hname _ hn hclear ho hfits]
        · intro e he m p hm hclear hfits
          apply ih e he (hwf e he) hm hclear hfits
        · apply hasc.imp
          intro e f hlt heq
          rw [heq, Comparator.refl] at hlt
          cases hlt

theorem applyToNode_eq_overlay (hw : w.Wf) (hn : n.Wf) (hfits : w.Fits n) :
  w.applyToNode n = overlay w n
  := by
  have hclear : n.Clear [] := trivial
  have heq := applySubtreeWrite_eq hw hn hclear ((FNode.getChild_nil n).symm ▸ hfits)
  rw [applyToNode, heq, FNode.updateChild_nil, FNode.getChild_nil]

end FCompoundWrite

end ForDream

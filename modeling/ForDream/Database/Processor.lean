import ForDream.Database.View

/-!
# What operations do to a view

A view that has all data of the server is given by two nodes: the data of the server, and
the data it shows.  For each operation, on data open above the pending writes: it raises no
exception, it takes the two nodes to two others, given by writes at its path, and the
changes it tracks lead from the data shown before to the data shown after.

The data the view is to show is that of the server with the pending writes below the path
of the view made one after the other.
-/

namespace ForDream

open FCompoundWrite

variable {V : Type*}

/-! ## Pending writes and the data they are made on -/

/-- The data is well formed, and open above the paths of writes. -/
structure FNode.Under (n : FNode V) (ws : List (List FKey × FNode V)) : Prop where
  wf : n.Wf
  clear : ∀ w ∈ ws, n.Clear w.1

namespace FWriteTreeRef

/-- The pending writes below the path of the reference are the given ones, made one after
the other. -/
structure Sees (ref : FWriteTreeRef V) (ws : List (List FKey × FNode V)) : Prop where
  wf : ref.writeTree.visibleWrites.Wf
  path : FKey.priority ∉ ref.path
  writes : ∀ w ∈ ws, w.2.Wf
  layered : ref.writeTree.visibleWrites.childCompoundWriteAtPath ref.path
    = (FCompoundWrite.overwrite V).replay emptyWrite ws

variable {ref : FWriteTreeRef V} {ws : List (List FKey × FNode V)} {n : FNode V}
  {p : List FKey} {k : FKey}

theorem Sees.wf_layered (h : ref.Sees ws) :
  Wf ((FCompoundWrite.overwrite V).replay emptyWrite ws)
  := FWriteTree.wf_replay wf_empty h.writes

/-- The layered writes laid over the data leave what the writes leave. -/
theorem Sees.overlay_eq (h : ref.Sees ws) (hn : n.Under ws) :
  overlay ((FCompoundWrite.overwrite V).replay emptyWrite ws) n = (FNode.overwrite V).replay n ws
    ∧ Fits ((FCompoundWrite.overwrite V).replay emptyWrite ws) n
  := by
  obtain ⟨hoverlay, hfits⟩ := FWriteTree.overlay_replay wf_empty (.empty n) hn.wf
    fun w hw => ⟨h.writes w hw, hn.clear w hw⟩
  rw [overlay_empty] at hoverlay
  exact ⟨hoverlay, hfits⟩

theorem isSome_completeNodeAtPath_replay {cw : FCompoundWrite V} (hcw : cw.Wf)
    (hws : ∀ w ∈ ws, w.2.Wf) :
  (completeNodeAtPath ((FCompoundWrite.overwrite V).replay cw ws) p).isSome = true
    ↔ (cw.completeNodeAtPath p).isSome = true ∨ ∃ w ∈ ws, w.1 <+: p
  := by
  induction ws generalizing cw with
  | nil => simp
  | cons w ws ih =>
    rw [List.forall_mem_cons] at hws
    have hadd := isSome_completeNodeAtPath_addWrite (c := w.2) (q := w.1) (p := p) hcw
    rw [Overwrite.replay_cons, List.exists_mem_cons_iff, ← or_assoc, or_comm (b := w.1 <+: p),
      ← hadd]
    apply ih (hcw.addWrite hws.1 w.1) hws.2

theorem Sees.isSome_completeNodeAtPath_iff (h : ref.Sees ws) (p : List FKey) :
  (completeNodeAtPath ((FCompoundWrite.overwrite V).replay emptyWrite ws) p).isSome = true
    ↔ ∃ w ∈ ws, w.1 <+: p
  := by
  have hempty :
      (completeNodeAtPath (FImmutableTree.empty : FCompoundWrite V) p).isSome = false := by
    cases p <;> rfl
  have hreplay := isSome_completeNodeAtPath_replay (p := p) wf_empty h.writes
  exact hreplay.trans (or_iff_right (by simpa using hempty))

/-- A path is shadowed when a pending write is at or above it. -/
theorem Sees.isSome_shadowingWriteAtPath_iff (h : ref.Sees ws) (p : List FKey) :
  (ref.shadowingWriteAtPath p).isSome = true ↔ ∃ w ∈ ws, w.1 <+: p
  := by
  rw [shadowingWriteAtPath, FWriteTree.shadowingWriteAtPath,
    completeNodeAtPath_append h.wf h.path, h.layered, h.isSome_completeNodeAtPath_iff]

/-- All the data the view is to show. -/
theorem Sees.calculateCompleteEventCache_eq (h : ref.Sees ws) (hn : n.Under ws) :
  ref.calculateCompleteEventCache (some n) = some ((FNode.overwrite V).replay n ws)
  := by
  obtain ⟨hoverlay, hfits⟩ := h.overlay_eq hn
  rw [← h.layered] at hoverlay hfits
  rw [calculateCompleteEventCache,
    FWriteTree.calculateCompleteEventCacheAtPath_eq_overlay _ hn.wf h.wf hfits, hoverlay]

/-- The data the view is to show at a path is the data of the server there with the
writes below the path laid over it. -/
theorem Sees.getChild_replay (h : ref.Sees ws) (hn : n.Under ws) (hp : FKey.priority ∉ p) :
  ((FNode.overwrite V).replay n ws).getChild p
    = overlay (ref.writeTree.visibleWrites.childCompoundWriteAtPath (ref.path ++ p))
        (n.getChild p)
    ∧ Fits (ref.writeTree.visibleWrites.childCompoundWriteAtPath (ref.path ++ p)) (n.getChild p)
  := by
  obtain ⟨hoverlay, hfits⟩ := h.overlay_eq hn
  rw [childCompoundWriteAtPath_append h.wf h.path, h.layered, ← hoverlay]
  exact ⟨getChild_overlay h.wf_layered hfits hn.wf hp,
    hfits.childCompoundWriteAtPath h.wf_layered hp⟩

/-- What the data shown is updated with at a path that is not shadowed. -/
theorem Sees.calculateEventCacheAfterServerOverwrite_eq (h : ref.Sees ws) (hn : n.Under ws)
    (hp : FKey.priority ∉ p) (hshadow : ¬ ∃ w ∈ ws, w.1 <+: p) :
  ref.calculateEventCacheAfterServerOverwrite p n
    = some (((FNode.overwrite V).replay n ws).getChild p)
  := by
  obtain ⟨hget, hfits⟩ := h.getChild_replay hn hp
  rw [← h.isSome_shadowingWriteAtPath_iff, shadowingWriteAtPath,
    FWriteTree.shadowingWriteAtPath] at hshadow
  rw [calculateEventCacheAfterServerOverwrite,
    FWriteTree.calculateEventCacheAfterServerOverwriteAtPath, hget]
  dsimp only
  rw [hasCompleteWriteAtPath, if_neg hshadow]
  split
  case isTrue hempty => rw [FImmutableTree.isEmpty_iff.mp hempty, overlay_empty]
  case isFalse =>
    rw [applyToNode_eq_overlay (h.wf.childCompoundWriteAtPath _) (hn.wf.getChild p) hfits]

/-- A child of the data the view is to show. -/
theorem Sees.calculateCompleteChild_eq (h : ref.Sees ws) (hn : n.Under ws)
    (hk : k ≠ FKey.priority) :
  ref.calculateCompleteChild k ⟨n, true, false⟩
    = some (((FNode.overwrite V).replay n ws).getImmediateChild k)
  := by
  have hp : FKey.priority ∉ [k] := by simpa using hk.symm
  obtain ⟨hchild, hfits⟩ := h.getChild_replay hn hp
  rw [FNode.getChild_singleton _ hk, FNode.getChild_singleton n hk] at hchild
  rw [FNode.getChild_singleton n hk] at hfits
  rw [calculateCompleteChild, FWriteTree.calculateCompleteChildAtPath, hchild]
  cases hcomplete : ref.writeTree.visibleWrites.completeNodeAtPath (ref.path ++ [k]) with
  | some c =>
    rw [childCompoundWriteAtPath_of_complete h.wf hcomplete, overlay]
  | none =>
    dsimp only
    rw [if_pos (by simp [FCacheNode.isCompleteForChild]),
      applyToNode_eq_overlay (h.wf.childCompoundWriteAtPath _) (hn.wf.getImmediateChild k) hfits]

end FWriteTreeRef

/-! ## The data to be shown -/

namespace FNode

variable {n c : FNode V} {as ws : List (List FKey × FNode V)} {p : List FKey}

theorem Under.left (h : n.Under (as ++ ws)) :
  n.Under as
  := ⟨h.wf, fun w hw => h.clear w (List.mem_append_left ws hw)⟩

theorem Under.right (h : n.Under (as ++ ws)) :
  n.Under ws
  := ⟨h.wf, fun w hw => h.clear w (List.mem_append_right as hw)⟩

/-- Writes of well-formed nodes at clear paths are allowed. -/
theorem Under.allowed (h : n.Under ws) (hws : ∀ w ∈ ws, w.2.Wf) :
  ∀ w ∈ ws, (FNode.overwrite V).Allowed w.1 w.2
  := fun w hw => ⟨(h.clear w hw).priority_notMem, hws w hw⟩

theorem Wf.replay (h : n.Wf) (hws : ∀ w ∈ ws, w.2.Wf) :
  ((FNode.overwrite V).replay n ws).Wf
  := by
  induction ws generalizing n with
  | nil => exact h
  | cons w ws ih =>
    rw [List.forall_mem_cons] at hws
    apply ih (h.updateChild w.1 hws.1) hws.2

/-- Writes at a path and below it change nothing else. -/
theorem Under.agree (h : n.Under as) (has : ∀ a ∈ as, a.2.Wf) (hbelow : ∀ a ∈ as, p <+: a.1)
    (hne : as ≠ []) :
  (FNode.overwrite V).Agree p ((FNode.overwrite V).replay n as) n
  := by
  obtain ⟨a, ha⟩ := List.exists_mem_of_ne_nil as hne
  have hclear : (FNode.overwrite V).Clear n p := ⟨h.wf, (h.clear a ha).above (hbelow a ha)⟩
  apply Overwrite.agree_replay_self hclear (h.allowed has) hbelow

/-- Writes at a path and below it that later ones shadow do not show. -/
theorem Under.replay_append_of_shadowed (h : n.Under (as ++ ws)) (hwf : ∀ w ∈ as ++ ws, w.2.Wf)
    (hbelow : ∀ a ∈ as, p <+: a.1) (hp : FKey.priority ∉ p) (hshadow : ∃ w ∈ ws, w.1 <+: p) :
  (FNode.overwrite V).replay n (as ++ ws) = (FNode.overwrite V).replay n ws
  := by
  rw [List.forall_mem_append] at hwf
  rcases eq_or_ne as [] with rfl | hne
  · rw [List.nil_append]
  · have hagree := h.left.agree hwf.1 hbelow hne
    have hempty : (FNode.overwrite V).Allowed p emptyNode := ⟨hp, wf_emptyNode⟩
    rw [Overwrite.replay_append, hagree.replay_eq hempty (h.right.allowed hwf.2) hshadow]

/-- Without writes at a path and below it that later ones do not shadow, the data differs
only at the path. -/
theorem Under.updateChild_replay_append (h : n.Under (as ++ ws))
    (hwf : ∀ w ∈ as ++ ws, w.2.Wf) (hbelow : ∀ a ∈ as, p <+: a.1) (hp : FKey.priority ∉ p)
    (hshadow : ¬ ∃ w ∈ ws, w.1 <+: p) :
  ((FNode.overwrite V).replay n (as ++ ws)).updateChild p
      (((FNode.overwrite V).replay n ws).getChild p)
    = (FNode.overwrite V).replay n ws
  := by
  rw [List.forall_mem_append] at hwf
  have hreplay := h.wf.replay hwf.2
  have hself := updateChild_getChild hreplay hp
  rcases eq_or_ne as [] with rfl | hne
  · rw [List.nil_append, hself]
  · have hnot : ∀ w ∈ ws, ¬ w.1 <+: p := fun w hw hpre => hshadow ⟨w, hw, hpre⟩
    have hagree := (h.left.agree hwf.1 hbelow hne).replay (h.right.allowed hwf.2) hnot
    rw [Overwrite.replay_append]
    exact (hagree.2.2 _ ⟨hp, hreplay.getChild p⟩).trans hself

theorem part_eq_none {q : List FKey} (hpq : ¬ p <+: q) (hqp : ¬ q <+: p) :
  part p (q, c) = none
  := by
  induction p generalizing q with
  | nil => exact absurd List.nil_prefix hpq
  | cons k p ih =>
    cases q with
    | nil => exact absurd List.nil_prefix hqp
    | cons j q =>
      rw [part]
      split
      case isTrue heq =>
        subst heq
        rw [List.cons_prefix_cons, and_iff_right rfl] at hpq hqp
        apply ih hpq hqp
      case isFalse => rfl

theorem replay_cons (n : FNode V) (w : List FKey × FNode V) (ws : List (List FKey × FNode V)) :
  (FNode.overwrite V).replay n (w :: ws)
    = (FNode.overwrite V).replay (n.updateChild w.1 w.2) ws
  := rfl

/-- What writes leave at a path is what their parts leave of what is there. -/
theorem getChild_replay_part (hn : n.Wf) (hp : FKey.priority ∉ p)
    (hws : ∀ w ∈ ws, w.2.Wf ∧ FKey.priority ∉ w.1) :
  ((FNode.overwrite V).replay n ws).getChild p
    = (FNode.overwrite V).replay (n.getChild p) (ws.filterMap (part p))
  := by
  induction ws generalizing n with
  | nil => rfl
  | cons w ws ih =>
    rw [List.forall_mem_cons] at hws
    have hfirst := getChild_updateChild_part hn hws.1.1 hp hws.1.2
    rw [replay_cons, ih (hn.updateChild w.1 hws.1.1) hws.2, List.filterMap_cons, hfirst]
    cases part p w with
    | none => rfl
    | some u => rfl

/-- Writes that do not meet a path leave what is there. -/
theorem getChild_replay_of_apart (hn : n.Wf) (hp : FKey.priority ∉ p)
    (hws : ∀ w ∈ ws, w.2.Wf ∧ FKey.priority ∉ w.1) (hapart : ∀ w ∈ ws, ¬ p <+: w.1 ∧ ¬ w.1 <+: p) :
  ((FNode.overwrite V).replay n ws).getChild p = n.getChild p
  := by
  have hnone : ws.filterMap (part p) = [] := by
    rw [List.filterMap_eq_nil_iff]
    intro w hw
    apply part_eq_none (hapart w hw).1 (hapart w hw).2
  rw [getChild_replay_part hn hp hws, hnone, Overwrite.replay_nil]

/-- Writes at paths below the root keep the data open. -/
theorem Open.replay (h : n.Open) (hws : ∀ w ∈ ws, w.2.Wf ∧ FKey.priority ∉ w.1)
    (hne : ∀ w ∈ ws, w.1 ≠ []) :
  ((FNode.overwrite V).replay n ws).Open
  := by
  induction ws generalizing n with
  | nil => exact h
  | cons w ws ih =>
    rw [List.forall_mem_cons] at hws hne
    rw [replay_cons]
    apply ih (h.updateChild hws.1.1 hws.1.2 hne.1) hws.2 hne.2

/-- A write of the whole data makes what was there before irrelevant. -/
theorem replay_eq_of_mem_nil {m : FNode V} (h : ∃ w ∈ ws, w.1 = []) :
  (FNode.overwrite V).replay n ws = (FNode.overwrite V).replay m ws
  := by
  induction ws generalizing n m with
  | nil =>
    obtain ⟨w, hw, -⟩ := h
    cases hw
  | cons w ws ih =>
    rw [replay_cons, replay_cons]
    rw [List.exists_mem_cons_iff] at h
    rcases h with hnil | h
    · rw [hnil, updateChild_nil, updateChild_nil]
    · apply ih h

/-- If writes that do not meet leave the data as it was, each of them does. -/
theorem updateChild_eq_self_of_replay {w : List FKey × FNode V} (hn : n.Wf)
    (hws : ∀ v ∈ w :: ws, v.2.Wf ∧ FKey.priority ∉ v.1)
    (hapart : ∀ v ∈ ws, ¬ w.1 <+: v.1 ∧ ¬ v.1 <+: w.1)
    (h : (FNode.overwrite V).replay n (w :: ws) = n) :
  n.updateChild w.1 w.2 = n
  := by
  rw [List.forall_mem_cons] at hws
  have hget : n.getChild w.1 = w.2 := by
    have hrest := getChild_replay_of_apart (hn.updateChild w.1 hws.1.1) hws.1.2 hws.2 hapart
    rw [getChild_updateChild hn hws.1.2 hws.1.1] at hrest
    rw [← hrest]
    exact congrArg (fun m => m.getChild w.1) h.symm
  rw [← hget, updateChild_getChild hn hws.1.2]

end FNode

/-! ## Updates of a view with all data -/

/-- The cache of a view that has all data, from the data it shows and that of the
server. -/
def FViewCache.full (eventSnap serverSnap : FNode V) : FViewCache V where
  cachedEventSnap := ⟨eventSnap, true, false⟩
  cachedServerSnap := ⟨serverSnap, true, false⟩

namespace FViewCache

variable (m n : FNode V) (k : FKey) (p : List FKey)

@[simp]
theorem cachedEventSnap_full :
  (full m n).cachedEventSnap = ⟨m, true, false⟩
  := rfl

@[simp]
theorem cachedServerSnap_full :
  (full m n).cachedServerSnap = ⟨n, true, false⟩
  := rfl

@[simp]
theorem completeServerSnap_full :
  (full m n).completeServerSnap = some n
  := rfl

@[simp]
theorem isCompleteForChild_full :
  FCacheNode.isCompleteForChild ⟨m, true, false⟩ k = true
  := rfl

@[simp]
theorem isCompleteForPath_full :
  FCacheNode.isCompleteForPath ⟨m, true, false⟩ p = true
  := by
  cases p <;> rfl

end FViewCache

namespace FViewProcessor

open FViewCache FIndexedFilter FChildChangeAccumulator

/-- An operation raises no exception, shows another node and keeps other data of the
server, and tracks the change of the node shown. -/
def Updates (op : Option (FChildChangeAccumulator V) → Option (Tracked V))
    (m m' n' : FNode V) : Prop :=
  ∀ accumulator f, (∀ k, (f k).Wf) → Tracks accumulator f m.child →
    ∃ accumulator', op (some accumulator) = some (full m' n', some accumulator')
      ∧ Tracks accumulator' f m'.child ∧ (m' = m → accumulator' = accumulator)

variable {op : Option (FChildChangeAccumulator V) → Option (Tracked V)}
  {ref : FWriteTreeRef V} {ws : List (List FKey × FNode V)} {m n c : FNode V} {p : List FKey}
  {k : FKey}

theorem Updates.of_eq (h : ∀ accumulator, op accumulator = some (full m n, accumulator)) :
  Updates op m m n
  := by
  intro accumulator f _ ht
  exact ⟨accumulator, h _, ht, fun _ => rfl⟩

/-- A loop whose steps write at paths that do not meet makes these writes. -/
theorem Updates.foldlM {α : Type*} {step : Tracked V → α → Option (Tracked V)}
    {w : α → List FKey × FNode V} {next : FNode V → α → FNode V} {I : FNode V → FNode V → Prop}
    {l : List α} (hw : ∀ a ∈ l, (w a).2.Wf ∧ FKey.priority ∉ (w a).1)
    (hapart : l.Pairwise fun a b => ¬ (w a).1 <+: (w b).1 ∧ ¬ (w b).1 <+: (w a).1)
    (hstep : ∀ a ∈ l, ∀ m n, m.Wf → I m n →
      Updates (fun accumulator => step (full m n, accumulator) a) m
          (m.updateChild (w a).1 (w a).2) (next n a)
        ∧ I (m.updateChild (w a).1 (w a).2) (next n a))
    (hm : m.Wf) (hI : I m n) :
  Updates (fun accumulator => l.foldlM step (full m n, accumulator)) m
      ((FNode.overwrite V).replay m (l.map w)) (l.foldl next n)
    ∧ I ((FNode.overwrite V).replay m (l.map w)) (l.foldl next n)
  := by
  induction l generalizing m n with
  | nil => exact ⟨Updates.of_eq fun _ => rfl, hI⟩
  | cons a l ih =>
    have hmap : ∀ v ∈ w a :: l.map w, v.2.Wf ∧ FKey.priority ∉ v.1 := by
      intro v hv
      rw [← List.map_cons, List.mem_map] at hv
      obtain ⟨b, hb, rfl⟩ := hv
      apply hw b hb
    rw [List.forall_mem_cons] at hw hstep
    rw [List.pairwise_cons] at hapart
    obtain ⟨hfirst, hI₁⟩ := hstep.1 m n hm hI
    obtain ⟨hrest, hI₂⟩ := ih hw.2 hapart.2 hstep.2 (hm.updateChild (w a).1 hw.1.1) hI₁
    refine ⟨?_, hI₂⟩
    intro accumulator f hf ht
    obtain ⟨accumulator₁, hop₁, ht₁, hsame₁⟩ := hfirst accumulator f hf ht
    obtain ⟨accumulator₂, hop₂, ht₂, hsame₂⟩ := hrest accumulator₁ f hf ht₁
    refine ⟨accumulator₂, ?_, ht₂, ?_⟩
    · dsimp only at hop₁ ⊢
      rw [List.foldlM_cons, hop₁]
      exact hop₂
    · intro hself
      have hself₁ : m.updateChild (w a).1 (w a).2 = m := by
        apply FNode.updateChild_eq_self_of_replay hm hmap _ hself
        intro v hv
        obtain ⟨b, hb, rfl⟩ := List.mem_map.mp hv
        apply hapart.1 b hb
      rw [hsame₂ (hself.trans hself₁.symm), hsame₁ hself₁]

/-- A child that is written at a path differs from the old one only there. -/
theorem eq_of_getChild_eq (hm : m.Wf) (hc : c.Wf) (hp : FKey.priority ∉ p)
    (h : m.getChild p = (m.updateChild p c).getChild p) :
  m = m.updateChild p c
  := by
  rw [FNode.getChild_updateChild hm hp hc] at h
  rw [← h, FNode.updateChild_getChild hm hp]

variable [DecidableEq V]

/-- A write below a child raises no exception and is tracked. -/
theorem exists_updateChildIn {accumulator : FChildChangeAccumulator V} {f : FKey → FNode V}
    (hf : ∀ k, (f k).Wf) (ht : Tracks accumulator f m.child) (hm : m.Wf) (hc : c.Wf)
    (hk : k ≠ FKey.priority) (hp : FKey.priority ∉ p) :
  ∃ accumulator',
    updateChildIn m k ((m.getImmediateChild k).updateChild p c) p (some accumulator)
        = some (m.updateChild (k :: p) c, some accumulator')
      ∧ Tracks accumulator' f (m.updateChild (k :: p) c).child
      ∧ (m.updateChild (k :: p) c = m → accumulator' = accumulator)
  := by
  have hchild := hm.getImmediateChild k
  rw [FNode.updateChild_cons m hc hk]
  apply tracks_updateChildIn ht (hf k) hm (hchild.updateChild p hc) hk
  intro h _
  rw [FNode.child_eq m hk] at h ⊢
  apply eq_of_getChild_eq hchild hc hp h

/-- The update of the node shown by a write below a child. -/
theorem updates_updateChildIn (hm : m.Wf) (hc : c.Wf) (hk : k ≠ FKey.priority)
    (hp : FKey.priority ∉ p)
    (hop : ∀ accumulator, op accumulator
      = (updateChildIn m k ((m.getImmediateChild k).updateChild p c) p accumulator).map
          fun r => (full r.1 n, r.2)) :
  Updates op m (m.updateChild (k :: p) c) n
  := by
  intro accumulator f hf ht
  obtain ⟨accumulator', hupdate, ht', hsame⟩ := exists_updateChildIn hf ht hm hc hk hp
  refine ⟨accumulator', ?_, ht', hsame⟩
  rw [hop, hupdate, Option.map_some]

/-- The update of the whole node shown. -/
theorem updates_updateFullNode (hm : m.Wf) (hc : c.Wf)
    (hop : ∀ accumulator, op accumulator
      = (updateFullNode m c accumulator).map fun r => (full r.1 n, r.2)) :
  Updates op m c n
  := by
  intro accumulator f hf ht
  obtain ⟨accumulator', hupdate, ht', hsame⟩ := tracks_updateFullNode ht hf hm hc
  refine ⟨accumulator', ?_, ht', hsame⟩
  rw [hop, hupdate, Option.map_some]

/-- Data of the server that is shadowed does not show. -/
theorem updates_generateEventCacheAfterServerEvent_of_shadowed (h : ref.Sees ws)
    (hshadow : ∃ w ∈ ws, w.1 <+: p) :
  Updates (generateEventCacheAfterServerEvent (full m n) p ref) m m n
  := by
  apply Updates.of_eq
  intro accumulator
  rw [generateEventCacheAfterServerEvent]
  dsimp only
  rw [if_pos ((h.isSome_shadowingWriteAtPath_iff p).mpr hshadow)]

/-- After other data of the server has changed at a path, the node shown is updated there
with what is to be shown. -/
theorem updates_generateEventCacheAfterServerEvent (h : ref.Sees ws) (hn : n.Under ws)
    (hm : m.Wf) (hp : FKey.priority ∉ p) (hshadow : ¬ ∃ w ∈ ws, w.1 <+: p) :
  Updates (generateEventCacheAfterServerEvent (full m n) p ref) m
    (m.updateChild p (((FNode.overwrite V).replay n ws).getChild p)) n
  := by
  have hreplay := hn.wf.replay h.writes
  have hnot : ¬ (ref.shadowingWriteAtPath p).isSome = true := by
    rw [h.isSome_shadowingWriteAtPath_iff]
    exact hshadow
  cases p with
  | nil =>
    rw [FNode.updateChild_nil, FNode.getChild_nil]
    apply updates_updateFullNode hm hreplay
    intro accumulator
    rw [generateEventCacheAfterServerEvent]
    dsimp only
    rw [if_neg hnot]
    simp only [cachedServerSnap_full, completeServerSnap_full, Bool.false_eq_true, if_false,
      h.calculateCompleteEventCache_eq hn]
    rw [Option.map_eq_bind]
    rfl
  | cons k p =>
    have hget := h.calculateEventCacheAfterServerOverwrite_eq hn hp hshadow
    rw [List.mem_cons, not_or] at hp
    have hk := Ne.symm hp.1
    apply updates_updateChildIn hm (hreplay.getChild _) hk hp.2
    intro accumulator
    rw [generateEventCacheAfterServerEvent]
    dsimp only
    rw [if_neg hnot]
    simp only [cachedServerSnap_full, cachedEventSnap_full, isCompleteForChild_full, if_neg hk,
      if_true, hget]
    rw [Option.map_eq_bind]
    rfl

/-- An overwrite of the server updates its data, and then the data shown. -/
theorem applyServerOverwriteTo_full (hn : n.Wf) (hc : c.Wf) (hp : FKey.priority ∉ p)
    (accumulator : Option (FChildChangeAccumulator V)) :
  applyServerOverwriteTo (full m n) p c ref accumulator
    = generateEventCacheAfterServerEvent (full m (n.updateChild p c)) p ref accumulator
  := by
  cases p with
  | nil =>
    rw [FNode.updateChild_nil]
    rfl
  | cons k p =>
    rw [List.mem_cons, not_or] at hp
    have hk := Ne.symm hp.1
    have hchild := hn.getImmediateChild k
    have hupdate := updateChildIn_none (p := p) hn (hchild.updateChild p hc) hk fun h _ => by
      rw [FNode.child_eq n hk] at h ⊢
      apply eq_of_getChild_eq hchild hc hp.2 h
    rw [← FNode.updateChild_cons n hc hk] at hupdate
    rw [applyServerOverwriteTo]
    simp only [cachedServerSnap_full, isCompleteForPath_full, if_neg hk, hupdate]
    rfl

omit [DecidableEq V] in
theorem overwrittenChild_full (hp : FKey.priority ∉ p) (optCompleteCache : Option (FNode V)) :
  overwrittenChild (full m n) k p c ref optCompleteCache
    = (m.getImmediateChild k).updateChild p c
  := by
  rw [overwrittenChild]
  cases p with
  | nil => rw [if_pos List.isEmpty_nil, FNode.updateChild_nil]
  | cons j p =>
    have hlast : (j :: p).getLast? ≠ some FKey.priority :=
      fun h => hp (List.mem_of_getLast? h)
    have hcomplete : completeChild ref (full m n) optCompleteCache k
        = some (m.getImmediateChild k) := rfl
    rw [if_neg (by simp), hcomplete]
    dsimp only
    rw [if_neg fun h => hlast h.1]

/-- An overwrite of the user updates the node shown. -/
theorem updates_applyUserOverwriteTo (hm : m.Wf) (hc : c.Wf) (hp : FKey.priority ∉ p)
    (optCompleteCache : Option (FNode V)) :
  Updates (applyUserOverwriteTo (full m n) p c ref optCompleteCache) m (m.updateChild p c) n
  := by
  cases p with
  | nil =>
    rw [FNode.updateChild_nil]
    apply updates_updateFullNode hm hc
    intro accumulator
    rw [applyUserOverwriteTo, Option.map_eq_bind]
    rfl
  | cons k p =>
    rw [List.mem_cons, not_or] at hp
    have hk := Ne.symm hp.1
    have hchild := hm.getImmediateChild k
    have hequal := hchild.isEqual_iff_eq (hchild.updateChild p hc)
    by_cases heq : m.getImmediateChild k = (m.getImmediateChild k).updateChild p c
    · have hself : m.updateChild (k :: p) c = m := by
        rw [FNode.updateChild_cons m hc hk, ← heq,
          FNode.updateImmediateChild_getImmediateChild hm hk]
      rw [hself]
      apply Updates.of_eq
      intro accumulator
      rw [applyUserOverwriteTo]
      dsimp only
      rw [if_neg hk, overwrittenChild_full hp.2, cachedEventSnap_full, if_pos (hequal.mpr heq)]
    · apply updates_updateChildIn hm hc hk hp.2
      intro accumulator
      rw [applyUserOverwriteTo, Option.map_eq_bind]
      dsimp only
      rw [if_neg hk, overwrittenChild_full hp.2, cachedEventSnap_full, if_neg (mt hequal.mp heq)]
      rfl

/-- A merge of the user updates the node shown with all its writes. -/
theorem updates_applyUserMergeTo {changes : FCompoundWrite V} (hm : m.Wf)
    (hwf : ∀ e ∈ changes.forEach, e.2.Wf ∧ FKey.priority ∉ p ++ e.1)
    (hapart : changes.forEach.Pairwise fun d e =>
      ¬ p ++ d.1 <+: p ++ e.1 ∧ ¬ p ++ e.1 <+: p ++ d.1)
    (serverCache : Option (FNode V)) :
  Updates (applyUserMergeTo (full m n) p changes ref serverCache) m
    ((FNode.overwrite V).replay m (changes.forEach.map fun e => (p ++ e.1, e.2))) n
  := by
  have hhas : ∀ q, cacheHasChild (full m n) q = true := by
    intro q
    rw [cacheHasChild, cachedEventSnap_full, isCompleteForPath_full]
  have hloop : Updates (fun accumulator => changes.forEach.foldlM
        (fun cur e => applyUserOverwriteTo cur.1 (p ++ e.1) e.2 ref serverCache cur.2)
        (full m n, accumulator)) m
      ((FNode.overwrite V).replay m (changes.forEach.map fun e => (p ++ e.1, e.2)))
      (changes.forEach.foldl (fun n _ => n) n) ∧ True := by
    apply Updates.foldlM (I := fun _ _ => True) hwf hapart _ hm trivial
    intro e he m n hm _
    exact ⟨updates_applyUserOverwriteTo hm (hwf e he).1 (hwf e he).2 serverCache, trivial⟩
  rw [List.foldl_fixed] at hloop
  intro accumulator f hf ht
  obtain ⟨accumulator', hop, ht', hsame⟩ := hloop.1 accumulator f hf ht
  refine ⟨accumulator', ?_, ht', hsame⟩
  have hsecond : ∀ (l : List (List FKey × FNode V)) (cur : Tracked V),
      l.foldlM (fun cur _ => some cur) cur = some cur := by
    intro l cur
    induction l with
    | nil => rfl
    | cons _ _ ih => exact ih
  dsimp only at hop
  rw [applyUserMergeTo]
  simp only [hhas, if_true, hop, Option.bind_eq_bind, Option.bind_some, hsecond]

/-! ## Data of the server -/

omit [DecidableEq V] in
/-- Data of the server that is shadowed does not show; other data shows at its path. -/
theorem replay_updateChild (h : ref.Sees ws) (hn : n.Under ws) (hc : c.Wf)
    (hp : FKey.priority ∉ p) (hn' : (n.updateChild p c).Under ws) :
  ((∃ w ∈ ws, w.1 <+: p) →
      (FNode.overwrite V).replay (n.updateChild p c) ws = (FNode.overwrite V).replay n ws)
    ∧ ((¬ ∃ w ∈ ws, w.1 <+: p) →
      ((FNode.overwrite V).replay n ws).updateChild p
          (((FNode.overwrite V).replay (n.updateChild p c) ws).getChild p)
        = (FNode.overwrite V).replay (n.updateChild p c) ws)
  := by
  obtain ⟨hoverlay, hfits⟩ := h.overlay_eq hn
  obtain ⟨hoverlay', hfits'⟩ := h.overlay_eq hn'
  rw [← h.isSome_completeNodeAtPath_iff, ← hoverlay, ← hoverlay']
  constructor
  · intro hcomplete
    apply overlay_updateChild_of_complete h.wf_layered hfits hn.wf hc hp hfits' hcomplete
  · intro hcomplete
    rw [Option.not_isSome_iff_eq_none] at hcomplete
    rw [getChild_overlay h.wf_layered hfits' hn'.wf hp, FNode.getChild_updateChild hn.wf hp hc,
      overlay_updateChild_of_not_complete h.wf_layered hfits hn.wf hc hp hfits' hcomplete]

/-- An overwrite of the server leaves the view showing what it is to show. -/
theorem updates_applyServerOverwriteTo (h : ref.Sees ws) (hn : n.Under ws) (hc : c.Wf)
    (hp : FKey.priority ∉ p) (hn' : (n.updateChild p c).Under ws) :
  Updates (applyServerOverwriteTo (full ((FNode.overwrite V).replay n ws) n) p c ref)
    ((FNode.overwrite V).replay n ws) ((FNode.overwrite V).replay (n.updateChild p c) ws)
    (n.updateChild p c)
  := by
  have hm := hn.wf.replay h.writes
  obtain ⟨hhidden, hshown⟩ := replay_updateChild h hn hc hp hn'
  by_cases hshadow : ∃ w ∈ ws, w.1 <+: p
  · rw [hhidden hshadow]
    intro accumulator f hf ht
    rw [applyServerOverwriteTo_full hn.wf hc hp]
    apply updates_generateEventCacheAfterServerEvent_of_shadowed h hshadow accumulator f hf ht
  · rw [← hshown hshadow]
    intro accumulator f hf ht
    rw [applyServerOverwriteTo_full hn.wf hc hp]
    apply updates_generateEventCacheAfterServerEvent h hn' hm hp hshadow accumulator f hf ht

/-- That all data has been sent changes nothing. -/
theorem updates_listenComplete (h : ref.Sees ws) (hn : n.Under ws) (hp : FKey.priority ∉ p) :
  Updates (listenComplete (full ((FNode.overwrite V).replay n ws) n) p ref)
    ((FNode.overwrite V).replay n ws) ((FNode.overwrite V).replay n ws) n
  := by
  have hm := hn.wf.replay h.writes
  by_cases hshadow : ∃ w ∈ ws, w.1 <+: p
  · apply updates_generateEventCacheAfterServerEvent_of_shadowed h hshadow
  · have hupdates := updates_generateEventCacheAfterServerEvent h hn hm hp hshadow
    rw [FNode.updateChild_getChild hm hp] at hupdates
    exact hupdates

/-! ## Answers to writes -/

/-- The node shown lacks at most what is to be shown at a path, and nothing if the path is
shadowed. -/
structure Behind (ws : List (List FKey × FNode V)) (p : List FKey) (m n : FNode V) : Prop where
  shadowed : (∃ w ∈ ws, w.1 <+: p) → m = (FNode.overwrite V).replay n ws
  shown : (¬ ∃ w ∈ ws, w.1 <+: p) →
    m.updateChild p (((FNode.overwrite V).replay n ws).getChild p)
      = (FNode.overwrite V).replay n ws

/-- An overwrite that is acknowledged leaves the view showing what it is to show. -/
theorem updates_ackUserWriteOn_overwrite (h : ref.Sees ws) (hn : n.Under ws) (hm : m.Wf)
    (hp : FKey.priority ∉ p) (hbehind : Behind ws p m n) {affectedTree : FImmutableTree Bool}
    (haffected : affectedTree.value.isSome = true) :
  Updates (ackUserWriteOn (full m n) p affectedTree ref) m ((FNode.overwrite V).replay n ws) n
  := by
  by_cases hshadow : ∃ w ∈ ws, w.1 <+: p
  · rw [← hbehind.shadowed hshadow]
    apply Updates.of_eq
    intro accumulator
    rw [ackUserWriteOn]
    dsimp only
    rw [if_pos ((h.isSome_shadowingWriteAtPath_iff p).mpr hshadow)]
  · have hnot : ¬ (ref.shadowingWriteAtPath p).isSome = true := by
      rw [h.isSome_shadowingWriteAtPath_iff]
      exact hshadow
    have hself := FNode.updateChild_getChild hn.wf hp
    rw [← hbehind.shown hshadow]
    intro accumulator f hf ht
    have hack : ackUserWriteOn (full m n) p affectedTree ref (some accumulator)
        = generateEventCacheAfterServerEvent (full m n) p ref (some accumulator) := by
      rw [ackUserWriteOn]
      dsimp only
      rw [if_neg hnot, if_pos haffected, if_pos (by simp), cachedServerSnap_full,
        applyServerOverwriteTo_full hn.wf (hn.wf.getChild p) hp, hself]
    rw [hack]
    apply updates_generateEventCacheAfterServerEvent h hn hm hp hshadow accumulator f hf ht

/-- A write that is reverted leaves the view showing what it is to show. -/
theorem updates_revertUserWriteOn (h : ref.Sees ws) (hn : n.Under ws) (hm : m.Wf)
    (hp : FKey.priority ∉ p) (hbehind : Behind ws p m n) :
  Updates (revertUserWriteOn (full m n) p ref) m ((FNode.overwrite V).replay n ws) n
  := by
  have hreplay := hn.wf.replay h.writes
  by_cases hshadow : ∃ w ∈ ws, w.1 <+: p
  · rw [← hbehind.shadowed hshadow]
    apply Updates.of_eq
    intro accumulator
    rw [revertUserWriteOn]
    dsimp only
    rw [if_pos ((h.isSome_shadowingWriteAtPath_iff p).mpr hshadow)]
  · have hnot : ¬ (ref.shadowingWriteAtPath p).isSome = true := by
      rw [h.isSome_shadowingWriteAtPath_iff]
      exact hshadow
    cases p with
    | nil =>
      apply updates_updateFullNode hm hreplay
      intro accumulator
      rw [revertUserWriteOn]
      dsimp only
      rw [if_neg hnot]
      simp only [cachedServerSnap_full, completeServerSnap_full, if_true,
        h.calculateCompleteEventCache_eq hn]
      rw [Option.map_eq_bind]
      rfl
    | cons k p =>
      have hshown := hbehind.shown hshadow
      rw [List.mem_cons, not_or] at hp
      have hk := Ne.symm hp.1
      have hpart := hreplay.getChild (k :: p)
      have hchild : ((FNode.overwrite V).replay n ws).getImmediateChild k
          = (m.getImmediateChild k).updateChild p
              (((FNode.overwrite V).replay n ws).getChild (k :: p)) := by
        nth_rewrite 1 [← hshown]
        rw [FNode.updateChild_cons m hpart hk, FNode.getImmediateChild_update_self hm
          ((hm.getImmediateChild k).updateChild p hpart) hk]
      intro accumulator f hf ht
      obtain ⟨accumulator', hupdate, ht', hsame⟩ := exists_updateChildIn hf ht hm hpart hk hp.2
      rw [hshown, ← hchild] at hupdate
      rw [hshown] at ht' hsame
      refine ⟨accumulator', ?_, ht', hsame⟩
      rw [revertUserWriteOn]
      dsimp only
      rw [if_neg hnot, if_neg hk]
      simp only [cachedServerSnap_full, cachedEventSnap_full, completeServerSnap_full,
        h.calculateCompleteChild_eq hn hk, h.calculateCompleteEventCache_eq hn, hupdate]
      -- a leaf is not empty, so that the node is not replaced once more
      rw [Option.bind_eq_bind, Option.bind_some]
      split
      case isTrue hempty =>
        rw [if_neg]
        · rfl
        · intro hleaf
          cases hnode : (FNode.overwrite V).replay n ws with
          | leaf =>
            rw [hnode] at hempty
            cases hempty.1
          | children =>
            rw [hnode] at hleaf
            cases hleaf
      case isFalse => rfl

end FViewProcessor

end ForDream

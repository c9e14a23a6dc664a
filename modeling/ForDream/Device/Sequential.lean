import ForDream.Device.Step

/-!
# Operations one after the other

In a sequential run every operation starts after all the snapshots of the earlier
ones were delivered: `settle` runs the main queue until it is empty, and `complete`
is an operation followed by `settle`.

`Agrees P l d` says that the node of the device keeps the dreams of `l` and that the
app tracks it, so that once the main queue is empty the container is `l` in ascending
order.  Turns keep `l`; an operation started on an empty main queue changes it by the
effect of the operation.
-/

namespace ForDream

open Model

namespace Device

/-! ### Settling -/

/-- The number of turns until a main queue is empty, when `n` observers are
registered. -/
def pending (P : Platform) : ℕ → List Turn → ℕ
  | _, [] => 0
  | n, .value _ :: queue => pending P n queue + 1
  | n, .fetchContainers :: queue => P.initial (n + 1) + pending P (n + 1) queue + 1

/-- Run the main queue until it is empty. -/
def settle (P : Platform) (d : Device) : Option Device :=
  Machine.run (step P) d
    (List.replicate (pending P d.app.observers d.app.mainQueue) .turn)

/-- An operation and all the turns that follow from it. -/
def complete (P : Platform) (d : Device) (op : Op) : Option Device :=
  (d.perform op).settle P

/-- The device after the operations of a list, each completed before the next. -/
def sequential (P : Platform) (node : Node) (ops : List Op) : Option Device :=
  ((launch node).settle P).bind fun d => Machine.run (complete P) d ops

theorem pending_append_replicate (P : Platform) (n k : ℕ) (queue : List Turn) (node : Node) :
  pending P n (queue ++ List.replicate k (.value node)) = pending P n queue + k
  := by
  induction queue generalizing n with
  | nil =>
    induction k with
    | zero => rfl
    | succ k ih =>
      simp only [List.replicate_succ, List.nil_append, pending] at ih ⊢
      omega
  | cons t queue ih =>
    cases t with
    | value snapshot =>
      simp only [List.cons_append, pending, ih]
      omega
    | fetchContainers =>
      simp only [List.cons_append, pending, ih]
      omega

/-- A turn takes one off the number of turns left. -/
theorem pending_turn {P : Platform} {node : Node} {a a' : App} (h : a.turn P node = some a')
    (hqueue : a.mainQueue ≠ []) :
  pending P a'.observers a'.mainQueue + 1 = pending P a.observers a.mainQueue
  := by
  rcases App.turn_cases h with ⟨hempty, -⟩ | ⟨snapshot, queue, container, heq, -, rfl⟩ |
      ⟨queue, heq, rfl⟩
  · contradiction
  · rw [heq]
    rfl
  · simp only [heq, App.observe, pending_append_replicate, pending]
    omega

/-! ### Agreement of container and node -/

/-- The node keeps the dreams of `l`, the app tracks it, and once the main queue is
empty the container is `l` in ascending order. -/
structure Agrees (P : Platform) (l : List Dream) (d : Device) : Prop where
  node : d.node = store l
  tracks : App.Tracks d.node d.app
  current : d.app.mainQueue = [] → d.app.dreamContainers = ascendingOrder P.sorter l

variable {P : Platform} {l : List Dream} {d : Device}

theorem agrees_launch (P : Platform) (l : List Dream) :
  Agrees P l (launch (store l))
  where
  node := rfl
  tracks := App.tracks_launch _
  current h := by cases h

/-- A turn does not trap and keeps the agreement. -/
theorem Agrees.turn (h : Agrees P l d) :
  ∃ d', d.step P .turn = some d' ∧ Agrees P l d' ∧ d'.app.alert = d.app.alert
    ∧ (d.app.mainQueue ≠ [] →
      pending P d'.app.observers d'.app.mainQueue + 1
        = pending P d.app.observers d.app.mainQueue)
  := by
  obtain ⟨a, node⟩ := d
  obtain rfl : node = store l := h.node
  obtain ⟨a', hturn, htracks, hcurrent⟩ := App.Tracks.turn h.tracks P
  use ⟨a', store l⟩
  constructor
  · simp [step, hturn]
  · constructor
    · use rfl, htracks
      intro hqueue
      by_cases hempty : a.mainQueue = []
      · have hidle : a = a' := by simpa [App.turn, hempty] using hturn
        subst hidle
        apply h.current hempty
      · apply hcurrent hqueue hempty
    · constructor
      · apply App.turn_alert hturn
      · apply pending_turn hturn

/-- Settling does not trap, keeps the agreement and empties the main queue. -/
theorem Agrees.settle (h : Agrees P l d) :
  ∃ d', d.settle P = some d' ∧ Agrees P l d' ∧ d'.app.alert = d.app.alert
    ∧ d'.app.mainQueue = []
  := by
  rw [Device.settle]
  generalize hn : pending P d.app.observers d.app.mainQueue = n
  induction n generalizing d with
  | zero =>
    use d, rfl, h, rfl
    obtain ⟨⟨container, alert, observers, queue⟩, node⟩ := d
    rcases queue with _ | ⟨_ | _, queue⟩
    · rfl
    · simp [pending] at hn
    · simp [pending] at hn
  | succ n ih =>
    have hqueue : d.app.mainQueue ≠ [] := by
      intro hempty
      simp [hempty, pending] at hn
    obtain ⟨d', hstep, hagrees, halert, hpending⟩ := h.turn
    obtain ⟨d'', hrun, hagrees', halert', hempty⟩ :=
      ih hagrees (by have := hpending hqueue; omega)
    use d''
    rw [List.replicate_succ, Machine.run_cons, hstep, Option.bind_some]
    use hrun, hagrees', halert'.trans halert

/-- An app with nothing pending has registered an observer. -/
theorem Agrees.observers_pos (h : Agrees P l d) (hqueue : d.app.mainQueue = []) :
  0 < d.app.observers
  := by
  rcases h.tracks.observed with hpos | ⟨hne, -⟩
  · exact hpos
  · contradiction

/-- A save started on an empty main queue appends the dream. -/
theorem Agrees.perform_save (h : Agrees P l d) (hqueue : d.app.mainQueue = []) {op : Op}
    {dream : Dream} (hsaves : d.app.saves op = some dream) :
  Agrees P (l ++ [dream]) (d.perform op)
  := by
  obtain ⟨hwrites, -⟩ := App.perform_of_saves hsaves
  rw [h.current hqueue, length_ascendingOrder] at hwrites
  have hnode : (d.perform op).node = store (l ++ [dream]) := by
    rw [perform_node, hwrites, h.node]
    apply saveAction_apply_store
  use hnode
  · apply tracks_writes (h.tracks.perform op)
    rw [hwrites, h.node]
    apply readable_saveAction
  · intro hempty
    have hidle := writes_idle (by simpa using h.observers_pos hqueue) hempty List.prefix_rfl
    rw [← perform_node, hnode, h.node, store_inj] at hidle
    simp at hidle

/-- An update of any node brings it in agreement with the container. -/
theorem agrees_updateAction {a : App} {node : Node} (htracks : App.Tracks node a)
    (hobservers : 0 < a.observers) :
  Agrees P a.dreamContainers (writes ⟨a, node⟩ (updateAction a.dreamContainers))
  := by
  use by rw [writes_node, applyAll_updateAction]
  · -- The node before may hold anything; the removal makes it readable.
    rw [updateAction, writes, List.foldl_cons, ← writes]
    apply tracks_writes
    · rw [write]
      split
      · exact htracks
      · apply htracks.notify []
    · rw [write_node]
      exact (readable_updateAction [] a.dreamContainers).2
  · intro hempty
    -- Neither the removal nor the whole update changed the node.
    have hremoved : Write.applyAll node [.removeValue] = node :=
      writes_idle hobservers hempty (by simp [updateAction])
    have hidle := writes_idle hobservers hempty List.prefix_rfl
    rw [applyAll_updateAction, ← hremoved, Write.applyAll_cons, Write.apply,
      Write.applyAll_nil, store_eq_empty] at hidle
    rw [writes_dreamContainers, hidle, ascendingOrder_nil]

/-- An update started on an empty main queue leaves the dreams of the container. -/
theorem Agrees.perform_update (h : Agrees P l d) (hqueue : d.app.mainQueue = []) {op : Op}
    {rest : List Dream} (hwrites : (d.app.perform op).2 = updateAction rest)
    (hrest : (d.app.perform op).1.dreamContainers = rest) :
  Agrees P rest (d.perform op)
  := by
  rw [Device.perform, hwrites, ← hrest]
  apply agrees_updateAction (h.tracks.perform op)
  rw [App.perform_observers]
  apply h.observers_pos hqueue

/-- An operation without writes keeps the agreement. -/
theorem Agrees.perform_idle (h : Agrees P l d) (hqueue : d.app.mainQueue = []) {op : Op}
    (hwrites : (d.app.perform op).2 = []) :
  Agrees P l (d.perform op)
  := by
  have hnode : (d.perform op).node = store l := by
    rw [perform_node, hwrites, Write.applyAll_nil, h.node]
  use hnode
  · rw [hnode, ← h.node]
    simpa [Device.perform, hwrites, writes] using h.tracks.perform op
  · intro hempty
    obtain ⟨-, hsame | rfl⟩ := App.perform_of_idle hwrites
    · rw [perform_dreamContainers, hsame, h.current hqueue]
    · simp [Device.perform, App.perform, writes] at hempty

/-- An operation started on an empty main queue keeps the agreement, and changes the
dreams by its effect. -/
theorem Agrees.perform (h : Agrees P l d) (hqueue : d.app.mainQueue = []) (op : Op) :
  ∃ l', Agrees P l' (d.perform op) ∧ (l' : Multiset Dream) = d.app.effect l op
  := by
  rcases d.app.perform_cases op with
    ⟨dream, hsaves, -, -, heffect⟩ | ⟨rest, -, hwrites, hrest, heffect, -⟩ |
      ⟨-, hwrites, heffect, -⟩
  · use l ++ [dream], h.perform_save hqueue hsaves
    rw [heffect, ← Multiset.coe_add, Multiset.add_comm]
    rfl
  · use rest, h.perform_update hqueue hwrites hrest
    have hperm : (l : Multiset Dream) = d.app.dreamContainers := by
      rw [h.current hqueue, Multiset.coe_eq_coe]
      apply (ascendingOrder_perm P.sorter l).symm
    rw [hperm, heffect]
  · use l, h.perform_idle hqueue hwrites
    rw [heffect]

/-- Completing an operation does not trap, keeps the agreement, and changes the dreams
by the effect of the operation. -/
theorem Agrees.complete (h : Agrees P l d) (hqueue : d.app.mainQueue = []) (op : Op) :
  ∃ l' d', d.complete P op = some d' ∧ Agrees P l' d' ∧ d'.app.mainQueue = []
    ∧ (l' : Multiset Dream) = d.app.effect l op
    ∧ d'.app.alert = (d.app.perform op).1.alert
  := by
  obtain ⟨l', hagrees, heffect⟩ := h.perform hqueue op
  obtain ⟨d', hsettle, hagrees', halert, hempty⟩ := hagrees.settle
  use l', d', hsettle, hagrees', hempty, heffect
  rw [halert, perform_alert]

/-- A sequential run does not trap and ends in agreement. -/
theorem sequential_agrees (P : Platform) (l : List Dream) (ops : List Op) :
  ∃ l' d, sequential P (store l) ops = some d ∧ Agrees P l' d ∧ d.app.mainQueue = []
  := by
  obtain ⟨start, hsettle, hagrees, -, hempty⟩ := (agrees_launch P l).settle
  have halways : Machine.Always (Device.complete P) (fun _ _ => True) start ops :=
    Machine.always_of_forall fun _ _ _ => trivial
  have hstep : ∀ (d : Device) (op : Op), (∃ l', Agrees P l' d ∧ d.app.mainQueue = []) → True →
      ∃ d', d.complete P op = some d' ∧ ∃ l', Agrees P l' d' ∧ d'.app.mainQueue = [] := by
    rintro d op ⟨l', hagrees, hempty⟩ -
    obtain ⟨l'', d', hcomplete, hagrees', hempty', -⟩ := hagrees.complete hempty op
    use d', hcomplete, l''
  obtain ⟨d, hd, l', hagrees', hempty'⟩ := halways.total hstep ⟨l, hagrees, hempty⟩
  use l', d
  rw [sequential, hsettle, Option.bind_some]
  use hd, hagrees'

/-- The names of the children of a node. -/
def childNames (node : Node) : Finset String := node.keys.image toString

/-- In every settled state of a sequential run the children of the node are named by
the numerals below the number of dreams in the container, the container is ascending
and a permutation of the dreams stored, and an operation changes the dreams stored
by exactly its effect. -/
theorem sequential_agreement (P : Platform) (ops : List Op) :
  ∃ d, sequential P ∅ ops = some d ∧ d.app.mainQueue = []
    ∧ childNames d.node = (Finset.range d.app.dreamContainers.length).image toString
    ∧ Stores d.node d.app.dreamContainers
    ∧ d.app.dreamContainers.Pairwise (fun d1 d2 => d1.writedDate ≤ d2.writedDate)
    ∧ ∀ op, ∃ d', d.complete P op = some d' ∧ d'.app.mainQueue = []
      ∧ ∀ dreams, Stores d.node dreams → Stores d'.node (d.app.effect dreams op)
  := by
  obtain ⟨l, d, hd, hagrees, hempty⟩ := sequential_agrees P [] ops
  have hcontainer := hagrees.current hempty
  have hstores : Stores d.node l := by
    rw [hagrees.node]
    apply stores_store
  use d, hd, hempty
  constructor
  · rw [childNames, hagrees.node, keys_store, hcontainer, length_ascendingOrder]
  · constructor
    · rw [hcontainer, Multiset.coe_eq_coe.mpr (ascendingOrder_perm P.sorter l)]
      exact hstores
    · constructor
      · rw [hcontainer]
        apply ascendingOrder_ascending
      · intro op
        obtain ⟨l', d', hcomplete, hagrees', hempty', heffect, -⟩ := hagrees.complete hempty op
        use d', hcomplete, hempty'
        intro dreams hdreams
        rw [hstores.unique hdreams] at heffect
        rw [← heffect, hagrees'.node]
        apply stores_store

/-! ### Fetching after an update -/

/-- The snapshots of writes are of the nodes on the way. -/
theorem mem_mainQueue_writes {d : Device} {ws : List Write} {t : Turn}
    (h : t ∈ (d.writes ws).app.mainQueue) :
  t ∈ d.app.mainQueue ∨ ∃ k, t = .value (Write.applyAll d.node (ws.take (k + 1)))
  := by
  induction ws generalizing d with
  | nil =>
    left
    exact h
  | cons w ws ih =>
    rw [writes, List.foldl_cons, ← writes] at h
    rcases ih h with hmem | ⟨k, rfl⟩
    · rw [write] at hmem
      split at hmem
      · left
        exact hmem
      · rcases List.mem_append.mp hmem with hmem | hmem
        · left
          exact hmem
        · right
          use 0
          simpa using (List.mem_replicate.mp hmem).2
    · right
      use k + 1
      rw [write_node, List.take_succ_cons, Write.applyAll_cons]

/-- Fetching undoes an update at every step of it.  The callback reads the snapshot after
the removal and the first `k` saves as the first `k` dreams in ascending order, whatever
the variable `dream` held; these are all the snapshots there are; and once they are
delivered the container holds the dreams it was updated from, in ascending order. -/
theorem fetchContainers_updateAction (P : Platform) (l : List Dream) (node : Node)
    (alert : Option Dream) (n : ℕ) :
  (∀ dream k, ∃ dream' container,
      valueCallback P.sorter dream (Write.applyAll node ((updateAction l).take (k + 1)))
        = some (dream', container)
      ∧ container.Perm (l.take k)
      ∧ container.Pairwise fun d1 d2 => d1.writedDate ≤ d2.writedDate)
    ∧ (∀ t ∈ (writes ⟨{ dreamContainers := l, alert, observers := n + 1 }, node⟩
        (updateAction l)).app.mainQueue,
      ∃ k, t = .value (Write.applyAll node ((updateAction l).take (k + 1))))
    ∧ ∃ d, (writes ⟨{ dreamContainers := l, alert, observers := n + 1 }, node⟩
        (updateAction l)).settle P = some d
      ∧ d.app.mainQueue = []
      ∧ d.app.dreamContainers.Perm l
      ∧ d.app.dreamContainers.Pairwise (fun d1 d2 => d1.writedDate ≤ d2.writedDate)
      ∧ (l.Pairwise (fun d1 d2 => d1.writedDate ≤ d2.writedDate) →
        (l.map Dream.writedDate).Nodup → d.app.dreamContainers = l)
  := by
  constructor
  · intro dream k
    obtain ⟨dream', hread⟩ := valueCallback_store P.sorter dream (l.take k)
    use dream', ascendingOrder P.sorter (l.take k)
    rw [applyAll_take_updateAction]
    use hread, ascendingOrder_perm P.sorter _
    apply ascendingOrder_ascending
  · constructor
    · intro t ht
      rcases mem_mainQueue_writes ht with hmem | hk
      · cases hmem
      · exact hk
    · have htracks : App.Tracks node { dreamContainers := l, alert, observers := n + 1 } := by
        constructor
        · simp
        · simp
        · simp
      obtain ⟨d, hd, hagrees, -, hqueue⟩ :=
        (agrees_updateAction (P := P) htracks (Nat.succ_pos n)).settle
      use d, hd, hqueue
      rw [hagrees.current hqueue]
      use ascendingOrder_perm P.sorter l, ascendingOrder_ascending P.sorter l
      intro hascending hnodup
      apply ascendingOrder_eq_self P.sorter hascending hnodup

end Device

end ForDream

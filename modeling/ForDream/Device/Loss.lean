import ForDream.Device.Sequential

/-!
# What a device can lose

A save writes the child named by the length of the container, and an update rewrites
the whole node from the container.  Where the container is behind the node, a save may
hit a child that is taken, and an update may leave out a dream that is stored.  `Safe`
says of an operation that it does neither.

A run whose operations are all safe loses no update: a dream whose save was issued
stays stored until a later operation removes or saves its date, or removes everything.
Operations started on an empty main queue are safe.

An update is a removal followed by a write for each dream that stays, so when the
server applies only some of the writes it issues, only a prefix of the dreams is left.
-/

namespace ForDream

open Model

namespace Device

/-- The event supersedes the date. -/
def Supersedes (date : String) (d : Device) : Event → Prop
  | .op op => d.app.Supersedes date op
  | .turn => False

instance (date : String) (d : Device) : ∀ e, Decidable (d.Supersedes date e)
  | .op op => inferInstanceAs (Decidable (d.app.Supersedes date op))
  | .turn => inferInstanceAs (Decidable False)

/-- A dream whose save was issued is stored once the main queue is empty, unless a
later operation superseded its date. -/
def NoLostUpdate (P : Platform) (start : Device) (es : List Event) : Prop :=
  ∀ before op after s dream, es = before ++ .op op :: after →
    Machine.run (step P) start before = some s → s.app.saves op = some dream →
    Machine.Always (step P) (fun d e => ¬ d.Supersedes dream.writedDate e) (s.perform op) after →
    ∀ final, Machine.run (step P) (s.perform op) after = some final →
      final.app.mainQueue = [] → Stored final.node dream

/-- A save finds its child free or of the same date, and a removal finds every dream
of another date that is stored in the container. -/
def Safe (d : Device) : Event → Prop
  | .op (.removeAction removeDream) =>
      ∀ value ∈ IndexMap.values d.node,
        dateOf value = some (.string removeDream.writedDate)
          ∨ value ∈ d.app.dreamContainers.map record
  | .op op =>
      ∀ dream ∈ d.app.saves op, ∀ value ∈ d.node.lookup d.app.dreamContainers.length,
        dateOf value = some (.string dream.writedDate)
  | .turn => True

instance (d : Device) : ∀ e, Decidable (d.Safe e)
  | .op (.removeAction r) => inferInstanceAs (Decidable (∀ value ∈ IndexMap.values d.node,
      dateOf value = some (.string r.writedDate) ∨ value ∈ d.app.dreamContainers.map record))
  | .op (.dateCheckAndSave dream) => decidableSaves (.dateCheckAndSave dream)
  | .op (.overwrite accepted) => decidableSaves (.overwrite accepted)
  | .op .removeAllAction => decidableSaves .removeAllAction
  | .op .refresh => decidableSaves .refresh
  | .op .fetchContainers => decidableSaves .fetchContainers
  | .turn => inferInstanceAs (Decidable True)
where
  decidableSaves (op : Op) : Decidable (∀ dream ∈ d.app.saves op,
      ∀ value ∈ d.node.lookup d.app.dreamContainers.length,
        dateOf value = some (.string dream.writedDate)) := inferInstance

/-- A safe save keeps what is stored under other dates. -/
theorem stored_saveAction {node : Node} {index : ℕ} {dream new : Dream}
    (hsafe : ∀ value ∈ node.lookup index, dateOf value = some (.string new.writedDate))
    (hdate : new.writedDate ≠ dream.writedDate) (h : Stored node dream) :
  Stored ((saveAction new index).apply node) dream
  := by
  obtain ⟨i, hi⟩ := h
  use i
  rw [saveAction, Write.apply, Finmap.lookup_insert_of_ne]
  · exact hi
  · rintro rfl
    have hsame := hsafe (record dream) hi
    simp only [dateOf_record, Option.some.injEq, Leaf.string.injEq] at hsame
    exact hdate hsame.symm

/-- A safe event keeps a stored dream whose date it does not supersede. -/
theorem Safe.stored {P : Platform} {d d' : Device} {e : Event} {dream : Dream}
    (hsafe : d.Safe e) (hkeep : ¬ d.Supersedes dream.writedDate e)
    (hstep : d.step P e = some d') (h : Stored d.node dream) :
  Stored d'.node dream
  := by
  cases e with
  | turn =>
    simp only [step, Option.map_eq_some_iff] at hstep
    obtain ⟨a, -, rfl⟩ := hstep
    exact h
  | op op =>
    obtain rfl := Option.some.inj hstep
    rw [perform_node]
    rcases d.app.perform_cases op with
      ⟨new, hsaves, hwrites, -⟩ | ⟨l, -, hwrites, -, -, ⟨r, rfl, rfl⟩ | ⟨rfl, -⟩⟩ |
        ⟨-, hwrites, -⟩
    · have hne : new.writedDate ≠ dream.writedDate := by
        intro heq
        apply hkeep
        rw [← heq]
        apply App.supersedes_of_saves hsaves
      rw [hwrites]
      apply stored_saveAction _ hne h
      cases op with
      | dateCheckAndSave _ => exact hsafe new hsaves
      | overwrite _ => exact hsafe new hsaves
      | removeAction _ => cases hsaves
      | removeAllAction => cases hsaves
      | refresh => cases hsaves
      | fetchContainers => cases hsaves
    · rw [hwrites, applyAll_updateAction, stored_store, mem_remaining]
      have hne : r.writedDate ≠ dream.writedDate := hkeep
      rcases hsafe (record dream) (IndexMap.mem_values.mpr h) with hdate | hmem
      · simp only [dateOf_record, Option.some.injEq, Leaf.string.injEq] at hdate
        exact absurd hdate.symm hne
      · rw [List.mem_map_of_injective record_injective] at hmem
        use hmem, hne.symm
    · exact absurd trivial hkeep
    · rw [hwrites]
      exact h

/-- A run whose operations are all safe loses no update. -/
theorem safe_noLostUpdate (P : Platform) (start : Device) (es : List Event)
    (hsafe : Machine.Always (step P) Safe start es) :
  NoLostUpdate P start es
  := by
  rintro before op after s dream rfl hs hsaves hkeep final hfinal -
  obtain ⟨-, hsafe⟩ := Machine.always_append.mp hsafe
  obtain ⟨-, hsafe⟩ := hsafe s hs
  have hstored : Stored (s.perform op).node dream := by
    rw [perform_node, (App.perform_of_saves hsaves).1]
    use s.app.dreamContainers.length
    apply Finmap.lookup_insert
  apply ((hsafe _ rfl).and hkeep).invariant (I := fun d => Stored d.node dream) _ hstored hfinal
  rintro d e d' hd ⟨hsafe, hkeep⟩ hstep
  apply hsafe.stored hkeep hstep hd

/-- Three dreams saved and one removed, with the snapshots delivered in between. -/
theorem safe_noLostUpdate_delivered :
  NoLostUpdate Platform.reference (launch ∅)
    [.turn, .turn, .op (.dateCheckAndSave (sea "2019-03-18")), .turn,
      .op (.dateCheckAndSave (fire "2019-03-19")), .turn,
      .op (.removeAction (sea "2019-03-18")), .turn, .turn,
      .op (.dateCheckAndSave (sea "2019-03-20")), .turn]
  := safe_noLostUpdate _ _ _ (by decide)

/-- Two dreams saved before the first snapshot has arrived: the second save writes the
child the first one wrote. -/
theorem save_before_snapshot_loses :
  ¬ NoLostUpdate Platform.reference (launch ∅)
    [.turn, .op (.dateCheckAndSave (sea "2019-03-18")),
      .op (.dateCheckAndSave (fire "2019-03-19")), .turn, .turn, .turn]
  := by
  intro h
  have hstored := h [.turn] (.dateCheckAndSave (sea "2019-03-18"))
    [.op (.dateCheckAndSave (fire "2019-03-19")), .turn, .turn, .turn]
    ⟨{ observers := 1, mainQueue := [.value ∅] }, ∅⟩ (sea "2019-03-18") rfl
    (by decide) (by decide) (by decide)
    ⟨{ dreamContainers := [fire "2019-03-19"], observers := 1 }, store [fire "2019-03-19"]⟩
    (by decide) rfl
  revert hstored
  decide

/-! ### Operations on an empty main queue -/

/-- Where the container agrees with the node and nothing is pending, every operation is
safe. -/
theorem Agrees.safe {P : Platform} {l : List Dream} {d : Device} (h : Agrees P l d)
    (hqueue : d.app.mainQueue = []) (op : Op) :
  d.Safe (.op op)
  := by
  have hcontainer := h.current hqueue
  have hfree : d.node.lookup d.app.dreamContainers.length = none := by
    rw [h.node, hcontainer, lookup_store]
    simp
  cases op with
  | removeAction r =>
    intro value hvalue
    right
    rw [h.node, IndexMap.mem_values] at hvalue
    obtain ⟨i, hi⟩ := hvalue
    rw [lookup_store, Option.map_eq_some_iff] at hi
    obtain ⟨dream, hdream, rfl⟩ := hi
    apply List.mem_map_of_mem
    rw [hcontainer, mem_ascendingOrder]
    apply List.mem_of_getElem? hdream
  | _ =>
    intro dream _ value hvalue
    rw [hfree] at hvalue
    cases hvalue

/-- In a run from a node of dreams in which every operation starts on an empty main
queue, every operation is safe. -/
theorem quiet_safe (P : Platform) (l : List Dream) (es : List Event)
    (hquiet : Machine.Always (step P) (fun d e => e = .turn ∨ d.app.mainQueue = [])
      (launch (store l)) es) :
  Machine.Always (step P) Safe (launch (store l)) es
  := by
  apply hquiet.imp (I := fun d => ∃ l, Agrees P l d)
  · rintro d (op | -) ⟨l, hagrees⟩ hquiet
    · apply hagrees.safe (hquiet.resolve_left nofun)
    · trivial
  · rintro d (op | -) d' ⟨l, hagrees⟩ hquiet hstep
    · obtain rfl := Option.some.inj hstep
      obtain ⟨l', hagrees', -⟩ := hagrees.perform (hquiet.resolve_left nofun) op
      use l'
    · obtain ⟨d'', hstep', hagrees', -⟩ := hagrees.turn
      obtain rfl := Option.some.inj (hstep.symm.trans hstep')
      use l
  · use l
    apply agrees_launch

/-! ### Interrupted removals -/

/-- The node when the server has applied only the first `k` of the writes a removal
issues. -/
def interrupted (dreamContainers : List Dream) (node : Node) (removeDream : Dream) (k : ℕ) :
    Node :=
  Write.applyAll node ((removeAction dreamContainers removeDream).2.take k)

/-- The node is the one from before the removal, or the one a completed removal
leaves. -/
def AllOrNothing (dreamContainers : List Dream) (node : Node) (removeDream : Dream) (k : ℕ) :
    Prop :=
  interrupted dreamContainers node removeDream k = node
    ∨ interrupted dreamContainers node removeDream k
        = Write.applyAll node (removeAction dreamContainers removeDream).2

theorem interrupted_succ (l : List Dream) (node : Node) (r : Dream) (k : ℕ) :
  interrupted l node r (k + 1) = store ((remaining l r).take k)
  := applyAll_take_updateAction node _ k

/-- Removing a dream of the container leaves fewer dreams. -/
theorem length_remaining_lt {l : List Dream} {r : Dream} (h : r ∈ l) :
  (remaining l r).length < l.length
  := by
  apply List.length_filter_lt_length_iff_exists.mpr
  use r, h
  simp

/-- After `k + 1` writes of a removal the node keeps exactly the first `k` of the
dreams that stay; a removal from a container that agrees with the node is all or
nothing exactly when no write or every write was applied. -/
theorem interrupted_removal (l : List Dream) (node : Node) (r : Dream) (k : ℕ) :
  interrupted l node r k = (if k = 0 then node else store ((remaining l r).take (k - 1)))
    ∧ (Stores node l → r ∈ l →
        (AllOrNothing l node r k ↔ k = 0 ∨ (remaining l r).length < k))
  := by
  cases k with
  | zero => simp [interrupted, AllOrNothing]
  | succ k =>
    use interrupted_succ l node r k
    intro hstores hr
    have hcomplete : Write.applyAll node (removeAction l r).2 = store (remaining l r) :=
      applyAll_updateAction node _
    have hshort := length_remaining_lt hr
    rw [AllOrNothing, hcomplete, interrupted_succ, store_inj, List.take_eq_self_iff]
    constructor
    · rintro (hnode | hle)
      · -- The node from before keeps more dreams than any prefix.
        have hcard := congrArg Multiset.card ((stores_store _).unique (hnode ▸ hstores))
        simp only [Multiset.coe_card, List.length_take] at hcard
        omega
      · right
        omega
    · rintro (hzero | hlt)
      · cases hzero
      · right
        omega

/-- When the process ends after the first write of removing one of two dreams, the
other one is lost as well. -/
theorem interrupted_removal_loses :
  Stores (store [sea "2019-03-18", fire "2019-03-19"])
      [sea "2019-03-18", fire "2019-03-19"]
    ∧ ¬ AllOrNothing [sea "2019-03-18", fire "2019-03-19"]
      (store [sea "2019-03-18", fire "2019-03-19"]) (sea "2019-03-18") 1
    ∧ ¬ Stored (interrupted [sea "2019-03-18", fire "2019-03-19"]
      (store [sea "2019-03-18", fire "2019-03-19"]) (sea "2019-03-18") 1) (fire "2019-03-19")
  := by
  constructor
  · apply stores_store
  · constructor
    · rw [AllOrNothing]
      decide
    · decide

end Device

end ForDream

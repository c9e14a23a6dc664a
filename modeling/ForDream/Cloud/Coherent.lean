import ForDream.Cloud.Step

/-!
# Up to date operations

An operation of one of several apps is `UpToDate` if it issues no write, or no other app
has writes in flight and what it reads off the container agrees with what will be stored
once the writes of the app itself that are in flight are applied.

As long as the operations are up to date, the writes in flight are those of one app, every
node on the way through them is readable, and the operations take effect on the dreams
stored in the order they are performed.  Once nothing is pending, every container is the
node in ascending order.
-/

namespace ForDream

open Model

namespace Cloud

variable {ι : Type*}

/-- The node once the writes of an app that are in flight are applied. -/
def upcoming (s : Cloud ι) (c : ι) : Node := Write.applyAll s.node (s.outbox c)

/-- What an operation reads off the container agrees with the node once the writes of the
app in flight are applied: a removal finds the dreams of other dates that will be stored,
and a save finds as many dreams as will be stored. -/
def Current (s : Cloud ι) (c : ι) : Op → Prop
  | .removeAction removeDream =>
      (IndexMap.values (s.upcoming c)).filter
          (fun value => dateOf value ≠ some (.string removeDream.writedDate))
        = (remaining (s.apps c).dreamContainers removeDream).map record
  | op => (s.apps c).saves op ≠ none →
      (s.upcoming c).keys.card = (s.apps c).dreamContainers.length

instance (s : Cloud ι) (c : ι) : ∀ op, Decidable (s.Current c op)
  | .removeAction r => inferInstanceAs (Decidable ((IndexMap.values (s.upcoming c)).filter
      (fun value => dateOf value ≠ some (.string r.writedDate))
        = (remaining (s.apps c).dreamContainers r).map record))
  | .dateCheckAndSave dream => decidableSaves (.dateCheckAndSave dream)
  | .overwrite accepted => decidableSaves (.overwrite accepted)
  | .removeAllAction => decidableSaves .removeAllAction
  | .refresh => decidableSaves .refresh
  | .fetchContainers => decidableSaves .fetchContainers
where
  decidableSaves (op : Op) : Decidable ((s.apps c).saves op ≠ none →
      (s.upcoming c).keys.card = (s.apps c).dreamContainers.length) := inferInstance

/-- If the operation issues writes, no other app has writes in flight, and what it reads
off the container is current. -/
def UpToDate (s : Cloud ι) : Event ι → Prop
  | .op c op => ((s.apps c).perform op).2 ≠ [] →
      (∀ i, i ≠ c → s.outbox i = []) ∧ s.Current c op
  | _ => True

instance [Fintype ι] [DecidableEq ι] (s : Cloud ι) : ∀ e, Decidable (s.UpToDate e)
  | .op c op => inferInstanceAs (Decidable (((s.apps c).perform op).2 ≠ [] →
      (∀ i, i ≠ c → s.outbox i = []) ∧ s.Current c op))
  | .write _ => inferInstanceAs (Decidable True)
  | .turn _ => inferInstanceAs (Decidable True)

/-- Nothing is in flight and no main queue has a block left. -/
def Drained (s : Cloud ι) : Prop :=
  (∀ c, s.outbox c = []) ∧ ∀ c, (s.apps c).mainQueue = []

instance [Fintype ι] (s : Cloud ι) : Decidable (Drained s) :=
  inferInstanceAs (Decidable ((∀ c, s.outbox c = []) ∧ ∀ c, (s.apps c).mainQueue = []))

/-- The apps start on a node of the dreams of `l`. -/
def startOn (l : List Dream) : Cloud ι := { start with node := store l }

/-- The node and the containers agree up to the writes of `c` in flight, which will leave
the dreams of a multiset stored. -/
structure Coherent (P : Platform) (c : ι) (dreams : Multiset Dream) (s : Cloud ι) : Prop where
  tracked : Tracked s
  sole : ∀ i, i ≠ c → s.outbox i = []
  readable : Readable s.node (s.outbox c)
  stores : Stores (s.upcoming c) dreams
  /-- A container with nothing pending is up to date with the node, unless some write in
  flight will still change it. -/
  current : ∀ i, (s.apps i).mainQueue = [] →
    fetched P.sorter s.node = some (s.apps i).dreamContainers
      ∨ ∃ ws, ws <+: s.outbox c ∧ Write.applyAll s.node ws ≠ s.node

/-- What an event does to the dreams stored. -/
def effect (s : Cloud ι) (dreams : Multiset Dream) : Event ι → Multiset Dream
  | .op c op => (s.apps c).effect dreams op
  | _ => dreams

variable {P : Platform} {c : ι} {dreams : Multiset Dream} {s : Cloud ι} {op : Op}

theorem coherent_startOn (c : ι) (l : List Dream) :
  Coherent P c l (startOn l)
  where
  tracked _ := App.tracks_launch _
  sole _ _ := rfl
  readable := ⟨l, rfl⟩
  stores := stores_store l
  current _ hqueue := by cases hqueue

/-- A current save finds as many dreams as will be stored. -/
theorem Current.length (h : s.Current c op) {new : Dream} (hsaves : (s.apps c).saves op = some new) :
  (s.upcoming c).keys.card = (s.apps c).dreamContainers.length
  := by
  cases op with
  | removeAction r => cases hsaves
  | _ =>
    apply h
    simp [hsaves]

/-- An update from the container keeps what is stored, if it is current. -/
theorem Current.effect (h : s.Current c op) {l rest : List Dream}
    (hl : s.upcoming c = store l)
    (hop : (∃ r, op = .removeAction r ∧ rest = remaining (s.apps c).dreamContainers r)
      ∨ (op = .removeAllAction ∧ rest = [])) :
  (s.apps c).effect l op = rest
  := by
  rcases hop with ⟨r, rfl, rfl⟩ | ⟨rfl, rfl⟩
  · have hvalues : IndexMap.values (s.upcoming c) = (l : Multiset Dream).map record := by
      rw [hl]
      apply stores_store
    rw [Current, hvalues, Multiset.filter_map, ← Multiset.map_coe] at h
    rw [App.effect, ← Multiset.map_injective record_injective h]
    congr 1
    funext dream
    simp
  · rfl

/-- An app without other apps' writes in flight may take over. -/
theorem Coherent.switch (h : Coherent P c dreams s) {c' : ι}
    (hsole : ∀ i, i ≠ c' → s.outbox i = []) :
  Coherent P c' dreams s
  := by
  rcases eq_or_ne c' c with rfl | hne
  · exact h
  · have hc : s.outbox c = [] := hsole c hne.symm
    have hc' : s.outbox c' = [] := h.sole c' hne
    constructor
    · exact h.tracked
    · exact hsole
    · rw [hc', ← hc]
      exact h.readable
    · rw [upcoming, hc', ← hc]
      exact h.stores
    · rw [hc', ← hc]
      exact h.current

/-- Before an operation, the dreams that will be stored are those of a list. -/
theorem Coherent.upcoming_eq (h : Coherent P c dreams s) :
  ∃ l : List Dream, s.upcoming c = store l ∧ dreams = l
  := by
  obtain ⟨l, hl⟩ := h.readable.applyAll
  use l, hl
  apply h.stores.unique
  rw [upcoming, hl]
  apply stores_store

/-- Once nothing is pending, the dreams are stored and every container is the node in
ascending order. -/
theorem Coherent.drained (h : Coherent P c dreams s) (hs : Drained s) :
  ∃ l, s.node = store l ∧ (l : Multiset Dream) = dreams
    ∧ ∀ i, (s.apps i).dreamContainers = ascendingOrder P.sorter l
  := by
  obtain ⟨l, hl⟩ := h.readable.store
  use l, hl
  constructor
  · have hstores := h.stores
    rw [upcoming, hs.1 c, Write.applyAll_nil, hl] at hstores
    apply (stores_store l).unique hstores
  · intro i
    rcases h.current i (hs.2 i) with hfetched | ⟨ws, hws, hchange⟩
    · rw [hl, fetched_store, Option.some.injEq] at hfetched
      exact hfetched.symm
    · rw [hs.1 c, List.prefix_nil] at hws
      rw [hws] at hchange
      exact absurd rfl hchange

variable [DecidableEq ι]

/-! ### Operations -/

/-- An operation without writes keeps the agreement. -/
theorem Coherent.perform_idle (h : Coherent P c dreams s) {i : ι}
    (hwrites : ((s.apps i).perform op).2 = []) :
  Coherent P c dreams (s.perform i op)
  := by
  have houtbox : (s.perform i op).outbox = s.outbox := by
    simp only [perform, hwrites, List.append_nil, Function.update_eq_self]
  constructor
  · apply h.tracked.perform
  · rw [houtbox]
    exact h.sole
  · rw [houtbox]
    exact h.readable
  · rw [upcoming, houtbox]
    exact h.stores
  · rw [houtbox]
    intro k hqueue
    rcases eq_or_ne k i with rfl | hne
    · rw [perform_apps_self] at hqueue ⊢
      rcases App.perform_mainQueue (s.apps k) op with hq | hq
      · obtain ⟨-, hsame | rfl⟩ := App.perform_of_idle hwrites
        · rw [hsame]
          apply h.current k (hq ▸ hqueue)
        · simp [App.perform] at hqueue
      · simp [hq] at hqueue
    · rw [perform_apps_of_ne s op hne] at hqueue ⊢
      apply h.current k hqueue

theorem Coherent.perform_sole (h : Coherent P c dreams s) (op : Op) (i : ι) (hi : i ≠ c) :
  (s.perform c op).outbox i = []
  := by
  rw [perform_outbox_of_ne s op hi]
  apply h.sole i hi

/-- An app whose container and main queue an operation leaves as they are is still up to
date, unless some write in flight will still change the node. -/
theorem Coherent.perform_current (h : Coherent P c dreams s) (op : Op) {i : ι}
    (hqueue : (s.apps i).mainQueue = [])
    (hsame : ((s.perform c op).apps i).dreamContainers = (s.apps i).dreamContainers) :
  fetched P.sorter (s.perform c op).node = some ((s.perform c op).apps i).dreamContainers
    ∨ ∃ ws, ws <+: (s.perform c op).outbox c
      ∧ Write.applyAll (s.perform c op).node ws ≠ (s.perform c op).node
  := by
  rw [hsame, perform_node, perform_outbox_self]
  rcases h.current i hqueue with hfetched | ⟨ws, hws, hchange⟩
  · left
    exact hfetched
  · right
    use ws, hws.trans (List.prefix_append _ _)

/-- A save after the dreams that will be stored keeps the agreement. -/
theorem Coherent.perform_save (h : Coherent P c dreams s) {new : Dream}
    (hsaves : (s.apps c).saves op = some new)
    (hsame : ((s.apps c).perform op).1.dreamContainers = (s.apps c).dreamContainers)
    (hlength : (s.upcoming c).keys.card = (s.apps c).dreamContainers.length) :
  Coherent P c (new ::ₘ dreams) (s.perform c op)
  := by
  obtain ⟨l, hl, rfl⟩ := h.upcoming_eq
  obtain ⟨hwrites, -⟩ := App.perform_of_saves hsaves
  rw [← hlength, hl, keys_store, Finset.card_range] at hwrites
  rw [upcoming] at hl
  constructor
  · apply h.tracked.perform
  · apply h.perform_sole
  · rw [perform_node, perform_outbox_self, hwrites, readable_append, hl]
    use h.readable
    apply readable_saveAction
  · rw [upcoming, perform_node, perform_outbox_self, hwrites, Write.applyAll_append, hl,
      Write.applyAll_cons, saveAction_apply_store, Multiset.cons_coe,
      ← Multiset.coe_eq_coe.mpr (List.perm_append_singleton new l)]
    apply stores_store
  · intro i hqueue
    rcases eq_or_ne i c with rfl | hi
    · rw [perform_apps_self] at hqueue
      apply h.perform_current
      · rcases App.perform_mainQueue (s.apps i) op with hq | hq
        · rw [← hq, hqueue]
        · simp [hq] at hqueue
      · rw [perform_apps_self, hsame]
    · rw [perform_apps_of_ne s op hi] at hqueue
      apply h.perform_current op hqueue
      rw [perform_apps_of_ne s op hi]

/-- An update from the container keeps the agreement, on the dreams it leaves there. -/
theorem Coherent.perform_update (h : Coherent P c dreams s) {rest : List Dream}
    (hwrites : ((s.apps c).perform op).2 = updateAction rest)
    (hrest : ((s.apps c).perform op).1.dreamContainers = rest) :
  Coherent P c rest (s.perform c op)
  := by
  obtain ⟨l, hl, -⟩ := h.upcoming_eq
  obtain ⟨n, hn⟩ := h.readable.store
  rw [upcoming] at hl
  constructor
  · apply h.tracked.perform
  · apply h.perform_sole
  · rw [perform_node, perform_outbox_self, hwrites, readable_append, hl]
    use h.readable
    apply readable_updateAction
  · rw [upcoming, perform_node, perform_outbox_self, hwrites, Write.applyAll_append,
      applyAll_updateAction]
    apply stores_store
  · intro i hqueue
    rcases eq_or_ne i c with rfl | hi
    · rw [perform_node, perform_apps_self, perform_outbox_self, hrest, hwrites]
      -- The removal changes a node that is not absent, and the saves one that is.
      rcases eq_or_ne n [] with rfl | hnonempty
      · rcases eq_or_ne rest [] with rfl | hrestore
        · left
          rw [hn, fetched_store, ascendingOrder_nil]
        · right
          use s.outbox i ++ updateAction rest, List.prefix_rfl
          rw [Write.applyAll_append, applyAll_updateAction, hn]
          simpa using hrestore
      · right
        use s.outbox i ++ [.removeValue]
        constructor
        · rw [List.prefix_append_right_inj]
          simp [updateAction]
        · rw [Write.applyAll_append, hn]
          intro hempty
          apply hnonempty
          rw [← store_eq_empty, ← hempty]
          rfl
    · rw [perform_apps_of_ne s op hi] at hqueue
      apply h.perform_current op hqueue
      rw [perform_apps_of_ne s op hi]

/-- An up to date operation keeps the agreement, and changes the dreams that will be
stored by its effect. -/
theorem Coherent.perform (h : Coherent P c dreams s) (hop : s.Current c op) :
  Coherent P c ((s.apps c).effect dreams op) (s.perform c op)
  := by
  rcases App.perform_cases (s.apps c) op with
    ⟨new, hsaves, -, hsame, heffect⟩ | ⟨rest, -, hwrites, hrest, -, hremoves⟩ |
      ⟨-, hwrites, heffect, -⟩
  · rw [heffect]
    apply h.perform_save hsaves hsame (hop.length hsaves)
  · obtain ⟨l, hl, rfl⟩ := h.upcoming_eq
    rw [hop.effect hl hremoves]
    apply h.perform_update hwrites hrest
  · rw [heffect]
    apply h.perform_idle hwrites

/-! ### Writes and turns -/

/-- After a write, an app with nothing pending is up to date, unless some write in flight
will still change the node. -/
theorem Coherent.write_current (h : Coherent P c dreams s) {w : Write} {ws : List Write}
    (hout : s.outbox c = w :: ws) {i : ι} (hqueue : ((s.write c).apps i).mainQueue = []) :
  fetched P.sorter (s.write c).node = some ((s.write c).apps i).dreamContainers
    ∨ ∃ vs, vs <+: (s.write c).outbox c
      ∧ Write.applyAll (s.write c).node vs ≠ (s.write c).node
  := by
  rw [write_node hout, write_outbox_self hout]
  rw [write_apps hout] at hqueue ⊢
  split at hqueue
  next hsame =>
    rw [if_pos hsame, hsame]
    rcases h.current i hqueue with hfetched | ⟨vs, hvs, hchange⟩
    · left
      exact hfetched
    · right
      rw [hout] at hvs
      cases vs with
      | nil => exact absurd rfl hchange
      | cons v vs =>
        obtain ⟨rfl, hvs'⟩ := List.cons_prefix_cons.mp hvs
        use vs, hvs'
        rw [Write.applyAll_cons, hsame] at hchange
        exact hchange
  next hchanged =>
    -- The app is notified, so something is pending.
    simp only [App.notify, List.append_eq_nil_iff, List.replicate_eq_nil_iff] at hqueue
    rcases (h.tracked i).observed with hpos | ⟨hne, -⟩
    · omega
    · exact absurd hqueue.1 hne

/-- A write keeps the agreement. -/
theorem Coherent.write (h : Coherent P c dreams s) (i : ι) :
  Coherent P c dreams (s.write i)
  := by
  cases hout : s.outbox i with
  | nil =>
    rw [write_of_nil hout]
    exact h
  | cons w ws =>
    obtain rfl : i = c := by
      by_contra hne
      rw [h.sole i hne] at hout
      cases hout
    have hreadable : Readable (w.apply s.node) ws := by
      have hall := h.readable
      rw [hout] at hall
      exact hall.2
    obtain ⟨l, hl⟩ := hreadable.store
    constructor
    · apply h.tracked.write i ((write_node hout).trans hl)
    · intro k hk
      rw [write_outbox_of_ne s hk]
      apply h.sole k hk
    · rw [write_node hout, write_outbox_self hout]
      exact hreadable
    · rw [upcoming, write_node hout, write_outbox_self hout, ← Write.applyAll_cons, ← hout]
      exact h.stores
    · intro k hqueue
      apply h.write_current hout hqueue

/-- A turn does not trap and keeps the agreement. -/
theorem Coherent.turn (h : Coherent P c dreams s) (i : ι) :
  ∃ t, s.step P (.turn i) = some t ∧ Coherent P c dreams t
  := by
  obtain ⟨l, hl⟩ := h.readable.store
  obtain ⟨a, hturn, hstep, htracked, hcurrent⟩ := h.tracked.turn hl P i
  use { s with apps := Function.update s.apps i a }, hstep
  use htracked, h.sole, h.readable, h.stores
  intro k hqueue
  rcases eq_or_ne k i with rfl | hk
  · simp only [Function.update_self] at hqueue ⊢
    by_cases hempty : (s.apps k).mainQueue = []
    · have hsame : s.apps k = a := by simpa [App.turn, hempty] using hturn
      rw [← hsame]
      apply h.current k hempty
    · left
      rw [hl, fetched_store, hcurrent hqueue hempty]
  · simp only [Function.update_of_ne hk] at hqueue ⊢
    apply h.current k hqueue

/-- An up to date event does not trap, keeps the agreement, and changes the dreams that
will be stored by its effect. -/
theorem Coherent.step (h : Coherent P c dreams s) {e : Event ι} (he : s.UpToDate e) :
  ∃ c' t, s.step P e = some t ∧ Coherent P c' (s.effect dreams e) t
  := by
  cases e with
  | op i op =>
    by_cases hwrites : ((s.apps i).perform op).2 = []
    · use c, s.perform i op, rfl
      rw [effect, (App.perform_of_idle hwrites).1]
      apply h.perform_idle hwrites
    · obtain ⟨hsole, hcurrent⟩ := he hwrites
      use i, s.perform i op, rfl
      apply (h.switch hsole).perform hcurrent
  | write i => exact ⟨c, s.write i, rfl, h.write i⟩
  | turn i =>
    obtain ⟨t, ht, hcoherent⟩ := h.turn i
    exact ⟨c, t, ht, hcoherent⟩

end Cloud

end ForDream

import ForDream.App
import ForDream.Lib.Machine

/-!
# Several devices on one account

A `Cloud` is the node of an account on the server together with the apps signed in to
it, indexed by `ι`, and for each of them the writes it has issued and the server has
not applied yet.  The server applies the writes of each app in the order they were
issued, and those of different apps in any order; each write that changes the node
notifies every app.

A write that sets a child beyond the number of dreams stored leaves a hole, and the
callback of `fetchContainers` traps on the snapshot.  A run in which no write leaves
a hole does not trap, and the node is readable throughout a run exactly when no write
leaves a hole.
-/

namespace ForDream

open Model

/-- The node of an account, the apps signed in to it, and their writes in flight. -/
structure Cloud (ι : Type*) where
  node : Node
  apps : ι → App
  outbox : ι → List Write

namespace Cloud

/-- What happens: an app performs an operation, the server applies the first write in
flight of an app, or the main queue of an app takes a turn. -/
inductive Event (ι : Type*) where
  | op (c : ι) (op : Op)
  | write (c : ι)
  | turn (c : ι)

variable {ι : Type*}

/-- The apps start on an absent node. -/
def start : Cloud ι where
  node := ∅
  apps _ := App.launch
  outbox _ := []

variable [DecidableEq ι]

/-- The server applies the first write in flight of an app. -/
def write (s : Cloud ι) (c : ι) : Cloud ι :=
  match s.outbox c with
  | [] => s
  | w :: ws =>
      { node := w.apply s.node
        apps := if w.apply s.node = s.node then s.apps
          else fun i => (s.apps i).notify (w.apply s.node)
        outbox := Function.update s.outbox c ws }

/-- An app performs an operation. -/
def perform (s : Cloud ι) (c : ι) (op : Op) : Cloud ι :=
  { s with
    apps := Function.update s.apps c ((s.apps c).perform op).1
    outbox := Function.update s.outbox c (s.outbox c ++ ((s.apps c).perform op).2) }

/-- The state after an event, unless a callback traps. -/
def step (P : Platform) (s : Cloud ι) : Event ι → Option (Cloud ι)
  | .op c op => some (s.perform c op)
  | .write c => some (s.write c)
  | .turn c => ((s.apps c).turn P s.node).map fun a =>
      { s with apps := Function.update s.apps c a }

section Perform

variable (s : Cloud ι) (c : ι) (op : Op)

@[simp]
theorem perform_node :
  (s.perform c op).node = s.node
  := rfl

@[simp]
theorem perform_apps_self :
  (s.perform c op).apps c = ((s.apps c).perform op).1
  := Function.update_self ..

@[simp]
theorem perform_outbox_self :
  (s.perform c op).outbox c = s.outbox c ++ ((s.apps c).perform op).2
  := Function.update_self ..

variable {c} {i : ι}

theorem perform_apps_of_ne (h : i ≠ c) :
  (s.perform c op).apps i = s.apps i
  := Function.update_of_ne h ..

theorem perform_outbox_of_ne (h : i ≠ c) :
  (s.perform c op).outbox i = s.outbox i
  := Function.update_of_ne h ..

end Perform

section Write

variable {s : Cloud ι} {c : ι} {w : Write} {ws : List Write}

theorem write_of_nil (h : s.outbox c = []) :
  s.write c = s
  := by
  rw [write, h]

theorem write_node (h : s.outbox c = w :: ws) :
  (s.write c).node = w.apply s.node
  := by
  rw [write, h]

theorem write_apps (h : s.outbox c = w :: ws) (i : ι) :
  (s.write c).apps i
    = if w.apply s.node = s.node then s.apps i else (s.apps i).notify (w.apply s.node)
  := by
  rw [write, h]
  dsimp only
  split
  · rfl
  · rfl

theorem write_outbox_self (h : s.outbox c = w :: ws) :
  (s.write c).outbox c = ws
  := by
  rw [write, h]
  apply Function.update_self

theorem write_outbox_of_ne (s : Cloud ι) {c i : ι} (h : i ≠ c) :
  (s.write c).outbox i = s.outbox i
  := by
  rw [write]
  split
  · rfl
  · apply Function.update_of_ne h

end Write

/-! ### Containers in order -/

/-- Whatever happens, the container of every app remains in ascending order. -/
theorem ascending_step {P : Platform} {s t : Cloud ι} {e : Event ι}
    (h : ∀ c, (s.apps c).Ascending) (hstep : s.step P e = some t) (c : ι) :
  (t.apps c).Ascending
  := by
  cases e with
  | op i op =>
    obtain rfl := Option.some.inj hstep
    rcases eq_or_ne c i with rfl | hne
    · rw [perform_apps_self]
      apply (h c).perform
    · rw [perform_apps_of_ne s op hne]
      apply h c
  | write i =>
    obtain rfl := Option.some.inj hstep
    cases hout : s.outbox i with
    | nil =>
      rw [write_of_nil hout]
      apply h c
    | cons w ws =>
      rw [write_apps hout]
      split
      · apply h c
      · apply h c
  | turn i =>
    obtain ⟨a, hturn, rfl⟩ := Option.map_eq_some_iff.mp hstep
    dsimp only
    rcases eq_or_ne c i with rfl | hne
    · rw [Function.update_self]
      apply (h c).turn hturn
    · rw [Function.update_of_ne hne]
      apply h c

/-- In every run from apps that start on any node, every container is in ascending
order. -/
theorem ascending_run {P : Platform} {node : Node} {es : List (Event ι)} {s : Cloud ι}
    (h : Machine.run (step P) { (start : Cloud ι) with node := node } es = some s) (c : ι) :
  (s.apps c).Ascending
  := by
  have halways : Machine.Always (step P) (fun _ _ => True)
      { (start : Cloud ι) with node := node } es :=
    Machine.always_of_forall fun _ _ _ => trivial
  apply halways.invariant (I := fun s => ∀ c, (s.apps c).Ascending) _ _ h
  · intro s e t hs _ ht
    apply ascending_step hs ht
  · intro c
    apply List.Pairwise.nil

/-! ### Apps that track the node -/

/-- Every app tracks the node. -/
def Tracked (s : Cloud ι) : Prop := ∀ c, App.Tracks s.node (s.apps c)

omit [DecidableEq ι] in
theorem tracked_start :
  Tracked (start : Cloud ι)
  := by
  intro c
  apply App.tracks_launch

theorem Tracked.perform {s : Cloud ι} (h : Tracked s) (c : ι) (op : Op) :
  Tracked (s.perform c op)
  := by
  intro i
  rcases eq_or_ne i c with rfl | hne
  · rw [perform_node, perform_apps_self]
    apply (h i).perform op
  · rw [perform_node, perform_apps_of_ne s op hne]
    apply h i

/-- A write that leaves a readable node keeps every app tracking it. -/
theorem Tracked.write {s : Cloud ι} (h : Tracked s) (c : ι) {l : List Dream}
    (hnode : (s.write c).node = store l) :
  Tracked (s.write c)
  := by
  intro i
  cases hout : s.outbox c with
  | nil =>
    rw [write_of_nil hout]
    apply h i
  | cons w ws =>
    rw [write_apps hout]
    rw [write_node hout] at hnode ⊢
    split
    next heq =>
      rw [heq]
      apply h i
    next hne =>
      rw [hnode]
      apply (h i).notify

/-- A turn on a readable node does not trap, and keeps every app tracking it. -/
theorem Tracked.turn {s : Cloud ι} (h : Tracked s) {l : List Dream} (hnode : s.node = store l)
    (P : Platform) (c : ι) :
  ∃ a, (s.apps c).turn P s.node = some a
    ∧ s.step P (.turn c) = some { s with apps := Function.update s.apps c a }
    ∧ Tracked { s with apps := Function.update s.apps c a }
    ∧ (a.mainQueue = [] → (s.apps c).mainQueue ≠ [] →
      a.dreamContainers = ascendingOrder P.sorter l)
  := by
  have htracks := h c
  rw [hnode] at htracks
  obtain ⟨a, hturn, htracks', hcurrent⟩ := htracks.turn P
  rw [← hnode] at hturn htracks'
  use a, hturn
  constructor
  · simp [step, hturn]
  · constructor
    · intro i
      rcases eq_or_ne i c with rfl | hne
      · simpa using htracks'
      · simpa [Function.update_of_ne hne] using h i
    · exact hcurrent

/-! ### Holes -/

/-- The child a write sets, if it sets one, is taken or the first free one. -/
def LeavesNoHole (node : Node) : Write → Prop
  | .removeValue => True
  | .setValue index _ => index ≤ node.keys.card

instance (node : Node) : ∀ w, Decidable (LeavesNoHole node w)
  | .removeValue => inferInstanceAs (Decidable True)
  | .setValue index _ => inferInstanceAs (Decidable (index ≤ node.keys.card))

/-- If the server applies a write, it leaves no hole. -/
def NoHole (s : Cloud ι) : Event ι → Prop
  | .write c => ∀ w ∈ (s.outbox c).head?, LeavesNoHole s.node w
  | _ => True

instance (s : Cloud ι) : ∀ e, Decidable (s.NoHole e)
  | .write c => inferInstanceAs (Decidable (∀ w ∈ (s.outbox c).head?, LeavesNoHole s.node w))
  | .op _ _ => inferInstanceAs (Decidable True)
  | .turn _ => inferInstanceAs (Decidable True)

/-- The write sets a child to the record of a dream, if it sets one. -/
def WritesDream : Write → Prop
  | .removeValue => True
  | .setValue _ value => ∃ dream, value = record dream

/-- The writes an operation issues set children to records of dreams. -/
theorem perform_writesDream (a : App) (op : Op) :
  ∀ w ∈ (a.perform op).2, WritesDream w
  := by
  intro w hw
  cases w with
  | removeValue => trivial
  | setValue index value =>
    obtain ⟨dream, hvalue, -⟩ := a.perform_records op hw
    use dream

/-- The node is readable, every app tracks it, and the writes in flight set children to
records of dreams. -/
structure Sound (s : Cloud ι) : Prop where
  readable : ∃ l, s.node = store l
  tracked : Tracked s
  inFlight : ∀ c, ∀ w ∈ s.outbox c, WritesDream w

omit [DecidableEq ι] in
theorem sound_start :
  Sound (start : Cloud ι)
  where
  readable := ⟨[], rfl⟩
  tracked := tracked_start
  inFlight := by simp [start]

/-- Saving a dream into a node of dreams leaves it readable exactly when it leaves no
hole. -/
theorem readable_setValue_iff (l : List Dream) (index : ℕ) (dream : Dream) :
  (∃ l', (saveAction dream index).apply (store l) = store l') ↔ index ≤ l.length
  := by
  have hholds : HoldsDreams ((saveAction dream index).apply (store l)) := by
    intro i value hi
    rw [saveAction, Write.apply] at hi
    rcases eq_or_ne i index with rfl | hne
    · rw [Finmap.lookup_insert, Option.some.injEq] at hi
      use dream, hi.symm
    · rw [Finmap.lookup_insert_of_ne _ hne] at hi
      apply holdsDreams_store l i value hi
  rw [← hholds.dense_iff, saveAction, Write.apply, store, IndexMap.dense_insert_iff,
    List.length_map]

/-- A write keeps the writes in flight. -/
theorem write_outbox_mem {s : Cloud ι} {c i : ι} {w : Write} (h : w ∈ (s.write c).outbox i) :
  w ∈ s.outbox i
  := by
  rcases eq_or_ne i c with rfl | hne
  · cases hout : s.outbox i with
    | nil =>
      rw [write_of_nil hout, hout] at h
      exact h
    | cons v ws =>
      rw [write_outbox_self hout] at h
      apply List.mem_cons_of_mem _ h
  · rw [write_outbox_of_ne s hne] at h
    exact h

/-- A write in flight leaves the node readable exactly when it leaves no hole. -/
theorem Sound.write_readable_iff {s : Cloud ι} (h : Sound s) (c : ι) :
  (∃ l, (s.write c).node = store l) ↔ s.NoHole (.write c)
  := by
  obtain ⟨l, hl⟩ := h.readable
  rw [NoHole]
  cases hout : s.outbox c with
  | nil =>
    rw [write_of_nil hout]
    apply iff_of_true ⟨l, hl⟩
    simp
  | cons w ws =>
    simp only [write_node hout, List.head?_cons, Option.mem_some_iff, forall_eq']
    cases w with
    | removeValue => exact iff_of_true ⟨[], rfl⟩ trivial
    | setValue index value =>
      obtain ⟨dream, rfl⟩ := h.inFlight c (.setValue index value) (by simp [hout])
      rw [LeavesNoHole, hl, keys_store, Finset.card_range]
      apply readable_setValue_iff

/-- An event of a sound state does not trap, and leaves a sound state exactly when it
leaves no hole. -/
theorem Sound.step {s : Cloud ι} (h : Sound s) (P : Platform) (e : Event ι) :
  ∃ t, s.step P e = some t ∧ (Sound t ↔ s.NoHole e)
  := by
  obtain ⟨l, hl⟩ := h.readable
  cases e with
  | op c op =>
    use s.perform c op, rfl
    apply iff_of_true _ trivial
    use ⟨l, hl⟩, h.tracked.perform c op
    intro i w hw
    rcases eq_or_ne i c with rfl | hne
    · rw [perform_outbox_self, List.mem_append] at hw
      rcases hw with hw | hw
      · apply h.inFlight i w hw
      · apply perform_writesDream _ _ w hw
    · rw [perform_outbox_of_ne s op hne] at hw
      apply h.inFlight i w hw
  | write c =>
    use s.write c, rfl
    rw [← h.write_readable_iff c]
    constructor
    · intro ht
      exact ht.readable
    · rintro ⟨l', hl'⟩
      use ⟨l', hl'⟩, h.tracked.write c hl'
      intro i w hw
      apply h.inFlight i w (write_outbox_mem hw)
  | turn c =>
    obtain ⟨a, -, hstep, htracked, -⟩ := h.tracked.turn hl P c
    use { s with apps := Function.update s.apps c a }, hstep
    apply iff_of_true _ trivial
    use ⟨l, hl⟩, htracked, h.inFlight

omit [DecidableEq ι] in
/-- Every snapshot enqueued in a sound state is read without a trap. -/
theorem Sound.fetched {s : Cloud ι} (h : Sound s) (P : Platform) {c : ι} {snapshot : Node}
    (hmem : .value snapshot ∈ (s.apps c).mainQueue) :
  (Model.fetched P.sorter snapshot).isSome
  := by
  obtain ⟨l, rfl⟩ := (h.tracked c).readable snapshot hmem
  simp

/-- The node is readable in every state of a run exactly when no write of the run
leaves a hole. -/
theorem readable_iff_noHole (P : Platform) (es : List (Event ι)) :
  (∀ fs, fs <+: es → ∀ s, Machine.run (step P) start fs = some s → Sound s)
    ↔ Machine.Always (step P) NoHole (start : Cloud ι) es
  := by
  apply Machine.forall_prefix_iff _ _ sound_start
  · intro s e t hs ht
    obtain ⟨t', ht', hiff⟩ := hs.step P e
    obtain rfl := Option.some.inj (ht'.symm.trans ht)
    exact hiff
  · intro s e hs hnone
    obtain ⟨t, ht, -⟩ := hs.step P e
    rw [hnone] at ht
    cases ht

end Cloud

end ForDream

import ForDream.Model

/-!
# One running copy of the app

An `App` holds the shared container of dreams, the dream an open overwrite alert of
`WriteVC` asks about, the number of value observers registered on the node, and the
main queue.  The blocks of the main queue are the deliveries of snapshots to the
callback of `fetchContainers`, and the calls of `fetchContainers` that `MainVC` and
`SearchVC` dispatch to it.

The user operates the app by `perform`, which changes the container and issues
writes; the main queue runs by `turn`, one block at a time.  Registering an observer
enqueues snapshots of the node, and so does `notify` after a change of the node, one
for each observer.

`Tracks node` is what holds of the main queue of an app observing a node whose
changes it is notified of: every snapshot enqueued can be read, and the last block
brings the container up to date with the node.
-/

namespace ForDream

open Model

/-- What is known of the platform: sorting returns an ordered permutation, and
registering an observer, when `n` are then registered, enqueues at least one
snapshot. -/
structure Platform where
  sorter : Sorter Dream
  initial : ℕ → ℕ
  initial_pos : ∀ n, 0 < initial n

/-- The platform that sorts by insertion and hands the first snapshot to the new
observer only, as `FView` does. -/
def Platform.reference : Platform where
  sorter := Sorter.insertion
  initial _ := 1
  initial_pos _ := Nat.one_pos

/-- A block of the main queue. -/
inductive Turn where
  | value (snapshot : Node)
  | fetchContainers

instance : DecidableEq Turn
  | .value n, .value m => decidable_of_iff (n = m) (by simp)
  | .fetchContainers, .fetchContainers => isTrue rfl
  | .value _, .fetchContainers => isFalse nofun
  | .fetchContainers, .value _ => isFalse nofun

/-- One running copy of the app. -/
structure App where
  dreamContainers : List Dream := []
  alert : Option Dream := none
  observers : ℕ := 0
  mainQueue : List Turn := []

instance : DecidableEq App := fun a b =>
  decidable_of_iff (a.dreamContainers = b.dreamContainers ∧ a.alert = b.alert
    ∧ a.observers = b.observers ∧ a.mainQueue = b.mainQueue) (by cases a; cases b; simp)

/-- An operation of the user.  `overwrite` answers the alert `dateCheckAndSave` opens
when the date is taken; `fetchContainers` opens a screen that fetches. -/
inductive Op where
  | dateCheckAndSave (dream : Dream)
  | overwrite (accepted : Bool)
  | removeAction (removeDream : Dream)
  | removeAllAction
  | refresh
  | fetchContainers
  deriving DecidableEq, Repr

namespace App

/-- The app as `MainVC` starts it: a call of `fetchContainers` is dispatched. -/
def launch : App where
  mainQueue := [.fetchContainers]

/-! ### Operations -/

/-- Whether some dream of the container has the date of `dream`. -/
def containsDate (a : App) (dream : Dream) : Bool :=
  a.dreamContainers.any fun d => d.writedDate == dream.writedDate

/-- `WriteVC.DateCheckAndSave`: a dream of a new date is saved after the others; for
a taken date the alert is opened. -/
def dateCheckAndSave (a : App) (dream : Dream) : App × List Write :=
  if a.containsDate dream then ({ a with alert := some dream }, [])
  else (a, [saveAction dream a.dreamContainers.length])

/-- The buttons of the overwrite alert. -/
def overwrite (a : App) (accepted : Bool) : App × List Write :=
  match a.alert with
  | none => (a, [])
  | some dream =>
      ({ a with alert := none },
        if accepted then [saveAction dream a.dreamContainers.length] else [])

/-- The app after an operation, and the writes the operation issues, in order. -/
def perform (a : App) : Op → App × List Write
  | .dateCheckAndSave dream => a.dateCheckAndSave dream
  | .overwrite accepted => a.overwrite accepted
  | .removeAction removeDream =>
      let (rest, writes) := removeAction a.dreamContainers removeDream
      ({ a with dreamContainers := rest }, writes)
  | .removeAllAction =>
      let (rest, writes) := removeAllAction
      ({ a with dreamContainers := rest }, writes)
  | .refresh =>
      ({ a with dreamContainers := [], mainQueue := a.mainQueue ++ [.fetchContainers] }, [])
  | .fetchContainers => ({ a with mainQueue := a.mainQueue ++ [.fetchContainers] }, [])

/-- The dream an operation hands to `saveAction`, if it saves one. -/
def saves (a : App) : Op → Option Dream
  | .dateCheckAndSave dream => if a.containsDate dream then none else some dream
  | .overwrite true => a.alert
  | _ => none

/-- What an operation does to the dreams stored. -/
def effect (a : App) (dreams : Multiset Dream) : Op → Multiset Dream
  | .removeAction removeDream => dreams.filter fun d => d.writedDate ≠ removeDream.writedDate
  | .removeAllAction => 0
  | op => match a.saves op with
    | some dream => dream ::ₘ dreams
    | none => dreams

/-- An operation saves one dream, or updates the node from the dreams it leaves in the
container, or issues no write. -/
theorem perform_cases (a : App) (op : Op) :
  (∃ dream, a.saves op = some dream
      ∧ (a.perform op).2 = [saveAction dream a.dreamContainers.length]
      ∧ (a.perform op).1.dreamContainers = a.dreamContainers
      ∧ (∀ dreams, a.effect dreams op = dream ::ₘ dreams))
    ∨ (∃ l, a.saves op = none ∧ (a.perform op).2 = updateAction l
      ∧ (a.perform op).1.dreamContainers = l
      ∧ a.effect a.dreamContainers op = l
      ∧ ((∃ r, op = .removeAction r ∧ l = remaining a.dreamContainers r)
        ∨ (op = .removeAllAction ∧ l = [])))
    ∨ (a.saves op = none ∧ (a.perform op).2 = []
      ∧ (∀ dreams, a.effect dreams op = dreams)
      ∧ ((a.perform op).1.dreamContainers = a.dreamContainers ∨ op = .refresh))
  := by
  cases op with
  | dateCheckAndSave dream =>
    by_cases h : a.containsDate dream
    · right
      right
      simp [saves, perform, dateCheckAndSave, effect, h]
    · left
      use dream
      simp [saves, perform, dateCheckAndSave, effect, h]
  | overwrite accepted =>
    cases halert : a.alert with
    | none =>
      right
      right
      cases accepted <;> simp [saves, perform, overwrite, effect, halert]
    | some dream =>
      cases accepted with
      | true =>
        left
        use dream
        simp [saves, perform, overwrite, effect, halert]
      | false =>
        right
        right
        simp [saves, perform, overwrite, effect, halert]
  | removeAction r =>
    right
    left
    use remaining a.dreamContainers r
    simp only [saves, perform, removeAction, effect, coe_remaining]
    simp
  | removeAllAction =>
    right
    left
    use []
    simp [saves, perform, removeAllAction, effect]
  | refresh =>
    right
    right
    simp [saves, perform, effect]
  | fetchContainers =>
    right
    right
    simp [saves, perform, effect]

/-- An operation that saves a dream issues one write, after the dreams of the
container. -/
theorem perform_of_saves {a : App} {op : Op} {dream : Dream} (h : a.saves op = some dream) :
  (a.perform op).2 = [saveAction dream a.dreamContainers.length]
    ∧ ∀ dreams, a.effect dreams op = dream ::ₘ dreams
  := by
  rcases a.perform_cases op with ⟨new, hnew, hwrites, -, heffect⟩ | ⟨_, hnone, -⟩ | ⟨hnone, -⟩
  · obtain rfl := Option.some.inj (h.symm.trans hnew)
    use hwrites
  · rw [h] at hnone
    cases hnone
  · rw [h] at hnone
    cases hnone

/-- An operation that issues no write has no effect, and leaves the container unless it
is a refresh. -/
theorem perform_of_idle {a : App} {op : Op} (h : (a.perform op).2 = []) :
  (∀ dreams, a.effect dreams op = dreams)
    ∧ ((a.perform op).1.dreamContainers = a.dreamContainers ∨ op = .refresh)
  := by
  rcases a.perform_cases op with
    ⟨_, -, hwrites, -⟩ | ⟨_, -, hwrites, -⟩ | ⟨-, -, heffect, hsame⟩
  · rw [hwrites] at h
    cases h
  · rw [hwrites] at h
    cases h
  · use heffect

/-- An operation adds no dream to the container. -/
theorem perform_subset (a : App) (op : Op) :
  (a.perform op).1.dreamContainers ⊆ a.dreamContainers
  := by
  intro dream hmem
  rcases a.perform_cases op with
    ⟨_, -, -, hsame, -⟩ | ⟨l, -, -, hl, -, ⟨r, -, rfl⟩ | ⟨-, rfl⟩⟩ | ⟨-, -, -, hsame | rfl⟩
  · rw [hsame] at hmem
    exact hmem
  · rw [hl, mem_remaining] at hmem
    exact hmem.1
  · rw [hl] at hmem
    cases hmem
  · rw [hsame] at hmem
    exact hmem
  · cases hmem

/-- The records an operation writes are of the dream it saves or of dreams of the
container. -/
theorem perform_records (a : App) (op : Op) {index : ℕ} {value : Record}
    (h : .setValue index value ∈ (a.perform op).2) :
  ∃ dream, value = record dream ∧ (dream ∈ a.saves op ∨ dream ∈ a.dreamContainers)
  := by
  rcases a.perform_cases op with
    ⟨new, hsaves, hwrites, -⟩ | ⟨l, -, hwrites, hl, -⟩ | ⟨-, hwrites, -⟩
  · rw [hwrites, List.mem_singleton, saveAction, Write.setValue.injEq] at h
    use new, h.2
    left
    exact hsaves
  · rw [hwrites, updateAction, List.mem_cons] at h
    obtain h | h := h
    · cases h
    · obtain ⟨⟨dream, idx⟩, hmem, h⟩ := List.mem_map.mp h
      rw [saveAction, Write.setValue.injEq] at h
      use dream, h.2.symm
      right
      apply a.perform_subset op
      rw [hl]
      apply List.fst_mem_of_mem_zipIdx hmem
  · rw [hwrites] at h
    cases h

/-- An operation registers no observer. -/
@[simp]
theorem perform_observers (a : App) (op : Op) :
  (a.perform op).1.observers = a.observers
  := by
  cases op with
  | dateCheckAndSave dream => simp only [perform, dateCheckAndSave]; split <;> rfl
  | overwrite accepted => simp only [perform, overwrite]; split <;> rfl
  | _ => rfl

/-- An operation leaves the main queue as it is, or dispatches a call of
`fetchContainers`. -/
theorem perform_mainQueue (a : App) (op : Op) :
  (a.perform op).1.mainQueue = a.mainQueue
    ∨ (a.perform op).1.mainQueue = a.mainQueue ++ [.fetchContainers]
  := by
  cases op with
  | dateCheckAndSave dream => left; simp only [perform, dateCheckAndSave]; split <;> rfl
  | overwrite accepted => left; simp only [perform, overwrite]; split <;> rfl
  | removeAction r => left; rfl
  | removeAllAction => left; rfl
  | refresh => right; rfl
  | fetchContainers => right; rfl

/-! ### The date an operation is about -/

/-- The operation removes or saves the date, or removes everything. -/
def Supersedes (a : App) (date : String) : Op → Prop
  | .removeAction removeDream => removeDream.writedDate = date
  | .removeAllAction => True
  | op => (a.saves op).map Dream.writedDate = some date

instance (a : App) (date : String) : ∀ op, Decidable (a.Supersedes date op)
  | .removeAction r => inferInstanceAs (Decidable (r.writedDate = date))
  | .removeAllAction => inferInstanceAs (Decidable True)
  | .dateCheckAndSave dream => inferInstanceAs
      (Decidable ((a.saves (.dateCheckAndSave dream)).map Dream.writedDate = some date))
  | .overwrite accepted => inferInstanceAs
      (Decidable ((a.saves (.overwrite accepted)).map Dream.writedDate = some date))
  | .refresh => inferInstanceAs (Decidable ((a.saves .refresh).map Dream.writedDate = some date))
  | .fetchContainers => inferInstanceAs
      (Decidable ((a.saves .fetchContainers).map Dream.writedDate = some date))

/-- An operation that saves a dream supersedes its date. -/
theorem supersedes_of_saves {a : App} {op : Op} {dream : Dream}
    (h : a.saves op = some dream) :
  a.Supersedes dream.writedDate op
  := by
  cases op with
  | removeAction r => cases h
  | removeAllAction => trivial
  | _ => simp [Supersedes, h]

/-- An operation that does not supersede the date of a dream leaves it stored if it was,
and does not store it otherwise. -/
theorem mem_effect_iff {a : App} {op : Op} {dream : Dream} {dreams : Multiset Dream}
    (h : ¬ a.Supersedes dream.writedDate op) :
  dream ∈ a.effect dreams op ↔ dream ∈ dreams
  := by
  have hsaves : ∀ {op : Op}, (a.saves op).map Dream.writedDate ≠ some dream.writedDate →
      (dream ∈ (match a.saves op with
        | some new => new ::ₘ dreams
        | none => dreams) ↔ dream ∈ dreams) := by
    intro op hne
    cases hop : a.saves op with
    | none => rfl
    | some new =>
      rw [hop] at hne
      simp only [Multiset.mem_cons, or_iff_right_iff_imp]
      rintro rfl
      simp at hne
  cases op with
  | removeAction r =>
    have hne : r.writedDate ≠ dream.writedDate := h
    simp [effect, hne.symm]
  | removeAllAction => exact absurd trivial h
  | dateCheckAndSave _ => exact hsaves h
  | overwrite _ => exact hsaves h
  | refresh => exact hsaves h
  | fetchContainers => exact hsaves h

/-- Dreams of a date none is saved of come from no operation. -/
theorem date_ne_of_mem_effect {a : App} {op : Op} {date : String} {dreams : Multiset Dream}
    (hsaves : ∀ new, a.saves op = some new → new.writedDate ≠ date)
    (hdreams : ∀ dream ∈ dreams, dream.writedDate ≠ date) :
  ∀ dream ∈ a.effect dreams op, dream.writedDate ≠ date
  := by
  have hcons : ∀ dream ∈ (match a.saves op with
      | some new => new ::ₘ dreams
      | none => dreams), dream.writedDate ≠ date := by
    cases hop : a.saves op with
    | none => exact hdreams
    | some new =>
      simp only [Multiset.mem_cons, forall_eq_or_imp]
      use hsaves new hop
  cases op with
  | removeAction r =>
    intro dream hdream
    apply hdreams dream (Multiset.mem_of_mem_filter hdream)
  | removeAllAction =>
    intro dream hdream
    cases Multiset.notMem_zero dream hdream
  | dateCheckAndSave _ => exact hcons
  | overwrite _ => exact hcons
  | refresh => exact hcons
  | fetchContainers => exact hcons

/-- The dream of the alert comes from `dateCheckAndSave`. -/
theorem perform_alert (a : App) (op : Op) {dream : Dream}
    (h : (a.perform op).1.alert = some dream) :
  a.alert = some dream ∨ op = .dateCheckAndSave dream
  := by
  cases op with
  | dateCheckAndSave new =>
    simp only [perform, dateCheckAndSave] at h
    split at h
    · right
      rw [Option.some.inj h]
    · left
      exact h
  | overwrite accepted =>
    simp only [perform, overwrite] at h
    split at h
    · left
      exact h
    · cases h
  | removeAction _ => exact .inl h
  | removeAllAction => exact .inl h
  | refresh => exact .inl h
  | fetchContainers => exact .inl h

/-! ### The main queue -/

/-- Enqueue a snapshot for each registered observer. -/
def notify (a : App) (snapshot : Node) : App :=
  { a with mainQueue := a.mainQueue ++ List.replicate a.observers (.value snapshot) }

/-- Register a value observer on a node. -/
def observe (P : Platform) (node : Node) (a : App) : App :=
  { a with
    observers := a.observers + 1
    mainQueue := a.mainQueue
      ++ List.replicate (P.initial (a.observers + 1)) (.value node) }

/-- Run the first block of the main queue. -/
def turn (P : Platform) (node : Node) (a : App) : Option App :=
  match a.mainQueue with
  | [] => some a
  | .value snapshot :: queue =>
      (fetched P.sorter snapshot).map fun container =>
        { a with dreamContainers := container, mainQueue := queue }
  | .fetchContainers :: queue => some (observe P node { a with mainQueue := queue })

/-- What a turn does: nothing, or it fetches the container from a snapshot, or registers
an observer. -/
theorem turn_cases {P : Platform} {node : Node} {a a' : App} (h : a.turn P node = some a') :
  (a.mainQueue = [] ∧ a' = a)
    ∨ (∃ snapshot queue container, a.mainQueue = .value snapshot :: queue
      ∧ fetched P.sorter snapshot = some container
      ∧ a' = { a with dreamContainers := container, mainQueue := queue })
    ∨ ∃ queue, a.mainQueue = .fetchContainers :: queue
      ∧ a' = observe P node { a with mainQueue := queue }
  := by
  rw [turn] at h
  split at h
  next hqueue =>
    left
    use hqueue, (Option.some.inj h).symm
  next snapshot queue hqueue =>
    right
    left
    obtain ⟨container, hcontainer, rfl⟩ := Option.map_eq_some_iff.mp h
    use snapshot, queue, container
  next queue hqueue =>
    right
    right
    use queue, hqueue, (Option.some.inj h).symm

/-- A turn leaves the alert as it is. -/
theorem turn_alert {P : Platform} {node : Node} {a a' : App} (h : a.turn P node = some a') :
  a'.alert = a.alert
  := by
  rcases turn_cases h with ⟨-, rfl⟩ | ⟨_, _, _, -, -, rfl⟩ | ⟨_, -, rfl⟩
  · rfl
  · rfl
  · rfl

/-! ### The order of the container -/

/-- The dates of the container are in ascending order. -/
def Ascending (a : App) : Prop :=
  a.dreamContainers.Pairwise fun d1 d2 => d1.writedDate ≤ d2.writedDate

/-- An operation keeps the container in order: at most it takes dreams out. -/
theorem Ascending.perform {a : App} (h : a.Ascending) (op : Op) :
  (a.perform op).1.Ascending
  := by
  rw [Ascending]
  rcases a.perform_cases op with
    ⟨_, -, -, hsame, -⟩ | ⟨l, -, -, hl, -, ⟨r, -, rfl⟩ | ⟨-, rfl⟩⟩ | ⟨-, -, -, hsame | rfl⟩
  · rw [hsame]
    exact h
  · rw [hl]
    apply h.filter
  · rw [hl]
    apply List.Pairwise.nil
  · rw [hsame]
    exact h
  · apply List.Pairwise.nil

/-- A turn keeps the container in order, or fetches it anew in order. -/
theorem Ascending.turn {a : App} (h : a.Ascending) {P : Platform} {node : Node} {a' : App}
    (hturn : a.turn P node = some a') :
  a'.Ascending
  := by
  rcases turn_cases hturn with ⟨-, rfl⟩ | ⟨_, _, _, -, hcontainer, rfl⟩ | ⟨_, -, rfl⟩
  · exact h
  · apply fetched_ascending hcontainer
  · exact h

/-! ### Apps that are up to date -/

/-- What holds of the main queue of an app that is notified of the changes of a
node. -/
structure Tracks (node : Node) (a : App) : Prop where
  /-- Every snapshot enqueued can be read. -/
  readable : ∀ snapshot, .value snapshot ∈ a.mainQueue → ∃ l, snapshot = store l
  /-- The last block brings the container up to date with the node. -/
  last : ∀ t ∈ a.mainQueue.getLast?, t = .value node ∨ t = .fetchContainers
  /-- As long as no observer is registered, only calls of `fetchContainers` are
  enqueued. -/
  observed : 0 < a.observers
    ∨ a.mainQueue ≠ [] ∧ ∀ t ∈ a.mainQueue, t = .fetchContainers

theorem tracks_launch (node : Node) :
  Tracks node launch
  where
  readable := by simp [launch]
  last := by simp [launch]
  observed := by simp [launch]

/-- An operation keeps `Tracks`. -/
theorem Tracks.perform {node : Node} {a : App} (h : Tracks node a) (op : Op) :
  Tracks node (a.perform op).1
  := by
  rcases perform_mainQueue a op with hq | hq
  · constructor
    · rw [hq]
      apply h.readable
    · rw [hq]
      apply h.last
    · rw [hq, perform_observers]
      apply h.observed
  · constructor
    · rw [hq]
      simpa using h.readable
    · rw [hq]
      simp
    · rw [hq, perform_observers]
      rcases h.observed with hpos | ⟨-, hall⟩
      · left
        exact hpos
      · right
        simp only [ne_eq, List.append_eq_nil_iff, List.cons_ne_self, and_false,
          not_false_eq_true, List.mem_append, List.mem_singleton, true_and]
        rintro t (ht | rfl)
        · apply hall t ht
        · rfl

/-- Being notified of a change keeps `Tracks`, now of the new node. -/
theorem Tracks.notify {node : Node} {a : App} (h : Tracks node a) (l : List Dream) :
  Tracks (store l) (a.notify (store l))
  := by
  rcases Nat.eq_zero_or_pos a.observers with hzero | hpos
  · have hq : (a.notify (store l)).mainQueue = a.mainQueue := by simp [App.notify, hzero]
    obtain ⟨hne, hall⟩ := h.observed.resolve_left (by omega)
    constructor
    · rw [hq]
      apply h.readable
    · rw [hq]
      intro t ht
      right
      apply hall t (List.mem_of_getLast? ht)
    · right
      rw [hq]
      use hne
  · constructor
    · intro snapshot hmem
      rcases List.mem_append.mp hmem with hmem | hmem
      · apply h.readable snapshot hmem
      · obtain ⟨-, hmem⟩ := List.mem_replicate.mp hmem
        use l, Turn.value.inj hmem
    · have hlast : (List.replicate a.observers (Turn.value (store l))).getLast?
          = some (.value (store l)) := by
        rw [List.getLast?_replicate, if_neg (by omega)]
      simp [App.notify, List.getLast?_append, hlast]
    · left
      exact hpos

/-- A turn of an app that tracks a readable node does not trap, keeps `Tracks`, and,
when it empties the main queue, leaves the container up to date with the node. -/
theorem Tracks.turn {l : List Dream} {a : App} (h : Tracks (store l) a) (P : Platform) :
  ∃ a', a.turn P (store l) = some a' ∧ Tracks (store l) a'
    ∧ (a'.mainQueue = [] → a.mainQueue ≠ [] → a'.dreamContainers = ascendingOrder P.sorter l)
  := by
  obtain ⟨container, alert, observers, queue⟩ := a
  cases queue with
  | nil =>
    use ⟨container, alert, observers, []⟩, rfl, h
    simp
  | cons t queue =>
    have hlast : ∀ t ∈ queue.getLast?, t = .value (store l) ∨ t = .fetchContainers := by
      intro u hu
      apply h.last u
      cases queue with
      | nil => simp at hu
      | cons v queue => simpa using hu
    cases t with
    | value snapshot =>
      obtain ⟨l', rfl⟩ := h.readable snapshot (by simp)
      use ⟨ascendingOrder P.sorter l', alert, observers, queue⟩
      have hobserved : 0 < observers := by
        rcases h.observed with hpos | ⟨-, hall⟩
        · exact hpos
        · cases hall (.value (store l')) (by simp)
      constructor
      · simp [App.turn]
      · constructor
        · constructor
          · intro snapshot hmem
            apply h.readable snapshot (List.mem_cons_of_mem _ hmem)
          · exact hlast
          · left
            exact hobserved
        · rintro hq -
          simp only at hq
          subst hq
          rcases h.last (.value (store l')) (by simp) with heq | heq
          · rw [store_inj.mp (Turn.value.inj heq)]
          · cases heq
    | fetchContainers =>
      use observe P (store l) ⟨container, alert, observers, queue⟩, rfl
      have hinitial := P.initial_pos (observers + 1)
      constructor
      · constructor
        · intro snapshot hmem
          rcases List.mem_append.mp hmem with hmem | hmem
          · apply h.readable snapshot (List.mem_cons_of_mem _ hmem)
          · obtain ⟨-, hmem⟩ := List.mem_replicate.mp hmem
            use l, Turn.value.inj hmem
        · have hlast' : (List.replicate (P.initial (observers + 1))
              (Turn.value (store l))).getLast? = some (.value (store l)) := by
            rw [List.getLast?_replicate, if_neg (by omega)]
          simp [observe, List.getLast?_append, hlast']
        · left
          simp [observe]
      · intro hq
        simp only [observe, List.append_eq_nil_iff, List.replicate_eq_nil_iff] at hq
        omega

end App

end ForDream

import ForDream.App
import ForDream.Lib.Machine

/-!
# The main table

The table of `MainVC` shows the shared container, but is only told of it in two places:
the callback of its own observer reloads the table, and a confirmed swipe deletes a row.
UIKit raises an exception unless the data source then has one row less than it reported
last.  Every other change of the container goes past the table: deleting a dream in a
detail screen, deleting all dreams, the refresh of the search screen, and the snapshots
delivered to the observers of the search screen.

The table has as many rows as the container has dreams throughout a run exactly when
each of these changes leaves the number of dreams as it is.
-/

namespace ForDream

open Model

/-- The screens that register observers of the node: `MainVC`, the search screens in the
order they are opened, and a search screen that is refreshed. -/
inductive MainVC.Screen where
  | main
  | search (index : ℕ)
  | refresh
  deriving DecidableEq

/-- A block of the main queue: the delivery of a snapshot to the observer of a screen, or
the call of `fetchContainers` that registers it. -/
inductive MainVC.Block where
  | value (screen : MainVC.Screen) (snapshot : Node)
  | fetchContainers (screen : MainVC.Screen)

/-- The process around `MainVC`.  `searches` is the number of search screens opened so
far, `rows` are the dreams the rows of `mainTableView` show, and `swiped` is what the open
alert of a swipe has captured: `removeDream` and the row of `indexPath`. -/
structure MainVC where
  dreamContainers : List Dream := []
  alert : Option Dream := none
  node : Node
  observers : List MainVC.Screen := []
  mainQueue : List MainVC.Block
  searches : ℕ := 0
  rows : List Dream := []
  swiped : Option (Dream × ℕ) := none

namespace MainVC

/-- What happens: a row is swiped, and the alert that opens answered; an operation on one
of the other screens; a turn of the main queue; and a change of the node by another
device.  The block a button dispatches is run when the event happens. -/
inductive Event where
  | commit (row : ℕ)
  | cancel
  | confirm
  | op (op : Op)
  | turn
  | remote (node : Node)

/-- The screen opens with an empty table and dispatches a call of `fetchContainers`. -/
def viewDidLoad (node : Node) : MainVC where
  node := node
  mainQueue := [.fetchContainers .main]

/-- The cell of a row shows a date of the container; indexing out of range traps. -/
def cellForRowAt (m : MainVC) (row : ℕ) : Option String :=
  m.dreamContainers[row]?.map Dream.writedDate

/-- The container and the alert the operations of the user act on. -/
def app (m : MainVC) : App where
  dreamContainers := m.dreamContainers
  alert := m.alert

/-- The node changes, and a snapshot is enqueued for every observer if it is another
one. -/
def setNode (m : MainVC) (node : Node) : MainVC :=
  if node = m.node then m
  else { m with node := node, mainQueue := m.mainQueue ++ m.observers.map (.value · node) }

/-- The writes of a list take effect one after the other. -/
def writes (m : MainVC) (ws : List Write) : MainVC :=
  ws.foldl (fun m w => m.setNode (w.apply m.node)) m

/-- The calls of `fetchContainers` an operation dispatches: a search screen is refreshed
or opened. -/
def dispatched (m : MainVC) : Op → List Block
  | .refresh => [.fetchContainers .refresh]
  | .fetchContainers => [.fetchContainers (.search m.searches)]
  | _ => []

/-- The number of search screens opened after an operation. -/
def opened (m : MainVC) : Op → ℕ
  | .fetchContainers => m.searches + 1
  | _ => m.searches

/-- An operation on another screen. -/
def perform (m : MainVC) (op : Op) : MainVC :=
  let (a, ws) := m.app.perform op
  writes
    { m with
      dreamContainers := a.dreamContainers
      alert := a.alert
      mainQueue := m.mainQueue ++ m.dispatched op
      searches := m.opened op } ws

/-- The rows after `deleteRows`, when the data source has `count` rows: UIKit raises an
exception unless these are the rows there were but the one deleted. -/
def deleteRows (rows : List Dream) (count row : ℕ) : Option (List Dream) :=
  if row < rows.length ∧ count + 1 = rows.length then some (rows.eraseIdx row) else none

/-- Swiping a row of the table captures the dream of the container at this row, and opens
the alert. -/
def commit (m : MainVC) (row : ℕ) : Option MainVC :=
  if row < m.rows.length then
    m.dreamContainers[row]?.map fun removeDream => { m with swiped := some (removeDream, row) }
  else some m

/-- The swipe is confirmed: the dreams of the date are removed, and the row is deleted. -/
def confirm (m : MainVC) : Option MainVC :=
  match m.swiped with
  | none => some m
  | some (removeDream, row) =>
      let (rest, ws) := removeAction m.dreamContainers removeDream
      (deleteRows m.rows rest.length row).map fun rows =>
        writes { m with dreamContainers := rest, rows := rows, swiped := none } ws

/-- What the observer of a screen does after the container was read: that of `MainVC`
reloads the table. -/
def loadingIsFinished (m : MainVC) : Screen → MainVC
  | .main => { m with rows := m.dreamContainers }
  | .search _ => m
  | .refresh => m

/-- Run the first block of the main queue. -/
def turn (P : Platform) (m : MainVC) : Option MainVC :=
  match m.mainQueue with
  | [] => some m
  | .value screen snapshot :: queue =>
      (fetched P.sorter snapshot).map fun container =>
        { m with dreamContainers := container, mainQueue := queue }.loadingIsFinished screen
  | .fetchContainers screen :: queue =>
      some { m with
        observers := m.observers ++ [screen]
        mainQueue := queue
          ++ List.replicate (P.initial (m.observers.length + 1)) (.value screen m.node) }

/-- The state after an event, unless the process traps. -/
def step (P : Platform) (m : MainVC) : Event → Option MainVC
  | .commit row => m.commit row
  | .cancel => some { m with swiped := none }
  | .confirm => m.confirm
  | .op op => some (m.perform op)
  | .turn => m.turn P
  | .remote node => some (m.setNode node)

/-! ### What a step changes -/

/-- A change of the node changes neither the container nor the table, nor what a swipe has
captured. -/
theorem setNode_eq (m : MainVC) (node : Node) :
  (m.setNode node).dreamContainers = m.dreamContainers ∧ (m.setNode node).rows = m.rows
    ∧ (m.setNode node).swiped = m.swiped
  := by
  rw [setNode]
  split
  · exact ⟨rfl, rfl, rfl⟩
  · exact ⟨rfl, rfl, rfl⟩

/-- Nor do writes. -/
theorem writes_eq (m : MainVC) (ws : List Write) :
  (m.writes ws).dreamContainers = m.dreamContainers ∧ (m.writes ws).rows = m.rows
    ∧ (m.writes ws).swiped = m.swiped
  := by
  induction ws generalizing m with
  | nil => exact ⟨rfl, rfl, rfl⟩
  | cons w ws ih =>
    obtain ⟨hcontainer, hrows, hswiped⟩ := ih (m.setNode (w.apply m.node))
    rw [writes, List.foldl_cons, ← writes, hcontainer, hrows, hswiped]
    apply setNode_eq

/-- An operation changes the container and dispatches calls of `fetchContainers`; then its
writes take effect. -/
theorem perform_eq_writes (m : MainVC) (op : Op) :
  m.perform op = writes
    { m with
      dreamContainers := (m.app.perform op).1.dreamContainers
      alert := (m.app.perform op).1.alert
      mainQueue := m.mainQueue ++ m.dispatched op
      searches := m.opened op } (m.app.perform op).2
  := rfl

/-- An operation changes the container, but neither the table nor what a swipe has
captured. -/
theorem perform_eq (m : MainVC) (op : Op) :
  (m.perform op).dreamContainers = (m.app.perform op).1.dreamContainers
    ∧ (m.perform op).rows = m.rows ∧ (m.perform op).swiped = m.swiped
  := by
  rw [perform_eq_writes]
  apply writes_eq

/-- What a turn does: nothing, or it delivers a snapshot to a screen, or registers the
observer of a screen. -/
theorem turn_cases {P : Platform} {m t : MainVC} (h : m.turn P = some t) :
  (m.mainQueue = [] ∧ t = m)
    ∨ (∃ screen snapshot queue container, m.mainQueue = .value screen snapshot :: queue
      ∧ fetched P.sorter snapshot = some container
      ∧ t = { m with dreamContainers := container, mainQueue := queue }.loadingIsFinished screen)
    ∨ ∃ screen queue, m.mainQueue = .fetchContainers screen :: queue
      ∧ t = { m with
        observers := m.observers ++ [screen]
        mainQueue := queue
          ++ List.replicate (P.initial (m.observers.length + 1)) (.value screen m.node) }
  := by
  rw [turn] at h
  split at h
  next hqueue =>
    left
    use hqueue, (Option.some.inj h).symm
  next screen snapshot queue hqueue =>
    right
    left
    obtain ⟨container, hcontainer, rfl⟩ := Option.map_eq_some_iff.mp h
    use screen, snapshot, queue, container
  next screen queue hqueue =>
    right
    right
    use screen, queue, hqueue, (Option.some.inj h).symm

/-- What an event does: the alert of a swipe opens or closes; a swipe is confirmed, which
removes the dreams of the date from the container and one row from the table; an operation
is performed; a turn is taken; or the node changes. -/
theorem step_cases {P : Platform} {m t : MainVC} {e : Event} (h : m.step P e = some t) :
  ((e = .cancel ∨ e = .confirm ∨ ∃ row, e = .commit row)
      ∧ ∃ swiped, t = { m with swiped := swiped })
    ∨ (∃ removeDream row, e = .confirm ∧ row < m.rows.length
      ∧ (remaining m.dreamContainers removeDream).length + 1 = m.rows.length
      ∧ t = writes
        { m with
          dreamContainers := remaining m.dreamContainers removeDream
          rows := m.rows.eraseIdx row
          swiped := none } (updateAction (remaining m.dreamContainers removeDream)))
    ∨ (∃ op, e = .op op ∧ t = m.perform op)
    ∨ (e = .turn ∧ m.turn P = some t)
    ∨ ∃ node, e = .remote node ∧ t = m.setNode node
  := by
  cases e with
  | commit row =>
    left
    use .inr (.inr ⟨row, rfl⟩)
    rw [step, commit] at h
    split at h
    · obtain ⟨removeDream, -, rfl⟩ := Option.map_eq_some_iff.mp h
      use some (removeDream, row)
    · use m.swiped, (Option.some.inj h).symm
  | cancel =>
    left
    use .inl rfl, none, (Option.some.inj h).symm
  | confirm =>
    rw [step, confirm] at h
    split at h
    · left
      use .inr (.inl rfl), m.swiped, (Option.some.inj h).symm
    next removeDream row _ =>
      right
      left
      obtain ⟨rows, hrows, rfl⟩ := Option.map_eq_some_iff.mp h
      rw [deleteRows] at hrows
      split at hrows
      next hcount =>
        obtain rfl := Option.some.inj hrows
        use removeDream, row, rfl, hcount.1, hcount.2
      next => cases hrows
  | op op =>
    right
    right
    left
    use op, rfl, (Option.some.inj h).symm
  | turn =>
    right
    right
    right
    left
    use rfl, h
  | remote node =>
    right
    right
    right
    right
    use node, rfl, (Option.some.inj h).symm

/-! ### Rows and dreams -/

/-- The table has as many rows as the container has dreams. -/
def InStep (m : MainVC) : Prop := m.rows.length = m.dreamContainers.length

instance (m : MainVC) : Decidable m.InStep :=
  inferInstanceAs (Decidable (m.rows.length = m.dreamContainers.length))

/-- The snapshot a block delivers to an observer of a search screen. -/
def Block.searched? : Block → Option Node
  | .value (.search _) snapshot => some snapshot
  | .value .refresh snapshot => some snapshot
  | _ => none

/-- A change of the container that goes past the table leaves the number of dreams: there
is nothing to remove, or as many dreams are fetched as there were. -/
def Kept (P : Platform) (m : MainVC) : Event → Prop
  | .op (.removeAction removeDream) =>
      ∀ dream ∈ m.dreamContainers, dream.writedDate ≠ removeDream.writedDate
  | .op .removeAllAction => m.dreamContainers = []
  | .op .refresh => m.dreamContainers = []
  | .turn => ∀ b ∈ m.mainQueue.head?, ∀ snapshot ∈ b.searched?,
      ∀ container ∈ fetched P.sorter snapshot, container.length = m.dreamContainers.length
  | _ => True

instance (P : Platform) (m : MainVC) : ∀ e, Decidable (m.Kept P e)
  | .op (.removeAction removeDream) => inferInstanceAs (Decidable
      (∀ dream ∈ m.dreamContainers, dream.writedDate ≠ removeDream.writedDate))
  | .op .removeAllAction => inferInstanceAs (Decidable (m.dreamContainers = []))
  | .op .refresh => inferInstanceAs (Decidable (m.dreamContainers = []))
  | .turn => inferInstanceAs (Decidable (∀ b ∈ m.mainQueue.head?, ∀ snapshot ∈ b.searched?,
      ∀ container ∈ fetched P.sorter snapshot, container.length = m.dreamContainers.length))
  | .op (.dateCheckAndSave _) => inferInstanceAs (Decidable True)
  | .op (.overwrite _) => inferInstanceAs (Decidable True)
  | .op .fetchContainers => inferInstanceAs (Decidable True)
  | .commit _ => inferInstanceAs (Decidable True)
  | .cancel => inferInstanceAs (Decidable True)
  | .confirm => inferInstanceAs (Decidable True)
  | .remote _ => inferInstanceAs (Decidable True)

variable {P : Platform} {m t : MainVC}

/-- In step with the container, the table finds a cell for each of its rows. -/
theorem InStep.cellForRowAt (h : m.InStep) {row : ℕ} (hrow : row < m.rows.length) :
  (m.cellForRowAt row).isSome
  := by
  rw [InStep] at h
  rw [MainVC.cellForRowAt, Option.isSome_map, List.getElem?_eq_getElem (by omega)]
  rfl

/-- An operation that leaves the number of dreams leaves the container as it is. -/
theorem perform_of_kept {op : Op} (h : m.Kept P (.op op)) :
  (m.app.perform op).1.dreamContainers = m.dreamContainers
  := by
  cases op with
  | dateCheckAndSave dream =>
    rw [App.perform, App.dateCheckAndSave]
    split
    · rfl
    · rfl
  | overwrite accepted =>
    rw [App.perform, App.overwrite]
    split
    · rfl
    · rfl
  | removeAction removeDream =>
    rw [App.perform, removeAction, remaining]
    simpa [app, Kept] using h
  | removeAllAction =>
    rw [Kept] at h
    rw [h]
    rfl
  | refresh =>
    rw [Kept] at h
    rw [h]
    rfl
  | fetchContainers => rfl

/-- An operation keeps the table in step exactly when it leaves the number of dreams. -/
theorem InStep.perform_iff (h : m.InStep) (op : Op) :
  (m.perform op).InStep ↔ m.Kept P (.op op)
  := by
  rw [InStep] at h
  rw [InStep, (m.perform_eq op).1, (m.perform_eq op).2.1, h]
  constructor
  · intro hlength
    cases op with
    | removeAction removeDream =>
      rw [eq_comm, App.perform, removeAction, remaining] at hlength
      simpa [app, Kept, List.length_filter_eq_length_iff] using hlength
    | removeAllAction => exact List.length_eq_zero_iff.mp hlength
    | refresh => exact List.length_eq_zero_iff.mp hlength
    | _ => trivial
  · intro hkept
    rw [perform_of_kept hkept]

/-- A turn keeps the table in step exactly when it reloads it or leaves the number of
dreams. -/
theorem InStep.turn_iff (h : m.InStep) (hturn : m.turn P = some t) :
  t.InStep ↔ m.Kept P .turn
  := by
  rw [InStep] at h
  rw [Kept]
  rcases turn_cases hturn with
    ⟨hqueue, rfl⟩ | ⟨screen, snapshot, queue, container, hqueue, hcontainer, rfl⟩ |
      ⟨screen, queue, hqueue, rfl⟩
  · simp [InStep, h, hqueue]
  · cases screen with
    | main => simp [InStep, loadingIsFinished, hqueue, Block.searched?]
    | search _ =>
      simp [InStep, loadingIsFinished, hqueue, Block.searched?, hcontainer, h, eq_comm]
    | refresh =>
      simp [InStep, loadingIsFinished, hqueue, Block.searched?, hcontainer, h, eq_comm]
  · cases screen <;> simp [InStep, h, hqueue, Block.searched?]

/-- An event keeps the table in step exactly when its change of the container, if it goes
past the table, leaves the number of dreams. -/
theorem InStep.step_iff (h : m.InStep) {e : Event} (hstep : m.step P e = some t) :
  t.InStep ↔ m.Kept P e
  := by
  rcases step_cases hstep with
    ⟨he, swiped, rfl⟩ | ⟨removeDream, row, rfl, hrow, hcount, rfl⟩ | ⟨op, rfl, rfl⟩ |
      ⟨rfl, hturn⟩ | ⟨node, rfl, rfl⟩
  · apply iff_of_true h
    rcases he with rfl | rfl | ⟨row, rfl⟩ <;> trivial
  · apply iff_of_true _ trivial
    rw [InStep, (writes_eq _ _).1, (writes_eq _ _).2.1]
    dsimp only
    rw [List.length_eraseIdx_of_lt hrow]
    omega
  · apply h.perform_iff
  · apply h.turn_iff hturn
  · apply iff_of_true _ trivial
    rw [InStep, (m.setNode_eq node).1, (m.setNode_eq node).2.1]
    exact h

/-- A turn that traps has not changed the container. -/
theorem kept_of_trap {e : Event} (h : m.step P e = none) :
  m.Kept P e
  := by
  cases e with
  | commit row => trivial
  | cancel => trivial
  | confirm => trivial
  | op op => cases h
  | remote node => trivial
  | turn =>
    rw [MainVC.step, turn] at h
    split at h
    · cases h
    next screen snapshot queue hqueue =>
      have htrap := Option.map_eq_none_iff.mp h
      cases screen <;> simp [Kept, hqueue, Block.searched?, htrap]
    · cases h

/-- The table has as many rows as the container has dreams after every event of a run,
exactly when every change of the container that goes past the table leaves the number of
dreams; and then each row has its cell. -/
theorem inStep_iff_kept (P : Platform) (node : Node) (es : List Event) :
  ((∀ fs, fs <+: es → ∀ m, Machine.run (step P) (viewDidLoad node) fs = some m → m.InStep)
      ↔ Machine.Always (step P) (Kept P) (viewDidLoad node) es)
    ∧ ∀ m : MainVC, m.InStep → ∀ row < m.rows.length, (m.cellForRowAt row).isSome
  := by
  constructor
  · apply Machine.forall_prefix_iff
    · intro m e t hm ht
      apply hm.step_iff ht
    · intro m e _ htrap
      apply kept_of_trap htrap
    · rfl
  · intro m hm row hrow
    apply hm.cellForRowAt hrow

/-- Two dreams are shown, and all dreams are deleted. -/
def allDeleted : List Event := [.turn, .turn, .op .removeAllAction]

/-- Before the snapshots of deleting all dreams arrive, the table has two rows, for which
there is no cell. -/
theorem allDeleted_not_inStep :
  ∃ m, Machine.run (step .reference)
      (viewDidLoad (store [sea "2019-03-18", fire "2019-03-19"])) allDeleted = some m
    ∧ ¬ m.InStep ∧ m.rows.length = 2 ∧ m.cellForRowAt 1 = none
  := by
  use (Machine.run (step .reference)
    (viewDidLoad (store [sea "2019-03-18", fire "2019-03-19"])) allDeleted).get (by decide)
  use (Option.some_get _).symm
  decide

end MainVC

end ForDream

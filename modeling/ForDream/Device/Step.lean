import ForDream.App
import ForDream.Lib.Machine

/-!
# One device

A `Device` is an app signed in to an account together with the node of the account.
Its writes take effect on the node at once and in the order they are issued, and each
that changes the node notifies the app.  An event is an operation of the user or a
turn of the main queue, in any order; a turn that traps has no state after it.
-/

namespace ForDream

open Model

/-- An app and the node of its account. -/
structure Device where
  app : App
  node : Node

instance : DecidableEq Device := fun d e =>
  decidable_of_iff (d.app = e.app ∧ d.node = e.node) (by cases d; cases e; simp)

namespace Device

/-- The device as the app starts, on a node left by earlier runs. -/
def launch (node : Node) : Device where
  app := App.launch
  node := node

/-- A write takes effect; if it changes the node, the app is notified. -/
def write (d : Device) (w : Write) : Device :=
  if w.apply d.node = d.node then d
  else ⟨d.app.notify (w.apply d.node), w.apply d.node⟩

/-- The writes of a list take effect one after the other. -/
def writes (d : Device) (ws : List Write) : Device := ws.foldl write d

/-- The device after an operation of the user. -/
def perform (d : Device) (op : Op) : Device :=
  writes ⟨(d.app.perform op).1, d.node⟩ (d.app.perform op).2

/-- What happens on a device. -/
inductive Event where
  | op (op : Op)
  | turn
  deriving DecidableEq, Repr

/-- The device after an event, unless the callback traps. -/
def step (P : Platform) (d : Device) : Event → Option Device
  | .op op => some (d.perform op)
  | .turn => (d.app.turn P d.node).map fun app => ⟨app, d.node⟩

/-! ### Writes -/

@[simp]
theorem write_node (d : Device) (w : Write) :
  (d.write w).node = w.apply d.node
  := by
  rw [write]
  split
  · symm
    assumption
  · rfl

@[simp]
theorem writes_node (d : Device) (ws : List Write) :
  (d.writes ws).node = Write.applyAll d.node ws
  := by
  induction ws generalizing d with
  | nil => rfl
  | cons w ws ih =>
    rw [writes, List.foldl_cons, ← writes, ih, write_node, Write.applyAll_cons]

/-- A write changes nothing of the app but the main queue, which it extends. -/
theorem write_app (d : Device) (w : Write) :
  ∃ turns, (d.write w).app = { d.app with mainQueue := d.app.mainQueue ++ turns }
  := by
  rw [write]
  split
  · use []
    simp
  · use List.replicate d.app.observers (.value (w.apply d.node))
    rfl

/-- Writes change nothing of the app but the main queue, which they extend. -/
theorem writes_app (d : Device) (ws : List Write) :
  ∃ turns, (d.writes ws).app = { d.app with mainQueue := d.app.mainQueue ++ turns }
  := by
  induction ws generalizing d with
  | nil =>
    use []
    simp [writes]
  | cons w ws ih =>
    obtain ⟨turns, hturns⟩ := write_app d w
    obtain ⟨turns', hturns'⟩ := ih (d.write w)
    use turns ++ turns'
    rw [writes, List.foldl_cons, ← writes, hturns', hturns]
    simp

@[simp]
theorem writes_dreamContainers (d : Device) (ws : List Write) :
  (d.writes ws).app.dreamContainers = d.app.dreamContainers
  := by
  obtain ⟨turns, h⟩ := writes_app d ws
  rw [h]

@[simp]
theorem writes_alert (d : Device) (ws : List Write) :
  (d.writes ws).app.alert = d.app.alert
  := by
  obtain ⟨turns, h⟩ := writes_app d ws
  rw [h]

/-- Readable writes keep `Tracks`. -/
theorem tracks_writes {d : Device} {ws : List Write}
    (htracks : App.Tracks d.node d.app) (hreadable : Readable d.node ws) :
  App.Tracks (d.writes ws).node (d.writes ws).app
  := by
  induction ws generalizing d with
  | nil => exact htracks
  | cons w ws ih =>
    rw [writes, List.foldl_cons, ← writes]
    apply ih
    · rw [write]
      split
      · exact htracks
      · obtain ⟨l, hl⟩ := hreadable.2.store
        rw [hl]
        apply htracks.notify
    · rw [write_node]
      exact hreadable.2

/-- If the main queue of an observing app is empty after writes, none of them changed
the node. -/
theorem writes_idle {a : App} {node : Node} {ws ws' : List Write} (hobservers : 0 < a.observers)
    (hqueue : (writes ⟨a, node⟩ ws).app.mainQueue = []) (hpre : ws' <+: ws) :
  Write.applyAll node ws' = node
  := by
  induction ws generalizing ws' with
  | nil =>
    rw [List.prefix_nil.mp hpre]
    rfl
  | cons w ws ih =>
    rw [writes, List.foldl_cons, ← writes] at hqueue
    have hidle : w.apply node = node := by
      by_contra hne
      obtain ⟨turns, hturns⟩ := writes_app (write ⟨a, node⟩ w) ws
      rw [hturns] at hqueue
      simp only [List.append_eq_nil_iff] at hqueue
      have hwrite := hqueue.1
      rw [write, if_neg hne] at hwrite
      simp only [App.notify, List.append_eq_nil_iff, List.replicate_eq_nil_iff] at hwrite
      omega
    rw [write, if_pos hidle] at hqueue
    cases ws' with
    | nil => rfl
    | cons w' ws' =>
      obtain ⟨rfl, hpre'⟩ := List.cons_prefix_cons.mp hpre
      rw [Write.applyAll_cons, hidle]
      apply ih hqueue hpre'

@[simp]
theorem perform_node (d : Device) (op : Op) :
  (d.perform op).node = Write.applyAll d.node (d.app.perform op).2
  := writes_node _ _

@[simp]
theorem perform_dreamContainers (d : Device) (op : Op) :
  (d.perform op).app.dreamContainers = (d.app.perform op).1.dreamContainers
  := writes_dreamContainers _ _

@[simp]
theorem perform_alert (d : Device) (op : Op) :
  (d.perform op).app.alert = (d.app.perform op).1.alert
  := writes_alert _ _

end Device

end ForDream

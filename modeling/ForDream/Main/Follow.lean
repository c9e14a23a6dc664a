import ForDream.Device.Sequential
import ForDream.Main

/-!
# Screens that follow the node

A screen that registers an observer is told of every change of the node after it.  Its
deliveries wait in the main queue among those to other screens, and a snapshot may be
outdated when it is delivered; but then another delivery to the screen is pending behind
it.  Once none is pending any more, the container and what the screen shows of it come
from the node as it is.

The search screens are numbered as they are opened, so that the observer of a screen that
is left is not taken for that of a new one.
-/

namespace ForDream

open Model

namespace MainVC

/-! ### Deliveries to one screen -/

/-- The screen a block is about. -/
def Block.screen : Block → Screen
  | .value screen _ => screen
  | .fetchContainers screen => screen

/-- A delivery to a screen is pending. -/
def Pending (screen : Screen) (queue : List Block) : Prop :=
  ∃ b ∈ queue, b.screen = screen

/-- Every snapshot after which no delivery to the screen is pending is of the node. -/
def Fresh (screen : Screen) (node : Node) : List Block → Prop
  | [] => True
  | .value _ snapshot :: queue =>
      (Pending screen queue ∨ snapshot = node) ∧ Fresh screen node queue
  | .fetchContainers _ :: queue => Fresh screen node queue

/-- The block delivers the node, now or when it runs. -/
def Block.Delivers (node : Node) (b : Block) : Prop :=
  ∀ screen snapshot, b = .value screen snapshot → snapshot = node

variable {screen : Screen} {node : Node} {queue queue' : List Block}

theorem not_pending_nil :
  ¬ Pending screen []
  := by
  rintro ⟨b, hb, -⟩
  cases hb

theorem Pending.append_left (h : Pending screen queue) (queue' : List Block) :
  Pending screen (queue ++ queue')
  := by
  obtain ⟨b, hb, hscreen⟩ := h
  use b, List.mem_append_left _ hb

theorem Pending.append_right (queue : List Block) (h : Pending screen queue') :
  Pending screen (queue ++ queue')
  := by
  obtain ⟨b, hb, hscreen⟩ := h
  use b, List.mem_append_right _ hb

/-- Blocks that deliver the node are fresh. -/
theorem fresh_of_delivers (h : ∀ b ∈ queue, b.Delivers node) :
  Fresh screen node queue
  := by
  induction queue with
  | nil => trivial
  | cons b queue ih =>
    have hqueue : Fresh screen node queue := by
      apply ih
      intro b' hb'
      apply h b' (List.mem_cons_of_mem _ hb')
    cases b with
    | value screen' snapshot =>
      use .inr (h _ (by simp) screen' snapshot rfl)
    | fetchContainers screen' => exact hqueue

/-- Blocks that deliver the node may follow. -/
theorem Fresh.append (h : Fresh screen node queue) (h' : ∀ b ∈ queue', b.Delivers node) :
  Fresh screen node (queue ++ queue')
  := by
  induction queue with
  | nil => exact fresh_of_delivers h'
  | cons b queue ih =>
    cases b with
    | value screen' snapshot =>
      use h.1.imp_left fun hpending => hpending.append_left queue'
      exact ih h.2
    | fetchContainers screen' => exact ih h

/-- Whatever the blocks before were for, a delivery to the screen makes up for them. -/
theorem fresh_append_of_pending (hpending : Pending screen queue')
    (h' : ∀ b ∈ queue', b.Delivers node) :
  Fresh screen node (queue ++ queue')
  := by
  induction queue with
  | nil => exact fresh_of_delivers h'
  | cons b queue ih =>
    cases b with
    | value screen' snapshot =>
      use .inl (hpending.append_right queue)
      exact ih
    | fetchContainers screen' => exact ih

/-! ### Screens that follow the node -/

/-- A screen showing a list follows the node: it is told of every change, and once no
delivery to it is pending, the container and the list hold only dreams read from the
node. -/
structure Follows (P : Platform) (screen : Screen) (shown : List Dream) (m : MainVC) : Prop where
  /-- The observer of the screen is registered or about to be. -/
  observed : screen ∈ m.observers ∨ .fetchContainers screen ∈ m.mainQueue
  fresh : screen ∈ m.observers → Fresh screen m.node m.mainQueue
  current : ¬ Pending screen m.mainQueue → ∀ content, fetched P.sorter m.node = some content →
    m.dreamContainers ⊆ content ∧ shown ⊆ content

variable {P : Platform} {shown shown' : List Dream} {m t : MainVC}

/-- With nothing pending, the container and the list hold dreams of the node. -/
theorem Follows.subset (h : Follows P screen shown m) (hqueue : m.mainQueue = [])
    {content : List Dream} (hcontent : fetched P.sorter m.node = some content) :
  m.dreamContainers ⊆ content ∧ shown ⊆ content
  := by
  apply h.current _ content hcontent
  rw [hqueue]
  apply not_pending_nil

/-- The screen may show what it showed before or what the container holds. -/
theorem Follows.show (h : Follows P screen shown m)
    (hshown : ∀ dream ∈ shown', dream ∈ m.dreamContainers ∨ dream ∈ shown) :
  Follows P screen shown' m
  where
  observed := h.observed
  fresh := h.fresh
  current hpending content hcontent := by
    obtain ⟨hcontainer, hold⟩ := h.current hpending content hcontent
    use hcontainer
    intro dream hdream
    rcases hshown dream hdream with hmem | hmem
    · apply hcontainer hmem
    · apply hold hmem

/-- The screen may show the container, or nothing, or what it showed. -/
theorem Follows.reshow (h : Follows P screen shown m)
    (hshown : shown' = m.dreamContainers ∨ shown' = [] ∨ shown' = shown) :
  Follows P screen shown' m
  := by
  apply h.show
  intro dream hdream
  rcases hshown with rfl | rfl | rfl
  · exact .inl hdream
  · cases hdream
  · exact .inr hdream

/-- Taking dreams out of the container, and dispatching calls of `fetchContainers`, keeps
a screen following the node. -/
theorem Follows.shrink (h : Follows P screen shown m) (hnode : t.node = m.node)
    (hobservers : t.observers = m.observers) (calls : List Block)
    (hqueue : t.mainQueue = m.mainQueue ++ calls) (hcalls : ∀ b ∈ calls, b.Delivers m.node)
    (hcontainer : t.dreamContainers ⊆ m.dreamContainers) :
  Follows P screen shown t
  where
  observed := by
    rw [hobservers, hqueue, List.mem_append]
    exact h.observed.imp_right Or.inl
  fresh hmem := by
    rw [hobservers] at hmem
    rw [hnode, hqueue]
    apply (h.fresh hmem).append hcalls
  current hpending content hcontent := by
    rw [hnode] at hcontent
    rw [hqueue] at hpending
    have hbefore : ¬ Pending screen m.mainQueue := fun hp => hpending (hp.append_left calls)
    obtain ⟨hsubset, hshown⟩ := h.current hbefore content hcontent
    constructor
    · intro dream hdream
      apply hsubset (hcontainer hdream)
    · exact hshown

/-- A change of the node keeps a screen following it. -/
theorem Follows.setNode (h : Follows P screen shown m) (node : Node) :
  Follows P screen shown (m.setNode node)
  := by
  rw [MainVC.setNode]
  split
  · exact h
  · have hdelivers : ∀ b ∈ m.observers.map (Block.value · node), b.Delivers node := by
      intro b hb
      obtain ⟨screen', -, rfl⟩ := List.mem_map.mp hb
      rintro _ _ ⟨⟩
      rfl
    have hvalue : screen ∈ m.observers →
        Pending screen (m.observers.map (Block.value · node)) := by
      intro hmem
      use .value screen node, List.mem_map_of_mem hmem
      rfl
    constructor
    · exact h.observed.imp_right fun hmem => List.mem_append_left _ hmem
    · intro hmem
      apply fresh_append_of_pending (hvalue hmem) hdelivers
    · -- Whether or not the observer is registered, a delivery to it is pending now.
      intro hpending
      exfalso
      apply hpending
      rcases h.observed with hmem | hmem
      · apply (hvalue hmem).append_right
      · use .fetchContainers screen, List.mem_append_left _ hmem
        rfl

theorem Follows.writes (h : Follows P screen shown m) (ws : List Write) :
  Follows P screen shown (m.writes ws)
  := by
  induction ws generalizing m with
  | nil => exact h
  | cons w ws ih =>
    rw [MainVC.writes, List.foldl_cons, ← MainVC.writes]
    apply ih (h.setNode _)

/-- An operation keeps a screen following the node. -/
theorem Follows.perform (h : Follows P screen shown m) (op : Op) :
  Follows P screen shown (m.perform op)
  := by
  rw [perform_eq_writes]
  apply Follows.writes
  apply Follows.shrink h _ _ (m.dispatched op)
  · rfl
  · intro b hb screen' snapshot heq
    subst heq
    cases op <;> simp [dispatched] at hb
  · apply m.app.perform_subset op
  · rfl
  · rfl

/-- A delivery keeps a screen following the node; if it is to the screen, it may show the
container afterwards, and otherwise shows what it showed. -/
theorem Follows.deliver (h : Follows P screen shown m) {screen' : Screen} {snapshot : Node}
    (hqueue : m.mainQueue = .value screen' snapshot :: queue) {container : List Dream}
    (hcontainer : fetched P.sorter snapshot = some container)
    (hshown : shown' = container ∨ shown' = [] ∨ (shown' = shown ∧ screen' ≠ screen)) :
  Follows P screen shown'
    ({ m with dreamContainers := container, mainQueue := queue }.loadingIsFinished screen')
  := by
  have hfields : ∀ n : MainVC, (n.loadingIsFinished screen').node = n.node
      ∧ (n.loadingIsFinished screen').observers = n.observers
      ∧ (n.loadingIsFinished screen').mainQueue = n.mainQueue
      ∧ (n.loadingIsFinished screen').dreamContainers = n.dreamContainers := by
    intro n
    cases screen' <;> exact ⟨rfl, rfl, rfl, rfl⟩
  obtain ⟨hnode, hobservers, hrest, hread⟩ :=
    hfields { m with dreamContainers := container, mainQueue := queue }
  have hobserved : screen ∈ m.observers ∨ .fetchContainers screen ∈ queue := by
    rcases h.observed with hmem | hmem
    · exact .inl hmem
    · rw [hqueue] at hmem
      exact .inr (by simpa using hmem)
  have hfresh : screen ∈ m.observers →
      (Pending screen queue ∨ snapshot = m.node) ∧ Fresh screen m.node queue := by
    intro hmem
    have hfresh := h.fresh hmem
    rw [hqueue] at hfresh
    exact hfresh
  constructor
  · rw [hobservers, hrest]
    exact hobserved
  · rw [hobservers, hrest, hnode]
    intro hmem
    exact (hfresh hmem).2
  · rw [hrest, hnode, hread]
    intro hpending content hcontent
    have hmem : screen ∈ m.observers := by
      apply hobserved.resolve_right
      intro hmem
      apply hpending
      use .fetchContainers screen, hmem
      rfl
    -- Nothing is pending for the screen, so the snapshot is of the node.
    obtain rfl : snapshot = m.node := (hfresh hmem).1.resolve_left hpending
    obtain rfl : container = content := Option.some.inj (hcontainer.symm.trans hcontent)
    constructor
    · apply List.Subset.refl
    · rcases hshown with rfl | rfl | ⟨rfl, hne⟩
      · apply List.Subset.refl
      · apply List.nil_subset
      · refine (h.current ?_ _ hcontent).2
        rw [hqueue]
        rintro ⟨b, hb, hscreen⟩
        rcases List.mem_cons.mp hb with rfl | hb
        · exact hne hscreen
        · exact hpending ⟨b, hb, hscreen⟩

/-- Registering an observer keeps a screen following the node. -/
theorem Follows.register (h : Follows P screen shown m) {screen' : Screen}
    (hqueue : m.mainQueue = .fetchContainers screen' :: queue) {k : ℕ} (hk : 0 < k) :
  Follows P screen shown
    { m with
      observers := m.observers ++ [screen']
      mainQueue := queue ++ List.replicate k (.value screen' m.node) }
  := by
  have hdelivers : ∀ b ∈ List.replicate k (Block.value screen' m.node), b.Delivers m.node := by
    intro b hb
    rw [List.eq_of_mem_replicate hb]
    rintro _ _ ⟨⟩
    rfl
  have hvalue : Pending screen' (List.replicate k (Block.value screen' m.node)) := by
    use .value screen' m.node
    constructor
    · exact List.mem_replicate.mpr ⟨by omega, rfl⟩
    · rfl
  constructor
  · rcases h.observed with hmem | hmem
    · exact .inl (List.mem_append_left _ hmem)
    · rw [hqueue, List.mem_cons, Block.fetchContainers.injEq] at hmem
      rcases hmem with rfl | hmem
      · left
        simp
      · exact .inr (List.mem_append_left _ hmem)
  · intro hmem
    rcases List.mem_append.mp hmem with hmem | hmem
    · have hfresh := h.fresh hmem
      rw [hqueue] at hfresh
      apply Fresh.append hfresh hdelivers
    · obtain rfl := List.mem_singleton.mp hmem
      apply fresh_append_of_pending hvalue hdelivers
  · intro hpending
    apply h.current
    rw [hqueue]
    rintro ⟨b, hb, hscreen⟩
    apply hpending
    rcases List.mem_cons.mp hb with rfl | hb
    · obtain rfl : screen' = screen := hscreen
      apply hvalue.append_right
    · use b, List.mem_append_left _ hb

/-- A turn keeps a screen following the node; if it is a delivery to the screen, it may
show the container afterwards, and otherwise shows what it showed. -/
theorem Follows.turn (h : Follows P screen shown m) (hturn : m.turn P = some t)
    (hshown : shown' = t.dreamContainers ∨ shown' = []
      ∨ (shown' = shown ∧ ∀ snapshot queue, m.mainQueue ≠ .value screen snapshot :: queue)) :
  Follows P screen shown' t
  := by
  have hshow : shown' = t.dreamContainers ∨ shown' = [] ∨ shown' = shown :=
    hshown.imp_right fun h => h.imp_right And.left
  rcases turn_cases hturn with
    ⟨-, rfl⟩ | ⟨screen', snapshot, queue, container, hqueue, hcontainer, rfl⟩ |
      ⟨screen', queue, hqueue, rfl⟩
  · apply h.reshow hshow
  · apply h.deliver hqueue hcontainer
    rcases hshown with rfl | rfl | ⟨rfl, hne⟩
    · left
      cases screen' <;> rfl
    · right
      left
      rfl
    · right
      right
      use rfl
      rintro rfl
      apply hne snapshot queue hqueue
  · apply (h.register hqueue (P.initial_pos _)).reshow hshow

/-- Every event keeps a screen following the node. -/
theorem Follows.step (h : Follows P screen shown m) {e : Event} (hstep : m.step P e = some t)
    (hshown : shown' = t.dreamContainers ∨ shown' = [] ∨ (shown' = shown
      ∧ (e = .turn → ∀ snapshot queue, m.mainQueue ≠ .value screen snapshot :: queue))) :
  Follows P screen shown' t
  := by
  have hshow : shown' = t.dreamContainers ∨ shown' = [] ∨ shown' = shown :=
    hshown.imp_right fun h => h.imp_right And.left
  rcases step_cases hstep with
    ⟨-, swiped, rfl⟩ | ⟨removeDream, row, -, -, -, rfl⟩ | ⟨op, rfl, rfl⟩ | ⟨rfl, hturn⟩ |
      ⟨node, rfl, rfl⟩
  · apply Follows.reshow _ hshow
    exact ⟨h.observed, h.fresh, h.current⟩
  · apply Follows.reshow _ hshow
    apply Follows.writes
    apply Follows.shrink h _ _ []
    · simp
    · simp
    · intro dream hdream
      exact (mem_remaining.mp hdream).1
    · rfl
    · rfl
  · apply (h.perform op).reshow hshow
  · apply h.turn hturn
    exact hshown.imp_right fun h => h.imp_right fun ⟨heq, hne⟩ => ⟨heq, hne rfl⟩
  · apply (h.setNode node).reshow hshow

theorem follows_viewDidLoad (P : Platform) (node : Node) :
  Follows P .main [] (viewDidLoad node)
  where
  observed := by simp [viewDidLoad]
  fresh := by simp [viewDidLoad]
  current := by
    intro _ content _
    simp [viewDidLoad]

/-! ### Search screens -/

/-- The search screens that observe the node, or are about to, are among those opened. -/
def Numbered (m : MainVC) : Prop :=
  ∀ index, .search index ∈ m.observers ∨ .fetchContainers (.search index) ∈ m.mainQueue →
    index < m.searches

theorem Numbered.setNode (h : m.Numbered) (node : Node) :
  (m.setNode node).Numbered ∧ (m.setNode node).searches = m.searches
  := by
  rw [MainVC.setNode]
  split
  · exact ⟨h, rfl⟩
  · constructor
    · rintro index (hmem | hmem)
      · exact h index (.inl hmem)
      · apply h index
        right
        simpa using hmem
    · rfl

theorem Numbered.writes (h : m.Numbered) (ws : List Write) :
  (m.writes ws).Numbered ∧ (m.writes ws).searches = m.searches
  := by
  induction ws generalizing m with
  | nil => exact ⟨h, rfl⟩
  | cons w ws ih =>
    obtain ⟨hnumbered, hsearches⟩ := h.setNode (w.apply m.node)
    rw [MainVC.writes, List.foldl_cons, ← MainVC.writes, ← hsearches]
    apply ih hnumbered

theorem Numbered.perform (h : m.Numbered) (op : Op) :
  (m.perform op).Numbered ∧ (m.perform op).searches = m.opened op
  := by
  rw [perform_eq_writes]
  apply Numbered.writes
  rintro index (hmem | hmem)
  · apply Nat.lt_of_lt_of_le (h index (.inl hmem))
    cases op <;> simp [opened]
  · rcases List.mem_append.mp hmem with hmem | hmem
    · apply Nat.lt_of_lt_of_le (h index (.inr hmem))
      cases op <;> simp [opened]
    · cases op <;> simp_all [dispatched, opened]

theorem Numbered.turn (h : m.Numbered) (hturn : m.turn P = some t) :
  t.Numbered ∧ t.searches = m.searches
  := by
  rcases turn_cases hturn with
    ⟨-, rfl⟩ | ⟨screen', snapshot, queue, container, hqueue, -, rfl⟩ |
      ⟨screen', queue, hqueue, rfl⟩
  · exact ⟨h, rfl⟩
  · have htail : ∀ index, .search index ∈ m.observers
        ∨ .fetchContainers (.search index) ∈ queue → index < m.searches := by
      rintro index (hmem | hmem)
      · exact h index (.inl hmem)
      · apply h index
        right
        rw [hqueue]
        exact List.mem_cons_of_mem _ hmem
    cases screen' <;> exact ⟨htail, rfl⟩
  · constructor
    · rintro index (hmem | hmem)
      · apply h index
        rcases List.mem_append.mp hmem with hmem | hmem
        · exact .inl hmem
        · right
          rw [hqueue, List.mem_singleton.mp hmem]
          simp
      · apply h index
        right
        rw [hqueue]
        apply List.mem_cons_of_mem
        simpa using hmem
    · rfl

/-- The number of search screens opened after an event. -/
def openedBy (m : MainVC) : Event → ℕ
  | .op op => m.opened op
  | _ => m.searches

/-- Every event numbers the search screens on. -/
theorem Numbered.step (h : m.Numbered) {e : Event} (hstep : m.step P e = some t) :
  t.Numbered ∧ t.searches = m.openedBy e
  := by
  rcases step_cases hstep with
    ⟨he, swiped, rfl⟩ | ⟨removeDream, row, rfl, -, -, rfl⟩ | ⟨op, rfl, rfl⟩ | ⟨rfl, hturn⟩ |
      ⟨node, rfl, rfl⟩
  · use h
    rcases he with rfl | rfl | ⟨row, rfl⟩ <;> rfl
  · apply Numbered.writes
    exact h
  · apply h.perform
  · apply h.turn hturn
  · apply h.setNode

/-- A search screen that opens follows the node. -/
theorem Numbered.open (h : m.Numbered) (shown : List Dream) :
  Follows P (.search m.searches) shown (m.perform .fetchContainers)
  := by
  have hcall : .fetchContainers (.search m.searches)
      ∈ (m.perform .fetchContainers).mainQueue := by
    simp [perform_eq_writes, App.perform, MainVC.writes, dispatched]
  constructor
  · exact .inr hcall
  · intro hmem
    exact absurd (h m.searches (.inl hmem)) (Nat.lt_irrefl _)
  · intro hpending
    exfalso
    apply hpending
    use .fetchContainers (.search m.searches), hcall
    rfl

/-! ### Delivering everything -/

theorem writes_node (m : MainVC) (ws : List Write) :
  (m.writes ws).node = Write.applyAll m.node ws
  := by
  induction ws generalizing m with
  | nil => rfl
  | cons w ws ih =>
    have hnode : (m.setNode (w.apply m.node)).node = w.apply m.node := by
      rw [setNode]
      split
      · symm
        assumption
      · rfl
    rw [writes, List.foldl_cons, ← writes, ih, hnode, Write.applyAll_cons]

theorem turn_node (h : m.turn P = some t) :
  t.node = m.node
  := by
  rcases turn_cases h with ⟨-, rfl⟩ | ⟨screen', _, _, _, -, -, rfl⟩ | ⟨_, _, -, rfl⟩
  · rfl
  · cases screen' <;> rfl
  · rfl

/-- Removing the dreams of a date leaves the others in the node. -/
theorem perform_removeAction_node (m : MainVC) (removeDream : Dream) :
  (m.perform (.removeAction removeDream)).node = store (remaining m.dreamContainers removeDream)
  := by
  rw [perform_eq_writes, writes_node]
  apply applyAll_updateAction

/-- Every snapshot enqueued can be read. -/
def Readable (P : Platform) (m : MainVC) : Prop :=
  ∀ screen snapshot, .value screen snapshot ∈ m.mainQueue → (fetched P.sorter snapshot).isSome

/-- Writes enqueue snapshots of the nodes on the way. -/
theorem Readable.writes (h : m.Readable P) {ws : List Write}
    (hws : ∀ k, (fetched P.sorter (Write.applyAll m.node (ws.take (k + 1)))).isSome) :
  (m.writes ws).Readable P
  := by
  induction ws generalizing m with
  | nil => exact h
  | cons w ws ih =>
    rw [MainVC.writes, List.foldl_cons, ← MainVC.writes]
    have hnode : (m.setNode (w.apply m.node)).node = w.apply m.node :=
      m.writes_node [w]
    apply ih
    · rw [setNode]
      split
      · exact h
      · intro screen snapshot hmem
        rcases List.mem_append.mp hmem with hmem | hmem
        · apply h screen snapshot hmem
        · obtain ⟨_, -, heq⟩ := List.mem_map.mp hmem
          obtain ⟨-, rfl⟩ := Block.value.inj heq
          apply hws 0
    · intro k
      rw [hnode]
      apply hws (k + 1)

/-- Removing the dreams of a date enqueues snapshots that can be read. -/
theorem Readable.perform_removeAction (h : m.Readable P) (removeDream : Dream) :
  (m.perform (.removeAction removeDream)).Readable P
  := by
  rw [perform_eq_writes]
  apply Readable.writes
  · simpa [Readable, dispatched] using h
  · intro k
    have htake := applyAll_take_updateAction m.node (remaining m.dreamContainers removeDream) k
    rw [show (m.app.perform (.removeAction removeDream)).2
      = updateAction (remaining m.dreamContainers removeDream) from rfl, htake, fetched_store]
    rfl

/-- The block, without the screen it is about. -/
def Block.turn : Block → Turn
  | .value _ snapshot => .value snapshot
  | .fetchContainers _ => .fetchContainers

/-- The number of turns until the main queue is empty. -/
def turnsLeft (P : Platform) (m : MainVC) : ℕ :=
  Device.pending P m.observers.length (m.mainQueue.map Block.turn)

/-- If the node and the snapshots enqueued can be read, a turn does not trap, and takes one
off the number of turns left. -/
theorem Readable.turn (h : m.Readable P) (hnode : (fetched P.sorter m.node).isSome)
    (hqueue : m.mainQueue ≠ []) :
  ∃ t, m.turn P = some t ∧ t.Readable P ∧ turnsLeft P t + 1 = turnsLeft P m
  := by
  rw [MainVC.turn]
  split
  · contradiction
  next screen snapshot queue heq =>
    obtain ⟨container, hcontainer⟩ := Option.isSome_iff_exists.mp
      (h screen snapshot (by simp [heq]))
    use { m with dreamContainers := container, mainQueue := queue }.loadingIsFinished screen
    constructor
    · simp [hcontainer]
    · have htail : ∀ screen' snapshot', .value screen' snapshot' ∈ queue →
          (fetched P.sorter snapshot').isSome := by
        intro screen' snapshot' hmem
        apply h screen' snapshot'
        rw [heq]
        exact List.mem_cons_of_mem _ hmem
      have hleft : Device.pending P m.observers.length (queue.map Block.turn) + 1
          = turnsLeft P m := by
        rw [turnsLeft, heq]
        rfl
      cases screen <;> exact ⟨htail, hleft⟩
  next screen queue heq =>
    use { m with
      observers := m.observers ++ [screen]
      mainQueue := queue
        ++ List.replicate (P.initial (m.observers.length + 1)) (.value screen m.node) }, rfl
    constructor
    · intro screen' snapshot' hmem
      rcases List.mem_append.mp hmem with hmem | hmem
      · apply h screen' snapshot'
        rw [heq]
        exact List.mem_cons_of_mem _ hmem
      · obtain ⟨-, rfl⟩ := Block.value.inj (List.eq_of_mem_replicate hmem)
        exact hnode
    · simp only [turnsLeft, heq, List.map_append, List.map_replicate, List.map_cons, Block.turn,
        List.length_append, List.length_singleton, Device.pending_append_replicate,
        Device.pending]
      omega

end MainVC

end ForDream

import ForDream.Search.Screen
import ForDream.Lib.Machine

/-!
# Runs of the search screen

The observer `viewDidLoad` registers replaces the list shown by the container whenever a
snapshot is delivered to it; the observers of `refresh` and of other screens do not touch
the list.

A run of the screen keeps the list in step with the controls if, as long as no further
delivery to the observer of `viewDidLoad` is pending, the text is typed only into an up
to date container, and the other controls change only while the text is empty.
-/

namespace ForDream

open Model

/-- The observers of the node: the one `SearchVC.viewDidLoad` registers, those of
`SearchVC.refresh`, and those of other screens. -/
inductive Observer where
  | viewDidLoad
  | refresh
  | other
  deriving DecidableEq

/-- What an observer does after the container was read: `loadingIsFinished`. -/
def Observer.loadingIsFinished : Observer → SearchVC → SearchVC
  | .viewDidLoad, v => { v with filterdDream := v.dreamContainers }
  | .refresh, v => v
  | .other, v => v

/-- A block of the main queue: the delivery of a snapshot to an observer, or the call of
`fetchContainers` that registers it. -/
inductive Search.Block where
  | value (observer : Observer) (snapshot : Node)
  | fetchContainers (observer : Observer)

/-- The search screen on its node. -/
structure Search where
  screen : SearchVC
  node : Node
  observers : List Observer
  mainQueue : List Search.Block

namespace Search

/-- What happens: the handlers of the screen, a turn of the main queue, and a change of
the node. -/
inductive Event where
  | textDidChange (searchText : String)
  | alignOptionBtnAction (selected : Option AlignOption)
  | dateOptionBtnAction (selectedDate : Option String)
  | searchBarCancelButtonClicked
  | searchBarSearchButtonClicked
  | refresh
  | turn
  | setValue (node : Node)

/-- The screen opens on the container, shows all of it, and dispatches a call of
`fetchContainers`.  The observers of `MainVC` and of `others` more screens are there
already, and some snapshots are still to be delivered to them. -/
def viewDidLoad (dreamContainers : List Dream) (node : Node) (others : ℕ)
    (undelivered : List Node) : Search where
  screen := { dreamContainers, filterdDream := dreamContainers }
  node := node
  observers := List.replicate (others + 1) .other
  mainQueue := undelivered.map (.value .other) ++ [.fetchContainers .viewDidLoad]

/-- The container is emptied, and a call of `fetchContainers` dispatched. -/
def refresh (s : Search) : Search :=
  { s with
    screen := { s.screen with dreamContainers := [] }
    mainQueue := s.mainQueue ++ [.fetchContainers .refresh] }

/-- The node changes, and a snapshot is enqueued for every observer if it is another
one. -/
def setValue (s : Search) (node : Node) : Search :=
  if node = s.node then s
  else { s with node := node, mainQueue := s.mainQueue ++ s.observers.map (.value · node) }

/-- Run the first block of the main queue. -/
def turn (P : SearchPlatform) (s : Search) : Option Search :=
  match s.mainQueue with
  | [] => some s
  | .value observer snapshot :: queue =>
      (fetched P.sorter snapshot).map fun container =>
        { s with
          screen := observer.loadingIsFinished { s.screen with dreamContainers := container }
          mainQueue := queue }
  | .fetchContainers observer :: queue =>
      some { s with
        observers := s.observers ++ [observer]
        mainQueue := queue ++ [.value observer s.node] }

/-- The state after an event, unless a callback traps. -/
def step (P : SearchPlatform) (s : Search) : Event → Option Search
  | .textDidChange searchText => some { s with screen := s.screen.textDidChange P searchText }
  | .alignOptionBtnAction selected =>
      some { s with screen := s.screen.alignOptionBtnAction selected }
  | .dateOptionBtnAction selectedDate =>
      some { s with screen := s.screen.dateOptionBtnAction selectedDate }
  | .searchBarCancelButtonClicked =>
      some { s with screen := s.screen.searchBarCancelButtonClicked }
  | .searchBarSearchButtonClicked =>
      some { s with screen := s.screen.searchBarSearchButtonClicked }
  | .refresh => some s.refresh
  | .turn => s.turn P
  | .setValue node => some (s.setValue node)

/-- Once the main queue is empty, the list is what `textDidChange` would compute from the
text, the titles and the container. -/
def InStep (P : SearchPlatform) (s : Search) : Prop :=
  s.mainQueue = [] → s.screen.filterdDream = s.screen.computed P s.screen.text

/-! ### Runs that stay in step -/

/-- The observer a block is about. -/
def Block.observer : Block → Observer
  | .value observer _ => observer
  | .fetchContainers observer => observer

/-- The snapshot a block delivers to the observer of `viewDidLoad`. -/
def Block.reload? : Block → Option Node
  | .value .viewDidLoad snapshot => some snapshot
  | _ => none

/-- A delivery to the observer of `viewDidLoad` is pending. -/
def Reloads (queue : List Block) : Prop :=
  ∃ b ∈ queue, b.observer = .viewDidLoad

instance (queue : List Block) : Decidable (Reloads queue) :=
  inferInstanceAs (Decidable (∃ b ∈ queue, b.observer = .viewDidLoad))

/-- Unless the list will still be replaced, text is typed only into an up to date
container, and the other controls change only while the text is empty; the last delivery
to the observer of `viewDidLoad` finds the text empty. -/
def Careful (P : SearchPlatform) (s : Search) : Event → Prop
  | .textDidChange _ => Reloads s.mainQueue
      ∨ fetched P.sorter s.node = some s.screen.dreamContainers
  | .alignOptionBtnAction selected => Reloads s.mainQueue
      ∨ s.screen.text = "" ∨ SearchVC.alignTitleOf selected = s.screen.alignTitle
  | .dateOptionBtnAction selectedDate => Reloads s.mainQueue
      ∨ s.screen.text = "" ∨ SearchVC.dateTitleOf selectedDate = s.screen.dateTitle
  | .searchBarCancelButtonClicked => Reloads s.mainQueue ∨ s.screen.text = ""
  | .searchBarSearchButtonClicked => Reloads s.mainQueue ∨ s.screen.text = ""
  | .turn => ∀ b ∈ s.mainQueue.head?, b.reload?.isSome →
      Reloads s.mainQueue.tail ∨ s.screen.text = ""
  | .refresh | .setValue _ => True

instance (P : SearchPlatform) (s : Search) : ∀ e, Decidable (s.Careful P e)
  | .textDidChange _ => inferInstanceAs (Decidable (Reloads s.mainQueue
      ∨ fetched P.sorter s.node = some s.screen.dreamContainers))
  | .alignOptionBtnAction selected => inferInstanceAs (Decidable (Reloads s.mainQueue
      ∨ s.screen.text = "" ∨ SearchVC.alignTitleOf selected = s.screen.alignTitle))
  | .dateOptionBtnAction selectedDate => inferInstanceAs (Decidable (Reloads s.mainQueue
      ∨ s.screen.text = "" ∨ SearchVC.dateTitleOf selectedDate = s.screen.dateTitle))
  | .searchBarCancelButtonClicked =>
      inferInstanceAs (Decidable (Reloads s.mainQueue ∨ s.screen.text = ""))
  | .searchBarSearchButtonClicked =>
      inferInstanceAs (Decidable (Reloads s.mainQueue ∨ s.screen.text = ""))
  | .turn => inferInstanceAs (Decidable (∀ b ∈ s.mainQueue.head?, b.reload?.isSome →
      Reloads s.mainQueue.tail ∨ s.screen.text = ""))
  | .refresh => inferInstanceAs (Decidable True)
  | .setValue _ => inferInstanceAs (Decidable True)

/-- The main queue brings the container up to date with the node, and the list in step
with the controls. -/
structure Consistent (P : SearchPlatform) (s : Search) : Prop where
  /-- Snapshots are delivered to registered observers. -/
  registered : ∀ observer snapshot, .value observer snapshot ∈ s.mainQueue →
    observer ∈ s.observers
  /-- The last block brings the container up to date. -/
  last : ∀ b ∈ s.mainQueue.getLast?,
    ∃ observer, b = .value observer s.node ∨ b = .fetchContainers observer
  settled : s.mainQueue = [] → fetched P.sorter s.node = some s.screen.dreamContainers
  /-- The observer of `viewDidLoad` is registered or about to be. -/
  observed : .viewDidLoad ∈ s.observers ∨ .fetchContainers .viewDidLoad ∈ s.mainQueue
  /-- The last snapshot delivered to it is the node. -/
  reload : ∀ snapshot ∈ (s.mainQueue.filterMap Block.reload?).getLast?, snapshot = s.node
  /-- If it is not to replace the list any more, the list is what will be computed from
  the container brought up to date. -/
  shown : Reloads s.mainQueue ∨ ∀ container, fetched P.sorter s.node = some container →
    s.screen.filterdDream
      = { s.screen with dreamContainers := container }.computed P s.screen.text

variable {P : SearchPlatform} {s : Search}

theorem consistent_viewDidLoad (P : SearchPlatform) (container : List Dream) (node : Node)
    (others : ℕ) (undelivered : List Node) :
  Consistent P (viewDidLoad container node others undelivered)
  where
  registered := by simp [viewDidLoad]
  last := by simp [viewDidLoad]
  settled := by simp [viewDidLoad]
  observed := by simp [viewDidLoad]
  reload := by
    simp [viewDidLoad, Function.comp_def, Block.reload?]
  shown := by
    left
    use .fetchContainers .viewDidLoad
    simp [viewDidLoad, Block.observer]

/-- An event that changes only the controls and the list keeps the agreement, if it keeps
the list in step. -/
theorem Consistent.screen (h : Consistent P s) {v : SearchVC}
    (hcontainer : v.dreamContainers = s.screen.dreamContainers)
    (hshown : Reloads s.mainQueue ∨ ∀ container, fetched P.sorter s.node = some container →
      v.filterdDream = { v with dreamContainers := container }.computed P v.text) :
  Consistent P { s with screen := v }
  where
  registered := h.registered
  last := h.last
  settled := by
    rw [hcontainer]
    exact h.settled
  observed := h.observed
  reload := h.reload
  shown := hshown

/-- Changing the controls keeps the agreement, if the list will still be replaced, or the
text is empty and remains so. -/
theorem Consistent.controls (h : Consistent P s) {v : SearchVC}
    (hcontainer : v.dreamContainers = s.screen.dreamContainers)
    (hlist : v.filterdDream = s.screen.filterdDream)
    (hcareful : Reloads s.mainQueue ∨ (s.screen.text = "" ∧ v.text = "") ∨ v = s.screen) :
  Consistent P { s with screen := v }
  := by
  apply h.screen hcontainer
  rcases hcareful with hreloads | ⟨hempty, hempty'⟩ | rfl
  · left
    exact hreloads
  · rcases h.shown with hreloads | hshown
    · left
      exact hreloads
    · right
      intro container hcurrent
      have hfilterd := hshown container hcurrent
      rw [hempty, SearchVC.computed_empty] at hfilterd
      rw [hempty', SearchVC.computed_empty, hlist, hfilterd]
  · exact h.shown

/-- Emptying the container keeps the agreement. -/
theorem Consistent.refresh (h : Consistent P s) :
  Consistent P s.refresh
  where
  registered := by simpa [Search.refresh] using h.registered
  last := by simp [Search.refresh]
  settled := by simp [Search.refresh]
  observed := by simpa [Search.refresh] using h.observed
  reload := by simpa [Search.refresh, Block.reload?] using h.reload
  shown := by
    rcases h.shown with ⟨b, hb, hreload⟩ | hshown
    · left
      use b
      simp [Search.refresh, hb, hreload]
    · right
      exact hshown

/-- A block delivers a snapshot to the observer of `viewDidLoad` exactly if it is such a
delivery. -/
theorem Block.reload?_eq_some {b : Block} {snapshot : Node} :
  b.reload? = some snapshot ↔ b = .value .viewDidLoad snapshot
  := by
  rcases b with ⟨_ | _ | _, _⟩ | _ <;> simp [reload?]

/-- The snapshots of a change for the observer of `viewDidLoad` are of the new node. -/
theorem eq_of_reload {observers : List Observer} {node snapshot : Node}
    (h : snapshot ∈ (observers.map (Block.value · node)).filterMap Block.reload?) :
  snapshot = node
  := by
  obtain ⟨b, hb, hreload⟩ := List.mem_filterMap.mp h
  obtain ⟨observer, -, rfl⟩ := List.mem_map.mp hb
  rw [Block.reload?_eq_some] at hreload
  exact (Block.value.inj hreload).2.symm

/-- A change of the node keeps the agreement. -/
theorem Consistent.setValue (h : Consistent P s) (node : Node) :
  Consistent P (s.setValue node)
  := by
  rw [Search.setValue]
  split
  · exact h
  · -- Whether or not the observer of `viewDidLoad` is registered, it is still to be called.
    have hreloads : Reloads (s.mainQueue ++ s.observers.map (.value · node)) := by
      rcases h.observed with hmem | hmem
      · use .value .viewDidLoad node
        simp [hmem, Block.observer]
      · use .fetchContainers .viewDidLoad
        simp [hmem, Block.observer]
    constructor
    · intro observer snapshot hmem
      rcases List.mem_append.mp hmem with hmem | hmem
      · apply h.registered observer snapshot hmem
      · obtain ⟨observer', hobserver, heq⟩ := List.mem_map.mp hmem
        rw [← (Block.value.inj heq).1]
        exact hobserver
    · intro b hb
      rw [List.getLast?_append, Option.mem_def, Option.or_eq_some_iff] at hb
      rcases hb with hb | ⟨hnone, hb⟩
      · obtain ⟨observer, -, rfl⟩ := List.mem_map.mp (List.mem_of_getLast? hb)
        use observer
        left
        rfl
      · obtain ⟨observer, rfl | rfl⟩ := h.last b hb
        · have hmem := h.registered observer s.node (List.mem_of_getLast? hb)
          rw [List.getLast?_eq_none_iff, List.map_eq_nil_iff] at hnone
          rw [hnone] at hmem
          cases hmem
        · use observer
          right
          rfl
    · intro hempty
      obtain ⟨b, hb, -⟩ := hreloads
      dsimp only at hempty
      rw [hempty] at hb
      cases hb
    · rcases h.observed with hmem | hmem
      · left
        exact hmem
      · right
        apply List.mem_append_left _ hmem
    · intro snapshot hsnapshot
      rw [List.filterMap_append, List.getLast?_append, Option.mem_def,
        Option.or_eq_some_iff] at hsnapshot
      rcases hsnapshot with hsnapshot | ⟨hnone, hsnapshot⟩
      · apply eq_of_reload (List.mem_of_getLast? hsnapshot)
      · obtain ⟨b, hb, hreload⟩ := List.mem_filterMap.mp (List.mem_of_getLast? hsnapshot)
        rw [Block.reload?_eq_some] at hreload
        rw [hreload] at hb
        have hmem := h.registered .viewDidLoad snapshot hb
        rw [List.getLast?_eq_none_iff] at hnone
        have hnew : node ∈ (s.observers.map (Block.value · node)).filterMap Block.reload? := by
          rw [List.mem_filterMap]
          use .value .viewDidLoad node
          simp [hmem, Block.reload?]
        rw [hnone] at hnew
        cases hnew
    · left
      exact hreloads

/-- A snapshot for the observer of `viewDidLoad` is a pending delivery to it. -/
theorem reloads_of_mem {queue : List Block} {snapshot : Node}
    (h : snapshot ∈ queue.filterMap Block.reload?) :
  Reloads queue
  := by
  obtain ⟨b, hb, hreload⟩ := List.mem_filterMap.mp h
  rw [Block.reload?_eq_some] at hreload
  use b, hb
  rw [hreload]
  rfl

/-- Delivering a snapshot keeps the agreement, unless it replaces the list for the last
time while the text is not empty. -/
theorem Consistent.deliver (h : Consistent P s) {observer : Observer} {snapshot : Node}
    {queue : List Block} (hqueue : s.mainQueue = .value observer snapshot :: queue)
    (hcareful : observer = .viewDidLoad → Reloads queue ∨ s.screen.text = "")
    {container : List Dream} (hcontainer : fetched P.sorter snapshot = some container) :
  Consistent P
    { s with
      screen := observer.loadingIsFinished { s.screen with dreamContainers := container }
      mainQueue := queue }
  := by
  have hlast := h.last
  have hreload := h.reload
  have hshown := h.shown
  rw [hqueue] at hlast hreload hshown
  constructor
  · intro observer' snapshot' hmem
    apply h.registered observer' snapshot'
    rw [hqueue]
    apply List.mem_cons_of_mem _ hmem
  · intro b hb
    apply hlast b
    cases queue with
    | nil => cases hb
    | cons b' queue => simpa using hb
  · intro hempty
    dsimp only at hempty
    subst hempty
    obtain ⟨observer', heq | heq⟩ := hlast (.value observer snapshot) (by simp)
    · rw [← (Block.value.inj heq).2, hcontainer]
      cases observer <;> rfl
    · cases heq
  · rcases h.observed with hmem | hmem
    · left
      exact hmem
    · right
      rw [hqueue] at hmem
      simpa using hmem
  · intro snapshot' hsnapshot
    apply hreload snapshot'
    rw [List.filterMap_cons]
    split
    · exact hsnapshot
    · rw [List.getLast?_cons, Option.mem_def.mp hsnapshot]
      rfl
  · by_cases hreloads : Reloads queue
    · left
      exact hreloads
    · right
      cases observer with
      | viewDidLoad =>
        have hnone : queue.filterMap Block.reload? = [] := by
          rw [List.eq_nil_iff_forall_not_mem]
          intro snapshot' hmem
          apply hreloads (reloads_of_mem hmem)
        have hnode : snapshot = s.node := hreload snapshot (by simp [Block.reload?, hnone])
        have htext : s.screen.text = "" := (hcareful rfl).resolve_left hreloads
        intro container' hcontainer'
        rw [← hnode, hcontainer, Option.some.injEq] at hcontainer'
        simp [Observer.loadingIsFinished, htext, hcontainer']
      | refresh =>
        apply hshown.resolve_left
        simpa [Reloads, Block.observer] using hreloads
      | other =>
        apply hshown.resolve_left
        simpa [Reloads, Block.observer] using hreloads

/-- Registering an observer keeps the agreement. -/
theorem Consistent.register (h : Consistent P s) {observer : Observer}
    {queue : List Block} (hqueue : s.mainQueue = .fetchContainers observer :: queue) :
  Consistent P
    { s with
      observers := s.observers ++ [observer]
      mainQueue := queue ++ [.value observer s.node] }
  := by
  have hreload := h.reload
  have hshown := h.shown
  rw [hqueue] at hreload hshown
  constructor
  · intro observer' snapshot' hmem
    dsimp only at hmem ⊢
    rw [List.mem_append, List.mem_singleton] at hmem ⊢
    rcases hmem with hmem | hmem
    · left
      apply h.registered observer' snapshot'
      rw [hqueue]
      apply List.mem_cons_of_mem _ hmem
    · right
      exact (Block.value.inj hmem).1
  · intro b hb
    use observer
    left
    simpa using hb.symm
  · simp
  · rcases h.observed with hmem | hmem
    · left
      apply List.mem_append_left _ hmem
    · rw [hqueue, List.mem_cons] at hmem
      rcases hmem with heq | hmem
      · left
        rw [Block.fetchContainers.inj heq]
        simp
      · right
        apply List.mem_append_left _ hmem
  · intro snapshot hsnapshot
    rw [List.filterMap_append, List.getLast?_append, Option.mem_def,
      Option.or_eq_some_iff] at hsnapshot
    rcases hsnapshot with hsnapshot | ⟨-, hsnapshot⟩
    · obtain ⟨b, hb, hb'⟩ := List.mem_filterMap.mp (List.mem_of_getLast? hsnapshot)
      rw [List.mem_singleton.mp hb, Block.reload?_eq_some] at hb'
      exact (Block.value.inj hb').2.symm
    · apply hreload snapshot
      simpa [Block.reload?] using hsnapshot
  · rcases hshown with ⟨b, hb, hreload⟩ | hshown
    · left
      rcases List.mem_cons.mp hb with rfl | hb
      · use .value observer s.node, by simp
        exact hreload
      · use b
        simp [hb, hreload]
    · right
      exact hshown

/-- A careful event keeps the agreement. -/
theorem Consistent.step (h : Consistent P s) {e : Event} (hcareful : s.Careful P e)
    {t : Search} (hstep : s.step P e = some t) :
  Consistent P t
  := by
  cases e with
  | textDidChange searchText =>
    obtain rfl := Option.some.inj hstep
    apply h.screen (v := s.screen.textDidChange P searchText) rfl
    rcases hcareful with hreloads | hcurrent
    · left
      exact hreloads
    · right
      intro container hcontainer
      rw [hcurrent, Option.some.injEq] at hcontainer
      subst hcontainer
      exact (SearchVC.computed_textDidChange P s.screen searchText).symm
  | alignOptionBtnAction selected =>
    obtain rfl := Option.some.inj hstep
    apply h.controls (v := s.screen.alignOptionBtnAction selected) rfl rfl
    rcases hcareful with hreloads | hempty | htitle
    · exact .inl hreloads
    · exact .inr (.inl ⟨hempty, hempty⟩)
    · right
      right
      rw [SearchVC.alignOptionBtnAction, htitle]
  | dateOptionBtnAction selectedDate =>
    obtain rfl := Option.some.inj hstep
    apply h.controls (v := s.screen.dateOptionBtnAction selectedDate) rfl rfl
    rcases hcareful with hreloads | hempty | htitle
    · exact .inl hreloads
    · exact .inr (.inl ⟨hempty, hempty⟩)
    · right
      right
      rw [SearchVC.dateOptionBtnAction, htitle]
  | searchBarCancelButtonClicked =>
    obtain rfl := Option.some.inj hstep
    apply h.controls (v := s.screen.searchBarCancelButtonClicked) rfl rfl
    rcases hcareful with hreloads | hempty
    · exact .inl hreloads
    · exact .inr (.inl ⟨hempty, rfl⟩)
  | searchBarSearchButtonClicked =>
    obtain rfl := Option.some.inj hstep
    apply h.controls (v := s.screen.searchBarSearchButtonClicked) rfl rfl
    rcases hcareful with hreloads | hempty
    · exact .inl hreloads
    · exact .inr (.inl ⟨hempty, rfl⟩)
  | refresh =>
    obtain rfl := Option.some.inj hstep
    exact h.refresh
  | setValue node =>
    obtain rfl := Option.some.inj hstep
    apply h.setValue
  | turn =>
    rw [Search.step, Search.turn] at hstep
    split at hstep
    · obtain rfl := Option.some.inj hstep
      exact h
    next observer snapshot queue hqueue =>
      obtain ⟨container, hcontainer, rfl⟩ := Option.map_eq_some_iff.mp hstep
      apply h.deliver hqueue _ hcontainer
      rintro rfl
      simpa [Careful, hqueue, Block.reload?] using hcareful
    next observer queue hqueue =>
      obtain rfl := Option.some.inj hstep
      apply h.register hqueue

/-- Where the main queue is empty, the list is in step with the controls. -/
theorem Consistent.inStep (h : Consistent P s) :
  InStep P s
  := by
  intro hqueue
  have hnone : ¬ Reloads s.mainQueue := by
    rw [hqueue]
    simp [Reloads]
  exact h.shown.resolve_left hnone s.screen.dreamContainers (h.settled hqueue)

/-- In a run of careful events the list is in step with the controls whenever the main
queue is empty. -/
theorem careful_inStep (P : SearchPlatform) (container : List Dream) (node : Node) (others : ℕ)
    (undelivered : List Node) (es : List Event)
    (hcareful : Machine.Always (step P) (Careful P)
      (viewDidLoad container node others undelivered) es) :
  ∀ fs, fs <+: es → ∀ s,
    Machine.run (step P) (viewDidLoad container node others undelivered) fs = some s →
    InStep P s
  := by
  rintro fs ⟨gs, rfl⟩ s hs
  obtain ⟨hcareful, -⟩ := Machine.always_append.mp hcareful
  have hconsistent := hcareful.invariant (fun s e t hs he ht => hs.step he ht)
    (consistent_viewDidLoad P container node others undelivered) hs
  exact hconsistent.inStep

/-- The screen opens on a node of two dreams before the first snapshot has arrived. -/
def twoStored : Search := viewDidLoad [] (store [sea "2019-03-18", fire "2019-03-19"]) 0 []

/-- The options are chosen first, then the text is typed. -/
def optionsFirst : List Event :=
  [.turn, .turn, .alignOptionBtnAction (some .descending), .textDidChange "e",
    .refresh, .turn, .turn]

/-- Choosing the options before typing keeps the list in step, also through a refresh. -/
theorem careful_inStep_optionsFirst :
  ∃ s, Machine.run (step .ascii) twoStored optionsFirst = some s
    ∧ s.mainQueue = [] ∧ InStep .ascii s
  := by
  use (Machine.run (step .ascii) twoStored optionsFirst).get (by decide)
  use (Option.some_get _).symm, rfl
  apply careful_inStep .ascii [] (store [sea "2019-03-18", fire "2019-03-19"]) 0 []
    optionsFirst (by decide) optionsFirst List.prefix_rfl
  exact (Option.some_get _).symm

/-- The text is typed first, then an option is chosen. -/
def optionLast : List Event :=
  [.turn, .turn, .textDidChange "e", .alignOptionBtnAction (some .descending)]

/-- Choosing the descending order while a text is searched leaves the list ascending. -/
theorem optionLast_not_inStep :
  ∃ s, Machine.run (step .ascii) twoStored optionLast = some s ∧ ¬ InStep .ascii s
  := by
  use (Machine.run (step .ascii) twoStored optionLast).get (by decide)
  use (Option.some_get _).symm
  intro h
  have hlist := h rfl
  revert hlist
  decide

end Search

end ForDream

import ForDream.Main.Follow
import ForDream.Pager.StarStorage
import ForDream.Search.Screen

/-!
# The lists of the screens

Three screens list dreams and open detail pages, on which a dream can be deleted: `MainVC`
lists the shared container, `SearchVC` a list of its own that the observer it registers
replaces by the container, and `StarStorageVC` the copy it took when it was opened.

The main screen and the search screen follow the node, so that deleting a dream on a
detail page removes it from their lists once the snapshots are delivered.  The copy of the
star storage is never taken again.
-/

namespace ForDream

open Model

/-- The process with the search screen and the list of the star storage that were opened
last. -/
structure Screens where
  main : MainVC
  searchVC : Option SearchVC := none
  starStorageDreams : Option (List Dream) := none

/-- The screens that list dreams and open detail pages. -/
inductive Presenter where
  | main
  | search
  | starStorage
  deriving DecidableEq

namespace Screens

/-- What happens: an event around `MainVC`, where the operation `fetchContainers` opens a
search screen; the handlers of the search screen; and opening the star storage. -/
inductive Event where
  | main (e : MainVC.Event)
  | textDidChange (searchText : String)
  | alignOptionBtnAction (selected : Option AlignOption)
  | dateOptionBtnAction (selectedDate : Option String)
  | searchBarCancelButtonClicked
  | searchBarSearchButtonClicked
  | starStorage

/-- The process starts at `MainVC`. -/
def launch (node : Node) : Screens where
  main := .viewDidLoad node

/-- The search screen after an event that leaves the process in a state: it is opened on
the container, and a delivery to its observer replaces the list by the container. -/
def searchAfter (s : Screens) (t : MainVC) : MainVC.Event → Option SearchVC
  | .op .fetchContainers =>
      some { dreamContainers := t.dreamContainers, filterdDream := t.dreamContainers }
  | .turn =>
      match s.main.mainQueue with
      | .value (.search index) _ :: _ =>
          if index + 1 = s.main.searches then
            s.searchVC.map fun v => { v with filterdDream := t.dreamContainers }
          else s.searchVC
      | _ => s.searchVC
  | _ => s.searchVC

/-- A handler of the search screen runs on the shared container. -/
def handle (s : Screens) (handler : SearchVC → SearchVC) : Screens :=
  { s with
    searchVC := s.searchVC.map fun v =>
      handler { v with dreamContainers := s.main.dreamContainers } }

/-- The state after an event, unless the process traps. -/
def step (P : Platform) (Q : SearchPlatform) (s : Screens) : Event → Option Screens
  | .main e => (s.main.step P e).map fun t =>
      { s with main := t, searchVC := s.searchAfter t e }
  | .textDidChange searchText => some (s.handle (·.textDidChange Q searchText))
  | .alignOptionBtnAction selected => some (s.handle (·.alignOptionBtnAction selected))
  | .dateOptionBtnAction selectedDate => some (s.handle (·.dateOptionBtnAction selectedDate))
  | .searchBarCancelButtonClicked => some (s.handle (·.searchBarCancelButtonClicked))
  | .searchBarSearchButtonClicked => some (s.handle (·.searchBarSearchButtonClicked))
  | .starStorage =>
      some { s with starStorageDreams := StarStorageVC.filterDream s.main.dreamContainers }

/-- The list a screen answers `numberOfRows` and `cellForRow` from. -/
def list (s : Screens) : Presenter → List Dream
  | .main => s.main.dreamContainers
  | .search => (s.searchVC.map SearchVC.filterdDream).getD []
  | .starStorage => s.starStorageDreams.getD []

/-- No dream of the date is left in the list of the screen, and the star storage shows the
starred dreams of the container. -/
def Gone (presenter : Presenter) (removeDream : Dream) (s : Screens) : Prop :=
  (∀ dream ∈ s.list presenter, dream.writedDate ≠ removeDream.writedDate)
    ∧ (presenter = .starStorage →
      s.list .starStorage = StarStorageVC.filterDream s.main.dreamContainers)

/-! ### What the screens show -/

/-- The main screen and the search screen opened last follow the node. -/
structure Listed (P : Platform) (s : Screens) : Prop where
  numbered : s.main.Numbered
  opened : s.searchVC.isSome → 0 < s.main.searches
  main : s.main.Follows P .main []
  search : ∀ index, index + 1 = s.main.searches →
    s.main.Follows P (.search index) (s.list .search)

variable {P : Platform} {Q : SearchPlatform} {s t : Screens}

theorem listed_launch (P : Platform) (node : Node) :
  Listed P (launch node)
  where
  numbered := by
    intro index hindex
    simp [launch, MainVC.viewDidLoad] at hindex
  opened := by simp [launch]
  main := MainVC.follows_viewDidLoad P node
  search := by simp [launch, MainVC.viewDidLoad]

/-- A handler that shows only dreams of the container, or that were shown, keeps the
screens following the node. -/
theorem Listed.handle (h : Listed P s) (handler : SearchVC → SearchVC)
    (hhandler : ∀ v, ∀ dream ∈ (handler v).filterdDream,
      dream ∈ v.dreamContainers ∨ dream ∈ v.filterdDream) :
  Listed P (s.handle handler)
  where
  numbered := h.numbered
  opened := by
    intro hsome
    apply h.opened
    simpa [Screens.handle] using hsome
  main := h.main
  search index hindex := by
    apply (h.search index hindex).show
    intro dream hdream
    cases hsearch : s.searchVC with
    | none => simp [Screens.handle, list, hsearch] at hdream
    | some v =>
      simp only [Screens.handle, list, hsearch, Option.map_some, Option.getD_some] at hdream ⊢
      apply hhandler { v with dreamContainers := s.main.dreamContainers } dream hdream

/-- After an event that does not open a search screen, the screen opened last shows the
container, or nothing, or what it showed, and that only if the event is no delivery to
it. -/
theorem searchAfter_list (s : Screens) (m : MainVC) {e : MainVC.Event}
    (he : e ≠ .op .fetchContainers) {index : ℕ} (hindex : index + 1 = s.main.searches) :
  ((s.searchAfter m e).map SearchVC.filterdDream).getD [] = m.dreamContainers
    ∨ ((s.searchAfter m e).map SearchVC.filterdDream).getD [] = []
    ∨ (((s.searchAfter m e).map SearchVC.filterdDream).getD [] = s.list .search
      ∧ (e = .turn → ∀ snapshot queue,
        s.main.mainQueue ≠ .value (.search index) snapshot :: queue))
  := by
  cases e with
  | turn =>
    simp only [searchAfter]
    split
    next index' _ _ hqueue =>
      split
      next hlast =>
        cases hsearch : s.searchVC with
        | none => exact .inr (.inl rfl)
        | some v => exact .inl rfl
      next hold =>
        right
        right
        use rfl
        rintro - snapshot queue heq
        rw [hqueue, List.cons.injEq, MainVC.Block.value.injEq, MainVC.Screen.search.injEq] at heq
        omega
    next hother =>
      right
      right
      use rfl
      rintro - snapshot queue heq
      apply hother index snapshot queue heq
  | op op =>
    right
    right
    constructor
    · cases op with
      | fetchContainers => contradiction
      | _ => rfl
    · nofun
  | _ =>
    right
    right
    use rfl
    nofun

/-- Unless it opens a search screen, an event leaves one only if there was one. -/
theorem searchAfter_isSome {s : Screens} {m : MainVC} {e : MainVC.Event}
    (he : e ≠ .op .fetchContainers) (h : (s.searchAfter m e).isSome) :
  s.searchVC.isSome
  := by
  cases e with
  | turn =>
    simp only [searchAfter] at h
    split at h
    · split at h
      · simpa using h
      · exact h
    · exact h
  | op op =>
    cases op with
    | fetchContainers => contradiction
    | _ => exact h
  | _ => exact h

/-- An event around `MainVC` keeps the screens following the node. -/
theorem Listed.main_step (h : Listed P s) {e : MainVC.Event} {m : MainVC}
    (hstep : s.main.step P e = some m) :
  Listed P { s with main := m, searchVC := s.searchAfter m e }
  := by
  obtain ⟨hnumbered, hsearches⟩ := h.numbered.step hstep
  have hmain : m.Follows P .main [] := h.main.step hstep (.inr (.inl rfl))
  by_cases he : e = .op .fetchContainers
  · subst he
    obtain rfl := Option.some.inj hstep
    have hnext : (s.main.perform .fetchContainers).searches = s.main.searches + 1 := hsearches
    constructor
    · exact hnumbered
    · rintro -
      dsimp only
      omega
    · exact hmain
    · intro index hindex
      obtain rfl : index = s.main.searches := by
        dsimp only at hindex
        omega
      apply h.numbered.open
  · have hsame : m.searches = s.main.searches := by
      rw [hsearches]
      cases e with
      | op op =>
        cases op with
        | fetchContainers => contradiction
        | _ => rfl
      | _ => rfl
    constructor
    · exact hnumbered
    · intro hsome
      dsimp only
      rw [hsame]
      apply h.opened (searchAfter_isSome he hsome)
    · exact hmain
    · intro index hindex
      dsimp only at hindex
      rw [hsame] at hindex
      apply (h.search index hindex).step hstep
      apply searchAfter_list s m he hindex

/-- Every event keeps the screens following the node. -/
theorem Listed.step (h : Listed P s) {e : Event} (hstep : s.step P Q e = some t) :
  Listed P t
  := by
  cases e with
  | main e =>
    obtain ⟨m, hm, rfl⟩ := Option.map_eq_some_iff.mp hstep
    apply h.main_step hm
  | textDidChange searchText =>
    obtain rfl := Option.some.inj hstep
    apply h.handle
    intro v dream hdream
    apply v.computed_subset hdream
  | alignOptionBtnAction selected =>
    obtain rfl := Option.some.inj hstep
    apply h.handle
    intro v dream hdream
    exact .inr hdream
  | dateOptionBtnAction selectedDate =>
    obtain rfl := Option.some.inj hstep
    apply h.handle
    intro v dream hdream
    exact .inr hdream
  | searchBarCancelButtonClicked =>
    obtain rfl := Option.some.inj hstep
    apply h.handle
    intro v dream hdream
    exact .inr hdream
  | searchBarSearchButtonClicked =>
    obtain rfl := Option.some.inj hstep
    apply h.handle
    intro v dream hdream
    exact .inr hdream
  | starStorage =>
    obtain rfl := Option.some.inj hstep
    exact ⟨h.numbered, h.opened, h.main, h.search⟩

/-- In every state of a run the screens follow the node. -/
theorem listed_run {es : List Event} (h : Listed P s) (hrun : Machine.run (step P Q) s es = some t) :
  Listed P t
  := by
  have halways : Machine.Always (step P Q) (fun _ _ => True) s es :=
    Machine.always_of_forall fun _ _ _ => trivial
  apply halways.invariant (I := Listed P) _ h hrun
  intro s e t hs _ ht
  apply hs.step ht

/-- With nothing pending, the main screen and the search screen list only dreams read from
the node. -/
theorem Listed.subset (h : Listed P s) (hqueue : s.main.mainQueue = []) {content : List Dream}
    (hcontent : fetched P.sorter s.main.node = some content) {presenter : Presenter}
    (hpresenter : presenter ≠ .starStorage) :
  s.list presenter ⊆ content
  := by
  cases presenter with
  | main => exact (h.main.subset hqueue hcontent).1
  | search =>
    cases hsearch : s.searchVC with
    | none => simp [list, hsearch]
    | some v =>
      have hpos : 0 < s.main.searches := h.opened (by simp [hsearch])
      have hfollows := h.search (s.main.searches - 1) (by omega)
      exact (hfollows.subset hqueue hcontent).2
  | starStorage => contradiction

/-! ### Deleting on a detail page -/

/-- Turns change neither the node nor the copy of the star storage. -/
theorem turns_eq {n : ℕ}
    (h : Machine.run (step P Q) s (List.replicate n (.main .turn)) = some t) :
  t.main.node = s.main.node ∧ t.starStorageDreams = s.starStorageDreams
  := by
  have halways : Machine.Always (step P Q) (fun _ e => e = .main .turn) s
      (List.replicate n (.main .turn)) :=
    Machine.always_of_forall fun e he _ => List.eq_of_mem_replicate he
  apply halways.invariant (I := fun t =>
    t.main.node = s.main.node ∧ t.starStorageDreams = s.starStorageDreams) _ ⟨rfl, rfl⟩ h
  rintro u e t ⟨hnode, hstar⟩ rfl ht
  obtain ⟨m, hm, rfl⟩ := Option.map_eq_some_iff.mp ht
  use (MainVC.turn_node hm).trans hnode

/-- If the node and the snapshots enqueued can be read, the main queue can be emptied. -/
theorem settles (h : s.main.Readable P) (hnode : (fetched P.sorter s.main.node).isSome) :
  ∃ n t, Machine.run (step P Q) s (List.replicate n (.main .turn)) = some t
    ∧ t.main.mainQueue = []
  := by
  generalize hleft : s.main.turnsLeft P = left
  induction left generalizing s with
  | zero =>
    use 0, s, rfl
    by_contra hqueue
    obtain ⟨m, -, -, hturns⟩ := h.turn hnode hqueue
    omega
  | succ left ih =>
    by_cases hqueue : s.main.mainQueue = []
    · use 0, s, rfl
    · obtain ⟨m, hm, hreadable, hturns⟩ := h.turn hnode hqueue
      have hstep : s.step P Q (.main .turn)
          = some { s with main := m, searchVC := s.searchAfter m .turn } := by
        simp [step, MainVC.step, hm]
      obtain ⟨n, t, ht, hempty⟩ := ih (s := { s with
          main := m, searchVC := s.searchAfter m .turn }) hreadable
        (by rw [MainVC.turn_node hm]; exact hnode) (by dsimp only; omega)
      use n + 1, t
      rw [List.replicate_succ, Machine.run_cons, hstep]
      exact ⟨ht, hempty⟩

/-- A dream opened from a screen is deleted on its detail page.  Once everything enqueued
is delivered, which it is if what was enqueued before can be read, the list of the screen
holds no dream of its date, and is what the screen should show, exactly when the screen is
not the star storage. -/
theorem gone_iff (P : Platform) (Q : SearchPlatform) (node : Node) (es : List Event)
    (s : Screens) (hs : Machine.run (step P Q) (launch node) es = some s)
    (presenter : Presenter) (removeDream : Dream) (hmem : removeDream ∈ s.list presenter) :
  (∀ n t, Machine.run (step P Q) s
      (.main (.op (.removeAction removeDream)) :: List.replicate n (.main .turn)) = some t →
    t.main.mainQueue = [] → (t.Gone presenter removeDream ↔ presenter ≠ .starStorage))
    ∧ (s.main.Readable P → ∃ n t, Machine.run (step P Q) s
      (.main (.op (.removeAction removeDream)) :: List.replicate n (.main .turn)) = some t
      ∧ t.main.mainQueue = [])
  := by
  have hlisted := listed_run (listed_launch P node) hs
  have hdelete : s.step P Q (.main (.op (.removeAction removeDream)))
      = some { s with main := s.main.perform (.removeAction removeDream) } := rfl
  have hread : fetched P.sorter (s.main.perform (.removeAction removeDream)).node
      = some (ascendingOrder P.sorter (remaining s.main.dreamContainers removeDream)) := by
    rw [MainVC.perform_removeAction_node, fetched_store]
  constructor
  · intro n t ht hqueue
    have hlisted' := listed_run hlisted ht
    rw [Machine.run_cons, hdelete, Option.bind_some] at ht
    obtain ⟨hnode, hstar⟩ := turns_eq ht
    constructor
    · rintro ⟨hgone, -⟩ rfl
      apply hgone removeDream _ rfl
      rw [list, hstar]
      exact hmem
    · intro hpresenter
      constructor
      · intro dream hdream
        have hkept := hlisted'.subset hqueue (by rw [hnode, hread]) hpresenter hdream
        rw [mem_ascendingOrder, mem_remaining] at hkept
        exact hkept.2
      · intro heq
        contradiction
  · intro hreadable
    obtain ⟨n, t, ht, hempty⟩ := settles (P := P) (Q := Q)
      (s := { s with main := s.main.perform (.removeAction removeDream) })
      (hreadable.perform_removeAction removeDream) (by rw [hread]; rfl)
    use n, t
    rw [Machine.run_cons, hdelete, Option.bind_some]
    use ht

/-- A dream and a starred one are fetched, and the star storage is opened. -/
def starred : List Event := [.main .turn, .main .turn, .starStorage]

/-- Deleted from the main screen, the starred dream is gone. -/
theorem gone_iff_main :
  ∃ s, Machine.run (step .reference .ascii)
      (launch (store [sea "2019-03-18", fire "2019-03-19"])) starred = some s
    ∧ ∃ n t, Machine.run (step .reference .ascii) s
        (.main (.op (.removeAction (fire "2019-03-19"))) :: List.replicate n (.main .turn))
        = some t
      ∧ t.main.mainQueue = [] ∧ t.Gone .main (fire "2019-03-19")
  := by
  use (Machine.run (step .reference .ascii)
    (launch (store [sea "2019-03-18", fire "2019-03-19"])) starred).get (by decide)
  use (Option.some_get _).symm
  obtain ⟨hgone, hsettles⟩ := gone_iff .reference .ascii
    (store [sea "2019-03-18", fire "2019-03-19"]) starred _ (Option.some_get (by decide)).symm
    .main (fire "2019-03-19") (by decide)
  obtain ⟨n, t, ht, hempty⟩ := hsettles (by nofun)
  use n, t, ht, hempty
  rw [hgone n t ht hempty]
  nofun

/-- Deleted from the star storage, it is still listed there after everything is delivered,
though not in the container any more. -/
theorem starStorage_not_gone :
  ∃ s t, Machine.run (step .reference .ascii)
      (launch (store [sea "2019-03-18", fire "2019-03-19"])) starred = some s
    ∧ fire "2019-03-19" ∈ s.list .starStorage
    ∧ Machine.run (step .reference .ascii) s
      (.main (.op (.removeAction (fire "2019-03-19"))) :: List.replicate 2 (.main .turn)) = some t
    ∧ t.main.mainQueue = []
    ∧ t.list .main = [sea "2019-03-18"] ∧ t.list .starStorage = [fire "2019-03-19"]
    ∧ ¬ t.Gone .starStorage (fire "2019-03-19")
  := by
  use (Machine.run (step .reference .ascii)
    (launch (store [sea "2019-03-18", fire "2019-03-19"])) starred).get (by decide)
  use (Machine.run (step .reference .ascii)
    (launch (store [sea "2019-03-18", fire "2019-03-19"])) (starred
      ++ .main (.op (.removeAction (fire "2019-03-19"))) :: List.replicate 2 (.main .turn))).get
      (by decide)
  use (Option.some_get _).symm, by decide, (Option.some_get _).symm, rfl, by decide, by decide
  rintro ⟨hgone, -⟩
  apply hgone (fire "2019-03-19") _ rfl
  decide

end Screens

end ForDream

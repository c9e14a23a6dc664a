import ForDream.Pager

/-!
# Paging through the container while it changes

`DetailPVC` remembers the row `MainVC` was left at, and pages through the shared container
itself, not through a copy of it.  Between two queries the container may be replaced by
whatever a snapshot holds, and the test for the last page is an equality, so that it does
not stop an index that is beyond the end already.

Paging stays in bounds exactly when at every query for the page after the index is below
the count of the container, and at every query for the page before not above it.
-/

namespace ForDream

open Model

/-- `DetailPVC`, beside the shared container. -/
structure DetailPVC where
  currentIndex : ℕ
  dreamContainers : DreamArray

/-- The pager `MainVC.prepare` opens for the row selected. -/
def MainVC.prepare (dreamContainers : DreamArray) (row : ℕ) : DetailPVC where
  currentIndex := row
  dreamContainers := dreamContainers

namespace DetailPVC

/-- What happens while the pager is open: a query, or the delivery of a snapshot that
leaves a list in the shared container. -/
inductive Event where
  | query (side : Side)
  | value (dreamContainers : DreamArray)

/-- The page at the current index; indexing out of range traps. -/
def viewControllerAtIndex (s : DetailPVC) : Option Page :=
  (pager s.dreamContainers.dreams).viewControllerAtIndex s.currentIndex

/-- The answer to a query. -/
def answer (s : DetailPVC) (side : Side) : Option (ℕ × Option Page) :=
  (pager s.dreamContainers.dreams).answer side s.currentIndex

/-- The state after an event, unless indexing traps. -/
def step (s : DetailPVC) : Event → Option DetailPVC
  | .query side => (s.answer side).map fun (currentIndex, _) => { s with currentIndex }
  | .value dreamContainers => some { s with dreamContainers }

/-- The query does not index out of bounds. -/
def InBounds (s : DetailPVC) : Event → Prop
  | .query side => (s.answer side).isSome
  | .value _ => True

/-- A query for the page after finds the index below the count of the container, and one
for the page before finds it not above. -/
def Covered (s : DetailPVC) : Event → Prop
  | .query .before => s.currentIndex ≤ s.dreamContainers.dreams.length
  | .query .after => s.currentIndex < s.dreamContainers.dreams.length
  | .value _ => True

instance (s : DetailPVC) : ∀ e, Decidable (s.InBounds e)
  | .query side => inferInstanceAs (Decidable (s.answer side).isSome)
  | .value _ => inferInstanceAs (Decidable True)

instance (s : DetailPVC) : ∀ e, Decidable (s.Covered e)
  | .query .before => inferInstanceAs
      (Decidable (s.currentIndex ≤ s.dreamContainers.dreams.length))
  | .query .after => inferInstanceAs
      (Decidable (s.currentIndex < s.dreamContainers.dreams.length))
  | .value _ => inferInstanceAs (Decidable True)

variable {s : DetailPVC}

/-- An index that was in range once is not `NSNotFound`, so a query is in bounds exactly
when the container covers it. -/
theorem inBounds_iff (h : s.currentIndex < nsNotFound) (e : Event) :
  s.InBounds e ↔ s.Covered e
  := by
  have hdreams : (pager s.dreamContainers.dreams).dreams = s.dreamContainers.dreams := rfl
  have hcount : (pager s.dreamContainers.dreams).count = s.dreamContainers.dreams.length := rfl
  rcases e with (_ | _) | _
  · simp only [InBounds, answer, Pager.answer, Pager.viewControllerBefore, Covered]
    by_cases hfirst : s.currentIndex = 0
    · rw [if_pos (by omega)]
      apply iff_of_true rfl
      omega
    · rw [if_neg (by omega), Option.isSome_map, Pager.viewControllerAtIndex, pageAt_isSome,
        hdreams]
      omega
  · simp only [InBounds, answer, Pager.answer, Pager.viewControllerAfter, Covered]
    by_cases hlast : s.currentIndex + 1 = s.dreamContainers.dreams.length
    · rw [if_pos (by omega)]
      apply iff_of_true rfl
      omega
    · rw [if_neg (by omega), Option.isSome_map, Pager.viewControllerAtIndex, pageAt_isSome,
        hdreams]
      omega
  · exact iff_of_true trivial trivial

/-- The index does not become `NSNotFound`: a query moves it back, or to an index of the
container. -/
theorem step_lt (h : s.currentIndex < nsNotFound) {e : Event} {t : DetailPVC}
    (hstep : s.step e = some t) :
  t.currentIndex < nsNotFound
  := by
  cases e with
  | query side =>
    obtain ⟨⟨currentIndex, page⟩, hanswer, rfl⟩ := Option.map_eq_some_iff.mp hstep
    cases side with
    | before =>
      simp only [answer, Pager.answer, Pager.viewControllerBefore] at hanswer
      split at hanswer
      · obtain ⟨rfl, -⟩ := Prod.mk.inj (Option.some.inj hanswer)
        exact h
      · obtain ⟨_, -, hanswer⟩ := Option.map_eq_some_iff.mp hanswer
        obtain ⟨rfl, -⟩ := Prod.mk.inj hanswer
        exact Nat.lt_of_le_of_lt (Nat.sub_le _ _) h
    | after =>
      simp only [answer, Pager.answer, Pager.viewControllerAfter] at hanswer
      split at hanswer
      · obtain ⟨rfl, -⟩ := Prod.mk.inj (Option.some.inj hanswer)
        exact h
      · obtain ⟨_, hpage, hanswer⟩ := Option.map_eq_some_iff.mp hanswer
        obtain ⟨rfl, -⟩ := Prod.mk.inj hanswer
        have hlt := pageAt_isSome.mp (Option.isSome_of_eq_some hpage)
        exact Nat.lt_of_lt_of_le hlt s.dreamContainers.count_le
  | value dreamContainers =>
    obtain rfl := Option.some.inj hstep
    exact h

/-- Paging from any row of the container, while snapshots replace it, stays in bounds
exactly when the container covers the index at every query. -/
theorem inBounds_iff_covered (l : DreamArray) (row : ℕ) (hrow : row < l.dreams.length) :
  (MainVC.prepare l row).viewControllerAtIndex.isSome
    ∧ ∀ es, Machine.Always step InBounds (MainVC.prepare l row) es
      ↔ Machine.Always step Covered (MainVC.prepare l row) es
  := by
  constructor
  · exact pageAt_isSome.mpr hrow
  · intro es
    apply Machine.always_congr (I := fun s => s.currentIndex < nsNotFound)
    · intro s e hs
      apply inBounds_iff hs
    · intro s e t hs _ ht
      apply step_lt hs ht
    · exact Nat.lt_of_lt_of_le hrow l.count_le

/-- The dreams an update has saved so far. -/
def saved (k : Fin 4) : DreamArray where
  dreams := Paging.threeDreams.dreams.take k
  count_le := by
    rw [List.length_take]
    exact (Nat.min_le_right _ _).trans Paging.threeDreams.count_le

/-- Paging at the first row goes on while an update saves three dreams again, if there is
no query before the first of them is back. -/
theorem inBounds_iff_covered_update :
  Machine.Always step InBounds (MainVC.prepare Paging.threeDreams 0)
    [.value (saved 0), .value (saved 1), .query .after, .query .before, .value (saved 2),
      .value (saved 3), .query .after]
  := by
  obtain ⟨-, hiff⟩ := inBounds_iff_covered Paging.threeDreams 0 (by decide)
  rw [hiff]
  decide

/-- The first snapshot of an update is empty.  At the last of three pages, the query for
the page after that follows it indexes out of bounds. -/
theorem after_empty_snapshot_traps :
  fetched Sorter.insertion
      (Write.applyAll (store Paging.threeDreams.dreams)
        ((updateAction Paging.threeDreams.dreams).take 1)) = some (saved 0).dreams
    ∧ Machine.run step (MainVC.prepare Paging.threeDreams 2) [.value (saved 0)] ≠ none
    ∧ Machine.run step (MainVC.prepare Paging.threeDreams 2)
      [.value (saved 0), .query .after] = none
    ∧ ¬ Machine.Always step InBounds (MainVC.prepare Paging.threeDreams 2)
      [.value (saved 0), .query .after]
  := by
  rw [applyAll_take_updateAction, fetched_store]
  use rfl, nofun, rfl
  decide

end DetailPVC

end ForDream

import ForDream.Search.Screen
import ForDream.Lib.Machine

/-!
# The pagers

`DetailPVC`, `SearchDetailPVC` and `StarStorageDetailPVC` page through a list of dreams.
Each keeps one `currentIndex`, and answers a query for the page before or after a page by
moving it: the page asked about is not looked at.  `SearchDetailPVC` pages through the
list of the search screen, but tests for the last page by the count of the shared
container.

The answers are the neighbours of the pages asked about exactly when every query is about
the page returned last, and `SearchDetailPVC` stays in the range of its list, and stops
at its end, exactly when its test and the end of the list agree at every query.
-/

namespace ForDream

open Model

/-- The largest `Int`. -/
def nsNotFound : ℕ := 2 ^ 63 - 1

/-- A page, as the three detail screens show it. -/
structure Page where
  pageIndex : ℕ
  pageCount : ℕ
  pageDream : Dream
  deriving DecidableEq

/-- The page of a list at an index, unless it is out of range. -/
def pageAt (dreams : List Dream) (index : ℕ) : Option Page :=
  dreams[index]?.map fun dream =>
    { pageIndex := index, pageCount := dreams.length, pageDream := dream }

/-- The list a pager pages through, and the count it tests for the last page by. -/
structure Pager where
  dreams : List Dream
  count : ℕ

/-- The two queries of a page view controller. -/
inductive Side where
  | before
  | after
  deriving DecidableEq

namespace Pager

/-- The page at the current index; indexing out of range traps. -/
def viewControllerAtIndex (p : Pager) (currentIndex : ℕ) : Option Page :=
  pageAt p.dreams currentIndex

/-- The current index and the page returned, after the query for the page before. -/
def viewControllerBefore (p : Pager) (currentIndex : ℕ) : Option (ℕ × Option Page) :=
  if currentIndex = 0 ∨ currentIndex = nsNotFound then some (currentIndex, none)
  else (p.viewControllerAtIndex (currentIndex - 1)).map fun page =>
    (currentIndex - 1, some page)

/-- The current index and the page returned, after the query for the page after. -/
def viewControllerAfter (p : Pager) (currentIndex : ℕ) : Option (ℕ × Option Page) :=
  if currentIndex = nsNotFound ∨ (currentIndex : ℤ) = (p.count : ℤ) - 1 then
    some (currentIndex, none)
  else (p.viewControllerAtIndex (currentIndex + 1)).map fun page =>
    (currentIndex + 1, some page)

/-- The answer to a query. -/
def answer (p : Pager) : Side → ℕ → Option (ℕ × Option Page)
  | .before => p.viewControllerBefore
  | .after => p.viewControllerAfter

end Pager

/-- `DetailPVC` pages through the container. -/
def DetailPVC.pager (dreamContainers : List Dream) : Pager where
  dreams := dreamContainers
  count := dreamContainers.length

/-- `StarStorageDetailPVC` pages through the dreams of the star storage. -/
def StarStorageDetailPVC.pager (starStorageDreams : List Dream) : Pager where
  dreams := starStorageDreams
  count := starStorageDreams.length

/-- What `SearchVC.prepare` hands over to `SearchDetailPVC`. -/
structure SearchDetailPVC where
  currentDream : Dream
  currentIndex : ℕ
  filterdDream : List Dream
  deriving DecidableEq

/-- `SearchDetailPVC` pages through the list of the search screen, and tests for the last
page by the container. -/
def SearchDetailPVC.pager (dreamContainers filterdDream : List Dream) : Pager where
  dreams := filterdDream
  count := dreamContainers.length

/-- The pager for the row selected; indexing out of range traps. -/
def SearchVC.prepare (v : SearchVC) (row : ℕ) : Option SearchDetailPVC :=
  v.filterdDream[row]?.map fun currentDream =>
    { currentDream, currentIndex := row, filterdDream := v.filterdDream }

/-- The three pagers. -/
inductive PVC where
  | detail
  | searchDetail
  | starStorageDetail
  deriving DecidableEq

/-- The pagers over a list that is, for `SearchDetailPVC`, the whole container. -/
def PVC.pager (dreams : List Dream) : PVC → Pager
  | .detail => DetailPVC.pager dreams
  | .searchDetail => SearchDetailPVC.pager dreams dreams
  | .starStorageDetail => StarStorageDetailPVC.pager dreams

@[simp]
theorem PVC.pager_dreams (pvc : PVC) (dreams : List Dream) :
  (pvc.pager dreams).dreams = dreams
  := by
  cases pvc <;> rfl

@[simp]
theorem PVC.pager_count (pvc : PVC) (dreams : List Dream) :
  (pvc.pager dreams).count = dreams.length
  := by
  cases pvc <;> rfl

/-! ### Pages and indices -/

@[simp]
theorem pageAt_isSome {dreams : List Dream} {index : ℕ} :
  (pageAt dreams index).isSome ↔ index < dreams.length
  := by
  simp [pageAt]

@[simp]
theorem pageAt_eq_none {dreams : List Dream} {index : ℕ} :
  pageAt dreams index = none ↔ dreams.length ≤ index
  := by
  simp [pageAt]

/-- A page shows its index. -/
theorem pageIndex_of_pageAt {dreams : List Dream} {index : ℕ} {page : Page}
    (h : pageAt dreams index = some page) :
  page.pageIndex = index
  := by
  obtain ⟨dream, -, rfl⟩ := Option.map_eq_some_iff.mp h
  rfl

/-- Pages at different indices are different. -/
theorem pageAt_inj {dreams : List Dream} {i j : ℕ} (hi : i < dreams.length) :
  pageAt dreams i = pageAt dreams j ↔ i = j
  := by
  constructor
  · intro h
    obtain ⟨page, hpage⟩ := Option.isSome_iff_exists.mp (pageAt_isSome.mpr hi)
    rw [← pageIndex_of_pageAt hpage, ← pageIndex_of_pageAt (h.symm.trans hpage)]
  · rintro rfl
    rfl

namespace Pager

variable {p : Pager} {side : Side} {i t : ℕ} {page : Option Page}

/-- A query leaves the index in the range of the list, whatever it is tested by. -/
theorem answer_lt (hi : i < p.dreams.length) (h : p.answer side i = some (t, page)) :
  t < p.dreams.length
  := by
  cases side with
  | before =>
    simp only [answer, viewControllerBefore] at h
    split at h
    · rw [← (Prod.mk.inj (Option.some.inj h)).1]
      exact hi
    · obtain ⟨_, -, h⟩ := Option.map_eq_some_iff.mp h
      rw [← (Prod.mk.inj h).1]
      omega
  | after =>
    simp only [answer, viewControllerAfter] at h
    split at h
    · rw [← (Prod.mk.inj (Option.some.inj h)).1]
      exact hi
    · obtain ⟨_, hpage, h⟩ := Option.map_eq_some_iff.mp h
      rw [← (Prod.mk.inj h).1, ← pageAt_isSome, ← viewControllerAtIndex, hpage]
      rfl

end Pager

/-! ### Neighbours -/

/-- The page before or after the page at an index. -/
def neighbour (dreams : List Dream) : Side → ℕ → Option Page
  | .before, 0 => none
  | .before, index + 1 => pageAt dreams index
  | .after, index => pageAt dreams (index + 1)

/-- A neighbour is a page of the list. -/
theorem pageAt_of_neighbour {dreams : List Dream} {side : Side} {index : ℕ} {page : Page}
    (h : neighbour dreams side index = some page) :
  pageAt dreams page.pageIndex = some page
  := by
  cases side with
  | before =>
    cases index with
    | zero => cases h
    | succ index =>
      rw [neighbour] at h
      rw [pageIndex_of_pageAt h, h]
  | after =>
    rw [neighbour] at h
    rw [pageIndex_of_pageAt h, h]

/-- Different pages have different neighbours on each side. -/
theorem neighbour_inj {dreams : List Dream} (side : Side) {i j : ℕ} (hi : i < dreams.length)
    (hj : j < dreams.length) :
  neighbour dreams side i = neighbour dreams side j ↔ i = j
  := by
  constructor
  · intro h
    cases side with
    | before =>
      cases i with
      | zero =>
        cases j with
        | zero => rfl
        | succ j =>
          have hnone := h.symm
          simp only [neighbour, pageAt_eq_none] at hnone
          omega
      | succ i =>
        cases j with
        | zero =>
          simp only [neighbour, pageAt_eq_none] at h
          omega
        | succ j =>
          rw [neighbour, neighbour, pageAt_inj (by omega)] at h
          rw [h]
    | after =>
      simp only [neighbour] at h
      rcases Nat.lt_or_ge (i + 1) dreams.length with hlt | hge
      · rw [pageAt_inj hlt] at h
        omega
      · rw [pageAt_eq_none.mpr hge] at h
        have hj' := pageAt_eq_none.mp h.symm
        omega
  · rintro rfl
    rfl

/-- An array of dreams; its count is an `Int`. -/
structure DreamArray where
  dreams : List Dream
  count_le : dreams.length ≤ nsNotFound

/-- A pager that tests for the last page by the count of its own list answers with the
neighbour of the page at the current index, and moves there. -/
theorem Pager.answer_eq (l : DreamArray) {p : Pager} (hdreams : p.dreams = l.dreams)
    (hcount : p.count = l.dreams.length) (side : Side) {i : ℕ} (hi : i < l.dreams.length) :
  p.answer side i
    = some (((neighbour l.dreams side i).map Page.pageIndex).getD i, neighbour l.dreams side i)
  := by
  have hfound : i ≠ nsNotFound := by
    have := l.count_le
    omega
  cases side with
  | before =>
    cases i with
    | zero => simp [answer, viewControllerBefore, neighbour]
    | succ i =>
      obtain ⟨page, hpage⟩ := Option.isSome_iff_exists.mp
        (pageAt_isSome.mpr (Nat.lt_of_succ_lt hi))
      simp [answer, viewControllerBefore, viewControllerAtIndex, neighbour, hfound, hdreams,
        hpage, pageIndex_of_pageAt hpage]
  | after =>
    simp only [answer, viewControllerAfter, viewControllerAtIndex, neighbour, hcount, hdreams]
    rcases Nat.lt_or_ge (i + 1) l.dreams.length with hlt | hge
    · obtain ⟨page, hpage⟩ := Option.isSome_iff_exists.mp (pageAt_isSome.mpr hlt)
      rw [if_neg (by omega), hpage]
      simp [pageIndex_of_pageAt hpage]
    · rw [if_pos (by omega), pageAt_eq_none.mpr hge]
      rfl

/-- A pager at work: its index, and the pages it returned, the last one first. -/
structure Paging where
  currentIndex : ℕ
  returned : List Page
  deriving DecidableEq

/-- A query for a neighbour of a page. -/
structure Query where
  side : Side
  page : Page

namespace Paging

/-- The pager starts with the page at the index it is given. -/
def viewDidLoad (p : Pager) (currentIndex : ℕ) : Option Paging :=
  (p.viewControllerAtIndex currentIndex).map fun page => ⟨currentIndex, [page]⟩

/-- The pager answers a query, unless it traps. -/
def step (p : Pager) (s : Paging) (q : Query) : Option Paging :=
  (p.answer q.side s.currentIndex).map fun (currentIndex, page) =>
    ⟨currentIndex, page.toList ++ s.returned⟩

/-- The page asked about was returned earlier. -/
def Asks (s : Paging) (q : Query) : Prop := q.page ∈ s.returned

/-- The page asked about was returned last. -/
def AsksLast (s : Paging) (q : Query) : Prop := s.returned.head? = some q.page

/-- The answer is the neighbour of the page asked about. -/
def Right (p : Pager) (s : Paging) (q : Query) : Prop :=
  (p.answer q.side s.currentIndex).map Prod.snd
    = some (neighbour p.dreams q.side q.page.pageIndex)

instance (s : Paging) (q : Query) : Decidable (Asks s q) :=
  inferInstanceAs (Decidable (q.page ∈ s.returned))

instance (s : Paging) (q : Query) : Decidable (AsksLast s q) :=
  inferInstanceAs (Decidable (s.returned.head? = some q.page))

instance (p : Pager) (s : Paging) (q : Query) : Decidable (Right p s q) :=
  inferInstanceAs (Decidable ((p.answer q.side s.currentIndex).map Prod.snd
    = some (neighbour p.dreams q.side q.page.pageIndex)))

/-- The pages returned are pages of the list, the last one that at the current index. -/
structure Valid (dreams : List Dream) (s : Paging) : Prop where
  lt : s.currentIndex < dreams.length
  head : s.returned.head? = pageAt dreams s.currentIndex
  pages : ∀ page ∈ s.returned, pageAt dreams page.pageIndex = some page

variable {l : DreamArray} {p : Pager} {s : Paging} {q : Query}

theorem valid_viewDidLoad (hdreams : p.dreams = l.dreams) {currentIndex : ℕ}
    (hlt : currentIndex < l.dreams.length) :
  ∃ s, viewDidLoad p currentIndex = some s ∧ Valid l.dreams s
  := by
  obtain ⟨page, hpage⟩ := Option.isSome_iff_exists.mp (pageAt_isSome.mpr hlt)
  use ⟨currentIndex, [page]⟩
  constructor
  · simp [viewDidLoad, Pager.viewControllerAtIndex, hdreams, hpage]
  · constructor
    · exact hlt
    · simp [hpage]
    · simp [pageIndex_of_pageAt hpage, hpage]

/-- Every answer of a pager is a page of its list. -/
theorem Valid.step (hdreams : p.dreams = l.dreams) (hcount : p.count = l.dreams.length)
    (h : Valid l.dreams s) {t : Paging} (hstep : s.step p q = some t) :
  Valid l.dreams t
  := by
  rw [Paging.step, Pager.answer_eq l hdreams hcount q.side h.lt] at hstep
  obtain rfl := Option.some.inj hstep
  cases hneighbour : neighbour l.dreams q.side s.currentIndex with
  | none => exact h
  | some page =>
    have hpage := pageAt_of_neighbour hneighbour
    constructor
    · rw [← pageAt_isSome]
      simp [hpage]
    · simp [hpage]
    · intro page' hmem
      rcases List.mem_cons.mp hmem with rfl | hmem
      · exact hpage
      · apply h.pages page' hmem

/-- The answer to a query about a page returned earlier is right exactly when it is the
one returned last. -/
theorem Valid.right_iff (hdreams : p.dreams = l.dreams) (hcount : p.count = l.dreams.length)
    (h : Valid l.dreams s) (hq : s.Asks q) :
  s.Right p q ↔ s.AsksLast q
  := by
  have hpage := h.pages q.page hq
  have hlt : q.page.pageIndex < l.dreams.length := by
    rw [← pageAt_isSome, hpage]
    rfl
  rw [Right, Pager.answer_eq l hdreams hcount q.side h.lt, hdreams, Option.map_some,
    Option.some.injEq, neighbour_inj q.side h.lt hlt, AsksLast, h.head, ← hpage,
    pageAt_inj h.lt]

/-- The answers to queries about pages returned earlier are all right exactly when every
query is about the page returned last. -/
theorem right_iff_asksLast (pvc : PVC) (l : DreamArray) (start : ℕ)
    (hstart : start < l.dreams.length) :
  ∃ s, viewDidLoad (pvc.pager l.dreams) start = some s
    ∧ ∀ qs, Machine.Always (step (pvc.pager l.dreams)) Asks s qs →
      (Machine.Always (step (pvc.pager l.dreams)) (Right (pvc.pager l.dreams)) s qs
        ↔ Machine.Always (step (pvc.pager l.dreams)) AsksLast s qs)
  := by
  have hdreams := pvc.pager_dreams l.dreams
  have hcount := pvc.pager_count l.dreams
  obtain ⟨s, hs, hvalid⟩ := valid_viewDidLoad hdreams hstart
  use s, hs
  intro qs hasks
  constructor
  · intro hright
    apply (hasks.and hright).imp _ _ hvalid
    · rintro s q hs ⟨hq, hright⟩
      exact (hs.right_iff hdreams hcount hq).mp hright
    · rintro s q t hs - ht
      apply hs.step hdreams hcount ht
  · intro hlast
    apply (hasks.and hlast).imp _ _ hvalid
    · rintro s q hs ⟨hq, hlast⟩
      exact (hs.right_iff hdreams hcount hq).mpr hlast
    · rintro s q t hs - ht
      apply hs.step hdreams hcount ht

/-- Three dreams. -/
def threeDreams : DreamArray where
  dreams := [sea "2019-03-18", fire "2019-03-19", sea "2019-03-20"]
  count_le := by decide

/-- A page of the three dreams. -/
def pageOfThree (index : Fin 3) : Page where
  pageIndex := index
  pageCount := 3
  pageDream := threeDreams.dreams.get index

/-- Swiping forth and back through three dreams, each time from the page returned last. -/
theorem right_iff_asksLast_swipe :
  ∃ s, viewDidLoad (PVC.detail.pager threeDreams.dreams) 1 = some s
    ∧ Machine.Always (step (PVC.detail.pager threeDreams.dreams))
      (Right (PVC.detail.pager threeDreams.dreams)) s
      [⟨.after, pageOfThree 1⟩, ⟨.after, pageOfThree 2⟩, ⟨.before, pageOfThree 2⟩]
  := by
  obtain ⟨s, hs, hright⟩ := right_iff_asksLast .detail threeDreams 1 (by decide)
  use s, hs
  obtain rfl : s = ⟨1, [pageOfThree 1]⟩ := Option.some.inj (hs.symm.trans rfl)
  rw [hright]
  · decide
  · decide

/-- A page view controller that asks for both neighbours of the page it shows is given
that page itself as the page before it. -/
theorem both_neighbours_wrong :
  ∃ s, viewDidLoad (PVC.detail.pager threeDreams.dreams) 1 = some s
    ∧ Machine.Always (step (PVC.detail.pager threeDreams.dreams)) Asks s
      [⟨.after, pageOfThree 1⟩, ⟨.before, pageOfThree 1⟩]
    ∧ ¬ Machine.Always (step (PVC.detail.pager threeDreams.dreams))
      (Right (PVC.detail.pager threeDreams.dreams)) s
      [⟨.after, pageOfThree 1⟩, ⟨.before, pageOfThree 1⟩]
  := by
  use ⟨1, [pageOfThree 1]⟩
  decide

end Paging

/-! ### Paging through search results -/

namespace SearchDetailPVC

/-- The pager of the search results, beside the shared container. -/
structure Shared where
  pvc : SearchDetailPVC
  dreamContainers : List Dream
  deriving DecidableEq

/-- What happens while the pager is open: a query, or the delivery of a snapshot that
leaves a list in the shared container. -/
inductive Event where
  | query (side : Side)
  | value (dreamContainers : List Dream)

namespace Shared

/-- The answer to a query. -/
def answer (s : Shared) (side : Side) : Option (ℕ × Option Page) :=
  (SearchDetailPVC.pager s.dreamContainers s.pvc.filterdDream).answer side s.pvc.currentIndex

/-- The state after an event, unless indexing traps. -/
def step (s : Shared) : Event → Option Shared
  | .query side => (s.answer side).map fun (currentIndex, _) =>
      { s with pvc := { s.pvc with currentIndex } }
  | .value dreamContainers => some { s with dreamContainers }

/-- The query does not index out of range, and the one for the page after is answered by
`nil` exactly at the last search result. -/
def InRange (s : Shared) : Event → Prop
  | .query .before => (s.answer .before).isSome
  | .query .after => ∃ a ∈ s.answer .after,
      (a.2 = none ↔ s.pvc.currentIndex + 1 = s.pvc.filterdDream.length)
  | .value _ => True

instance (s : Shared) : ∀ e, Decidable (s.InRange e)
  | .query .before => inferInstanceAs (Decidable (s.answer .before).isSome)
  | .query .after => inferInstanceAs (Decidable (∃ a ∈ s.answer .after,
      (a.2 = none ↔ s.pvc.currentIndex + 1 = s.pvc.filterdDream.length)))
  | .value _ => inferInstanceAs (Decidable True)

/-- At a query for the page after, the last search result is where the test for the last
page ends the pages. -/
def EndsTogether (s : Shared) : Event → Prop
  | .query .after => s.pvc.currentIndex + 1 = s.pvc.filterdDream.length
      ↔ s.pvc.currentIndex = nsNotFound ∨ s.pvc.currentIndex + 1 = s.dreamContainers.length
  | _ => True

instance (s : Shared) : ∀ e, Decidable (s.EndsTogether e)
  | .query .after => inferInstanceAs (Decidable
      (s.pvc.currentIndex + 1 = s.pvc.filterdDream.length ↔
        s.pvc.currentIndex = nsNotFound ∨ s.pvc.currentIndex + 1 = s.dreamContainers.length))
  | .query .before => inferInstanceAs (Decidable True)
  | .value _ => inferInstanceAs (Decidable True)

variable {s : Shared}

/-- At an index in range, a query for the page after is in range exactly when the pages
end with the search results. -/
theorem inRange_iff (h : s.pvc.currentIndex < s.pvc.filterdDream.length) (e : Event) :
  s.InRange e ↔ s.EndsTogether e
  := by
  rcases e with (_ | _) | _
  · apply iff_of_true _ trivial
    rw [InRange, answer, Pager.answer, Pager.viewControllerBefore]
    split
    · rfl
    · rw [Option.isSome_map, Pager.viewControllerAtIndex, pageAt_isSome]
      exact Nat.lt_of_le_of_lt (Nat.sub_le _ _) h
  · have htest : (s.pvc.currentIndex = nsNotFound
          ∨ (s.pvc.currentIndex : ℤ) = (s.dreamContainers.length : ℤ) - 1)
        ↔ s.pvc.currentIndex = nsNotFound
          ∨ s.pvc.currentIndex + 1 = s.dreamContainers.length := by
      omega
    simp only [InRange, answer, Pager.answer, Pager.viewControllerAfter, pager, htest,
      EndsTogether]
    split
    next hend => simp [hend]
    next hend =>
      simp only [Option.mem_def, Option.map_eq_some_iff, hend, iff_false]
      constructor
      · rintro ⟨a, ⟨page, -, rfl⟩, hlast⟩
        simpa using hlast
      · intro hlast
        obtain ⟨page, hpage⟩ := Option.isSome_iff_exists.mp
          (pageAt_isSome.mpr (show s.pvc.currentIndex + 1 < s.pvc.filterdDream.length by omega))
        use (s.pvc.currentIndex + 1, some page)
        constructor
        · use page, hpage
        · simpa using hlast
  · exact iff_of_true trivial trivial

/-- The index stays in range. -/
theorem step_lt (h : s.pvc.currentIndex < s.pvc.filterdDream.length) {e : Event} {t : Shared}
    (hstep : s.step e = some t) :
  t.pvc.currentIndex < t.pvc.filterdDream.length
  := by
  cases e with
  | query side =>
    obtain ⟨⟨currentIndex, page⟩, hanswer, rfl⟩ := Option.map_eq_some_iff.mp hstep
    exact Pager.answer_lt
      (p := SearchDetailPVC.pager s.dreamContainers s.pvc.filterdDream) h hanswer
  | value dreamContainers =>
    obtain rfl := Option.some.inj hstep
    exact h

end Shared

/-- Paging through the result of a search, from any of its rows, stays in range and stops
at the last result exactly when the pages end with the results at every query. -/
theorem inRange_iff_endsTogether (P : SearchPlatform) (v : SearchVC) (searchText : String)
    (row : ℕ) (hrow : row < (v.textDidChange P searchText).filterdDream.length) :
  ∃ pvc, (v.textDidChange P searchText).prepare row = some pvc
    ∧ (pageAt pvc.filterdDream pvc.currentIndex).isSome
    ∧ ∀ es, Machine.Always Shared.step Shared.InRange ⟨pvc, v.dreamContainers⟩ es
      ↔ Machine.Always Shared.step Shared.EndsTogether ⟨pvc, v.dreamContainers⟩ es
  := by
  use ⟨(v.textDidChange P searchText).filterdDream[row], row,
    (v.textDidChange P searchText).filterdDream⟩
  constructor
  · simp [SearchVC.prepare, hrow]
  · constructor
    · rw [pageAt_isSome]
      exact hrow
    · intro es
      apply Machine.always_congr (I := fun s => s.pvc.currentIndex < s.pvc.filterdDream.length)
      · intro s e hs
        apply Shared.inRange_iff hs
      · intro s e t hs _ ht
        apply Shared.step_lt hs ht
      · exact hrow

/-- The search screen over two dreams. -/
def twoDreams : SearchVC where
  dreamContainers := [sea "2019-03-18", fire "2019-03-19"]
  filterdDream := [sea "2019-03-18", fire "2019-03-19"]

/-- Without a text, both dreams are the search results, and the pages end with them. -/
theorem inRange_iff_endsTogether_all :
  ∃ pvc, (twoDreams.textDidChange .ascii "").prepare 0 = some pvc
    ∧ Machine.Always Shared.step Shared.InRange ⟨pvc, twoDreams.dreamContainers⟩
      [.query .after, .query .after, .query .before]
  := by
  obtain ⟨pvc, hpvc, -, hiff⟩ := inRange_iff_endsTogether .ascii twoDreams "" 0 (by decide)
  use pvc, hpvc
  obtain rfl := Option.some.inj (hpvc.symm.trans rfl)
  rw [hiff]
  decide

/-- One of two dreams is found; the query for the page after it indexes out of range. -/
theorem single_result_traps :
  ∃ pvc, (twoDreams.textDidChange .ascii "sea").prepare 0 = some pvc
    ∧ Shared.step ⟨pvc, twoDreams.dreamContainers⟩ (.query .after) = none
    ∧ ¬ Machine.Always Shared.step Shared.InRange ⟨pvc, twoDreams.dreamContainers⟩
      [.query .after]
  := by
  use ⟨sea "2019-03-18", 0, [sea "2019-03-18"]⟩
  decide

end SearchDetailPVC

end ForDream

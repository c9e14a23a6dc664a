import ForDream.Pager

/-!
# Walking through the star storage

`StarStorageVC` keeps a copy of the dreams of the container that are in the star storage,
and hands it over to `StarStorageDetailPVC` together with the row selected.  The pager
then asks for nothing but its own list and index, so that every sequence of queries walks
to and fro over the pages of the list: it stays in range, and asking on in one direction
returns the pages left there in order, and then `nil`.
-/

namespace ForDream

open Model

/-- The dreams of the container that are in the star storage. -/
def StarStorageVC.filterDream (dreamContainers : List Dream) : List Dream :=
  dreamContainers.filter fun dream => dream.starStorageIsChecked

/-- What `StarStorageVC.prepare` hands over to `StarStorageDetailPVC`. -/
structure StarStorageDetailPVC where
  currentIndex : ℕ
  starStorageDreams : List Dream
  deriving DecidableEq

/-- The pager for the row selected. -/
def StarStorageVC.prepare (starStorageDreams : List Dream) (row : ℕ) : StarStorageDetailPVC where
  currentIndex := row
  starStorageDreams := starStorageDreams

/-- The pages of a list of dreams, in order. -/
def pages (dreams : List Dream) : List Page :=
  dreams.zipIdx.map fun (pageDream, pageIndex) =>
    { pageIndex, pageCount := dreams.length, pageDream }

@[simp]
theorem length_pages (dreams : List Dream) :
  (pages dreams).length = dreams.length
  := by
  simp [pages]

theorem getElem?_pages (dreams : List Dream) (index : ℕ) :
  (pages dreams)[index]? = pageAt dreams index
  := by
  simp [pages, pageAt, Function.comp_def]

/-- A page of a list shows the dream at its index. -/
theorem getElem?_pageIndex {dreams : List Dream} {index : ℕ} {page : Page}
    (h : pageAt dreams index = some page) :
  page.pageCount = dreams.length ∧ dreams[page.pageIndex]? = some page.pageDream
  := by
  obtain ⟨dream, hdream, rfl⟩ := Option.map_eq_some_iff.mp h
  use rfl

namespace Pager

/-- The current index after a sequence of queries, and the pages returned. -/
def answers (p : Pager) : ℕ → List Side → Option (ℕ × List (Option Page))
  | currentIndex, [] => some (currentIndex, [])
  | currentIndex, side :: sides =>
      (p.answer side currentIndex).bind fun (next, page) =>
        (p.answers next sides).map fun (last, returned) => (last, page :: returned)

theorem answers_cons {p : Pager} {side : Side} {i j : ℕ} {page : Option Page}
    (h : p.answer side i = some (j, page)) (sides : List Side) :
  p.answers i (side :: sides)
    = (p.answers j sides).map fun (last, returned) => (last, page :: returned)
  := by
  rw [answers, h]
  rfl

/-- The answers to a sequence of queries followed by another. -/
theorem answers_append {p : Pager} {i j k : ℕ} {sides sides' : List Side}
    {returned returned' : List (Option Page)} (h : p.answers i sides = some (j, returned))
    (h' : p.answers j sides' = some (k, returned')) :
  p.answers i (sides ++ sides') = some (k, returned ++ returned')
  := by
  induction sides generalizing i returned with
  | nil =>
    obtain ⟨rfl, rfl⟩ := Prod.mk.inj (Option.some.inj h)
    exact h'
  | cons side sides ih =>
    obtain ⟨⟨next, page⟩, hanswer, h⟩ := Option.bind_eq_some_iff.mp h
    obtain ⟨⟨last, rest⟩, hrest, h⟩ := Option.map_eq_some_iff.mp h
    obtain ⟨rfl, rfl⟩ := Prod.mk.inj h
    rw [List.cons_append, answers_cons hanswer, ih hrest]
    rfl

/-- A query answered by `nil` in place is so for ever. -/
theorem answers_stay {p : Pager} {side : Side} {i : ℕ} (h : p.answer side i = some (i, none))
    (m : ℕ) :
  p.answers i (List.replicate m side) = some (i, List.replicate m none)
  := by
  induction m with
  | zero => rfl
  | succ m ih =>
    rw [List.replicate_succ, answers_cons h, ih]
    rfl

variable {l : DreamArray} {p : Pager} {i : ℕ}

/-- At an index in range, the query for the page after returns the next of the pages. -/
theorem answer_after (hdreams : p.dreams = l.dreams) (hcount : p.count = l.dreams.length)
    {page : Page} (h : (pages l.dreams)[i + 1]? = some page) :
  p.answer .after i = some (i + 1, some page)
  := by
  rw [getElem?_pages] at h
  have hlt : i + 1 < l.dreams.length := by
    rw [← pageAt_isSome, h]
    rfl
  rw [answer_eq l hdreams hcount .after (Nat.lt_of_succ_lt hlt), neighbour, h]
  simp [pageIndex_of_pageAt h]

/-- The query for the page before returns the previous of the pages. -/
theorem answer_before (hdreams : p.dreams = l.dreams) (hcount : p.count = l.dreams.length)
    (hi : i + 1 < l.dreams.length) {page : Page} (h : (pages l.dreams)[i]? = some page) :
  p.answer .before (i + 1) = some (i, some page)
  := by
  rw [getElem?_pages] at h
  rw [answer_eq l hdreams hcount .before hi, neighbour, h]
  simp [pageIndex_of_pageAt h]

/-- Queries for the page after return the next pages in order. -/
theorem answers_after (hdreams : p.dreams = l.dreams) (hcount : p.count = l.dreams.length)
    {k : ℕ} (hk : i + k < l.dreams.length) :
  p.answers i (List.replicate k .after)
    = some (i + k, (((pages l.dreams).drop (i + 1)).take k).map some)
  := by
  induction k generalizing i with
  | zero => simp [answers]
  | succ k ih =>
    have hlt : i + 1 < (pages l.dreams).length := by
      rw [length_pages]
      omega
    rw [List.replicate_succ,
      answers_cons (answer_after hdreams hcount (List.getElem?_eq_getElem hlt)),
      ih (by omega), List.drop_eq_getElem_cons hlt, List.take_succ_cons, Nat.add_assoc i 1 k,
      Nat.add_comm 1 k]
    rfl

/-- Queries for the page before return the previous pages, the last one first. -/
theorem answers_before (hdreams : p.dreams = l.dreams) (hcount : p.count = l.dreams.length)
    (hi : i < l.dreams.length) :
  p.answers i (List.replicate i .before)
    = some (0, ((pages l.dreams).take i).reverse.map some)
  := by
  induction i with
  | zero => simp [answers]
  | succ i ih =>
    have hlt : i < (pages l.dreams).length := by
      rw [length_pages]
      omega
    rw [List.replicate_succ,
      answers_cons (answer_before hdreams hcount hi (List.getElem?_eq_getElem hlt)),
      ih (Nat.lt_of_succ_lt hi), ← List.take_append_getElem hlt, List.reverse_append]
    rfl

/-- No query goes out of range, and every page returned is a page of the list. -/
theorem answers_inRange (hdreams : p.dreams = l.dreams) (hcount : p.count = l.dreams.length)
    (hi : i < l.dreams.length) (sides : List Side) :
  ∃ j returned, p.answers i sides = some (j, returned) ∧ j < l.dreams.length
    ∧ ∀ page, some page ∈ returned → pageAt l.dreams page.pageIndex = some page
  := by
  induction sides generalizing i with
  | nil =>
    use i, [], rfl, hi
    simp
  | cons side sides ih =>
    obtain ⟨⟨next, page⟩, hanswer⟩ : ∃ a, p.answer side i = some a :=
      ⟨_, answer_eq l hdreams hcount side hi⟩
    have hnext : next < l.dreams.length := by
      rw [← hdreams] at hi ⊢
      apply answer_lt hi hanswer
    obtain ⟨j, returned, hanswers, hj, hpages⟩ := ih hnext
    use j, page :: returned
    constructor
    · rw [answers_cons hanswer, hanswers]
      rfl
    · use hj
      intro page' hmem
      rcases List.mem_cons.mp hmem with heq | hmem
      · rw [answer_eq l hdreams hcount side hi] at hanswer
        have hneighbour : neighbour l.dreams side i = some page' := by
          rw [(Prod.mk.inj (Option.some.inj hanswer)).2, heq]
        apply pageAt_of_neighbour hneighbour
      · apply hpages page' hmem

end Pager

/-- The pager of the star storage, from any row of its list.  Every sequence of queries
stays in range and returns pages of the list; from wherever it ends, asking on for the
page after returns the pages left, in order, and then `nil` with the index unchanged, and
so does asking for the page before, down to the first page. -/
theorem StarStorageDetailPVC.walks (l : DreamArray) (row : ℕ) (hrow : row < l.dreams.length)
    (sides : List Side) :
  ∃ start i returned,
    (pager (StarStorageVC.prepare l.dreams row).starStorageDreams).viewControllerAtIndex
      (StarStorageVC.prepare l.dreams row).currentIndex = some start
    ∧ (pager (StarStorageVC.prepare l.dreams row).starStorageDreams).answers
      (StarStorageVC.prepare l.dreams row).currentIndex sides = some (i, returned)
    ∧ i < l.dreams.length
    ∧ (∀ page, page = start ∨ some page ∈ returned →
      page.pageCount = l.dreams.length ∧ l.dreams[page.pageIndex]? = some page.pageDream)
    ∧ ∀ m,
      (pager l.dreams).answers i (List.replicate (l.dreams.length - 1 - i + m) .after)
        = some (l.dreams.length - 1,
          ((pages l.dreams).drop (i + 1)).map some ++ List.replicate m none)
      ∧ (pager l.dreams).answers i (List.replicate (i + m) .before)
        = some (0, ((pages l.dreams).take i).reverse.map some ++ List.replicate m none)
  := by
  obtain ⟨start, hstart⟩ := Option.isSome_iff_exists.mp (pageAt_isSome.mpr hrow)
  obtain ⟨i, returned, hanswers, hi, hpages⟩ :=
    Pager.answers_inRange (p := pager l.dreams) rfl rfl hrow sides
  use start, i, returned, hstart, hanswers, hi
  constructor
  · rintro page (rfl | hmem)
    · apply getElem?_pageIndex hstart
    · apply getElem?_pageIndex (hpages page hmem)
  · intro m
    constructor
    · have hlast : (pager l.dreams).answer .after (l.dreams.length - 1)
          = some (l.dreams.length - 1, none) := by
        rw [Pager.answer_eq l rfl rfl .after (by omega), neighbour,
          pageAt_eq_none.mpr (by omega)]
        rfl
      have hwalk := Pager.answers_after (p := pager l.dreams) (l := l) (i := i)
        (k := l.dreams.length - 1 - i) rfl rfl (by omega)
      rw [Nat.add_sub_cancel' (by omega), List.take_of_length_le (by simp; omega)] at hwalk
      rw [List.replicate_add]
      apply Pager.answers_append hwalk (Pager.answers_stay hlast m)
    · have hfirst : (pager l.dreams).answer .before 0 = some (0, none) := by
        rw [Pager.answer_eq l rfl rfl .before (by omega)]
        rfl
      rw [List.replicate_add]
      apply Pager.answers_append (Pager.answers_before (l := l) rfl rfl hi)
        (Pager.answers_stay hfirst m)

/-- The star storage of a container of three dreams, two of them starred. -/
def StarStorageDetailPVC.twoStarred : DreamArray where
  dreams := StarStorageVC.filterDream
    [Model.fire "2019-03-18", sea "2019-03-19", Model.fire "2019-03-20"]
  count_le := by decide

/-- From the first of two pages the second is returned once, and then `nil`. -/
theorem StarStorageDetailPVC.walks_twoStarred :
  ∃ page, (pager twoStarred.dreams).answers 0 [.after, .after, .after]
      = some (1, [some page, none, none])
    ∧ page.pageCount = 2 ∧ page.pageDream = Model.fire "2019-03-20"
  := by
  obtain ⟨start, i, returned, -, hanswers, -, -, hwalk⟩ :=
    walks twoStarred 0 (by decide) []
  obtain ⟨rfl, rfl⟩ := Prod.mk.inj (Option.some.inj hanswers)
  obtain ⟨hafter, -⟩ := hwalk 2
  use ⟨1, 2, Model.fire "2019-03-20"⟩
  use hafter, rfl

end ForDream

import ForDream.Calendar
import ForDream.Cloud.Step
import ForDream.Search.Screen

/-!
# Search results

`textDidChange` filters the container by the text searched, or by the date chosen, and
arranges what it finds by the title of the align button.  The option buttons only ever
set titles `textDidChange` knows, and the date they set is the text of a calendar date, so
that searching for it among the dates of the container is comparing with it.

The container a search starts from is in ascending order, whatever was done to the store,
and so the results without an order chosen are in ascending order as well.
-/

namespace ForDream

open Model

/-! ### Searching a text -/

/-- On texts of ASCII characters `range(of:options:)` with `.caseInsensitive` finds a text
that is not empty exactly where it occurs, up to the case of letters. -/
def SearchPlatform.FindsSubstrings (P : SearchPlatform) : Prop :=
  ∀ text searched : String, (∀ c ∈ text.toList, c.toNat < 128) →
    (∀ c ∈ searched.toList, c.toNat < 128) →
    (P.rangeOf text searched ↔ searched ≠ ""
      ∧ searched.toList.map Char.toLower <:+: text.toList.map Char.toLower)

/-- The search in ASCII texts finds texts where they occur. -/
theorem SearchPlatform.ascii_findsSubstrings :
  SearchPlatform.ascii.FindsSubstrings
  := by
  intro text searched _ _
  simp only [ascii, Bool.and_eq_true, decide_eq_true_eq, List.any_eq_true, List.mem_tails,
    List.isPrefixOf_iff_prefix, List.infix_iff_prefix_suffix, and_congr_right_iff]
  intro _
  constructor
  · rintro ⟨tail, hsuffix, hpre⟩
    use tail.map Char.toLower, hpre
    apply hsuffix.map
  · rintro ⟨_, hpre, hsuffix⟩
    obtain ⟨tail, hsuffix, rfl⟩ := List.suffix_map_iff.mp hsuffix
    use tail

/-- The characters of the text of a date are ASCII characters without case. -/
theorem CalendarDate.ascii_of_mem (d : CalendarDate) {c : Char} (h : c ∈ d.text.toList) :
  c.toNat < 128 ∧ c.toLower = c
  := by
  rw [text, String.toList_ofList] at h
  rcases d.digit_or_dash h with hdigit | rfl
  · have hle : c.toNat ≤ 57 := by
      simp only [Char.isDigit, Bool.and_eq_true, decide_eq_true_eq] at hdigit
      exact hdigit.2
    constructor
    · omega
    · apply dif_neg
      rintro ⟨hupper, -⟩
      have hge : 65 ≤ c.toNat := hupper
      omega
  · decide

/-- Searching for a date among dates is comparing with it: the texts have the same
length. -/
theorem SearchPlatform.FindsSubstrings.rangeOf_text {P : SearchPlatform} (h : P.FindsSubstrings)
    (d e : CalendarDate) :
  P.rangeOf d.text e.text ↔ d.text = e.text
  := by
  have hlower : ∀ d : CalendarDate, d.text.toList.map Char.toLower = d.text.toList := by
    intro d
    rw [List.map_congr_left (g := id), List.map_id]
    intro c hc
    exact (d.ascii_of_mem hc).2
  have hlength : ∀ d : CalendarDate, d.text.toList.length = 10 := by
    intro d
    rw [CalendarDate.text, String.toList_ofList, d.length_characters]
  rw [h d.text e.text (fun c hc => (d.ascii_of_mem hc).1) (fun c hc => (e.ascii_of_mem hc).1),
    hlower, hlower]
  constructor
  · rintro ⟨-, hoccurs⟩
    rw [← String.toList_inj]
    apply (hoccurs.eq_of_length _).symm
    rw [hlength, hlength]
  · intro heq
    rw [heq]
    constructor
    · intro hempty
      have hten := hlength e
      rw [hempty] at hten
      cases hten
    · apply List.infix_rfl

/-! ### The options -/

/-- A use of one of the option buttons; dates are chosen from a calendar. -/
inductive Choice where
  | alignOption (selected : Option AlignOption)
  | dateOption (selectedDate : Option CalendarDate)

namespace SearchVC

/-- The screen after an option is chosen or its popover cancelled. -/
def choose (v : SearchVC) : Choice → SearchVC
  | .alignOption selected => v.alignOptionBtnAction selected
  | .dateOption selectedDate => v.dateOptionBtnAction (selectedDate.map CalendarDate.text)

/-- The screen over a container after the option buttons were used. -/
def chosen (dreamContainers filterdDream : List Dream) (choices : List Choice) : SearchVC :=
  choices.foldl choose { dreamContainers, filterdDream }

/-- The titles are those some choices set. -/
structure Titled (v : SearchVC) : Prop where
  align : ∃ selected, v.alignTitle = alignTitleOf selected
  date : ∃ selectedDate : Option CalendarDate,
    v.dateTitle = dateTitleOf (selectedDate.map CalendarDate.text)

/-- Choosing options leaves the container as it is, and titles that choices set. -/
theorem foldl_choose {v : SearchVC} (h : v.Titled) (choices : List Choice) :
  (choices.foldl choose v).dreamContainers = v.dreamContainers
    ∧ (choices.foldl choose v).Titled
  := by
  induction choices generalizing v with
  | nil =>
    constructor
    · rfl
    · exact h
  | cons choice choices ih =>
    cases choice with
    | alignOption selected =>
      apply ih (v := v.alignOptionBtnAction selected)
      constructor
      · use selected
        rfl
      · exact h.date
    | dateOption selectedDate =>
      apply ih (v := v.dateOptionBtnAction (selectedDate.map CalendarDate.text))
      use h.align, selectedDate
      rfl

/-- The options chosen, on any container, are titles `textDidChange` knows. -/
theorem titled_chosen (dreamContainers filterdDream : List Dream) (choices : List Choice) :
  (chosen dreamContainers filterdDream choices).dreamContainers = dreamContainers
    ∧ (chosen dreamContainers filterdDream choices).Titled
  := by
  apply foldl_choose
  use ⟨none, rfl⟩, none
  rfl

/-! ### The results -/

/-- What a dream has to satisfy to be found: its text contains the text searched or, if a
date is chosen, it is of this date. -/
def criterion (P : SearchPlatform) (v : SearchVC) (searchText : String) (dream : Dream) : Bool :=
  if v.dateTitle = "날짜" then P.rangeOf dream.detailTxt searchText
  else dream.writedDate == v.dateTitle

/-- The dreams in the order a choice stands for. -/
def aligned (S : Sorter Dream) : Option AlignOption → List Dream → List Dream
  | none, dreams => dreams
  | some .ascending, dreams => ascendingOrder S dreams
  | some .descending, dreams => descendingOrder S dreams

variable {P : SearchPlatform} {v : SearchVC} {searchText : String}

/-- The dreams found are those that satisfy the criterion. -/
theorem searchDream_eq_filter (hfinds : P.FindsSubstrings) (h : v.Titled)
    (hdates : ∀ dream ∈ v.dreamContainers, ∃ date : CalendarDate, dream.writedDate = date.text) :
  v.searchDream P searchText = v.dreamContainers.filter (v.criterion P searchText)
  := by
  rw [searchDream]
  apply List.filter_congr
  intro dream hdream
  rw [criterion]
  split
  · rfl
  next hdate =>
    obtain ⟨date, hwrited⟩ := hdates dream hdream
    obtain ⟨_ | selected, htitle⟩ := h.date
    · contradiction
    · have htext : v.dateTitle = selected.text := htitle
      rw [hwrited, htext, Bool.eq_iff_iff, hfinds.rangeOf_text, beq_iff_eq]

/-- Under a title some choice set, a text that is not empty gives the dreams found, in the
order of the choice. -/
theorem textDidChange_filterdDream (htext : searchText ≠ "") {selected : Option AlignOption}
    (halign : v.alignTitle = alignTitleOf selected) :
  (v.textDidChange P searchText).filterdDream
    = aligned P.sorter selected (v.searchDream P searchText)
  := by
  rw [textDidChange, computed, if_neg (by simpa using htext), halign]
  rcases selected with _ | _ | _
  · rfl
  · rfl
  · rfl

/-- Different choices set different titles. -/
theorem alignTitleOf_injective :
  Function.Injective alignTitleOf
  := by
  intro selected selected' h
  rcases selected with _ | _ | _ <;> rcases selected' with _ | _ | _ <;>
    first | rfl | exact absurd h (by decide)

/-- Arranging permutes. -/
theorem aligned_perm (S : Sorter Dream) (selected : Option AlignOption) (l : List Dream) :
  (aligned S selected l).Perm l
  := by
  rcases selected with _ | _ | _
  · apply List.Perm.refl
  · apply ascendingOrder_perm
  · apply descendingOrder_perm

/-- If the dates of an ascending container are pairwise distinct, the ascending order
changes nothing, and the descending one reverses the results. -/
theorem textDidChange_distinct (htext : searchText ≠ "")
    (hascending : v.dreamContainers.Pairwise fun d1 d2 => d1.writedDate ≤ d2.writedDate)
    (hnodup : (v.dreamContainers.map Dream.writedDate).Nodup) :
  ((v.alignOptionBtnAction (some .ascending)).textDidChange P searchText).filterdDream
      = ((v.alignOptionBtnAction none).textDidChange P searchText).filterdDream
    ∧ ((v.alignOptionBtnAction (some .descending)).textDidChange P searchText).filterdDream
      = ((v.alignOptionBtnAction none).textDidChange P searchText).filterdDream.reverse
  := by
  have hsublist : (v.searchDream P searchText).Sublist v.dreamContainers := List.filter_sublist
  have hfound := hascending.sublist hsublist
  have hnodup' := hnodup.sublist (hsublist.map Dream.writedDate)
  have hresult : ∀ selected,
      ((v.alignOptionBtnAction selected).textDidChange P searchText).filterdDream
        = aligned P.sorter selected (v.searchDream P searchText) := by
    intro selected
    apply textDidChange_filterdDream htext rfl
  rw [hresult, hresult, hresult]
  constructor
  · apply ascendingOrder_eq_self P.sorter hfound hnodup'
  · apply descendingOrder_eq_reverse P.sorter hfound hnodup'

/-- A search returns exactly the dreams that satisfy the criterion, in the order chosen:
for every container a run of the store operations ends in, all options that can be chosen
and every text that is not empty. -/
theorem textDidChange_result {ι : Type*} [DecidableEq ι] (P : Platform) (Q : SearchPlatform)
    (hfinds : Q.FindsSubstrings) (node : Node) (es : List (Cloud.Event ι)) (s : Cloud ι)
    (hs : Machine.run (Cloud.step P) { (Cloud.start : Cloud ι) with node := node } es = some s)
    (c : ι)
    (hdates : ∀ dream ∈ (s.apps c).dreamContainers,
      ∃ date : CalendarDate, dream.writedDate = date.text)
    (filterdDream : List Dream) (choices : List Choice) (v : SearchVC)
    (hv : v = chosen (s.apps c).dreamContainers filterdDream choices) (searchText : String)
    (htext : searchText ≠ "") :
  (s.apps c).dreamContainers.Pairwise (fun d1 d2 => d1.writedDate ≤ d2.writedDate)
    ∧ (v.alignTitle = "정렬" ∨ v.alignTitle = "오름차순" ∨ v.alignTitle = "내림차순")
    ∧ (v.textDidChange Q searchText).filterdDream.Perm
      ((s.apps c).dreamContainers.filter (v.criterion Q searchText))
    ∧ (v.alignTitle = "오름차순" → (v.textDidChange Q searchText).filterdDream.Pairwise
      fun d1 d2 => d1.writedDate ≤ d2.writedDate)
    ∧ (v.alignTitle = "내림차순" → (v.textDidChange Q searchText).filterdDream.Pairwise
      fun d1 d2 => d2.writedDate ≤ d1.writedDate)
    ∧ (v.alignTitle = "정렬" →
      (v.textDidChange Q searchText).filterdDream.Sublist (s.apps c).dreamContainers)
    ∧ (((s.apps c).dreamContainers.map Dream.writedDate).Nodup →
      ((v.alignOptionBtnAction (some .ascending)).textDidChange Q searchText).filterdDream
          = ((v.alignOptionBtnAction none).textDidChange Q searchText).filterdDream
        ∧ ((v.alignOptionBtnAction (some .descending)).textDidChange Q searchText).filterdDream
          = ((v.alignOptionBtnAction none).textDidChange Q searchText).filterdDream.reverse)
  := by
  have hascending : (s.apps c).Ascending := Cloud.ascending_run hs c
  obtain ⟨hcontainer, htitled⟩ := titled_chosen (s.apps c).dreamContainers filterdDream choices
  rw [← hv] at hcontainer htitled
  rw [App.Ascending, ← hcontainer] at hascending
  rw [← hcontainer] at hdates ⊢
  obtain ⟨selected, halign⟩ := htitled.align
  rw [textDidChange_filterdDream htext halign, halign]
  use hascending
  constructor
  · rcases selected with _ | _ | _
    · left
      rfl
    · right
      left
      rfl
    · right
      right
      rfl
  · constructor
    · rw [← searchDream_eq_filter hfinds htitled hdates]
      apply aligned_perm
    · constructor
      · intro htitle
        obtain rfl : selected = some .ascending := alignTitleOf_injective htitle
        apply ascendingOrder_ascending
      · constructor
        · intro htitle
          obtain rfl : selected = some .descending := alignTitleOf_injective htitle
          apply descendingOrder_descending
        · constructor
          · intro htitle
            obtain rfl : selected = none := alignTitleOf_injective htitle
            apply List.filter_sublist
          · apply textDidChange_distinct htext hascending

/-- A day of March 2019. -/
def march (day : Fin 31) : CalendarDate where
  year := 2019
  month := 3
  day := day + 1
  year_pos := by decide
  year_le := by decide
  month_pos := by decide
  month_le := by decide
  day_pos := Nat.succ_pos _
  day_le := day.isLt

/-- One app, on a node of two dreams, fetches them. -/
def fetching : List (Cloud.Event Unit) := [.turn (), .turn ()]

/-- Both dreams contain the letter, and are shown in descending order. -/
theorem textDidChange_result_descending :
  ∃ s, Machine.run (Cloud.step Platform.reference)
      { (Cloud.start : Cloud Unit) with node := store [sea "2019-03-18", fire "2019-03-19"] }
      fetching = some s
    ∧ ((chosen (s.apps ()).dreamContainers [] [.alignOption (some .descending)]).textDidChange
      .ascii "e").filterdDream.Pairwise fun d1 d2 => d2.writedDate ≤ d1.writedDate
  := by
  use (Machine.run (Cloud.step Platform.reference)
    { (Cloud.start : Cloud Unit) with node := store [sea "2019-03-18", fire "2019-03-19"] }
    fetching).get (by decide)
  use (Option.some_get _).symm
  obtain ⟨-, -, -, -, hdescending, -⟩ := textDidChange_result Platform.reference .ascii
    SearchPlatform.ascii_findsSubstrings (store [sea "2019-03-18", fire "2019-03-19"]) fetching _
    (Option.some_get (by decide)).symm () (by
      intro dream hdream
      have hmem : dream ∈ [sea "2019-03-18", fire "2019-03-19"] := hdream
      simp only [List.mem_cons, List.not_mem_nil, or_false] at hmem
      rcases hmem with rfl | rfl
      · use march 17
        decide
      · use march 18
        decide)
    [] [.alignOption (some .descending)] _ rfl "e" (by decide)
  exact hdescending rfl

end SearchVC

end ForDream

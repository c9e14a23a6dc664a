import ForDream.Model

/-!
# The search screen

`SearchVC` shows the list `filterdDream`, which `textDidChange` computes from the text of
the search bar, the titles of the two option buttons and the container.  The buttons of
the options and of the search bar change text and titles without computing the list
again.
-/

namespace ForDream

open Model

/-- What the search screen uses of the platform: sorting, and whether
`range(of:options:)` with `.caseInsensitive` finds the second text in the first. -/
structure SearchPlatform where
  sorter : Sorter Dream
  rangeOf : String → String → Bool

/-- Search in texts of ASCII characters. -/
def SearchPlatform.ascii : SearchPlatform where
  sorter := Sorter.insertion
  rangeOf text searched :=
    searched ≠ "" && text.toList.tails.any fun tail =>
      (searched.toList.map Char.toLower).isPrefixOf (tail.map Char.toLower)

/-- The search screen: the text of the search bar, the titles of the option buttons, the
shared container, and the list shown. -/
structure SearchVC where
  text : String := ""
  alignTitle : String := "정렬"
  dateTitle : String := "날짜"
  dreamContainers : List Dream
  filterdDream : List Dream
  deriving DecidableEq

/-- The choices of the popover that `alignOptionBtnAction` opens. -/
inductive AlignOption where
  | ascending
  | descending
  deriving DecidableEq

/-- The text of a choice. -/
def AlignOption.selectedString : AlignOption → String
  | .ascending => "오름차순"
  | .descending => "내림차순"

namespace SearchVC

/-- The dreams of the container whose text contains the searched text or, if a date is
chosen, whose date contains the date. -/
def searchDream (P : SearchPlatform) (v : SearchVC) (searchText : String) : List Dream :=
  v.dreamContainers.filter fun dream =>
    if v.dateTitle = "날짜" then P.rangeOf dream.detailTxt searchText
    else P.rangeOf dream.writedDate v.dateTitle

/-- The list `textDidChange` computes; for an unknown title of the align button it leaves
the one there is. -/
def computed (P : SearchPlatform) (v : SearchVC) (searchText : String) : List Dream :=
  if searchText.isEmpty then v.dreamContainers
  else match v.alignTitle with
    | "정렬" => v.searchDream P searchText
    | "오름차순" => ascendingOrder P.sorter (v.searchDream P searchText)
    | "내림차순" => descendingOrder P.sorter (v.searchDream P searchText)
    | _ => v.filterdDream

/-- `searchBar(textDidChange:)`: the search bar holds the text when it is called. -/
def textDidChange (P : SearchPlatform) (v : SearchVC) (searchText : String) : SearchVC :=
  { v with text := searchText, filterdDream := v.computed P searchText }

def searchBarCancelButtonClicked (v : SearchVC) : SearchVC := { v with text := "" }

def searchBarSearchButtonClicked (v : SearchVC) : SearchVC := { v with text := "" }

/-- The title of the align button after its popover is closed by a choice or cancelled. -/
def alignTitleOf : Option AlignOption → String
  | some selected => selected.selectedString
  | none => "정렬"

/-- The title of the date button after its popover is closed by a date or cancelled. -/
def dateTitleOf : Option String → String
  | some selectedDate => selectedDate
  | none => "날짜"

def alignOptionBtnAction (v : SearchVC) (selected : Option AlignOption) : SearchVC :=
  { v with alignTitle := alignTitleOf selected }

def dateOptionBtnAction (v : SearchVC) (selectedDate : Option String) : SearchVC :=
  { v with dateTitle := dateTitleOf selectedDate }

/-- Without a text the whole container is shown. -/
@[simp]
theorem computed_empty (P : SearchPlatform) (v : SearchVC) :
  v.computed P "" = v.dreamContainers
  := rfl

/-- The list computed holds dreams of the container, unless it is the one there is. -/
theorem computed_subset {P : SearchPlatform} (v : SearchVC) {searchText : String} {dream : Dream}
    (h : dream ∈ v.computed P searchText) :
  dream ∈ v.dreamContainers ∨ dream ∈ v.filterdDream
  := by
  have hfound : dream ∈ v.searchDream P searchText → dream ∈ v.dreamContainers :=
    fun hmem => (List.mem_filter.mp hmem).1
  simp only [computed] at h
  split at h
  · exact .inl h
  · split at h
    · exact .inl (hfound h)
    · exact .inl (hfound (P.sorter.mem_sorted.mp h))
    · exact .inl (hfound (P.sorter.mem_sorted.mp h))
    · exact .inr h

/-- Computing the list once more does not change it. -/
theorem computed_textDidChange (P : SearchPlatform) (v : SearchVC) (searchText : String) :
  (v.textDidChange P searchText).computed P searchText = v.computed P searchText
  := by
  simp only [computed, textDidChange, searchDream]
  split
  · rfl
  · split
    · rfl
    · rfl
    · rfl
    · split
      · contradiction
      · contradiction
      · contradiction
      · rfl

end SearchVC

end ForDream

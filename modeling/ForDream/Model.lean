import ForDream.Firebase
import ForDream.Lib.Sorter
import Mathlib.Data.Set.List
import Mathlib.Data.String.Basic

/-!
# Dreams and the class `Model`

A dream is kept on the server as a record of its three fields.  `Model` turns the
operations on the container of dreams into writes of the node: `saveAction` sets one
child, `updateAction` removes the node and sets the dreams of the container again,
one by one.  The callback of `fetchContainers` goes the other way: it reads the value
of a snapshot into the container, through casts that trap, and sorts it by date.  A
function that may trap returns `none` where it does.

The node `store l` keeps the dreams of `l`, each under its position.  The callback
reads it back as `l` sorted by date, and a node that holds only records of dreams is
read without a trap exactly when it is dense.
-/

namespace ForDream

/-- A dream: its text, whether it is in the star storage, and its date, a text
`yyyy-MM-dd`. -/
structure Dream where
  detailTxt : String := ""
  starStorageIsChecked : Bool := false
  writedDate : String := ""
  deriving DecidableEq, Repr

/-- The forced cast `as! String`. -/
def Leaf.asString : Leaf → Option String
  | .string value => some value
  | .bool _ => none

/-- The forced cast `as! Bool`. -/
def Leaf.asBool : Leaf → Option Bool
  | .string _ => none
  | .bool value => some value

namespace Model

/-! ### Sorting -/

/-- The dreams sorted by ascending date. -/
def ascendingOrder (S : Sorter Dream) (dream : List Dream) : List Dream :=
  S.sorted (fun d1 d2 => decide (d1.writedDate < d2.writedDate)) dream

/-- The dreams sorted by descending date. -/
def descendingOrder (S : Sorter Dream) (dream : List Dream) : List Dream :=
  S.sorted (fun d1 d2 => decide (d1.writedDate > d2.writedDate)) dream

/-! ### Writing -/

/-- The record a dream is kept as. -/
def record (dream : Dream) : Record :=
  [("writedDate", .string dream.writedDate),
   ("detailTxt", .string dream.detailTxt),
   ("starStorageIsChecked", .bool dream.starStorageIsChecked)]

/-- Set the child `index` to the record of a dream. -/
def saveAction (dream : Dream) (index : ℕ) : Write :=
  .setValue index (record dream)

/-- Remove the node and save the dreams of the container again, each under its
position. -/
def updateAction (dreamContainers : List Dream) : List Write :=
  .removeValue :: dreamContainers.zipIdx.map fun p => saveAction p.1 p.2

/-- The dreams of the container whose date is not that of `removeDream`. -/
def remaining (dreamContainers : List Dream) (removeDream : Dream) : List Dream :=
  dreamContainers.filter fun d => !(d.writedDate == removeDream.writedDate)

/-- Remove the dreams of the date of `removeDream` from the container, and update. -/
def removeAction (dreamContainers : List Dream) (removeDream : Dream) :
    List Dream × List Write :=
  (remaining dreamContainers removeDream,
    updateAction (remaining dreamContainers removeDream))

/-- Empty the container, and update. -/
def removeAllAction : List Dream × List Write :=
  ([], updateAction [])

/-! ### Reading -/

/-- The forced cast of the elements of an array to records: null traps. -/
def castElements : List (Option Record) → Option (List Record)
  | [] => some []
  | none :: _ => none
  | some element :: elements => (castElements elements).map (element :: ·)

/-- The forced cast `as! [[String:Any]]` of the value of a snapshot. -/
def dataTemp : Export → Option (List Record)
  | .array elements => castElements elements
  | .null | .dictionary _ => none

/-- Overwrite the fields of the variable `dream` by those of an element. -/
def readElement (dream : Dream) (element : Record) : Option Dream := do
  let detailTxt ← (element.lookup "detailTxt").bind Leaf.asString
  let writedDate ← (element.lookup "writedDate").bind Leaf.asString
  let starStorageIsChecked ← (element.lookup "starStorageIsChecked").bind Leaf.asBool
  return { dream with detailTxt, writedDate, starStorageIsChecked }

/-- Read the elements one after the other into the variable `dream`, and append it
each time to the container. -/
def readElements : Dream → List Dream → List Record → Option (Dream × List Dream)
  | dream, container, [] => some (dream, container)
  | dream, container, element :: elements =>
      (readElement dream element).bind fun dream' =>
        readElements dream' (container ++ [dream']) elements

/-- The callback of `fetchContainers` on a snapshot: the variable `dream` and the
container after it. -/
def valueCallback (S : Sorter Dream) (dream : Dream) (snapshot : Node) :
    Option (Dream × List Dream) :=
  if snapshot.exists_ then do
    let elements ← dataTemp snapshot.valForExport
    let (dream', container) ← readElements dream [] elements
    return (dream', ascendingOrder S container)
  else some (dream, [])

/-- The container after the callback of `fetchContainers` on a snapshot. -/
def fetched (S : Sorter Dream) (snapshot : Node) : Option (List Dream) :=
  (valueCallback S {} snapshot).map Prod.snd

/-! ### Facts about sorting -/

theorem ascendingOrder_perm (S : Sorter Dream) (l : List Dream) :
  (ascendingOrder S l).Perm l
  := S.perm _ l

@[simp]
theorem ascendingOrder_nil (S : Sorter Dream) :
  ascendingOrder S [] = []
  := S.sorted_nil _

@[simp]
theorem mem_ascendingOrder (S : Sorter Dream) {l : List Dream} {d : Dream} :
  d ∈ ascendingOrder S l ↔ d ∈ l
  := S.mem_sorted

@[simp]
theorem length_ascendingOrder (S : Sorter Dream) (l : List Dream) :
  (ascendingOrder S l).length = l.length
  := S.length_sorted _ l

theorem ascendingOrder_ascending (S : Sorter Dream) (l : List Dream) :
  (ascendingOrder S l).Pairwise fun d1 d2 => d1.writedDate ≤ d2.writedDate
  := S.sorted_key Dream.writedDate l

theorem descendingOrder_perm (S : Sorter Dream) (l : List Dream) :
  (descendingOrder S l).Perm l
  := S.perm _ l

theorem descendingOrder_descending (S : Sorter Dream) (l : List Dream) :
  (descendingOrder S l).Pairwise fun d1 d2 => d2.writedDate ≤ d1.writedDate
  := S.sorted_key_reverse Dream.writedDate l

/-- A list in ascending order whose dates are pairwise distinct is sorted already. -/
theorem ascendingOrder_eq_self (S : Sorter Dream) {l : List Dream}
    (hl : l.Pairwise fun d1 d2 => d1.writedDate ≤ d2.writedDate)
    (hnodup : (l.map Dream.writedDate).Nodup) :
  ascendingOrder S l = l
  := by
  symm
  apply Sorter.eq_of_perm_of_nodup Dream.writedDate _ hl (ascendingOrder_ascending S l) hnodup
  apply (ascendingOrder_perm S l).symm

/-- Sorted the other way round it is reversed. -/
theorem descendingOrder_eq_reverse (S : Sorter Dream) {l : List Dream}
    (hl : l.Pairwise fun d1 d2 => d1.writedDate ≤ d2.writedDate)
    (hnodup : (l.map Dream.writedDate).Nodup) :
  descendingOrder S l = l.reverse
  := by
  symm
  apply Sorter.eq_of_perm_of_nodup (fun d => OrderDual.toDual d.writedDate)
  · apply l.reverse_perm.trans (descendingOrder_perm S l).symm
  · rw [List.pairwise_reverse]
    exact hl
  · apply descendingOrder_descending
  · rw [List.map_reverse, List.nodup_reverse]
    exact hnodup

/-! ### Facts about removing -/

@[simp]
theorem mem_remaining {l : List Dream} {d r : Dream} :
  d ∈ remaining l r ↔ d ∈ l ∧ d.writedDate ≠ r.writedDate
  := by
  simp [remaining]

theorem coe_remaining (l : List Dream) (r : Dream) :
  (remaining l r : Multiset Dream)
    = (l : Multiset Dream).filter fun d => d.writedDate ≠ r.writedDate
  := by
  rw [Multiset.filter_coe, remaining]
  congr 2
  funext d
  simp [beq_eq_decide]

/-- The only dream of its date is removed from its place. -/
theorem remaining_eq_eraseIdx {l : List Dream} {r : Dream} {i : ℕ} (hi : l[i]? = some r)
    (hdate : l.countP (fun d => d.writedDate == r.writedDate) = 1) :
  remaining l r = l.eraseIdx i
  := by
  induction l generalizing i with
  | nil => cases hi
  | cons d l ih =>
    cases i with
    | zero =>
      obtain rfl : d = r := Option.some.inj hi
      rw [List.countP_cons_of_pos (by simp), Nat.add_eq_right, List.countP_eq_zero] at hdate
      rw [remaining, List.filter_cons_of_neg (by simp), List.eraseIdx_zero, List.tail_cons,
        List.filter_eq_self]
      intro d' hd'
      simpa using hdate d' hd'
    | succ i =>
      rw [List.getElem?_cons_succ] at hi
      -- The dream at the place accounts for the one of the date, so the first is of another.
      have hpos : 0 < l.countP fun d => d.writedDate == r.writedDate :=
        List.countP_pos_iff.mpr ⟨r, List.mem_of_getElem? hi, by simp⟩
      have hne : d.writedDate ≠ r.writedDate := by
        intro heq
        rw [List.countP_cons_of_pos (by simpa using heq)] at hdate
        omega
      rw [List.countP_cons_of_neg (by simpa using hne)] at hdate
      rw [List.eraseIdx_cons_succ, ← ih hi hdate, remaining, remaining,
        List.filter_cons_of_pos (by simpa using hne)]

/-! ### Nodes of dreams -/

/-- A record determines its dream. -/
theorem record_injective :
  Function.Injective record
  := by
  rintro ⟨t, s, w⟩ ⟨t', s', w'⟩ h
  simp only [record, List.cons.injEq, Prod.mk.injEq, Leaf.string.injEq, Leaf.bool.injEq,
    true_and, and_true] at h
  obtain ⟨rfl, rfl, rfl⟩ := h
  rfl

@[simp]
theorem record_inj {d d' : Dream} :
  record d = record d' ↔ d = d'
  := record_injective.eq_iff

/-- The node keeping the dreams of a list, each under its position. -/
def store (l : List Dream) : Node := IndexMap.ofList (l.map record)

/-- A dream is stored in a node when its record is the value of some child. -/
def Stored (node : Node) (dream : Dream) : Prop :=
  ∃ index, node.lookup index = some (record dream)

instance (node : Node) (dream : Dream) : Decidable (Stored node dream) :=
  decidable_of_iff (record dream ∈ IndexMap.values node) IndexMap.mem_values

/-- The date of a record. -/
def dateOf (value : Record) : Option Leaf := value.lookup "writedDate"

@[simp]
theorem dateOf_record (dream : Dream) :
  dateOf (record dream) = some (.string dream.writedDate)
  := rfl

/-- The node stores the dreams of a multiset, each as often as it occurs there. -/
def Stores (node : Node) (dreams : Multiset Dream) : Prop :=
  IndexMap.values node = dreams.map record

@[simp]
theorem store_nil :
  store [] = ∅
  := rfl

@[simp]
theorem store_inj {l l' : List Dream} :
  store l = store l' ↔ l = l'
  := by
  rw [store, store, IndexMap.ofList_inj, record_injective.list_map.eq_iff]

@[simp]
theorem store_eq_empty {l : List Dream} :
  store l = ∅ ↔ l = []
  := by
  rw [← store_nil, store_inj]

@[simp]
theorem keys_store (l : List Dream) :
  (store l).keys = Finset.range l.length
  := by
  simp [store]

theorem lookup_store (l : List Dream) (i : ℕ) :
  (store l).lookup i = l[i]?.map record
  := by
  simp [store]

@[simp]
theorem stored_store {l : List Dream} {d : Dream} :
  Stored (store l) d ↔ d ∈ l
  := by
  simp only [Stored, lookup_store, Option.map_eq_some_iff, record_inj, exists_eq_right,
    List.mem_iff_getElem?]

theorem stores_store (l : List Dream) :
  Stores (store l) l
  := by
  simp [Stores, store]

theorem Stores.stored_iff {node : Node} {dreams : Multiset Dream} (h : Stores node dreams)
    {d : Dream} :
  Stored node d ↔ d ∈ dreams
  := by
  rw [Stored, ← IndexMap.mem_values, h, Multiset.mem_map_of_injective record_injective]

/-- A node stores only one multiset of dreams. -/
theorem Stores.unique {node : Node} {dreams dreams' : Multiset Dream}
    (h : Stores node dreams) (h' : Stores node dreams') :
  dreams = dreams'
  := Multiset.map_injective record_injective (h.symm.trans h')

/-- Saving a dream at the length of the list appends it. -/
theorem saveAction_apply_store (l : List Dream) (d : Dream) :
  (saveAction d l.length).apply (store l) = store (l ++ [d])
  := by
  rw [saveAction, Write.apply, store, ← List.length_map (f := record), IndexMap.insert_length,
    store, List.map_append]
  rfl

/-- Saving the dreams of `l'` from the position after `l` on appends them. -/
theorem applyAll_saveAction (l l' : List Dream) :
  Write.applyAll (store l) ((l'.zipIdx l.length).map fun p => saveAction p.1 p.2)
    = store (l ++ l')
  := by
  induction l' generalizing l with
  | nil => simp
  | cons d l' ih =>
    rw [List.zipIdx_cons, List.map_cons, Write.applyAll_cons, saveAction_apply_store]
    have h := ih (l ++ [d])
    rw [List.length_append, List.length_singleton] at h
    rw [h, List.append_assoc]
    rfl

/-- After `updateAction` the node keeps the container, whatever it was before. -/
theorem applyAll_updateAction (node : Node) (l : List Dream) :
  Write.applyAll node (updateAction l) = store l
  := by
  rw [updateAction, Write.applyAll_cons]
  apply applyAll_saveAction []

/-- After the removal and the first `k` saves of `updateAction` the node keeps the
first `k` dreams of the container. -/
theorem applyAll_take_updateAction (node : Node) (l : List Dream) (k : ℕ) :
  Write.applyAll node ((updateAction l).take (k + 1)) = store (l.take k)
  := by
  have hzip : ∀ (l : List Dream) (i k : ℕ), (l.zipIdx i).take k = (l.take k).zipIdx i := by
    intro l
    induction l with
    | nil => simp
    | cons d l ih =>
      intro i k
      cases k with
      | zero => rfl
      | succ k => simp [ih]
  rw [updateAction, List.take_succ_cons, ← List.map_take, hzip]
  apply applyAll_updateAction node (l.take k)

/-- Every node on the way through a list of writes keeps a list of dreams. -/
def Readable : Node → List Write → Prop
  | node, [] => ∃ l, node = store l
  | node, w :: ws => (∃ l, node = store l) ∧ Readable (w.apply node) ws

theorem Readable.store {node : Node} {ws : List Write} (h : Readable node ws) :
  ∃ l, node = Model.store l
  := by
  cases ws with
  | nil => exact h
  | cons w ws => exact h.1

/-- Readable writes end in a readable node. -/
theorem Readable.applyAll {node : Node} {ws : List Write} (h : Readable node ws) :
  ∃ l, Write.applyAll node ws = Model.store l
  := by
  induction ws generalizing node with
  | nil => exact h
  | cons w ws ih => exact ih h.2

theorem readable_append {node : Node} {ws ws' : List Write} :
  Readable node (ws ++ ws') ↔ Readable node ws ∧ Readable (Write.applyAll node ws) ws'
  := by
  induction ws generalizing node with
  | nil =>
    constructor
    · intro h
      use h.store, h
    · rintro ⟨-, h⟩
      exact h
  | cons w ws ih => simp only [List.cons_append, Readable, ih, Write.applyAll_cons, and_assoc]

/-- Saving after the last dream is readable. -/
theorem readable_saveAction (l : List Dream) (d : Dream) :
  Readable (store l) [saveAction d l.length]
  := by
  use ⟨l, rfl⟩
  use l ++ [d]
  apply saveAction_apply_store

/-- An update is readable at every step. -/
theorem readable_updateAction (l l' : List Dream) :
  Readable (store l) (updateAction l')
  := by
  have hsaves : ∀ l l' : List Dream,
      Readable (store l) ((l'.zipIdx l.length).map fun p => saveAction p.1 p.2) := by
    intro l l'
    induction l' generalizing l with
    | nil => use l
    | cons d l' ih =>
      use ⟨l, rfl⟩
      rw [saveAction_apply_store]
      have h := ih (l ++ [d])
      rw [List.length_append, List.length_singleton] at h
      apply h
  use ⟨l, rfl⟩
  apply hsaves []

/-! ### Reading a node -/

theorem castElements_eq_some {elements : List (Option Record)} {l : List Record} :
  castElements elements = some l ↔ elements = l.map some
  := by
  induction elements generalizing l with
  | nil => cases l <;> simp [castElements]
  | cons element elements ih =>
    cases element with
    | none => cases l <;> simp [castElements]
    | some element => cases l <;> simp [castElements, ih, and_comm]

/-- The callback leaves no field of the variable `dream` from before. -/
@[simp]
theorem readElement_record (dream d : Dream) :
  readElement dream (record d) = some d
  := rfl

theorem readElements_records (dream : Dream) (container l : List Dream) :
  (readElements dream container (l.map record)).map Prod.snd = some (container ++ l)
  := by
  induction l generalizing dream container with
  | nil => simp [readElements]
  | cons d l ih =>
    rw [List.map_cons, readElements, readElement_record, Option.bind_some, ih,
      List.append_assoc]
    rfl

/-- The callback reads a node keeping `l` as `l` in ascending order, whatever the variable
`dream` held before. -/
theorem valueCallback_store (S : Sorter Dream) (dream : Dream) (l : List Dream) :
  ∃ dream', valueCallback S dream (store l) = some (dream', ascendingOrder S l)
  := by
  rcases eq_or_ne l [] with rfl | hl
  · use dream
    simp [valueCallback, Node.exists_]
  · have hread := readElements_records dream [] l
    rw [Option.map_eq_some_iff] at hread
    obtain ⟨⟨dream', container⟩, hread, hcontainer⟩ := hread
    obtain rfl : container = l := hcontainer
    have hcast :
        dataTemp (Node.valForExport (store container)) = some (container.map record) := by
      rw [store, Node.valForExport_ofList (by simpa using hl), dataTemp, castElements_eq_some]
    use dream'
    simp [valueCallback, Node.exists_, hl, hcast, hread]

@[simp]
theorem fetched_store (S : Sorter Dream) (l : List Dream) :
  fetched S (store l) = some (ascendingOrder S l)
  := by
  obtain ⟨dream', h⟩ := valueCallback_store S {} l
  rw [fetched, h]
  rfl

/-- Whatever the callback reads, it leaves in ascending order. -/
theorem fetched_ascending {S : Sorter Dream} {node : Node} {container : List Dream}
    (h : fetched S node = some container) :
  container.Pairwise fun d1 d2 => d1.writedDate ≤ d2.writedDate
  := by
  rw [fetched, Option.map_eq_some_iff] at h
  obtain ⟨⟨dream, _⟩, h, rfl⟩ := h
  rw [valueCallback] at h
  split at h
  · simp only [Option.bind_eq_bind, Option.bind_eq_some_iff] at h
    obtain ⟨elements, -, ⟨dream', read⟩, -, h⟩ := h
    obtain ⟨-, rfl⟩ := Prod.mk.inj (Option.some.inj h)
    apply ascendingOrder_ascending
  · obtain ⟨-, rfl⟩ := Prod.mk.inj (Option.some.inj h)
    apply List.Pairwise.nil

/-- The callback traps on a node that is not dense. -/
theorem dense_of_fetched {S : Sorter Dream} {node : Node} (h : (fetched S node).isSome) :
  IndexMap.Dense node
  := by
  by_cases hnode : node = ∅
  · use []
    rw [hnode]
    rfl
  · obtain ⟨container, h⟩ := Option.isSome_iff_exists.mp h
    simp only [fetched, valueCallback, Node.exists_, ne_eq, hnode, not_false_eq_true,
      decide_true, if_true, Option.map_eq_some_iff, Option.bind_eq_bind,
      Option.bind_eq_some_iff] at h
    obtain ⟨-, ⟨elements, helements, -⟩, -⟩ := h
    cases hval : Node.valForExport node with
    | array es =>
      rw [hval, dataTemp, castElements_eq_some] at helements
      rw [helements] at hval
      apply Node.dense_of_valForExport hval
    | null => simp [hval, dataTemp] at helements
    | dictionary _ => simp [hval, dataTemp] at helements

/-- Every child of the node is the record of a dream. -/
def HoldsDreams (node : Node) : Prop :=
  ∀ index value, node.lookup index = some value → ∃ dream, value = record dream

/-- A node of dreams is dense exactly when it keeps a list of dreams. -/
theorem HoldsDreams.dense_iff {node : Node} (h : HoldsDreams node) :
  IndexMap.Dense node ↔ ∃ l, node = store l
  := by
  constructor
  · rintro ⟨records, rfl⟩
    have hmem : records ∈ Set.range (List.map record) := by
      rw [Set.range_list_map]
      intro value hvalue
      obtain ⟨i, hi⟩ := List.mem_iff_getElem?.mp hvalue
      obtain ⟨dream, rfl⟩ := h i value (by rw [IndexMap.lookup_ofList, hi])
      use dream
    obtain ⟨l, rfl⟩ := hmem
    use l
    rfl
  · rintro ⟨l, rfl⟩
    use l.map record
    rfl

/-- The callback reads a node of dreams without a trap exactly when it is dense. -/
theorem HoldsDreams.fetched_isSome_iff {node : Node} (h : HoldsDreams node) (S : Sorter Dream) :
  (fetched S node).isSome ↔ IndexMap.Dense node
  := by
  constructor
  · apply dense_of_fetched
  · intro hdense
    obtain ⟨l, rfl⟩ := h.dense_iff.mp hdense
    simp

theorem holdsDreams_store (l : List Dream) :
  HoldsDreams (store l)
  := by
  intro index value h
  rw [lookup_store, Option.map_eq_some_iff] at h
  obtain ⟨d, -, rfl⟩ := h
  use d

/-! ### Two dreams -/

/-- A dream of the sea. -/
def sea (date : String) : Dream := { detailTxt := "sea", writedDate := date }

/-- A dream of a fire, in the star storage. -/
def fire (date : String) : Dream :=
  { detailTxt := "fire", starStorageIsChecked := true, writedDate := date }

end Model

end ForDream

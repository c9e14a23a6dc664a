import ForDream.Lib.IndexMap
import Mathlib.Order.Lattice.Nat

/-!
# The node an account keeps its dreams in

`users/uid/dream` is a node whose children are named by the decimal numerals of
indices, so a `Node` is a finite map from indices to records.  Clients change it by
`removeValue` on the node and by `setValue` on one of its children, and read it
through `valForExport`, the conversion `FChildrenNode` applies to the value of a
snapshot: a node with integer keys becomes an array, with null at the indices it
lacks, when its greatest key is below twice the number of its keys, and a dictionary
otherwise.

The value of a node is an array without null exactly when the node is dense and has
a child.
-/

namespace ForDream

/-- The values the fields of a record hold. -/
inductive Leaf where
  | string (value : String)
  | bool (value : Bool)
  deriving DecidableEq, Repr

/-- A record: named fields and their values. -/
abbrev Record : Type := List (String × Leaf)

/-- The node `users/uid/dream`; the child `"\(index)"` is held under `index`. -/
abbrev Node : Type := IndexMap Record

/-- The value of a snapshot as the client library hands it over. -/
inductive Export where
  | null
  | array (elements : List (Option Record))
  | dictionary (children : Node)

/-- A change of the node by a client. -/
inductive Write where
  | removeValue
  | setValue (index : ℕ) (value : Record)
  deriving DecidableEq, Repr

namespace Write

/-- The node after a write. -/
def apply (node : Node) : Write → Node
  | .removeValue => ∅
  | .setValue index value => node.insert index value

/-- The node after a list of writes, in order. -/
def applyAll (node : Node) (writes : List Write) : Node := writes.foldl apply node

@[simp]
theorem applyAll_nil (node : Node) :
  applyAll node [] = node
  := rfl

@[simp]
theorem applyAll_cons (node : Node) (w : Write) (ws : List Write) :
  applyAll node (w :: ws) = applyAll (w.apply node) ws
  := rfl

@[simp]
theorem applyAll_append (node : Node) (ws ws' : List Write) :
  applyAll node (ws ++ ws') = applyAll (applyAll node ws) ws'
  := List.foldl_append

end Write

namespace Node

/-- Whether a snapshot of the node exists. -/
def exists_ (node : Node) : Bool := node ≠ ∅

/-- The value of a snapshot of the node. -/
def valForExport (node : Node) : Export :=
  if node = ∅ then .null
  else
    let numKeys := node.keys.card
    let maxKey := node.keys.sup id
    if maxKey < 2 * numKeys then
      .array ((List.range (maxKey + 1)).map fun i => node.lookup i)
    else .dictionary node

/-- The greatest position of a nonempty list. -/
theorem sup_keys_ofList {l : List Record} (h : l ≠ []) :
  (IndexMap.ofList l).keys.sup id + 1 = l.length
  := by
  rw [IndexMap.keys_ofList]
  have hpos := List.length_pos_iff.mpr h
  apply Nat.le_antisymm
  · apply Nat.succ_le_of_lt
    rw [Finset.sup_lt_iff hpos]
    intro i hi
    simpa using hi
  · have hle : l.length - 1 ≤ (Finset.range l.length).sup id := by
      apply Finset.le_sup (f := id)
      simpa using Nat.sub_lt hpos Nat.one_pos
    omega

/-- A node keeping a nonempty list has that list as its value. -/
theorem valForExport_ofList {l : List Record} (h : l ≠ []) :
  valForExport (IndexMap.ofList l) = .array (l.map some)
  := by
  have hsup := sup_keys_ofList h
  have hlt : (IndexMap.ofList l).keys.sup id < 2 * (IndexMap.ofList l).keys.card := by
    rw [IndexMap.keys_ofList, Finset.card_range] at *
    omega
  rw [valForExport, if_neg (by simpa using h)]
  simp only [if_pos hlt, hsup]
  congr 1
  apply List.ext_getElem
  · simp
  · intro i hi _
    simp only [List.length_map, List.length_range] at hi
    simp [hi]

/-- A node whose value is an array without null is dense. -/
theorem dense_of_valForExport {node : Node} {l : List Record}
    (h : valForExport node = .array (l.map some)) :
  IndexMap.Dense node
  := by
  rw [valForExport] at h
  split at h
  · cases h
  · simp only at h
    split at h
    · have hl := Export.array.inj h
      use l
      apply Finmap.ext_lookup
      intro i
      rw [IndexMap.lookup_ofList]
      have hlen : l.length = node.keys.sup id + 1 := by
        simpa using (congrArg List.length hl).symm
      rcases lt_or_ge i l.length with hi | hi
      · have hget := congrArg (fun es => es[i]?) hl
        simp only [List.getElem?_map] at hget
        rw [List.getElem?_range (by omega), List.getElem?_eq_getElem hi] at hget
        simpa [hi] using hget
      · rw [List.getElem?_eq_none hi, Finmap.lookup_eq_none, ← Finmap.mem_keys]
        intro hmem
        have hle : i ≤ node.keys.sup id := Finset.le_sup (f := id) hmem
        omega
    · cases h

end Node

end ForDream

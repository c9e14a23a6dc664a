import ForDream.Database.Key
import Mathlib.Data.List.Infix

/-!
# Paths

A path is a list of pieces, none of which is empty or contains a slash.  A string is
split into its pieces at its slashes, so leading, trailing and doubled slashes play no
role; `wireFormat` and `toString` write a path so that reading it gives the path back.
-/

namespace ForDream

namespace NSString

/-- The code unit of the character `/`. -/
def slash : UInt16 := 47

/-- The parts of a string between its slashes that are not empty. -/
def pieces (s : NSString) : List NSString :=
  (s.splitOn slash).filter fun piece => piece.length > 0

@[simp]
theorem pieces_nil :
  pieces [] = []
  := rfl

/-- A slash separates pieces. -/
theorem pieces_append (s t : NSString) :
  pieces (s ++ slash :: t) = pieces s ++ pieces t
  := by
  rw [pieces, List.splitOn_append_cons_self, List.filter_append]
  rfl

theorem pieces_slash (s : NSString) :
  pieces (slash :: s) = pieces s
  := pieces_append [] s

theorem pieces_of_notMem {s : NSString} (hne : s ≠ []) (h : slash ∉ s) :
  pieces s = [s]
  := by
  rw [pieces, List.splitOn_eq_singleton h, List.filter_cons_of_pos]
  · rfl
  · simpa using List.length_pos_iff.mpr hne

/-- What a string is split into has no slash. -/
theorem slash_notMem_of_mem_splitOn {s piece : NSString} (h : piece ∈ s.splitOn slash) :
  slash ∉ piece
  := by
  induction s generalizing piece with
  | nil =>
    obtain rfl := List.mem_singleton.mp h
    exact List.not_mem_nil
  | cons c s ih =>
    rw [List.splitOn_cons_eq_if_modifyHead] at h
    split at h
    · rcases List.mem_cons.mp h with rfl | h
      · exact List.not_mem_nil
      · apply ih h
    case isFalse hc =>
      obtain ⟨p, ps, hps⟩ := List.exists_cons_of_ne_nil (List.splitOn_ne_nil slash s)
      rw [hps, List.modifyHead_cons] at h
      rcases List.mem_cons.mp h with rfl | h
      · have hp := ih (hps ▸ List.mem_cons_self)
        intro hmem
        rcases List.mem_cons.mp hmem with rfl | hmem
        · simp at hc
        · contradiction
      · apply ih
        rw [hps]
        exact List.mem_cons_of_mem _ h

theorem mem_pieces {s piece : NSString} (h : piece ∈ pieces s) :
  piece ≠ [] ∧ slash ∉ piece
  := by
  obtain ⟨hmem, hlen⟩ := List.mem_filter.mp h
  use List.length_pos_iff.mp (by simpa using hlen), slash_notMem_of_mem_splitOn hmem

end NSString

/-- A path: pieces that are not empty and have no slash. -/
@[ext]
structure FPath where
  pieces : List NSString
  wf : ∀ piece ∈ pieces, piece ≠ [] ∧ NSString.slash ∉ piece

namespace FPath

open NSString

instance : DecidableEq FPath := fun p q =>
  decidable_of_iff (p.pieces = q.pieces) FPath.ext_iff.symm

/-- The path of a string. -/
def pathWithString (string : NSString) : FPath where
  pieces := NSString.pieces string
  wf _ := mem_pieces

/-- The path without pieces. -/
def empty : FPath where
  pieces := []
  wf _ h := by cases h

/-- The first piece. -/
def getFront (p : FPath) : Option NSString := p.pieces.head?

/-- The path without its first piece. -/
def popFront (p : FPath) : FPath where
  pieces := p.pieces.tail
  wf piece h := p.wf piece (List.mem_of_mem_tail h)

/-- The path one piece up; the empty path has none. -/
def parent (p : FPath) : Option FPath :=
  if p.pieces = [] then none
  else some ⟨p.pieces.dropLast, fun piece h => p.wf piece (List.mem_of_mem_dropLast h)⟩

/-- The path followed by another one. -/
def child (p childPathObj : FPath) : FPath where
  pieces := p.pieces ++ childPathObj.pieces
  wf piece h := (List.mem_append.mp h).elim (p.wf piece) (childPathObj.wf piece)

/-- The path followed by the pieces of a string. -/
def childFromString (p : FPath) (childPath : NSString) : FPath := p.child (pathWithString childPath)

/-- The pieces, each after a slash. -/
def toStringWithTrailingSlash (p : FPath) (trailingSlash : Bool) : NSString :=
  let pathString := p.pieces.flatMap fun piece => slash :: piece
  if pathString.length = 0 then [slash]
  else if trailingSlash then pathString ++ [slash] else pathString

/-- The pieces with slashes between them. -/
def wireFormat (p : FPath) : NSString :=
  match p.pieces with
  | [] => [slash]
  | piece :: pieces => piece ++ pieces.flatMap fun piece => slash :: piece

/-- The loop that compares the pieces one by one. -/
def containsLoop {α : Type*} [DecidableEq α] : List α → List α → Bool
  | [], _ => true
  | _ :: _, [] => false
  | thisSeg :: these, otherSeg :: others =>
      if thisSeg ≠ otherSeg then false else containsLoop these others

/-- Whether another path starts with the pieces of the path. -/
def contains (p other : FPath) : Bool :=
  if p.pieces.length > other.pieces.length then false else containsLoop p.pieces other.pieces

/-- What is left of the inner path beyond the outer one; nothing where the source
throws. -/
def relativePieces {α : Type*} [DecidableEq α] : List α → List α → Option (List α)
  | [], inner => some inner
  | _ :: _, [] => none
  | outerFront :: outer, innerFront :: inner =>
      if outerFront = innerFront then relativePieces outer inner else none

theorem relativePieces_eq_some {α : Type*} [DecidableEq α] {outer inner rest : List α} :
  relativePieces outer inner = some rest ↔ outer ++ rest = inner
  := by
  induction outer generalizing inner with
  | nil =>
    simp only [relativePieces, Option.some.injEq, List.nil_append]
    exact eq_comm
  | cons piece outer ih =>
    cases inner with
    | nil => simp [relativePieces]
    | cons front inner =>
      rw [relativePieces]
      split
      case isTrue h => simp [h, ih]
      case isFalse h => simp [h]

/-- The path from an outer path to an inner one; nothing where the source throws. -/
def relativePathFrom (outer inner : FPath) : Option FPath :=
  match h : relativePieces outer.pieces inner.pieces with
  | none => none
  | some rest => some ⟨rest, fun piece hmem => inner.wf piece (by
      rw [← relativePieces_eq_some.mp h]
      exact List.mem_append_right _ hmem)⟩

theorem relativePathFrom_eq_some {outer inner rest : FPath} :
  relativePathFrom outer inner = some rest ↔ outer.child rest = inner
  := by
  rw [FPath.ext_iff, child, ← relativePieces_eq_some, relativePathFrom]
  split
  case h_1 h => simp [h]
  case h_2 found h => simp [h, FPath.ext_iff]

theorem containsLoop_iff {α : Type*} [DecidableEq α] {these others : List α} :
  containsLoop these others = true ↔ ∃ rest, these ++ rest = others
  := by
  induction these generalizing others with
  | nil => simp [containsLoop]
  | cons piece these ih =>
    cases others with
    | nil => simp [containsLoop]
    | cons other others =>
      rw [containsLoop]
      split
      case isTrue h => simp [h]
      case isFalse h =>
        rw [not_not] at h
        simp [h, ih]

theorem contains_eq_containsLoop (p q : FPath) :
  p.contains q = containsLoop p.pieces q.pieces
  := by
  rw [contains]
  split
  case isFalse => rfl
  case isTrue hlen =>
    symm
    rw [Bool.eq_false_iff]
    intro h
    obtain ⟨rest, hrest⟩ := containsLoop_iff.mp h
    have := congrArg List.length hrest
    rw [List.length_append] at this
    omega

theorem contains_iff {p q : FPath} :
  p.contains q = true ↔ ∃ r, p.child r = q
  := by
  rw [contains_eq_containsLoop, containsLoop_iff]
  constructor
  · rintro ⟨rest, hrest⟩
    use ⟨rest, fun piece h => q.wf piece (hrest ▸ List.mem_append_right _ h)⟩
    apply FPath.ext hrest
  · rintro ⟨r, rfl⟩
    use r.pieces
    rfl

/-- Pieces written with slashes between them are read back. -/
theorem pieces_flatMap {piece : NSString} {ps : List NSString}
    (hpiece : piece ≠ [] ∧ slash ∉ piece) (hps : ∀ p ∈ ps, p ≠ [] ∧ slash ∉ p) :
  NSString.pieces (piece ++ ps.flatMap fun p => slash :: p) = piece :: ps
  := by
  induction ps generalizing piece with
  | nil => simpa using pieces_of_notMem hpiece.1 hpiece.2
  | cons p ps ih =>
    rw [List.flatMap_cons, List.cons_append, pieces_append,
      pieces_of_notMem hpiece.1 hpiece.2, ih (hps p (by simp)) (fun q hq => hps q (by simp [hq]))]
    rfl

theorem pathWithString_wireFormat (p : FPath) :
  pathWithString p.wireFormat = p
  := by
  obtain ⟨pieces, wf⟩ := p
  apply FPath.ext
  cases pieces with
  | nil => rfl
  | cons piece pieces =>
    apply pieces_flatMap (wf piece (by simp))
    intro p hp
    apply wf p (by simp [hp])

theorem pathWithString_toString (p : FPath) (trailingSlash : Bool) :
  pathWithString (p.toStringWithTrailingSlash trailingSlash) = p
  := by
  obtain ⟨pieces, wf⟩ := p
  apply FPath.ext
  cases pieces with
  | nil => rfl
  | cons piece pieces =>
    have hread : NSString.pieces ((piece :: pieces).flatMap fun p => slash :: p)
        = piece :: pieces := by
      rw [List.flatMap_cons, List.cons_append, pieces_slash]
      apply pieces_flatMap (wf piece (by simp))
      intro p hp
      apply wf p (by simp [hp])
    rw [pathWithString, toStringWithTrailingSlash]
    simp only
    rw [if_neg (by simp)]
    split
    · rw [pieces_append, hread]
      simp
    · exact hread

/-- Reading what is written gives the path back in each of its forms; slashes separate the
pieces of a string, however many there are; a path contains another exactly when there is
a relative path between them, which is the one that leads from the one to the other. -/
theorem roundTrip (p q : FPath) :
  pathWithString p.wireFormat = p
    ∧ (∀ trailingSlash, pathWithString (p.toStringWithTrailingSlash trailingSlash) = p)
    ∧ (∀ s t, pathWithString (s ++ slash :: t) = (pathWithString s).child (pathWithString t))
    ∧ (p.contains q = true ↔ (relativePathFrom p q).isSome = true)
    ∧ ∀ r, relativePathFrom p q = some r ↔ p.child r = q
  := by
  refine ⟨pathWithString_wireFormat p, pathWithString_toString p, ?_, ?_,
    fun r => relativePathFrom_eq_some⟩
  · intro s t
    apply FPath.ext
    apply pieces_append
  · rw [contains_iff, Option.isSome_iff_exists]
    simp only [relativePathFrom_eq_some]

end FPath

/-! ## Keys

The children of a node are kept in the order of `compareKey`, those of a tree of writes
in the order of `compare`.  A key is a piece of a path that both orders tell apart from
all other ones: its characters are ASCII, and it is not a zero with a sign.
-/

/-- A piece of ASCII characters that is not a zero with a sign. -/
def NSString.Key (s : NSString) : Prop :=
  s ≠ [] ∧ (s.all fun c => c < 128 && c != NSString.slash) = true
    ∧ ¬ (2 ≤ s.length ∧ s = NSString.minus :: FUtilities.zeros (s.length - 1))

instance : DecidablePred NSString.Key := fun s =>
  inferInstanceAs (Decidable (s ≠ [] ∧ (s.all fun c => c < 128 && c != NSString.slash) = true
    ∧ ¬ (2 ≤ s.length ∧ s = NSString.minus :: FUtilities.zeros (s.length - 1))))

theorem NSString.Key.slash_notMem {s : NSString} (h : s.Key) :
  NSString.slash ∉ s
  := by
  intro hslash
  have hall := List.all_eq_true.mp h.2.1 _ hslash
  simp at hall

/-- The key of a child. -/
abbrev FKey : Type := { s : NSString // s.Key }

namespace FKey

/-- The key under which the priority of a node is addressed. -/
def priority : FKey := ⟨NSString.ofASCII ".priority", by decide⟩

/-- The comparator of the children of a node. -/
def keyComparator : Comparator FKey :=
  FUtilities.keyComparator.comap fun k => .name k.1

/-- The comparator of the children of a tree; `compare` on ASCII strings. -/
def stringComparator : Comparator FKey :=
  (Comparator.ofOrd NSString).comap Subtype.val

theorem eq_of_keyComparator {a b : FKey} (h : keyComparator a b = .eq) :
  a = b
  := by
  rcases (FUtilities.compareKey_name_eq_iff a.1 b.1).mp h with h | h
  · apply Subtype.ext h
  · obtain ⟨n, hpos, -, ⟨ha, -⟩ | ⟨-, hb⟩⟩ := h
    · refine absurd ⟨?_, ?_⟩ a.2.2.2
      · simp [ha, FUtilities.zeros]
        omega
      · simp [ha, FUtilities.zeros]
    · refine absurd ⟨?_, ?_⟩ b.2.2.2
      · simp [hb, FUtilities.zeros]
        omega
      · simp [hb, FUtilities.zeros]

theorem eq_of_stringComparator {a b : FKey} (h : stringComparator a b = .eq) :
  a = b
  := Subtype.ext (Std.LawfulEqCmp.eq_of_compare h)

end FKey

namespace FPath

/-- The path of a list of keys. -/
def ofKeys (path : List FKey) : FPath where
  pieces := path.map Subtype.val
  wf piece h := by
    obtain ⟨k, -, rfl⟩ := List.mem_map.mp h
    exact ⟨k.2.1, k.2.slash_notMem⟩

theorem containsLoop_map {p q : List FKey} :
  containsLoop (p.map Subtype.val) (q.map Subtype.val) = containsLoop p q
  := by
  induction p generalizing q with
  | nil => rfl
  | cons k p ih =>
    cases q with
    | nil => rfl
    | cons j q =>
      rw [List.map_cons, List.map_cons, containsLoop, containsLoop, ih]
      simp only [ne_eq, Subtype.ext_iff]

theorem relativePieces_map {p q : List FKey} :
  relativePieces (p.map Subtype.val) (q.map Subtype.val)
    = (relativePieces p q).map (List.map Subtype.val)
  := by
  induction p generalizing q with
  | nil => rfl
  | cons k p ih =>
    cases q with
    | nil => rfl
    | cons j q =>
      rw [List.map_cons, List.map_cons, relativePieces, relativePieces, ih]
      simp only [← Subtype.ext_iff]
      split <;> rfl

/-- The operations on paths of keys are those on the lists of their keys. -/
theorem ofKeys_operations (p q : List FKey) :
  (ofKeys p).child (ofKeys q) = ofKeys (p ++ q)
    ∧ (ofKeys p).popFront = ofKeys p.tail
    ∧ (ofKeys p).contains (ofKeys q) = containsLoop p q
    ∧ relativePathFrom (ofKeys p) (ofKeys q) = (relativePieces p q).map ofKeys
  := by
  refine ⟨FPath.ext List.map_append.symm, FPath.ext List.map_tail.symm, ?_, ?_⟩
  · rw [contains_eq_containsLoop, ← containsLoop_map]
    rfl
  · ext r
    rw [relativePathFrom_eq_some, FPath.ext_iff]
    change p.map Subtype.val ++ r.pieces = q.map Subtype.val ↔ _
    rw [← relativePieces_eq_some, relativePieces_map]
    simp only [Option.map_eq_some_iff, FPath.ext_iff]
    rfl

end FPath

end ForDream

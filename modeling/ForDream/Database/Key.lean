import ForDream.Lib.Ascending
import Mathlib.Tactic.Common

/-!
# The order of keys

`compareKey` orders the keys of children: numerals of 32-bit integers first, by their
value and then by their length, and all other keys after them, by their code units.
The two names that stand for the ends come first and last.

This is a total preorder.  Two different keys compare as the same exactly when they are
a zero with a sign and a zero without one, of the same length.
-/

namespace ForDream

/-- A string, as its code units. -/
abbrev NSString : Type := List UInt16

namespace NSString

/-- The string of an ASCII text. -/
def ofASCII (s : String) : NSString := s.toList.map fun c => c.toNat.toUInt16

/-- The code unit of the character `-`. -/
def minus : UInt16 := 45

/-- The code unit of the digit zero. -/
def zero : UInt16 := 48

/-- The code unit of the digit nine. -/
def nine : UInt16 := 57

end NSString

/-- The name of a child, or one of the names that stand for the ends. -/
inductive FName where
  | minName
  | maxName
  | name (s : NSString)
  deriving DecidableEq

namespace FUtilities

open NSString

/-- The loop over the digits of a numeral. -/
def parseDigits : NSString → ℕ → Option ℕ
  | [], value => some value
  | c :: cs, value =>
      if c < zero ∨ c > nine then none else parseDigits cs (value * 10 + (c.toNat - zero.toNat))

/-- The value, unless it is out of the range of 32-bit integers. -/
def inRange32 (value : ℤ) : Option ℤ :=
  if value < -2147483648 ∨ value > 2147483647 then none else some value

/-- The integer a string is a numeral of. -/
def tryParseStringToInt (str : NSString) : Option ℤ :=
  if str.length > 11 ∨ str.length = 0 then none
  else if str.head? = some minus then
    if str.length = 1 then none else (parseDigits str.tail 0).bind fun value => inRange32 (-value)
  else (parseDigits str 0).bind fun value => inRange32 value

/-- The comparison of two keys. -/
def compareKey : FName → FName → Ordering
  | .minName, .minName => .eq
  | .maxName, .maxName => .eq
  | .minName, _ => .lt
  | _, .maxName => .lt
  | _, .minName => .gt
  | .maxName, _ => .gt
  | .name a, .name b =>
      match tryParseStringToInt a, tryParseStringToInt b with
      | some aAsInt, some bAsInt =>
          if aAsInt > bAsInt then .gt
          else if aAsInt < bAsInt then .lt
          else if a.length > b.length then .gt
          else if a.length < b.length then .lt
          else .eq
      | some _, none => .lt
      | none, some _ => .gt
      | none, none => List.compareLex compare a b

/-! ## A total preorder -/

/-- The class of a key: an end, a numeral or another string. -/
def rank : FName → ℕ
  | .minName => 0
  | .name s => if (tryParseStringToInt s).isSome then 1 else 2
  | .maxName => 3

/-- The integer of a numeral. -/
def intValue : FName → ℤ
  | .name s => (tryParseStringToInt s).getD 0
  | _ => 0

/-- The length of a numeral. -/
def numeralLength : FName → ℕ
  | .name s => if (tryParseStringToInt s).isSome then s.length else 0
  | _ => 0

/-- The code units of a string that is not a numeral. -/
def units : FName → NSString
  | .name s => if (tryParseStringToInt s).isSome then [] else s
  | _ => []

/-- Keys are compared by their class, the value and the length of numerals, and the code
units of other strings. -/
theorem compareKey_eq_compareLex (a b : FName) :
  compareKey a b
    = compareLex (compareOn rank) (compareLex (compareOn intValue)
        (compareLex (compareOn numeralLength) (compareOn units))) a b
  := by
  rcases a with _ | _ | a <;> rcases b with _ | _ | b
  all_goals simp only [compareKey, compareLex, compareOn, rank]
  · rfl
  · rfl
  · split <;> rfl
  · rfl
  · rfl
  · split <;> rfl
  · split <;> rfl
  · split <;> rfl
  · rcases ha : tryParseStringToInt a with _ | i <;> rcases hb : tryParseStringToInt b with _ | j
    · simp [intValue, numeralLength, units, ha, hb]
      rfl
    · rfl
    · rfl
    · simp only [intValue, numeralLength, units, ha, hb, Option.isSome_some, if_true,
        Option.getD_some]
      rcases Int.lt_trichotomy i j with hij | rfl | hij
      · rw [if_neg (by omega), if_pos hij, Int.compare_eq_lt.mpr hij]
        rfl
      · rw [if_neg (by omega), if_neg (by omega), Int.compare_eq_eq.mpr rfl]
        rcases Nat.lt_trichotomy a.length b.length with hlen | hlen | hlen
        · rw [if_neg (by omega), if_pos hlen, Nat.compare_eq_lt.mpr hlen]
          rfl
        · rw [if_neg (by omega), if_neg (by omega), Nat.compare_eq_eq.mpr hlen]
          rfl
        · rw [if_pos hlen, Nat.compare_eq_gt.mpr hlen]
          rfl
      · rw [if_pos hij, Int.compare_eq_gt.mpr hij]
        rfl

instance : Std.TransCmp compareKey := by
  have heq : compareKey = compareLex (compareOn rank) (compareLex (compareOn intValue)
      (compareLex (compareOn numeralLength) (compareOn units))) := by
    funext a b
    apply compareKey_eq_compareLex
  rw [heq]
  infer_instance

/-- The comparator of the children of a node. -/
def keyComparator : Comparator FName where
  compare := compareKey
  trans := inferInstance

/-! ## Keys that compare as the same -/

/-- Strings of digits of the same length and the same value are the same. -/
theorem parseDigits_inj
    {cs ds : NSString} {a b v : ℕ} (hlen : cs.length = ds.length)
    (hc : parseDigits cs a = some v) (hd : parseDigits ds b = some v) :
  a = b ∧ cs = ds
  := by
  induction cs generalizing ds a b with
  | nil =>
    obtain rfl : ds = [] := List.length_eq_zero_iff.mp hlen.symm
    rw [parseDigits] at hc hd
    exact ⟨Option.some.inj (hc.trans hd.symm), rfl⟩
  | cons c cs ih =>
    cases ds with
    | nil => cases hlen
    | cons d ds =>
      rw [parseDigits] at hc hd
      split at hc
      · cases hc
      case isFalse hcr =>
        split at hd
        · cases hd
        case isFalse hdr =>
          obtain ⟨hab, rfl⟩ := ih (Nat.succ.inj hlen) hc hd
          simp only [not_or, not_lt, zero, nine, UInt16.lt_iff_toNat_lt,
            UInt16.toNat_ofNat, gt_iff_lt] at hcr hdr hab
          have hcd : c.toNat = d.toNat := by omega
          exact ⟨by omega, by rw [UInt16.toNat_inj.mp hcd]⟩

/-- A string of zeros. -/
def zeros (n : ℕ) : NSString := List.replicate n zero

theorem parseDigits_zeros (n : ℕ) :
  parseDigits (zeros n) 0 = some 0
  := by
  induction n with
  | zero => rfl
  | succ n ih =>
    rw [zeros, List.replicate_succ, parseDigits, if_neg (by decide)]
    exact ih

theorem eq_zeros {cs : NSString} (h : parseDigits cs 0 = some 0) :
  cs = zeros cs.length
  := (parseDigits_inj (by simp [zeros]) h (parseDigits_zeros cs.length)).2

/-- What a numeral is made of. -/
theorem tryParseStringToInt_eq_some {s : NSString} {i : ℤ} (h : tryParseStringToInt s = some i) :
  (∃ cs v, s = minus :: cs ∧ 0 < cs.length ∧ cs.length ≤ 10 ∧ parseDigits cs 0 = some v ∧ i = -v)
    ∨ ∃ v, 0 < s.length ∧ s.length ≤ 11 ∧ parseDigits s 0 = some v ∧ i = v
  := by
  have hrange : ∀ {value j : ℤ}, inRange32 value = some j → j = value := by
    intro value j hj
    rw [inRange32] at hj
    split at hj
    · cases hj
    · exact (Option.some.inj hj).symm
  rw [tryParseStringToInt] at h
  split at h
  · cases h
  case isFalse hlen =>
    split at h
    case isTrue hhead =>
      split at h
      · cases h
      case isFalse hone =>
        obtain ⟨v, hv, hi⟩ := Option.bind_eq_some_iff.mp h
        obtain ⟨cs, rfl⟩ : ∃ cs, s = minus :: cs := List.head?_eq_some_iff.mp hhead
        simp only [List.length_cons] at hlen hone
        left
        exact ⟨cs, v, rfl, by omega, by omega, hv, hrange hi⟩
    case isFalse =>
      obtain ⟨v, hv, hi⟩ := Option.bind_eq_some_iff.mp h
      right
      exact ⟨v, by omega, by omega, hv, hrange hi⟩

theorem tryParseStringToInt_zeros {n : ℕ} (hpos : 0 < n) (hle : n ≤ 11) :
  tryParseStringToInt (zeros n) = some 0
  := by
  have hlen : (zeros n).length = n := by simp [zeros]
  have hhead : (zeros n).head? ≠ some minus := by
    obtain ⟨m, rfl⟩ : ∃ m, n = m + 1 := ⟨n - 1, by omega⟩
    simp [zeros, List.replicate_succ, zero, minus]
  rw [tryParseStringToInt, hlen, if_neg (by omega), if_neg hhead, parseDigits_zeros]
  rfl

theorem tryParseStringToInt_minus_zeros {n : ℕ} (hpos : 0 < n) (hle : n ≤ 10) :
  tryParseStringToInt (minus :: zeros n) = some 0
  := by
  have hlen : (minus :: zeros n).length = n + 1 := by simp [zeros]
  rw [tryParseStringToInt, hlen, if_neg (by omega), List.head?_cons, if_pos rfl,
    if_neg (by omega), List.tail_cons, parseDigits_zeros]
  rfl

/-- A zero with a sign and a zero without one, of the same length. -/
def SignedZeros (a b : NSString) : Prop :=
  ∃ n, 0 < n ∧ n ≤ 10
    ∧ (a = minus :: zeros n ∧ b = zeros (n + 1) ∨ a = zeros (n + 1) ∧ b = minus :: zeros n)

/-- Numerals of the same length and the same integer are the same, or zeros of which one
has a sign. -/
theorem eq_or_signedZeros {a b : NSString} {i : ℤ}
    (ha : tryParseStringToInt a = some i) (hb : tryParseStringToInt b = some i)
    (hlen : a.length = b.length) :
  a = b ∨ SignedZeros a b
  := by
  have hmixed : ∀ {cs ds : NSString} {v w : ℕ}, 0 < cs.length → cs.length ≤ 10 →
      parseDigits cs 0 = some v → parseDigits ds 0 = some w → (-v : ℤ) = w →
      (minus :: cs).length = ds.length → cs = zeros cs.length ∧ ds = zeros (cs.length + 1) := by
    intro cs ds v w _ _ hcs hds hvw hlen
    obtain rfl : v = 0 := by omega
    obtain rfl : w = 0 := by omega
    rw [List.length_cons] at hlen
    exact ⟨eq_zeros hcs, by rw [hlen]; exact eq_zeros hds⟩
  rcases tryParseStringToInt_eq_some ha with ⟨cs, v, rfl, hpos, hle, hcs, rfl⟩ | ⟨v, -, -, hv, rfl⟩
  · rcases tryParseStringToInt_eq_some hb with ⟨ds, w, rfl, -, -, hds, hw⟩ | ⟨w, -, -, hw, hi⟩
    · obtain rfl : v = w := by omega
      left
      rw [(parseDigits_inj (Nat.succ.inj hlen) hcs hds).2]
    · obtain ⟨hcs', hb'⟩ := hmixed hpos hle hcs hw hi hlen
      right
      exact ⟨cs.length, hpos, hle, .inl ⟨by rw [← hcs'], hb'⟩⟩
  · rcases tryParseStringToInt_eq_some hb with ⟨ds, w, rfl, hpos, hle, hds, hi⟩ | ⟨w, -, -, hw, hi⟩
    · obtain ⟨hds', ha'⟩ := hmixed hpos hle hds hv (by omega) hlen.symm
      right
      exact ⟨ds.length, hpos, hle, .inr ⟨ha', by rw [← hds']⟩⟩
    · obtain rfl : v = w := by omega
      left
      exact (parseDigits_inj hlen hv hw).2

theorem SignedZeros.parse {a b : NSString} (h : SignedZeros a b) :
  tryParseStringToInt a = some 0 ∧ tryParseStringToInt b = some 0 ∧ a.length = b.length
  := by
  obtain ⟨n, hpos, hle, ⟨rfl, rfl⟩ | ⟨rfl, rfl⟩⟩ := h
  · exact ⟨tryParseStringToInt_minus_zeros hpos hle,
      tryParseStringToInt_zeros (by omega) (by omega), by simp [zeros]⟩
  · exact ⟨tryParseStringToInt_zeros (by omega) (by omega),
      tryParseStringToInt_minus_zeros hpos hle, by simp [zeros]⟩

/-- Two strings compare as the same exactly when they are the same, or zeros of the same
length of which one has a sign. -/
theorem compareKey_name_eq_iff (a b : NSString) :
  compareKey (.name a) (.name b) = .eq ↔ a = b ∨ SignedZeros a b
  := by
  constructor
  · intro h
    rw [compareKey] at h
    split at h
    case h_1 i j ha hb =>
      split at h
      · cases h
      split at h
      · cases h
      split at h
      · cases h
      split at h
      · cases h
      obtain rfl : i = j := by omega
      apply eq_or_signedZeros ha hb
      omega
    · cases h
    · cases h
    · left
      exact Std.LawfulEqCmp.eq_of_compare h
  · rintro (rfl | h)
    · exact Std.ReflCmp.compare_self
    · obtain ⟨ha, hb, hlen⟩ := h.parse
      simp [compareKey, ha, hb, hlen]

/-- The comparison of keys is a total preorder, whatever the keys; the only different
strings it does not tell apart are zeros of the same length of which one has a sign. -/
theorem compareKey_preorder :
  (∀ a b, compareKey b a = (compareKey a b).swap)
    ∧ (∀ a b c, (compareKey a b).isLE → (compareKey b c).isLE → (compareKey a c).isLE)
    ∧ (∀ a, compareKey .minName (.name a) = .lt ∧ compareKey (.name a) .maxName = .lt)
    ∧ ∀ a b, compareKey (.name a) (.name b) = .eq ↔ a = b ∨ SignedZeros a b
  := by
  refine ⟨?_, ?_, fun a => ⟨rfl, rfl⟩, compareKey_name_eq_iff⟩
  · intro a b
    exact Std.OrientedCmp.eq_swap
  · intro a b c
    exact Std.TransCmp.isLE_trans

end FUtilities

end ForDream

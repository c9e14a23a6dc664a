import ForDream.Main

/-!
# Swiping a row of the main table

A swipe captures the dream of the container at the row and the row itself, and opens an
alert.  When it is confirmed, the dreams of the date of this dream are removed, but one
row is deleted: that captured, whatever it shows by then.

A confirmed swipe removes exactly the row swiped if the row still shows the dream swiped
and that is the only dream of its date.  It does so in every run in which what goes past
the table leaves the container as it is, a reload while the alert is open finds the dream
in its row, and no other dream has its date at the confirmation.
-/

namespace ForDream

open Model

namespace MainVC

variable {P : Platform} {m t : MainVC}

/-- The number of dreams of the container that have the date of a dream. -/
def dated (m : MainVC) (removeDream : Dream) : ℕ :=
  m.dreamContainers.countP fun dream => dream.writedDate == removeDream.writedDate

/-- A confirmed swipe leaves one dream less than the table has rows, and the row swiped
shows the dream to be removed. -/
def Exact (m : MainVC) : Event → Prop
  | .confirm => ∀ p ∈ m.swiped, (remaining m.dreamContainers p.1).length + 1 = m.rows.length
      ∧ m.rows[p.2]? = some p.1
  | _ => True

/-- The row swiped shows the dream to be removed, and the dreams of its date make up for
what the container has more than the table. -/
def Accounted (m : MainVC) : Event → Prop
  | .confirm => ∀ p ∈ m.swiped, m.rows[p.2]? = some p.1
      ∧ m.rows.length + m.dated p.1 = m.dreamContainers.length + 1
  | _ => True

/-- The row swiped shows the dream to be removed, and it is the only one of its date. -/
def Sole (m : MainVC) : Event → Prop
  | .confirm => ∀ p ∈ m.swiped, m.rows[p.2]? = some p.1 ∧ m.dated p.1 = 1
  | _ => True

/-- The snapshot a block delivers to the observer of `MainVC`. -/
def Block.reloaded? : Block → Option Node
  | .value .main snapshot => some snapshot
  | _ => none

/-- Nothing comes between the table and the container: what goes past the table leaves the
container as it is, a reload while the alert is open finds the dream swiped in its row, and
a swipe is confirmed only if no other dream has the date. -/
def Undisturbed (P : Platform) (m : MainVC) : Event → Prop
  | .confirm => ∀ p ∈ m.swiped, m.dated p.1 = 1
  | .turn => ∀ b ∈ m.mainQueue.head?,
      (∀ snapshot ∈ b.searched?, ∀ container ∈ fetched P.sorter snapshot,
        container = m.dreamContainers)
      ∧ ∀ snapshot ∈ b.reloaded?, ∀ container ∈ fetched P.sorter snapshot,
        ∀ p ∈ m.swiped, container[p.2]? = some p.1
  | e => m.Kept P e

instance (m : MainVC) : ∀ e, Decidable (m.Exact e)
  | .confirm => inferInstanceAs (Decidable (∀ p ∈ m.swiped,
      (remaining m.dreamContainers p.1).length + 1 = m.rows.length ∧ m.rows[p.2]? = some p.1))
  | .commit _ => inferInstanceAs (Decidable True)
  | .cancel => inferInstanceAs (Decidable True)
  | .op _ => inferInstanceAs (Decidable True)
  | .turn => inferInstanceAs (Decidable True)
  | .remote _ => inferInstanceAs (Decidable True)

instance (P : Platform) (m : MainVC) : ∀ e, Decidable (m.Undisturbed P e)
  | .confirm => inferInstanceAs (Decidable (∀ p ∈ m.swiped, m.dated p.1 = 1))
  | .turn => inferInstanceAs (Decidable (∀ b ∈ m.mainQueue.head?,
      (∀ snapshot ∈ b.searched?, ∀ container ∈ fetched P.sorter snapshot,
        container = m.dreamContainers)
      ∧ ∀ snapshot ∈ b.reloaded?, ∀ container ∈ fetched P.sorter snapshot,
        ∀ p ∈ m.swiped, container[p.2]? = some p.1))
  | .op op => inferInstanceAs (Decidable (m.Kept P (.op op)))
  | .commit row => inferInstanceAs (Decidable (m.Kept P (.commit row)))
  | .cancel => inferInstanceAs (Decidable (m.Kept P .cancel))
  | .remote node => inferInstanceAs (Decidable (m.Kept P (.remote node)))

/-- Removing the dreams of a date leaves all but these. -/
theorem length_remaining (m : MainVC) (removeDream : Dream) :
  (remaining m.dreamContainers removeDream).length + m.dated removeDream
    = m.dreamContainers.length
  := by
  have hsplit := List.length_eq_countP_add_countP (l := m.dreamContainers)
    fun dream => dream.writedDate == removeDream.writedDate
  rw [remaining, dated, ← List.countP_eq_length_filter, Nat.add_comm, hsplit]
  simp [beq_eq_decide]

/-- A confirmed swipe is exact when the dreams of the date are accounted for. -/
theorem exact_iff_accounted (m : MainVC) (e : Event) :
  m.Exact e ↔ m.Accounted e
  := by
  cases e with
  | confirm =>
    constructor
    · intro h p hp
      obtain ⟨hcount, hrow⟩ := h p hp
      have hlength := m.length_remaining p.1
      use hrow
      omega
    · intro h p hp
      obtain ⟨hrow, hcount⟩ := h p hp
      have hlength := m.length_remaining p.1
      constructor
      · omega
      · exact hrow
  | _ => rfl

/-- In step with the container, they are if the dream is the only one of its date. -/
theorem InStep.accounted_iff (h : m.InStep) (e : Event) :
  m.Accounted e ↔ m.Sole e
  := by
  rw [InStep] at h
  cases e with
  | confirm =>
    rw [Accounted, Sole]
    simp only [h, Nat.add_left_cancel_iff]
  | _ => rfl

/-- An exact swipe satisfies what UIKit requires of `deleteRows`. -/
theorem Exact.confirm_isSome (h : m.Exact .confirm) :
  m.confirm.isSome
  := by
  rw [confirm]
  cases hswiped : m.swiped with
  | none => rfl
  | some p =>
    obtain ⟨hcount, hrow⟩ := h p hswiped
    have hlt : p.2 < m.rows.length := (List.getElem?_eq_some_iff.mp hrow).1
    simp [deleteRows, removeAction, hlt, hcount]

/-- The table shows the container, and the row swiped the dream captured. -/
structure Shown (m : MainVC) : Prop where
  rows : m.rows = m.dreamContainers
  swiped : ∀ p ∈ m.swiped, m.rows[p.2]? = some p.1

theorem Shown.of_eq (h : m.Shown) (hcontainer : t.dreamContainers = m.dreamContainers)
    (hrows : t.rows = m.rows) (hswiped : t.swiped = m.swiped) :
  t.Shown
  where
  rows := by rw [hcontainer, hrows, h.rows]
  swiped := by
    rw [hrows, hswiped]
    exact h.swiped

/-- The alert of a swipe opens for the dream its row shows. -/
theorem Shown.commit (h : m.Shown) {row : ℕ} (hcommit : m.commit row = some t) :
  t.Shown
  := by
  rw [MainVC.commit] at hcommit
  split at hcommit
  · obtain ⟨removeDream, hrow, rfl⟩ := Option.map_eq_some_iff.mp hcommit
    use h.rows
    rintro p ⟨⟩
    rw [← hrow, ← h.rows]
  · obtain rfl := Option.some.inj hcommit
    exact h

/-- A confirmed swipe of the only dream of its date takes this dream out of the container
and its row out of the table. -/
theorem Shown.confirm (h : m.Shown) (hsole : ∀ p ∈ m.swiped, m.dated p.1 = 1)
    (hconfirm : m.confirm = some t) :
  t.Shown
  := by
  rw [MainVC.confirm] at hconfirm
  split at hconfirm
  · obtain rfl := Option.some.inj hconfirm
    exact h
  next removeDream row hswiped =>
    obtain ⟨rows, hrows, rfl⟩ := Option.map_eq_some_iff.mp hconfirm
    have hrow : m.dreamContainers[row]? = some removeDream := by
      rw [← h.rows]
      apply h.swiped _ hswiped
    have herase : rows = remaining m.dreamContainers removeDream := by
      rw [deleteRows] at hrows
      split at hrows
      next =>
        rw [← Option.some.inj hrows, h.rows]
        symm
        apply remaining_eq_eraseIdx hrow (hsole _ hswiped)
      next => cases hrows
    constructor
    · rw [(writes_eq _ _).1, (writes_eq _ _).2.1]
      exact herase
    · rw [(writes_eq _ _).2.2]
      intro p hp
      cases hp

/-- A turn that reads the container again, or reloads the table with the dream swiped in its
row, keeps the table showing the container. -/
theorem Shown.turn (h : m.Shown) (hundisturbed : m.Undisturbed P .turn)
    (hturn : m.turn P = some t) :
  t.Shown
  := by
  rcases turn_cases hturn with
    ⟨-, rfl⟩ | ⟨screen, snapshot, queue, container, hqueue, hcontainer, rfl⟩ | ⟨_, _, -, rfl⟩
  · exact h
  · rw [Undisturbed, hqueue] at hundisturbed
    obtain ⟨hsearched, hreloaded⟩ := hundisturbed _ rfl
    cases screen with
    | main => exact ⟨rfl, hreloaded snapshot rfl container hcontainer⟩
    | search index => exact h.of_eq (hsearched snapshot rfl container hcontainer) rfl rfl
    | refresh => exact h.of_eq (hsearched snapshot rfl container hcontainer) rfl rfl
  · exact h.of_eq rfl rfl rfl

/-- Every event that does not disturb the table keeps it showing the container. -/
theorem Shown.step (h : m.Shown) {e : Event} (hundisturbed : m.Undisturbed P e)
    (hstep : m.step P e = some t) :
  t.Shown
  := by
  cases e with
  | commit row => exact h.commit hstep
  | cancel =>
    obtain rfl := Option.some.inj hstep
    use h.rows
    intro p hp
    cases hp
  | confirm => exact h.confirm hundisturbed hstep
  | op op =>
    obtain rfl := Option.some.inj hstep
    obtain ⟨hcontainer, hrows, hswiped⟩ := m.perform_eq op
    rw [perform_of_kept hundisturbed] at hcontainer
    exact h.of_eq hcontainer hrows hswiped
  | turn => exact h.turn hundisturbed hstep
  | remote node =>
    obtain rfl := Option.some.inj hstep
    obtain ⟨hcontainer, hrows, hswiped⟩ := m.setNode_eq node
    exact h.of_eq hcontainer hrows hswiped

/-- A swipe of the table that shows the container is exact if the dream swiped is the only
one of its date. -/
theorem Shown.exact (h : m.Shown) {e : Event} (hundisturbed : m.Undisturbed P e) :
  m.Exact e
  := by
  rw [exact_iff_accounted]
  cases e with
  | confirm =>
    intro p hp
    use h.swiped p hp
    rw [h.rows, hundisturbed p hp]
  | _ => trivial

/-- In a run in step with the container, the confirmed swipes are exact if and only if each
is of the only dream of its date, in its row. -/
theorem always_exact_iff_sole {es : List Event} (h : m.InStep)
    (hkept : Machine.Always (step P) (Kept P) m es) :
  Machine.Always (step P) Exact m es ↔ Machine.Always (step P) Sole m es
  := by
  constructor
  · intro hexact
    apply (hkept.and hexact).imp (I := InStep) _ _ h
    · rintro m e hm ⟨-, he⟩
      rw [← hm.accounted_iff, ← exact_iff_accounted]
      exact he
    · rintro m e t hm ⟨he, -⟩ ht
      exact (hm.step_iff ht).mpr he
  · intro hsole
    apply (hkept.and hsole).imp (I := InStep) _ _ h
    · rintro m e hm ⟨-, he⟩
      rw [exact_iff_accounted, hm.accounted_iff]
      exact he
    · rintro m e t hm ⟨he, -⟩ ht
      exact (hm.step_iff ht).mpr he

/-- In a run that does not disturb the table, the confirmed swipes are exact. -/
theorem always_exact_of_undisturbed {es : List Event} (h : m.Shown)
    (hundisturbed : Machine.Always (step P) (Undisturbed P) m es) :
  Machine.Always (step P) Exact m es
  := by
  apply hundisturbed.imp (I := Shown) _ _ h
  · intro m e hm he
    apply hm.exact he
  · intro m e t hm he ht
    apply hm.step he ht

/-- In every run, the confirmed swipes all remove exactly the row swiped if and only if at
each of them the row shows the dream to be removed and the dreams of its date are
accounted for; as long as the table is in step, if and only if the dream is the only one
of its date.  They do in every run that does not disturb the table, and UIKit accepts such
a swipe. -/
theorem exact_iff (P : Platform) (node : Node) (es : List Event) :
  (Machine.Always (step P) Exact (viewDidLoad node) es
      ↔ Machine.Always (step P) Accounted (viewDidLoad node) es)
    ∧ (Machine.Always (step P) (Kept P) (viewDidLoad node) es →
      (Machine.Always (step P) Exact (viewDidLoad node) es
        ↔ Machine.Always (step P) Sole (viewDidLoad node) es))
    ∧ (Machine.Always (step P) (Undisturbed P) (viewDidLoad node) es →
      Machine.Always (step P) Exact (viewDidLoad node) es)
    ∧ ∀ m : MainVC, m.Exact .confirm → (m.step P .confirm).isSome
  := by
  constructor
  · apply Machine.always_congr (I := fun _ => True) _ _ trivial
    · intro m e _
      apply exact_iff_accounted
    · intros
      trivial
  · constructor
    · apply always_exact_iff_sole
      rfl
    · constructor
      · apply always_exact_of_undisturbed
        exact ⟨rfl, nofun⟩
      · intro m hm
        apply hm.confirm_isSome

/-- The first of two rows is swiped and the swipe confirmed; then the second one. -/
theorem exact_iff_swiped :
  Machine.Always (step .reference) Exact
    (viewDidLoad (store [sea "2019-03-18", fire "2019-03-19"]))
    [.turn, .turn, .commit 0, .confirm, .turn, .turn, .commit 0, .confirm, .turn]
  := by
  obtain ⟨-, -, hexact, -⟩ := exact_iff .reference
    (store [sea "2019-03-18", fire "2019-03-19"])
    [.turn, .turn, .commit 0, .confirm, .turn, .turn, .commit 0, .confirm, .turn]
  apply hexact
  decide

/-- A second dream is written for the date of the first, and the overwrite accepted; then
the first row is swiped. -/
def overwritten : List Event :=
  [.turn, .turn, .op (.dateCheckAndSave (fire "2019-03-18")), .op (.overwrite true), .turn,
    .commit 0]

/-- Both dreams of the date are removed, but one row is deleted: UIKit raises an
exception. -/
theorem overwritten_not_exact :
  ∃ m, Machine.run (step .reference) (viewDidLoad (store [sea "2019-03-18"])) overwritten
      = some m
    ∧ m.swiped = some (sea "2019-03-18", 0) ∧ m.InStep
    ∧ ¬ m.Exact .confirm ∧ (m.step .reference .confirm).isNone
    ∧ ¬ Machine.Always (step .reference) Exact (viewDidLoad (store [sea "2019-03-18"]))
      (overwritten ++ [.confirm])
  := by
  use (Machine.run (step .reference) (viewDidLoad (store [sea "2019-03-18"])) overwritten).get
    (by decide)
  use (Option.some_get _).symm
  decide

end MainVC

end ForDream

import ForDream.Device.Sequential

/-!
# The dreams as a map from dates

What the screens of the app are about is a journal: a map from dates to the text of
the dream of that date and whether it is in the star storage.  Writing a dream inserts
it, or replaces the dream of its date when the overwrite alert is accepted; removing a
dream erases its date.

`simulate` runs the device, every operation completed before the next, side by side
with the journal.  The device represents the journal, in its container and in its node,
as long as no overwrite alert was accepted: accepting one saves the new dream after
the old one of the same date, which stays.
-/

namespace ForDream

open Model

/-- A map from dates to the text of a dream and whether it is in the star storage. -/
abbrev Journal : Type := String → Option (String × Bool)

namespace Journal

/-- An operation on the journal.  `write` is `WriteVC.DateCheckAndSave`, with the
answer to the overwrite alert in case it opens. -/
inductive Op where
  | write (dream : Dream) (accepted : Bool)
  | removeAction (removeDream : Dream)
  | removeAllAction
  deriving DecidableEq, Repr

/-- The journal without dreams. -/
def empty : Journal := fun _ => none

/-- The journal after an operation. -/
def apply (j : Journal) : Op → Journal
  | .write dream accepted =>
      if (j dream.writedDate).isSome ∧ accepted = false then j
      else Function.update j dream.writedDate
        (some (dream.detailTxt, dream.starStorageIsChecked))
  | .removeAction removeDream => Function.update j removeDream.writedDate none
  | .removeAllAction => empty

/-- The dreams are those of the journal, one for each date. -/
structure Represents (j : Journal) (dreams : Multiset Dream) : Prop where
  nodup : (dreams.map Dream.writedDate).Nodup
  mem_iff : ∀ d, d ∈ dreams ↔ j d.writedDate = some (d.detailTxt, d.starStorageIsChecked)

/-- The operations of the app that make up an operation on the journal. -/
def Op.ops : Op → List ForDream.Op
  | .write dream accepted => [.dateCheckAndSave dream, .overwrite accepted]
  | .removeAction removeDream => [.removeAction removeDream]
  | .removeAllAction => [.removeAllAction]

theorem represents_empty :
  Represents empty 0
  where
  nodup := by simp
  mem_iff := by simp [empty]

variable {j : Journal} {dreams : Multiset Dream}

/-- A date is taken in the journal exactly when some dream has it. -/
theorem Represents.isSome_iff (h : Represents j dreams) (date : String) :
  (j date).isSome ↔ date ∈ dreams.map Dream.writedDate
  := by
  rw [Option.isSome_iff_exists, Multiset.mem_map]
  constructor
  · rintro ⟨⟨detailTxt, starStorageIsChecked⟩, hj⟩
    use ⟨detailTxt, starStorageIsChecked, date⟩
    rw [h.mem_iff]
    use hj
  · rintro ⟨d, hd, rfl⟩
    rw [h.mem_iff] at hd
    use (d.detailTxt, d.starStorageIsChecked)

/-- Adding a dream of a new date inserts it. -/
theorem Represents.cons (h : Represents j dreams) {dream : Dream}
    (hdate : dream.writedDate ∉ dreams.map Dream.writedDate) :
  Represents (Function.update j dream.writedDate
    (some (dream.detailTxt, dream.starStorageIsChecked))) (dream ::ₘ dreams)
  where
  nodup := by
    rw [Multiset.map_cons, Multiset.nodup_cons]
    use hdate, h.nodup
  mem_iff d := by
    rw [Multiset.mem_cons]
    by_cases heq : d.writedDate = dream.writedDate
    · have hnot : d ∉ dreams := by
        intro hd
        apply hdate
        rw [← heq]
        apply Multiset.mem_map_of_mem _ hd
      obtain ⟨detailTxt, starStorageIsChecked, writedDate⟩ := d
      obtain rfl := heq
      obtain ⟨detailTxt', starStorageIsChecked', writedDate'⟩ := dream
      simp [hnot, eq_comm]
    · have hne : d ≠ dream := by
        rintro rfl
        exact heq rfl
      simp [Function.update_of_ne heq, hne, h.mem_iff]

/-- Removing the dreams of a date erases it. -/
theorem Represents.filter (h : Represents j dreams) (date : String) :
  Represents (Function.update j date none) (dreams.filter fun d => d.writedDate ≠ date)
  where
  nodup := Multiset.nodup_of_le (Multiset.map_le_map (Multiset.filter_le _ _)) h.nodup
  mem_iff d := by
    rw [Multiset.mem_filter, h.mem_iff]
    by_cases heq : d.writedDate = date
    · simp [heq]
    · simp [heq]

end Journal

namespace Device

open Journal

/-- The device after an operation on the journal, every operation of the app completed
before the next. -/
def journalStep (P : Platform) (d : Device) (op : Journal.Op) : Option Device :=
  Machine.run (complete P) d op.ops

/-- The device and the journal, side by side. -/
def simulate (P : Platform) (s : Device × Journal) (op : Journal.Op) :
    Option (Device × Journal) :=
  (journalStep P s.1 op).map fun d => (d, s.2.apply op)

/-- The container and the node of the device both represent the journal. -/
def Refines (s : Device × Journal) : Prop :=
  s.2.Represents s.1.app.dreamContainers
    ∧ ∃ dreams, Stores s.1.node dreams ∧ s.2.Represents dreams

/-- The operation is a write of a taken date whose overwrite alert is accepted. -/
def acceptsOverwrite (d : Device) : Journal.Op → Bool
  | .write dream true => d.app.containsDate dream
  | _ => false

/-- Between the operations on the journal: nothing is pending and no alert is open. -/
structure Ready (P : Platform) (l : List Dream) (d : Device) : Prop where
  agrees : Agrees P l d
  queue : d.app.mainQueue = []
  alert : d.app.alert = none

variable {P : Platform} {l : List Dream} {d : Device} {j : Journal}

theorem Ready.perm (h : Ready P l d) :
  (d.app.dreamContainers : Multiset Dream) = l
  := by
  rw [h.agrees.current h.queue, Multiset.coe_eq_coe]
  apply ascendingOrder_perm

theorem Ready.refines_iff (h : Ready P l d) :
  Refines (d, j) ↔ j.Represents l
  := by
  have hstores : Stores d.node l := by
    rw [h.agrees.node]
    apply stores_store
  rw [Refines, h.perm]
  constructor
  · rintro ⟨hl, -⟩
    exact hl
  · intro hl
    use hl, l

theorem Ready.containsDate_iff (h : Ready P l d) (dream : Dream) :
  d.app.containsDate dream ↔ dream.writedDate ∈ (l : Multiset Dream).map Dream.writedDate
  := by
  rw [← h.perm]
  simp [App.containsDate]

/-- The dreams an operation on the journal leaves. -/
def journalEffect (d : Device) (dreams : Multiset Dream) : Journal.Op → Multiset Dream
  | .write dream accepted =>
      if d.app.containsDate dream ∧ accepted = false then dreams else dream ::ₘ dreams
  | .removeAction removeDream => dreams.filter fun d => d.writedDate ≠ removeDream.writedDate
  | .removeAllAction => 0

/-- An operation on the journal does not trap and changes the dreams by its effect. -/
theorem Ready.journalStep (h : Ready P l d) (op : Journal.Op) :
  ∃ l' d', d.journalStep P op = some d' ∧ Ready P l' d'
    ∧ (l' : Multiset Dream) = d.journalEffect l op
  := by
  cases op with
  | write dream accepted =>
    obtain ⟨l₁, d₁, hd₁, hagrees₁, hqueue₁, heffect₁, halert₁⟩ :=
      h.agrees.complete h.queue (.dateCheckAndSave dream)
    obtain ⟨l₂, d₂, hd₂, hagrees₂, hqueue₂, heffect₂, halert₂⟩ :=
      hagrees₁.complete hqueue₁ (.overwrite accepted)
    use l₂, d₂
    constructor
    · simp [Device.journalStep, Op.ops, hd₁, hd₂]
    · constructor
      · use hagrees₂, hqueue₂
        rw [halert₂, App.perform, App.overwrite]
        split
        · assumption
        · rfl
      · by_cases hdate : d.app.containsDate dream
        · have halert : d₁.app.alert = some dream := by
            simp [halert₁, App.perform, App.dateCheckAndSave, hdate]
          rw [heffect₂]
          cases accepted with
          | true => simp [App.effect, App.saves, halert, heffect₁, hdate, journalEffect]
          | false => simp [App.effect, App.saves, heffect₁, hdate, journalEffect]
        · have halert : d₁.app.alert = none := by
            simp [halert₁, App.perform, App.dateCheckAndSave, hdate, h.alert]
          rw [heffect₂]
          cases accepted with
          | true => simp [App.effect, App.saves, halert, heffect₁, hdate, journalEffect]
          | false => simp [App.effect, App.saves, heffect₁, hdate, journalEffect]
  | removeAction r =>
    obtain ⟨l', d', hd', hagrees', hqueue', heffect', halert'⟩ :=
      h.agrees.complete h.queue (.removeAction r)
    use l', d'
    constructor
    · simp [Device.journalStep, Op.ops, hd']
    · constructor
      · use hagrees', hqueue', halert'.trans h.alert
      · exact heffect'
  | removeAllAction =>
    obtain ⟨l', d', hd', hagrees', hqueue', heffect', halert'⟩ :=
      h.agrees.complete h.queue .removeAllAction
    use l', d'
    constructor
    · simp [Device.journalStep, Op.ops, hd']
    · constructor
      · use hagrees', hqueue', halert'.trans h.alert
      · exact heffect'

/-- An operation on the journal preserves the representation exactly when it accepts
no overwrite. -/
theorem Ready.represents_iff (h : Ready P l d) (hrep : j.Represents l) (op : Journal.Op) :
  (j.apply op).Represents (d.journalEffect l op) ↔ d.acceptsOverwrite op = false
  := by
  cases op with
  | write dream accepted =>
    have hdate := h.containsDate_iff dream
    have hsome := hrep.isSome_iff dream.writedDate
    by_cases hcontains : d.app.containsDate dream
    · have htaken := hsome.mpr (hdate.mp hcontains)
      cases accepted with
      | true =>
        simp only [acceptsOverwrite, hcontains, journalEffect, Bool.true_eq_false, and_false,
          if_false, iff_false]
        rintro ⟨hnodup, -⟩
        rw [Multiset.map_cons, Multiset.nodup_cons] at hnodup
        apply hnodup.1 (hdate.mp hcontains)
      | false => simpa [acceptsOverwrite, hcontains, journalEffect, Journal.apply, htaken] using hrep
    · have hfree : ¬ (j dream.writedDate).isSome := fun hs => hcontains (hdate.mpr (hsome.mp hs))
      have hcons := hrep.cons (fun hmem => hcontains (hdate.mpr hmem))
      cases accepted with
      | true => simpa [acceptsOverwrite, hcontains, journalEffect, Journal.apply] using hcons
      | false =>
        simpa [acceptsOverwrite, hcontains, journalEffect, Journal.apply, hfree] using hcons
  | removeAction r =>
    simp only [acceptsOverwrite, iff_true, Journal.apply, journalEffect]
    apply hrep.filter
  | removeAllAction =>
    simp only [acceptsOverwrite, iff_true, Journal.apply, journalEffect]
    apply represents_empty

/-- An operation on the journal goes through on a device that is ready. -/
theorem Ready.simulate (P : Platform) (s : Device × Journal) (op : Journal.Op)
    (h : ∃ l, Ready P l s.1) :
  ∃ t, Device.simulate P s op = some t ∧ ∃ l, Ready P l t.1
  := by
  obtain ⟨d, j⟩ := s
  obtain ⟨l, hready⟩ := h
  obtain ⟨l', d', hd', hready', -⟩ := hready.journalStep op
  use (d', j.apply op)
  simp only [Device.simulate, hd', Option.map_some, true_and]
  use l'

/-- A run of operations on the journal goes through on a device that is ready. -/
theorem Ready.run_simulate (P : Platform) (s : Device × Journal) (ops : List Journal.Op)
    (h : ∃ l, Ready P l s.1) :
  ∃ t, Machine.run (Device.simulate P) s ops = some t ∧ ∃ l, Ready P l t.1
  := by
  have halways : Machine.Always (Device.simulate P) (fun _ _ => True) s ops :=
    Machine.always_of_forall fun _ _ _ => trivial
  apply halways.total _ h
  intro s op hs _
  apply Ready.simulate P s op hs

/-- An operation that finds the journal represented leaves it represented exactly when it
accepts no overwrite. -/
theorem Ready.refines_step_iff (P : Platform) (s t : Device × Journal) (op : Journal.Op)
    (hready : ∃ l, Ready P l s.1) (hrefines : Refines s)
    (ht : Device.simulate P s op = some t) :
  Refines t ↔ s.1.acceptsOverwrite op = false
  := by
  obtain ⟨d, j⟩ := s
  obtain ⟨l, hready⟩ := hready
  obtain ⟨l', d', hd', hready', heffect⟩ := hready.journalStep op
  simp only [Device.simulate, hd', Option.map_some, Option.some.injEq] at ht
  subst ht
  rw [hready'.refines_iff, heffect, hready.represents_iff (hready.refines_iff.mp hrefines)]

/-- From an absent node every sequential run goes through, and the container and the
node represent the journal in each of its settled states exactly when no overwrite of
a taken date is accepted. -/
theorem simulate_refines_iff (P : Platform) (ops : List Journal.Op) :
  ∃ start, (launch ∅).settle P = some start
    ∧ (∃ s, Machine.run (simulate P) (start, Journal.empty) ops = some s)
    ∧ ((∀ fs, fs <+: ops → ∀ s, Machine.run (simulate P) (start, Journal.empty) fs = some s →
          Refines s)
      ↔ Machine.Always (simulate P) (fun s op => s.1.acceptsOverwrite op = false)
          (start, Journal.empty) ops)
  := by
  obtain ⟨start, hstart, hagrees, halert, hqueue⟩ := (agrees_launch P []).settle
  have hready : Ready P [] start := ⟨hagrees, hqueue, halert⟩
  have hinit : ∃ l, Ready P l (start, Journal.empty).1 := ⟨[], hready⟩
  use start, hstart
  constructor
  · obtain ⟨s, hs, -⟩ := Ready.run_simulate P _ ops hinit
    use s
  · have hiff : ∀ (s : Device × Journal) (op : Journal.Op) (t : Device × Journal),
        ((∃ l, Ready P l s.1) ∧ Refines s) → simulate P s op = some t →
        (((∃ l, Ready P l t.1) ∧ Refines t) ↔ s.1.acceptsOverwrite op = false) := by
      rintro s op t ⟨hs, hrefines⟩ ht
      obtain ⟨t', ht', hready'⟩ := Ready.simulate P s op hs
      obtain rfl := Option.some.inj (ht'.symm.trans ht)
      rw [Ready.refines_step_iff P s t' op hs hrefines ht, and_iff_right hready']
    have hfail : ∀ (s : Device × Journal) (op : Journal.Op),
        ((∃ l, Ready P l s.1) ∧ Refines s) → simulate P s op = none →
        s.1.acceptsOverwrite op = false := by
      rintro s op ⟨hs, -⟩ hnone
      obtain ⟨t, ht, -⟩ := Ready.simulate P s op hs
      rw [hnone] at ht
      cases ht
    have hrefines : Refines (start, Journal.empty) := by
      rw [hready.refines_iff]
      apply represents_empty
    rw [← Machine.forall_prefix_iff hiff hfail ⟨hinit, hrefines⟩]
    constructor
    · intro h fs hfs s hs
      obtain ⟨t, ht, hready'⟩ := Ready.run_simulate P _ fs hinit
      obtain rfl := Option.some.inj (ht.symm.trans hs)
      use hready'
      apply h fs hfs _ hs
    · intro h fs hfs s hs
      apply (h fs hfs s hs).2

/-- The side by side run goes through where the device does. -/
theorem run_simulate (P : Platform) (d : Device) (j : Journal) (ops : List Journal.Op) :
  Machine.run (simulate P) (d, j) ops
    = (Machine.run (Device.journalStep P) d ops).map fun d' => (d', ops.foldl Journal.apply j)
  := by
  induction ops generalizing d j with
  | nil => rfl
  | cons op ops ih =>
    rw [Machine.run_cons, Machine.run_cons, simulate]
    cases hstep : Device.journalStep P d op with
    | none => rfl
    | some d' =>
      simp only [Option.map_some, Option.bind_some, List.foldl_cons]
      apply ih

/-- Writing two dreams of one date and accepting the overwrite leaves both dreams in
the container and in the node. -/
theorem accepted_overwrite_keeps_old :
  ∃ start s, (launch ∅).settle Platform.reference = some start
    ∧ Machine.run (simulate Platform.reference) (start, Journal.empty)
        [.write (sea "2019-03-18") true, .write (fire "2019-03-18") true] = some s
    ∧ ¬ Refines s
  := by
  let container := [sea "2019-03-18", fire "2019-03-18"]
  use ⟨{ observers := 1 }, ∅⟩,
    (⟨{ dreamContainers := container, observers := 1 }, store container⟩,
      [.write (sea "2019-03-18") true, .write (fire "2019-03-18") true].foldl Journal.apply
        Journal.empty)
  constructor
  · decide
  · constructor
    · rw [run_simulate, Option.map_eq_some_iff]
      use ⟨{ dreamContainers := container, observers := 1 }, store container⟩
      constructor
      · decide
      · rfl
    · rintro ⟨⟨hnodup, -⟩, -⟩
      revert hnodup
      decide

end Device

end ForDream

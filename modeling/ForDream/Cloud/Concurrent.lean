import ForDream.Cloud.Coherent

/-!
# Devices acting on different dates

Each app acts on a date of its own: it saves or removes dreams of that date only.  In a
run whose operations are up to date, once all writes are applied and all snapshots
delivered, the last operation of each app on its date is what the node shows of that
date, the dreams of other dates are untouched, and every container is the node in
ascending order.
-/

namespace ForDream

open Model

/-- The operation saves or removes dreams of the date, if any. -/
def Op.ActsOn (date : String) : Op → Prop
  | .dateCheckAndSave dream => dream.writedDate = date
  | .removeAction removeDream => removeDream.writedDate = date
  | .removeAllAction => False
  | _ => True

instance (date : String) : ∀ op, Decidable (Op.ActsOn date op)
  | .dateCheckAndSave dream => inferInstanceAs (Decidable (dream.writedDate = date))
  | .removeAction removeDream => inferInstanceAs (Decidable (removeDream.writedDate = date))
  | .removeAllAction => inferInstanceAs (Decidable False)
  | .overwrite _ => inferInstanceAs (Decidable True)
  | .refresh => inferInstanceAs (Decidable True)
  | .fetchContainers => inferInstanceAs (Decidable True)

namespace Cloud

variable {ι : Type*}

/-- Operations of an app act on the date of the app. -/
def ActsOn (date : ι → String) : Event ι → Prop
  | .op c op => op.ActsOn (date c)
  | _ => True

instance (date : ι → String) : ∀ e, Decidable (ActsOn date e)
  | .op c op => inferInstanceAs (Decidable (op.ActsOn (date c)))
  | .write _ => inferInstanceAs (Decidable True)
  | .turn _ => inferInstanceAs (Decidable True)

/-- Every open alert is about a dream of the date of its app. -/
def AlertsOn (date : ι → String) (s : Cloud ι) : Prop :=
  ∀ c dream, (s.apps c).alert = some dream → dream.writedDate = date c

/-- The app performs an operation that supersedes the date. -/
def Supersedes (c : ι) (date : String) (s : Cloud ι) : Event ι → Prop
  | .op i op => i = c ∧ (s.apps i).Supersedes date op
  | _ => False

instance [DecidableEq ι] (c : ι) (date : String) (s : Cloud ι) : ∀ e, Decidable (s.Supersedes c date e)
  | .op i op => inferInstanceAs (Decidable (i = c ∧ (s.apps i).Supersedes date op))
  | .write _ => inferInstanceAs (Decidable False)
  | .turn _ => inferInstanceAs (Decidable False)

/-- The app performs an operation that saves a dream of the date. -/
def Saves (c : ι) (date : String) (s : Cloud ι) : Event ι → Prop
  | .op i op => i = c ∧ ((s.apps i).saves op).map Dream.writedDate = some date
  | _ => False

variable {P : Platform} {c : ι} {dreams : Multiset Dream} {s : Cloud ι} {op : Op}
  {date : ι → String} {e : Event ι}

/-! ### Dates -/

/-- What an app saves is of its date. -/
theorem AlertsOn.saves (h : AlertsOn date s) (hop : op.ActsOn (date c)) {new : Dream}
    (hsaves : (s.apps c).saves op = some new) :
  new.writedDate = date c
  := by
  cases op with
  | dateCheckAndSave dream =>
    simp only [App.saves, Option.ite_none_left_eq_some, Option.some.injEq] at hsaves
    rw [← hsaves.2]
    exact hop
  | overwrite accepted =>
    cases accepted with
    | true => apply h c new hsaves
    | false => cases hsaves
  | removeAction r => cases hsaves
  | removeAllAction => cases hsaves
  | refresh => cases hsaves
  | fetchContainers => cases hsaves

/-- An app supersedes its date only. -/
theorem AlertsOn.supersedes (h : AlertsOn date s) (hop : op.ActsOn (date c)) {d : String}
    (hsup : (s.apps c).Supersedes d op) :
  date c = d
  := by
  have hsaves : ((s.apps c).saves op).map Dream.writedDate = some d → date c = d := by
    intro hsome
    obtain ⟨new, hnew, rfl⟩ := Option.map_eq_some_iff.mp hsome
    rw [h.saves hop hnew]
  cases op with
  | removeAction r =>
    have hr : r.writedDate = date c := hop
    rw [← hr]
    exact hsup
  | removeAllAction => cases hop
  | dateCheckAndSave _ => exact hsaves hsup
  | overwrite _ => exact hsaves hsup
  | refresh => exact hsaves hsup
  | fetchContainers => exact hsaves hsup

/-- The node and the containers agree up to the writes of some app, and the alerts are on
the dates of their apps. -/
def Steady (P : Platform) (date : ι → String) (dreams : Multiset Dream) (s : Cloud ι) : Prop :=
  (∃ c, Coherent P c dreams s) ∧ AlertsOn date s

/-- In a drained state exactly the dreams that were to be stored are. -/
theorem Steady.stored_iff (h : Steady P date dreams s) (hs : Drained s) {dream : Dream} :
  Stored s.node dream ↔ dream ∈ dreams
  := by
  obtain ⟨⟨c, hcoherent⟩, -⟩ := h
  obtain ⟨l, hl, rfl, -⟩ := hcoherent.drained hs
  rw [hl, stored_store, Multiset.mem_coe]

theorem steady_startOn [Inhabited ι] (P : Platform) (date : ι → String) (l : List Dream) :
  Steady P date l (startOn l)
  := by
  use ⟨default, coherent_startOn default l⟩
  intro c dream halert
  cases halert

/-- An event by which the app of the date does not supersede it leaves the dreams of the
date as they are. -/
theorem AlertsOn.mem_effect_iff (h : AlertsOn date s) (he : ActsOn date e) {dream : Dream}
    (hkeep : ∀ c, date c = dream.writedDate → ¬ s.Supersedes c dream.writedDate e) :
  dream ∈ s.effect dreams e ↔ dream ∈ dreams
  := by
  cases e with
  | op i op =>
    apply App.mem_effect_iff
    intro hsup
    apply hkeep i (h.supersedes he hsup)
    use rfl
  | write i => rfl
  | turn i => rfl

/-- An event by which the app of a date saves no dream of it leaves none where there was
none. -/
theorem AlertsOn.date_ne_of_mem_effect (hdate : Function.Injective date) (h : AlertsOn date s)
    (he : ActsOn date e) (hkeep : ¬ s.Saves c (date c) e)
    (hdreams : ∀ dream ∈ dreams, dream.writedDate ≠ date c) :
  ∀ dream ∈ s.effect dreams e, dream.writedDate ≠ date c
  := by
  cases e with
  | op i op =>
    apply App.date_ne_of_mem_effect _ hdreams
    intro new hnew heq
    apply hkeep
    constructor
    · apply hdate
      rw [← h.saves he hnew, heq]
    · rw [hnew, Option.map_some, heq]
  | write i => exact hdreams
  | turn i => exact hdreams

variable [DecidableEq ι]

/-- Operations that act on the date of their app keep the alerts on it. -/
theorem AlertsOn.step (h : AlertsOn date s) (he : ActsOn date e) {t : Cloud ι}
    (hstep : s.step P e = some t) :
  AlertsOn date t
  := by
  intro i dream halert
  cases e with
  | op c op =>
    obtain rfl := Option.some.inj hstep
    rcases eq_or_ne i c with rfl | hi
    · rw [perform_apps_self] at halert
      rcases App.perform_alert _ op halert with hbefore | rfl
      · apply h i dream hbefore
      · exact he
    · rw [perform_apps_of_ne s op hi] at halert
      apply h i dream halert
  | write c =>
    obtain rfl := Option.some.inj hstep
    apply h i dream
    rw [← halert]
    cases hout : s.outbox c with
    | nil => rw [write_of_nil hout]
    | cons w ws =>
      rw [write_apps hout]
      split
      · rfl
      · rfl
  | turn c =>
    simp only [Cloud.step, Option.map_eq_some_iff] at hstep
    obtain ⟨a, hturn, rfl⟩ := hstep
    rcases eq_or_ne i c with rfl | hi
    · simp only [Function.update_self] at halert
      apply h i dream
      rw [← App.turn_alert hturn, halert]
    · simp only [Function.update_of_ne hi] at halert
      apply h i dream halert

/-- What the effect of every event of a run keeps, holds of the dreams that will be stored
at its end. -/
theorem Steady.run {K : Multiset Dream → Prop} {Q : Cloud ι → Event ι → Prop}
    {es : List (Event ι)}
    (hK : ∀ s e dreams, AlertsOn date s → ActsOn date e → Q s e → K dreams →
      K (s.effect dreams e))
    (hs : Steady P date dreams s) (hdreams : K dreams)
    (hacts : ∀ e ∈ es, ActsOn date e) (hdate : Machine.Always (step P) UpToDate s es)
    (hQ : Machine.Always (step P) Q s es) :
  ∃ t dreams', Machine.run (step P) s es = some t ∧ Steady P date dreams' t ∧ K dreams'
  := by
  have hacts' : Machine.Always (Cloud.step P) (fun _ e => ActsOn date e) s es := by
    apply Machine.always_of_forall
    intro e he _
    apply hacts e he
  have hsteady : ∃ dreams, Steady P date dreams s ∧ K dreams := ⟨dreams, hs, hdreams⟩
  obtain ⟨t, ht, dreams', hsteady'⟩ := ((hdate.and hacts').and hQ).total
    (I := fun s => ∃ dreams, Steady P date dreams s ∧ K dreams)
    (by
      rintro s e ⟨dreams, ⟨⟨c, hcoherent⟩, halerts⟩, hdreams⟩ ⟨⟨hdate, hacts⟩, hQ⟩
      obtain ⟨c', t, ht, hcoherent'⟩ := hcoherent.step hdate
      use t, ht, s.effect dreams e
      use ⟨⟨c', hcoherent'⟩, halerts.step hacts ht⟩
      apply hK s e dreams halerts hacts hQ hdreams)
    hsteady
  use t, dreams', ht

/-! ### Undisturbed runs -/

/-- What the apps did to their dates is what the node shows: `l` was stored when the run
of `es` started. -/
structure Undisturbed (P : Platform) (date : ι → String) (l : List Dream)
    (es : List (Event ι)) (final : Cloud ι) : Prop where
  /-- A dream an app saved is stored, unless the app superseded its date later. -/
  saved : ∀ before c op after s dream, es = before ++ .op c op :: after →
    Machine.run (step P) (startOn l) before = some s → (s.apps c).saves op = some dream →
    Machine.Always (step P) (fun s e => ¬ s.Supersedes c dream.writedDate e)
      (s.perform c op) after →
    Stored final.node dream
  /-- No dream of a date an app removed is stored, unless the app saved one later. -/
  removed : ∀ before c removeDream after s,
    es = before ++ .op c (.removeAction removeDream) :: after →
    Machine.run (step P) (startOn l) before = some s →
    Machine.Always (step P) (fun s e => ¬ s.Saves c removeDream.writedDate e)
      (s.perform c (.removeAction removeDream)) after →
    ∀ dream, Stored final.node dream → dream.writedDate ≠ removeDream.writedDate
  /-- A dream of a date that the app of the date, if any, did not supersede is stored if it
  was at the start. -/
  untouched : ∀ dream,
    (∀ c, date c = dream.writedDate →
      Machine.Always (step P) (fun s e => ¬ s.Supersedes c dream.writedDate e) (startOn l) es) →
    (Stored final.node dream ↔ dream ∈ l)
  /-- Every container is the node in ascending order. -/
  containers : ∃ stored, final.node = store stored
    ∧ ∀ c, (final.apps c).dreamContainers = ascendingOrder P.sorter stored

section UpToDate

variable [Inhabited ι] {l : List Dream} {es before after : List (Event ι)} {final : Cloud ι}

/-- A run of up to date operations ends in a steady state. -/
theorem steady_of_upToDate (hacts : ∀ e ∈ es, ActsOn date e)
    (hup : Machine.Always (step P) UpToDate (startOn l) es) :
  ∃ t dreams, Machine.run (step P) (startOn l) es = some t ∧ Steady P date dreams t
  := by
  have htrue : Machine.Always (step P) (fun _ _ => True) (startOn l) es := by
    apply Machine.always_of_forall
    intro _ _ _
    trivial
  obtain ⟨t, dreams, ht, hsteady, -⟩ := (steady_startOn P date l).run (K := fun _ => True)
    (fun _ _ _ _ _ _ _ => trivial) trivial hacts hup htrue
  use t, dreams

/-- The state an operation of such a run is performed in, and what its effect is. -/
theorem steady_perform (hacts : ∀ e ∈ before ++ .op c op :: after, ActsOn date e)
    (hup : Machine.Always (step P) UpToDate (startOn l) (before ++ .op c op :: after))
    (hs : Machine.run (step P) (startOn l) before = some s) :
  ∃ dreams, AlertsOn date s ∧ Steady P date ((s.apps c).effect dreams op) (s.perform c op)
    ∧ Machine.Always (step P) UpToDate (s.perform c op) after
  := by
  obtain ⟨hbefore, hup⟩ := Machine.always_append.mp hup
  obtain ⟨hop, hafter⟩ := hup s hs
  obtain ⟨s', dreams, hs', ⟨i, hcoherent⟩, halerts⟩ :=
    steady_of_upToDate (fun e he => hacts e (by simp [he])) hbefore
  obtain rfl := Option.some.inj (hs.symm.trans hs')
  obtain ⟨i', t, ht, hcoherent'⟩ := hcoherent.step hop
  have halerts' := halerts.step (hacts (.op c op) (by simp)) ht
  obtain rfl := Option.some.inj ht
  use dreams, halerts, ⟨⟨i', hcoherent'⟩, halerts'⟩
  apply hafter _ rfl

/-- Dreams saved by up to date operations stay. -/
theorem saved_of_upToDate (hdate : Function.Injective date)
    (hacts : ∀ e ∈ before ++ .op c op :: after, ActsOn date e)
    (hup : Machine.Always (step P) UpToDate (startOn l) (before ++ .op c op :: after))
    (hs : Machine.run (step P) (startOn l) before = some s) {dream : Dream}
    (hsaves : (s.apps c).saves op = some dream)
    (hkeep : Machine.Always (step P) (fun s e => ¬ s.Supersedes c dream.writedDate e)
      (s.perform c op) after)
    (hfinal : Machine.run (step P) (s.perform c op) after = some final)
    (hdrained : Drained final) :
  Stored final.node dream
  := by
  obtain ⟨dreams, halerts, hperform, hafter⟩ := steady_perform hacts hup hs
  have hown : dream.writedDate = date c :=
    halerts.saves (hacts (.op c op) (by simp)) hsaves
  have hmem : dream ∈ (s.apps c).effect dreams op := by
    rw [(App.perform_of_saves hsaves).2]
    apply Multiset.mem_cons_self
  have hstep : ∀ (s : Cloud ι) e dreams, AlertsOn date s → ActsOn date e →
      ¬ s.Supersedes c dream.writedDate e → dream ∈ dreams → dream ∈ s.effect dreams e := by
    intro s e dreams halerts he hkeep hmem
    rw [halerts.mem_effect_iff he]
    · exact hmem
    · intro c' hc'
      rw [hdate (hc'.trans hown)]
      exact hkeep
  obtain ⟨t, dreams', ht, hsteady, hmem'⟩ :=
    hperform.run hstep hmem (fun e he => hacts e (by simp [he])) hafter hkeep
  obtain rfl := Option.some.inj (hfinal.symm.trans ht)
  rw [hsteady.stored_iff hdrained]
  exact hmem'

/-- Dates removed by up to date operations stay removed. -/
theorem removed_of_upToDate (hdate : Function.Injective date) {r : Dream}
    (hacts : ∀ e ∈ before ++ .op c (.removeAction r) :: after, ActsOn date e)
    (hup : Machine.Always (step P) UpToDate (startOn l)
      (before ++ .op c (.removeAction r) :: after))
    (hs : Machine.run (step P) (startOn l) before = some s)
    (hkeep : Machine.Always (step P) (fun s e => ¬ s.Saves c r.writedDate e)
      (s.perform c (.removeAction r)) after)
    (hfinal : Machine.run (step P) (s.perform c (.removeAction r)) after = some final)
    (hdrained : Drained final) {dream : Dream} (hstored : Stored final.node dream) :
  dream.writedDate ≠ r.writedDate
  := by
  obtain ⟨dreams, -, hperform, hafter⟩ := steady_perform hacts hup hs
  have hown : r.writedDate = date c := hacts (.op c (.removeAction r)) (by simp)
  rw [hown] at hkeep ⊢
  have hnone : ∀ dream ∈ (s.apps c).effect dreams (.removeAction r),
      dream.writedDate ≠ date c := by
    intro dream hmem
    rw [← hown]
    exact (Multiset.mem_filter.mp hmem).2
  obtain ⟨t, dreams', ht, hsteady, hnone'⟩ := hperform.run
    (K := fun dreams => ∀ dream ∈ dreams, dream.writedDate ≠ date c)
    (fun _ _ _ halerts he hkeep => halerts.date_ne_of_mem_effect hdate he hkeep)
    hnone (fun e he => hacts e (by simp [he])) hafter hkeep
  obtain rfl := Option.some.inj (hfinal.symm.trans ht)
  apply hnone' dream
  rw [← hsteady.stored_iff hdrained]
  exact hstored

/-- Up to date operations leave the dreams of other dates. -/
theorem untouched_of_upToDate (hdate : Function.Injective date)
    (hacts : ∀ e ∈ es, ActsOn date e)
    (hup : Machine.Always (step P) UpToDate (startOn l) es)
    (hfinal : Machine.run (step P) (startOn l) es = some final) (hdrained : Drained final)
    {dream : Dream}
    (hkeep : ∀ c, date c = dream.writedDate →
      Machine.Always (step P) (fun s e => ¬ s.Supersedes c dream.writedDate e) (startOn l) es) :
  Stored final.node dream ↔ dream ∈ l
  := by
  have hkeep' : Machine.Always (step P)
      (fun s e => ∀ c, date c = dream.writedDate → ¬ s.Supersedes c dream.writedDate e)
      (startOn l) es := by
    by_cases hown : ∃ c, date c = dream.writedDate
    · obtain ⟨c, hc⟩ := hown
      apply (hkeep c hc).imp (I := fun _ => True) _ (fun _ _ _ _ _ _ => trivial) trivial
      intro s e _ hkeep c' hc'
      rw [hdate (hc'.trans hc.symm)]
      exact hkeep
    · apply Machine.always_of_forall
      intro e _ s c hc
      exact absurd ⟨c, hc⟩ hown
  have hstep : ∀ (s : Cloud ι) e dreams, AlertsOn date s → ActsOn date e →
      (∀ c, date c = dream.writedDate → ¬ s.Supersedes c dream.writedDate e) →
      (dream ∈ dreams ↔ dream ∈ l) → (dream ∈ s.effect dreams e ↔ dream ∈ l) := by
    intro s e dreams halerts he hkeep hmem
    rw [halerts.mem_effect_iff he hkeep]
    exact hmem
  obtain ⟨t, dreams, ht, hsteady, hmem⟩ :=
    (steady_startOn P date l).run hstep Multiset.mem_coe hacts hup hkeep'
  obtain rfl := Option.some.inj (hfinal.symm.trans ht)
  rw [hsteady.stored_iff hdrained]
  exact hmem

/-- If the operations of apps on different dates are up to date, they do not disturb each
other. -/
theorem upToDate_undisturbed (P : Platform) (date : ι → String)
    (hdate : Function.Injective date) (l : List Dream) (es : List (Event ι))
    (hacts : ∀ e ∈ es, ActsOn date e)
    (hup : Machine.Always (step P) UpToDate (startOn l) es) :
  ∃ final, Machine.run (step P) (startOn l) es = some final
    ∧ (Drained final → Undisturbed P date l es final)
  := by
  obtain ⟨final, dreams, hfinal, ⟨c, hcoherent⟩, -⟩ := steady_of_upToDate hacts hup
  use final, hfinal
  intro hdrained
  constructor
  · rintro before c op after s dream rfl hs hsaves hkeep
    apply saved_of_upToDate hdate hacts hup hs hsaves hkeep _ hdrained
    simpa [Machine.run_append, hs, Cloud.step] using hfinal
  · rintro before c r after s rfl hs hkeep dream hstored
    apply removed_of_upToDate hdate hacts hup hs hkeep _ hdrained hstored
    simpa [Machine.run_append, hs, Cloud.step] using hfinal
  · intro dream hkeep
    apply untouched_of_upToDate hdate hacts hup hfinal hdrained hkeep
  · obtain ⟨stored, hnode, -, hcontainers⟩ := hcoherent.drained hdrained
    use stored

end UpToDate

/-- The dates of two devices. -/
def twoDates : Bool → String
  | false => "2019-03-18"
  | true => "2019-03-19"

theorem twoDates_injective :
  Function.Injective twoDates
  := by
  intro b b'
  cases b <;> cases b' <;> simp [twoDates]

/-- Two devices that save in turn, and one of them removes its dream again. -/
def inTurn : List (Event Bool) :=
  [.turn false, .turn false, .turn true, .turn true,
    .op false (.dateCheckAndSave (sea "2019-03-18")), .write false, .turn false, .turn true,
    .op true (.dateCheckAndSave (fire "2019-03-19")), .write true, .turn false, .turn true,
    .op false (.removeAction (sea "2019-03-18")), .write false, .write false, .write false,
    .turn false, .turn false, .turn false, .turn true, .turn true, .turn true]

/-- What two devices do in turn, they do undisturbed. -/
theorem upToDate_undisturbed_inTurn :
  ∃ final, Machine.run (step Platform.reference) (startOn [sea "2019-01-01"]) inTurn = some final
    ∧ Drained final
    ∧ Undisturbed Platform.reference twoDates [sea "2019-01-01"] inTurn final
  := by
  obtain ⟨final, hrun, hundisturbed⟩ := upToDate_undisturbed Platform.reference twoDates
    twoDates_injective [sea "2019-01-01"] inTurn (by decide) (by decide)
  have hdrained : ∀ t ∈ Machine.run (step Platform.reference) (startOn [sea "2019-01-01"]) inTurn,
    Drained t := by decide
  use final, hrun, hdrained final hrun
  apply hundisturbed (hdrained final hrun)

/-- Two devices that save at the same time. -/
def atOnce : List (Event Bool) :=
  [.turn false, .turn false, .turn true, .turn true,
    .op false (.dateCheckAndSave (sea "2019-03-18")),
    .op true (.dateCheckAndSave (fire "2019-03-19")), .write false, .write true,
    .turn false, .turn false, .turn true, .turn true]

/-- When two devices save at the same time, both write the first child, and one of the
dreams is lost. -/
theorem atOnce_disturbed :
  (∀ e ∈ atOnce, ActsOn twoDates e)
    ∧ ∃ final, Machine.run (step Platform.reference) (startOn []) atOnce = some final
      ∧ Drained final ∧ ¬ Undisturbed Platform.reference twoDates [] atOnce final
  := by
  use by decide
  use (Machine.run (step Platform.reference) (startOn []) atOnce).get (by decide)
  use (Option.some_get _).symm
  use by decide
  intro h
  have hstored := h.saved (atOnce.take 4) false (.dateCheckAndSave (sea "2019-03-18"))
    (atOnce.drop 5)
    ((Machine.run (step Platform.reference) (startOn []) (atOnce.take 4)).get (by decide))
    (sea "2019-03-18") rfl (Option.some_get _).symm (by decide) (by decide)
  revert hstored
  decide

end Cloud

end ForDream

import Mathlib.Data.List.Infix

/-!
# Runs of partial machines

A machine is given by a partial step function `step : S → E → Option S` on the
states `S` and the events `E`; a step that fails has no state after it.  `run` is
the run of a list of events, and `Always step P s es` says that `P` holds of every
step the run of `es` from `s` takes, each paired with the state it is taken in.

An invariant kept by the steps `P` allows is an invariant of the runs all of whose
steps `P` allows, and such runs do not fail when those steps do not.  If in the
states of an invariant `P` and `Q` allow the same steps, the runs that are always
`P` are those that are always `Q`.
-/

namespace Machine

variable {S E : Type*}

/-- The state the run of a list of events ends in, if no step of it fails. -/
def run (step : S → E → Option S) : S → List E → Option S
  | s, [] => some s
  | s, e :: es => (step s e).bind fun t => run step t es

/-- `P` holds of every step of the run of a list of events. -/
def Always (step : S → E → Option S) (P : S → E → Prop) : S → List E → Prop
  | _, [] => True
  | s, e :: es => P s e ∧ ∀ t, step s e = some t → Always step P t es

instance decidableAlways
    (step : S → E → Option S) (P : S → E → Prop) [∀ s e, Decidable (P s e)] :
    ∀ (s : S) (es : List E), Decidable (Always step P s es)
  | _, [] => inferInstanceAs (Decidable True)
  | s, e :: es =>
      match h : step s e with
      | none => decidable_of_iff (P s e) (by simp [Always, h])
      | some t =>
          haveI := decidableAlways step P t es
          decidable_of_iff (P s e ∧ Always step P t es) (by simp [Always, h])

variable {step : S → E → Option S} {P Q : S → E → Prop} {I : S → Prop}
  {s t : S} {e : E} {es fs : List E}

@[simp]
theorem run_nil :
  run step s [] = some s
  := rfl

@[simp]
theorem run_cons :
  run step s (e :: es) = (step s e).bind fun t => run step t es
  := rfl

/-- A run of `es` followed by `fs` is the run of `es` and then, from where it ends,
the run of `fs`. -/
theorem run_append :
  run step s (es ++ fs) = (run step s es).bind fun t => run step t fs
  := by
  induction es generalizing s with
  | nil => rfl
  | cons e es ih =>
    rw [List.cons_append, run_cons, run_cons, Option.bind_assoc]
    congr 1
    funext t
    apply ih

/-- The steps of `es ++ fs` are those of `es` and those of `fs` from where `es`
ends. -/
theorem always_append :
  Always step P s (es ++ fs)
    ↔ Always step P s es ∧ ∀ t, run step s es = some t → Always step P t fs
  := by
  induction es generalizing s with
  | nil => simp [Always]
  | cons e es ih =>
    simp only [List.cons_append, Always, ih, run_cons, Option.bind_eq_some_iff]
    constructor
    · rintro ⟨hP, h⟩
      use ⟨hP, fun t ht => (h t ht).1⟩
      rintro u ⟨t, ht, hu⟩
      apply (h t ht).2 u hu
    · rintro ⟨⟨hP, h⟩, h'⟩
      use hP
      intro t ht
      use h t ht
      intro u hu
      apply h' u ⟨t, ht, hu⟩

/-- What the events of a list satisfy in every state, their run always satisfies. -/
theorem always_of_forall (h : ∀ e ∈ es, ∀ s, P s e) :
  Always step P s es
  := by
  induction es generalizing s with
  | nil => trivial
  | cons e es ih =>
    use h e (by simp) s
    intro t _
    apply ih
    intro f hf
    apply h f (List.mem_cons_of_mem _ hf)

/-- A run that is always `P` and always `Q` is always both. -/
theorem Always.and (hP : Always step P s es) (hQ : Always step Q s es) :
  Always step (fun s e => P s e ∧ Q s e) s es
  := by
  induction es generalizing s with
  | nil => trivial
  | cons e es ih =>
    use ⟨hP.1, hQ.1⟩
    intro t ht
    apply ih (hP.2 t ht) (hQ.2 t ht)

/-- An invariant kept by the steps `P` allows holds where a run of such steps
ends. -/
theorem Always.invariant
    (hstep : ∀ s e t, I s → P s e → step s e = some t → I t)
    (hP : Always step P s es) (hs : I s) (ht : run step s es = some t) :
  I t
  := by
  induction es generalizing s with
  | nil =>
    obtain rfl := Option.some.inj ht
    exact hs
  | cons e es ih =>
    obtain ⟨u, hu, ht⟩ := Option.bind_eq_some_iff.mp ht
    apply ih (hP.2 u hu) (hstep s e u hs hP.1 hu) ht

/-- If in the states of an invariant the steps `P` allows succeed and keep the
invariant, a run of such steps succeeds and ends in the invariant. -/
theorem Always.total
    (hstep : ∀ s e, I s → P s e → ∃ t, step s e = some t ∧ I t)
    (hP : Always step P s es) (hs : I s) :
  ∃ t, run step s es = some t ∧ I t
  := by
  induction es generalizing s with
  | nil => use s, rfl
  | cons e es ih =>
    obtain ⟨u, hu, hI⟩ := hstep s e hs hP.1
    obtain ⟨t, ht, hIt⟩ := ih (hP.2 u hu) hI
    use t
    simp [hu, ht, hIt]

/-- If in the states of an invariant kept by the steps `P` allows, these are steps `Q`
allows, a run that is always `P` is always `Q`. -/
theorem Always.imp
    (himp : ∀ s e, I s → P s e → Q s e)
    (hstep : ∀ s e t, I s → P s e → step s e = some t → I t)
    (hP : Always step P s es) (hs : I s) :
  Always step Q s es
  := by
  induction es generalizing s with
  | nil => trivial
  | cons e es ih =>
    use himp s e hs hP.1
    intro t ht
    apply ih (hP.2 t ht) (hstep s e t hs hP.1 ht)

/-- If in the states of an invariant `P` and `Q` allow the same steps, and these
keep it, a run is always `P` exactly when it is always `Q`. -/
theorem always_congr
    (hiff : ∀ s e, I s → (P s e ↔ Q s e))
    (hstep : ∀ s e t, I s → P s e → step s e = some t → I t) (hs : I s) :
  Always step P s es ↔ Always step Q s es
  := by
  constructor
  · intro hP
    apply hP.imp (fun s e hI => (hiff s e hI).mp) hstep hs
  · intro hQ
    apply hQ.imp (fun s e hI => (hiff s e hI).mpr) _ hs
    intro s e t hI hQ
    apply hstep s e t hI ((hiff s e hI).mpr hQ)

/-- If a step of an invariant state ends in the invariant exactly when `Q` allows
it, the states along a run all satisfy the invariant exactly when the run is always
`Q`; `Q` has to allow the steps that fail. -/
theorem forall_prefix_iff
    (hiff : ∀ s e t, I s → step s e = some t → (I t ↔ Q s e))
    (hfail : ∀ s e, I s → step s e = none → Q s e) (hs : I s) :
  (∀ fs, fs <+: es → ∀ t, run step s fs = some t → I t) ↔ Always step Q s es
  := by
  induction es generalizing s with
  | nil => simp [Always, hs]
  | cons e es ih =>
    constructor
    · intro h
      have hI : ∀ t, step s e = some t → I t := by
        intro t ht
        apply h [e] (by simp) t (by simp [ht])
      constructor
      · cases ht : step s e with
        | none => apply hfail s e hs ht
        | some t => apply (hiff s e t hs ht).mp (hI t ht)
      · intro t ht
        apply (ih (hI t ht)).mp
        intro fs hfs u hu
        apply h (e :: fs) (List.cons_prefix_cons.mpr ⟨rfl, hfs⟩) u
        simp [ht, hu]
    · rintro ⟨hQ, hrest⟩ fs hfs u hu
      cases fs with
      | nil =>
        obtain rfl := Option.some.inj hu
        exact hs
      | cons f fs =>
        obtain ⟨rfl, hpre⟩ := List.cons_prefix_cons.mp hfs
        obtain ⟨t, ht, hu⟩ := Option.bind_eq_some_iff.mp hu
        apply (ih ((hiff s f t hs ht).mpr hQ)).mpr (hrest t ht) fs hpre u hu

/-- If each step of a machine that `P` allows is followed by another machine from related
states to related states, so is each run of such steps. -/
theorem Always.simulate {T : Type*} {step' : T → E → Option T} {R : T → S → Prop} {u : T}
    (hstep : ∀ u s e t, R u s → P s e → step s e = some t → ∃ v, step' u e = some v ∧ R v t)
    (hP : Always step P s es) (hR : R u s) (ht : run step s es = some t) :
  ∃ v, run step' u es = some v ∧ R v t
  := by
  induction es generalizing s u with
  | nil =>
    obtain rfl := Option.some.inj ht
    exact ⟨u, rfl, hR⟩
  | cons e es ih =>
    obtain ⟨s', hs', ht⟩ := Option.bind_eq_some_iff.mp ht
    obtain ⟨u', hu', hR'⟩ := hstep u s e s' hR hP.1 hs'
    obtain ⟨v, hv, hRv⟩ := ih (hP.2 s' hs') hR' ht
    refine ⟨v, ?_, hRv⟩
    rw [run_cons, hu']
    exact hv

end Machine

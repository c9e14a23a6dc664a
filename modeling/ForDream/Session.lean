import ForDream.App
import ForDream.Lib.Machine

/-!
# Accounts in one process

A `Session` is one process of the app through which several accounts, indexed by `U`,
sign in and out.  The container of dreams is shared: signing out does not clear it,
signing in only dispatches the call of `fetchContainers` of `MainVC`, and no observer
is ever removed.

An `Audit` accompanies a session by the dreams each account owns: those it saved and
those read from its node.  A session is isolated if the container shows only dreams of
the account signed in, and the records written to its node are of dreams it owns.
-/

namespace ForDream

open Model

/-- A block of the main queue: the delivery of a snapshot of the node of an account, or a
call of `fetchContainers`. -/
inductive Session.Block (U : Type*) where
  | value (user : U) (snapshot : Node)
  | fetchContainers

/-- One process of the app.  The observers are listed by the account whose node they
observe. -/
structure Session (U : Type*) where
  currentUser : Option U
  dreamContainers : List Dream
  alert : Option Dream
  nodes : U → Node
  observers : List U
  mainQueue : List (Session.Block U)

namespace Session

/-- What happens in the process: `loginEvent` with the user the authentication returns,
if it does, `logout`, an operation of the user, or a turn of the main queue; and
`remote` changes of the node of an account by other processes. -/
inductive Event (U : Type*) where
  | loginEvent (user : Option U)
  | logout
  | op (op : Op)
  | turn
  | remote (user : U) (node : Node)

variable {U : Type*}

/-- The process starts at `MainVC`, which dispatches a call of `fetchContainers`. -/
def launch (currentUser : Option U) (nodes : U → Node) : Session U where
  currentUser := currentUser
  dreamContainers := []
  alert := none
  nodes := nodes
  observers := []
  mainQueue := [.fetchContainers]

/-- The container and the alert the operations of the user act on. -/
def app (s : Session U) : App where
  dreamContainers := s.dreamContainers
  alert := s.alert

variable [DecidableEq U]

/-- The node of an account changes, and a snapshot is enqueued for each of its observers
if it is another one. -/
def setNode (s : Session U) (user : U) (node : Node) : Session U :=
  if node = s.nodes user then s
  else
    { s with
      nodes := Function.update s.nodes user node
      mainQueue := s.mainQueue
        ++ List.replicate (s.observers.count user) (.value user node) }

/-- Apply writes to the node of an account, one after the other. -/
def writes (s : Session U) (user : U) : List Write → Session U
  | [] => s
  | w :: ws => writes (s.setNode user (w.apply (s.nodes user))) user ws

/-- An operation writes to the node of `base.uid!`, and traps if nobody is signed in. -/
def perform (s : Session U) (op : Op) : Option (Session U) :=
  let (a, ws) := s.app.perform op
  let t := { s with
    dreamContainers := a.dreamContainers
    alert := a.alert
    mainQueue := s.mainQueue ++ a.mainQueue.map fun _ => .fetchContainers }
  match s.currentUser, ws with
  | _, [] => some t
  | some user, ws => some (t.writes user ws)
  | none, _ :: _ => none

/-- `fetchContainers` observes the node of the account that is signed in when it runs. -/
def fetchContainers (P : Platform) (s : Session U) : Session U :=
  match s.currentUser with
  | none => s
  | some user =>
      { s with
        observers := s.observers ++ [user]
        mainQueue := s.mainQueue
          ++ List.replicate (P.initial (s.observers.count user + 1)) (.value user (s.nodes user)) }

/-- Run the first block of the main queue. -/
def turn (P : Platform) (s : Session U) : Option (Session U) :=
  match s.mainQueue with
  | [] => some s
  | .value _ snapshot :: queue =>
      (fetched P.sorter snapshot).map fun container =>
        { s with dreamContainers := container, mainQueue := queue }
  | .fetchContainers :: queue => some (fetchContainers P { s with mainQueue := queue })

/-- The state after an event, unless the process traps. -/
def step (P : Platform) (s : Session U) : Event U → Option (Session U)
  | .loginEvent none => some s
  | .loginEvent (some user) =>
      some { s with currentUser := some user, mainQueue := s.mainQueue ++ [.fetchContainers] }
  | .logout => some { s with currentUser := none, alert := none }
  | .op op => s.perform op
  | .turn => s.turn P
  | .remote user node => some (s.setNode user node)

/-! ### What a step changes -/

/-- A change of a node changes neither who is signed in nor the container. -/
theorem setNode_eq (s : Session U) (user : U) (node : Node) :
  (s.setNode user node).currentUser = s.currentUser
    ∧ (s.setNode user node).dreamContainers = s.dreamContainers
  := by
  rw [setNode]
  split
  · exact ⟨rfl, rfl⟩
  · exact ⟨rfl, rfl⟩

/-- Writes change neither who is signed in nor the container. -/
theorem writes_eq (s : Session U) (user : U) (ws : List Write) :
  (s.writes user ws).currentUser = s.currentUser
    ∧ (s.writes user ws).dreamContainers = s.dreamContainers
  := by
  induction ws generalizing s with
  | nil => exact ⟨rfl, rfl⟩
  | cons w ws ih =>
    rw [writes, (ih _).1, (ih _).2]
    apply setNode_eq

/-- An operation keeps who is signed in, and leaves in the container dreams it held. -/
theorem perform_eq {s t : Session U} {op : Op} (h : s.perform op = some t) :
  t.currentUser = s.currentUser ∧ t.dreamContainers = (s.app.perform op).1.dreamContainers
  := by
  simp only [perform] at h
  split at h
  · obtain rfl := Option.some.inj h
    exact ⟨rfl, rfl⟩
  next user ws _ _ =>
    obtain rfl := Option.some.inj h
    apply writes_eq
  · cases h

end Session

/-! ### Isolation -/

/-- A session and the dreams each account owns: those it saved and those read from its
node. -/
structure Audit (U : Type*) where
  session : Session U
  owned : U → List Dream

namespace Audit

open Session

variable {U : Type*} [DecidableEq U]

/-- The dreams an account comes to own by an event. -/
def gains (P : Platform) (s : Session U) (user : U) : Event U → List Dream
  | .op op => if s.currentUser = some user then (s.app.saves op).toList else []
  | .turn => match s.mainQueue with
    | .value observed snapshot :: _ =>
        if observed = user then (fetched P.sorter snapshot).getD [] else []
    | _ => []
  | _ => []

/-- The step of the session, with what the accounts come to own by it. -/
def step (P : Platform) (a : Audit U) (e : Event U) : Option (Audit U) :=
  (a.session.step P e).map fun t =>
    { session := t, owned := fun user => gains P a.session user e ++ a.owned user }

/-- Every dream in the container is owned by the account signed in. -/
def Shown (a : Audit U) : Prop :=
  ∀ user ∈ a.session.currentUser, ∀ dream ∈ a.session.dreamContainers, dream ∈ a.owned user

/-- An account signs in only if it owns the dreams in the container, and a snapshot of the
node of another account is delivered only if the account signed in owns the dreams
read. -/
def Separate (P : Platform) (a : Audit U) : Event U → Prop
  | .loginEvent (some user) => ∀ dream ∈ a.session.dreamContainers, dream ∈ a.owned user
  | .turn => match a.session.mainQueue with
    | .value observed snapshot :: _ =>
        ∀ user ∈ a.session.currentUser, observed ≠ user →
          ∀ dream ∈ (fetched P.sorter snapshot).getD [], dream ∈ a.owned user
    | _ => True
  | _ => True

/-- A step that keeps who is signed in, and adds no dream to the container, shows no dream
of another account. -/
theorem Shown.of_subset {a : Audit U} (h : Shown a) (P : Platform) (e : Event U)
    {t : Session U} (huser : t.currentUser = a.session.currentUser)
    (hsubset : t.dreamContainers ⊆ a.session.dreamContainers) :
  Shown ⟨t, fun user => gains P a.session user e ++ a.owned user⟩
  := by
  intro user hu dream hd
  apply List.mem_append_right
  apply h user (huser ▸ hu) dream (hsubset hd)

/-- Only dreams of the account signed in are shown after a turn exactly when the turn is
separate. -/
theorem Shown.turn_iff {P : Platform} {a : Audit U} (h : Shown a) {t : Session U}
    (ht : a.session.turn P = some t) :
  Shown ⟨t, fun user => gains P a.session user .turn ++ a.owned user⟩ ↔ a.Separate P .turn
  := by
  rw [turn] at ht
  rw [Separate]
  split at ht
  next hqueue =>
    obtain rfl := Option.some.inj ht
    rw [hqueue]
    exact iff_of_true (h.of_subset P .turn rfl (List.Subset.refl _)) trivial
  next observed snapshot queue hqueue =>
    obtain ⟨container, hcontainer, rfl⟩ := Option.map_eq_some_iff.mp ht
    simp only [Shown, gains, hqueue, hcontainer, Option.getD_some]
    constructor
    · intro hshown user huser hne dream hd
      simpa [hne] using hshown user huser dream hd
    · intro hseparate user huser dream hd
      rcases eq_or_ne observed user with rfl | hne
      · simp [hd]
      · apply List.mem_append_right
        apply hseparate user huser hne dream hd
  next queue hqueue =>
    obtain rfl := Option.some.inj ht
    rw [hqueue]
    apply iff_of_true _ trivial
    apply h.of_subset
    · rw [fetchContainers]
      split
      · rfl
      · rfl
    · rw [fetchContainers]
      split
      · apply List.Subset.refl
      · apply List.Subset.refl

/-- Only dreams of the account signed in are shown after a step exactly when the step is
separate. -/
theorem Shown.step_iff {P : Platform} {a b : Audit U} {e : Event U} (h : Shown a)
    (hstep : a.step P e = some b) :
  Shown b ↔ a.Separate P e
  := by
  obtain ⟨t, ht, rfl⟩ := Option.map_eq_some_iff.mp hstep
  cases e with
  | loginEvent user =>
    cases user with
    | none =>
      obtain rfl := Option.some.inj ht
      exact iff_of_true (h.of_subset P _ rfl (List.Subset.refl _)) trivial
    | some user =>
      obtain rfl := Option.some.inj ht
      simp [Shown, Separate, gains]
  | logout =>
    obtain rfl := Option.some.inj ht
    apply iff_of_true _ trivial
    intro user hu
    cases hu
  | op op =>
    obtain ⟨huser, hcontainer⟩ := perform_eq ht
    apply iff_of_true _ trivial
    apply h.of_subset P _ huser
    rw [hcontainer]
    apply App.perform_subset
  | remote user node =>
    obtain rfl := Option.some.inj ht
    obtain ⟨huser, hcontainer⟩ := setNode_eq a.session user node
    apply iff_of_true _ trivial
    apply h.of_subset P _ huser
    rw [hcontainer]
    apply List.Subset.refl
  | turn => apply h.turn_iff ht

/-- The process starts with an empty container, and no account owns anything. -/
def launch (currentUser : Option U) (nodes : U → Node) : Audit U where
  session := Session.launch currentUser nodes
  owned _ := []

end Audit

end ForDream

import ForDream.Model
import ForDream.Lib.Machine
import Mathlib.Data.List.Permutation
import Mathlib.Logic.Function.Basic

/-!
# Withdrawal

`MenuTVC.withdrawal` starts two requests to the server and waits for neither: the removal
of the subtree `users/uid`, and the deletion of the account.  They complete in either
order, and each is applied or fails by itself; the completion of the deletion shows the
login screen or prints the error, that of the removal is not looked at.

The two effects are on different parts of the server, so each outcome stands on its own,
and together they leave all or nothing exactly when there was nothing to remove or both
requests had the same outcome.
-/

namespace ForDream

open Model

variable {V : Type*}

/-- What the server keeps: which accounts exist, and the subtree `users/uid` of each user,
of any type of values, if there is one. -/
structure Server (V : Type*) where
  accounts : String → Bool
  users : String → Option V

/-- A request to the server. -/
inductive Request where
  | removeValue (uid : String)
  | delete (uid : String)
  deriving DecidableEq

/-- The server after it applies a request. -/
def Request.apply (server : Server V) : Request → Server V
  | .removeValue uid => { server with users := Function.update server.users uid none }
  | .delete uid => { server with accounts := Function.update server.accounts uid false }

/-- The menu: the requests of `withdrawal` that are not complete, and what their
completion did. -/
structure MenuTVC (V : Type*) where
  server : Server V
  inFlight : List Request
  presentsLoginVC : Bool := false
  printsError : Bool := false

/-- The completion of a request, which the server applied or not. -/
structure Completion where
  request : Request
  applied : Bool

namespace MenuTVC

/-- `withdrawal` starts the two requests; without a current user `base.uid!` traps. -/
def withdrawal (server : Server V) (currentUser : Option String) : Option (MenuTVC V) :=
  currentUser.map fun uid => { server, inFlight := [.removeValue uid, .delete uid] }

/-- The completion handlers: `removeValue` has none. -/
def handle (m : MenuTVC V) : Completion → MenuTVC V
  | ⟨.removeValue _, _⟩ => m
  | ⟨.delete _, true⟩ => { m with presentsLoginVC := true }
  | ⟨.delete _, false⟩ => { m with printsError := true }

/-- A request in flight completes. -/
def step (m : MenuTVC V) (c : Completion) : Option (MenuTVC V) :=
  if c.request ∈ m.inFlight then
    some { handle m c with
      server := if c.applied then c.request.apply m.server else m.server
      inFlight := m.inFlight.erase c.request }
  else none

/-- All or nothing: the account is gone and its subtree is empty, or the account exists and
the subtree is what it was. -/
def Atomic (uid : String) (before after : Server V) : Prop :=
  (after.accounts uid = false ∧ after.users uid = none)
    ∨ (after.accounts uid = true ∧ after.users uid = before.users uid)

instance (uid : String) (before after : Server V) [DecidableEq V] :
    Decidable (Atomic uid before after) :=
  inferInstanceAs (Decidable ((after.accounts uid = false ∧ after.users uid = none)
    ∨ (after.accounts uid = true ∧ after.users uid = before.users uid)))

/-- A step completes one of the requests in flight. -/
theorem step_perm {m m' : MenuTVC V} {c : Completion} (h : m.step c = some m') :
  m.inFlight.Perm (c.request :: m'.inFlight)
  := by
  rw [step] at h
  split at h
  next hmem =>
    obtain rfl := Option.some.inj h
    apply List.perm_cons_erase hmem
  next => cases h

/-- A run completes the requests in flight, each once, but those still in flight at its
end. -/
theorem run_perm {m m' : MenuTVC V} {cs : List Completion}
    (h : Machine.run step m cs = some m') :
  m.inFlight.Perm (cs.map Completion.request ++ m'.inFlight)
  := by
  induction cs generalizing m with
  | nil =>
    obtain rfl := Option.some.inj h
    rfl
  | cons c cs ih =>
    obtain ⟨next, hnext, h⟩ := Option.bind_eq_some_iff.mp h
    apply (step_perm hnext).trans
    rw [List.map_cons, List.cons_append]
    apply (ih h).cons

/-- Completions of two requests. -/
theorem eq_pair_of_map_request {cs : List Completion} {first second : Request}
    (h : cs.map Completion.request = [first, second]) :
  ∃ applied applied', cs = [⟨first, applied⟩, ⟨second, applied'⟩]
  := by
  obtain ⟨⟨_, applied⟩, rest, rfl, rfl, hrest⟩ := List.map_eq_cons_iff.mp h
  obtain ⟨⟨_, applied'⟩, none, rfl, rfl, hnone⟩ := List.map_eq_cons_iff.mp hrest
  use applied, applied'
  rw [List.map_eq_nil_iff.mp hnone]

/-- Once both requests of a withdrawal are complete, each was complete exactly once. -/
theorem completions_of_run {server : Server V} {uid : String} {m' : MenuTVC V}
    {cs : List Completion}
    (h : Machine.run step { server, inFlight := [.removeValue uid, .delete uid] } cs = some m')
    (hdone : m'.inFlight = []) :
  ∃ removed deleted, cs.Perm [⟨.removeValue uid, removed⟩, ⟨.delete uid, deleted⟩]
  := by
  have hperm := run_perm h
  rw [hdone, List.append_nil, List.perm_comm, List.perm_pair] at hperm
  rcases hperm with hrequests | hrequests
  · obtain ⟨removed, deleted, rfl⟩ := eq_pair_of_map_request hrequests
    use removed, deleted
  · obtain ⟨deleted, removed, rfl⟩ := eq_pair_of_map_request hrequests
    use removed, deleted
    apply List.Perm.swap

/-- The server after both requests are complete, whatever their order: each outcome shows
in its own part. -/
def settled (server : Server V) (uid : String) (removed deleted : Bool) : Server V where
  accounts := if deleted then Function.update server.accounts uid false else server.accounts
  users := if removed then Function.update server.users uid none else server.users

/-- Both orders of the completions end in the same state. -/
theorem run_settled (server : Server V) (uid : String) (removed deleted : Bool)
    {cs : List Completion}
    (hcs : cs.Perm [⟨.removeValue uid, removed⟩, ⟨.delete uid, deleted⟩]) :
  Machine.run step { server, inFlight := [.removeValue uid, .delete uid] } cs
    = some
      { server := settled server uid removed deleted
        inFlight := []
        presentsLoginVC := deleted
        printsError := !deleted }
  := by
  rcases List.perm_pair.mp hcs with rfl | rfl
  · cases removed <;> cases deleted <;>
      simp [step, handle, settled, Request.apply]
  · cases removed <;> cases deleted <;>
      simp [step, handle, settled, Request.apply]

/-- The settled server has all or nothing exactly when there was nothing to remove or both
requests had the same outcome. -/
theorem atomic_settled {server : Server V} {uid : String} (h : server.accounts uid = true)
    (removed deleted : Bool) :
  Atomic uid server (settled server uid removed deleted)
    ↔ server.users uid = none ∨ removed = deleted
  := by
  cases removed <;> cases deleted <;> simp [Atomic, settled, h, eq_comm]

/-- A withdrawal of a user with an account.  However its requests complete, the account is
gone exactly if the deletion was applied, the subtree is empty if the removal was applied
and unchanged otherwise, and nothing is touched of other users; all or nothing happened
exactly when there was nothing to remove or both requests had the same outcome. -/
theorem withdrawal_outcome (server : Server V) (uid : String)
    (haccount : server.accounts uid = true) :
  ∃ m, withdrawal server (some uid) = some m
    ∧ (∀ cs m', Machine.run step m cs = some m' → m'.inFlight = [] →
      ∃ removed deleted, cs.Perm [⟨.removeValue uid, removed⟩, ⟨.delete uid, deleted⟩])
    ∧ ∀ removed deleted cs,
      cs.Perm [⟨.removeValue uid, removed⟩, ⟨.delete uid, deleted⟩] →
      ∃ m', Machine.run step m cs = some m' ∧ m'.inFlight = []
        ∧ m'.server.accounts uid = !deleted
        ∧ m'.server.users uid = (if removed then none else server.users uid)
        ∧ (∀ other, other ≠ uid → m'.server.accounts other = server.accounts other
          ∧ m'.server.users other = server.users other)
        ∧ (Atomic uid server m'.server ↔ server.users uid = none ∨ removed = deleted)
  := by
  use { server, inFlight := [.removeValue uid, .delete uid] }, rfl
  constructor
  · intro cs m' hrun hdone
    apply completions_of_run hrun hdone
  · intro removed deleted cs hcs
    use { server := settled server uid removed deleted, inFlight := [],
          presentsLoginVC := deleted, printsError := !deleted }
    use run_settled server uid removed deleted hcs, rfl
    constructor
    · cases deleted <;> simp [settled, haccount]
    · constructor
      · cases removed <;> simp [settled]
      · constructor
        · intro other hother
          cases removed <;> cases deleted <;> simp [settled, hother]
        · apply atomic_settled haccount

/-- A server with one account, which keeps one dream. -/
def oneAccount : Server (List Dream) where
  accounts uid := uid = "uid"
  users uid := if uid = "uid" then some [sea "2019-03-18"] else none

/-- The deletion is applied first, then the removal. -/
theorem withdrawal_outcome_both :
  ∃ m m', withdrawal oneAccount (some "uid") = some m
    ∧ Machine.run step m [⟨.delete "uid", true⟩, ⟨.removeValue "uid", true⟩] = some m'
    ∧ Atomic "uid" oneAccount m'.server
  := by
  obtain ⟨m, hm, -, hrun⟩ := withdrawal_outcome oneAccount "uid" (by decide)
  obtain ⟨m', hm', -, -, -, -, hatomic⟩ := hrun true true
    [⟨.delete "uid", true⟩, ⟨.removeValue "uid", true⟩] (List.Perm.swap _ _ _)
  use m, m', hm, hm'
  rw [hatomic]
  right
  rfl

/-- The removal is applied, and the deletion fails because a recent login is required: the
account is left without its dreams. -/
theorem removed_not_deleted :
  ∃ m m', withdrawal oneAccount (some "uid") = some m
    ∧ Machine.run step m [⟨.removeValue "uid", true⟩, ⟨.delete "uid", false⟩] = some m'
    ∧ m'.inFlight = []
    ∧ ¬ Atomic "uid" oneAccount m'.server
  := by
  use { server := oneAccount, inFlight := [.removeValue "uid", .delete "uid"] }
  use { server := settled oneAccount "uid" true false, inFlight := [], printsError := true }
  use rfl, run_settled oneAccount "uid" true false (List.Perm.refl _), rfl
  decide

end MenuTVC

end ForDream

import Mathlib.Data.List.Infix

/-!
# Overwriting at paths

A state keeps values under paths, and `put` overwrites what it has at a path and below
it.  Only the writes that are `Allowed` are considered.  A path is `Clear` in a state when nothing
above it stands in the way of a write; writes at clear paths absorb those made before at
or below them, and commute when neither path is below the other.

From these laws: a write is without effect on a replay in which a later write is at or
above its path, a write that no other one meets can be made last, and to replay writes
again that have been replayed before changes nothing.
-/

/-- States that keep values under paths of keys `κ`. -/
structure Overwrite (κ β σ : Type*) where
  put : σ → List κ → β → σ
  Allowed : List κ → β → Prop
  Clear : σ → List κ → Prop
  clear_above : ∀ {s p q}, q <+: p → Clear s p → Clear s q
  clear_put : ∀ {s p q c}, Allowed q c → (q <+: p → q = p) → Clear s p → Clear (put s q c) p
  absorb : ∀ {s p q c d}, Allowed p c → Allowed q d → q <+: p → Clear s q →
    put (put s p c) q d = put s q d
  commute : ∀ {s p q c d}, Allowed p c → Allowed q d → ¬ p <+: q → ¬ q <+: p → Clear s p →
    put (put s p c) q d = put (put s q d) p c

namespace Overwrite

variable {κ β σ : Type*} (O : Overwrite κ β σ)

/-- The state after writes, in order. -/
def replay (s : σ) (ws : List (List κ × β)) : σ := ws.foldl (fun s w => O.put s w.1 w.2) s

@[simp]
theorem replay_nil (s : σ) :
  O.replay s [] = s
  := rfl

@[simp]
theorem replay_cons (s : σ) (w : List κ × β) (ws : List (List κ × β)) :
  O.replay s (w :: ws) = O.replay (O.put s w.1 w.2) ws
  := rfl

@[simp]
theorem replay_append (s : σ) (ws ws' : List (List κ × β)) :
  O.replay s (ws ++ ws') = O.replay (O.replay s ws) ws'
  := List.foldl_append

/-- The two states differ at most at a path and below it. -/
def Agree (p : List κ) (s t : σ) : Prop :=
  O.Clear s p ∧ O.Clear t p ∧ ∀ c, O.Allowed p c → O.put s p c = O.put t p c

variable {O} {p q : List κ} {s t : σ} {c d : β} {ws : List (List κ × β)}

theorem Agree.refl (h : O.Clear s p) :
  O.Agree p s s
  := ⟨h, h, fun _ _ => rfl⟩

/-- A write at the path or below it changes nothing else. -/
theorem agree_put_self (hq : O.Allowed q c) (hpq : p <+: q) (h : O.Clear s p) :
  O.Agree p (O.put s q c) s
  := by
  have hpre : q <+: p → q = p := fun hqp => hqp.eq_of_length_le hpq.length_le
  refine ⟨O.clear_put hq hpre h, h, ?_⟩
  intro d hd
  apply O.absorb hq hd hpq h

theorem Agree.trans {u : σ} (h : O.Agree p s t) (h' : O.Agree p t u) :
  O.Agree p s u
  := ⟨h.1, h'.2.1, fun c hc => (h.2.2 c hc).trans (h'.2.2 c hc)⟩

/-- Writes at the path or below it change nothing else. -/
theorem agree_replay_self (h : O.Clear s p) (hallowed : ∀ w ∈ ws, O.Allowed w.1 w.2)
    (hws : ∀ w ∈ ws, p <+: w.1) :
  O.Agree p (O.replay s ws) s
  := by
  induction ws generalizing s with
  | nil => exact .refl h
  | cons w ws ih =>
    rw [List.forall_mem_cons] at hallowed hws
    have hfirst := agree_put_self hallowed.1 hws.1 h
    apply (ih hfirst.1 hallowed.2 hws.2).trans hfirst

/-- A write at or above the path makes the states equal. -/
theorem Agree.put_eq (h : O.Agree p s t) (hp : O.Allowed p c) (hq : O.Allowed q d)
    (hqp : q <+: p) :
  O.put s q d = O.put t q d
  := by
  obtain ⟨hs, ht, heq⟩ := h
  rw [← O.absorb hp hq hqp (O.clear_above hqp hs), heq c hp,
    O.absorb hp hq hqp (O.clear_above hqp ht)]

/-- Another write leaves the states agreeing. -/
theorem Agree.put (h : O.Agree p s t) (hq : O.Allowed q d) (hqp : ¬ q <+: p) :
  O.Agree p (O.put s q d) (O.put t q d)
  := by
  obtain ⟨hs, ht, heq⟩ := h
  have hpre : q <+: p → q = p := fun h => absurd h hqp
  refine ⟨O.clear_put hq hpre hs, O.clear_put hq hpre ht, ?_⟩
  intro c hp
  by_cases hpq : p <+: q
  · rw [O.absorb hq hp hpq hs, O.absorb hq hp hpq ht, heq c hp]
  · rw [← O.commute hp hq hpq hqp hs, ← O.commute hp hq hpq hqp ht, heq c hp]

/-- Writes none of which is at or above the path leave the states agreeing. -/
theorem Agree.replay (h : O.Agree p s t) (hallowed : ∀ w ∈ ws, O.Allowed w.1 w.2)
    (hws : ∀ w ∈ ws, ¬ w.1 <+: p) :
  O.Agree p (O.replay s ws) (O.replay t ws)
  := by
  induction ws generalizing s t with
  | nil => exact h
  | cons w ws ih =>
    rw [List.forall_mem_cons] at hallowed hws
    apply ih (h.put hallowed.1 hws.1) hallowed.2 hws.2

/-- States that agree outside a path are made equal by writes of which one is at or above
it. -/
theorem Agree.replay_eq (h : O.Agree p s t) (hp : O.Allowed p c)
    (hallowed : ∀ w ∈ ws, O.Allowed w.1 w.2) (hws : ∃ w ∈ ws, w.1 <+: p) :
  O.replay s ws = O.replay t ws
  := by
  induction ws generalizing s t with
  | nil =>
    obtain ⟨w, hw, -⟩ := hws
    cases hw
  | cons w ws ih =>
    rw [List.forall_mem_cons] at hallowed
    rw [replay_cons, replay_cons]
    by_cases hw : w.1 <+: p
    · rw [h.put_eq hp hallowed.1 hw]
    · apply ih (h.put hallowed.1 hw) hallowed.2
      obtain ⟨u, hu, hup⟩ := hws
      rcases List.mem_cons.mp hu with rfl | hu
      · contradiction
      · use u

/-- A write is without effect if a later one is at or above its path. -/
theorem replay_shadowed (hp : O.Allowed p c) (h : O.Clear s p)
    (hallowed : ∀ w ∈ ws, O.Allowed w.1 w.2) (hws : ∃ w ∈ ws, w.1 <+: p) :
  O.replay (O.put s p c) ws = O.replay s ws
  := (agree_put_self hp (List.prefix_refl p) h).replay_eq hp hallowed hws

/-- A write that no later one meets can be made last. -/
theorem replay_put (hp : O.Allowed p c) (h : O.Clear s p)
    (hallowed : ∀ w ∈ ws, O.Allowed w.1 w.2) (hws : ∀ w ∈ ws, ¬ p <+: w.1 ∧ ¬ w.1 <+: p) :
  O.replay (O.put s p c) ws = O.put (O.replay s ws) p c
  := by
  induction ws generalizing s with
  | nil => rfl
  | cons w ws ih =>
    rw [List.forall_mem_cons] at hallowed hws
    obtain ⟨⟨hpw, hwp⟩, hws⟩ := hws
    rw [replay_cons, replay_cons, O.commute hp hallowed.1 hpw hwp h]
    apply ih (O.clear_put hallowed.1 (fun hw => absurd hw hwp) h) hallowed.2 hws

end Overwrite

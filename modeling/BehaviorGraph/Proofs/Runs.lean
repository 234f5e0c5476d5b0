/-
# Reasoning about runs

A statement about a run is a statement about its result and the state it leaves, also after a
failure: `Run.Ends m s Q`.  Each way of putting runs together has one equation that moves the
statement to the parts, so a proof about an operation reads its steps from the front.

A property of states that every step keeps is kept by the whole (`Run.Preserves`).
-/
import BehaviorGraph.Run

namespace BehaviorGraph

namespace Run

variable {ε ε' σ τ α β : Type} {s : σ}

/-! ## 1. Where a run ends -/

/-- The result and the state a run leaves are related by `Q`. -/
def Ends (m : Run ε σ α) (s : σ) (Q : Except ε α → σ → Prop) : Prop :=
  Q (m s).result (m s).state

theorem ends_pure (a : α) (Q : Except ε α → σ → Prop) :
    (pure a : Run ε σ α).Ends s Q ↔ Q (.ok a) s := Iff.rfl

/-- **A run goes on where its first part succeeds.** -/
theorem ends_bind (m : Run ε σ α) (f : α → Run ε σ β) (Q : Except ε β → σ → Prop) :
    (m >>= f).Ends s Q ↔ m.Ends s fun
      | .ok a, s' => (f a).Ends s' Q
      | .error e, s' => Q (.error e) s' := by
  unfold Ends
  cases h : m s with
  | mk result s' reports =>
    cases result with
    | ok a => rw [bind_ok h]; rfl
    | error e => rw [bind_error h]

theorem ends_map (m : Run ε σ α) (f : α → β) (Q : Except ε β → σ → Prop) :
    (f <$> m).Ends s Q ↔ m.Ends s fun r s' => Q (r.map f) s' := by
  show (m >>= fun a => pure (f a)).Ends s Q ↔ _
  rw [ends_bind]
  unfold Ends
  cases (m s).result <;> rfl

theorem ends_state (Q : Except ε σ → σ → Prop) : (state : Run ε σ σ).Ends s Q ↔ Q (.ok s) s :=
  Iff.rfl

theorem ends_read (f : σ → α) (Q : Except ε α → σ → Prop) :
    (read f : Run ε σ α).Ends s Q ↔ Q (.ok (f s)) s := Iff.rfl

theorem ends_update (f : σ → σ) (Q : Except ε Unit → σ → Prop) :
    (update f : Run ε σ Unit).Ends s Q ↔ Q (.ok ()) (f s) := Iff.rfl

theorem ends_log (level : Level) (text : String) (Q : Except ε Unit → σ → Prop) :
    (log level text : Run ε σ Unit).Ends s Q ↔ Q (.ok ()) s := Iff.rfl

/-- Logging how much there was of something changes nothing. -/
theorem ends_count (count : σ → Nat) (level : Level) (text : σ → String) (a : α)
    (Q : Except ε α → σ → Prop) :
    Ends (do
      let s ← state
      if 0 < count s then log level (text s)
      return a) s Q ↔ Q (.ok a) s := by
  rw [ends_bind, ends_state]
  simp only
  split <;> exact Iff.rfl

theorem ends_ofExcept (r : Except ε α) (Q : Except ε α → σ → Prop) :
    (ofExcept r : Run ε σ α).Ends s Q ↔ Q r s := by
  cases r <;> rfl

/-- A run inside a larger state ends where the part ends. -/
theorem ends_within {t : τ} (view : τ → σ) (store : σ → τ → τ) (blame : ε → ε') (m : Run ε σ α)
    (Q : Except ε' α → τ → Prop) :
    (within view store blame m).Ends t Q
      ↔ m.Ends (view t) fun r s' => Q (r.mapError blame) (store s' t) := by
  unfold Ends within
  cases m (view t) with
  | mk result s' reports => cases result <;> rfl

/-- A statement may be weakened. -/
theorem Ends.imp {m : Run ε σ α} {Q Q' : Except ε α → σ → Prop} (h : m.Ends s Q)
    (himp : ∀ r s', Q r s' → Q' r s') : m.Ends s Q' := himp _ _ h

/-- The state a run leaves may be named. -/
theorem Ends.and_state {m : Run ε σ α} {Q : Except ε α → σ → Prop} (h : m.Ends s Q) :
    m.Ends s fun r s' => Q r s' ∧ s' = (m s).state := ⟨h, rfl⟩

theorem ends_congr {m : Run ε σ α} {Q Q' : Except ε α → σ → Prop} (h : ∀ r s', Q r s' ↔ Q' r s') :
    m.Ends s Q ↔ m.Ends s Q' := h _ _

/-! ## 2. What every step keeps -/

/-- A run keeps a property of states, whether it succeeds or fails. -/
def Preserves (P : σ → Prop) (m : Run ε σ α) : Prop := ∀ s, P s → m.Ends s fun _ s' => P s'

namespace Preserves

variable {P : σ → Prop}

protected theorem bind {m : Run ε σ α} {f : α → Run ε σ β} (hm : Preserves P m)
    (hf : ∀ a, Preserves P (f a)) : Preserves P (m >>= f) := by
  intro s h
  rw [ends_bind]
  refine (hm s h).imp fun r s' hs' => ?_
  cases r with
  | ok a => exact hf a s' hs'
  | error e => exact hs'

end Preserves

/-- **What a run keeps for one element after the other, it keeps for a list.**  It may depend on
the elements that had their turn, the last one in front. -/
theorem each_ends {m : α → Run ε σ Unit} {P : List α → σ → Prop}
    (hstep : ∀ {done s} a, P done s → (m a).Ends s fun r s' => r = .ok () ∧ P (a :: done) s')
    (items : List α) {done : List α} (h : P done s) :
    (each m items).Ends s fun r s' => r = .ok () ∧ P (items.reverse ++ done) s' := by
  induction items generalizing s done with
  | nil => exact ⟨rfl, h⟩
  | cons a rest ih =>
    show (m a >>= fun _ => each m rest).Ends s _
    rw [ends_bind]
    refine (hstep a h).imp fun r s' hend => ?_
    obtain ⟨rfl, h'⟩ := hend
    rw [List.reverse_cons, List.append_assoc]
    exact ih h'

/-- **What every element hands on to the next holds in the end**, if the run succeeds. -/
theorem each_hands_on {m : α → Run ε σ Unit} {items : List α} {P : List α → σ → Prop}
    (hstep : ∀ {done a rest s}, items = done ++ a :: rest → P done s →
      (m a).Ends s fun r s' => r = .ok () → P (done ++ [a]) s') (h : P [] s) :
    (each m items).Ends s fun r s' => r = .ok () → P items s' := by
  -- The induction is on the elements to come; those that had their turn stand in front of them.
  suffices hrun : ∀ rest done s, items = done ++ rest → P done s →
      (each m rest).Ends s fun r s' => r = .ok () → P items s' from hrun items [] s rfl h
  intro rest
  induction rest with
  | nil =>
    intro done s hitems hdone _
    rwa [hitems, List.append_nil]
  | cons a rest ih =>
    intro done s hitems hdone
    show (m a >>= fun _ => each m rest).Ends s _
    rw [ends_bind]
    refine (hstep hitems hdone).imp fun r s' hend => ?_
    cases r with
    | error e => exact fun herror => absurd herror (by simp)
    | ok value => exact ih (done ++ [a]) s' (by simp [hitems]) (hend rfl)

end Run

end BehaviorGraph

-- Pre- and postconditions for programs with a state and exceptions, where an
-- exception keeps the state reached so far. A program has two exits, and a
-- triple says what holds at each of them.
import Mathlib

namespace state_exn

universe u

variable {ε σ α β : Type u}

/-- From a state with `P`, a return ends in `Q` and an exception ends in `E`. -/
def Triple (P : σ → Prop) (x : EStateM ε σ α) (Q : α → σ → Prop) (E : ε → σ → Prop) : Prop :=
  ∀ s, P s → match x s with
    | .ok a s' => Q a s'
    | .error e s' => E e s'

/-- The state of a result, on either exit. -/
def stateOf : EStateM.Result ε σ α → σ
  | .ok _ s => s
  | .error _ s => s

def returned : EStateM.Result ε σ α → Bool
  | .ok _ _ => true
  | .error _ _ => false

theorem ok_of_returned {r : EStateM.Result ε σ PUnit} (h : returned r = true) :
    r = .ok ⟨⟩ (stateOf r) := by
  rcases r with ⟨_, s⟩ | ⟨e, s⟩
  · rfl
  · cases h

/-- The program keeps the invariant, on either exit. -/
def Keeps (I : σ → Prop) (x : EStateM ε σ α) : Prop :=
  Triple I x (fun _ s => I s) (fun _ s => I s)

theorem bind_of_ok {x : EStateM ε σ β} {f : β → EStateM ε σ α} {s s₁ : σ} {b : β}
    (h : x s = .ok b s₁) : (x >>= f) s = f b s₁ := by
  show EStateM.bind x f s = f b s₁
  unfold EStateM.bind
  rw [h]

theorem bind_of_error {x : EStateM ε σ β} {f : β → EStateM ε σ α} {s s₁ : σ} {e : ε}
    (h : x s = .error e s₁) : (x >>= f) s = .error e s₁ := by
  show EStateM.bind x f s = .error e s₁
  unfold EStateM.bind
  rw [h]

theorem get_bind (f : σ → EStateM ε σ α) (s : σ) : (get >>= f) s = f s s := rfl

theorem set_bind (s' : σ) (f : PUnit → EStateM ε σ α) (s : σ) : (set s' >>= f) s = f ⟨⟩ s' := rfl

theorem modify_bind (g : σ → σ) (f : PUnit → EStateM ε σ α) (s : σ) :
    (modify g >>= f) s = f ⟨⟩ (g s) := rfl

theorem tryCatch_of_ok {x : EStateM ε σ α} {f : ε → EStateM ε σ α} {s s₁ : σ} {a : α}
    (h : x s = .ok a s₁) : (tryCatch x f) s = .ok a s₁ := by
  show EStateM.tryCatch x f s = .ok a s₁
  unfold EStateM.tryCatch
  rw [h]

theorem tryCatch_of_error {x : EStateM ε σ α} {f : ε → EStateM ε σ α} {s s₁ : σ} {e : ε}
    (h : x s = .error e s₁) : (tryCatch x f) s = f e s₁ := by
  show EStateM.tryCatch x f s = f e s₁
  unfold EStateM.tryCatch
  rw [h]
  rfl

/-- A loop whose first round returns goes on with the rest. -/
theorem forM_cons_of_ok {f : β → EStateM ε σ PUnit} {x : β} {rest : List β} {s s₁ : σ}
    (h : f x s = .ok ⟨⟩ s₁) : (x :: rest).forM f s = rest.forM f s₁ := bind_of_ok h

/-- A loop whose first round raises ends there. -/
theorem forM_cons_of_error {f : β → EStateM ε σ PUnit} {x : β} {rest : List β} {s s₁ : σ} {e : ε}
    (h : f x s = .error e s₁) : (x :: rest).forM f s = .error e s₁ := bind_of_error h

/-- A sequence that returns has returned at each of its two parts. -/
theorem bind_ok {x : EStateM ε σ β} {f : β → EStateM ε σ α} {s s' : σ} {a : α}
    (h : (x >>= f) s = .ok a s') : ∃ b s₁, x s = .ok b s₁ ∧ f b s₁ = .ok a s' := by
  have h' : EStateM.bind x f s = .ok a s' := h
  unfold EStateM.bind at h'
  rcases hx : x s with ⟨b, s₁⟩ | ⟨e, s₁⟩
  · rw [hx] at h'; exact ⟨b, s₁, rfl, h'⟩
  · rw [hx] at h'; cases h'

/-- A sequence that raises has raised at one of its two parts. -/
theorem bind_error {x : EStateM ε σ β} {f : β → EStateM ε σ α} {s s' : σ} {e : ε}
    (h : (x >>= f) s = .error e s') :
    x s = .error e s' ∨ ∃ b s₁, x s = .ok b s₁ ∧ f b s₁ = .error e s' := by
  have h' : EStateM.bind x f s = .error e s' := h
  unfold EStateM.bind at h'
  rcases hx : x s with ⟨b, s₁⟩ | ⟨e₁, s₁⟩
  · rw [hx] at h'; exact Or.inr ⟨b, s₁, rfl, h'⟩
  · rw [hx] at h'; cases h'; exact Or.inl rfl

theorem modifyGet_ok {f : σ → α × σ} {s s' : σ} {a : α}
    (h : (modifyGet f : EStateM ε σ α) s = .ok a s') : f s = (a, s') := by
  have h' : EStateM.modifyGet f s = .ok a s' := h
  unfold EStateM.modifyGet at h'
  rcases hf : f s with ⟨b, s₁⟩
  rw [hf] at h'
  cases h'
  rfl

namespace Triple

variable {P P' : σ → Prop} {Q Q' : α → σ → Prop} {E E' : ε → σ → Prop}

theorem ok {x : EStateM ε σ α} (h : Triple P x Q E) {s s' : σ} {a : α} (hs : P s)
    (hx : x s = .ok a s') : Q a s' := by
  have h' := h s hs
  rw [hx] at h'
  exact h'

theorem error {x : EStateM ε σ α} (h : Triple P x Q E) {s s' : σ} {e : ε} (hs : P s)
    (hx : x s = .error e s') : E e s' := by
  have h' := h s hs
  rw [hx] at h'
  exact h'

/-- A program whose exceptions are ruled out returns. -/
theorem returns {x : EStateM ε σ α} (h : Triple P x Q E) (hno : ∀ e s, ¬ E e s) {s : σ}
    (hs : P s) : ∃ a s', x s = .ok a s' ∧ Q a s' := by
  have h' := h s hs
  rcases hx : x s with ⟨a, s'⟩ | ⟨e, s'⟩
  · rw [hx] at h'; exact ⟨a, s', rfl, h'⟩
  · rw [hx] at h'; exact absurd h' (hno e s')

theorem mono {x : EStateM ε σ α} (h : Triple P x Q E) (hp : ∀ s, P' s → P s)
    (hq : ∀ a s, Q a s → Q' a s) (he : ∀ e s, E e s → E' e s) : Triple P' x Q' E' := by
  intro s hs
  have h' := h s (hp s hs)
  rcases hx : x s with ⟨a, s'⟩ | ⟨e, s'⟩
  · rw [hx] at h'; exact hq a s' h'
  · rw [hx] at h'; exact he e s' h'

/-- What holds of the state on either exit. -/
theorem of_state {R : σ → Prop} {x : EStateM ε σ α} (h : ∀ s, P s → R (stateOf (x s))) :
    Triple P x (fun _ s => R s) (fun _ s => R s) := by
  intro s hs
  have h' := h s hs
  rcases hx : x s with ⟨a, s'⟩ | ⟨e, s'⟩
  · rw [hx] at h'; exact h'
  · rw [hx] at h'; exact h'

theorem state {R : σ → Prop} {x : EStateM ε σ α}
    (h : Triple P x (fun _ s => R s) (fun _ s => R s)) {s : σ} (hs : P s) : R (stateOf (x s)) := by
  have h' := h s hs
  rcases hx : x s with ⟨a, s'⟩ | ⟨e, s'⟩
  · rw [hx] at h'; exact h'
  · rw [hx] at h'; exact h'

theorem pure {a : α} (h : ∀ s, P s → Q a s) : Triple P (Pure.pure a) Q E := h

theorem bind {R : β → σ → Prop} {x : EStateM ε σ β} {f : β → EStateM ε σ α}
    (hx : Triple P x R E) (hf : ∀ b, Triple (R b) (f b) Q E) : Triple P (x >>= f) Q E := by
  intro s hs
  have h' := hx s hs
  show match EStateM.bind x f s with | .ok a s' => Q a s' | .error e s' => E e s'
  unfold EStateM.bind
  rcases hx : x s with ⟨b, s'⟩ | ⟨e, s'⟩
  · rw [hx] at h'; exact hf b s' h'
  · rw [hx] at h'; exact h'

theorem gets {Q : σ → σ → Prop} (h : ∀ s, P s → Q s s) :
    Triple P (get : EStateM ε σ σ) Q E := h

/-- A program that starts with a look at the state. -/
theorem reads {f : σ → EStateM ε σ α} (h : ∀ s₀, P s₀ → Triple (fun s => s = s₀) (f s₀) Q E) :
    Triple P (get >>= f) Q E := fun s hs => h s hs s rfl

theorem sets {Q : PUnit → σ → Prop} {s' : σ} (h : ∀ s, P s → Q ⟨⟩ s') :
    Triple P (set s' : EStateM ε σ PUnit) Q E := h

theorem modifies {Q : PUnit → σ → Prop} {f : σ → σ} (h : ∀ s, P s → Q ⟨⟩ (f s)) :
    Triple P (modify f : EStateM ε σ PUnit) Q E := h

theorem throws {e : ε} (h : ∀ s, P s → E e s) : Triple P (throw e : EStateM ε σ α) Q E := h

/-- A handler starts in the state that the exception left. -/
theorem catches {R : ε → σ → Prop} {x : EStateM ε σ α} {f : ε → EStateM ε σ α}
    (hx : Triple P x Q R) (hf : ∀ e, Triple (R e) (f e) Q E) : Triple P (tryCatch x f) Q E := by
  intro s hs
  have h' := hx s hs
  show match EStateM.tryCatch x f s with | .ok a s' => Q a s' | .error e s' => E e s'
  unfold EStateM.tryCatch
  rcases hx : x s with ⟨a, s'⟩ | ⟨e, s'⟩
  · rw [hx] at h'; exact h'
  · rw [hx] at h'; exact hf e s' h'

theorem cond {c : Prop} [Decidable c] {x y : EStateM ε σ α} (hx : c → Triple P x Q E)
    (hy : ¬ c → Triple P y Q E) : Triple P (if c then x else y) Q E := by
  split
  · exact hx ‹_›
  · exact hy ‹_›

/-- A loop over a list. The invariant speaks of the items that are still to come. -/
theorem forEach {I : List β → σ → Prop} {f : β → EStateM ε σ PUnit} (l : List β)
    (h : ∀ x rest, Triple (I (x :: rest)) (f x) (fun _ s => I rest s) E) :
    Triple (I l) (l.forM f) (fun _ s => I [] s) E := by
  induction l with
  | nil => exact Triple.pure (fun _ hs => hs)
  | cons x rest ih => exact Triple.bind (h x rest) (fun _ => ih)

end Triple

namespace Keeps

variable {I : σ → Prop}

theorem ok {x : EStateM ε σ α} (h : Keeps I x) {s s' : σ} {a : α} (hs : I s)
    (hx : x s = .ok a s') : I s' := Triple.ok h hs hx

theorem error {x : EStateM ε σ α} (h : Keeps I x) {s s' : σ} {e : ε} (hs : I s)
    (hx : x s = .error e s') : I s' := Triple.error h hs hx

theorem state {x : EStateM ε σ α} (h : Keeps I x) {s : σ} (hs : I s) : I (stateOf (x s)) :=
  Triple.state h hs

theorem pure (a : α) : Keeps I (Pure.pure a : EStateM ε σ α) := fun _ hs => hs

theorem bind {x : EStateM ε σ β} {f : β → EStateM ε σ α} (hx : Keeps I x)
    (hf : ∀ b, Keeps I (f b)) : Keeps I (x >>= f) := Triple.bind hx hf

theorem gets : Keeps I (get : EStateM ε σ σ) := fun _ hs => hs

theorem modifies {f : σ → σ} (h : ∀ s, I s → I (f s)) : Keeps I (modify f : EStateM ε σ PUnit) := h

theorem modifyGets {f : σ → α × σ} (h : ∀ s, I s → I (f s).2) :
    Keeps I (modifyGet f : EStateM ε σ α) := h

theorem throws (e : ε) : Keeps I (throw e : EStateM ε σ α) := fun _ hs => hs

theorem catches {x : EStateM ε σ α} {f : ε → EStateM ε σ α} (hx : Keeps I x)
    (hf : ∀ e, Keeps I (f e)) : Keeps I (tryCatch x f) := Triple.catches hx hf

theorem cond {c : Prop} [Decidable c] {x y : EStateM ε σ α} (hx : c → Keeps I x)
    (hy : ¬ c → Keeps I y) : Keeps I (if c then x else y) := Triple.cond hx hy

theorem forEach {f : β → EStateM ε σ PUnit} (l : List β) (h : ∀ x ∈ l, Keeps I (f x)) :
    Keeps I (l.forM f) := by
  induction l with
  | nil => exact Keeps.pure _
  | cons x rest ih =>
    exact Keeps.bind (h x List.mem_cons_self)
      (fun _ => ih (fun y hy => h y (List.mem_cons_of_mem _ hy)))

end Keeps

end state_exn

-- What the dynamic-programming search finds. Its memory does not change what
-- it computes, so the actions it remembers lead to as many closed pipelines as
-- it promises; and it finds one whenever some nodes, in their order, close one.
import InferenceMesh.Scheduling.PipelineCharges

open ordered_dict python
open scheduling.model_info scheduling.node

namespace scheduling.layer_allocation

open Allocator

/-! ## The search without its memory -/

section fewest

variable (k_target : Nat) (num_layers : Int)

/-- The state cannot lead to the wanted pipelines. -/
def pruned (nodes : List Caps) (open_residuals : List Int) (finished_pipes : Nat) : Prop :=
  (k_target : Int) - finished_pipes - open_residuals.length < 0 ∨
    (nodes.map Caps.norm).sum < open_residuals.sum +
      max 0 ((k_target : Int) - finished_pipes - open_residuals.length) * num_layers ∨
    finished_pipes + open_residuals.length + nodes.length < k_target

instance (nodes : List Caps) (open_residuals : List Int) (finished_pipes : Nat) :
    Decidable (pruned k_target num_layers nodes open_residuals finished_pipes) :=
  inferInstanceAs (Decidable (_ ∨ _ ∨ _))

/-- The best of a cost so far and of those that assign the node to an open pipeline. -/
def assign_best (g : List Int → Nat → Cost) (c : Caps) (open_residuals : List Int)
    (finished_pipes : Nat) : List (Int × Nat) → Cost × Action → Cost × Action
  | [], best => best
  | (rj, j) :: rest, best =>
    let after := assign_to c open_residuals finished_pipes j rj
    assign_best g c open_residuals finished_pipes rest
      (better best (1 + g after.1 after.2.1) (.assign j after.2.2))

/-- The best of a cost so far and of the one that starts a pipeline. -/
def start_best (g : List Int → Nat → Cost) (c : Caps) (open_residuals : List Int)
    (finished_pipes : Nat) (best : Cost × Action) : Cost × Action :=
  if (k_target : Int) - finished_pipes - open_residuals.length > 0 then
    let after := start_with c num_layers open_residuals finished_pipes
    better best (1 + g after.1 after.2.1) (.start after.2.2.1 after.2.2.2)
  else best

/-- The least number of stages, and the action that leads there. -/
def fewest : List Caps → List Int → Nat → Cost × Action
  | [], open_residuals, finished_pipes =>
    if finished_pipes = k_target ∧ open_residuals = [] then (0, .done) else (⊤, .skip)
  | c :: rest, open_residuals, finished_pipes =>
    if finished_pipes = k_target ∧ open_residuals = [] then (0, .done)
    else if pruned k_target num_layers (c :: rest) open_residuals finished_pipes then (⊤, .skip)
    else
      start_best k_target num_layers (fun rs f => (fewest rest rs f).1) c open_residuals
        finished_pipes (assign_best (fun rs f => (fewest rest rs f).1) c open_residuals
          finished_pipes open_residuals.zipIdx
            ((fewest rest open_residuals finished_pipes).1, .skip))

end fewest

/-! ## The best of some options -/

theorem better_le (best : Cost × Action) (cost : Cost) (action : Action) :
    (better best cost action).1 ≤ best.1 ∧ (better best cost action).1 ≤ cost := by
  unfold better
  split
  · rename_i hlt
    exact ⟨hlt.le, le_rfl⟩
  · rename_i hnlt
    exact ⟨le_rfl, not_lt.mp hnlt⟩

theorem better_eq (best : Cost × Action) (cost : Cost) (action : Action) :
    better best cost action = best ∨ better best cost action = (cost, action) := by
  unfold better
  split
  · exact Or.inr rfl
  · exact Or.inl rfl

section options

variable {g : List Int → Nat → Cost} {c : Caps} {rs : List Int} {f : Nat}

theorem assign_best_le (l : List (Int × Nat)) (best : Cost × Action) :
    (assign_best g c rs f l best).1 ≤ best.1 ∧ ∀ x ∈ l, (assign_best g c rs f l best).1 ≤
      1 + g (assign_to c rs f x.2 x.1).1 (assign_to c rs f x.2 x.1).2.1 := by
  induction l generalizing best with
  | nil => exact ⟨le_rfl, fun x hx => by cases hx⟩
  | cons y rest ih =>
    obtain ⟨rj, j⟩ := y
    unfold assign_best
    dsimp only
    set after := assign_to c rs f j rj with hafter
    obtain ⟨h1, h2⟩ := ih (better best (1 + g after.1 after.2.1) (.assign j after.2.2))
    obtain ⟨h3, h4⟩ := better_le best (1 + g after.1 after.2.1) (.assign j after.2.2)
    refine ⟨h1.trans h3, ?_⟩
    intro x hx
    rcases List.mem_cons.mp hx with rfl | hx
    · exact h1.trans h4
    · exact h2 x hx

theorem assign_best_eq (l : List (Int × Nat)) (best : Cost × Action) :
    assign_best g c rs f l best = best ∨ ∃ x ∈ l, assign_best g c rs f l best =
      (1 + g (assign_to c rs f x.2 x.1).1 (assign_to c rs f x.2 x.1).2.1,
        .assign x.2 (assign_to c rs f x.2 x.1).2.2) := by
  induction l generalizing best with
  | nil => exact Or.inl rfl
  | cons y rest ih =>
    obtain ⟨rj, j⟩ := y
    unfold assign_best
    dsimp only
    set after := assign_to c rs f j rj with hafter
    rcases ih (better best (1 + g after.1 after.2.1) (.assign j after.2.2)) with h | ⟨x, hx, h⟩
    · rcases better_eq best (1 + g after.1 after.2.1) (.assign j after.2.2) with h' | h'
      · exact Or.inl (h.trans h')
      · exact Or.inr ⟨(rj, j), List.mem_cons_self, h.trans h'⟩
    · exact Or.inr ⟨x, List.mem_cons_of_mem _ hx, h⟩

end options

/-! ## Where an action leads -/

/-- The state after an action. -/
def next_state (c : Caps) (num_layers : Int) (open_residuals : List Int) (finished_pipes : Nat) :
    Action → List Int × Nat
  | .assign j _ =>
    let after := assign_to c open_residuals finished_pipes j (open_residuals.getD j 0)
    (after.1, after.2.1)
  | .start _ _ =>
    let after := start_with c num_layers open_residuals finished_pipes
    (after.1, after.2.1)
  | _ => (open_residuals, finished_pipes)

section steps

variable {k_target : Nat} {num_layers : Int} {c : Caps} {rest : List Caps} {rs : List Int} {f : Nat}

theorem fewest_nil (h : (fewest k_target num_layers [] rs f).1 < ⊤) : f = k_target ∧ rs = [] := by
  unfold fewest at h
  split at h
  · assumption
  · exact absurd h (lt_irrefl _)

theorem fewest_cons (hopen : ¬ (f = k_target ∧ rs = []))
    (hpruned : ¬ pruned k_target num_layers (c :: rest) rs f) :
    fewest k_target num_layers (c :: rest) rs f =
      start_best k_target num_layers (fun rs f => (fewest k_target num_layers rest rs f).1) c rs f
        (assign_best (fun rs f => (fewest k_target num_layers rest rs f).1) c rs f rs.zipIdx
          ((fewest k_target num_layers rest rs f).1, .skip)) := by
  conv_lhs => unfold fewest
  rw [if_neg hopen, if_neg hpruned]

/-- The cost of a state that is not cut off is at most that of each option. -/
theorem fewest_options_le (hopen : ¬ (f = k_target ∧ rs = []))
    (hpruned : ¬ pruned k_target num_layers (c :: rest) rs f) :
    (fewest k_target num_layers (c :: rest) rs f).1 ≤ (fewest k_target num_layers rest rs f).1 ∧
      (∀ x ∈ rs.zipIdx, (fewest k_target num_layers (c :: rest) rs f).1 ≤
        1 + (fewest k_target num_layers rest (assign_to c rs f x.2 x.1).1
          (assign_to c rs f x.2 x.1).2.1).1) ∧
      ((k_target : Int) - f - rs.length > 0 → (fewest k_target num_layers (c :: rest) rs f).1 ≤
        1 + (fewest k_target num_layers rest (start_with c num_layers rs f).1
          (start_with c num_layers rs f).2.1).1) := by
  rw [fewest_cons hopen hpruned]
  obtain ⟨hskip, hassign⟩ := assign_best_le (g := fun rs f => (fewest k_target num_layers rest rs f).1)
    (c := c) (f := f) rs.zipIdx ((fewest k_target num_layers rest rs f).1, .skip)
  unfold start_best
  split
  · obtain ⟨hbest, hstart⟩ := better_le
      (assign_best (fun rs f => (fewest k_target num_layers rest rs f).1) c rs f rs.zipIdx
        ((fewest k_target num_layers rest rs f).1, .skip))
      (1 + (fewest k_target num_layers rest (start_with c num_layers rs f).1
        (start_with c num_layers rs f).2.1).1)
      (.start (start_with c num_layers rs f).2.2.1 (start_with c num_layers rs f).2.2.2)
    exact ⟨hbest.trans hskip, fun x hx => hbest.trans (hassign x hx), fun _ => hstart⟩
  · rename_i hnew
    exact ⟨hskip, hassign, fun h => absurd h hnew⟩

/-- The possible actions of the search. -/
inductive Chosen (k_target : Nat) (num_layers : Int) (c : Caps) (rs : List Int) (f : Nat) :
    Action → Prop
  | skip : Chosen k_target num_layers c rs f .skip
  | assign {rj : Int} {j : Nat} : rs[j]? = some rj →
    Chosen k_target num_layers c rs f (.assign j (assign_to c rs f j rj).2.2)
  | start : (k_target : Int) - f - rs.length > 0 → Chosen k_target num_layers c rs f
    (.start (start_with c num_layers rs f).2.2.1 (start_with c num_layers rs f).2.2.2)

/-- The stages that an action adds. -/
def Action.stages : Action → Nat
  | .assign _ _ => 1
  | .start _ _ => 1
  | _ => 0

/-- The cost of a state that is not finished comes from the state that its action leads to. -/
theorem fewest_step (hopen : ¬ (f = k_target ∧ rs = []))
    (hfinite : (fewest k_target num_layers (c :: rest) rs f).1 < ⊤) :
    Chosen k_target num_layers c rs f (fewest k_target num_layers (c :: rest) rs f).2 ∧
      (fewest k_target num_layers (c :: rest) rs f).1 =
        ((fewest k_target num_layers (c :: rest) rs f).2.stages : Cost) +
          (fewest k_target num_layers rest
            (next_state c num_layers rs f (fewest k_target num_layers (c :: rest) rs f).2).1
            (next_state c num_layers rs f (fewest k_target num_layers (c :: rest) rs f).2).2).1 := by
  have hpruned : ¬ pruned k_target num_layers (c :: rest) rs f := by
    intro hp
    unfold fewest at hfinite
    rw [if_neg hopen, if_pos hp] at hfinite
    exact absurd hfinite (lt_irrefl _)
  rw [fewest_cons hopen hpruned]
  set g := fun rs f => (fewest k_target num_layers rest rs f).1 with hg
  set best := assign_best g c rs f rs.zipIdx ((fewest k_target num_layers rest rs f).1, .skip)
    with hbest
  have hassign : Chosen k_target num_layers c rs f best.2 ∧
      best.1 = (best.2.stages : Cost) +
        (fewest k_target num_layers rest (next_state c num_layers rs f best.2).1
          (next_state c num_layers rs f best.2).2).1 := by
    rcases assign_best_eq (g := g) (c := c) (f := f) rs.zipIdx
        ((fewest k_target num_layers rest rs f).1, .skip) with h | ⟨⟨rj, j⟩, hx, h⟩
    · rw [hbest, h]
      refine ⟨.skip, ?_⟩
      simp only [Action.stages, Nat.cast_zero, zero_add, next_state]
    · have hj : rs[j]? = some rj := by
        obtain ⟨hlt, heq⟩ := List.mem_zipIdx' hx
        exact List.getElem?_eq_some_iff.mpr ⟨hlt, heq.symm⟩
      have hget : rs.getD j 0 = rj := by
        rw [List.getD_eq_getElem?_getD, hj]
        rfl
      rw [hbest, h]
      refine ⟨.assign hj, ?_⟩
      simp only [next_state, hget, Action.stages, Nat.cast_one, hg]
  unfold start_best
  split
  · rename_i hnew
    dsimp only
    rcases better_eq best (1 + g (start_with c num_layers rs f).1 (start_with c num_layers rs f).2.1)
        (.start (start_with c num_layers rs f).2.2.1 (start_with c num_layers rs f).2.2.2) with
      h | h
    · rw [h]
      exact hassign
    · rw [h]
      refine ⟨.start hnew, ?_⟩
      simp only [next_state, Action.stages, Nat.cast_one, hg]
  · exact hassign

theorem fewest_step_finite (hopen : ¬ (f = k_target ∧ rs = []))
    (hfinite : (fewest k_target num_layers (c :: rest) rs f).1 < ⊤) :
    (fewest k_target num_layers rest
      (next_state c num_layers rs f (fewest k_target num_layers (c :: rest) rs f).2).1
      (next_state c num_layers rs f (fewest k_target num_layers (c :: rest) rs f).2).2).1 < ⊤ := by
  have hstep := (fewest_step hopen hfinite).2
  rw [hstep] at hfinite
  exact (WithTop.add_lt_top.mp hfinite).2

end steps

/-! ## The memory -/

section memory

variable (k_target : Nat) (num_layers : Int) (all : List Caps)

/-- The search has been in a state. -/
def Memo.Knows (m : Memo) (i : Nat) (rs : List Int) (f : Nat) : Prop :=
  (m.cache.get? (i, rs, f)).isSome = true

/-- What the search remembers of a state: its cost, and how it goes on if it can. -/
structure Remembered (m : Memo) (i : Nat) (rs : List Int) (f : Nat) : Prop where
  action : (fewest k_target num_layers (all.drop i) rs f).1 < ⊤ →
    m.path.get? (i, rs, f) = some (fewest k_target num_layers (all.drop i) rs f).2
  onward : (fewest k_target num_layers (all.drop i) rs f).1 < ⊤ → ¬ (f = k_target ∧ rs = []) →
    ∀ c rest, all.drop i = c :: rest →
      m.Knows (i + 1)
        (next_state c num_layers rs f (fewest k_target num_layers (all.drop i) rs f).2).1
        (next_state c num_layers rs f (fewest k_target num_layers (all.drop i) rs f).2).2

/-- The memory agrees with the search without it. -/
structure MemoAgrees (m : Memo) : Prop where
  cost : ∀ i rs f cost, m.cache.get? (i, rs, f) = some cost →
    cost = (fewest k_target num_layers (all.drop i) rs f).1
  remembered : ∀ i rs f, m.Knows i rs f → Remembered k_target num_layers all m i rs f

/-- Nothing that the search knows is forgotten. -/
def Grows (m m' : Memo) : Prop := ∀ i rs f, m.Knows i rs f → m'.Knows i rs f

/-- From a memory that agrees, a part of the search returns the given value, keeps the agreement,
forgets nothing, and learns the given. -/
def Finds {α : Type} (m : Memo) (x : Search α) (v : α) (learns : Memo → Prop) : Prop :=
  (x.run m).1 = v ∧ MemoAgrees k_target num_layers all (x.run m).2 ∧ Grows m (x.run m).2 ∧
    learns (x.run m).2

end memory

section memory

variable {k_target : Nat} {num_layers : Int} {all : List Caps}

theorem Grows.refl (m : Memo) : Grows m m := fun _ _ _ h => h

theorem Grows.trans {a b c : Memo} (h : Grows a b) (h' : Grows b c) : Grows a c :=
  fun i rs f hk => h' i rs f (h i rs f hk)

theorem Finds.bind {α β : Type} {m : Memo} {x : Search α} {v : α} {learns : Memo → Prop}
    {y : α → Search β} {w : β} {learns' : Memo → Prop}
    (hx : Finds k_target num_layers all m x v learns)
    (hy : ∀ m', MemoAgrees k_target num_layers all m' → Grows m m' → learns m' →
      Finds k_target num_layers all m' (y v) w learns') :
    Finds k_target num_layers all m (x >>= y) w learns' := by
  obtain ⟨hv, hagrees, hgrows, hlearns⟩ := hx
  obtain ⟨hv', hagrees', hgrows', hlearns'⟩ := hy _ hagrees hgrows hlearns
  have hrun : (x >>= y).run m = (y v).run (x.run m).2 := by
    rw [← hv]
    rfl
  unfold Finds
  rw [hrun]
  exact ⟨hv', hagrees', hgrows.trans hgrows', hlearns'⟩

theorem Finds.pure {α : Type} {m : Memo} {v : α} {learns : Memo → Prop}
    (hagrees : MemoAgrees k_target num_layers all m) (hlearns : learns m) :
    Finds k_target num_layers all m (Pure.pure v : Search α) v learns :=
  ⟨rfl, hagrees, Grows.refl m, hlearns⟩

/-- Trying the open pipelines in turn finds the best of them. -/
theorem try_assign_finds {next : List Int → Nat → Search Cost} {g : List Int → Nat → Cost}
    {i : Nat} (hnext : ∀ rs f m, MemoAgrees k_target num_layers all m →
      Finds k_target num_layers all m (next rs f) (g rs f) (fun m' => m'.Knows i rs f))
    (c : Caps) (rs : List Int) (f : Nat) (l : List (Int × Nat)) (best : Cost × Action) (m : Memo)
    (hagrees : MemoAgrees k_target num_layers all m) :
    Finds k_target num_layers all m (try_assign next c rs f l best) (assign_best g c rs f l best)
      (fun m' => ∀ x ∈ l, m'.Knows i (assign_to c rs f x.2 x.1).1 (assign_to c rs f x.2 x.1).2.1) := by
  induction l generalizing best m with
  | nil => exact Finds.pure hagrees (fun x hx => by cases hx)
  | cons y rest ih =>
    obtain ⟨rj, j⟩ := y
    refine Finds.bind (hnext _ _ m hagrees) ?_
    intro m₁ hagrees₁ _ hknown
    obtain ⟨hv, hagrees₂, hgrows, hlearns⟩ := ih _ m₁ hagrees₁
    refine ⟨hv, hagrees₂, hgrows, ?_⟩
    intro x hx
    rcases List.mem_cons.mp hx with rfl | hx
    · exact hgrows _ _ _ hknown
    · exact hlearns x hx

theorem try_start_finds {next : List Int → Nat → Search Cost} {g : List Int → Nat → Cost}
    {i : Nat} (hnext : ∀ rs f m, MemoAgrees k_target num_layers all m →
      Finds k_target num_layers all m (next rs f) (g rs f) (fun m' => m'.Knows i rs f))
    (c : Caps) (rs : List Int) (f : Nat) (best : Cost × Action) (m : Memo)
    (hagrees : MemoAgrees k_target num_layers all m) :
    Finds k_target num_layers all m
      (try_start next c num_layers rs f ((k_target : Int) - f - rs.length) best)
      (start_best k_target num_layers g c rs f best)
      (fun m' => (k_target : Int) - f - rs.length > 0 →
        m'.Knows i (start_with c num_layers rs f).1 (start_with c num_layers rs f).2.1) := by
  unfold try_start start_best
  split
  · rename_i hnew
    refine Finds.bind (hnext _ _ m hagrees) ?_
    intro m₁ hagrees₁ _ hknown
    exact Finds.pure hagrees₁ (fun _ => hknown)
  · rename_i hnew
    exact Finds.pure hagrees (fun h => absurd h hnew)

/-- An action noted down for a state, the right one. -/
theorem MemoAgrees.note {m : Memo} {i : Nat} {rs : List Int} {f : Nat}
    (h : MemoAgrees k_target num_layers all m) {action : Action}
    (haction : action = (fewest k_target num_layers (all.drop i) rs f).2) :
    MemoAgrees k_target num_layers all { m with path := m.path.insert (i, rs, f) action } := by
  refine ⟨h.cost, ?_⟩
  intro i' rs' f' hknown
  have hold := h.remembered i' rs' f' hknown
  refine ⟨?_, hold.onward⟩
  intro hfinite
  show (m.path.insert (i, rs, f) action).get? (i', rs', f') = _
  rw [Dict.get?_insert]
  split
  · rename_i heq
    cases heq
    rw [haction]
  · exact hold.action hfinite

theorem grows_insert (m : Memo) (i : Nat) (rs : List Int) (f : Nat) (cost : Cost) :
    Grows m { m with cache := m.cache.insert (i, rs, f) cost } ∧
      Memo.Knows { m with cache := m.cache.insert (i, rs, f) cost } i rs f := by
  constructor
  · intro i' rs' f' hknown
    show ((m.cache.insert (i, rs, f) cost).get? (i', rs', f')).isSome = true
    rw [Dict.get?_insert]
    split
    · rfl
    · exact hknown
  · show ((m.cache.insert (i, rs, f) cost).get? (i, rs, f)).isSome = true
    rw [Dict.get?_insert_self]
    rfl

/-- A cost noted down for a state of which the action is already known. -/
theorem MemoAgrees.store {m : Memo} {i : Nat} {rs : List Int} {f : Nat}
    (h : MemoAgrees k_target num_layers all m)
    (hremembered : Remembered k_target num_layers all m i rs f) {cost : Cost}
    (hcost : cost = (fewest k_target num_layers (all.drop i) rs f).1) :
    MemoAgrees k_target num_layers all { m with cache := m.cache.insert (i, rs, f) cost } := by
  obtain ⟨hgrows, _⟩ := grows_insert m i rs f cost
  have hmono : ∀ i' rs' f', Remembered k_target num_layers all m i' rs' f' →
      Remembered k_target num_layers all { m with cache := m.cache.insert (i, rs, f) cost }
        i' rs' f' :=
    fun i' rs' f' hr => ⟨hr.action, fun hfinite hopen c rest hdrop =>
      hgrows _ _ _ (hr.onward hfinite hopen c rest hdrop)⟩
  constructor
  · intro i' rs' f' cost' hget
    have hget' : (m.cache.insert (i, rs, f) cost).get? (i', rs', f') = some cost' := hget
    rw [Dict.get?_insert] at hget'
    split at hget'
    · rename_i heq
      cases heq
      cases hget'
      exact hcost
    · exact h.cost i' rs' f' cost' hget'
  · intro i' rs' f' hknown
    by_cases heq : (i, rs, f) = (i', rs', f')
    · cases heq
      exact hmono i rs f hremembered
    · apply hmono
      apply h.remembered
      have hknown' : ((m.cache.insert (i, rs, f) cost).get? (i', rs', f')).isSome = true := hknown
      rw [Dict.get?_insert_ne _ _ heq] at hknown'
      exact hknown'

/-- The search in a state that is not in the cache. -/
def search_state (k_target : Nat) (num_layers : Int) (nodes : List Caps) (i : Nat) (rs : List Int)
    (f : Nat) : Search Cost :=
  if f = k_target ∧ rs = [] then do
    modify (fun m => { m with path := m.path.insert (i, rs, f) .done })
    pure (0 : Cost)
  else
    match nodes with
    | [] => pure ⊤
    | c :: rest =>
      if pruned k_target num_layers (c :: rest) rs f then pure ⊤
      else do
        let skipped ← dp k_target num_layers rest (i + 1) rs f
        let best ← try_assign (dp k_target num_layers rest (i + 1)) c rs f rs.zipIdx (skipped, .skip)
        let best ← try_start (dp k_target num_layers rest (i + 1)) c num_layers rs f
          ((k_target : Int) - f - rs.length) best
        modify (fun m => { m with path := m.path.insert (i, rs, f) best.2 })
        pure best.1

theorem dp_eq (k_target : Nat) (num_layers : Int) (nodes : List Caps) (i : Nat) (rs : List Int)
    (f : Nat) :
    dp k_target num_layers nodes i rs f = (do
      let memo ← get
      match memo.cache.get? (i, rs, f) with
      | some cost => return cost
      | none => do
        let cost ← search_state k_target num_layers nodes i rs f
        modify (fun m => { m with cache := m.cache.insert (i, rs, f) cost })
        return cost) := by
  unfold dp
  congr 1
  funext memo
  rcases memo.cache.get? (i, rs, f) with _ | cost
  · unfold search_state
    by_cases hdone : f = k_target ∧ rs = []
    · simp only [if_pos hdone]
      rfl
    · simp only [if_neg hdone]
      cases nodes with
      | nil => rfl
      | cons c rest =>
        by_cases hpruned : pruned k_target num_layers (c :: rest) rs f
        · simp only [if_pos hpruned]
          exact if_pos hpruned
        · simp only [if_neg hpruned]
          exact if_neg hpruned
  · rfl

/-- A state is looked up first, and otherwise searched and noted down. -/
theorem lookup_finds {m : Memo} {i : Nat} {rs : List Int} {f : Nat} {search : Search Cost}
    {cost : Cost} (hagrees : MemoAgrees k_target num_layers all m)
    (hcost : cost = (fewest k_target num_layers (all.drop i) rs f).1)
    (hsearch : Finds k_target num_layers all m search cost
      (fun m' => Remembered k_target num_layers all m' i rs f)) :
    Finds k_target num_layers all m
      (do
        let memo ← get
        match memo.cache.get? (i, rs, f) with
        | some cost => return cost
        | none =>
          let cost ← search
          modify (fun m => { m with cache := m.cache.insert (i, rs, f) cost })
          return cost)
      cost (fun m' => m'.Knows i rs f) := by
  rcases hget : m.cache.get? (i, rs, f) with _ | known
  · have hrest : Finds k_target num_layers all m
        (do
          let cost ← search
          modify (fun m => { m with cache := m.cache.insert (i, rs, f) cost })
          return cost : Search Cost)
        cost (fun m' => m'.Knows i rs f) := by
      refine Finds.bind hsearch ?_
      intro m₁ hagrees₁ _ hremembered
      obtain ⟨hgrows, hknows⟩ := grows_insert m₁ i rs f cost
      exact ⟨rfl, hagrees₁.store hremembered hcost, hgrows, hknows⟩
    unfold Finds at hrest ⊢
    simp only [StateT.run_bind, StateT.run_get, pure_bind, hget]
    exact hrest
  · have hknown : m.Knows i rs f := by
      unfold Memo.Knows
      rw [hget]
      rfl
    have hsame : known = cost := (hagrees.cost i rs f known hget).trans hcost.symm
    unfold Finds
    simp only [StateT.run_bind, StateT.run_get, pure_bind, hget, hsame]
    exact ⟨rfl, hagrees, Grows.refl m, hknown⟩

/-- The action of a finished state. -/
theorem fewest_done {nodes : List Caps} {rs : List Int} {f : Nat}
    (hdone : f = k_target ∧ rs = []) : fewest k_target num_layers nodes rs f = (0, .done) := by
  cases nodes with
  | nil => exact if_pos hdone
  | cons c rest => exact if_pos hdone

/-- The search with its memory finds what the search without it finds. -/
theorem dp.spec (nodes : List Caps) (i : Nat) (rs : List Int) (f : Nat) (m : Memo)
    (hnodes : all.drop i = nodes) (hagrees : MemoAgrees k_target num_layers all m) :
    Finds k_target num_layers all m (dp k_target num_layers nodes i rs f)
      (fewest k_target num_layers nodes rs f).1 (fun m' => m'.Knows i rs f) := by
  induction nodes generalizing i rs f m with
  | nil =>
    rw [dp_eq]
    refine lookup_finds hagrees (by rw [hnodes]) ?_
    unfold search_state
    split
    · rename_i hdone
      have hfewest : fewest k_target num_layers [] rs f = (0, .done) := fewest_done hdone
      have hdrop : fewest k_target num_layers (all.drop i) rs f = (0, .done) := by
        rw [hnodes, hfewest]
      rw [hfewest]
      refine ⟨rfl, hagrees.note (by rw [hdrop]), Grows.refl m, ?_, ?_⟩
      · intro _
        rw [hdrop]
        exact Dict.get?_insert_self _ _ _
      · intro _ hopen
        exact absurd hdone hopen
    · rename_i hopen
      have hfewest : fewest k_target num_layers [] rs f = (⊤, .skip) := if_neg hopen
      rw [hfewest]
      apply Finds.pure hagrees
      constructor
      · intro hfinite
        rw [hnodes, hfewest] at hfinite
        exact absurd hfinite (lt_irrefl _)
      · intro _ _ c rest hdrop
        rw [hnodes] at hdrop
        cases hdrop
  | cons c rest ih =>
    have hrest : all.drop (i + 1) = rest := by
      rw [← List.drop_drop, hnodes]
      rfl
    rw [dp_eq]
    refine lookup_finds hagrees (by rw [hnodes]) ?_
    unfold search_state
    split
    · rename_i hdone
      have hfewest : fewest k_target num_layers (c :: rest) rs f = (0, .done) := fewest_done hdone
      have hdrop : fewest k_target num_layers (all.drop i) rs f = (0, .done) := by
        rw [hnodes, hfewest]
      rw [hfewest]
      refine ⟨rfl, hagrees.note (by rw [hdrop]), Grows.refl m, ?_, ?_⟩
      · intro _
        rw [hdrop]
        exact Dict.get?_insert_self _ _ _
      · intro _ hopen
        exact absurd hdone hopen
    · rename_i hopen
      dsimp only
      split
      · rename_i hpruned
        have hfewest : fewest k_target num_layers (c :: rest) rs f = (⊤, .skip) := by
          unfold fewest
          rw [if_neg hopen]
          exact if_pos hpruned
        rw [hfewest]
        apply Finds.pure hagrees
        constructor
        · intro hfinite
          rw [hnodes, hfewest] at hfinite
          exact absurd hfinite (lt_irrefl _)
        · intro hfinite
          rw [hnodes, hfewest] at hfinite
          exact absurd hfinite (lt_irrefl _)
      · rename_i hpruned
        have hfewest := fewest_cons hopen hpruned
        have hnext : ∀ rs f m, MemoAgrees k_target num_layers all m →
            Finds k_target num_layers all m (dp k_target num_layers rest (i + 1) rs f)
              (fewest k_target num_layers rest rs f).1 (fun m' => m'.Knows (i + 1) rs f) :=
          fun rs f m hm => ih (i + 1) rs f m hrest hm
        refine Finds.bind (hnext rs f m hagrees) ?_
        intro m₁ hagrees₁ _ hskip
        refine Finds.bind (try_assign_finds hnext c rs f rs.zipIdx _ m₁ hagrees₁) ?_
        intro m₂ hagrees₂ hgrows₂ hassign
        refine Finds.bind (try_start_finds hnext c rs f _ m₂ hagrees₂) ?_
        intro m₃ hagrees₃ hgrows₃ hstart
        rw [← hfewest]
        have hdrop : fewest k_target num_layers (all.drop i) rs f =
            fewest k_target num_layers (c :: rest) rs f := by rw [hnodes]
        refine ⟨rfl, hagrees₃.note (by rw [hdrop]), Grows.refl m₃, ?_, ?_⟩
        · intro _
          rw [hdrop]
          exact Dict.get?_insert_self _ _ _
        · -- The state that the best action leads to has been searched.
          intro hfinite _ c' rest' hdrop'
          rw [hnodes] at hdrop'
          cases hdrop'
          rw [hdrop] at hfinite ⊢
          have hchosen := (fewest_step hopen hfinite).1
          show m₃.Knows _ _ _
          generalize (fewest k_target num_layers (c :: rest) rs f).2 = action at hchosen ⊢
          cases hchosen with
          | skip => exact hgrows₃ _ _ _ (hgrows₂ _ _ _ hskip)
          | @assign rj j hj =>
            have hget : rs.getD j 0 = rj := by
              rw [List.getD_eq_getElem?_getD, hj]
              rfl
            have hmem : (rj, j) ∈ rs.zipIdx := List.mem_zipIdx_iff_getElem?.mpr hj
            simp only [next_state, hget]
            exact hgrows₃ _ _ _ (hassign (rj, j) hmem)
          | start hnew => exact hstart hnew

end memory

end scheduling.layer_allocation

-- The online softmax: one pass over the scores with a running maximum, a
-- running sum and a running accumulator. The pass ends in the plain softmax.
import Mathlib.Algebra.Order.Field.Basic
import Mathlib.Algebra.BigOperators.Group.List.Basic
import Mathlib.Algebra.BigOperators.Fin
import Mathlib.Algebra.Order.BigOperators.Group.List
import Mathlib.Order.WithBot
import Mathlib.Tactic.Ring
import Mathlib.Tactic.FieldSimp

namespace online_softmax

variable {K : Type*} [Field K] [LinearOrder K]

/-- An exponential, by its laws. -/
structure Exp (K : Type*) [Field K] [LinearOrder K] where
  exp : K → K
  exp_add : ∀ a b, exp (a + b) = exp a * exp b
  exp_pos : ∀ a, 0 < exp a

/-- The exponential of a score that may be minus infinity. -/
def Exp.ofBot (e : Exp K) : WithBot K → K
  | none => 0
  | some a => e.exp a

/-- The exponential of a difference whose first part may be minus infinity. -/
def Exp.gap (e : Exp K) : WithBot K → K → K
  | none, _ => 0
  | some a, b => e.exp (a - b)

/-- The larger of a running maximum and a score. -/
def raise : WithBot K → K → K
  | none, s => s
  | some a, s => max a s

theorem Exp.exp_ne (e : Exp K) (a : K) : e.exp a ≠ 0 := (e.exp_pos a).ne'

theorem Exp.exp_sub (e : Exp K) (a b : K) : e.exp (a - b) * e.exp b = e.exp a := by
  rw [← e.exp_add, sub_add_cancel]

theorem Exp.gap_mul (e : Exp K) (m : WithBot K) (b : K) : e.gap m b * e.exp b = e.ofBot m := by
  cases m with
  | bot => exact zero_mul _
  | coe a => exact e.exp_sub a b

/-- The running statistics: the maximum, the sum and one channel of the accumulator. -/
structure Running (K : Type*) where
  m : WithBot K
  l : K
  acc : K

def Running.start : Running K := ⟨⊥, 0, 0⟩

/-- One score and one value are taken in. -/
def Running.step (e : Exp K) (r : Running K) (sv : K × K) : Running K :=
  let m := raise r.m sv.1
  let alpha := e.gap r.m m
  let beta := e.exp (sv.1 - m)
  ⟨m, r.l * alpha + beta, r.acc * alpha + sv.2 * beta⟩

def Running.run (e : Exp K) (r : Running K) (l : List (K × K)) : Running K := l.foldl (.step e) r

/-- The sum of the weights. -/
def total (e : Exp K) (l : List (K × K)) : K := (l.map (fun sv => e.exp sv.1)).sum

/-- The weighted sum of the values. -/
def weighted (e : Exp K) (l : List (K × K)) : K := (l.map (fun sv => e.exp sv.1 * sv.2)).sum

/-- One step keeps both sums, once they are scaled back by the running maximum. -/
theorem Running.step.spec (e : Exp K) (r : Running K) (sv : K × K) :
    (r.step e sv).l * e.ofBot (r.step e sv).m = r.l * e.ofBot r.m + e.exp sv.1 ∧
      (r.step e sv).acc * e.ofBot (r.step e sv).m = r.acc * e.ofBot r.m + e.exp sv.1 * sv.2 := by
  have halpha := e.gap_mul r.m (raise r.m sv.1)
  have hbeta := e.exp_sub sv.1 (raise r.m sv.1)
  unfold Running.step
  refine ⟨?_, ?_⟩
  · calc (r.l * e.gap r.m (raise r.m sv.1) + e.exp (sv.1 - raise r.m sv.1)) * e.exp (raise r.m sv.1)
        = r.l * (e.gap r.m (raise r.m sv.1) * e.exp (raise r.m sv.1)) +
          e.exp (sv.1 - raise r.m sv.1) * e.exp (raise r.m sv.1) := by ring
      _ = r.l * e.ofBot r.m + e.exp sv.1 := by rw [halpha, hbeta]
  · calc (r.acc * e.gap r.m (raise r.m sv.1) + sv.2 * e.exp (sv.1 - raise r.m sv.1)) *
          e.exp (raise r.m sv.1)
        = r.acc * (e.gap r.m (raise r.m sv.1) * e.exp (raise r.m sv.1)) +
          (e.exp (sv.1 - raise r.m sv.1) * e.exp (raise r.m sv.1)) * sv.2 := by ring
      _ = r.acc * e.ofBot r.m + e.exp sv.1 * sv.2 := by rw [halpha, hbeta]

/-- A run keeps both sums, once they are scaled back by the running maximum. -/
theorem Running.run.spec (e : Exp K) (r : Running K) (l : List (K × K)) :
    (r.run e l).l * e.ofBot (r.run e l).m = r.l * e.ofBot r.m + total e l ∧
      (r.run e l).acc * e.ofBot (r.run e l).m = r.acc * e.ofBot r.m + weighted e l := by
  induction l generalizing r with
  | nil => simp [Running.run, total, weighted]
  | cons sv rest ih =>
    obtain ⟨hl, hacc⟩ := Running.step.spec e r sv
    obtain ⟨ihl, ihacc⟩ := ih (r.step e sv)
    refine ⟨?_, ?_⟩
    · rw [show r.run e (sv :: rest) = (r.step e sv).run e rest from rfl, ihl, hl, add_assoc]
      rfl
    · rw [show r.run e (sv :: rest) = (r.step e sv).run e rest from rfl, ihacc, hacc, add_assoc]
      rfl

theorem Running.run_m (e : Exp K) (r : Running K) (l : List (K × K)) (h : l ≠ []) :
    ∃ M : K, (r.run e l).m = M := by
  obtain ⟨rest, sv, rfl⟩ := List.eq_nil_or_concat l |>.resolve_left h
  refine ⟨raise (r.run e rest).m sv.1, ?_⟩
  rw [Running.run, List.concat_eq_append, List.foldl_append]
  rfl

/-- Statistics that start from a weight of their own, with no value. -/
def Running.sink (s : WithBot K) : Running K :=
  match s with
  | none => .start
  | some s => ⟨s, 1, 0⟩

/-- After at least one score, accumulator over sum is the average of the values, with the weight
of the start in the normaliser. -/
theorem run_sink_eq (e : Exp K) (s : WithBot K) (l : List (K × K)) (h : l ≠ []) :
    ((Running.sink s).run e l).acc / ((Running.sink s).run e l).l =
      weighted e l / (e.ofBot s + total e l) := by
  obtain ⟨M, hM⟩ := Running.run_m e (.sink s) l h
  obtain ⟨hl, hacc⟩ := Running.run.spec e (.sink s) l
  have hstart : (Running.sink s).l * e.ofBot (Running.sink s).m = e.ofBot s ∧
      (Running.sink s).acc * e.ofBot (Running.sink s).m = 0 := by
    cases s with
    | bot => exact ⟨zero_mul _, zero_mul _⟩
    | coe s => exact ⟨one_mul _, zero_mul _⟩
  rw [hM, hstart.1] at hl
  rw [hM, hstart.2, zero_add] at hacc
  have hne : e.ofBot (M : WithBot K) ≠ 0 := e.exp_ne M
  rw [← hl, ← hacc]
  exact (mul_div_mul_right _ _ hne).symm

/-- After at least one score, accumulator over sum is the softmax average of the values. -/
theorem run_eq_softmax (e : Exp K) (l : List (K × K)) (h : l ≠ []) :
    (Running.start.run e l).acc / (Running.start.run e l).l = weighted e l / total e l := by
  have hsink := run_sink_eq e ⊥ l h
  rwa [show e.ofBot (⊥ : WithBot K) = 0 from rfl, zero_add] at hsink

/-- The average of the values over a list of positions, by their scores. The sink is a score
that has no value. -/
def attend (e : Exp K) (sink : WithBot K) (positions : List Nat) (score value : Nat → K) : K :=
  (positions.map (fun p => e.exp (score p) * value p)).sum /
    (e.ofBot sink + (positions.map (fun p => e.exp (score p))).sum)

/-- A run over the scores and the values of a list of positions ends in their average. -/
theorem run_eq_attend (e : Exp K) (sink : WithBot K) {positions : List Nat} (score value : Nat → K)
    (h : positions ≠ []) :
    let r := (Running.sink sink).run e (positions.map (fun p => (score p, value p)))
    r.acc / r.l = attend e sink positions score value := by
  intro r
  rw [run_sink_eq e sink _ (by simpa using h), attend, weighted, total, List.map_map, List.map_map]
  rfl

/-- The average depends on the scores and the values of its positions only. -/
theorem attend_congr (e : Exp K) (sink : WithBot K) {positions : List Nat}
    {score score' value value' : Nat → K} (hs : ∀ p ∈ positions, score p = score' p)
    (hv : ∀ p ∈ positions, value p = value' p) :
    attend e sink positions score value = attend e sink positions score' value' := by
  have hnum : positions.map (fun p => e.exp (score p) * value p) =
      positions.map (fun p => e.exp (score' p) * value' p) :=
    List.map_congr_left (fun p hp => by rw [hs p hp, hv p hp])
  have hden : positions.map (fun p => e.exp (score p)) =
      positions.map (fun p => e.exp (score' p)) :=
    List.map_congr_left (fun p hp => by rw [hs p hp])
  rw [attend, attend, hnum, hden]

theorem Exp.ofBot_eq_zero {e : Exp K} {s : WithBot K} (h : e.ofBot s = 0) : s = ⊥ := by
  cases s with
  | bot => rfl
  | coe s => exact absurd h (e.exp_ne s)

/-- The average of ones tells the weight of the sink. -/
theorem attend_ones_inj [IsStrictOrderedRing K] {e : Exp K} {sink sink' : WithBot K}
    {positions : List Nat} {score : Nat → K} (hne : positions ≠ [])
    (h : attend e sink positions score (fun _ => 1) = attend e sink' positions score (fun _ => 1)) :
    e.ofBot sink = e.ofBot sink' := by
  have hsum : 0 < (positions.map (fun p => e.exp (score p))).sum := by
    apply List.sum_pos
    · intro w hw
      obtain ⟨p, _, rfl⟩ := List.mem_map.mp hw
      exact e.exp_pos _
    · simpa using hne
  have hweight : ∀ s : WithBot K, 0 ≤ e.ofBot s := by
    intro s
    cases s with
    | bot => exact le_refl _
    | coe s => exact (e.exp_pos s).le
  have hpos := add_pos_of_nonneg_of_pos (hweight sink) hsum
  have hpos' := add_pos_of_nonneg_of_pos (hweight sink') hsum
  simp only [attend, mul_one] at h
  rw [div_eq_div_iff hpos.ne' hpos'.ne'] at h
  have hcancel := mul_left_cancel₀ hsum.ne' h
  exact (add_right_cancel hcancel).symm

end online_softmax

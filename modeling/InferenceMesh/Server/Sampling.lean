-- The sampler (parallax/server/sampling/sampler.py): which tokens it keeps as
-- candidates for each request of a batch. A batch of greedy requests takes
-- the argmax. Otherwise each request goes through the masks, and there a
-- top_k of zero or less, which means greedy to the first test, keeps nothing.
import InferenceMesh.Lib.Argsort
import InferenceMesh.Lib.OnlineSoftmax
import InferenceMesh.Server.Request
import Mathlib.Analysis.SpecialFunctions.Exp

open argsort online_softmax
open parallax.server.request

namespace parallax.server.sampling.sampler

variable {K : Type} [Field K] [LinearOrder K] {n : Nat}

/-! ## The sampler -/

/-- The sampling parameters of one request, in exact arithmetic. -/
structure SamplingRow (K : Type) where
  temperature : K
  top_p : K
  top_k : Int
  min_p : K

/-- Maintains batched sampling information: the four columns, row by row. -/
structure SamplingBatchInfo (K : Type) where
  rows : List (SamplingRow K)
  is_all_greedy : Bool
  need_min_p_sampling : Bool

def SamplingRow.of (p : SamplingParams) : SamplingRow K :=
  ⟨p.temperature, p.top_p, p.top_k, p.min_p⟩

/-- Retrieves sampling infos from a list of requests. One without parameters has the default. -/
def SamplingBatchInfo.from_reqs (reqs : List (Option SamplingParams)) : SamplingBatchInfo K where
  rows := reqs.map (fun r => SamplingRow.of (r.getD {}))
  is_all_greedy := reqs.all (fun r => (r.getD {}).top_k ≤ 1)
  need_min_p_sampling := reqs.any (fun r => (r.getD {}).min_p > 0)

def softmax (e : Exp K) (x : Fin n → K) (i : Fin n) : K :=
  e.exp (x i) / ((List.finRange n).map (fun j => e.exp (x j))).sum

section masks

variable (probs : Fin n → K) (row : SamplingRow K)

/-- `mx.argsort(-logits)` -/
def probs_idx : List (Fin n) := argsort (fun i => -probs i)

/-- The probabilities, from the largest to the least. Behind the last one there is nothing. -/
def probs_sort (k : Nat) : K := ((probs_idx probs)[k]?).elim 0 probs

/-- `mx.cumsum(probs_sort)` -/
def probs_sum (k : Nat) : K := ((List.range (k + 1)).map (probs_sort probs)).sum

def top_k_masked (k : Nat) : K := if (k : Int) < row.top_k then probs_sort probs k else 0

def top_p_masked (k : Nat) : K :=
  if probs_sum probs k - top_k_masked probs row k ≤ row.top_p then top_k_masked probs row k else 0

def min_p_masked (k : Nat) : K :=
  if top_p_masked probs row 0 * row.min_p ≤ top_p_masked probs row k then
    top_p_masked probs row k else 0

/-- The probability mass that the draw sees at a position of the sorted row. -/
def masked (need_min_p_sampling : Bool) (k : Nat) : K :=
  if need_min_p_sampling then min_p_masked probs row k else top_p_masked probs row k

/-- `apply_top_k_top_p_min_p_sampling`, up to the draw: the tokens that have any mass. -/
def candidates (need_min_p_sampling : Bool) : List (Fin n) :=
  ((probs_idx probs).zipIdx.filter
    (fun x => decide (0 < masked probs row need_min_p_sampling x.2))).map Prod.fst

end masks

/-- The tokens that the sampler keeps for one row of the logits. -/
def row_candidates (e : Exp K) (info : SamplingBatchInfo K) (row : SamplingRow K)
    (logits : Fin n → K) : List (Fin n) :=
  if info.is_all_greedy then (argmax logits).toList
  else
    candidates (softmax e (fun i => logits i / row.temperature)) row info.need_min_p_sampling

/-- `Sampler.__call__`, up to the draw, for all rows of the logits. -/
def kept (e : Exp K) (batch : List (Option SamplingParams × (Fin n → K))) : List (List (Fin n)) :=
  let info : SamplingBatchInfo K := .from_reqs (batch.map Prod.fst)
  List.zipWith (row_candidates e info) info.rows (batch.map Prod.snd)

/-! ## Independence -/

/-- What `verify` lets through, and a min_p of zero, which is the default. The constructor has put
a greedy top_k in the place of a temperature of zero. -/
structure Accepted (p : SamplingParams) : Prop where
  temperature : 0 < p.temperature
  top_p : 0 < p.top_p ∧ p.top_p ≤ 1
  min_p : 0 ≤ p.min_p ∧ p.min_p ≤ 1

/-- Each request keeps some token, and the same ones as when it is sampled alone. -/
def Independent (e : Exp K) (batch : List (Option SamplingParams × (Fin n → K))) : Prop :=
  List.Forall₂ (fun r tokens => tokens ≠ [] ∧
    ∀ alone ∈ kept e [r], ∀ t, t ∈ tokens ↔ t ∈ alone) batch (kept e batch)

section softmax

variable [IsStrictOrderedRing K] (e : Exp K)

theorem sum_exp_pos (x : Fin n → K) (i : Fin n) :
    0 < ((List.finRange n).map (fun j => e.exp (x j))).sum := by
  refine List.sum_pos _ ?_ (List.ne_nil_of_mem (List.mem_map_of_mem (List.mem_finRange i)))
  intro y hy
  obtain ⟨j, _, rfl⟩ := List.mem_map.mp hy
  exact e.exp_pos (x j)

theorem softmax_pos (x : Fin n → K) (i : Fin n) : 0 < softmax e x i :=
  div_pos (e.exp_pos (x i)) (sum_exp_pos e x i)

/-- The softmax at a positive temperature keeps the order of the logits. -/
theorem softmax_le_iff (hexp : StrictMono e.exp) {temperature : K} (ht : 0 < temperature)
    (x : Fin n → K) (i j : Fin n) :
    softmax e (fun k => x k / temperature) j ≤ softmax e (fun k => x k / temperature) i ↔
      x j ≤ x i := by
  unfold softmax
  rw [div_le_div_iff_of_pos_right (sum_exp_pos e _ i), hexp.le_iff_le,
    div_le_div_iff_of_pos_right ht]

theorem head_probs_idx (hexp : StrictMono e.exp) {temperature : K} (ht : 0 < temperature)
    (x : Fin n → K) :
    (probs_idx (softmax e (fun k => x k / temperature))).head? = argmax x := by
  refine head_argsort fun i j => ?_
  rw [neg_le_neg_iff]
  exact softmax_le_iff e hexp ht x i j

theorem argmax_isSome [NeZero n] (x : Fin n → K) : ∃ i, argmax x = some i := by
  rcases h : argmax x with _ | i
  · have hnil := List.argmax_eq_none.mp h
    have hlen := List.length_finRange (n := n)
    rw [hnil] at hlen
    exact absurd hlen.symm (NeZero.ne n)
  · exact ⟨i, rfl⟩

end softmax

section masked_rows

variable [IsStrictOrderedRing K] {probs : Fin n → K} {row : SamplingRow K} {need : Bool}

theorem mem_candidates {t : Fin n} : t ∈ candidates probs row need ↔
    ∃ k, (probs_idx probs)[k]? = some t ∧ 0 < masked probs row need k := by
  unfold candidates
  simp only [List.mem_map, List.mem_filter, decide_eq_true_eq, Prod.exists, exists_and_right,
    exists_eq_right]
  constructor
  · rintro ⟨k, hmem, hpos⟩
    exact ⟨k, List.mem_zipIdx_iff_getElem?.mp hmem, hpos⟩
  · rintro ⟨k, hget, hpos⟩
    exact ⟨k, List.mem_zipIdx_iff_getElem?.mpr hget, hpos⟩

/-- Behind the top k there is no mass left. -/
theorem masked_behind {k : Nat} (hk : row.top_k ≤ k) : masked probs row need k = 0 := by
  have htop : top_k_masked probs row k = 0 := by
    unfold top_k_masked
    rw [if_neg (by omega)]
  have hp : top_p_masked probs row k = 0 := by
    unfold top_p_masked
    rw [htop, ite_self]
  unfold masked min_p_masked
  rw [hp, ite_self, ite_self]

/-- A top_k of zero or less keeps nothing. -/
theorem candidates_nonpos (hk : row.top_k ≤ 0) : candidates probs row need = [] := by
  refine List.eq_nil_iff_forall_not_mem.mpr fun t ht => ?_
  obtain ⟨k, _, hpos⟩ := mem_candidates.mp ht
  rw [masked_behind (by omega)] at hpos
  exact lt_irrefl _ hpos

/-- The largest probability passes the masks of a positive top_k. -/
theorem masked_first (hprobs : ∀ i, 0 < probs i) {i : Fin n}
    (hi : (probs_idx probs).head? = some i) (hk : 0 < row.top_k) (hp : 0 ≤ row.top_p)
    (hm : row.min_p ≤ 1) : 0 < masked probs row need 0 := by
  have hsort : probs_sort probs 0 = probs i := by
    unfold probs_sort
    rw [← List.head?_eq_getElem?, hi]
    rfl
  have htop : top_k_masked probs row 0 = probs i := by
    unfold top_k_masked
    rw [if_pos (by simpa using hk), hsort]
  have hsum : probs_sum probs 0 = probs i := by
    simp [probs_sum, hsort]
  have htopp : top_p_masked probs row 0 = probs i := by
    unfold top_p_masked
    rw [htop, hsum, sub_self, if_pos hp]
  have hmin : min_p_masked probs row 0 = probs i := by
    unfold min_p_masked
    rw [htopp, if_pos (mul_le_of_le_one_right (hprobs i).le hm)]
  unfold masked
  rw [hmin, htopp, ite_self]
  exact hprobs i

/-- A top_k of one keeps the first of the largest. -/
theorem mem_candidates_one (hprobs : ∀ i, 0 < probs i) {i : Fin n}
    (hi : (probs_idx probs).head? = some i) (hk : row.top_k = 1) (hp : 0 ≤ row.top_p)
    (hm : row.min_p ≤ 1) (t : Fin n) : t ∈ candidates probs row need ↔ t = i := by
  rw [List.head?_eq_getElem?] at hi
  rw [mem_candidates]
  constructor
  · rintro ⟨k, hget, hpos⟩
    rcases k with _ | k
    · rw [hi] at hget
      exact (Option.some.inj hget).symm
    · rw [masked_behind (by omega)] at hpos
      exact absurd hpos (lt_irrefl _)
  · rintro rfl
    exact ⟨0, hi, masked_first hprobs (List.head?_eq_getElem? ▸ hi) (by omega) hp hm⟩

/-- Without a min_p of its own a request does not feel the mask that others ask for. -/
theorem candidates_without_min_p (hprobs : ∀ i, 0 < probs i) (hm : row.min_p = 0) :
    candidates probs row need = candidates probs row false := by
  have hsort : ∀ k, 0 ≤ probs_sort probs k := by
    intro k
    unfold probs_sort
    rcases (probs_idx probs)[k]? with _ | i
    · exact le_refl _
    · exact (hprobs i).le
  have htopk : ∀ k, 0 ≤ top_k_masked probs row k := by
    intro k
    unfold top_k_masked
    split
    · exact hsort k
    · exact le_refl _
  have htopp : ∀ k, 0 ≤ top_p_masked probs row k := by
    intro k
    unfold top_p_masked
    split
    · exact htopk k
    · exact le_refl _
  have hmin : ∀ k, min_p_masked probs row k = top_p_masked probs row k := by
    intro k
    unfold min_p_masked
    rw [hm, mul_zero, if_pos (htopp k)]
  unfold candidates masked
  simp only [hmin, ite_self]

end masked_rows

/-! ## Batches -/

section batches

variable [IsStrictOrderedRing K] {e : Exp K}

/-- What the requests of a batch know of each other. -/
def info_of (batch : List (Option SamplingParams × (Fin n → K))) : SamplingBatchInfo K :=
  .from_reqs (batch.map Prod.fst)

omit [IsStrictOrderedRing K] in
theorem kept_eq (e : Exp K) (batch : List (Option SamplingParams × (Fin n → K))) :
    kept e batch =
      batch.map (fun r => row_candidates e (info_of batch) (.of (r.1.getD {})) r.2) := by
  unfold kept
  dsimp only
  unfold SamplingBatchInfo.from_reqs
  rw [List.map_map, List.zipWith_map, List.zipWith_self]
  rfl

omit [IsStrictOrderedRing K] in
theorem independent_iff_each (e : Exp K) (batch : List (Option SamplingParams × (Fin n → K))) :
    Independent e batch ↔ ∀ r ∈ batch,
      row_candidates e (info_of batch) (.of (r.1.getD {})) r.2 ≠ [] ∧
        ∀ t, t ∈ row_candidates e (info_of batch) (.of (r.1.getD {})) r.2 ↔
          t ∈ row_candidates e (info_of [r]) (.of (r.1.getD {})) r.2 := by
  unfold Independent
  rw [kept_eq, List.forall₂_map_right_iff, List.forall₂_same]
  refine forall₂_congr fun r _ => and_congr_right fun _ => ?_
  rw [kept_eq, List.map_singleton, List.forall_mem_singleton]

omit [IsStrictOrderedRing K] in
theorem all_greedy_iff (batch : List (Option SamplingParams × (Fin n → K))) :
    (info_of batch).is_all_greedy = true ↔ ∀ r ∈ batch, (r.1.getD {}).top_k ≤ 1 := by
  simp [info_of, SamplingBatchInfo.from_reqs]

omit [IsStrictOrderedRing K] in
theorem need_min_p_iff (batch : List (Option SamplingParams × (Fin n → K))) :
    (info_of batch).need_min_p_sampling = true ↔ ∃ r ∈ batch, 0 < (r.1.getD {}).min_p := by
  simp [info_of, SamplingBatchInfo.from_reqs]

/-- A row of a batch that is not greedy as a whole. -/
theorem row_candidates_masked {info : SamplingBatchInfo K} (h : info.is_all_greedy = false)
    (row : SamplingRow K) (x : Fin n → K) : row_candidates e info row x =
      candidates (softmax e (fun i => x i / row.temperature)) row info.need_min_p_sampling := by
  unfold row_candidates
  rw [h, if_neg Bool.false_ne_true]

theorem row_candidates_greedy {info : SamplingBatchInfo K} (h : info.is_all_greedy = true)
    (row : SamplingRow K) (x : Fin n → K) :
    row_candidates e info row x = (argmax x).toList := by
  unfold row_candidates
  rw [h, if_pos rfl]

/-- A positive top_k among others: the candidates are there, and are those of the request alone. -/
theorem positive_row_independent [NeZero n] (hexp : StrictMono e.exp)
    {batch : List (Option SamplingParams × (Fin n → K))}
    (hmixed : (info_of batch).is_all_greedy = false)
    {r : Option SamplingParams × (Fin n → K)} (hr : r ∈ batch) (haccepted : Accepted (r.1.getD {}))
    (hk : 1 ≤ (r.1.getD {}).top_k) :
    row_candidates e (info_of batch) (.of (r.1.getD {})) r.2 ≠ [] ∧
      ∀ t, t ∈ row_candidates e (info_of batch) (.of (r.1.getD {})) r.2 ↔
        t ∈ row_candidates e (info_of [r]) (.of (r.1.getD {})) r.2 := by
  obtain ⟨i, hi⟩ := argmax_isSome r.2
  have halone := all_greedy_iff [r]
  simp only [List.forall_mem_singleton] at halone
  have hneed : 0 < (r.1.getD {}).min_p → (info_of batch).need_min_p_sampling = true :=
    fun h => (need_min_p_iff batch).mpr ⟨r, hr, h⟩
  have hneed' : 0 < (r.1.getD {}).min_p → (info_of [r]).need_min_p_sampling = true :=
    fun h => (need_min_p_iff [r]).mpr ⟨r, List.mem_singleton_self r, h⟩
  generalize r.1.getD {} = p at *
  let row : SamplingRow K := .of p
  have ht : (0 : K) < row.temperature := Rat.cast_pos.mpr haccepted.temperature
  have hp : (0 : K) ≤ row.top_p := (Rat.cast_pos.mpr haccepted.top_p.1).le
  have hm : row.min_p ≤ (1 : K) := by
    show ((p.min_p : ℚ) : K) ≤ 1
    exact_mod_cast haccepted.min_p.2
  have hprobs := softmax_pos e (fun j => r.2 j / row.temperature)
  have hhead := (head_probs_idx e hexp ht r.2).trans hi
  have hk0 : 0 < row.top_k := by
    show 0 < p.top_k
    omega
  rw [row_candidates_masked hmixed]
  refine ⟨List.ne_nil_of_mem (a := i) (mem_candidates.mpr
    ⟨0, List.head?_eq_getElem? ▸ hhead, masked_first hprobs hhead hk0 hp hm⟩), fun t => ?_⟩
  by_cases hone : p.top_k ≤ 1
  · rw [row_candidates_greedy (halone.mpr hone), hi, Option.toList_some, List.mem_singleton]
    have hk' : row.top_k = 1 := by
      show p.top_k = 1
      omega
    exact mem_candidates_one hprobs hhead hk' hp hm t
  · have hmany : (info_of [r]).is_all_greedy = false := by
      rw [Bool.eq_false_iff]
      exact fun h => hone (halone.mp h)
    rw [row_candidates_masked hmany]
    by_cases hzero : p.min_p = 0
    · have hm0 : row.min_p = 0 := by
        show ((p.min_p : ℚ) : K) = 0
        exact_mod_cast hzero
      have hplain : ∀ need, candidates (softmax e fun j => r.2 j / row.temperature) row need =
          candidates (softmax e fun j => r.2 j / row.temperature) row false :=
        fun _ => candidates_without_min_p hprobs hm0
      rw [hplain, hplain (info_of [r]).need_min_p_sampling]
    · have hpos : 0 < p.min_p := lt_of_le_of_ne haccepted.min_p.1 (Ne.symm hzero)
      rw [hneed hpos, hneed' hpos]

/-- The requests of a batch are sampled independently just when all of them are greedy, or all
have a positive top_k: a top_k of zero or less in a batch that is not greedy keeps nothing. -/
theorem batch_independent_iff [NeZero n] (hexp : StrictMono e.exp)
    (batch : List (Option SamplingParams × (Fin n → K)))
    (haccepted : ∀ r ∈ batch, Accepted (r.1.getD {})) :
    Independent e batch ↔ (∀ r ∈ batch, (r.1.getD {}).top_k ≤ 1) ∨
      ∀ r ∈ batch, 1 ≤ (r.1.getD {}).top_k := by
  rw [independent_iff_each]
  constructor
  · intro h
    by_contra hmix
    push Not at hmix
    obtain ⟨⟨r₁, hr₁, hmany⟩, r₂, hr₂, hnone⟩ := hmix
    have hmixed : (info_of batch).is_all_greedy = false := by
      rw [Bool.eq_false_iff]
      exact fun hall => absurd ((all_greedy_iff batch).mp hall r₁ hr₁) (by omega)
    have hne := (h r₂ hr₂).1
    rw [row_candidates_masked hmixed, candidates_nonpos] at hne
    · exact hne rfl
    · show (r₂.1.getD {}).top_k ≤ 0
      omega
  · intro h r hr
    by_cases hall : ∀ q ∈ batch, (q.1.getD {}).top_k ≤ 1
    · have halone : (info_of [r]).is_all_greedy = true :=
        (all_greedy_iff [r]).mpr (fun q hq => List.mem_singleton.mp hq ▸ hall r hr)
      rw [row_candidates_greedy ((all_greedy_iff batch).mpr hall), row_candidates_greedy halone]
      obtain ⟨i, hi⟩ := argmax_isSome r.2
      rw [hi]
      exact ⟨List.cons_ne_nil _ _, fun _ => Iff.rfl⟩
    · have hmixed : (info_of batch).is_all_greedy = false := by
        rw [Bool.eq_false_iff]
        exact fun hgreedy => hall ((all_greedy_iff batch).mp hgreedy)
      exact positive_row_independent hexp hmixed hr (haccepted r hr) (h.resolve_left hall r hr)

end batches

/-! ## A request without a top_k next to one with a top_k of two -/

/-- The default parameters, with another top_k. -/
def with_top_k (top_k : Int) : SamplingParams := { top_k }

theorem with_top_k_accepted (top_k : Int) : Accepted (with_top_k top_k) :=
  ⟨by norm_num [with_top_k], by norm_num [with_top_k], by norm_num [with_top_k]⟩

noncomputable def real_exp : Exp ℝ := ⟨Real.exp, Real.exp_add, Real.exp_pos⟩

/-- Logits of zero for two requests. -/
def two_rows (k k' : Int) : List (Option SamplingParams × (Fin 2 → ℝ)) :=
  [(some (with_top_k k), fun _ => 0), (some (with_top_k k'), fun _ => 0)]

theorem two_rows_accepted (k k' : Int) : ∀ r ∈ two_rows k k', Accepted (r.1.getD {}) := by
  intro r hr
  simp only [two_rows, List.mem_cons, List.not_mem_nil, or_false] at hr
  rcases hr with rfl | rfl
  · exact with_top_k_accepted k
  · exact with_top_k_accepted k'

theorem top_ks_of_one_and_two_are_independent : Independent real_exp (two_rows 1 2) := by
  refine (batch_independent_iff Real.exp_strictMono _ (two_rows_accepted 1 2)).mpr (Or.inr ?_)
  intro r hr
  simp only [two_rows, List.mem_cons, List.not_mem_nil, or_false] at hr
  rcases hr with rfl | rfl
  · show (1 : Int) ≤ 1
    omega
  · show (1 : Int) ≤ 2
    omega

/-- The default top_k of -1 keeps no token next to a top_k of two. -/
theorem default_top_k_keeps_nothing :
    ¬ ∀ (e : Exp ℝ) (n : Nat) (batch : List (Option SamplingParams × (Fin (n + 1) → ℝ))),
      StrictMono e.exp → (∀ r ∈ batch, Accepted (r.1.getD {})) → Independent e batch := by
  intro hall
  have h := hall real_exp 1 (two_rows (-1) 2) Real.exp_strictMono (two_rows_accepted (-1) 2)
  have hne := ((independent_iff_each real_exp _).mp h _ List.mem_cons_self).1
  have hmixed : (info_of (two_rows (-1) 2)).is_all_greedy = false := by
    rw [Bool.eq_false_iff]
    intro hgreedy
    have htwo := (all_greedy_iff _).mp hgreedy _ (List.mem_cons_of_mem _ List.mem_cons_self)
    have : (2 : Int) ≤ 1 := htwo
    omega
  rw [row_candidates_masked hmixed, candidates_nonpos] at hne
  · exact hne rfl
  · show (-1 : Int) ≤ 0
    omega

end parallax.server.sampling.sampler

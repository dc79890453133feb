-- Arrays of MLX and the functions on them that the indexer takes from the
-- library: `where`, `argpartition` and `put_along_axis`, with what is said of
-- their axes and of their order.
import InferenceMesh.Lib.PyExn
import Mathlib

open python

namespace mlx

/-- An array: its shape and its entries. -/
structure NDArray (α : Type) where
  shape : List Nat
  get : List Nat → α

namespace NDArray

variable {α : Type}

def ndim (a : NDArray α) : Nat := a.shape.length

/-- The last entries of the last axis: `a[..., -k:]`. The slice `-0:` takes all of them. -/
def last_entries (a : NDArray α) (k : Nat) : NDArray α :=
  let n := a.shape.getLastD 0
  let start := if k = 0 then 0 else n - k
  { shape := a.shape.dropLast ++ [n - start]
    get := fun idx => a.get (idx.dropLast ++ [start + idx.getLastD 0]) }

/-- The entries of an array with one axis. -/
def entries (a : NDArray α) : List α := (List.range (a.shape.headD 0)).map (fun i => a.get [i])

def map {β : Type} (f : α → β) (a : NDArray α) : NDArray β := ⟨a.shape, fun idx => f (a.get idx)⟩

end NDArray

variable {K : Type} [Field K] [LinearOrder K]

/-- The functions. A condition holds where its array is not zero, and the last axis is the one
that is partitioned and put along. -/
structure ArrayLibrary (K : Type) where
  where_ : NDArray K → NDArray (WithBot K) → WithBot K → NDArray (WithBot K)
  argpartition : NDArray (WithBot K) → (kth : Int) → NDArray Nat
  put_along_axis : NDArray Bool → NDArray Int → Bool → Except Exn (NDArray Bool)

/-- The result of `where` has the axes of the argument that has more of them. -/
def BroadcastsAxes (lib : ArrayLibrary K) : Prop :=
  ∀ condition a b, (lib.where_ condition a b).ndim = max condition.ndim a.ndim

/-- `argpartition` keeps the shape. It arranges the indices of a list such that the entries before
the `kth` are no larger than those from it on; a negative `kth` counts from the end. -/
def PartitionsByScore (lib : ArrayLibrary K) : Prop :=
  ∀ (a : NDArray (WithBot K)) (kth : Int), (lib.argpartition a kth).shape = a.shape ∧
    ∀ n, a.shape = [n] →
      (lib.argpartition a kth).entries.Perm (List.range n) ∧
      ∀ k : Nat, 0 < k → k ≤ n → kth = -(k : Int) →
        ∀ u ∈ (lib.argpartition a kth).entries.take (n - k),
        ∀ c ∈ (lib.argpartition a kth).entries.drop (n - k), a.get [u] ≤ a.get [c]

/-- `put_along_axis` raises where the indices have other axes than the array. -/
def ChecksAxes (lib : ArrayLibrary K) : Prop :=
  ∀ a indices value, a.ndim ≠ indices.ndim →
    ∃ message, lib.put_along_axis a indices value = .error (.ValueError message)

/-- The last `k` entries of a list of indices, arranged by their scores. -/
theorem last_entries_entries {α : Type} {a : NDArray α} {n : Nat} (hshape : a.shape = [n]) (k : Nat) :
    (a.last_entries k).entries = a.entries.drop (if k = 0 then 0 else n - k) := by
  apply List.ext_getElem
  · simp [NDArray.entries, NDArray.last_entries, hshape]
  · intro i h h'
    simp [NDArray.entries, NDArray.last_entries, hshape]

/-! ## The functions of the library, on real numbers -/

/-- The shape of a result that two arrays are broadcast to, from the last axis on. -/
def broadcast_shape (shape shape' : List Nat) : List Nat :=
  let n := max shape.length shape'.length
  List.zipWith max (List.replicate (n - shape.length) 1 ++ shape)
    (List.replicate (n - shape'.length) 1 ++ shape')

/-- The entry of an array for an index of the result. An axis of length one is repeated. -/
def broadcast_index (shape idx : List Nat) : List Nat :=
  List.zipWith (fun i n => if n = 1 then 0 else i) (idx.drop (idx.length - shape.length)) shape

noncomputable def real_arrays : ArrayLibrary ℝ where
  where_ := fun condition a b => ⟨broadcast_shape condition.shape a.shape, fun idx =>
    if condition.get (broadcast_index condition.shape idx) ≠ 0
    then a.get (broadcast_index a.shape idx) else b⟩
  argpartition := fun a _ => ⟨a.shape, fun idx =>
    ((List.range (a.shape.getLastD 0)).insertionSort
      (fun i j => a.get (idx.dropLast ++ [i]) ≤ a.get (idx.dropLast ++ [j]))).getD
        (idx.getLastD 0) 0⟩
  put_along_axis := fun a indices value =>
    if a.ndim ≠ indices.ndim then
      .error (.ValueError "[put_along_axis] Indices of another dimension than the array.")
    else .ok ⟨a.shape, fun idx =>
      let n : Int := a.shape.getLastD 0
      if (List.range (indices.shape.getLastD 0)).any (fun k =>
        indices.get (idx.dropLast ++ [k]) % n = idx.getLastD 0) then value else a.get idx⟩

theorem real_arrays_broadcast : BroadcastsAxes real_arrays := by
  intro condition a b
  simp only [NDArray.ndim, real_arrays, broadcast_shape, List.length_zipWith, List.length_append,
    List.length_replicate]
  omega

theorem real_arrays_partition : PartitionsByScore real_arrays := by
  intro a kth
  refine ⟨rfl, fun n hshape => ?_⟩
  let r := fun i j : Nat => a.get [i] ≤ a.get [j]
  have htrans : IsTrans Nat r := ⟨fun _ _ _ h h' => le_trans h h'⟩
  have htotal : Std.Total r := ⟨fun i j => le_total (a.get [i]) (a.get [j])⟩
  let sorted := (List.range n).insertionSort r
  have hperm : sorted.Perm (List.range n) := List.perm_insertionSort _ _
  have hlen : sorted.length = n := by rw [hperm.length_eq, List.length_range]
  have hentries : (real_arrays.argpartition a kth).entries = sorted := by
    have hget : ∀ i, (real_arrays.argpartition a kth).get [i] = sorted.getD i 0 := by
      intro i
      simp [real_arrays, hshape, sorted, r]
    rw [NDArray.entries, show (real_arrays.argpartition a kth).shape = [n] from hshape]
    apply List.ext_getElem
    · simp [hlen]
    · intro i hi hi'
      simp [hget, hi']
  rw [hentries]
  refine ⟨hperm, fun k _ _ _ u hu c hc => ?_⟩
  have hsorted : sorted.Pairwise r := List.pairwise_insertionSort r _
  rw [← List.take_append_drop (n - k) sorted, List.pairwise_append] at hsorted
  exact hsorted.2.2 u hu c hc

theorem real_arrays_axes : ChecksAxes real_arrays := by
  intro a indices value h
  exact ⟨_, if_pos h⟩

end mlx

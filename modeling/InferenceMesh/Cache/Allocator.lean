-- The allocators of the KV cache (parallax/server/cache/allocator.py): a
-- stack of free block indices and a stack of free request slots. Each one
-- carries the split of its indices into free and used.
import InferenceMesh.Lib.FreeList

open free_list

namespace parallax.server.cache

/-! ## Blocks -/

/-- Manages allocation of physical block indices. -/
structure BlockAllocator where
  num_blocks : Nat
  block_size : Nat
  free_blocks : List Nat
  used_blocks : Finset Nat
  split : Split (List.range num_blocks).toFinset free_blocks used_blocks

def BlockAllocator.init (num_blocks block_size : Nat) : BlockAllocator :=
  { num_blocks, block_size, free_blocks := List.range num_blocks, used_blocks := ∅,
    split := Split.start List.nodup_range }

/-- The last `num_blocks_needed` blocks of the free stack, or no block at all. -/
def BlockAllocator.allocate (a : BlockAllocator) (num_blocks_needed : Nat) :
    List Nat × BlockAllocator :=
  if a.free_blocks.length < num_blocks_needed then ([], a)
  else
    let split_idx := a.free_blocks.length - num_blocks_needed
    let allocated := a.free_blocks.drop split_idx
    (allocated, { a with
      free_blocks := a.free_blocks.take split_idx
      used_blocks := allocated.foldl (fun used b => insert b used) a.used_blocks
      split := a.split.take split_idx })

/-- A block that is not used is a double free: it is logged and left alone. -/
def BlockAllocator.free (a : BlockAllocator) (blocks : List Nat) : BlockAllocator :=
  { a with
    free_blocks := (blocks.foldl giveOne (a.free_blocks, a.used_blocks)).1
    used_blocks := (blocks.foldl giveOne (a.free_blocks, a.used_blocks)).2
    split := Split.giveAll blocks a.split }

def BlockAllocator.get_num_free_blocks (a : BlockAllocator) : Nat := a.free_blocks.length

theorem BlockAllocator.mem_used_lt (a : BlockAllocator) {b : Nat} (h : b ∈ a.used_blocks) :
    b < a.num_blocks := by
  simpa using a.split.used_mem h

/-- An allocation that is served hands out the number of blocks that was asked for, all of
them fresh and distinct. -/
theorem BlockAllocator.allocate.spec (a : BlockAllocator) (n : Nat)
    (h : n ≤ a.free_blocks.length) :
    (a.allocate n).1.length = n ∧ (a.allocate n).1.Nodup ∧
      (∀ b ∈ (a.allocate n).1, b ∉ a.used_blocks) ∧
      (∀ b, b ∈ (a.allocate n).2.used_blocks ↔ b ∈ (a.allocate n).1 ∨ b ∈ a.used_blocks) ∧
      (a.allocate n).2.num_blocks = a.num_blocks := by
  have hlt : ¬ a.free_blocks.length < n := by omega
  simp only [BlockAllocator.allocate, hlt, if_false]
  refine ⟨?_, a.split.take_nodup _, fun b hb => a.split.take_fresh _ hb, ?_, trivial⟩
  · rw [List.length_drop]; omega
  · exact fun b => Split.mem_foldl_insert _ _ _

/-- An allocation that is too large changes nothing. -/
theorem BlockAllocator.allocate_short (a : BlockAllocator) (n : Nat)
    (h : a.free_blocks.length < n) : a.allocate n = ([], a) := by
  simp [BlockAllocator.allocate, h]

@[simp] theorem BlockAllocator.free_num_blocks (a : BlockAllocator) (blocks : List Nat) :
    (a.free blocks).num_blocks = a.num_blocks := rfl

@[simp] theorem BlockAllocator.mem_free_used (a : BlockAllocator) (blocks : List Nat) (b : Nat) :
    b ∈ (a.free blocks).used_blocks ↔ b ∈ a.used_blocks ∧ b ∉ blocks :=
  mem_giveAll blocks _ b

@[simp] theorem BlockAllocator.free_nil (a : BlockAllocator) : a.free [] = a := rfl

/-- Blocks that go back right after they were taken restore the allocator. -/
theorem BlockAllocator.free_allocate (a : BlockAllocator) {n : Nat}
    (h : n ≤ a.free_blocks.length) : (a.allocate n).2.free (a.allocate n).1 = a := by
  obtain ⟨_, hnodup, hfresh, hused, _⟩ := BlockAllocator.allocate.spec a n h
  have hfree : ((a.allocate n).2.free (a.allocate n).1).free_blocks = a.free_blocks := by
    have hgiven := giveAll_free (a.allocate n).1
      ((a.allocate n).2.free_blocks, (a.allocate n).2.used_blocks) hnodup
      (fun b hb => (hused b).mpr (Or.inl hb))
    have hsplit : (a.allocate n).2.free_blocks ++ (a.allocate n).1 = a.free_blocks := by
      unfold BlockAllocator.allocate
      rw [if_neg (by omega)]
      exact List.take_append_drop _ _
    exact hgiven.trans hsplit
  have hsame : ((a.allocate n).2.free (a.allocate n).1).used_blocks = a.used_blocks := by
    ext b
    rw [BlockAllocator.mem_free_used, hused]
    constructor
    · rintro ⟨hb | hb, hnot⟩
      · exact absurd hb hnot
      · exact hb
    · intro hb
      exact ⟨Or.inr hb, fun hmem => hfresh b hmem hb⟩
  have hkept : ((a.allocate n).2.free (a.allocate n).1).num_blocks = a.num_blocks ∧
      ((a.allocate n).2.free (a.allocate n).1).block_size = a.block_size := by
    unfold BlockAllocator.allocate
    rw [if_neg (by omega)]
    exact ⟨rfl, rfl⟩
  obtain ⟨hnum, hsize⟩ := hkept
  generalize (a.allocate n).2.free (a.allocate n).1 = a' at *
  cases a'
  cases a
  dsimp only at *
  subst hnum hsize hfree hsame
  rfl

/-! ## Slots -/

/-- Manages allocation of request slots (indices). -/
structure SlotAllocator where
  num_slots : Nat
  free_slots : List Nat
  used_slots : Finset Nat
  split : Split (List.range num_slots).toFinset free_slots used_slots

def SlotAllocator.init (num_slots : Nat) : SlotAllocator :=
  { num_slots, free_slots := List.range num_slots, used_slots := ∅,
    split := Split.start List.nodup_range }

/-- The slot popped from the end of the free stack. `none` stands for the -1 of the source. -/
def SlotAllocator.allocate (a : SlotAllocator) : Option Nat × SlotAllocator :=
  let rest := a.free_slots.take (a.free_slots.length - 1)
  let popped := a.free_slots.drop (a.free_slots.length - 1)
  (popped.head?, { a with
    free_slots := rest
    used_slots := popped.foldl (fun used s => insert s used) a.used_slots
    split := a.split.take _ })

/-- A slot that is not used is a double free: it is logged and left alone. -/
def SlotAllocator.free (a : SlotAllocator) (slot : Nat) : SlotAllocator :=
  { a with
    free_slots := (giveOne (a.free_slots, a.used_slots) slot).1
    used_slots := (giveOne (a.free_slots, a.used_slots) slot).2
    split := a.split.giveOne (s := (a.free_slots, a.used_slots)) slot }

def SlotAllocator.get_num_free_slots (a : SlotAllocator) : Nat := a.free_slots.length

theorem drop_last_cases (l : List Nat) :
    l = [] ∨ ∃ x, l.drop (l.length - 1) = [x] := by
  rcases List.eq_nil_or_concat l with h | ⟨init, x, h⟩
  · exact Or.inl h
  · subst h
    exact Or.inr ⟨x, by simp⟩

/-- No slot is handed out exactly when none is free, and then nothing changes. -/
theorem SlotAllocator.allocate_none (a : SlotAllocator) :
    (a.allocate).1 = none ↔ a.free_slots = [] := by
  unfold SlotAllocator.allocate
  rcases drop_last_cases a.free_slots with h | ⟨x, h⟩
  · simp [h]
  · simp only [h, List.head?_cons, reduceCtorEq, false_iff]
    rintro he
    simp [he] at h

theorem SlotAllocator.allocate_none_same (a : SlotAllocator) (h : (a.allocate).1 = none) :
    (a.allocate).2 = a := by
  have he := a.allocate_none.mp h
  cases a
  simp_all [SlotAllocator.allocate]

/-- A slot that is handed out is fresh, and it is the only one that becomes used. -/
theorem SlotAllocator.allocate.spec (a : SlotAllocator) (s : Nat) (h : (a.allocate).1 = some s) :
    s ∉ a.used_slots ∧ (∀ x, x ∈ (a.allocate).2.used_slots ↔ x = s ∨ x ∈ a.used_slots) ∧
      (a.allocate).2.num_slots = a.num_slots := by
  rcases drop_last_cases a.free_slots with he | ⟨x, hx⟩
  · rw [a.allocate_none.mpr he] at h
    cases h
  · simp only [SlotAllocator.allocate, hx, List.head?_cons, Option.some.injEq] at h
    subst h
    refine ⟨a.split.take_fresh (a.free_slots.length - 1) (by simp [hx]), ?_, rfl⟩
    intro y
    simp [SlotAllocator.allocate, hx]

@[simp] theorem SlotAllocator.free_num_slots (a : SlotAllocator) (s : Nat) :
    (a.free s).num_slots = a.num_slots := rfl

@[simp] theorem SlotAllocator.mem_free_used (a : SlotAllocator) (s x : Nat) :
    x ∈ (a.free s).used_slots ↔ x ∈ a.used_slots ∧ x ≠ s := by
  simpa [SlotAllocator.free] using mem_giveAll [s] (a.free_slots, a.used_slots) x

theorem SlotAllocator.free_allocate (a : SlotAllocator) {s : Nat}
    (h : (a.allocate).1 = some s) : (a.allocate).2.free s = a := by
  obtain ⟨hfresh, hused, _⟩ := SlotAllocator.allocate.spec a s h
  have hpopped : a.free_slots.drop (a.free_slots.length - 1) = [s] := by
    rcases drop_last_cases a.free_slots with he | ⟨x, hx⟩
    · rw [a.allocate_none.mpr he] at h
      cases h
    · have hhead : (a.free_slots.drop (a.free_slots.length - 1)).head? = some s := h
      rw [hx] at hhead
      cases hhead
      exact hx
  have hfree : ((a.allocate).2.free s).free_slots = a.free_slots := by
    have hgiven : giveOne ((a.allocate).2.free_slots, (a.allocate).2.used_slots) s =
        ((a.allocate).2.free_slots ++ [s], (a.allocate).2.used_slots.erase s) := by
      unfold giveOne
      rw [if_pos ((hused s).mpr (Or.inl rfl))]
    have hsplit : (a.allocate).2.free_slots ++ [s] = a.free_slots := by
      rw [← hpopped]
      exact List.take_append_drop _ _
    exact (congrArg Prod.fst hgiven).trans hsplit
  have hsame : ((a.allocate).2.free s).used_slots = a.used_slots := by
    ext x
    rw [SlotAllocator.mem_free_used, hused]
    constructor
    · rintro ⟨hx | hx, hne⟩
      · exact absurd hx hne
      · exact hx
    · intro hx
      exact ⟨Or.inr hx, fun heq => hfresh (heq ▸ hx)⟩
  have hnum : ((a.allocate).2.free s).num_slots = a.num_slots := rfl
  generalize (a.allocate).2.free s = a' at *
  cases a'
  cases a
  dsimp only at *
  subst hnum hfree hsame
  rfl

end parallax.server.cache

-- One writer, one reader and an unbounded queue between them. The reader is
-- deterministic, so every interleaving ends in the same reader state: the one
-- that reads the items in the order they are put.
import Mathlib.Logic.Relation
import Mathlib.Data.List.Basic

open Relation

namespace fifo_channel

variable {α σ : Type*}

/-- The items still to be put, the queue, and the reader. -/
structure Channel (α σ : Type*) where
  pending : List α
  queue : List α
  reader : σ

variable (read : σ → α → σ) (running : σ → Prop)

/-- The writer puts its next item, or a reader that still runs takes one. -/
inductive Step : Channel α σ → Channel α σ → Prop where
  | put (x : α) (pending queue : List α) (r : σ) :
      Step ⟨x :: pending, queue, r⟩ ⟨pending, queue ++ [x], r⟩
  | get (x : α) (pending queue : List α) (r : σ) (h : running r) :
      Step ⟨pending, x :: queue, r⟩ ⟨pending, queue, read r x⟩

/-- The reader after a list of items, up to the item at which it stops. -/
def consume [DecidablePred running] (r : σ) : List α → σ
  | [] => r
  | x :: rest => if running r then consume (read r x) rest else r

variable {read running} [DecidablePred running]

theorem consume_stopped {r : σ} (h : ¬ running r) (l : List α) : consume read running r l = r := by
  cases l with
  | nil => rfl
  | cons x rest => rw [consume, if_neg h]

/-- A step does not change what the reader comes to. -/
theorem Step.consume_eq {c c' : Channel α σ} (h : Step read running c c') :
    consume read running c'.reader (c'.queue ++ c'.pending) =
      consume read running c.reader (c.queue ++ c.pending) := by
  cases h with
  | put x pending queue r => simp
  | get x pending queue r hr => rw [List.cons_append, consume, if_pos hr]

theorem reachable_consume_eq {c c' : Channel α σ} (h : ReflTransGen (Step read running) c c') :
    consume read running c'.reader (c'.queue ++ c'.pending) =
      consume read running c.reader (c.queue ++ c.pending) := by
  induction h with
  | refl => rfl
  | tail _ hstep ih => exact hstep.consume_eq.trans ih

/-- In a state with nothing left to do, the reader has come to where the items lead it. -/
theorem final_reader {items : List α} {r : σ} {c : Channel α σ}
    (h : ReflTransGen (Step read running) ⟨items, [], r⟩ c) (hfinal : ∀ c', ¬ Step read running c c') :
    c.reader = consume read running r items := by
  have hkeep := reachable_consume_eq h
  rw [List.nil_append] at hkeep
  rw [← hkeep]
  obtain ⟨pending, queue, reader⟩ := c
  cases pending with
  | cons x pending => exact absurd (Step.put x pending queue reader) (hfinal _)
  | nil =>
    cases queue with
    | nil => rfl
    | cons x queue =>
      have hstop : ¬ running reader := fun hr => hfinal _ (Step.get x [] queue reader hr)
      exact (consume_stopped hstop _).symm

/-- A bound on the steps that are left. -/
def Channel.work (c : Channel α σ) : Nat := 2 * c.pending.length + c.queue.length

omit [DecidablePred running] in
theorem Step.work_lt {c c' : Channel α σ} (h : Step read running c c') : c'.work < c.work := by
  cases h with
  | put x pending queue r =>
    simp only [Channel.work, List.length_append, List.length_cons, List.length_nil]
    omega
  | get x pending queue r hr =>
    simp only [Channel.work, List.length_cons]
    omega

end fifo_channel

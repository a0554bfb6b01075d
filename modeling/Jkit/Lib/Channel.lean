import Mathlib.Data.List.Basic
import Mathlib.Tactic.SplitIfs

/-! # Bounded channels

A channel holds at most `cap` items. `push` and `pop` return `none` while they block: a push on a full
open channel, a pop on an empty open channel. A closed channel refuses every push and still delivers
the items it holds. The calls of `close` are counted; the channel is closed after the first. -/

namespace Jkit.Lib.Channel

/-- A channel: its items in order, and how often it was closed. -/
structure Chan (α : Type*) where
  queue : List α := []
  closes : ℕ := 0

namespace Chan

variable {α : Type*} {cap : ℕ} {c c' : Chan α} {x : α}

/-- The channel after a push, and whether the item was taken. -/
def push (cap : ℕ) (c : Chan α) (x : α) : Option (Chan α × Bool) :=
  if 0 < c.closes then some (c, false)
  else if c.queue.length < cap then some ({ c with queue := c.queue ++ [x] }, true)
  else none

/-- The channel after a pop, and the item; no item if the channel is closed and empty. -/
def pop (c : Chan α) : Option (Chan α × Option α) :=
  match c.queue with
  | x :: q => some ({ c with queue := q }, some x)
  | [] => if 0 < c.closes then some (c, none) else none

def close (c : Chan α) : Chan α := { c with closes := c.closes + 1 }

@[simp] theorem close_queue : c.close.queue = c.queue := rfl

@[simp] theorem close_closes : c.close.closes = c.closes + 1 := rfl

theorem push_false (h : c.push cap x = some (c', false)) : 0 < c.closes ∧ c' = c := by
  unfold push at h
  split_ifs at h with h1 h2
  · simp only [Option.some.injEq, Prod.mk.injEq, and_true] at h
    exact ⟨h1, h.symm⟩
  · simp at h

theorem push_true (h : c.push cap x = some (c', true)) :
    c.closes = 0 ∧ c.queue.length < cap ∧ c' = { c with queue := c.queue ++ [x] } := by
  unfold push at h
  split_ifs at h with h1 h2
  · simp at h
  · simp only [Option.some.injEq, Prod.mk.injEq, and_true] at h
    exact ⟨by omega, h2, h.symm⟩

/-- A push blocks on a full open channel only. -/
theorem push_eq_none : c.push cap x = none ↔ c.closes = 0 ∧ cap ≤ c.queue.length := by
  unfold push
  split_ifs with h1 h2
  · simp; omega
  · simp; omega
  · simp; omega

theorem pop_some (h : c.pop = some (c', some x)) :
    c.queue = x :: c'.queue ∧ c'.closes = c.closes := by
  unfold pop at h
  split at h
  · rename_i y q hq
    simp only [Option.some.injEq, Prod.mk.injEq] at h
    obtain ⟨rfl, rfl⟩ := h
    exact ⟨hq, rfl⟩
  · split_ifs at h
    simp at h

theorem pop_none (h : c.pop = some (c', none)) : c.queue = [] ∧ 0 < c.closes ∧ c' = c := by
  unfold pop at h
  split at h
  · simp at h
  · rename_i hq
    split_ifs at h with h1
    simp only [Option.some.injEq, Prod.mk.injEq, and_true] at h
    exact ⟨hq, h1, h.symm⟩

/-- A pop blocks on an empty open channel only. -/
theorem pop_eq_none : c.pop = none ↔ c.queue = [] ∧ c.closes = 0 := by
  unfold pop
  split
  · rename_i y q hq
    simp [hq]
  · rename_i hq
    split_ifs with h1
    · simp [hq]; omega
    · simp [hq]; omega

end Chan

end Jkit.Lib.Channel

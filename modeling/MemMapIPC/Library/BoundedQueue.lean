import Mathlib.Data.List.Basic
import Mathlib.Tactic.TypeStar

/-!
# A bounded queue

First in, first out, and never more than `capacity` items. What is pushed must fit, and no more is
popped than there is.
-/

@[ext] structure BoundedQueue (α : Type*) (capacity : ℕ) where
  contents : List α
  length_le : contents.length ≤ capacity

namespace BoundedQueue

variable {α : Type*} {capacity : ℕ}

def empty : BoundedQueue α capacity := ⟨[], Nat.zero_le _⟩

def available (q : BoundedQueue α capacity) : ℕ := q.contents.length

def free (q : BoundedQueue α capacity) : ℕ := capacity - q.available

theorem available_add_free (q : BoundedQueue α capacity) : q.available + q.free = capacity :=
  Nat.add_sub_of_le q.length_le

def push (q : BoundedQueue α capacity) (l : List α) (h : l.length ≤ q.free) :
    BoundedQueue α capacity :=
  ⟨q.contents ++ l, by
    have hq := q.available_add_free
    simp only [available, List.length_append] at hq ⊢
    omega⟩

def pop (q : BoundedQueue α capacity) (n : ℕ) : BoundedQueue α capacity :=
  ⟨q.contents.drop n, by
    have hq := q.length_le
    rw [List.length_drop]
    omega⟩

@[simp] theorem contents_push (q : BoundedQueue α capacity) (l : List α) (h : l.length ≤ q.free) :
    (q.push l h).contents = q.contents ++ l := rfl

@[simp] theorem contents_pop (q : BoundedQueue α capacity) (n : ℕ) :
    (q.pop n).contents = q.contents.drop n := rfl

@[simp] theorem contents_empty : (empty : BoundedQueue α capacity).contents = [] := rfl

theorem available_push (q : BoundedQueue α capacity) (l : List α) (h : l.length ≤ q.free) :
    (q.push l h).available = q.available + l.length := List.length_append

theorem available_pop (q : BoundedQueue α capacity) (n : ℕ) :
    (q.pop n).available = q.available - n := List.length_drop

end BoundedQueue

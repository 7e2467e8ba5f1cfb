/-! Positions that wait to be visited, first in first out. -/
namespace ClassAssembly

structure Worklist where
  front : List Nat
  /-- Those added last, latest first. -/
  back : List Nat
deriving DecidableEq

namespace Worklist

def empty : Worklist := ⟨[], []⟩

/-- All positions, the next one first. -/
def toList (w : Worklist) : List Nat := w.front ++ w.back.reverse

def contains (w : Worklist) (i : Nat) : Bool := w.front.contains i || w.back.contains i

def enqueue (w : Worklist) (i : Nat) : Worklist := ⟨w.front, i :: w.back⟩

/-- Adds a position unless it is waiting already. -/
def push (w : Worklist) (i : Nat) : Worklist := if w.contains i then w else w.enqueue i

/-- Takes the next position off. -/
def pop? (w : Worklist) : Option (Nat × Worklist) :=
  match w.front with
  | i :: front => some (i, ⟨front, w.back⟩)
  | [] =>
    match w.back.reverse with
    | i :: front => some (i, ⟨front, []⟩)
    | [] => none

@[simp] theorem contains_iff (w : Worklist) (i : Nat) : w.contains i ↔ i ∈ w.toList := by
  simp [contains, toList]

@[simp] theorem toList_enqueue (w : Worklist) (i : Nat) :
    (w.enqueue i).toList = w.toList ++ [i] := by
  simp [enqueue, toList]

theorem toList_push (w : Worklist) (i : Nat) :
    (w.push i).toList = if i ∈ w.toList then w.toList else w.toList ++ [i] := by
  by_cases h : i ∈ w.toList
  · simp [push, h]
  · rw [push, if_neg (by simpa using h), if_neg h, toList_enqueue]

theorem pop?_eq_none_iff (w : Worklist) : w.pop? = none ↔ w.toList = [] := by
  obtain ⟨front, back⟩ := w
  cases front with
  | nil => cases h : back.reverse <;> simp [pop?, toList, h]
  | cons i front => simp [pop?, toList]

theorem toList_of_pop? {w w' : Worklist} {i : Nat} (h : w.pop? = some (i, w')) :
    w.toList = i :: w'.toList := by
  obtain ⟨front, back⟩ := w
  cases front with
  | nil =>
    cases hb : back.reverse <;> simp [pop?, hb] at h
    obtain ⟨rfl, rfl⟩ := h
    simp [toList, hb]
  | cons j front =>
    simp only [pop?, Option.some.injEq, Prod.mk.injEq] at h
    obtain ⟨rfl, rfl⟩ := h
    simp [toList]

end Worklist
end ClassAssembly

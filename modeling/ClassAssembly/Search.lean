/-! Searching an array ordered by a numeric key. -/
namespace ClassAssembly.Search

variable {α : Type}

/-- Halving step of `upperBound` on the positions from `lo` up to `hi`. -/
def upperBoundIn (key : α → Nat) (xs : Array α) (bound lo hi : Nat) (h : hi ≤ xs.size) : Nat :=
  if _lt : lo < hi then
    have : (lo + hi) / 2 < xs.size := by omega
    if key xs[(lo + hi) / 2] ≤ bound then upperBoundIn key xs bound ((lo + hi) / 2 + 1) hi h
    else upperBoundIn key xs bound lo ((lo + hi) / 2) (by omega)
  else lo
termination_by hi - lo

/-- In an array of ascending keys, the number of elements whose key is at most `bound`. -/
def upperBound (key : α → Nat) (xs : Array α) (bound : Nat) : Nat :=
  upperBoundIn key xs bound 0 xs.size (Nat.le_refl _)

/-- Position of the element with a given key, in an array of ascending keys. -/
def find? (key : α → Nat) (xs : Array α) (wanted : Nat) : Option Nat :=
  match upperBound key xs wanted with
  | 0 => none
  | i + 1 => xs[i]?.bind fun x => if key x = wanted then some i else none

end ClassAssembly.Search

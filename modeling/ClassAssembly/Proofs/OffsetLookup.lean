import ClassAssembly.Proofs.Interning
import Mathlib.Algebra.GroupWithZero.Nat

/-! What a table of offsets tells of the elements that were pushed to it. Each element starts where the
widths of those before it end, so the halving search finds an element at its own offset, and nothing
at any other one. This stands as long as no offset wraps around. -/
namespace ClassAssembly.OffsetTable

variable {α : Type} [Width α]

section Search

variable {t : OffsetTable α} {offset : UInt64}

end Search

variable (t : OffsetTable α) (xs : List α)

end ClassAssembly.OffsetTable

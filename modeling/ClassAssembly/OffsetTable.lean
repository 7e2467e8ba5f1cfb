import ClassAssembly.Search

/-! Tables whose elements have widths. An element is found by its offset: the offset of the first
element is fixed, and each next element starts where the one before it ends. Offsets are kept in
sixty-four bits and wrap around past the last of them. -/
namespace ClassAssembly

/-- Number of slots that a value takes. -/
class Width (α : Type) where
  width : α → Nat

export Width (width)

/-- The entries lie end to end from offset `start` up to offset `stop`. -/
def Tiled {α : Type} [Width α] (start : UInt64) : List (UInt64 × α) → UInt64 → Prop
  | [], stop => start = stop
  | (offset, x) :: rest, stop => offset = start ∧ Tiled (start + .ofNat (width x)) rest stop

/-- Number of slots that entries take together. -/
def span {α : Type} [Width α] : List (UInt64 × α) → Nat
  | [] => 0
  | (_, x) :: rest => width x + span rest

theorem span_append {α : Type} [Width α] (entries later : List (UInt64 × α)) :
    span (entries ++ later) = span entries + span later := by
  induction entries with
  | nil => simp [span]
  | cons entry rest ih => simp [span, ih, Nat.add_assoc]

theorem toNat_add_ofNat {start : UInt64} {n : Nat} (h : start.toNat + n < UInt64.size) :
    (start + .ofNat n).toNat = start.toNat + n := by
  rw [UInt64.toNat_add, UInt64.toNat_ofNat_of_lt' (Nat.lt_of_le_of_lt (Nat.le_add_left _ _) h)]
  exact Nat.mod_eq_of_lt h

namespace Tiled

variable {α : Type} [Width α] {entries : List (UInt64 × α)} {start stop : UInt64}

theorem append (x : α) (h : Tiled start entries stop) :
    Tiled start (entries ++ [(stop, x)]) (stop + .ofNat (width x)) := by
  induction entries generalizing start with
  | nil => simp_all [Tiled]
  | cons entry rest ih => exact ⟨h.1, ih h.2⟩

theorem stop_eq (h : Tiled start entries stop) : stop = start + .ofNat (span entries) := by
  induction entries generalizing start with
  | nil =>
    have heq : start = stop := h
    simp [span, heq]
  | cons entry rest ih => rw [ih h.2, span, UInt64.ofNat_add, UInt64.add_assoc]

end Tiled

structure OffsetTable (α : Type) [Width α] where
  /-- Offset of the first element. -/
  first : UInt64
  entries : Array (UInt64 × α)
  /-- Offset at which the next element will start. -/
  next : UInt64
  tiled : Tiled first entries.toList next

namespace OffsetTable

variable {α : Type} [Width α]

def empty (first : UInt64) : OffsetTable α where
  first := first
  entries := #[]
  next := first
  tiled := rfl

def size (t : OffsetTable α) : Nat := t.entries.size

def isEmpty (t : OffsetTable α) : Bool := t.entries.isEmpty

/-- The new element starts at the offset `t.next`. -/
def push (t : OffsetTable α) (x : α) : OffsetTable α where
  first := t.first
  entries := t.entries.push (t.next, x)
  next := t.next + .ofNat (width x)
  tiled := by simpa using t.tiled.append x

/-- The element that starts at an offset. -/
def get? (t : OffsetTable α) (offset : UInt64) : Option α :=
  (Search.find? (·.1.toNat) t.entries offset.toNat).bind fun i => t.entries[i]?.map Prod.snd

def toList (t : OffsetTable α) : List α := t.entries.toList.map Prod.snd

/-- The entries with their offsets, in brackets. -/
def render (text : α → String) (t : OffsetTable α) : String :=
  "[" ++ String.intercalate ", "
    (t.entries.toList.map fun (offset, x) => s!"#{offset.toNat} = " ++ text x) ++ "]"

/-- Where the elements end as long as no offset wraps around. -/
def extent (t : OffsetTable α) : Nat := t.first.toNat + span t.entries.toList

@[simp] theorem toList_push (t : OffsetTable α) (x : α) : (t.push x).toList = t.toList ++ [x] := by
  simp [toList, push]

theorem extent_push (t : OffsetTable α) (x : α) : (t.push x).extent = t.extent + width x := by
  simp [extent, push, span_append, span, Nat.add_assoc]

theorem toNat_next {t : OffsetTable α} (h : t.extent < UInt64.size) : t.next.toNat = t.extent := by
  rw [t.tiled.stop_eq]
  exact toNat_add_ofNat h

end OffsetTable
end ClassAssembly

import ClassAssembly.Search
import Mathlib.Tactic.Lemma

/-! The halving search finds exactly the positions of the wanted key. -/
namespace ClassAssembly.Search

variable {α : Type} {key : α → Nat} {xs : Array α}

/-- Each key is smaller than those after it. -/
def Ascending (key : α → Nat) (xs : Array α) : Prop :=
  ∀ i j (hi : i < xs.size) (hj : j < xs.size), i < j → key xs[i] < key xs[j]

lemma Ascending.of_pairwise (h : xs.toList.Pairwise (fun a b => key a < key b)) :
    Ascending key xs := by
  intro i j hi hj hij
  exact List.pairwise_iff_getElem.mp h i j (by simpa) (by simpa) hij

lemma Ascending.le (h : Ascending key xs) {i j : Nat} (hj : j < xs.size) (hij : i ≤ j) :
    key xs[i] ≤ key xs[j] := by
  rcases Nat.lt_or_eq_of_le hij with hlt | rfl
  · exact Nat.le_of_lt (h i j (by omega) hj hlt)
  · exact Nat.le_refl _

/-- The keys before `n` are at most `bound`, and those from `n` on are above it. -/
def Splits (key : α → Nat) (xs : Array α) (bound n : Nat) : Prop :=
  n ≤ xs.size ∧ (∀ i (hi : i < xs.size), i < n → key xs[i] ≤ bound) ∧
    ∀ i (hi : i < xs.size), n ≤ i → bound < key xs[i]

lemma upperBoundIn_splits (hasc : Ascending key xs) (bound lo hi : Nat) (hsize : hi ≤ xs.size)
    (hle : lo ≤ hi) (hlow : ∀ i (hi : i < xs.size), i < lo → key xs[i] ≤ bound)
    (hhigh : ∀ i (h : i < xs.size), hi ≤ i → bound < key xs[i]) :
    Splits key xs bound (upperBoundIn key xs bound lo hi hsize) := by
  fun_induction upperBoundIn key xs bound lo hi hsize with
  | case1 lo hi hsize hlt hmid hkey ih =>
    apply ih (by omega) _ hhigh
    intro i hi' hi''
    exact Nat.le_trans (hasc.le hmid (by omega)) hkey
  | case2 lo hi hsize hlt hmid hkey ih =>
    apply ih (by omega) hlow
    intro i hi' hi''
    exact Nat.lt_of_lt_of_le (Nat.lt_of_not_le hkey) (hasc.le hi' hi'')
  | case3 lo hi hsize hlt =>
    obtain rfl : lo = hi := by omega
    exact ⟨hsize, hlow, hhigh⟩

lemma upperBound_splits (hasc : Ascending key xs) (bound : Nat) :
    Splits key xs bound (upperBound key xs bound) :=
  upperBoundIn_splits hasc bound 0 xs.size (Nat.le_refl _) (Nat.zero_le _)
    (fun _ _ h => absurd h (Nat.not_lt_zero _)) (fun _ h h' => absurd h (by omega))

/-- What is found has the wanted key, whatever the order of the array. -/
theorem exists_of_find?_eq_some {wanted i : Nat} (h : find? key xs wanted = some i) :
    ∃ x, xs[i]? = some x ∧ key x = wanted := by
  unfold find? at h
  split at h
  · cases h
  · obtain ⟨x, hx, hkey⟩ := Option.bind_eq_some_iff.mp h
    split at hkey
    · cases hkey
      exact ⟨x, hx, by assumption⟩
    · cases hkey

theorem find?_eq_some_iff (hasc : Ascending key xs) {wanted i : Nat} :
    find? key xs wanted = some i ↔ ∃ x, xs[i]? = some x ∧ key x = wanted := by
  constructor
  · exact exists_of_find?_eq_some
  · rintro ⟨x, hx, rfl⟩
    obtain ⟨hi, rfl⟩ := Array.getElem?_eq_some_iff.mp hx
    obtain ⟨hn, hlow, hhigh⟩ := upperBound_splits hasc (key xs[i])
    have hub : upperBound key xs (key xs[i]) = i + 1 := by
      rcases Nat.lt_trichotomy (upperBound key xs (key xs[i])) (i + 1) with hlt | heq | hgt
      · have := hhigh i hi (by omega)
        omega
      · exact heq
      · have := hlow (i + 1) (by omega) hgt
        have := hasc i (i + 1) hi (by omega) (by omega)
        omega
    simp [find?, hub, hx]

theorem find?_isSome_iff (hasc : Ascending key xs) {wanted : Nat} :
    (find? key xs wanted).isSome ↔ ∃ x ∈ xs, key x = wanted := by
  rw [Option.isSome_iff_exists]
  constructor
  · rintro ⟨i, hi⟩
    obtain ⟨x, hx, hkey⟩ := exists_of_find?_eq_some hi
    exact ⟨x, Array.mem_of_getElem? hx, hkey⟩
  · rintro ⟨x, hx, hkey⟩
    obtain ⟨i, hi, rfl⟩ := Array.mem_iff_getElem.mp hx
    exact ⟨i, (find?_eq_some_iff hasc).mpr ⟨xs[i], by simp, hkey⟩⟩

end ClassAssembly.Search

import ClassAssembly.Constant.Pool
import ClassAssembly.Proofs.Search
import ClassAssembly.Proofs.StepLaws

/-! The constant pool only grows. What was found in it once is found again later, at the same index,
and asking again for a constant that was given out changes nothing. -/
namespace ClassAssembly

namespace Tiled

variable {α : Type} [Width α] {start stop : UInt64} {entries : List (UInt64 × α)}

/-- The entries lie between the start and the end, as long as no offset wraps around. -/
lemma bounds (h : Tiled start entries stop) (hfits : start.toNat + span entries < UInt64.size) :
    ∀ entry ∈ entries, start.toNat ≤ entry.1.toNat ∧
      entry.1.toNat + width entry.2 ≤ start.toNat + span entries := by
  induction entries generalizing start with
  | nil => simp
  | cons entry rest ih =>
    obtain ⟨offset, x⟩ := entry
    obtain ⟨rfl, hrest⟩ := h
    simp only [span] at hfits ⊢
    have hnext : (offset + .ofNat (width x)).toNat = offset.toNat + width x :=
      toNat_add_ofNat (by omega)
    intro later hlater
    rcases List.mem_cons.mp hlater with rfl | hlater
    · simp only [Nat.le_refl, true_and]
      omega
    · have hlater := ih hrest (by omega) later hlater
      omega

/-- Each entry ends before the next one starts. -/
lemma pairwise (h : Tiled start entries stop) (hfits : start.toNat + span entries < UInt64.size) :
    entries.Pairwise fun a b => a.1.toNat + width a.2 ≤ b.1.toNat := by
  induction entries generalizing start with
  | nil => exact List.Pairwise.nil
  | cons entry rest ih =>
    obtain ⟨offset, x⟩ := entry
    obtain ⟨rfl, hrest⟩ := h
    simp only [span] at hfits
    have hnext : (offset + .ofNat (width x)).toNat = offset.toNat + width x :=
      toNat_add_ofNat (by omega)
    refine List.Pairwise.cons ?_ (ih hrest (by omega))
    intro later hlater
    have hlow := (hrest.bounds (by omega) later hlater).1
    simp only
    omega

end Tiled

namespace OffsetTable

variable {α : Type} [Width α] {t : OffsetTable α}

/-- An element is found by its offset, and nothing else is. -/
theorem get?_eq_some_iff (hfits : t.extent < UInt64.size)
    (hwidth : ∀ entry ∈ t.entries, 0 < width entry.2) {offset : UInt64} {x : α} :
    t.get? offset = some x ↔ (offset, x) ∈ t.entries := by
  have hasc : Search.Ascending (fun entry => entry.1.toNat) t.entries := by
    refine .of_pairwise ((t.tiled.pairwise hfits).imp_of_mem ?_)
    intro a b ha _ hapart
    have hpos := hwidth a (Array.mem_toList_iff.mp ha)
    omega
  simp only [get?, Option.bind_eq_some_iff, Option.map_eq_some_iff, Search.find?_eq_some_iff hasc]
  constructor
  · rintro ⟨i, ⟨entry, hentry, hoffset⟩, entry', hentry', rfl⟩
    rw [hentry] at hentry'
    cases hentry'
    rw [← UInt64.toNat_inj.mp hoffset]
    exact Array.mem_of_getElem? hentry
  · intro hmem
    obtain ⟨i, hi, heq⟩ := Array.mem_iff_getElem.mp hmem
    have hget : t.entries[i]? = some (offset, x) := by simp [hi, heq]
    exact ⟨i, ⟨_, hget, rfl⟩, _, hget, rfl⟩

end OffsetTable

namespace ClassName

theorem canonical_canonical (name : String) : canonical (canonical name) = canonical name := by
  simp only [canonical, String.toList_ofList, List.map_map]
  congr 1
  apply List.map_congr_left
  intro c _
  simp only [Function.comp_apply]
  split <;> simp_all

end ClassName

namespace ConstantPool

lemma width_pos (c : Constant) : 0 < width c := by cases c <;> exact Nat.succ_pos _

lemma width_le (c : Constant) : width c ≤ 2 := by cases c <;> simp [width]

lemma get?_eq_some_iff {pool : ConstantPool} {i : PoolIndex} {c : Constant} :
    pool.get? i = some c ↔ pool.index[c]? = some i := by
  rw [get?, OffsetTable.get?_eq_some_iff pool.fits fun _ _ => width_pos _, pool.index_iff]

/-- Every constant of `earlier` is in `later`, at the same index. -/
def Extends (earlier later : ConstantPool) : Prop :=
  ∀ i c, earlier.get? i = some c → later.get? i = some c

namespace Extends

@[refl] theorem refl (pool : ConstantPool) : pool.Extends pool := fun _ _ h => h

theorem trans {a b c : ConstantPool} (hab : a.Extends b) (hbc : b.Extends c) : a.Extends c :=
  fun i k h => hbc i k (hab i k h)

variable {earlier later : ConstantPool}

theorem text? (h : earlier.Extends later) {i : PoolIndex} {text : String}
    (ht : earlier.text? i = some text) : later.text? i = some text := by
  unfold ConstantPool.text? at ht ⊢
  cases hi : earlier.get? i with
  | none => simp [hi] at ht
  | some c =>
    rw [hi] at ht
    rw [h i c hi]
    exact ht

theorem className? (h : earlier.Extends later) {i : PoolIndex} {name : ClassName}
    (hn : earlier.className? i = some name) : later.className? i = some name := by
  unfold ConstantPool.className? at hn ⊢
  cases hi : earlier.get? i with
  | none => simp [hi] at hn
  | some c =>
    rw [h i c hi]
    rw [hi] at hn
    cases c <;> simp only [reduceCtorEq] at hn ⊢
    exact h.text? hn

theorem memberRef? (h : earlier.Extends later) {i : PoolIndex} {ref : MemberRef}
    (hr : earlier.memberRef? i = some ref) : later.memberRef? i = some ref := by
  simp only [ConstantPool.memberRef?, bind, Option.bind_eq_some_iff] at hr ⊢
  obtain ⟨c, hc, hrest⟩ := hr
  refine ⟨c, h _ _ hc, ?_⟩
  -- Only references to fields and methods go on, and both in the same way.
  cases c <;> simp only [Option.bind_none, Option.bind_some, Option.bind_eq_some_iff, reduceCtorEq]
    at hrest ⊢
  all_goals
    obtain ⟨d, hd, hrest⟩ := hrest
    refine ⟨d, h _ _ hd, ?_⟩
    cases d <;> simp only [reduceCtorEq, Option.bind_eq_some_iff] at hrest ⊢
    obtain ⟨ownerName, ho, name, hn, descriptor, hd, heq⟩ := hrest
    exact ⟨ownerName, h.className? ho, name, h.text? hn, descriptor, h.text? hd, heq⟩

end Extends

/-- The one new constant, if any, is the one that was asked for. -/
lemma get?_of_intern {pool pool' : ConstantPool} {c : Constant} {i : PoolIndex}
    (h : (intern c).outcome pool = (.ok i, pool')) (j : PoolIndex) (d : Constant) :
    pool'.get? j = some d ↔ pool.get? j = some d ∨ j = i ∧ d = c := by
  simp only [intern, Step.outcome_ofOutcome] at h
  split at h
  · rename_i k hk
    cases h
    constructor
    · exact Or.inl
    · rintro (hj | ⟨rfl, rfl⟩)
      · exact hj
      · exact get?_eq_some_iff.mpr hk
  · rename_i hfresh
    split at h
    · cases h
    · split at h
      · cases h
      · cases h
        simp only [get?_eq_some_iff, push, Std.TreeMap.getElem?_insert,
          Std.LawfulEqCmp.compare_eq_iff_eq]
        by_cases hcd : c = d
        · subst hcd
          simp [hfresh, eq_comm]
        · simp [hcd, Ne.symm hcd]

lemma extends_of_intern {pool pool' : ConstantPool} {c : Constant} {i : PoolIndex}
    (h : (intern c).outcome pool = (.ok i, pool')) :
    pool.Extends pool' ∧ pool'.get? i = some c :=
  ⟨fun j d hj => (get?_of_intern h j d).mpr (Or.inl hj),
    (get?_of_intern h i c).mpr (Or.inr ⟨rfl, rfl⟩)⟩

lemma intern_of_get? {pool : ConstantPool} {c : Constant} {i : PoolIndex}
    (h : pool.get? i = some c) : (intern c).outcome pool = (.ok i, pool) := by
  have hi := get?_eq_some_iff.mp h
  simp only [intern, Step.outcome_ofOutcome]
  split
  · rename_i k hk
    rw [hi] at hk
    cases hk
    rfl
  · rename_i hnone
    rw [hi] at hnone
    cases hnone

theorem className?_eq_some_iff {pool : ConstantPool} {i : PoolIndex} {name : ClassName} :
    pool.className? i = some name ↔
      ∃ k, pool.get? i = some (.classRef k) ∧ pool.get? k = some (.utf8 name) := by
  constructor
  · intro h
    simp only [className?, text?] at h
    split at h
    · rename_i k hk
      split at h
      · cases h
        exact ⟨k, hk, by assumption⟩
      · cases h
    · cases h
  · rintro ⟨k, hi, hk⟩
    simp [className?, text?, hi, hk]

/-- Each class constant has a name, and dots in it have become slashes. -/
def WellNamed (pool : ConstantPool) : Prop :=
  ∀ i k, pool.get? i = some (.classRef k) →
    ∃ name, pool.get? k = some (.utf8 name) ∧ ClassName.canonical name = name

lemma wellNamed_empty : WellNamed .empty := by
  intro i k h
  rw [get?_eq_some_iff, index_iff] at h
  simp [empty, OffsetTable.empty] at h

lemma WellNamed.canonical_eq {pool : ConstantPool} (h : pool.WellNamed) {i : PoolIndex}
    {name : ClassName} (hi : pool.className? i = some name) : ClassName.canonical name = name := by
  obtain ⟨k, hik, hk⟩ := className?_eq_some_iff.mp hi
  obtain ⟨name', hk', hcanon⟩ := h i k hik
  rw [hk] at hk'
  cases hk'
  exact hcanon

lemma classRef_eq_ok {pool pool' : ConstantPool} {name : String} {i : PoolIndex}
    (h : (classRef name).outcome pool = (.ok i, pool')) :
    pool.Extends pool' ∧ (pool.WellNamed → pool'.WellNamed) ∧
      pool'.className? i = some (ClassName.canonical name) := by
  obtain ⟨k, middle, htext, hclass⟩ := Step.bind_eq_ok.mp h
  obtain ⟨hext, hk⟩ := extends_of_intern htext
  obtain ⟨hext', hi⟩ := extends_of_intern hclass
  refine ⟨hext.trans hext', ?_, className?_eq_some_iff.mpr ⟨k, hi, hext' _ _ hk⟩⟩
  intro hwell j n hj
  rcases (get?_of_intern hclass j _).mp hj with hj | ⟨rfl, heq⟩
  · rcases (get?_of_intern htext j _).mp hj with hj | ⟨_, heq⟩
    · obtain ⟨name', hn, hcanon⟩ := hwell j n hj
      exact ⟨name', hext' _ _ (hext _ _ hn), hcanon⟩
    · cases heq
  · cases heq
    exact ⟨_, hext' _ _ hk, ClassName.canonical_canonical name⟩

lemma classRef_of_className? {pool : ConstantPool} {name : String} {i : PoolIndex}
    (h : pool.className? i = some (ClassName.canonical name)) :
    (classRef name).outcome pool = (.ok i, pool) := by
  obtain ⟨k, hi, hk⟩ := className?_eq_some_iff.mp h
  exact Step.bind_eq_ok.mpr ⟨k, pool, intern_of_get? hk, intern_of_get? hi⟩

/-- A name that is too long for a text is in no pool and is refused. -/
lemma classRef_of_long {pool : ConstantPool} {name : String}
    (h : 65535 < ModifiedUtf8.length (ClassName.canonical name)) :
    (classRef name).outcome pool =
      (.error (.limit (.textTooLong (ModifiedUtf8.length (ClassName.canonical name)))), pool) := by
  have htext : (utf8 (ClassName.canonical name)).outcome pool =
      (.error (.limit (.textTooLong (ModifiedUtf8.length (ClassName.canonical name)))), pool) := by
    rw [utf8, intern, Step.outcome_ofOutcome]
    split
    · rename_i i hindex
      have hle := pool.text_le _ ((pool.index_iff _ i).mp hindex)
      exact absurd h (Nat.not_lt.mpr hle)
    · exact dif_pos h
  rw [classRef, Step.outcome_bind, htext]

/-- Two class constants with the same name are one. -/
theorem eq_of_className? {pool : ConstantPool} {i j : PoolIndex} {name : ClassName}
    (hi : pool.className? i = some name) (hj : pool.className? j = some name) : i = j := by
  obtain ⟨k, hik, hk⟩ := className?_eq_some_iff.mp hi
  obtain ⟨l, hjl, hl⟩ := className?_eq_some_iff.mp hj
  rw [get?_eq_some_iff] at hik hk hjl hl
  rw [hk] at hl
  cases hl
  rw [hik] at hjl
  cases hjl
  rfl

/-- A step on the pool that has succeeded can be repeated on every larger pool: it gives the same
value there and leaves that pool alone. -/
structure Repeatable {α : Type} (step : Step ConstantPool α) : Prop where
  grows : ∀ {pool pool' a}, step.outcome pool = (.ok a, pool') →
    pool.Extends pool' ∧ (pool.WellNamed → pool'.WellNamed)
  again : ∀ {pool pool' later a}, step.outcome pool = (.ok a, pool') → pool'.Extends later →
    step.outcome later = (.ok a, later)

namespace Repeatable

variable {α β : Type}

theorem pure (a : α) : Repeatable (pure a : Step ConstantPool α) where
  grows h := by
    cases h
    exact ⟨.refl _, id⟩
  again h _ := by
    cases h
    rfl

theorem bind {step : Step ConstantPool α} {next : α → Step ConstantPool β} (hs : Repeatable step)
    (hn : ∀ a, Repeatable (next a)) : Repeatable (step >>= next) where
  grows h := by
    obtain ⟨a, middle, hstep, hnext⟩ := Step.bind_eq_ok.mp h
    obtain ⟨hext, hwell⟩ := hs.grows hstep
    obtain ⟨hext', hwell'⟩ := (hn a).grows hnext
    exact ⟨hext.trans hext', hwell' ∘ hwell⟩
  again h hlater := by
    obtain ⟨a, middle, hstep, hnext⟩ := Step.bind_eq_ok.mp h
    have hmiddle := ((hn a).grows hnext).1.trans hlater
    exact Step.bind_eq_ok.mpr ⟨a, _, hs.again hstep hmiddle, (hn a).again hnext hlater⟩

theorem classRef (name : String) : Repeatable (ConstantPool.classRef name) where
  grows h := ⟨(classRef_eq_ok h).1, (classRef_eq_ok h).2.1⟩
  again h hlater := classRef_of_className? (hlater.className? (classRef_eq_ok h).2.2)

end Repeatable
end ConstantPool
end ClassAssembly

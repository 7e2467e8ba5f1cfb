import ClassAssembly.Hierarchy.Basic
import Mathlib.Algebra.GroupWithZero.Nat
import Mathlib.Data.List.Basic
import Mathlib.Logic.Relation

/-! The search for a supertype, turn by turn. Names wait to be visited, some of them more than once,
and in whatever order they are taken the search comes to an end: a name brings in its parents only
when it is seen for the first time. What it answers is what the declarations lead to, on cycles as
elsewhere. -/
namespace ClassAssembly

open Relation (ReflTransGen)

namespace Hierarchy

variable {g : Hierarchy} {start target a b : ClassName}

/-- `b` is declared as the superclass or an interface of `a`. -/
def Parent (g : Hierarchy) (a b : ClassName) : Prop := b ∈ g.parents a

/-- One step up the declarations: to an interface, to the superclass, and from a class that was never
registered to `java/lang/Object`. -/
inductive Declares (g : Hierarchy) : ClassName → ClassName → Prop
  | interface {name interface : ClassName} {declaration : ClassDeclaration}
      (h : g.get? name = some declaration) (hmem : interface ∈ declaration.interfaces) :
      Declares g name interface
  | superclass {name superclass : ClassName} {declaration : ClassDeclaration}
      (h : g.get? name = some declaration) (hsuper : declaration.superclass = some superclass) :
      Declares g name superclass
  | unregistered {name : ClassName} (h : g.get? name = none) (hname : name ≠ .object) :
      Declares g name .object

lemma declares_iff : g.Declares a b ↔ g.Parent a b := by
  rw [Parent, parents]
  constructor
  · intro h
    cases h with
    | interface h hmem => simp [h, hmem]
    | superclass h hsuper => simp [h, hsuper]
    | unregistered h hname => simp [h, hname]
  · intro h
    split at h
    · rename_i declaration hget
      rcases List.mem_append.mp h with hmem | hmem
      · exact .interface hget hmem
      · exact .superclass hget (Option.mem_toList.mp hmem)
    · rename_i hget
      split at h
      · cases h
      · rename_i hname
        rw [List.mem_singleton.mp h]
        exact .unregistered hget hname

/-- A search under way: the names seen so far, and those that wait to be visited. -/
structure SupertypeSearch where
  seen : List ClassName
  waiting : List ClassName

namespace SupertypeSearch

/-- One turn takes a name that waits, whichever it is, and finds that it is not the target. A name
that was seen before is dropped, and for a new one its parents wait as well. -/
inductive Turn (g : Hierarchy) (target : ClassName) : SupertypeSearch → SupertypeSearch → Prop
  | again {seen waiting rest : List ClassName} {name : ClassName}
      (htake : waiting.Perm (name :: rest)) (hname : name ≠ target) (hseen : name ∈ seen) :
      Turn g target ⟨seen, waiting⟩ ⟨seen, rest⟩
  | visit {seen waiting rest next : List ClassName} {name : ClassName}
      (htake : waiting.Perm (name :: rest)) (hname : name ≠ target) (hnew : name ∉ seen)
      (hnext : next.Perm (g.parents name ++ rest)) :
      Turn g target ⟨seen, waiting⟩ ⟨name :: seen, next⟩

/-- The search ends when it takes the target, and when nothing waits any more. -/
inductive Answers (target : ClassName) : SupertypeSearch → Bool → Prop
  | found {seen waiting : List ClassName} (h : target ∈ waiting) :
      Answers target ⟨seen, waiting⟩ true
  | exhausted {seen : List ClassName} : Answers target ⟨seen, []⟩ false

variable {s s' : SupertypeSearch}

section Termination

lemma weight_eq_of_perm {names names' : List ClassName} (h : names.Perm names') :
    g.weight names = g.weight names' := by
  induction h with
  | nil => rfl
  | cons name _ ih =>
    simp only [weight, List.map_cons, List.foldr_cons] at ih ⊢
    rw [ih]
  | swap name name' names =>
    simp only [weight, List.map_cons, List.foldr_cons]
    omega
  | trans _ _ ih ih' => exact ih.trans ih'

/-- What is left to do at most: names seen for the first time may still bring in their parents. -/
def effort (g : Hierarchy) (s : SupertypeSearch) : Nat :=
  g.debt s.seen g.classes + g.weight s.waiting

lemma Turn.effort_lt (h : Turn g target s s') : s'.effort g < s.effort g := by
  cases h with
  | again htake =>
    rw [effort, effort, weight_eq_of_perm htake]
    exact Nat.add_lt_add_left (g.weight_cons_pos _ _) _
  | visit htake _ hnew hnext =>
    rw [effort, effort, weight_eq_of_perm htake, weight_eq_of_perm hnext]
    exact g.debt_add_weight_parents_lt hnew _

/-- A search has no more turns than it has left to do. -/
lemma length_le_effort {states : List SupertypeSearch}
    (h : List.IsChain (Turn g target) (s :: states)) : states.length ≤ s.effort g := by
  induction states generalizing s with
  | nil => exact Nat.zero_le _
  | cons s' states ih =>
    obtain ⟨hturn, hrest⟩ := List.isChain_cons_cons.mp h
    exact Nat.succ_le_of_lt (Nat.lt_of_le_of_lt (ih hrest) hturn.effort_lt)

lemma weight_le (names : List ClassName) : g.weight names ≤ 2 * names.length := by
  induction names with
  | nil => exact Nat.le_refl _
  | cons name names ih =>
    simp only [weight, List.map_cons, List.foldr_cons, List.length_cons] at ih ⊢
    split <;> omega

lemma debt_nil_le (entries : List (ClassName × ClassDeclaration)) :
    g.debt [] entries ≤ 2 * (entries.map fun entry => (g.parents entry.1).length).sum := by
  induction entries with
  | nil => exact Nat.le_refl _
  | cons entry entries ih =>
    have hparents := weight_le (g := g) (g.parents entry.1)
    simp only [debt, List.map_cons, List.foldr_cons, List.sum_cons, List.not_mem_nil,
      if_false] at ih ⊢
    omega

lemma effort_start_le (start : ClassName) : effort g ⟨[], [start]⟩ ≤
    2 * ((g.classes.map fun entry => (g.parents entry.1).length).sum + 1) := by
  have hdebt := debt_nil_le (g := g) g.classes
  have hweight := weight_le (g := g) [start]
  simp only [effort, List.length_singleton] at hweight ⊢
  omega

end Termination

/-- What a search that began with one name knows: what waits lies above that name, and above a name
that was seen lies nothing but what was seen or waits. -/
structure Account (g : Hierarchy) (start target : ClassName) (s : SupertypeSearch) : Prop where
  reached : ∀ name ∈ s.waiting, ReflTransGen g.Parent start name
  passed : ∀ name ∈ s.seen, name ≠ target ∧
    ∀ parent, g.Parent name parent → parent ∈ s.seen ∨ parent ∈ s.waiting
  begun : start ∈ s.seen ∨ start ∈ s.waiting

namespace Account

lemma initial : Account g start target ⟨[], [start]⟩ := by
  refine ⟨fun name hname => ?_, fun _ hname => (by cases hname), .inr List.mem_cons_self⟩
  rw [List.mem_singleton.mp hname]

/-- By cases on the turn: a name that is taken was seen before or is from now on, so no name is
lost. -/
theorem turn (h : Account g start target s) (hturn : Turn g target s s') :
    Account g start target s' := by
  cases hturn with
  | @again seen waiting rest name htake hname hseen =>
    have hkept : ∀ other, other ∈ seen ∨ other ∈ waiting → other ∈ seen ∨ other ∈ rest := by
      rintro other (hother | hother)
      · exact .inl hother
      · rcases List.mem_cons.mp (htake.mem_iff.mp hother) with rfl | hother
        · exact .inl hseen
        · exact .inr hother
    refine ⟨fun other hother => h.reached other ?_, fun other hother => ?_, hkept _ h.begun⟩
    · exact htake.mem_iff.mpr (List.mem_cons_of_mem _ hother)
    · obtain ⟨hne, hparents⟩ := h.passed other hother
      exact ⟨hne, fun parent hparent => hkept parent (hparents parent hparent)⟩
  | @visit seen waiting rest next name htake hname hnew hnext =>
    have htaken : ReflTransGen g.Parent start name :=
      h.reached name (htake.mem_iff.mpr List.mem_cons_self)
    have hkept : ∀ other, other ∈ seen ∨ other ∈ waiting → other ∈ name :: seen ∨ other ∈ next := by
      rintro other (hother | hother)
      · exact .inl (List.mem_cons_of_mem _ hother)
      · rcases List.mem_cons.mp (htake.mem_iff.mp hother) with rfl | hother
        · exact .inl List.mem_cons_self
        · exact .inr (hnext.mem_iff.mpr (List.mem_append_right _ hother))
    refine ⟨fun other hother => ?_, fun other hother => ?_, hkept _ h.begun⟩
    · rcases List.mem_append.mp (hnext.mem_iff.mp hother) with hparent | hother
      · exact htaken.tail hparent
      · exact h.reached other (htake.mem_iff.mpr (List.mem_cons_of_mem _ hother))
    · rcases List.mem_cons.mp hother with rfl | hother
      · exact ⟨hname, fun parent hparent =>
          .inr (hnext.mem_iff.mpr (List.mem_append_left _ hparent))⟩
      · obtain ⟨hne, hparents⟩ := h.passed other hother
        exact ⟨hne, fun parent hparent => hkept parent (hparents parent hparent)⟩

theorem run (hrun : ReflTransGen (Turn g target) ⟨[], [start]⟩ s) : Account g start target s := by
  induction hrun with
  | refl => exact initial
  | tail _ hturn ih => exact ih.turn hturn

/-- A search that answers is right. -/
theorem answer {result : Bool} (h : Account g start target s) (hanswer : Answers target s result) :
    result = true ↔ ReflTransGen g.Parent start target := by
  cases hanswer with
  | found hmem => exact ⟨fun _ => h.reached target hmem, fun _ => rfl⟩
  | @exhausted seen =>
    refine ⟨fun hfalse => (by cases hfalse), fun hpath => ?_⟩
    -- What was seen is closed under parents now, and so holds all that is above the start.
    have hseen : ∀ name, ReflTransGen g.Parent start name → name ∈ seen := by
      intro name hname
      induction hname with
      | refl => exact h.begun.resolve_right List.not_mem_nil
      | tail _ hstep ih => exact ((h.passed _ ih).2 _ hstep).resolve_right List.not_mem_nil
    exact absurd rfl (h.passed target (hseen target hpath)).1

end Account

/-- From every state there are turns that lead to an answer: those that take the first name that
waits. -/
lemma exists_answer (g : Hierarchy) (target : ClassName) (seen waiting : List ClassName) :
    ∃ s, ReflTransGen (Turn g target) ⟨seen, waiting⟩ s ∧
      Answers target s (g.reaches target seen waiting) := by
  fun_induction reaches g target seen waiting with
  | case1 seen => exact ⟨_, .refl, .exhausted⟩
  | case2 seen rest => exact ⟨_, .refl, .found List.mem_cons_self⟩
  | case3 seen name rest hname hseen ih =>
    obtain ⟨s, hrun, hanswer⟩ := ih
    exact ⟨s, .head (.again (.refl _) hname hseen) hrun, hanswer⟩
  | case4 seen name rest hname hnew ih =>
    obtain ⟨s, hrun, hanswer⟩ := ih
    exact ⟨s, .head (.visit (.refl _) hname hnew (.refl _)) hrun, hanswer⟩

end SupertypeSearch

open SupertypeSearch

/-- The search for an interface follows the declarations, cycles or not. -/
theorem implements_iff : g.implements a b = true ↔ ReflTransGen g.Parent a b := by
  obtain ⟨s, hrun, hanswer⟩ := exists_answer g b [] [a]
  exact (Account.run hrun).answer hanswer

/-- A class implements what it leads to in any number of steps up the declarations, and nothing else.
The search ends on every hierarchy: in whatever order the names that wait are taken, there are at most
two turns for each parent that is declared and two for the class itself, the search can always go on
until it answers, and whenever it answers, it gives this answer. -/
theorem implements_exact (g : Hierarchy) (name target : ClassName) :
    (g.implements name target = true ↔ ReflTransGen g.Declares name target) ∧
      (∀ states, List.IsChain (Turn g target) (⟨[], [name]⟩ :: states) →
        states.length ≤ 2 * ((g.classes.map fun entry => (g.parents entry.1).length).sum + 1)) ∧
      ∀ s, ReflTransGen (Turn g target) ⟨[], [name]⟩ s →
        (∃ s' result, ReflTransGen (Turn g target) s s' ∧ Answers target s' result) ∧
          ∀ result, Answers target s result → result = g.implements name target := by
  refine ⟨?_, fun states hchain => ?_, fun s hrun => ⟨?_, fun result hanswer => ?_⟩⟩
  · have hsame : g.Declares = g.Parent := by
      funext a b
      exact propext declares_iff
    rw [hsame, implements_iff]
  · exact Nat.le_trans (length_le_effort hchain) (effort_start_le name)
  · obtain ⟨s', hlater, hanswer⟩ := exists_answer g target s.seen s.waiting
    exact ⟨s', _, hlater, hanswer⟩
  · rw [Bool.eq_iff_iff, implements_iff]
    exact (Account.run hrun).answer hanswer

/-- Two interfaces that extend each other. -/
example : (library.add "me/Left" (.interface ["me/Right"])
    |>.add "me/Right" (.interface ["me/Left"])).implements "me/Left" "me/Other" = false := by
  decide +kernel

end Hierarchy
end ClassAssembly

import ClassAssembly.Proofs.LaidCode
import Mathlib.Data.List.Perm.Basic

/-! Labels that are bound to one place one after the other. Which one is first matters only where
control does not come from the code before: a label without a depth then takes over the depth that
the code before left, and a label with another depth cannot be bound to that place any more. -/
namespace ClassAssembly

namespace Code

open CodeDraft (write)

/-- Writes to different places can be made in any order. -/
lemma write_comm {code : Array UInt8} {p q : Nat} {xs ys : Bytes}
    (h : p + xs.length ≤ q ∨ q + ys.length ≤ p) :
    write (write code p xs) q ys = write (write code q ys) p xs := by
  refine Array.ext_getElem? fun i => ?_
  simp only [getElem?_write, CodeDraft.size_write]
  by_cases hp : p ≤ i ∧ i < p + xs.length ∧ i < code.size
  · rw [if_pos hp, if_neg (by omega), if_pos hp]
  · rw [if_neg hp, if_neg hp]

lemma redirected_append (code : Array UInt8) (target : Nat) (sources later : List Nat) :
    redirected code target (sources ++ later) =
      redirected (redirected code target sources) target later :=
  List.foldl_append

/-- Branches that share no byte can be redirected in any order. -/
lemma redirected_perm {sources sources' : List Nat} (hperm : sources.Perm sources')
    (hapart : ∀ s ∈ sources, ∀ s' ∈ sources, s < s' → s + 3 ≤ s') (code : Array UInt8)
    (target : Nat) : redirected code target sources = redirected code target sources' := by
  refine hperm.foldl_eq' (fun s hs s' hs' code => ?_) code
  have hlength : ∀ value : Int, (Bytes.signed 2 value).length = 2 := Bytes.length_signed 2
  rcases Nat.lt_trichotomy s s' with hlt | rfl | hgt
  · refine write_comm (.inl ?_)
    have hend := hapart s hs s' hs' hlt
    rw [hlength]
    omega
  · rfl
  · refine write_comm (.inr ?_)
    have hend := hapart s' hs' s hs hgt
    rw [hlength]
    omega

end Code

namespace CodeDraft

open Step (bind_eq_ok)

variable {b b' : CodeDraft} {label : Label} {pending : List Nat}

/-- Branches in the code that are in reach can be patched. -/
lemma patch_of_inReach {target : Nat} {sources : List Nat}
    (h : ∀ s ∈ sources, inReach target s = true) (hinside : ∀ s ∈ sources, s + 3 ≤ b.code.size) :
    (patch target sources).outcome b = (.ok (), b.redirecting target sources) := by
  induction sources generalizing b with
  | nil => simp [patch, redirecting, Code.redirected]
  | cons source rest ih =>
    have hfits := of_decide_eq_true (h source List.mem_cons_self)
    have hdistance : branchDistance source target = .ok ((target : Int) - source) := by
      simp [branchDistance, hfits]
    rw [List.forall_mem_cons] at hinside
    have hwrite : (overwrite (source + 1) (Bytes.signed 2 ((target : Int) - source))).outcome b =
        (.ok (), { b with
          code := write b.code (source + 1) (Bytes.signed 2 ((target : Int) - source)) }) := by
      have hend : ¬b.code.size < source + 1 + 2 := Nat.not_lt.mpr hinside.1
      rw [overwrite, Step.outcome_ofOutcome, Bytes.length_signed, if_neg hend]
    refine bind_eq_ok.mpr ⟨(target : Int) - source, b, by rw [hdistance]; rfl, ?_⟩
    refine bind_eq_ok.mpr ⟨(), _, hwrite, bind_eq_ok.mpr ⟨(), _, rfl, ?_⟩⟩
    rw [ih fun s hs => h s (List.mem_cons_of_mem _ hs)]
    · simp [redirecting, Code.redirected]
    · simpa using hinside.2

/-- The depth at the place where a label is bound. -/
def landingDepth (b : CodeDraft) (label : Label) : Nat :=
  if b.reachable then b.depth else (b.depthAt? label).getD b.depth

lemma landingDepth_of_reachable (h : b.reachable = true) : b.landingDepth label = b.depth :=
  if_pos h

lemma landingDepth_of_unreached (h : b.reachable = false) :
    b.landingDepth label = (b.depthAt? label).getD b.depth := by
  rw [landingDepth, h, if_neg Bool.false_ne_true]

/-- When a label can be bound, and what that gives. -/
lemma bindLabel_iff (hlabel : b.binding label = some (none, pending))
    (hinside : ∀ s ∈ pending, s + 3 ≤ b.code.size) :
    (bindLabel label).outcome b = (.ok (), b') ↔
      (b.reachable = true → ∀ depth, b.depthAt? label = some depth → depth = b.depth) ∧
        (∀ s ∈ pending, inReach b.code.size s = true) ∧
        b' = b.landing label (b.landingDepth label) pending := by
  obtain ⟨state, hstate, hpair⟩ := Option.map_eq_some_iff.mp hlabel
  obtain ⟨hoffset, rfl⟩ := Prod.mk.inj hpair
  rw [landingDepth, depthAt?_of_getElem? hstate]
  constructor
  · intro h
    obtain ⟨_, hbinds⟩ := bindLabel_eq_ok h
    obtain ⟨state', hstate', _, hagree, hb'⟩ := bindLabel_eq h
    rw [hstate] at hstate'
    cases hstate'
    refine ⟨hagree, fun s hs => decide_eq_true (hbinds.fits s ?_), hb'⟩
    rwa [hbinds.pending_eq hstate]
  · rintro ⟨hagree, hreach, rfl⟩
    have hstatus : (labelStatus label).outcome b = (.ok state, b) :=
      bind_eq_ok.mpr ⟨b, b, rfl, by rw [hstate]; rfl⟩
    have hpatch : ∀ s ∈ state.pending.reverse, inReach b.code.size s = true := by simpa using hreach
    -- The end of binding a label, where the depth has been found to agree.
    have hend : ∀ depth : Nat,
        (modify (fun b => { b with depth, reachable := true }) >>= fun _ =>
          setLabel label ⟨some b.code.size, some depth, []⟩ >>= fun _ =>
            patch b.code.size state.pending.reverse).outcome b =
          (.ok (), b.landing label depth state.pending) := fun depth =>
      bind_eq_ok.mpr ⟨(), _, rfl, bind_eq_ok.mpr ⟨(), _, rfl,
        patch_of_inReach hpatch (by simpa using hinside)⟩⟩
    refine bind_eq_ok.mpr ⟨state, b, hstatus, ?_⟩
    simp only [hoffset, Option.isSome_none, Bool.false_eq_true, if_false]
    refine bind_eq_ok.mpr ⟨b, b, rfl, ?_⟩
    split
    · rename_i hreachable
      split
      · rename_i expected hdepth
        have hsame := hagree hreachable expected hdepth
        rw [if_neg (by simp [hsame])]
        exact hend _
      · exact hend _
    · exact hend _

section Both

variable {first second : Label} {later : List Nat}

/-- Binds two labels to the end of the code. -/
def bindBoth (first second : Label) : Step CodeDraft Unit := do
  bindLabel first
  bindLabel second

/-- The depths of two labels allow the first one to be bound, and then the second one. -/
def AgreeInTurn (b : CodeDraft) (first second : Label) : Prop :=
  (b.reachable = true → ∀ depth, b.depthAt? first = some depth → depth = b.depth) ∧
    ∀ depth, b.depthAt? second = some depth → depth = b.landingDepth first

lemma bindBoth_iff (hne : first ≠ second) (hfirst : b.binding first = some (none, pending))
    (hsecond : b.binding second = some (none, later))
    (hinside : ∀ s ∈ pending ++ later, s + 3 ≤ b.code.size) :
    (bindBoth first second).outcome b = (.ok (), b') ↔
      b.AgreeInTurn first second ∧ (∀ s ∈ pending ++ later, inReach b.code.size s = true) ∧
        b' = (b.landing first (b.landingDepth first) pending).landing second
          (b.landingDepth first) later := by
  obtain ⟨state, hstate, _⟩ := Option.map_eq_some_iff.mp hfirst
  -- Binding the first label leaves all but the depth of the draft alone.
  have hsize : (b.landing first (b.landingDepth first) pending).code.size = b.code.size :=
    size_redirected _ _ _
  have hdepthAt : (b.landing first (b.landingDepth first) pending).depthAt? second =
      b.depthAt? second := by
    rw [depthAt?_landing hstate, Function.update_of_ne (Ne.symm hne)]
  have hbinding : (b.landing first (b.landingDepth first) pending).binding second =
      some (none, later) := by
    refine (congrFun (binding_setLabel _ hstate) second).trans ?_
    rwa [Function.update_of_ne (Ne.symm hne)]
  obtain ⟨hinside, hinside'⟩ := List.forall_mem_append.mp hinside
  have hnext := fun b' => @bindLabel_iff _ b' _ _ hbinding (hsize.symm ▸ hinside')
  simp only [hsize, hdepthAt] at hnext
  constructor
  · intro h
    obtain ⟨_, b₁, hbind, h⟩ := bind_eq_ok.mp h
    obtain ⟨hagree, hreach, rfl⟩ := (bindLabel_iff hfirst hinside).mp hbind
    obtain ⟨hagree', hreach', rfl⟩ := (hnext b').mp h
    refine ⟨⟨hagree, hagree' rfl⟩, fun s hs => ?_, rfl⟩
    exact (List.mem_append.mp hs).elim (hreach s) (hreach' s)
  · rintro ⟨⟨hagree, hagree'⟩, hreach, rfl⟩
    refine bind_eq_ok.mpr ⟨(), _, (bindLabel_iff hfirst hinside).mpr
      ⟨hagree, fun s hs => hreach s (List.mem_append_left _ hs), rfl⟩, ?_⟩
    exact (hnext _).mpr ⟨fun _ => hagree', fun s hs => hreach s (List.mem_append_right _ hs), rfl⟩

lemma bindBoth_ok_iff (hne : first ≠ second) (hfirst : b.binding first = some (none, pending))
    (hsecond : b.binding second = some (none, later))
    (hinside : ∀ s ∈ pending ++ later, s + 3 ≤ b.code.size) :
    ((bindBoth first second).outcome b).1 = .ok () ↔
      b.AgreeInTurn first second ∧ ∀ s ∈ pending ++ later, inReach b.code.size s = true := by
  constructor
  · intro h
    obtain ⟨hagree, hreach, _⟩ := (bindBoth_iff hne hfirst hsecond hinside).mp (Prod.ext h rfl)
    exact ⟨hagree, hreach⟩
  · rintro ⟨hagree, hreach⟩
    rw [(bindBoth_iff hne hfirst hsecond hinside).mpr ⟨hagree, hreach, rfl⟩]

/-- Control does not come to the end of the code. A label without a depth would take over the depth
of the code before, and hide that another label has a different one. -/
def Hides (b : CodeDraft) (first second : Label) : Prop :=
  b.reachable = false ∧ b.depthAt? first = none ∧
    ∃ depth, b.depthAt? second = some depth ∧ depth ≠ b.depth

lemma agreeInTurn_swap (hhides : ¬b.Hides second first) (h : b.AgreeInTurn first second) :
    b.AgreeInTurn second first := by
  obtain ⟨hfirst, hsecond⟩ := h
  constructor
  · intro hreachable depth hdepth
    rw [hsecond depth hdepth, landingDepth_of_reachable hreachable]
  · intro depth hdepth
    cases hreachable : b.reachable with
    | true => rw [landingDepth_of_reachable hreachable, hfirst hreachable depth hdepth]
    | false =>
      rw [landingDepth_of_unreached hreachable] at hsecond ⊢
      cases hother : b.depthAt? second with
      | none =>
        by_contra hne
        exact hhides ⟨hreachable, hother, depth, hdepth, hne⟩
      | some other =>
        have hsame := hsecond other hother
        rw [hdepth, Option.getD_some] at hsame
        exact hsame.symm

/-- Labels that can be bound in either order are bound with the same depth. -/
lemma landingDepth_eq (h : b.AgreeInTurn first second) (h' : b.AgreeInTurn second first) :
    b.landingDepth first = b.landingDepth second := by
  cases hreachable : b.reachable with
  | true => rw [landingDepth_of_reachable hreachable, landingDepth_of_reachable hreachable]
  | false =>
    cases hfirst : b.depthAt? first with
    | some depth =>
      rw [← h'.2 depth hfirst, landingDepth_of_unreached hreachable, hfirst, Option.getD_some]
    | none =>
      cases hsecond : b.depthAt? second with
      | some depth =>
        rw [← h.2 depth hsecond, landingDepth_of_unreached hreachable, hsecond, Option.getD_some]
      | none => simp only [landingDepth_of_unreached hreachable, hfirst, hsecond]

/-- A label that hides the depth of another one must not be bound before it, but may be after it. -/
lemma agreeInTurn_of_hides (h : b.Hides first second) :
    ¬b.AgreeInTurn first second ∧ b.AgreeInTurn second first := by
  obtain ⟨hreachable, hfirst, depth, hsecond, hne⟩ := h
  constructor
  · rintro ⟨_, hagree⟩
    have hsame := hagree depth hsecond
    rw [landingDepth_of_unreached hreachable, hfirst, Option.getD_none] at hsame
    exact hne hsame
  · constructor
    · intro htrue
      rw [hreachable] at htrue
      cases htrue
    · intro other hother
      rw [hfirst] at hother
      cases hother

/-- The draft after two labels have been bound to its end. -/
lemma landing_landing (depth : Nat) (pending later : List Nat) :
    (b.landing first depth pending).landing second depth later =
      (({ b with depth, reachable := true }.relabelled first ⟨some b.code.size, some depth, []⟩
        ).relabelled second ⟨some b.code.size, some depth, []⟩).redirecting b.code.size
          (pending.reverse ++ later.reverse) := by
  simp [landing, relabelled, redirecting, Code.redirected_append]

/-- Labels that are bound with one depth leave the same draft in either order, but for the order of
the jumps. -/
lemma landing_comm {items : List (Nat × Instruction)} (hlaid : Laid items b) (h : b.Anchored)
    (hne : first ≠ second) (hfirst : b.binding first = some (none, pending))
    (hsecond : b.binding second = some (none, later)) (depth : Nat) :
    let b₁ := (b.landing first depth pending).landing second depth later
    let b₂ := (b.landing second depth later).landing first depth pending
    b₁.facts.jumps.toList.Perm b₂.facts.jumps.toList ∧
      b₂ = { b₁ with facts := ⟨b₂.facts.jumps, b₁.facts.blockStarts⟩ } := by
  intro b₁ b₂
  have hperm : (pending.reverse ++ later.reverse).Perm (later.reverse ++ pending.reverse) :=
    List.perm_append_comm
  have hwaits : ∀ s ∈ pending.reverse ++ later.reverse, ∃ label, Waits b label s := by
    intro s hs
    rcases List.mem_append.mp hs with hs | hs
    · exact ⟨first, none, pending, hfirst, List.mem_reverse.mp hs⟩
    · exact ⟨second, none, later, hsecond, List.mem_reverse.mp hs⟩
  have hcode : Code.redirected b.code b.code.size (pending.reverse ++ later.reverse) =
      Code.redirected b.code b.code.size (later.reverse ++ pending.reverse) := by
    refine Code.redirected_perm hperm (fun s hs s' hs' hlt => ?_) _ _
    obtain ⟨_, hwait⟩ := hwaits s hs
    obtain ⟨_, hwait'⟩ := hwaits s' hs'
    exact h.apart hlaid hwait hwait' hlt
  have hb₁ : b₁ = _ := landing_landing depth pending later
  have hb₂ : b₂ = _ := landing_landing depth later pending
  rw [hb₁, hb₂]
  constructor
  · have hjumps := (hperm.map fun source => (source, (b.code.size : Int))).append_left
      b.facts.jumps.toList
    simpa [redirecting, relabelled] using hjumps
  · simp [redirecting, relabelled, hcode, Array.setIfInBounds_comm _ _ hne]

end Both

/-- Two labels are bound to one place in either order or in none, and then with the same result,
unless one of them hides the depth of the other: that one can only be bound last. -/
theorem bindBoth_order {ops : List DraftOperation} (hrange : ∀ op ∈ ops, op.Encodable)
    (hrun : (ops.forM DraftOperation.run).outcome .empty = (.ok (), b)) {first second : Label}
    {pending later : List Nat} (hne : first ≠ second)
    (hfirst : b.binding first = some (none, pending))
    (hsecond : b.binding second = some (none, later)) :
    (¬b.Hides first second → ¬b.Hides second first →
      (((bindBoth first second).outcome b).1 = .ok () ↔
        ((bindBoth second first).outcome b).1 = .ok ())) ∧
    (b.Hides first second → ((bindBoth first second).outcome b).1 ≠ .ok () ∧
      (((bindBoth second first).outcome b).1 = .ok () ↔
        ∀ s ∈ pending ++ later, inReach b.code.size s = true)) ∧
    ∀ b₁ b₂, (bindBoth first second).outcome b = (.ok (), b₁) →
      (bindBoth second first).outcome b = (.ok (), b₂) →
      b₁.facts.jumps.toList.Perm b₂.facts.jumps.toList ∧
        b₂ = { b₁ with facts := ⟨b₂.facts.jumps, b₁.facts.blockStarts⟩ } := by
  obtain ⟨items, hlaid, hanchored⟩ := Laid.empty.run .empty hrange hrun
  have hinside : ∀ s ∈ pending ++ later, s + 3 ≤ b.code.size := by
    intro s hs
    rcases List.mem_append.mp hs with hs | hs
    · exact hanchored.inside hlaid ⟨none, pending, hfirst, hs⟩
    · exact hanchored.inside hlaid ⟨none, later, hsecond, hs⟩
  have hinside' : ∀ s ∈ later ++ pending, s + 3 ≤ b.code.size :=
    fun s hs => hinside s (List.perm_append_comm.mem_iff.mp hs)
  have hreach : (∀ s ∈ later ++ pending, inReach b.code.size s = true) ↔
      ∀ s ∈ pending ++ later, inReach b.code.size s = true := by
    simp only [List.mem_append, or_comm]
  have hturns := bindBoth_ok_iff hne hfirst hsecond hinside
  have hturns' := bindBoth_ok_iff (Ne.symm hne) hsecond hfirst hinside'
  rw [hreach] at hturns'
  refine ⟨fun hshown hshown' => ?_, fun hhides => ?_, fun b₁ b₂ h₁ h₂ => ?_⟩
  · rw [hturns, hturns']
    exact and_congr_left' ⟨agreeInTurn_swap hshown', agreeInTurn_swap hshown⟩
  · obtain ⟨hnot, hturn⟩ := agreeInTurn_of_hides hhides
    exact ⟨fun h => hnot (hturns.mp h).1, hturns'.trans (and_iff_right hturn)⟩
  · obtain ⟨hturn, _, rfl⟩ := (bindBoth_iff hne hfirst hsecond hinside).mp h₁
    obtain ⟨hturn', _, rfl⟩ := (bindBoth_iff (Ne.symm hne) hsecond hfirst hinside').mp h₂
    rw [← landingDepth_eq hturn hturn']
    exact landing_comm hlaid hanchored hne hfirst hsecond _

/-- Two branches wait where the code before does not go on. -/
def forkedReturn : List DraftOperation := [
  .newLabel, .newLabel,
  .emit .iconst0 [],
  .jump .ifeq (.label 0),
  .emit .iconst0 [],
  .jump .ifeq (.label 1),
  .emit .iconst0 [],
  .emit .returnVoid []]

def forkedReturnDraft : CodeDraft := ((forkedReturn.forM DraftOperation.run).outcome .empty).2

theorem forkedReturn_order :
    (∀ op ∈ forkedReturn, op.Encodable) ∧
      (forkedReturn.forM DraftOperation.run).outcome .empty = (.ok (), forkedReturnDraft) ∧
      (0 : Label) ≠ 1 ∧ forkedReturnDraft.binding 0 = some (none, [1]) ∧
      forkedReturnDraft.binding 1 = some (none, [5]) ∧
      ¬forkedReturnDraft.Hides 0 1 ∧ ¬forkedReturnDraft.Hides 1 0 ∧
      ((bindBoth 1 0).outcome forkedReturnDraft).1 = .ok () ∧
      ∃ b₁ b₂, (bindBoth 0 1).outcome forkedReturnDraft = (.ok (), b₁) ∧
        (bindBoth 1 0).outcome forkedReturnDraft = (.ok (), b₂) ∧
        b₁.facts.jumps = #[(1, 10), (5, 10)] ∧ b₂.facts.jumps = #[(5, 10), (1, 10)] ∧
        b₁.facts.jumps.toList.Perm b₂.facts.jumps.toList ∧
        b₂ = { b₁ with facts := ⟨b₂.facts.jumps, b₁.facts.blockStarts⟩ } := by
  have hrange : ∀ op ∈ forkedReturn, op.Encodable := by decide +kernel
  have hok : ((forkedReturn.forM DraftOperation.run).outcome .empty).1 = .ok () := by
    decide +kernel
  have hrun : (forkedReturn.forM DraftOperation.run).outcome .empty =
      (.ok (), forkedReturnDraft) :=
    Prod.ext hok (by rw [forkedReturnDraft])
  have hfirst : forkedReturnDraft.binding 0 = some (none, [1]) := by decide +kernel
  have hsecond : forkedReturnDraft.binding 1 = some (none, [5]) := by decide +kernel
  have hshown : ¬forkedReturnDraft.Hides 0 1 := fun h => absurd h.2.1 (by decide +kernel)
  have hshown' : ¬forkedReturnDraft.Hides 1 0 := fun h => absurd h.2.1 (by decide +kernel)
  have hbinds : ((bindBoth 0 1).outcome forkedReturnDraft).1 = .ok () := by decide +kernel
  obtain ⟨heither, _, hsame⟩ :=
    bindBoth_order hrange hrun (by decide : (0 : Label) ≠ 1) hfirst hsecond
  have hbinds' := (heither hshown hshown').mp hbinds
  have hjumps : ((bindBoth 0 1).outcome forkedReturnDraft).2.facts.jumps = #[(1, 10), (5, 10)] := by
    decide +kernel
  have hjumps' : ((bindBoth 1 0).outcome forkedReturnDraft).2.facts.jumps =
      #[(5, 10), (1, 10)] := by
    decide +kernel
  refine ⟨hrange, hrun, by decide, hfirst, hsecond, hshown, hshown', hbinds', ?_⟩
  rcases h₁ : (bindBoth 0 1).outcome forkedReturnDraft with ⟨result, b₁⟩
  rcases h₂ : (bindBoth 1 0).outcome forkedReturnDraft with ⟨result', b₂⟩
  rw [h₁] at hbinds hjumps
  rw [h₂] at hbinds' hjumps'
  obtain rfl : result = .ok () := hbinds
  obtain rfl : result' = .ok () := hbinds'
  exact ⟨b₁, b₂, rfl, rfl, hjumps, hjumps', hsame b₁ b₂ h₁ h₂⟩

/-- A branch waits with another depth than the code before has left. -/
def hiddenDepth : List DraftOperation := [
  .newLabel, .newLabel,
  .emit .iconst0 [],
  .jump .ifeq (.label 1),
  .emit .iconst0 [],
  .emit .returnVoid []]

def hiddenDepthDraft : CodeDraft := ((hiddenDepth.forM DraftOperation.run).outcome .empty).2

theorem binding_order_matters :
    ((hiddenDepth.forM DraftOperation.run).outcome .empty).1 = .ok () ∧
      hiddenDepthDraft.binding 0 = some (none, []) ∧
      hiddenDepthDraft.binding 1 = some (none, [1]) ∧
      ((bindBoth 0 1).outcome hiddenDepthDraft).1 = .error (.inconsistentDepth 1 0 1) ∧
      ((bindBoth 1 0).outcome hiddenDepthDraft).1 = .ok () := by
  decide +kernel

end CodeDraft
end ClassAssembly

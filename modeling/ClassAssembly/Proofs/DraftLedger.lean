import ClassAssembly.Proofs.DraftOperations

/-! What the operations on a draft keep account of beside its text: the depth of the stack, the
largest depth so far, whether control reaches the end, and the jumps and ends of blocks. -/
namespace ClassAssembly
namespace CodeDraft

open Step (bind_eq_ok)

variable {b b' : CodeDraft} {op : Opcode} {label : Label}

/-- The draft after an instruction that pops and pushes some words. -/
def extended (b : CodeDraft) (bytes : Bytes) (popped pushed : Nat) (flow : Flow) : CodeDraft where
  code := b.code ++ bytes
  depth := b.depth - popped + pushed
  maxStack := max b.maxStack (b.depth - popped + pushed)
  maxLocals := b.maxLocals
  reachable := b.reachable && !flow.isUnconditional
  labels := b.labels
  facts := ⟨b.facts.jumps, if flow.isUnconditional then
    b.facts.blockStarts.push (b.code.size + bytes.length) else b.facts.blockStarts⟩
  switches := b.switches

lemma ends_extended (b : CodeDraft) (bytes : Bytes) (popped pushed : Nat) (flow : Flow) :
    (b.extended bytes popped pushed flow).facts.blockStarts.toList = b.facts.blockStarts.toList ++
      if flow.isUnconditional then [(b.extended bytes popped pushed flow).code.size] else [] := by
  have hsize := Code.size_appendList b.code bytes
  cases hflow : flow.isUnconditional with
  | false => simp [extended, hflow]
  | true => simp [extended, hflow, hsize]

/-- An instruction that pops and pushes so many words keeps the depth within its bounds. -/
def Fits (b : CodeDraft) (popped pushed : Nat) : Prop :=
  popped ≤ b.depth ∧ b.depth - popped + pushed ≤ maxDepth

lemma append_eq {bytes : Bytes} {popped pushed : Nat} {flow : Flow}
    (h : (append op bytes popped pushed flow).outcome b = (.ok (), b')) :
    b.Fits popped pushed ∧ b' = b.extended bytes popped pushed flow := by
  simp only [append, Step.outcome_ofOutcome] at h
  split at h
  · cases h
  · rename_i hdepth
    split at h
    · cases h
    · split at h
      · cases h
      · rename_i hafter
        have hfits : b.Fits popped pushed := ⟨Nat.le_of_not_lt hdepth, Nat.le_of_not_lt hafter⟩
        split at h
        · rename_i hflow
          cases h
          exact ⟨hfits, by simp [extended, hflow]⟩
        · rename_i hflow
          cases h
          exact ⟨hfits, by simp [extended, hflow]⟩

lemma setDepthAt_eq {offset depth : Nat} (h : (setDepthAt offset depth).outcome b = (.ok (), b')) :
    b' = { b with depth, maxStack := max b.maxStack depth } := by
  rw [setDepthAt, Step.outcome_ofOutcome] at h
  split at h
  · cases h
  · cases h
    rfl

lemma setDepth_eq {depth : Int} (h : (setDepth depth).outcome b = (.ok (), b')) :
    b' = { b with depth := depth.toNat, maxStack := max b.maxStack depth.toNat } := by
  obtain ⟨_, _, hget, h⟩ := bind_eq_ok.mp h
  cases hget
  simp only at h
  split at h
  · cases h
  · exact setDepthAt_eq h

lemma useLocals_eq {index words : Nat} (h : (useLocals index words).outcome b = (.ok (), b')) :
    b' = { b with maxLocals := max b.maxLocals (index + words) } := by
  rw [useLocals, Step.outcome_ofOutcome] at h
  split at h
  · cases h
  · cases h
    rfl

/-- The draft after a jump has been recorded. -/
def jumping (b : CodeDraft) (source : Nat) (target : Int) : CodeDraft :=
  { b with facts := { b.facts with jumps := b.facts.jumps.push (source, target) } }

/-- The draft after a label has got another state. -/
def relabelled (b : CodeDraft) (label : Label) (state : LabelStatus) : CodeDraft :=
  { b with labels := b.labels.setIfInBounds label state }

lemma relabelled_self {state : LabelStatus} (h : b.labels[label]? = some state) :
    b.relabelled label state = b := by
  rw [relabelled, setIfInBounds_self h]

lemma getElem?_relabelled {state : LabelStatus} {before : LabelStatus}
    (h : b.labels[label]? = some before) (other : Label) :
    (b.relabelled label state).labels[other]? =
      if other = label then some state else b.labels[other]? := by
  obtain ⟨hlt, _⟩ := Array.getElem?_eq_some_iff.mp h
  rw [relabelled, Array.getElem?_setIfInBounds]
  by_cases heq : label = other
  · rw [if_pos heq, if_pos (heq ▸ hlt), if_pos heq.symm]
  · rw [if_neg heq, if_neg (Ne.symm heq)]

/-- The depth at a label is noted, and must be the one noted before. -/
lemma agreeOnDepth_eq {depth : Nat} (h : (agreeOnDepth label depth).outcome b = (.ok (), b')) :
    ∃ state, b.labels[label]? = some state ∧ (∀ d, state.depth = some d → d = depth) ∧
      b' = b.relabelled label { state with depth := some depth } := by
  obtain ⟨state, _, hstatus, h⟩ := bind_eq_ok.mp h
  obtain ⟨rfl, hstate⟩ := labelStatus_eq_ok hstatus
  refine ⟨state, hstate, ?_⟩
  split at h
  · rename_i expected hdepth
    split at h
    · cases h
    · rename_i hagree
      cases h
      have heq : expected = depth := by simpa using hagree
      subst heq
      refine ⟨fun d hd => ?_, ?_⟩
      · rw [hdepth] at hd
        exact (Option.some.inj hd).symm
      · rw [← hdepth, relabelled_self hstate]
  · rename_i hdepth
    cases h
    refine ⟨fun d hd => ?_, rfl⟩
    rw [hdepth] at hd
    cases hd

/-- A branch to a label agrees with it on the depth, and is recorded or waits. -/
lemma resolve_label_eq {source depth : Nat} {distance : Int}
    (h : (resolve source depth (.label label)).outcome b = (.ok distance, b')) :
    ∃ state, b.labels[label]? = some state ∧ (∀ d, state.depth = some d → d = depth) ∧
      ((∃ target, state.offset = some target ∧
          b' = (b.relabelled label { state with depth := some depth }).jumping source target) ∨
        state.offset = none ∧ b' = b.relabelled label
          { state with depth := some depth, pending := source :: state.pending }) := by
  obtain ⟨_, b₁, hagree, h⟩ := bind_eq_ok.mp h
  obtain ⟨state, hstate, hdepth, rfl⟩ := agreeOnDepth_eq hagree
  refine ⟨state, hstate, hdepth, ?_⟩
  obtain ⟨state₁, _, hstatus, h⟩ := bind_eq_ok.mp h
  obtain ⟨rfl, hstate₁⟩ := labelStatus_eq_ok hstatus
  rw [getElem?_relabelled hstate, if_pos rfl] at hstate₁
  cases hstate₁
  split at h
  · rename_i target hoffset
    obtain ⟨_, b₂, hrecord, h⟩ := bind_eq_ok.mp h
    cases hrecord
    obtain ⟨rfl, _⟩ := Step.ofExcept_eq_ok h
    exact .inl ⟨target, hoffset, rfl⟩
  · rename_i hoffset
    cases h
    exact .inr ⟨hoffset, by simp [relabelled]⟩

lemma resolve_distance_eq {source depth : Nat} {given distance : Int}
    (h : (resolve source depth (.distance given)).outcome b = (.ok distance, b')) :
    b' = b.jumping source (source + given) := by
  cases h
  rfl

/-- A branch takes what its opcode pops. -/
lemma jump_eq {target : BranchTarget} (h : (jump op target).outcome b = (.ok (), b')) :
    ∃ traits popped distance b₁, op.traits = .ok traits ∧ traits.flow.isJump = true ∧
      popped = traits.popped ∧
      (resolve b.code.size (b.depth - popped) target).outcome b = (.ok distance, b₁) ∧
      b₁.Fits popped 0 ∧
      b' = b₁.extended (op.byte :: Bytes.signed 2 distance) popped 0 traits.flow := by
  obtain ⟨traits, _, hofExcept, h⟩ := bind_eq_ok.mp h
  obtain ⟨rfl, htraits⟩ := Step.ofExcept_eq_ok hofExcept
  simp only at h
  split at h
  · cases h
  · rename_i hflow
    obtain ⟨_, _, hget, h⟩ := bind_eq_ok.mp h
    cases hget
    split at h
    · cases h
    · obtain ⟨distance, b₁, hresolve, h⟩ := bind_eq_ok.mp h
      exact ⟨traits, _, distance, b₁, htraits, by simpa using hflow, rfl, hresolve, append_eq h⟩

/-- The draft with more local variables in use. -/
def occupying (b : CodeDraft) (maxLocals : Nat) : CodeDraft := { b with maxLocals }

/-- An instruction has been encoded and appended, with what it pops and pushes. -/
def Emits (b b' : CodeDraft) (op : Opcode) (operands : List Int) (words : Nat × Nat) : Prop :=
  ∃ traits bytes maxLocals, op.traits = .ok traits ∧
    op.encode traits.form (operands[0]?.getD 0) (operands[1]?.getD 0) = .ok bytes ∧
    b.Fits words.1 words.2 ∧
    b' = (b.occupying maxLocals).extended bytes words.1 words.2 traits.flow

/-- An instruction that is no branch pops and pushes what its opcode tells. -/
lemma emit_eq {operands : List Int} (h : (emit op operands).outcome b = (.ok (), b')) :
    (∃ traits words, op.traits = .ok traits ∧ traits.effect.words = some words ∧
        Emits b b' op operands words) ∨
      ∃ distance, operands = [distance] ∧
        (jump op (.distance distance)).outcome b = (.ok (), b') := by
  obtain ⟨traits, _, hofExcept, h⟩ := bind_eq_ok.mp h
  obtain ⟨rfl, htraits⟩ := Step.ofExcept_eq_ok hofExcept
  simp only at h
  split at h
  · cases h
  · split at h
    · cases h
    · cases h
    · rename_i popped pushed hwords _
      obtain ⟨_, _, hofExcept, h⟩ := bind_eq_ok.mp h
      obtain ⟨rfl, hcount⟩ := Step.ofExcept_eq_ok hofExcept
      split at h
      · rename_i hform
        obtain ⟨_, _, hofExcept, h⟩ := bind_eq_ok.mp h
        obtain ⟨rfl, hrange⟩ := Step.ofExcept_eq_ok hofExcept
        have hlength := Opcode.checkCount_eq_ok hcount
        rw [hform] at hlength
        obtain ⟨distance, rfl⟩ := List.length_eq_one_iff.mp hlength
        exact .inr ⟨distance, rfl, h⟩
      · obtain ⟨bytes, _, hofExcept, h⟩ := bind_eq_ok.mp h
        obtain ⟨rfl, hencode⟩ := Step.ofExcept_eq_ok hofExcept
        rw [Opcode.words_eq htraits] at hwords
        refine .inl ⟨traits, (popped, pushed), htraits, hwords, ?_⟩
        split at h
        · obtain ⟨_, _, huse, h⟩ := bind_eq_ok.mp h
          obtain rfl := useLocals_eq huse
          obtain ⟨hfits, rfl⟩ := append_eq h
          exact ⟨traits, bytes, _, htraits, hencode, hfits, rfl⟩
        · obtain ⟨hfits, rfl⟩ := append_eq h
          exact ⟨traits, bytes, b.maxLocals, htraits, hencode, hfits, rfl⟩

/-- An instruction whose effect hangs on a descriptor pops and pushes what it is told to. -/
lemma emitWithEffect_eq {operands : List Int} {popped pushed : Int}
    (h : (emitWithEffect op operands popped pushed).outcome b = (.ok (), b')) :
    (∃ traits, op.traits = .ok traits ∧ traits.effect.words = none ∧
        Emits b b' op operands (popped.toNat, pushed.toNat)) ∨
      (emit op operands).outcome b = (.ok (), b') := by
  obtain ⟨traits, _, hofExcept, h⟩ := bind_eq_ok.mp h
  obtain ⟨rfl, htraits⟩ := Step.ofExcept_eq_ok hofExcept
  split at h
  · exact .inr h
  · rename_i hwords
    rw [Opcode.words_eq htraits] at hwords
    obtain ⟨_, _, hofExcept, h⟩ := bind_eq_ok.mp h
    obtain ⟨rfl, _⟩ := Step.ofExcept_eq_ok hofExcept
    split at h
    · cases h
    · obtain ⟨bytes, _, hofExcept, h⟩ := bind_eq_ok.mp h
      obtain ⟨rfl, hencode⟩ := Step.ofExcept_eq_ok hofExcept
      obtain ⟨hfits, rfl⟩ := append_eq h
      exact .inl ⟨traits, htraits, by simpa using hwords, traits, bytes, b.maxLocals, htraits,
        hencode, hfits, rfl⟩

/-- The draft after branches have been led to a target. -/
def redirecting (b : CodeDraft) (target : Nat) (sources : List Nat) : CodeDraft :=
  { b with
    code := Code.redirected b.code target sources
    facts := { b.facts with
      jumps := b.facts.jumps ++ (sources.map fun source => (source, (target : Int))).toArray } }

@[simp] lemma size_redirected (code : Array UInt8) (target : Nat) (sources : List Nat) :
    (Code.redirected code target sources).size = code.size := by
  induction sources generalizing code with
  | nil => rfl
  | cons source rest ih =>
    rw [Code.redirected, List.foldl_cons]
    exact (ih _).trans (size_write _ _ _)

lemma patch_eq {target : Nat} {sources : List Nat}
    (h : (patch target sources).outcome b = (.ok (), b')) : b' = b.redirecting target sources := by
  induction sources generalizing b with
  | nil =>
    cases h
    simp [redirecting, Code.redirected]
  | cons source rest ih =>
    obtain ⟨distance, _, hofExcept, h⟩ := bind_eq_ok.mp h
    obtain ⟨rfl, hdistance⟩ := Step.ofExcept_eq_ok hofExcept
    obtain ⟨rfl, _⟩ := branchDistance_eq_ok hdistance
    obtain ⟨_, b₁, hwrite, h⟩ := bind_eq_ok.mp h
    obtain ⟨_, rfl⟩ := overwrite_eq_ok hwrite
    obtain ⟨_, b₂, hrecord, h⟩ := bind_eq_ok.mp h
    cases hrecord
    rw [ih h]
    simp [redirecting, Code.redirected]

/-- The draft after a label that branches wait for has been bound to its end. -/
def landing (b : CodeDraft) (label : Label) (depth : Nat) (pending : List Nat) : CodeDraft :=
  ({ b with depth, reachable := true }.relabelled label
    ⟨some b.code.size, some depth, []⟩).redirecting b.code.size pending.reverse

/-- A label takes the depth of the code before it, if control comes from there. -/
lemma bindLabel_eq (h : (bindLabel label).outcome b = (.ok (), b')) :
    ∃ state, b.labels[label]? = some state ∧ state.offset = none ∧
      (b.reachable = true → ∀ d, state.depth = some d → d = b.depth) ∧
      b' = b.landing label (if b.reachable then b.depth else state.depth.getD b.depth)
        state.pending := by
  -- The end of binding a label, where the depth has been found to agree.
  have hend : ∀ (depth : Nat) (state : LabelStatus),
      (modify (fun b => { b with depth, reachable := true }) >>= fun _ =>
        setLabel label ⟨some b.code.size, some depth, []⟩ >>= fun _ =>
          patch b.code.size state.pending.reverse).outcome b = (.ok (), b') →
      b' = b.landing label depth state.pending := by
    intro depth state h
    obtain ⟨_, b₁, hmodify, h⟩ := bind_eq_ok.mp h
    cases hmodify
    obtain ⟨_, b₂, hset, h⟩ := bind_eq_ok.mp h
    cases hset
    exact patch_eq h
  obtain ⟨state, _, hstatus, h⟩ := bind_eq_ok.mp h
  obtain ⟨rfl, hstate⟩ := labelStatus_eq_ok hstatus
  simp only at h
  split at h
  · cases h
  · rename_i hsome
    have hoffset : state.offset = none := by simpa using hsome
    refine ⟨state, hstate, hoffset, ?_⟩
    obtain ⟨_, _, hget, h⟩ := bind_eq_ok.mp h
    cases hget
    split at h
    · rename_i hreachable
      rw [if_pos hreachable]
      split at h
      · rename_i expected hdepth
        split at h
        · cases h
        · rename_i hagree
          have heq : expected = b.depth := by simpa using hagree
          refine ⟨fun _ d hd => ?_, hend _ state h⟩
          rw [hdepth] at hd
          exact (Option.some.inj hd).symm.trans heq
      · rename_i hdepth
        exact ⟨fun _ d hd => absurd hd (hdepth d), hend _ state h⟩
    · rename_i hreachable
      rw [if_neg hreachable]
      exact ⟨fun htrue => absurd htrue hreachable, hend _ state h⟩

/-- A handler starts with the exception alone on the stack. Control may come from the code before
only with the depth noted at the label. -/
lemma bindHandler_eq (h : (bindHandler label).outcome b = (.ok (), b')) :
    ∃ state, b.labels[label]? = some state ∧ state.offset = none ∧
      (b.reachable = true → b.facts.blockStarts.back? ≠ some b.code.size →
        b.depth = state.depth.getD 1) ∧
      b' = { b.landing label (state.depth.getD 1) state.pending with
        depth := 1, maxStack := max b.maxStack 1 } := by
  obtain ⟨_, b₁, hmodify, h⟩ := bind_eq_ok.mp h
  rw [Step.outcome_modify, Prod.mk.injEq] at hmodify
  obtain ⟨_, hb₁⟩ := hmodify
  obtain ⟨state, _, hstatus, h⟩ := bind_eq_ok.mp h
  obtain ⟨rfl, hstate⟩ := labelStatus_eq_ok hstatus
  -- Whatever depth was noted at the label, or else one, is noted there when the label is bound.
  have hbind : ∀ noted, noted = state.depth.getD 1 →
      (bindLabel label >>= fun _ => get >>= fun b => setDepthAt b.code.size 1).outcome
        (b₁.relabelled label { state with depth := some noted }) = (.ok (), b') →
      state.offset = none ∧ (b₁.reachable = true → b₁.depth = state.depth.getD 1) ∧
        b' = { b₁.landing label (state.depth.getD 1) state.pending with
          depth := 1, maxStack := max b₁.maxStack 1 } := by
    rintro noted rfl h
    obtain ⟨_, b₂, hlabel, h⟩ := bind_eq_ok.mp h
    obtain ⟨_, _, hget, h⟩ := bind_eq_ok.mp h
    cases hget
    obtain ⟨state', hstate', hoffset, hagree, rfl⟩ := bindLabel_eq hlabel
    rw [getElem?_relabelled hstate, if_pos rfl] at hstate'
    cases hstate'
    have hreached : b₁.reachable = true → b₁.depth = state.depth.getD 1 :=
      fun htrue => (hagree htrue _ rfl).symm
    refine ⟨hoffset, hreached, ?_⟩
    rw [setDepthAt_eq h]
    cases hreachable : b₁.reachable with
    | false => simp [landing, relabelled, redirecting, hreachable]
    | true => simp [landing, relabelled, redirecting, hreachable, hreached hreachable]
  have hmain : state.offset = none ∧ (b₁.reachable = true → b₁.depth = state.depth.getD 1) ∧
      b' = { b₁.landing label (state.depth.getD 1) state.pending with
        depth := 1, maxStack := max b₁.maxStack 1 } := by
    simp only at h
    split at h
    · rename_i hnone
      obtain ⟨_, b₂, hset, h⟩ := bind_eq_ok.mp h
      cases hset
      exact hbind 1 (by simp_all) h
    · rename_i hsome
      obtain ⟨depth, hdepth⟩ := Option.ne_none_iff_exists'.mp (by simpa using hsome)
      refine hbind depth (by simp [hdepth]) ?_
      rwa [← hdepth, relabelled_self hstate]
  obtain ⟨hoffset, hagree, rfl⟩ := hmain
  subst hb₁
  split at hstate
  · rename_i hends
    refine ⟨state, hstate, hoffset, fun hreachable hback => ?_, ?_⟩
    · simp [hreachable, hback] at hends
    · simp [landing, relabelled, redirecting, hends]
  · rename_i hgoes
    simp only [if_neg hgoes] at hagree ⊢
    exact ⟨state, hstate, hoffset, fun hreachable _ => hagree hreachable, rfl⟩

/-- A switch pops the value that it is about. -/
lemma reserveSwitch_eq {low high : Int} {start : Nat}
    (h : (reserveSwitch low high).outcome b = (.ok start, b')) :
    start = b.code.size ∧ b.Fits 1 0 ∧ ∃ bytes switches,
      b' = { b.extended bytes 1 0 .switch with switches } := by
  simp only [reserveSwitch] at h
  split at h
  · cases h
  · split at h
    · cases h
    · obtain ⟨_, _, hget, h⟩ := bind_eq_ok.mp h
      cases hget
      obtain ⟨_, b₁, happend, h⟩ := bind_eq_ok.mp h
      obtain ⟨hfits, rfl⟩ := append_eq happend
      obtain ⟨_, _, hmodify, h⟩ := bind_eq_ok.mp h
      cases hmodify
      cases h
      exact ⟨rfl, hfits, _, _, rfl⟩

lemma writeTarget_eq {start slot target : Nat}
    (h : (writeTarget start slot target).outcome b = (.ok (), b')) :
    ∃ code, b' = { b.jumping start target with code } := by
  obtain ⟨_, b₁, hwrite, h⟩ := bind_eq_ok.mp h
  obtain ⟨_, rfl⟩ := overwrite_eq_ok hwrite
  cases h
  exact ⟨_, rfl⟩

/-- Giving a switch a target records the jump, and changes nothing but the text besides. -/
lemma patchDefault_eq {start target : Nat}
    (h : (patchDefault start target).outcome b = (.ok (), b')) :
    ∃ code switches, b' = { b.jumping start target with code, switches } := by
  obtain ⟨⟨i, slots⟩, _, hfind, h⟩ := bind_eq_ok.mp h
  obtain ⟨rfl, _⟩ := findSwitch_eq_ok hfind
  obtain ⟨_, b₁, hwrite, h⟩ := bind_eq_ok.mp h
  obtain ⟨code, rfl⟩ := writeTarget_eq hwrite
  cases h
  exact ⟨code, _, rfl⟩

lemma patchCase_eq {start index target : Nat}
    (h : (patchCase start index target).outcome b = (.ok (), b')) :
    ∃ code switches, b' = { b.jumping start target with code, switches } := by
  obtain ⟨⟨i, slots⟩, _, hfind, h⟩ := bind_eq_ok.mp h
  obtain ⟨rfl, _⟩ := findSwitch_eq_ok hfind
  simp only at h
  split at h
  · cases h
  · obtain ⟨_, b₁, hwrite, h⟩ := bind_eq_ok.mp h
    obtain ⟨code, rfl⟩ := writeTarget_eq hwrite
    cases h
    exact ⟨code, _, rfl⟩

end CodeDraft
end ClassAssembly

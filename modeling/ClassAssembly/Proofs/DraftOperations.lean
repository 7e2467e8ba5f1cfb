import ClassAssembly.Proofs.CodeLayout
import Mathlib.Logic.Function.Basic

/-! What the operations on a draft do to its code, its labels and its switches. The depth of the
stack and the slots in use only decide whether an operation succeeds. -/
namespace ClassAssembly

namespace CodeDraft

open Step (bind_eq_ok)

variable {b b' : CodeDraft} {op : Opcode} {label : Label}

/-- Where a label is bound, and which branches wait for it. -/
def binding (b : CodeDraft) (label : Label) : Option (Option Nat × List Nat) :=
  b.labels[label]?.map fun state => (state.offset, state.pending)

lemma binding_congr (h : b'.labels = b.labels) : b'.binding = b.binding := by
  funext label
  rw [binding, binding, h]

/-- Both drafts have the same code, labels and switches. -/
structure SameText (b b' : CodeDraft) : Prop where
  code : b'.code = b.code
  binding : b'.binding = b.binding
  switches : b'.switches = b.switches

namespace SameText

lemma refl (b : CodeDraft) : SameText b b := ⟨rfl, rfl, rfl⟩

lemma trans {b'' : CodeDraft} (h : SameText b b') (h' : SameText b' b'') : SameText b b'' :=
  ⟨h'.code.trans h.code, h'.binding.trans h.binding, h'.switches.trans h.switches⟩

end SameText

lemma setDepthAt_eq_ok {offset depth : Nat}
    (h : (setDepthAt offset depth).outcome b = (.ok (), b')) : SameText b b' := by
  rw [setDepthAt, Step.outcome_ofOutcome] at h
  split at h
  · cases h
  · cases h
    exact ⟨rfl, rfl, rfl⟩

lemma setDepth_eq_ok {depth : Int} (h : (setDepth depth).outcome b = (.ok (), b')) :
    SameText b b' := by
  obtain ⟨_, _, hget, h⟩ := bind_eq_ok.mp h
  cases hget
  simp only at h
  split at h
  · cases h
  · exact setDepthAt_eq_ok h

lemma useLocals_eq_ok {index words : Nat} (h : (useLocals index words).outcome b = (.ok (), b')) :
    SameText b b' := by
  rw [useLocals, Step.outcome_ofOutcome] at h
  split at h
  · cases h
  · cases h
    exact ⟨rfl, rfl, rfl⟩

lemma recordJump_eq_ok {source : Nat} {target : Int}
    (h : (recordJump source target).outcome b = (.ok (), b')) : SameText b b' := by
  cases h
  exact ⟨rfl, rfl, rfl⟩

/-- The draft has grown by some bytes. -/
structure Appends (b b' : CodeDraft) (bytes : Bytes) : Prop where
  code : b'.code = b.code ++ bytes
  size : b'.code.size ≤ maxCode
  binding : b'.binding = b.binding
  switches : b'.switches = b.switches

lemma Appends.of_sameText {b₁ : CodeDraft} {bytes : Bytes} (hsame : SameText b b₁)
    (h : Appends b₁ b' bytes) : Appends b b' bytes :=
  ⟨hsame.code ▸ h.code, h.size, h.binding.trans hsame.binding, h.switches.trans hsame.switches⟩

lemma append_eq_ok {bytes : Bytes} {popped pushed : Nat} {flow : Flow}
    (h : (append op bytes popped pushed flow).outcome b = (.ok (), b')) : Appends b b' bytes := by
  have hsize := Code.size_appendList b.code bytes
  simp only [append, Step.outcome_ofOutcome] at h
  split at h
  · cases h
  · split at h
    · cases h
    · rename_i hfits
      have hmax : (b.code ++ bytes).size ≤ maxCode := by omega
      split at h
      · cases h
      · split at h
        · cases h
          exact ⟨rfl, hmax, rfl, rfl⟩
        · cases h
          exact ⟨rfl, hmax, rfl, rfl⟩

lemma branchDistance_eq_ok {source target : Nat} {distance : Int}
    (h : branchDistance source target = .ok distance) :
    distance = (target : Int) - source ∧ -32768 ≤ distance ∧ distance ≤ 32767 := by
  simp only [branchDistance] at h
  split at h
  · rename_i hfits
    cases h
    exact ⟨rfl, hfits⟩
  · cases h

lemma labelStatus_eq_ok {state : LabelStatus}
    (h : (labelStatus label).outcome b = (.ok state, b')) :
    b = b' ∧ b.labels[label]? = some state := by
  obtain ⟨_, _, hget, h⟩ := bind_eq_ok.mp h
  cases hget
  split at h
  · rename_i hstate
    cases h
    exact ⟨rfl, hstate⟩
  · cases h

lemma binding_of_getElem? {state : LabelStatus} (h : b.labels[label]? = some state) :
    b.binding label = some (state.offset, state.pending) := by
  rw [binding, h, Option.map_some]

lemma binding_setLabel {before : LabelStatus} (state : LabelStatus)
    (h : b.labels[label]? = some before) :
    binding { b with labels := b.labels.setIfInBounds label state } =
      Function.update b.binding label (some (state.offset, state.pending)) := by
  obtain ⟨hlt, _⟩ := Array.getElem?_eq_some_iff.mp h
  funext other
  rw [binding, Array.getElem?_setIfInBounds, Function.update_apply]
  by_cases heq : label = other
  · subst heq
    rw [if_pos rfl, if_pos hlt, if_pos rfl, Option.map_some]
  · rw [if_neg heq, if_neg (Ne.symm heq), binding]

/-- Recording the depth of a label leaves where it is bound alone. -/
lemma sameText_setLabel {state : LabelStatus} {depth : Option Nat}
    (h : b.labels[label]? = some state) :
    SameText b { b with labels := b.labels.setIfInBounds label { state with depth } } := by
  refine ⟨rfl, ?_, rfl⟩
  rw [binding_setLabel _ h, ← binding_of_getElem? h, Function.update_eq_self]

lemma boundAt_of_binding {label : Label} {offset : Option Nat} {pending : List Nat}
    (h : b.binding label = some (offset, pending)) :
    (boundAt label).outcome b = (.ok offset, b) := by
  obtain ⟨state, hstate, heq⟩ := Option.map_eq_some_iff.mp h
  cases heq
  have hstatus : (labelStatus label).outcome b = (.ok state, b) := by
    refine Step.bind_eq_ok.mpr ⟨b, b, rfl, ?_⟩
    rw [hstate]
    rfl
  exact Step.bind_eq_ok.mpr ⟨state, b, hstatus, rfl⟩

lemma newLabel_eq_ok {label : Label} (h : newLabel.outcome b = (.ok label, b')) :
    b'.code = b.code ∧ b'.switches = b.switches ∧ b.binding label = none ∧
      b'.binding = Function.update b.binding label (some (none, [])) := by
  cases h
  refine ⟨rfl, rfl, ?_, ?_⟩
  · rw [binding, Array.getElem?_eq_none (Nat.le_refl _), Option.map_none]
  · funext other
    rw [binding, Array.getElem?_push, Function.update_apply]
    by_cases heq : other = b.labels.size
    · rw [if_pos heq, if_pos heq, Option.map_some]
    · rw [if_neg heq, if_neg heq, binding]

lemma agreeOnDepth_eq_ok {depth : Nat} (h : (agreeOnDepth label depth).outcome b = (.ok (), b')) :
    SameText b b' := by
  obtain ⟨state, _, hstatus, h⟩ := bind_eq_ok.mp h
  obtain ⟨rfl, hstate⟩ := labelStatus_eq_ok hstatus
  split at h
  · split at h
    · cases h
    · cases h
      exact .refl b
  · cases h
    exact sameText_setLabel hstate

/-- A branch to a label that is bound takes its distance; one to a label that is not joins those
that wait for it. -/
lemma resolve_label_eq_ok {source depth : Nat} {distance : Int}
    (h : (resolve source depth (.label label)).outcome b = (.ok distance, b')) :
    b'.code = b.code ∧ b'.switches = b.switches ∧ -32768 ≤ distance ∧ distance ≤ 32767 ∧
      ((∃ target pending, b.binding label = some (some target, pending) ∧
          distance = (target : Int) - source ∧ b'.binding = b.binding) ∨
        ∃ pending, b.binding label = some (none, pending) ∧
          b'.binding = Function.update b.binding label (some (none, source :: pending))) := by
  obtain ⟨_, b₁, hagree, h⟩ := bind_eq_ok.mp h
  have hsame := agreeOnDepth_eq_ok hagree
  obtain ⟨state, _, hstatus, h⟩ := bind_eq_ok.mp h
  obtain ⟨rfl, hstate⟩ := labelStatus_eq_ok hstatus
  have hbinding := binding_of_getElem? hstate
  rw [← hsame.code, ← hsame.switches, ← hsame.binding]
  split at h
  · rename_i target hoffset
    obtain ⟨_, b₂, hrecord, h⟩ := bind_eq_ok.mp h
    have hsame' := recordJump_eq_ok hrecord
    obtain ⟨rfl, hdistance⟩ := Step.ofExcept_eq_ok h
    obtain ⟨heq, hlo, hhi⟩ := branchDistance_eq_ok hdistance
    rw [hoffset] at hbinding
    exact ⟨hsame'.code, hsame'.switches, hlo, hhi,
      .inl ⟨target, _, hbinding, heq, hsame'.binding⟩⟩
  · rename_i hoffset
    rw [hoffset] at hbinding
    cases h
    refine ⟨rfl, rfl, by decide, by decide, .inr ⟨_, hbinding, ?_⟩⟩
    have hset := binding_setLabel { state with pending := source :: state.pending } hstate
    rw [hset, hoffset]

lemma resolve_distance_eq_ok {source depth : Nat} {given distance : Int}
    (h : (resolve source depth (.distance given)).outcome b = (.ok distance, b')) :
    distance = given ∧ SameText b b' := by
  cases h
  exact ⟨rfl, rfl, rfl, rfl⟩

/-- A branch is resolved first, and then appended. -/
lemma jump_eq_ok {target : BranchTarget} (h : (jump op target).outcome b = (.ok (), b')) :
    ∃ traits distance depth b₁, op.traits = .ok traits ∧ traits.form = .branch ∧
      (resolve b.code.size depth target).outcome b = (.ok distance, b₁) ∧
      Appends b₁ b' (op.byte :: Bytes.signed 2 distance) := by
  obtain ⟨traits, _, hofExcept, h⟩ := bind_eq_ok.mp h
  obtain ⟨rfl, htraits⟩ := Step.ofExcept_eq_ok hofExcept
  simp only at h
  split at h
  · cases h
  · rename_i hflow
    obtain ⟨_, _, hget, h⟩ := bind_eq_ok.mp h
    cases hget
    split at h
    · cases h
    · obtain ⟨distance, b₁, hresolve, h⟩ := bind_eq_ok.mp h
      refine ⟨traits, distance, _, b₁, htraits, ?_, hresolve, append_eq_ok h⟩
      exact Opcode.form_of_jump htraits (by simpa using hflow)

/-- An instruction has been encoded and appended. -/
def Encodes (b b' : CodeDraft) (op : Opcode) (operands : List Int) : Prop :=
  ∃ traits bytes, op.traits = .ok traits ∧ op.checkCount traits.form operands = .ok () ∧
    op.encode traits.form (operands[0]?.getD 0) (operands[1]?.getD 0) = .ok bytes ∧
    Appends b b' bytes

/-- Only branches are emitted in another way than by encoding them. -/
lemma emit_eq_ok {operands : List Int} (h : (emit op operands).outcome b = (.ok (), b')) :
    Encodes b b' op operands ∨ ∃ distance, operands = [distance] ∧ -32768 ≤ distance ∧
      distance ≤ 32767 ∧ (jump op (.distance distance)).outcome b = (.ok (), b') := by
  obtain ⟨traits, _, hofExcept, h⟩ := bind_eq_ok.mp h
  obtain ⟨rfl, htraits⟩ := Step.ofExcept_eq_ok hofExcept
  simp only at h
  split at h
  · cases h
  · split at h
    · cases h
    · cases h
    · rename_i popped pushed hwords _
      obtain ⟨_, _, hofExcept, h⟩ := bind_eq_ok.mp h
      obtain ⟨rfl, hcount⟩ := Step.ofExcept_eq_ok hofExcept
      split at h
      · rename_i hform
        obtain ⟨_, _, hofExcept, h⟩ := bind_eq_ok.mp h
        obtain ⟨rfl, hrange⟩ := Step.ofExcept_eq_ok hofExcept
        have hlength := Opcode.checkCount_eq_ok hcount
        rw [hform] at hlength
        obtain ⟨distance, rfl⟩ := List.length_eq_one_iff.mp hlength
        obtain ⟨hlo, hhi⟩ := Opcode.checkRange_eq_ok hrange
        exact .inr ⟨distance, rfl, hlo, hhi, h⟩
      · obtain ⟨bytes, _, hofExcept, h⟩ := bind_eq_ok.mp h
        obtain ⟨rfl, hencode⟩ := Step.ofExcept_eq_ok hofExcept
        refine .inl ⟨traits, bytes, htraits, hcount, hencode, ?_⟩
        split at h
        · obtain ⟨_, _, huse, h⟩ := bind_eq_ok.mp h
          exact (append_eq_ok h).of_sameText (useLocals_eq_ok huse)
        · exact append_eq_ok h

lemma emitWithEffect_eq_ok {operands : List Int} {popped pushed : Int}
    (h : (emitWithEffect op operands popped pushed).outcome b = (.ok (), b')) :
    Encodes b b' op operands ∨ (emit op operands).outcome b = (.ok (), b') := by
  obtain ⟨traits, _, hofExcept, h⟩ := bind_eq_ok.mp h
  obtain ⟨rfl, htraits⟩ := Step.ofExcept_eq_ok hofExcept
  split at h
  · exact .inr h
  · obtain ⟨_, _, hofExcept, h⟩ := bind_eq_ok.mp h
    obtain ⟨rfl, hcount⟩ := Step.ofExcept_eq_ok hofExcept
    split at h
    · cases h
    · obtain ⟨bytes, _, hofExcept, h⟩ := bind_eq_ok.mp h
      obtain ⟨rfl, hencode⟩ := Step.ofExcept_eq_ok hofExcept
      exact .inl ⟨traits, bytes, htraits, hcount, hencode, append_eq_ok h⟩

lemma overwrite_eq_ok {offset : Nat} {bytes : Bytes}
    (h : (overwrite offset bytes).outcome b = (.ok (), b')) :
    offset + bytes.length ≤ b.code.size ∧ { b with code := write b.code offset bytes } = b' := by
  rw [overwrite, Step.outcome_ofOutcome] at h
  split at h
  · cases h
  · rename_i hle
    cases h
    exact ⟨Nat.le_of_not_lt hle, rfl⟩

lemma patch_eq_ok {target : Nat} {sources : List Nat}
    (h : (patch target sources).outcome b = (.ok (), b')) :
    b'.code = Code.redirected b.code target sources ∧
      (∀ s ∈ sources, -32768 ≤ (target : Int) - s ∧ (target : Int) - s ≤ 32767) ∧
      (∀ s ∈ sources, s + 3 ≤ b.code.size) ∧
      b'.binding = b.binding ∧ b'.switches = b.switches := by
  induction sources generalizing b with
  | nil =>
    cases h
    exact ⟨rfl, nofun, nofun, rfl, rfl⟩
  | cons source rest ih =>
    obtain ⟨distance, _, hofExcept, h⟩ := bind_eq_ok.mp h
    obtain ⟨rfl, hdistance⟩ := Step.ofExcept_eq_ok hofExcept
    obtain ⟨rfl, hfits⟩ := branchDistance_eq_ok hdistance
    obtain ⟨_, b₁, hwrite, h⟩ := bind_eq_ok.mp h
    obtain ⟨hwithin, rfl⟩ := overwrite_eq_ok hwrite
    obtain ⟨_, b₂, hrecord, h⟩ := bind_eq_ok.mp h
    have hsame := recordJump_eq_ok hrecord
    obtain ⟨hcode, hfits', hwithin', hbinding, hswitches⟩ := ih h
    rw [hsame.code] at hcode hwithin'
    rw [size_write] at hwithin'
    refine ⟨hcode, List.forall_mem_cons.mpr ⟨hfits, hfits'⟩,
      List.forall_mem_cons.mpr ⟨?_, hwithin'⟩, hbinding.trans hsame.binding,
      hswitches.trans hsame.switches⟩
    rwa [Bytes.length_signed, Nat.add_assoc] at hwithin

/-- A label has been bound to the end of the code, and the branches that waited lead there. -/
structure Binds (b b' : CodeDraft) (label : Label) (pending : List Nat) : Prop where
  before : b.binding label = some (none, pending)
  after : b'.binding = Function.update b.binding label (some (some b.code.size, []))
  code : b'.code = Code.redirected b.code b.code.size pending.reverse
  fits : ∀ s ∈ pending, -32768 ≤ (b.code.size : Int) - s ∧ (b.code.size : Int) - s ≤ 32767
  within : ∀ s ∈ pending, s + 3 ≤ b.code.size
  switches : b'.switches = b.switches

lemma Binds.of_sameText {b₁ b₂ : CodeDraft} {pending : List Nat} (hsame : SameText b b₁)
    (h : Binds b₁ b₂ label pending) (hsame' : SameText b₂ b') : Binds b b' label pending where
  before := hsame.binding ▸ h.before
  after := hsame'.binding.trans (hsame.binding ▸ hsame.code ▸ h.after)
  code := hsame'.code.trans (hsame.code ▸ h.code)
  fits := hsame.code ▸ h.fits
  within := hsame.code ▸ h.within
  switches := hsame'.switches.trans (h.switches.trans hsame.switches)

lemma Binds.pending_eq {label : Label} {pending : List Nat} {state : LabelStatus}
    (h : Binds b b' label pending) (hstate : b.labels[label]? = some state) :
    pending = state.pending := by
  have hbefore := h.before
  rw [binding_of_getElem? hstate] at hbefore
  exact (congrArg Prod.snd (Option.some.inj hbefore)).symm

/-- The end of binding a label, where the depth has been found to agree. -/
lemma binds_of_patch {state : LabelStatus} {depth : Nat} (hstate : b.labels[label]? = some state)
    (hoffset : state.offset = none)
    (h : (modify (fun b => { b with depth, reachable := true }) >>= fun _ =>
      setLabel label ⟨some b.code.size, some depth, []⟩ >>= fun _ =>
        patch b.code.size state.pending.reverse).outcome b = (.ok (), b')) :
    Binds b b' label state.pending := by
  obtain ⟨_, b₁, hmodify, h⟩ := bind_eq_ok.mp h
  cases hmodify
  obtain ⟨_, b₂, hset, h⟩ := bind_eq_ok.mp h
  cases hset
  obtain ⟨hcode, hfits, hwithin, hbinding, hswitches⟩ := patch_eq_ok h
  refine ⟨?_, ?_, hcode, fun s hs => hfits s (List.mem_reverse.mpr hs),
    fun s hs => hwithin s (List.mem_reverse.mpr hs), hswitches⟩
  · rw [binding_of_getElem? hstate, hoffset]
  · exact hbinding.trans (binding_setLabel (b := { b with depth, reachable := true }) _ hstate)

lemma bindLabel_eq_ok (h : (bindLabel label).outcome b = (.ok (), b')) :
    ∃ pending, Binds b b' label pending := by
  obtain ⟨state, _, hstatus, h⟩ := bind_eq_ok.mp h
  obtain ⟨rfl, hstate⟩ := labelStatus_eq_ok hstatus
  simp only at h
  split at h
  · cases h
  · rename_i hsome
    have hoffset : state.offset = none := by simpa using hsome
    obtain ⟨_, _, hget, h⟩ := bind_eq_ok.mp h
    cases hget
    split at h
    · split at h
      · split at h
        · cases h
        · exact ⟨_, binds_of_patch hstate hoffset h⟩
      · exact ⟨_, binds_of_patch hstate hoffset h⟩
    · exact ⟨_, binds_of_patch hstate hoffset h⟩

lemma bindHandler_eq_ok (h : (bindHandler label).outcome b = (.ok (), b')) :
    ∃ pending, Binds b b' label pending := by
  -- Whatever is recorded before the label is bound leaves the text alone.
  have hbind : ∀ {b₁}, SameText b b₁ →
      (bindLabel label >>= fun _ => get >>= fun b => setDepthAt b.code.size 1).outcome b₁ =
        (.ok (), b') → ∃ pending, Binds b b' label pending := by
    intro b₁ hsame h
    obtain ⟨_, b₂, hlabel, h⟩ := bind_eq_ok.mp h
    obtain ⟨_, _, hget, h⟩ := bind_eq_ok.mp h
    cases hget
    obtain ⟨pending, hbinds⟩ := bindLabel_eq_ok hlabel
    exact ⟨pending, hbinds.of_sameText hsame (setDepthAt_eq_ok h)⟩
  obtain ⟨_, b₁, hmodify, h⟩ := bind_eq_ok.mp h
  have hsame : SameText b b₁ := by
    rw [Step.outcome_modify] at hmodify
    split at hmodify
    · cases hmodify
      exact ⟨rfl, rfl, rfl⟩
    · cases hmodify
      exact .refl b
  obtain ⟨state, _, hstatus, h⟩ := bind_eq_ok.mp h
  obtain ⟨rfl, hstate⟩ := labelStatus_eq_ok hstatus
  simp only at h
  split at h
  · obtain ⟨_, b₂, hset, h⟩ := bind_eq_ok.mp h
    cases hset
    exact hbind (hsame.trans (sameText_setLabel hstate)) h
  · exact hbind hsame h

/-- A switch has been laid out at the end of the code. -/
structure Reserves (b b' : CodeDraft) (low high : Int) : Prop where
  ordered : low ≤ high
  code : b'.code = b.code ++ Code.reservedBytes b.code.size low high
  size : b'.code.size ≤ maxCode
  binding : b'.binding = b.binding
  switches : b'.switches = b.switches.push
    ⟨b.code.size, false, Array.replicate (high - low + 1).toNat false⟩

lemma reserveSwitch_eq_ok {low high : Int} {start : Nat}
    (h : (reserveSwitch low high).outcome b = (.ok start, b')) : Reserves b b' low high := by
  simp only [reserveSwitch] at h
  split at h
  · cases h
  · rename_i hle
    split at h
    · cases h
    · obtain ⟨_, _, hget, h⟩ := bind_eq_ok.mp h
      cases hget
      obtain ⟨_, b₁, happend, h⟩ := bind_eq_ok.mp h
      have happends := append_eq_ok happend
      obtain ⟨_, _, hmodify, h⟩ := bind_eq_ok.mp h
      cases hmodify
      cases h
      exact ⟨by omega, happends.code, happends.size, happends.binding,
        by rw [← happends.switches]⟩

end CodeDraft

namespace SwitchSlots

/-- Whether an arm has been given a target, if the switch has such an arm. -/
def patched (slots : SwitchSlots) : SwitchArm → Option Bool
  | .default => some slots.defaultPatched
  | .case index => slots.casesPatched[index]?

/-- The slots once an arm has been given a target. -/
def mark (slots : SwitchSlots) : SwitchArm → SwitchSlots
  | .default => { slots with defaultPatched := true }
  | .case index => { slots with casesPatched := slots.casesPatched.setIfInBounds index true }

@[simp] lemma start_mark (slots : SwitchSlots) (arm : SwitchArm) :
    (slots.mark arm).start = slots.start := by
  cases arm <;> rfl

@[simp] lemma size_casesPatched_mark (slots : SwitchSlots) (arm : SwitchArm) :
    (slots.mark arm).casesPatched.size = slots.casesPatched.size := by
  cases arm with
  | default => rfl
  | case index => exact Array.size_setIfInBounds

lemma patched_mark_of_ne {slots : SwitchSlots} {arm other : SwitchArm} (h : other ≠ arm) :
    (slots.mark arm).patched other = slots.patched other := by
  cases arm with
  | default =>
    cases other with
    | default => exact absurd rfl h
    | case _ => rfl
  | case index =>
    cases other with
    | default => rfl
    | case other => exact Array.getElem?_setIfInBounds_ne fun heq => h (congrArg _ heq.symm)

/-- The slots tell of the arms that the switch itself has. -/
lemma isSome_patched_iff {slots : SwitchSlots} {table : TableSwitch} {arm : SwitchArm}
    (h : slots.casesPatched.size = table.offsets.length) :
    (slots.patched arm).isSome ↔ (table.distance arm).isSome := by
  cases arm with
  | default => exact Iff.rfl
  | case index => simp [patched, TableSwitch.distance, h]

end SwitchSlots

namespace CodeDraft

open Step (bind_eq_ok)

variable {b b' : CodeDraft} {start target : Nat}

lemma findSwitch_eq_ok {i : Nat} {slots : SwitchSlots}
    (h : (findSwitch start).outcome b = (.ok (i, slots), b')) :
    b = b' ∧ b.switches[i]? = some slots ∧ slots.start = start := by
  obtain ⟨_, _, hget, h⟩ := bind_eq_ok.mp h
  cases hget
  split at h
  · rename_i hfind
    split at h
    · rename_i hslots
      cases h
      refine ⟨rfl, hslots, ?_⟩
      obtain ⟨hlt, hstart, _⟩ := Array.findIdx?_eq_some_iff_getElem.mp hfind
      rw [Array.getElem?_eq_getElem hlt] at hslots
      cases hslots
      simpa using hstart
    · cases h
  · cases h

/-- An arm of a switch has been given a target. -/
structure Patches (b b' : CodeDraft) (arm : SwitchArm) (target i : Nat) (slots : SwitchSlots) :
    Prop where
  found : b.switches[i]? = some slots
  valid : (slots.patched arm).isSome
  code : b'.code = write b.code (arm.slot slots.start)
    (Bytes.signed 4 ((target : Int) - slots.start))
  binding : b'.binding = b.binding
  switches : b'.switches = b.switches.setIfInBounds i (slots.mark arm)

/-- Marking an arm of one switch keeps what is known of all others. -/
lemma Patches.mem_switches {arm : SwitchArm} {i : Nat} {slots slots' : SwitchSlots}
    (h : Patches b b' arm target i slots) (hslots' : slots' ∈ b.switches) :
    ∃ slots'' ∈ b'.switches, slots''.start = slots'.start ∧
      slots''.casesPatched.size = slots'.casesPatched.size ∧
      ∀ other, slots''.patched other = some true →
        slots'.patched other = some true ∨ slots'.start = slots.start ∧ other = arm := by
  obtain ⟨j, hj⟩ := Array.mem_iff_getElem?.mp hslots'
  have hget : b'.switches[j]? = if i = j then some (slots.mark arm) else some slots' := by
    obtain ⟨hlt, _⟩ := Array.getElem?_eq_some_iff.mp h.found
    rw [h.switches, Array.getElem?_setIfInBounds, if_pos hlt, hj]
  by_cases hij : i = j
  · subst hij
    rw [if_pos rfl] at hget
    rw [h.found] at hj
    cases hj
    refine ⟨_, Array.mem_of_getElem? hget, by simp, by simp, fun other hother => ?_⟩
    by_cases heq : other = arm
    · exact .inr ⟨rfl, heq⟩
    · rw [SwitchSlots.patched_mark_of_ne heq] at hother
      exact .inl hother
  · rw [if_neg hij] at hget
    exact ⟨slots', Array.mem_of_getElem? hget, rfl, rfl, fun _ hother => .inl hother⟩

lemma writeTarget_eq_ok {slot : Nat} (h : (writeTarget start slot target).outcome b = (.ok (), b')) :
    b'.code = write b.code slot (Bytes.signed 4 ((target : Int) - start)) ∧
      b'.binding = b.binding ∧ b'.switches = b.switches := by
  obtain ⟨_, b₁, hwrite, h⟩ := bind_eq_ok.mp h
  obtain ⟨_, rfl⟩ := overwrite_eq_ok hwrite
  have hsame := recordJump_eq_ok h
  exact ⟨hsame.code, hsame.binding.trans (binding_congr rfl), hsame.switches⟩

lemma patchDefault_eq_ok (h : (patchDefault start target).outcome b = (.ok (), b')) :
    ∃ i slots, slots.start = start ∧ Patches b b' .default target i slots := by
  obtain ⟨⟨i, slots⟩, _, hfind, h⟩ := bind_eq_ok.mp h
  obtain ⟨rfl, hfound, rfl⟩ := findSwitch_eq_ok hfind
  obtain ⟨_, b₁, hwrite, h⟩ := bind_eq_ok.mp h
  obtain ⟨hcode, hbinding, hswitches⟩ := writeTarget_eq_ok hwrite
  cases h
  exact ⟨i, slots, rfl, hfound, rfl, hcode, hbinding, hswitches ▸ rfl⟩

lemma modify_eq_setIfInBounds {α : Type} {xs : Array α} {i : Nat} {x : α} (h : xs[i]? = some x)
    (f : α → α) : xs.modify i f = xs.setIfInBounds i (f x) := by
  obtain ⟨hlt, hx⟩ := Array.getElem?_eq_some_iff.mp h
  refine Array.ext_getElem? fun j => ?_
  rw [Array.getElem?_modify, Array.getElem?_setIfInBounds]
  by_cases hij : i = j
  · subst hij
    rw [if_pos rfl, if_pos rfl, if_pos hlt, h, Option.map_some]
  · rw [if_neg hij, if_neg hij]

lemma patchCase_eq_ok {index : Nat} (h : (patchCase start index target).outcome b = (.ok (), b')) :
    ∃ i slots, slots.start = start ∧ Patches b b' (.case index) target i slots := by
  obtain ⟨⟨i, slots⟩, _, hfind, h⟩ := bind_eq_ok.mp h
  obtain ⟨rfl, hfound, rfl⟩ := findSwitch_eq_ok hfind
  simp only at h
  split at h
  · cases h
  · rename_i hlt
    obtain ⟨_, b₁, hwrite, h⟩ := bind_eq_ok.mp h
    obtain ⟨hcode, hbinding, hswitches⟩ := writeTarget_eq_ok hwrite
    cases h
    refine ⟨i, slots, rfl, hfound, ?_, hcode, hbinding, ?_⟩
    · simpa [SwitchSlots.patched] using hlt
    · simp only [hswitches, modify_eq_setIfInBounds hfound]
      rfl

/-- In a finished draft every label is bound and every arm of a switch has a target. -/
lemma checkResolved_eq_ok (h : b.checkResolved = .ok ()) :
    (∀ label offset pending, b.binding label = some (offset, pending) → offset ≠ none) ∧
      ∀ slots ∈ b.switches, ∀ arm, slots.patched arm ≠ some false := by
  unfold checkResolved at h
  split at h
  · cases h
  · rename_i hlabels
    split at h
    · cases h
    · rename_i hswitches
      refine ⟨fun label offset pending hbinding hnone => ?_, fun slots hslots arm harm => ?_⟩
      · obtain ⟨state, hstate, heq⟩ := Option.map_eq_some_iff.mp hbinding
        cases heq
        have hall := Array.findIdx?_eq_none_iff.mp hlabels state (Array.mem_of_getElem? hstate)
        rw [hnone] at hall
        cases hall
      · have hpatched : slots.isPatched = true := by
          simpa using Array.find?_eq_none.mp hswitches slots hslots
        rw [SwitchSlots.isPatched, Bool.and_eq_true] at hpatched
        cases arm with
        | default =>
          rw [SwitchSlots.patched, hpatched.1] at harm
          cases harm
        | case index =>
          have hmem : false ∈ slots.casesPatched := Array.mem_of_getElem? harm
          have hall := Array.all_eq_true_iff_forall_mem.mp hpatched.2 false hmem
          cases hall

end CodeDraft
end ClassAssembly

import ClassAssembly.Proofs.FailedOperations
import ClassAssembly.Proofs.PlacedInstructions
import Mathlib.Data.List.TakeWhile

/-! The layout of a draft after any operations, whichever of them failed. The code is made of the
instructions that were added, end to end, and nothing but where they lead changes in them later. -/
namespace ClassAssembly

/-- A number is written modulo what the bytes can hold. -/
lemma Bytes.signed_bmod (n : Nat) (value : Int) :
    signed n (value.bmod (256 ^ n)) = signed n value := by
  rw [signed_eq, signed_eq, Int.bmod_emod]

lemma Opcode.isBranch_of_form {op : Opcode} {traits : OpcodeTraits} (h : op.traits = .ok traits)
    (hform : traits.form = .branch) : op.IsBranch := by
  have hall : ∀ row ∈ OpcodeTraits.table.toList, ∀ traits ∈ row, traits.form = .branch →
      traits.flow.isJump = true := by
    decide +kernel
  exact ⟨traits, h, hall _ (traits_mem h) traits rfl hform⟩

namespace Code.SwitchAt

variable {code : Array UInt8} {pc : Nat} {table : TableSwitch}

/-- A switch is no branch. -/
lemma not_branchAt (h : SwitchAt code pc table) (op : Opcode) (distance : Int) :
    ¬BranchAt code pc op distance := by
  intro hbranch
  have hdecode := hbranch.decode_eq
  rw [h.decode_eq] at hdecode
  have hop : Opcode.tableswitch = op := congrArg Instruction.opcode (Except.ok.inj hdecode)
  obtain ⟨traits, htraits, hform⟩ := hbranch.branch
  have hswitch : Opcode.tableswitch.traits.map (·.form) = .ok .switch := by decide +kernel
  rw [hop, htraits] at hswitch
  have heq : traits.form = .switch := Except.ok.inj hswitch
  rw [hform] at heq
  cases heq

lemma unique {table' : TableSwitch} (h : SwitchAt code pc table) (h' : SwitchAt code pc table') :
    table = table' := by
  have hdecode := decodeSwitch_eq_ok_iff.mpr h.table
  rw [decodeSwitch_eq_ok_iff.mpr h'.table] at hdecode
  exact (Except.ok.inj hdecode).symm

end Code.SwitchAt

namespace DraftOperation

/-- The instruction is the one that the operation adds. -/
def Spells (insn : Instruction) : DraftOperation → Prop
  | emit op operands | emitWithEffect op operands _ _ =>
    insn.Spells (op.spelled (operands[0]?.getD 0)) operands
  | jump op _ => insn.opcode = op
  | reserveSwitch low high => insn.Spells .tableswitch [low, high]
  | _ => False

end DraftOperation

namespace CodeDraft

open Step (bind_eq_ok bind_eq_error)

variable {b b' : CodeDraft} {e : Error} {label : Label}

section Depth

/-- The stack is nowhere taken to be deeper than it may be. -/
structure Shallow (b : CodeDraft) : Prop where
  depth : b.depth ≤ maxDepth
  noted : ∀ (label : Label) state, b.labels[label]? = some state →
    ∀ depth, state.depth = some depth → depth ≤ maxDepth

namespace Shallow

lemma empty : Shallow .empty := by
  refine ⟨Nat.zero_le _, fun label state hstate => ?_⟩
  simp [CodeDraft.empty] at hstate

lemma of_labels (h : b.Shallow) (hdepth : b'.depth ≤ maxDepth) (hlabels : b'.labels = b.labels) :
    b'.Shallow :=
  ⟨hdepth, hlabels ▸ h.noted⟩

lemma relabelled {before : LabelStatus} (h : b.Shallow) (state : LabelStatus)
    (hbefore : b.labels[label]? = some before)
    (hstate : ∀ depth, state.depth = some depth → depth ≤ maxDepth) :
    (b.relabelled label state).Shallow := by
  refine ⟨h.depth, fun other state' hstate' => ?_⟩
  rw [getElem?_relabelled hbefore] at hstate'
  split at hstate'
  · cases hstate'
    exact hstate
  · exact h.noted other state' hstate'

lemma landing {depth : Nat} {before : LabelStatus} (h : b.Shallow) (pending : List Nat)
    (hbefore : b.labels[label]? = some before) (hdepth : depth ≤ maxDepth) :
    (b.landing label depth pending).Shallow := by
  have hset : ({ b with depth, reachable := true } : CodeDraft).Shallow := h.of_labels hdepth rfl
  have hlabel := hset.relabelled ⟨some b.code.size, some depth, []⟩ hbefore
    (by rintro _ ⟨⟩; exact hdepth)
  exact hlabel.of_labels hlabel.depth rfl

lemma landing_depth {state : LabelStatus} (h : b.Shallow)
    (hstate : b.labels[label]? = some state) :
    (if b.reachable then b.depth else state.depth.getD b.depth) ≤ maxDepth := by
  split
  · exact h.depth
  · cases hdepth : state.depth with
    | none => exact h.depth
    | some depth => exact h.noted label state hstate depth hdepth

lemma extended {bytes : Bytes} {popped pushed : Nat} {flow : Flow} (h : b.Shallow)
    (hfits : b.Fits popped pushed) : (b.extended bytes popped pushed flow).Shallow :=
  h.of_labels hfits.2 rfl

lemma jumps {op : Opcode} {target : BranchTarget} (h : b.Shallow)
    (hrun : (jump op target).outcome b = (.ok (), b')) : b'.Shallow := by
  obtain ⟨traits, popped, distance, b₁, _, _, _, hresolve, hfits, rfl⟩ := jump_eq hrun
  refine extended ?_ hfits
  cases target with
  | distance given =>
    obtain rfl := resolve_distance_eq hresolve
    exact h.of_labels h.depth rfl
  | label label =>
    have hleft : b.depth - popped ≤ maxDepth := Nat.le_trans (Nat.sub_le _ _) h.depth
    obtain ⟨state, hstate, _, ⟨target, _, rfl⟩ | ⟨_, rfl⟩⟩ := resolve_label_eq hresolve
    · have hlabel := h.relabelled { state with depth := some (b.depth - popped) } hstate
        (by rintro _ ⟨⟩; exact hleft)
      exact hlabel.of_labels hlabel.depth rfl
    · exact h.relabelled _ hstate (by rintro _ ⟨⟩; exact hleft)

lemma emits {op : Opcode} {operands : List Int} {words : Nat × Nat} (h : b.Shallow)
    (hemits : Emits b b' op operands words) : b'.Shallow := by
  obtain ⟨_, _, maxLocals, _, _, hfits, rfl⟩ := hemits
  have hlocals : (b.occupying maxLocals).Shallow := h.of_labels h.depth rfl
  exact hlocals.extended hfits

lemma emit {op : Opcode} {operands : List Int} (h : b.Shallow)
    (hrun : (CodeDraft.emit op operands).outcome b = (.ok (), b')) : b'.Shallow := by
  rcases emit_eq hrun with ⟨_, _, _, _, hemits⟩ | ⟨_, _, hjump⟩
  · exact h.emits hemits
  · exact h.jumps hjump

theorem step {op : DraftOperation} (h : b.Shallow) (hrun : op.run.outcome b = (.ok (), b')) :
    b'.Shallow := by
  cases op with
  | emit op operands => exact h.emit hrun
  | emitWithEffect op operands popped pushed =>
    rcases emitWithEffect_eq hrun with ⟨_, _, _, hemits⟩ | hemit
    · exact h.emits hemits
    · exact h.emit hemit
  | jump op target => exact h.jumps hrun
  | newLabel =>
    obtain ⟨label, hnew, _⟩ := Step.map_eq_ok.mp hrun
    cases hnew
    refine ⟨h.depth, fun other state hstate => ?_⟩
    rw [Array.getElem?_push] at hstate
    split at hstate
    · cases hstate
      nofun
    · exact h.noted other state hstate
  | bindLabel label =>
    obtain ⟨state, hstate, _, _, rfl⟩ := bindLabel_eq hrun
    exact h.landing _ hstate (h.landing_depth hstate)
  | bindHandler label =>
    obtain ⟨state, hstate, _, _, rfl⟩ := bindHandler_eq hrun
    have hdepth : state.depth.getD 1 ≤ maxDepth := by
      cases hdepth : state.depth with
      | none => exact (by decide : 1 ≤ maxDepth)
      | some depth => exact h.noted label state hstate depth hdepth
    have hlanded := h.landing state.pending hstate hdepth
    exact hlanded.of_labels (by decide : 1 ≤ maxDepth) rfl
  | reserveSwitch low high =>
    obtain ⟨start, hreserve, _⟩ := Step.map_eq_ok.mp hrun
    obtain ⟨_, hfits, bytes, switches, rfl⟩ := reserveSwitch_eq hreserve
    exact h.of_labels hfits.2 rfl
  | patchDefault start target =>
    obtain ⟨code, switches, rfl⟩ := patchDefault_eq hrun
    exact h.of_labels h.depth rfl
  | patchCase start index target =>
    obtain ⟨code, switches, rfl⟩ := patchCase_eq hrun
    exact h.of_labels h.depth rfl
  | setDepth depth =>
    obtain ⟨_, _, hget, hset⟩ := bind_eq_ok.mp hrun
    cases hget
    simp only at hset
    split at hset
    · cases hset
    · rw [setDepthAt, Step.outcome_ofOutcome] at hset
      split at hset
      · cases hset
      · rename_i hle
        cases hset
        exact h.of_labels (Nat.le_of_not_lt hle) rfl
  | useLocals index words =>
    obtain rfl := useLocals_eq hrun
    exact h.of_labels h.depth rfl

lemma branchRemains (h : b.Shallow) (popped : Nat) (target : BranchTarget) :
    (b.branchRemains e popped target).Shallow := by
  have hleft : b.depth - popped ≤ maxDepth := Nat.le_trans (Nat.sub_le _ _) h.depth
  cases target with
  | distance distance =>
    rw [CodeDraft.branchRemains]
    split
    · exact h.of_labels h.depth rfl
    · exact h
  | label label =>
    simp only [CodeDraft.branchRemains]
    split
    · exact h
    · rename_i state hstate
      split
      · split
        · have hlabel := h.relabelled { state with depth := some (b.depth - popped) } hstate
            (by rintro _ ⟨⟩; exact hleft)
          exact hlabel.of_labels hlabel.depth rfl
        · exact h.relabelled _ hstate (by rintro _ ⟨⟩; exact hleft)
      · exact h

lemma emissionRemains (h : b.Shallow) (op : Opcode) (operands : List Int) :
    (b.emissionRemains e op operands).Shallow := by
  unfold CodeDraft.emissionRemains
  split
  · exact h
  · simp only
    split
    · exact h.branchRemains _ _
    · split
      · split
        · exact h.of_labels h.depth rfl
        · exact h
      · exact h

lemma bindingRemains (h : b.Shallow) (label : Label) : (b.bindingRemains e label).Shallow := by
  unfold CodeDraft.bindingRemains
  split
  · exact h
  · rename_i state hstate
    split
    · exact h.landing _ hstate (h.landing_depth hstate)
    · exact h

theorem remains (h : b.Shallow) (op : DraftOperation) : (b.remains e op).Shallow := by
  cases op with
  | emit op operands | emitWithEffect op operands _ _ =>
    rw [CodeDraft.remains]
    exact h.emissionRemains op operands
  | jump op target => exact h.branchRemains _ _
  | bindLabel label => exact h.bindingRemains label
  | bindHandler label =>
    have hopened : (if !b.reachable || b.facts.blockStarts.back? == some b.code.size then
        { b with reachable := false, depth := 1 } else b : CodeDraft).Shallow := by
      split
      · exact h.of_labels (by decide : 1 ≤ maxDepth) rfl
      · exact h
    simp only [CodeDraft.remains, handlerRemains]
    split
    · exact hopened
    · rename_i state hstate
      have hsame : (if !b.reachable || b.facts.blockStarts.back? == some b.code.size then
          { b with reachable := false, depth := 1 } else b : CodeDraft).labels[label]? =
            some state := by
        split <;> exact hstate
      refine (hopened.relabelled _ hsame ?_).bindingRemains label
      · rintro _ ⟨⟩
        cases hdepth : state.depth with
        | none => exact (by decide : 1 ≤ maxDepth)
        | some depth => exact h.noted label state hstate depth hdepth
  | _ => exact h

end Shallow

/-- With nothing to say against the depth, an instruction is refused for want of room only. -/
lemma room_of_append_eq_error {op : Opcode} {bytes : Bytes} {popped pushed : Nat} {flow : Flow}
    (h : (append op bytes popped pushed flow).outcome b = (.error e, b'))
    (hfits : b.Fits popped pushed) : maxCode < b.code.size + bytes.length := by
  simp only [append, Step.outcome_ofOutcome] at h
  split at h
  · rename_i hunder
    exact absurd hunder (Nat.not_lt.mpr hfits.1)
  · split at h
    · assumption
    · split at h
      · rename_i hover
        exact absurd hover (Nat.not_lt.mpr hfits.2)
      · split at h <;> cases h

/-- A branch that fails to be added and yet waits for its label would end behind the longest code
there can be. -/
lemma room_of_jump_eq_error {op : Opcode} {state : LabelStatus} (hshallow : b.Shallow)
    (hstate : b.labels[label]? = some state) (hoffset : state.offset = none)
    (hlate : (e.isOutOfRoom || e.isOutOfReach) = true)
    (h : (jump op (.label label)).outcome b = (.error e, b')) : maxCode < b.code.size + 3 := by
  have hnot (hearly : e.Early) : maxCode < b.code.size + 3 := by
    rw [hearly.room, hearly.reach] at hlate
    cases hlate
  rcases bind_eq_error.mp h with h | ⟨traits, _, hofExcept, h⟩
  · obtain ⟨rfl, htraits⟩ := Step.ofExcept_eq_error h
    exact hnot (Opcode.early_of_traits htraits)
  · obtain ⟨rfl, htraits⟩ := Step.ofExcept_eq_ok hofExcept
    simp only at h
    split at h
    · cases h
      exact hnot ⟨rfl, rfl, rfl⟩
    · rcases bind_eq_error.mp h with h | ⟨_, _, hget, h⟩
      · cases h
      · cases hget
        split at h
        · cases h
          cases hlate
        · rename_i hdepth
          rcases bind_eq_error.mp h with h | ⟨distance, b₁, hresolve, h⟩
          · rcases resolve_label_eq_error h with ⟨_, hearly⟩ | ⟨_, state', target, hstate', htarget, _⟩
            · exact hnot hearly
            · rw [hstate] at hstate'
              cases hstate'
              rw [hoffset] at htarget
              cases htarget
          · have hle : b.depth ≤ maxDepth := hshallow.depth
            have hroom := room_of_append_eq_error h
            obtain ⟨state', _, _, ⟨target, _, rfl⟩ | ⟨_, rfl⟩⟩ := resolve_label_eq hresolve
            · exact hroom ⟨Nat.le_of_not_lt hdepth, Nat.le_trans (Nat.sub_le _ _) hle⟩
            · exact hroom ⟨Nat.le_of_not_lt hdepth, Nat.le_trans (Nat.sub_le _ _) hle⟩

end Depth

section Layout

open Code (Keeps Tiles BranchAt SwitchAt decode)

variable {items : List (Nat × Instruction)} {start : Nat}

/-- The code is made of these instructions, each at its offset. What is still to be patched lies in
instructions of the right kind; a branch that was refused for want of room may wait, but there is no
room for it at its offset. -/
structure Laid (items : List (Nat × Instruction)) (b : CodeDraft) : Prop where
  size : b.code.size ≤ maxCode
  tiles : Tiles b.code 0 (items.map Prod.fst) b.code.size
  stands : ∀ start insn, (start, insn) ∈ items →
    ∃ insn', decode b.code start = .ok insn' ∧ insn.Redirected insn'
  locals : ∀ start insn, (start, insn) ∈ items → insn.LocalsIn b.maxLocals
  waits : ∀ label source, Waits b label source → source + 3 ≤ maxCode →
    source ∈ items.map Prod.fst ∧ ∃ op distance, BranchAt b.code source op distance
  reserved : ∀ slots ∈ b.switches, slots.start ∈ items.map Prod.fst ∧
    ∃ table, SwitchAt b.code slots.start table ∧
      slots.casesPatched.size = table.offsets.length

lemma maxLocals_branchRemains (popped : Nat) (target : BranchTarget) :
    (b.branchRemains e popped target).maxLocals = b.maxLocals := by
  cases target with
  | distance distance =>
    rw [branchRemains]
    split <;> rfl
  | label label =>
    simp only [branchRemains]
    split
    · rfl
    · split
      · split <;> rfl
      · rfl

lemma maxLocals_bindingRemains (b : CodeDraft) (e : Error) (label : Label) :
    (b.bindingRemains e label).maxLocals = b.maxLocals := by
  unfold bindingRemains
  split
  · rfl
  · split <;> rfl

/-- A failed operation gives no local variable back. -/
lemma maxLocals_le_remains (op : DraftOperation) : b.maxLocals ≤ (b.remains e op).maxLocals := by
  cases op with
  | emit op operands | emitWithEffect op operands _ _ =>
    rw [remains]
    unfold emissionRemains
    split
    · exact Nat.le_refl _
    · simp only
      split
      · rw [maxLocals_branchRemains]
      · split
        · split
          · exact Nat.le_max_left _ _
          · exact Nat.le_refl _
        · exact Nat.le_refl _
  | jump op target => rw [remains, maxLocals_branchRemains]
  | bindLabel label => exact Nat.le_of_eq (maxLocals_bindingRemains b e label).symm
  | bindHandler label =>
    have hopened : (if !b.reachable || b.facts.blockStarts.back? == some b.code.size then
        { b with reachable := false, depth := 1 } else b : CodeDraft).maxLocals = b.maxLocals := by
      split <;> rfl
    simp only [remains, handlerRemains]
    split
    · exact Nat.le_of_eq hopened.symm
    · rw [maxLocals_bindingRemains]
      exact Nat.le_of_eq hopened.symm
  | _ => exact Nat.le_refl _

namespace Laid

/-- An operation that leaves the code as it is. -/
lemma idle (h : Laid items b) (hcode : b'.code = b.code) (hswitches : b'.switches = b.switches)
    (hlocals : b.maxLocals ≤ b'.maxLocals)
    (hwaits : ∀ label source, Waits b' label source → source + 3 ≤ maxCode → Waits b label source) :
    Laid items b' where
  size := hcode ▸ h.size
  tiles := hcode ▸ h.tiles
  stands := hcode ▸ h.stands
  locals := fun start insn hitem => (h.locals start insn hitem).mono hlocals
  waits := by
    intro label source hwait hfits
    rw [hcode]
    exact h.waits label source (hwaits label source hwait hfits) hfits
  reserved := by
    rw [hswitches, hcode]
    exact h.reserved

lemma sameText (h : Laid items b) (hsame : SameText b b') (hlocals : b.maxLocals ≤ b'.maxLocals) :
    Laid items b' := by
  refine h.idle hsame.code hsame.switches hlocals fun label source hwait _ => ?_
  rwa [Waits, hsame.binding] at hwait

lemma newLabel (h : Laid items b) (hnew : CodeDraft.newLabel.outcome b = (.ok label, b')) :
    Laid items b' := by
  obtain ⟨hcode, hswitches, _, hbinding⟩ := newLabel_eq_ok hnew
  refine h.idle hcode hswitches ?_ ?_
  · cases hnew
    exact Nat.le_refl _
  · rintro other source ⟨offset, pending, hother, hsource⟩ _
    by_cases heq : other = label
    · subst heq
      rw [hbinding, Function.update_self] at hother
      cases hother
      cases hsource
    · rw [hbinding, Function.update_of_ne heq] at hother
      exact ⟨offset, pending, hother, hsource⟩

/-- An instruction is added at the end. -/
lemma place {insn : Instruction} {popped pushed : Nat} (h : Laid items b)
    (hplaces : Places b b' insn popped pushed)
    (hwaits : ∀ label source, Waits b' label source → Waits b label source ∨
      source = b.code.size ∧ ∃ op distance, BranchAt b'.code b.code.size op distance)
    (hreserved : ∀ slots ∈ b'.switches, slots ∈ b.switches ∨ slots.start = b.code.size ∧
      ∃ table, SwitchAt b'.code b.code.size table ∧
        slots.casesPatched.size = table.offsets.length) :
    Laid (items ++ [(b.code.size, insn)]) b' := by
  have hkeeps : ∀ q ∈ items.map Prod.fst, Keeps b.code b'.code q := by
    intro q hq other hother i _ hi
    have hend := h.tiles.end_le hq hother
    exact hplaces.kept i (by omega)
  have hstarts : (items ++ [(b.code.size, insn)]).map Prod.fst =
      items.map Prod.fst ++ [b.code.size] := List.map_append
  have hold : ∀ {q}, q ∈ items.map Prod.fst →
      q ∈ (items ++ [(b.code.size, insn)]).map Prod.fst := by
    intro q hq
    rw [hstarts]
    exact List.mem_append_left _ hq
  have hnew : b.code.size ∈ (items ++ [(b.code.size, insn)]).map Prod.fst := by
    rw [hstarts]
    exact List.mem_append_right _ List.mem_cons_self
  refine ⟨hplaces.size, ?_, ?_, ?_, ?_, ?_⟩
  · have htiles : Tiles b'.code 0 (items.map Prod.fst) b.code.size :=
      h.tiles.congr fun q hq other hother =>
        ⟨other, Code.decode_congr hother (hkeeps q hq other hother), rfl⟩
    rw [hstarts, hplaces.grown]
    exact htiles.snoc hplaces.decoded
  · intro start other hitem
    rcases List.mem_append.mp hitem with hitem | hitem
    · obtain ⟨insn', hdecode, hsame⟩ := h.stands start other hitem
      exact ⟨insn', Code.decode_congr hdecode (hkeeps start (List.mem_map_of_mem hitem) _ hdecode),
        hsame⟩
    · cases List.mem_singleton.mp hitem
      exact ⟨insn, hplaces.decoded, .refl insn⟩
  · intro start other hitem
    rcases List.mem_append.mp hitem with hitem | hitem
    · exact (h.locals start other hitem).mono hplaces.maxLocals
    · cases List.mem_singleton.mp hitem
      exact hplaces.locals
  · intro label source hwait hfits
    rcases hwaits label source hwait with hwait | ⟨rfl, hbranch⟩
    · obtain ⟨hsource, op, distance, hbranch⟩ := h.waits label source hwait hfits
      exact ⟨hold hsource, op, distance, hbranch.of_keeps (hkeeps source hsource)⟩
    · exact ⟨hnew, hbranch⟩
  · intro slots hslots
    rcases hreserved slots hslots with hslots | ⟨hstart, hswitch⟩
    · obtain ⟨hstart, table, hswitch, hcount⟩ := h.reserved slots hslots
      exact ⟨hold hstart, table, hswitch.of_keeps (hkeeps _ hstart), hcount⟩
    · rw [hstart]
      exact ⟨hnew, hswitch⟩

/-- An instruction is added at the end, and nothing else changes. -/
lemma appends {insn : Instruction} {popped pushed : Nat} (h : Laid items b)
    (hplaces : Places b b' insn popped pushed) (hbinding : b'.binding = b.binding)
    (hswitches : b'.switches = b.switches) : Laid (items ++ [(b.code.size, insn)]) b' := by
  refine h.place hplaces (fun label source hwait => .inl ?_) fun slots hslots =>
    .inl (hswitches ▸ hslots)
  rwa [Waits, hbinding] at hwait

lemma jumps {op : Opcode} {target : BranchTarget} {insn : Instruction} {popped pushed : Nat}
    (h : Laid items b) (hjump : (jump op target).outcome b = (.ok (), b'))
    (hplaces : Places b b' insn popped pushed) : Laid (items ++ [(b.code.size, insn)]) b' := by
  obtain ⟨traits, distance, depth, b₁, htraits, hform, hresolve, happends⟩ := jump_eq_ok hjump
  cases target with
  | distance given =>
    obtain ⟨rfl, hsame⟩ := resolve_distance_eq_ok hresolve
    have happends' := happends.of_sameText hsame
    exact h.appends hplaces happends'.binding happends'.switches
  | label label =>
    obtain ⟨hcode, hswitches, hlo, hhi, hlabel⟩ := resolve_label_eq_ok hresolve
    rw [← happends.switches] at hswitches
    rcases hlabel with ⟨_, _, _, _, hbinding⟩ | ⟨pending, hbefore, hafter⟩
    · exact h.appends hplaces (happends.binding.trans hbinding) hswitches
    · have hholds := Code.holds_end b₁.code (op.byte :: Bytes.signed 2 distance)
      rw [← happends.code, hcode] at hholds
      have hbranch : BranchAt b'.code b.code.size op distance :=
        ⟨⟨traits, htraits, hform⟩, ⟨hlo, hhi⟩, hholds⟩
      rw [← happends.binding] at hafter
      refine h.place hplaces ?_ fun slots hslots => .inl (hswitches ▸ hslots)
      rintro other source ⟨offset, waiting, hother, hsource⟩
      by_cases heq : other = label
      · subst heq
        rw [hafter, Function.update_self] at hother
        cases hother
        rcases List.mem_cons.mp hsource with rfl | hold
        · exact .inr ⟨rfl, op, distance, hbranch⟩
        · exact .inl ⟨none, pending, hbefore, hold⟩
      · rw [hafter, Function.update_of_ne heq] at hother
        exact .inl ⟨offset, waiting, hother, hsource⟩

lemma encodes {op : Opcode} {operands : List Int} {insn : Instruction} {popped pushed : Nat}
    (h : Laid items b) (hencodes : Encodes b b' op operands)
    (hplaces : Places b b' insn popped pushed) : Laid (items ++ [(b.code.size, insn)]) b' := by
  obtain ⟨_, _, _, _, _, happends⟩ := hencodes
  exact h.appends hplaces happends.binding happends.switches

lemma emits {op : Opcode} {operands : List Int} {insn : Instruction} {popped pushed : Nat}
    (h : Laid items b) (hemit : (emit op operands).outcome b = (.ok (), b'))
    (hplaces : Places b b' insn popped pushed) : Laid (items ++ [(b.code.size, insn)]) b' := by
  rcases emit_eq_ok hemit with hencodes | ⟨distance, _, _, _, hjump⟩
  · exact h.encodes hencodes hplaces
  · exact h.jumps hjump hplaces

lemma reserves {low high : Int} {insn : Instruction} {popped pushed : Nat} (h : Laid items b)
    (hlow : -2147483648 ≤ low) (hhigh : high ≤ 2147483647) (hreserves : Reserves b b' low high)
    (hplaces : Places b b' insn popped pushed) : Laid (items ++ [(b.code.size, insn)]) b' := by
  have hholds := Code.holds_end b.code (Code.reservedBytes b.code.size low high)
  rw [← hreserves.code] at hholds
  have hswitch := Code.switchAt_reservedSwitch hreserves.ordered hlow hhigh hholds
  refine h.place hplaces (fun label source hwait => .inl ?_) fun slots hslots => ?_
  · rwa [Waits, hreserves.binding] at hwait
  · rw [hreserves.switches] at hslots
    rcases Array.mem_push.mp hslots with hold | rfl
    · exact .inl hold
    · exact .inr ⟨rfl, _, hswitch, by simp [Code.reservedSwitch]⟩

/-- An operation that adds an instruction. -/
theorem emission {op : DraftOperation} (h : Laid items b) (hop : op.Encodable)
    (hemits : op.emits = true) (hrun : op.run.outcome b = (.ok (), b')) :
    ∃ insn, op.Spells insn ∧ Laid (items ++ [(b.code.size, insn)]) b' := by
  cases op with
  | emit op operands =>
    obtain ⟨_, insn, _, _, _, _, hplaces, hspells⟩ := emit_places hrun
    exact ⟨insn, hspells, h.emits hrun hplaces⟩
  | emitWithEffect op operands popped pushed =>
    obtain ⟨_, insn, _, _, _, hplaces, hspells⟩ := emitWithEffect_places hrun
    refine ⟨insn, hspells, ?_⟩
    rcases emitWithEffect_eq_ok hrun with hencodes | hemit
    · exact h.encodes hencodes hplaces
    · exact h.emits hemit hplaces
  | jump op target =>
    obtain ⟨_, insn, _, _, _, hplaces, hopcode, _⟩ :=
      jump_places (by rintro distance rfl; exact hop) hrun
    exact ⟨insn, hopcode, h.jumps hrun hplaces⟩
  | reserveSwitch low high =>
    obtain ⟨start, hreserve, _⟩ := Step.map_eq_ok.mp hrun
    obtain ⟨insn, hplaces, hspells⟩ := reserveSwitch_places hop.1 hop.2 hreserve
    exact ⟨insn, hspells, h.reserves hop.1 hop.2 (reserveSwitch_eq_ok hreserve) hplaces⟩
  | _ => cases hemits

/-- Branches that wait for a label lead to it once it is bound. -/
lemma landing {pending : List Nat} {state : LabelStatus} (h : Laid items b) (depth : Nat)
    (hstate : b.labels[label]? = some state)
    (hpending : ∀ s ∈ pending, s ∈ state.pending ∧ patchable b.code.size b.code.size s = true) :
    Laid items (b.landing label depth pending) := by
  have hpatchable := fun s hs => patchable_iff.mp (hpending s hs).2
  have hwait : ∀ s ∈ pending, s ∈ items.map Prod.fst ∧
      ∃ op distance, BranchAt b.code s op distance := by
    intro s hs
    exact h.waits label s ⟨_, _, binding_of_getElem? hstate, (hpending s hs).1⟩
      (Nat.le_trans (hpatchable s hs).2 h.size)
  have hredirects : Code.Redirects b.code (b.landing label depth pending).code (items.map Prod.fst)
      pending.reverse b.code.size := by
    exact h.tiles.redirected (fun s hs => hwait s (List.mem_reverse.mp hs)) fun s hs =>
      (hpatchable s (List.mem_reverse.mp hs)).1
  have hbinding : (b.landing label depth pending).binding =
      Function.update b.binding label (some (some b.code.size, [])) :=
    binding_setLabel (b := { b with depth, reachable := true }) _ hstate
  refine ⟨hredirects.size ▸ h.size, hredirects.tiles, fun s insn hitem => ?_, h.locals,
    fun other source hother hroom => ?_, fun slots hslots => ?_⟩
  · obtain ⟨insn', hdecode, hsame⟩ := h.stands s insn hitem
    by_cases hs : s ∈ pending
    · obtain ⟨_, op, distance, hbranch⟩ := hwait s hs
      have hsent := hredirects.sent s (List.mem_reverse.mpr hs) op distance hbranch
      rw [hbranch.decode_eq] at hdecode
      cases hdecode
      obtain ⟨traits, htraits, hform⟩ := hbranch.branch
      exact ⟨_, hsent.decode_eq, hsame.trans
        ⟨rfl, rfl, .inl (Opcode.isBranch_of_form htraits hform)⟩⟩
    · have hkeeps := hredirects.keeps s (List.mem_map_of_mem hitem) (by rwa [List.mem_reverse])
      exact ⟨insn', Code.decode_congr hdecode (hkeeps _ hdecode), hsame⟩
  · obtain ⟨offset, waiting, hother, hsource⟩ := hother
    rw [hbinding] at hother
    by_cases heq : other = label
    · subst heq
      rw [Function.update_self] at hother
      cases hother
      cases hsource
    · rw [Function.update_of_ne heq] at hother
      obtain ⟨hmem, op, distance, hbranch⟩ :=
        h.waits other source ⟨offset, waiting, hother, hsource⟩ hroom
      exact ⟨hmem, op, hredirects.branchAt hmem hbranch⟩
  · obtain ⟨hstart, table, hswitch, hcount⟩ := h.reserved slots hslots
    refine ⟨hstart, table, hswitch.of_keeps (hredirects.keeps _ hstart fun hs => ?_), hcount⟩
    obtain ⟨_, op, distance, hbranch⟩ := hwait _ (List.mem_reverse.mp hs)
    exact hswitch.not_branchAt op distance hbranch

lemma patches {arm : SwitchArm} {target i : Nat} {slots : SwitchSlots} (h : Laid items b)
    (hpatches : Patches b b' arm target i slots) (hlocals : b'.maxLocals = b.maxLocals) :
    Laid items b' := by
  obtain ⟨hstart, table, hswitch, hcount⟩ :=
    h.reserved slots (Array.mem_of_getElem? hpatches.found)
  have harm := (SwitchSlots.isSome_patched_iff hcount).mp hpatches.valid
  have hsize : b'.code.size = b.code.size := by rw [hpatches.code, size_write]
  -- A target that is too far away is written modulo what four bytes hold.
  obtain ⟨distance, hlo, hhi, hcode⟩ : ∃ distance : Int, -2147483648 ≤ distance ∧
      distance ≤ 2147483647 ∧
      b'.code = write b.code (arm.slot slots.start) (Bytes.signed 4 distance) := by
    have hlo := Int.le_bmod (x := (target : Int) - slots.start) (m := 256 ^ 4) (by decide)
    have hhi := Int.bmod_lt (x := (target : Int) - slots.start) (m := 256 ^ 4) (by decide)
    refine ⟨((target : Int) - slots.start).bmod (256 ^ 4), by omega, by omega, ?_⟩
    rw [Bytes.signed_bmod, hpatches.code]
  obtain ⟨htiles, hkeeps, hnew⟩ := h.tiles.redirectArm hstart hswitch harm hlo hhi
  rw [← hcode] at htiles hkeeps hnew
  refine ⟨hsize ▸ h.size, hsize ▸ htiles, fun s insn hitem => ?_, hlocals ▸ h.locals,
    fun label source hwait hroom => ?_, fun slots' hslots' => ?_⟩
  · obtain ⟨insn', hdecode, hsame⟩ := h.stands s insn hitem
    by_cases hs : s = slots.start
    · subst hs
      rw [hswitch.decode_eq] at hdecode
      cases hdecode
      refine ⟨_, hnew.decode_eq, hsame.trans ⟨rfl, TableSwitch.length_redirect _ _ _, .inr ?_⟩⟩
      simp
    · exact ⟨insn', Code.decode_congr hdecode
        (hkeeps s (List.mem_map_of_mem hitem) hs _ hdecode), hsame⟩
  · rw [Waits, hpatches.binding] at hwait
    obtain ⟨hsource, op, distance', hbranch⟩ := h.waits label source hwait hroom
    refine ⟨hsource, op, distance', hbranch.of_keeps (hkeeps source hsource ?_)⟩
    rintro rfl
    exact hswitch.not_branchAt op distance' hbranch
  · rw [hpatches.switches] at hslots'
    rcases Array.mem_or_eq_of_mem_setIfInBounds hslots' with hold | rfl
    · obtain ⟨hstart', table', hswitch', hcount'⟩ := h.reserved slots' hold
      refine ⟨hstart', ?_⟩
      by_cases hs : slots'.start = slots.start
      · rw [hs] at hswitch' ⊢
        obtain rfl := hswitch.unique hswitch'
        exact ⟨_, hnew, hcount'.trans (TableSwitch.length_offsets_redirect _ _ _).symm⟩
      · exact ⟨table', hswitch'.of_keeps (hkeeps _ hstart' hs), hcount'⟩
    · rw [SwitchSlots.start_mark, SwitchSlots.size_casesPatched_mark]
      exact ⟨hstart, _, hnew, hcount.trans (TableSwitch.length_offsets_redirect _ _ _).symm⟩

/-- Where binding a label succeeds, all branches that wait for it are patched. -/
lemma patchable_of_binds {state : LabelStatus} {pending : List Nat}
    (hbinds : Binds b b' label pending) (hstate : b.labels[label]? = some state) :
    ∀ s ∈ state.pending, s ∈ state.pending ∧ patchable b.code.size b.code.size s = true := by
  intro s hs
  obtain rfl := hbinds.pending_eq hstate
  exact ⟨hs, patchable_iff.mpr ⟨hbinds.fits s hs, hbinds.within s hs⟩⟩

/-- An operation that adds no instruction. -/
theorem revision {op : DraftOperation} (h : Laid items b) (hemits : op.emits = false)
    (hrun : op.run.outcome b = (.ok (), b')) : Laid items b' := by
  cases op with
  | newLabel =>
    obtain ⟨label, hnew, _⟩ := Step.map_eq_ok.mp hrun
    exact h.newLabel hnew
  | bindLabel label =>
    obtain ⟨pending, hbinds⟩ := bindLabel_eq_ok hrun
    obtain ⟨state, hstate, _, _, rfl⟩ := bindLabel_eq hrun
    exact h.landing _ hstate (patchable_of_binds hbinds hstate)
  | bindHandler label =>
    obtain ⟨pending, hbinds⟩ := bindHandler_eq_ok hrun
    obtain ⟨state, hstate, _, _, rfl⟩ := bindHandler_eq hrun
    have hlanded := h.landing (state.depth.getD 1) hstate (patchable_of_binds hbinds hstate)
    exact hlanded.sameText ⟨rfl, rfl, rfl⟩ (Nat.le_refl _)
  | patchDefault start target =>
    obtain ⟨i, slots, _, hpatches⟩ := patchDefault_eq_ok hrun
    obtain ⟨code, switches, rfl⟩ := patchDefault_eq hrun
    exact h.patches hpatches rfl
  | patchCase start index target =>
    obtain ⟨i, slots, _, hpatches⟩ := patchCase_eq_ok hrun
    obtain ⟨code, switches, rfl⟩ := patchCase_eq hrun
    exact h.patches hpatches rfl
  | setDepth depth =>
    obtain rfl := setDepth_eq hrun
    exact h.sameText ⟨rfl, rfl, rfl⟩ (Nat.le_refl _)
  | useLocals index words =>
    obtain rfl := useLocals_eq hrun
    exact h.sameText ⟨rfl, rfl, rfl⟩ (Nat.le_max_left _ _)
  | _ => cases hemits

/-- The branches before one that cannot be patched are patched. -/
lemma bindingRemains (h : Laid items b) (label : Label) :
    Laid items (b.bindingRemains e label) := by
  unfold CodeDraft.bindingRemains
  split
  · exact h
  · rename_i state hstate
    split
    · refine h.landing _ hstate fun s hs => ?_
      have hmem := List.mem_reverse.mp hs
      exact ⟨List.mem_reverse.mp ((List.takeWhile_prefix _).subset hmem),
        List.all_eq_true.mp List.all_takeWhile s hmem⟩
    · exact h

/-- Whatever a failed operation leaves has the same instructions. -/
theorem failure {op : DraftOperation} (h : Laid items b) (hshallow : b.Shallow)
    (hrun : op.run.outcome b = (.error e, b')) : Laid items b' := by
  obtain rfl := run_eq_error hrun
  cases hstrands : b.strands e op with
  | false => exact h.sameText (sameText_remains hstrands) (maxLocals_le_remains op)
  | true =>
    cases op with
    | jump op target =>
      cases target with
      | distance => cases hstrands
      | label label =>
        rw [strands, Bool.and_eq_true] at hstrands
        obtain ⟨hlate, hlabel⟩ := hstrands
        cases hstate : b.labels[label]? with
        | none =>
          rw [hstate] at hlabel
          cases hlabel
        | some state =>
          rw [hstate, Option.any_some, Option.isNone_iff_eq_none] at hlabel
          have hroom := room_of_jump_eq_error hshallow hstate hlabel hlate hrun
          rw [remains, branchRemains, hstate]
          simp only [hlate, if_true, hlabel]
          refine h.idle rfl rfl (Nat.le_refl _) ?_
          rintro other source ⟨offset, pending, hother, hsource⟩ hfits
          rw [relabelled, binding_setLabel _ hstate] at hother
          by_cases heq : other = label
          · subst heq
            rw [Function.update_self] at hother
            cases hother
            rcases List.mem_cons.mp hsource with rfl | hold
            · omega
            · exact ⟨_, _, binding_of_getElem? hstate, hold⟩
          · rw [Function.update_of_ne heq] at hother
            exact ⟨offset, pending, hother, hsource⟩
    | bindLabel label => exact h.bindingRemains label
    | bindHandler label =>
      -- Taking the end of the code for the start of the handler leaves text and labels alone.
      have hopened : ∃ opened : CodeDraft, SameText b opened ∧ opened.labels = b.labels ∧
          opened.maxLocals = b.maxLocals ∧ opened = if !b.reachable ||
            b.facts.blockStarts.back? == some b.code.size then
              { b with reachable := false, depth := 1 } else b := by
        refine ⟨_, ?_, ?_, ?_, rfl⟩
        · split
          · exact ⟨rfl, rfl, rfl⟩
          · exact .refl b
        · split <;> rfl
        · split <;> rfl
      obtain ⟨opened, hsame, hlabels, hlocals, hopen⟩ := hopened
      have hlaid := h.sameText hsame (Nat.le_of_eq hlocals.symm)
      simp only [remains, handlerRemains, ← hopen]
      cases hstate : b.labels[label]? with
      | none => exact hlaid
      | some state =>
        have hstate' : opened.labels[label]? = some state := hlabels ▸ hstate
        exact (hlaid.sameText (sameText_relabelled hstate') (Nat.le_refl _)).bindingRemains label
    | _ => cases hstrands

lemma empty : Laid [] .empty where
  size := Nat.zero_le _
  tiles := .nil 0
  stands _ _ hitem := by cases hitem
  locals _ _ hitem := by cases hitem
  waits := by
    rintro label source ⟨_, _, hnone, _⟩
    cases hnone
  reserved _ hslots := absurd hslots (Array.not_mem_empty _)

/-- An operation that succeeds at most adds an instruction. -/
theorem step {op : DraftOperation} (h : Laid items b) (hop : op.Encodable)
    (hrun : op.run.outcome b = (.ok (), b')) : ∃ later, Laid (items ++ later) b' := by
  cases hemits : op.emits with
  | false => exact ⟨[], by simpa using h.revision hemits hrun⟩
  | true =>
    obtain ⟨insn, _, hlaid⟩ := h.emission hop hemits hrun
    exact ⟨_, hlaid⟩

end Laid

/-- There is room for every branch that waits. -/
def Anchored (b : CodeDraft) : Prop := ∀ label source, Waits b label source → source + 3 ≤ maxCode

namespace Anchored

lemma empty : Anchored .empty := by
  rintro label source ⟨_, _, hnone, _⟩
  cases hnone

lemma of_binding (h : b.Anchored) (hbinding : b'.binding = b.binding) : b'.Anchored := by
  intro label source hwaits
  rw [Waits, hbinding] at hwaits
  exact h label source hwaits

/-- The state of one label changes. -/
lemma relabelled {offset : Option Nat} {pending : List Nat} (h : b.Anchored)
    (hbinding : b'.binding = Function.update b.binding label (some (offset, pending)))
    (hpending : ∀ source ∈ pending, source + 3 ≤ maxCode) : b'.Anchored := by
  rintro other source ⟨offset', pending', hother, hsource⟩
  by_cases heq : other = label
  · subst heq
    rw [hbinding, Function.update_self] at hother
    cases hother
    exact hpending source hsource
  · rw [hbinding, Function.update_of_ne heq] at hother
    exact h other source ⟨offset', pending', hother, hsource⟩

lemma jumps {op : Opcode} {target : BranchTarget} (h : b.Anchored)
    (hjump : (jump op target).outcome b = (.ok (), b')) : b'.Anchored := by
  obtain ⟨traits, distance, depth, b₁, _, _, hresolve, happends⟩ := jump_eq_ok hjump
  cases target with
  | distance given =>
    obtain ⟨rfl, hsame⟩ := resolve_distance_eq_ok hresolve
    exact h.of_binding (happends.of_sameText hsame).binding
  | label label =>
    obtain ⟨hcode, _, _, _, ⟨_, _, _, _, hbinding⟩ | ⟨pending, hbefore, hafter⟩⟩ :=
      resolve_label_eq_ok hresolve
    · exact h.of_binding (happends.binding.trans hbinding)
    · refine h.relabelled (happends.binding.trans hafter) fun source hsource => ?_
      rcases List.mem_cons.mp hsource with rfl | hold
      · have hsize := happends.size
        rw [happends.code, Code.size_appendList, hcode] at hsize
        simpa [Bytes.length_signed] using hsize
      · exact h label source ⟨none, pending, hbefore, hold⟩

lemma emits {op : Opcode} {operands : List Int} (h : b.Anchored)
    (hemit : (emit op operands).outcome b = (.ok (), b')) : b'.Anchored := by
  rcases emit_eq_ok hemit with ⟨_, _, _, _, _, happends⟩ | ⟨distance, _, _, _, hjump⟩
  · exact h.of_binding happends.binding
  · exact h.jumps hjump

theorem step {op : DraftOperation} (h : b.Anchored) (hrun : op.run.outcome b = (.ok (), b')) :
    b'.Anchored := by
  cases op with
  | emit op operands => exact h.emits hrun
  | emitWithEffect op operands popped pushed =>
    rcases emitWithEffect_eq_ok hrun with ⟨_, _, _, _, _, happends⟩ | hemit
    · exact h.of_binding happends.binding
    · exact h.emits hemit
  | jump op target => exact h.jumps hrun
  | newLabel =>
    obtain ⟨label, hnew, _⟩ := Step.map_eq_ok.mp hrun
    obtain ⟨_, _, _, hbinding⟩ := newLabel_eq_ok hnew
    exact h.relabelled hbinding fun source hsource => by cases hsource
  | bindLabel label =>
    obtain ⟨pending, hbinds⟩ := bindLabel_eq_ok hrun
    exact h.relabelled hbinds.after fun source hsource => by cases hsource
  | bindHandler label =>
    obtain ⟨pending, hbinds⟩ := bindHandler_eq_ok hrun
    exact h.relabelled hbinds.after fun source hsource => by cases hsource
  | reserveSwitch low high =>
    obtain ⟨start, hreserve, _⟩ := Step.map_eq_ok.mp hrun
    exact h.of_binding (reserveSwitch_eq_ok hreserve).binding
  | patchDefault start target =>
    obtain ⟨i, slots, _, hpatches⟩ := patchDefault_eq_ok hrun
    exact h.of_binding hpatches.binding
  | patchCase start index target =>
    obtain ⟨i, slots, _, hpatches⟩ := patchCase_eq_ok hrun
    exact h.of_binding hpatches.binding
  | setDepth depth => exact h.of_binding (setDepth_eq_ok hrun).binding
  | useLocals index words => exact h.of_binding (useLocals_eq_ok hrun).binding

/-- The branches that wait lie in the code. -/
lemma inside (h : b.Anchored) (hlaid : Laid items b) {source : Nat} (hwaits : Waits b label source) :
    source + 3 ≤ b.code.size := by
  obtain ⟨hmem, op, distance, hbranch⟩ := hlaid.waits label source hwaits (h label source hwaits)
  exact hlaid.tiles.end_le hmem hbranch.decode_eq

/-- Branches that wait for labels share no byte. -/
lemma apart (h : b.Anchored) (hlaid : Laid items b) {label' : Label} {s s' : Nat}
    (hs : Waits b label s) (hs' : Waits b label' s') (hlt : s < s') : s + 3 ≤ s' := by
  obtain ⟨hmem, op, distance, hbranch⟩ := hlaid.waits label s hs (h label s hs)
  obtain ⟨hmem', _⟩ := hlaid.waits label' s' hs' (h label' s' hs')
  exact hlaid.tiles.apart hmem hmem' hlt hbranch.decode_eq

end Anchored

/-- Operations that all succeed keep the code laid out, with room for what waits. -/
theorem Laid.run {ops : List DraftOperation} (h : Laid items b) (hanchored : b.Anchored)
    (hops : ∀ op ∈ ops, op.Encodable)
    (hrun : (ops.forM DraftOperation.run).outcome b = (.ok (), b')) :
    ∃ later, Laid (items ++ later) b' ∧ b'.Anchored := by
  induction ops generalizing b items with
  | nil =>
    cases hrun
    exact ⟨[], by simpa using h, hanchored⟩
  | cons op ops ih =>
    rw [List.forM, Step.bind_eq_ok] at hrun
    obtain ⟨_, b₁, hop, hrun⟩ := hrun
    rw [List.forall_mem_cons] at hops
    obtain ⟨next, hnext⟩ := h.step hops.1 hop
    obtain ⟨later, hlater, hanchored'⟩ := ih hnext (hanchored.step hop) hops.2 hrun
    exact ⟨next ++ later, by simpa using hlater, hanchored'⟩

end Layout
end CodeDraft
end ClassAssembly

import ClassAssembly.Proofs.DraftLedger
import ClassAssembly.Proofs.EmittedCode

/-! The control flow that a draft records while it is emitted is that of its finished code: all jumps
are recorded, and the ends of the instructions that never go on to the next one. -/
namespace ClassAssembly

namespace Code

/-- Control may jump from the instruction at `pc` to an offset. -/
def JumpsTo (code : Array UInt8) (pc : Nat) (target : Int) : Prop :=
  ∃ insn traits targets, decode code pc = .ok insn ∧ insn.opcode.traits = .ok traits ∧
    jumpTargets code pc insn traits.flow = .ok targets ∧ target ∈ targets

/-- Where the instruction at `pc` ends, if control never goes on from it to the next one. -/
def transferEnd? (code : Array UInt8) (pc : Nat) : Option Nat :=
  match decode code pc with
  | .error _ => none
  | .ok insn =>
    match insn.opcode.traits with
    | .error _ => none
    | .ok traits => if traits.flow.isUnconditional then some (pc + insn.length) else none

lemma transferEnd?_eq {code : Array UInt8} {pc : Nat} {insn : Instruction} {traits : OpcodeTraits}
    (hdecode : decode code pc = .ok insn) (htraits : insn.opcode.traits = .ok traits) :
    transferEnd? code pc =
      if traits.flow.isUnconditional then some (pc + insn.length) else none := by
  unfold transferEnd?
  rw [hdecode]
  simp only
  rw [htraits]

/-- A jump is that of a branch or that of an arm of a switch. -/
lemma JumpsTo.cases {code : Array UInt8} {pc : Nat} {target : Int} (h : JumpsTo code pc target) :
    ∃ insn traits, decode code pc = .ok insn ∧ insn.opcode.traits = .ok traits ∧
      (traits.flow.isJump = true ∧ target = pc + insn.first ∨
        traits.flow = .switch ∧ ∃ table arm distance, decodeSwitch code pc = .ok table ∧
          table.distance arm = some distance ∧ target = pc + distance) := by
  obtain ⟨insn, traits, targets, hdecode, htraits, htargets, hmem⟩ := h
  refine ⟨insn, traits, hdecode, htraits, ?_⟩
  cases hflow : traits.flow <;> simp only [hflow, jumpTargets] at htargets
  case branch | jump =>
    cases htargets
    exact .inl ⟨rfl, List.mem_singleton.mp hmem⟩
  case switch =>
    obtain ⟨table, htable, heq⟩ := Except.bind_eq_ok.mp htargets
    cases heq
    obtain ⟨distance, hdistance, rfl⟩ := List.mem_map.mp hmem
    refine .inr ⟨rfl, table, ?_⟩
    rcases List.mem_cons.mp hdistance with rfl | hcase
    · exact ⟨.default, table.default, htable, rfl, rfl⟩
    · obtain ⟨index, hindex⟩ := List.getElem?_of_mem hcase
      exact ⟨.case index, distance, htable, hindex, rfl⟩
  all_goals
    cases htargets
    cases hmem

end Code

/-- The facts tell all jumps of some code, and where the instructions end that never go on to the
next one. -/
structure ControlFacts.Complete (facts : ControlFacts) (code : Array UInt8) (starts : List Nat) :
    Prop where
  jumps : ∀ pc ∈ starts, ∀ target, Code.JumpsTo code pc target → (pc, target) ∈ facts.jumps
  ends : facts.blockStarts.toList = starts.filterMap (Code.transferEnd? code)

namespace DraftOperation

/-- How control leaves the instruction that the operation adds to the code. -/
def flow? : DraftOperation → Option Flow
  | emit op _ | emitWithEffect op _ _ _ | jump op _ => op.traits.toOption.map (·.flow)
  | reserveSwitch _ _ => some .switch
  | _ => none

/-- Control never goes on from that instruction to the next one. -/
def transfers (op : DraftOperation) : Bool := op.flow?.any Flow.isUnconditional

/-- Where the instructions end that never go on to the next one, in code that ends at `stop`. -/
def transferEnds (stop : Nat) : List (Nat × DraftOperation) → List Nat
  | [] => []
  | (_, op) :: rest =>
    (if op.transfers then [(rest.head?.map Prod.fst).getD stop] else []) ++ transferEnds stop rest

lemma transferEnds_snoc (stop stop' : Nat) (op : DraftOperation)
    (items : List (Nat × DraftOperation)) :
    transferEnds stop' (items ++ [(stop, op)]) =
      transferEnds stop items ++ if op.transfers then [stop'] else [] := by
  induction items with
  | nil => simp [transferEnds]
  | cons item rest ih =>
    obtain ⟨start, other⟩ := item
    have hhead : ((rest ++ [(stop, op)]).head?.map Prod.fst).getD stop' =
        (rest.head?.map Prod.fst).getD stop := by
      cases rest <;> rfl
    rw [List.cons_append, transferEnds, transferEnds, hhead, ih, List.append_assoc]

/-- The same ends, found by decoding the instructions. -/
lemma transferEnds_eq {code : Array UInt8} {pc stop : Nat} {items : List (Nat × DraftOperation)}
    (htiles : Code.Tiles code pc (items.map Prod.fst) stop)
    (hflow : ∀ start op, (start, op) ∈ items → ∃ insn traits, Code.decode code start = .ok insn ∧
      insn.opcode.traits = .ok traits ∧ op.flow? = some traits.flow) :
    transferEnds stop items = (items.map Prod.fst).filterMap (Code.transferEnd? code) := by
  induction items generalizing pc with
  | nil => rfl
  | cons item rest ih =>
    obtain ⟨start, op⟩ := item
    obtain ⟨insn, traits, hdecode, htraits, hop⟩ := hflow start op List.mem_cons_self
    rw [List.map_cons] at htiles
    cases htiles with
    | cons hdecode' hrest =>
      rw [hdecode] at hdecode'
      cases hdecode'
      have hnext : (rest.head?.map Prod.fst).getD stop = start + insn.length := by
        cases rest with
        | nil =>
          cases hrest
          rfl
        | cons next _ =>
          obtain ⟨next, _⟩ := next
          cases hrest
          rfl
      rw [transferEnds, List.map_cons, List.filterMap_cons, Code.transferEnd?_eq hdecode htraits,
        ih hrest fun start op hitem => hflow start op (List.mem_cons_of_mem _ hitem), hnext,
        transfers, hop, Option.any_some]
      cases traits.flow.isUnconditional <;> rfl

end DraftOperation

/-- The longer opcode for a constant leaves control alone as the shorter one does. -/
lemma Opcode.flow_spelled {op : Opcode} {traits traits' : OpcodeTraits} {first : Int}
    (h : op.traits = .ok traits) (h' : (op.spelled first).traits = .ok traits') :
    traits'.flow = traits.flow := by
  unfold spelled at h'
  split at h'
  · rename_i hldc
    obtain ⟨rfl, _⟩ := hldc
    have hshort : ldc.traits.map (·.flow) = .ok .normal := by decide +kernel
    have hlong : ldcWide.traits.map (·.flow) = .ok .normal := by decide +kernel
    rw [h] at hshort
    rw [h'] at hlong
    exact (Except.ok.inj hlong).trans (Except.ok.inj hshort).symm
  · rw [h] at h'
    cases h'
    rfl

lemma Opcode.flow_tableswitch {traits : OpcodeTraits} (h : tableswitch.traits = .ok traits) :
    traits.flow = .switch := by
  have hflow : tableswitch.traits.map (·.flow) = .ok .switch := by decide +kernel
  rw [h] at hflow
  exact Except.ok.inj hflow

/-- The opcode jumps by the distance that is its operand. -/
def Opcode.IsBranch (op : Opcode) : Prop :=
  ∃ traits, op.traits = .ok traits ∧ traits.flow.isJump = true

/-- Only operands that are no distances to other instructions are encoded. -/
lemma Opcode.form_of_encode {op : Opcode} {form : OperandForm} {first second : Int} {bytes : Bytes}
    (h : op.encode form first second = .ok bytes) : form ≠ .branch ∧ form ≠ .switch := by
  constructor <;>
    · rintro rfl
      cases h

namespace CodeDraft

open DraftOperation (lastTarget Retargets transferEnds)

variable {b b' : CodeDraft} {done done' : List DraftOperation}
  {items : List (Nat × DraftOperation)} {start : Nat} {op : DraftOperation}

lemma Patches.size_eq {arm : SwitchArm} {target i : Nat} {slots : SwitchSlots}
    (h : Patches b b' arm target i slots) : b'.code.size = b.code.size := by
  rw [h.code, size_write]

lemma binding_of_boundAt {label : Label} {offset : Option Nat}
    (h : (boundAt label).outcome b = (.ok offset, b')) :
    ∃ pending, b.binding label = some (offset, pending) := by
  obtain ⟨state, _, hstatus, heq⟩ := Step.bind_eq_ok.mp h
  obtain ⟨rfl, hstate⟩ := labelStatus_eq_ok hstatus
  cases heq
  exact ⟨state.pending, binding_of_getElem? hstate⟩

/-- All jumps from the instruction at `start` that are known so far have been recorded. -/
def Noted (b : CodeDraft) (done : List DraftOperation) (start : Nat) : DraftOperation → Prop
  | .emit op operands | .emitWithEffect op operands _ _ => ∃ traits, op.traits = .ok traits ∧
    traits.flow ≠ .switch ∧ (traits.flow.isJump = true → ∃ distance, operands = [distance] ∧
      (start, start + distance) ∈ b.facts.jumps)
  | .jump op (.distance distance) => op.IsBranch ∧ (start, start + distance) ∈ b.facts.jumps
  | .jump op (.label label) => op.IsBranch ∧ ∀ (target : Nat) pending,
    b.binding label = some (some target, pending) → (start, (target : Int)) ∈ b.facts.jumps
  | .reserveSwitch _ _ => ∀ arm (target : Nat), lastTarget done start arm = some target →
    (start, (target : Int)) ∈ b.facts.jumps
  | _ => True

/-- What has been recorded stays so, if what becomes known is recorded too. -/
lemma Noted.mono (h : Noted b done start op) (hjumps : ∀ jump ∈ b.facts.jumps, jump ∈ b'.facts.jumps)
    (hbound : ∀ jump label, op = .jump jump (.label label) → ∀ (target : Nat) pending,
      b'.binding label = some (some target, pending) →
        (∃ pending, b.binding label = some (some target, pending)) ∨
          (start, (target : Int)) ∈ b'.facts.jumps)
    (hlast : ∀ arm (target : Nat), lastTarget done' start arm = some target →
      lastTarget done start arm = some target ∨ (start, (target : Int)) ∈ b'.facts.jumps) :
    Noted b' done' start op := by
  match op, h with
  | .emit .., ⟨traits, htraits, hflow, hjump⟩ | .emitWithEffect .., ⟨traits, htraits, hflow, hjump⟩ =>
    refine ⟨traits, htraits, hflow, fun hbranch => ?_⟩
    obtain ⟨distance, heq, hmem⟩ := hjump hbranch
    exact ⟨distance, heq, hjumps _ hmem⟩
  | .jump _ (.distance _), ⟨hbranch, h⟩ => exact ⟨hbranch, hjumps _ h⟩
  | .jump jump (.label label), ⟨hbranch, h⟩ =>
    refine ⟨hbranch, fun target pending hbinding => ?_⟩
    rcases hbound jump label rfl target pending hbinding with ⟨pending', hbefore⟩ | hnew
    · exact hjumps _ (h target pending' hbefore)
    · exact hnew
  | .reserveSwitch .., h =>
    intro arm target htarget
    rcases hlast arm target htarget with hbefore | hnew
    · exact hjumps _ (h arm target hbefore)
    · exact hnew
  | .newLabel, _ | .bindLabel _, _ | .bindHandler _, _ | .patchDefault .., _ | .patchCase .., _
  | .setDepth _, _ | .useLocals .., _ => trivial

/-- The draft has recorded the control flow of the instructions emitted. -/
structure Recorded (done : List DraftOperation) (items : List (Nat × DraftOperation))
    (b : CodeDraft) : Prop where
  noted : ∀ start op, (start, op) ∈ items → Noted b done start op
  ends : b.facts.blockStarts.toList = transferEnds b.code.size items

namespace Recorded

lemma empty : Recorded [] [] .empty := ⟨nofun, rfl⟩

/-- An operation that adds no instruction. -/
lemma idle (h : Recorded done items b) (hsize : b'.code.size = b.code.size)
    (hends : b'.facts.blockStarts = b.facts.blockStarts)
    (hjumps : ∀ jump ∈ b.facts.jumps, jump ∈ b'.facts.jumps)
    (hbound : ∀ start jump label, (start, .jump jump (.label label)) ∈ items →
      ∀ (target : Nat) pending, b'.binding label = some (some target, pending) →
        (∃ pending, b.binding label = some (some target, pending)) ∨
          (start, (target : Int)) ∈ b'.facts.jumps)
    (hlast : ∀ start arm (target : Nat), lastTarget done' start arm = some target →
      lastTarget done start arm = some target ∨ (start, (target : Int)) ∈ b'.facts.jumps) :
    Recorded done' items b' where
  noted start op hitem := by
    refine (h.noted start op hitem).mono hjumps ?_ (hlast start)
    rintro jump label rfl
    exact hbound start jump label hitem
  ends := by rw [hends, hsize, h.ends]

/-- An operation that touches neither the control flow nor what labels are bound to. -/
lemma unchanged (h : Recorded done items b) (hlast : lastTarget done' = lastTarget done)
    (hsize : b'.code.size = b.code.size) (hfacts : b'.facts = b.facts)
    (hbound : ∀ label (target : Nat) pending, b'.binding label = some (some target, pending) →
      ∃ pending, b.binding label = some (some target, pending)) : Recorded done' items b' := by
  refine h.idle hsize (by rw [hfacts]) (fun jump hjump => by rwa [hfacts]) ?_ ?_
  · intro start jump label _ target pending hbinding
    exact .inl (hbound label target pending hbinding)
  · intro start arm target htarget
    exact .inl (hlast ▸ htarget)

/-- An operation that adds an instruction. -/
lemma extend (h : Recorded done items b) (hlast : lastTarget done' = lastTarget done)
    (hjumps : ∀ jump ∈ b.facts.jumps, jump ∈ b'.facts.jumps)
    (hbound : ∀ label (target : Nat) pending, b'.binding label = some (some target, pending) →
      ∃ pending, b.binding label = some (some target, pending))
    (hends : b'.facts.blockStarts.toList =
      b.facts.blockStarts.toList ++ if op.transfers then [b'.code.size] else [])
    (hop : Noted b' done' b.code.size op) :
    Recorded done' (items ++ [(b.code.size, op)]) b' where
  noted start other hitem := by
    rcases List.mem_append.mp hitem with hold | hnew
    · refine (h.noted start other hold).mono hjumps ?_ fun arm target htarget => .inl ?_
      · intro jump label _ target pending hbinding
        exact .inl (hbound label target pending hbinding)
      · rwa [hlast] at htarget
    · cases List.mem_singleton.mp hnew
      exact hop
  ends := by rw [DraftOperation.transferEnds_snoc, hends, h.ends]

/-- An instruction that has been encoded does not jump. -/
lemma encodes (h : Recorded done items b) {opcode : Opcode} {operands : List Int} {words : Nat × Nat}
    (hlast : lastTarget done' = lastTarget done) (hemits : Emits b b' opcode operands words)
    (hflow : op.flow? = opcode.traits.toOption.map (·.flow))
    (hop : Noted b' done' b.code.size (.emit opcode operands) → Noted b' done' b.code.size op) :
    Recorded done' (items ++ [(b.code.size, op)]) b' := by
  obtain ⟨traits, bytes, maxLocals, htraits, hencode, _, rfl⟩ := hemits
  obtain ⟨hbranch, hswitch⟩ := Opcode.form_of_encode hencode
  have htransfers : op.transfers = traits.flow.isUnconditional := by
    rw [DraftOperation.transfers, hflow, htraits]
    rfl
  refine h.extend hlast (fun jump hjump => hjump) (fun label target pending hbinding =>
    ⟨pending, hbinding⟩) ?_ (hop ⟨traits, htraits, ?_, ?_⟩)
  · rw [htransfers]
    exact ends_extended _ _ _ _ _
  · exact fun hflow => hswitch (Opcode.form_of_switch htraits hflow)
  · exact fun hflow => absurd (Opcode.form_of_jump htraits hflow) hbranch

/-- A branch is recorded at once, unless its label is still to be bound. -/
lemma jumps (h : Recorded done items b) {opcode : Opcode} {target : BranchTarget}
    (hlast : lastTarget done' = lastTarget done)
    (hjump : (jump opcode target).outcome b = (.ok (), b'))
    (hflow : op.flow? = opcode.traits.toOption.map (·.flow))
    (hop : ∀ traits, opcode.traits = .ok traits → traits.flow.isJump = true →
      (∀ distance, target = .distance distance →
        (b.code.size, b.code.size + distance) ∈ b'.facts.jumps) →
      (∀ label, target = .label label → ∀ (target : Nat) pending,
        b'.binding label = some (some target, pending) →
          (b.code.size, (target : Int)) ∈ b'.facts.jumps) →
      Noted b' done' b.code.size op) :
    Recorded done' (items ++ [(b.code.size, op)]) b' := by
  obtain ⟨traits, popped, distance, b₁, htraits, hbranch, _, hresolve, _, rfl⟩ := jump_eq hjump
  have htransfers : op.transfers = traits.flow.isUnconditional := by
    rw [DraftOperation.transfers, hflow, htraits]
    rfl
  -- What is known of the draft between resolving the branch and appending it.
  have hmiddle : b₁.facts.blockStarts = b.facts.blockStarts → (∀ jump ∈ b.facts.jumps,
      jump ∈ b₁.facts.jumps) → (∀ label (target : Nat) pending,
        b₁.binding label = some (some target, pending) →
          ∃ pending, b.binding label = some (some target, pending)) →
      Noted (b₁.extended (opcode.byte :: Bytes.signed 2 distance) popped 0 traits.flow) done'
        b.code.size op →
      Recorded done' (items ++ [(b.code.size, op)])
        (b₁.extended (opcode.byte :: Bytes.signed 2 distance) popped 0 traits.flow) := by
    intro hends hjumps hbound hop
    refine h.extend hlast hjumps hbound ?_ hop
    rw [htransfers, ends_extended, hends]
  cases target with
  | distance distance =>
    obtain rfl := resolve_distance_eq hresolve
    refine hmiddle rfl (fun jump hjump => Array.mem_push_of_mem _ hjump)
      (fun label target pending hbinding => ⟨pending, hbinding⟩) (hop traits htraits hbranch ?_ nofun)
    rintro _ ⟨⟩
    exact Array.mem_push_self
  | label label =>
    obtain ⟨state, hstate, _, ⟨target, hoffset, rfl⟩ | ⟨hoffset, rfl⟩⟩ := resolve_label_eq hresolve
    · have hbinding : CodeDraft.binding ((b.relabelled label
          { state with depth := some (b.depth - popped) }).jumping b.code.size target) = b.binding :=
        (sameText_setLabel hstate).binding
      refine hmiddle rfl (fun jump hjump => Array.mem_push_of_mem _ hjump) ?_
        (hop traits htraits hbranch nofun ?_)
      · intro other target' pending hother
        rw [hbinding] at hother
        exact ⟨pending, hother⟩
      · rintro _ ⟨⟩ target' pending hself
        have hself' : b.binding label = some (some target', pending) := hbinding ▸ hself
        rw [binding_of_getElem? hstate, hoffset] at hself'
        cases hself'
        exact Array.mem_push_self
    · have hbinding := binding_setLabel
        { state with depth := some (b.depth - popped), pending := b.code.size :: state.pending } hstate
      refine hmiddle rfl (fun jump hjump => hjump) ?_ (hop traits htraits hbranch nofun ?_)
      · intro other target' pending hother
        rw [relabelled, hbinding] at hother
        by_cases heq : other = label
        · subst heq
          rw [Function.update_self, hoffset] at hother
          cases hother
        · rw [Function.update_of_ne heq] at hother
          exact ⟨pending, hother⟩
      · rintro _ ⟨⟩ target' pending hself
        have hwaits : (b.relabelled label { state with
            depth := some (b.depth - popped), pending := b.code.size :: state.pending }).binding
              label = some (some target', pending) := hself
        rw [relabelled, hbinding, Function.update_self, hoffset] at hwaits
        cases hwaits

lemma emits (h : Recorded done items b) {opcode : Opcode} {operands : List Int}
    (hlast : lastTarget done' = lastTarget done)
    (hemit : (emit opcode operands).outcome b = (.ok (), b'))
    (hflow : op.flow? = opcode.traits.toOption.map (·.flow))
    (hop : Noted b' done' b.code.size (.emit opcode operands) → Noted b' done' b.code.size op) :
    Recorded done' (items ++ [(b.code.size, op)]) b' := by
  rcases emit_eq hemit with ⟨_, words, _, _, hemits⟩ | ⟨distance, rfl, hjump⟩
  · exact h.encodes hlast hemits hflow hop
  · refine h.jumps hlast hjump hflow fun traits htraits hbranch hdistance _ => hop ?_
    refine ⟨traits, htraits, fun hswitch => ?_, fun _ => ⟨distance, rfl, hdistance distance rfl⟩⟩
    rw [hswitch] at hbranch
    cases hbranch

/-- The branches that waited for a label are recorded when it is bound. -/
lemma binds (h : Recorded done items b) (hreflects : Reflects done items b) {label : Label}
    {pending : List Nat} (hlast : lastTarget done' = lastTarget done)
    (hbinds : Binds b b' label pending)
    (hends : b'.facts.blockStarts = b.facts.blockStarts)
    (hjumps : b'.facts.jumps = b.facts.jumps ++
      (pending.reverse.map fun source => (source, (b.code.size : Int))).toArray) :
    Recorded done' items b' := by
  have hsize : b'.code.size = b.code.size := by rw [hbinds.code, size_redirected]
  refine h.idle hsize hends (fun jump hjump => ?_) (fun start jump other hitem target waiting hother => ?_)
    fun start arm target htarget => .inl (hlast ▸ htarget)
  · rw [hjumps]
    exact Array.mem_append_left _ hjump
  · by_cases heq : other = label
    · subst heq
      rw [hbinds.after, Function.update_self] at hother
      cases hother
      obtain ⟨distance, _, offset, waiting, hbefore, hwaits, _⟩ := hreflects.mirrors _ _ hitem
      rw [hbinds.before] at hbefore
      cases hbefore
      right
      rw [hjumps]
      exact Array.mem_append_right _ (by simpa using hwaits rfl)
    · rw [hbinds.after, Function.update_of_ne heq] at hother
      exact .inl ⟨waiting, hother⟩

/-- A target of a switch is recorded when it is given. -/
lemma patches (h : Recorded done items b) {arm : SwitchArm} {s target : Nat} {code : Array UInt8}
    {switches : Array SwitchSlots} (hsize : code.size = b.code.size)
    (hlast : Retargets done done' s arm target) :
    Recorded done' items { b.jumping s target with code, switches } := by
  refine h.idle hsize rfl (fun jump hjump => Array.mem_push_of_mem _ hjump)
    (fun _ _ _ _ found pending hbinding => .inl ⟨pending, hbinding⟩)
    fun start other found hfound => ?_
  rw [hlast] at hfound
  split at hfound
  · rename_i heq
    obtain ⟨rfl, rfl⟩ := heq
    cases hfound
    exact .inr Array.mem_push_self
  · exact .inl hfound

/-- One operation records what it adds to the control flow. -/
theorem step (h : Recorded done items b) (hreflects : Reflects done items b)
    (hrun : op.run.outcome b = (.ok (), b')) :
    Recorded (done ++ [op]) (items ++ op.emission b) b' := by
  have hlast : (∀ start arm, op.target? start arm = none) →
      lastTarget (done ++ [op]) = lastTarget done :=
    fun hnone => DraftOperation.lastTarget_append_of_none hnone done
  cases op with
  | emit op operands => exact h.emits (hlast fun _ _ => rfl) hrun rfl id
  | emitWithEffect op operands popped pushed =>
    rcases emitWithEffect_eq hrun with ⟨_, _, _, hemits⟩ | hemit
    · exact h.encodes (hlast fun _ _ => rfl) hemits rfl id
    · exact h.emits (hlast fun _ _ => rfl) hemit rfl id
  | jump op target =>
    refine h.jumps (hlast fun _ _ => rfl) hrun rfl fun traits htraits hbranch hdistance hlabel => ?_
    cases target with
    | distance distance => exact ⟨⟨traits, htraits, hbranch⟩, hdistance distance rfl⟩
    | label label => exact ⟨⟨traits, htraits, hbranch⟩, hlabel label rfl⟩
  | reserveSwitch low high =>
    obtain ⟨_, hreserve, _⟩ := Step.map_eq_ok.mp hrun
    obtain ⟨rfl, _, bytes, switches, rfl⟩ := reserveSwitch_eq hreserve
    refine h.extend (hlast fun _ _ => rfl) (fun jump hjump => hjump)
      (fun label target pending hbinding => ⟨pending, hbinding⟩) (ends_extended b bytes 1 0 .switch) ?_
    intro arm target htarget
    rw [hlast fun _ _ => rfl, hreflects.later _ (Nat.le_refl _) arm] at htarget
    cases htarget
  | newLabel =>
    rw [DraftOperation.emission_eq_nil rfl, List.append_nil]
    obtain ⟨label, hnew, _⟩ := Step.map_eq_ok.mp hrun
    obtain ⟨_, _, _, hbinding⟩ := newLabel_eq_ok hnew
    cases hnew
    refine h.unchanged (hlast fun _ _ => rfl) rfl rfl fun other target pending hother => ?_
    by_cases heq : other = b.labels.size
    · rw [hbinding, heq, Function.update_self] at hother
      cases hother
    · rw [hbinding, Function.update_of_ne heq] at hother
      exact ⟨pending, hother⟩
  | bindLabel label =>
    rw [DraftOperation.emission_eq_nil rfl, List.append_nil]
    obtain ⟨pending, hbinds⟩ := bindLabel_eq_ok hrun
    obtain ⟨state, hstate, hoffset, _, rfl⟩ := bindLabel_eq hrun
    obtain rfl := hbinds.pending_eq hstate
    exact h.binds hreflects (hlast fun _ _ => rfl) hbinds rfl rfl
  | bindHandler label =>
    rw [DraftOperation.emission_eq_nil rfl, List.append_nil]
    obtain ⟨pending, hbinds⟩ := bindHandler_eq_ok hrun
    obtain ⟨state, hstate, hoffset, _, rfl⟩ := bindHandler_eq hrun
    obtain rfl := hbinds.pending_eq hstate
    exact h.binds hreflects (hlast fun _ _ => rfl) hbinds rfl rfl
  | patchDefault start target =>
    rw [DraftOperation.emission_eq_nil rfl, List.append_nil]
    obtain ⟨_, _, _, hpatches⟩ := patchDefault_eq_ok hrun
    obtain ⟨code, switches, rfl⟩ := patchDefault_eq hrun
    exact h.patches hpatches.size_eq (DraftOperation.retargets_append (fun _ _ => rfl) done)
  | patchCase start index target =>
    rw [DraftOperation.emission_eq_nil rfl, List.append_nil]
    obtain ⟨_, _, _, hpatches⟩ := patchCase_eq_ok hrun
    obtain ⟨code, switches, rfl⟩ := patchCase_eq hrun
    exact h.patches hpatches.size_eq (DraftOperation.retargets_append (fun _ _ => rfl) done)
  | setDepth depth =>
    rw [DraftOperation.emission_eq_nil rfl, List.append_nil]
    obtain rfl := setDepth_eq hrun
    exact h.unchanged (hlast fun _ _ => rfl) rfl rfl fun _ _ pending hbinding => ⟨pending, hbinding⟩
  | useLocals index words =>
    rw [DraftOperation.emission_eq_nil rfl, List.append_nil]
    obtain rfl := useLocals_eq hrun
    exact h.unchanged (hlast fun _ _ => rfl) rfl rfl fun _ _ pending hbinding => ⟨pending, hbinding⟩

/-- A whole run records the control flow of all instructions it emits. -/
theorem run {ops : List DraftOperation} (h : Recorded done items b) (hreflects : Reflects done items b)
    (hrange : ∀ op ∈ ops, op.InRange)
    (hrun : (ops.forM DraftOperation.run).outcome b = (.ok (), b')) :
    Recorded (done ++ ops) (items ++ DraftOperation.emissions b ops) b' := by
  induction ops generalizing b done items with
  | nil =>
    cases hrun
    simpa [DraftOperation.emissions] using h
  | cons op ops ih =>
    rw [List.forM, Step.bind_eq_ok] at hrun
    obtain ⟨_, b₁, hop, hops⟩ := hrun
    have hrest := ih (h.step hreflects hop) (hreflects.step (hrange op List.mem_cons_self) hop)
      (fun op hop => hrange op (List.mem_cons_of_mem _ hop)) hops
    rw [DraftOperation.emissions, hop]
    simpa using hrest

end Recorded

/-- The flow of an instruction is that of the operation that emitted it. -/
lemma flow_of_readsBack (h : ReadsBack b done start op) (hnoted : Noted b done start op) :
    ∃ insn traits, Code.decode b.code start = .ok insn ∧ insn.opcode.traits = .ok traits ∧
      op.flow? = some traits.flow := by
  have hdecodes : ∀ {opcode operands}, Code.DecodesTo b.code start opcode operands →
      ∃ insn traits, Code.decode b.code start = .ok insn ∧ insn.opcode = opcode ∧
        opcode.traits = .ok traits := by
    rintro opcode operands ⟨insn, hdecode, rfl, _⟩
    obtain ⟨traits, htraits, _⟩ := Code.decode_shape hdecode
    exact ⟨insn, traits, hdecode, rfl, htraits⟩
  match op, h, hnoted with
  | .emit opcode operands, h, ⟨traits, htraits, _⟩
  | .emitWithEffect opcode operands _ _, h, ⟨traits, htraits, _⟩ =>
    obtain ⟨insn, traits', hdecode, hop, htraits'⟩ := hdecodes h
    refine ⟨insn, traits', hdecode, hop ▸ htraits', ?_⟩
    rw [Opcode.flow_spelled htraits htraits', DraftOperation.flow?, htraits]
    rfl
  | .jump opcode (.distance _), h, _ | .jump opcode (.label _), ⟨_, _, h⟩, _ =>
    obtain ⟨insn, traits, hdecode, hop, htraits⟩ := hdecodes h
    refine ⟨insn, traits, hdecode, hop ▸ htraits, ?_⟩
    rw [DraftOperation.flow?, htraits]
    rfl
  | .reserveSwitch .., ⟨h, _⟩, _ =>
    obtain ⟨insn, traits, hdecode, hop, htraits⟩ := hdecodes h
    refine ⟨insn, traits, hdecode, hop ▸ htraits, ?_⟩
    rw [Opcode.flow_tableswitch htraits, DraftOperation.flow?]

/-- Where control goes from the instruction that an operation emitted at `start`, beside the next
instruction. -/
def LeadsTo (b : CodeDraft) (done : List DraftOperation) (start : Nat) (target : Int) :
    DraftOperation → Prop
  | .emit op operands | .emitWithEffect op operands _ _ =>
    op.IsBranch ∧ ∃ distance, operands = [distance] ∧ target = start + distance
  | .jump _ (.distance distance) => target = start + distance
  | .jump _ (.label label) => ∃ (found : Nat) (pending : List Nat),
    b.binding label = some (some found, pending) ∧ target = found
  | .reserveSwitch _ _ => ∃ (arm : SwitchArm) (found : Nat),
    lastTarget done start arm = some found ∧ target = found
  | _ => False

/-- A finished instruction jumps to where the operation said. -/
lemma leadsTo_of_readsBack (h : ReadsBack b done start op) (hnoted : Noted b done start op)
    {target : Int} (hjumps : Code.JumpsTo b.code start target) : LeadsTo b done start target op := by
  obtain ⟨insn, traits, hdecode, htraits, htarget⟩ := hjumps.cases
  have hop : ∀ {opcode operands}, Code.DecodesTo b.code start opcode operands →
      insn.opcode = opcode ∧ [insn.first, insn.second].take operands.length = operands := by
    rintro opcode operands ⟨insn', hdecode', hspells⟩
    rw [hdecode] at hdecode'
    cases hdecode'
    exact hspells
  have hnoSwitch : ∀ {opcode : Opcode}, insn.opcode = opcode → opcode.IsBranch →
      traits.flow ≠ .switch := by
    rintro _ rfl ⟨traits', htraits', hbranching⟩ hswitch
    rw [htraits] at htraits'
    cases htraits'
    rw [hswitch] at hbranching
    cases hbranching
  -- A branch of an opcode that is no switch leads as far as its operand tells.
  have hbranch : ∀ {opcode distance}, Code.DecodesTo b.code start opcode [distance] →
      traits.flow ≠ .switch → target = start + distance := by
    intro opcode distance h hswitch
    have hfirst : insn.first = distance := List.singleton_inj.mp (hop h).2
    rcases htarget with ⟨_, rfl⟩ | ⟨hflow, _⟩
    · rw [hfirst]
    · exact absurd hflow hswitch
  match op, h, hnoted with
  | .emit opcode operands, h, ⟨traits', htraits', hswitch, hjump⟩
  | .emitWithEffect opcode operands _ _, h, ⟨traits', htraits', hswitch, hjump⟩ =>
    have hflow := Opcode.flow_spelled htraits' ((hop h).1 ▸ htraits)
    rcases htarget with ⟨hbranching, _⟩ | ⟨hflow', _⟩
    · obtain ⟨distance, rfl, _⟩ := hjump (hflow ▸ hbranching)
      exact ⟨⟨traits', htraits', hflow ▸ hbranching⟩, distance, rfl, hbranch h (hflow ▸ hswitch)⟩
    · exact absurd (hflow ▸ hflow') hswitch
  | .jump opcode (.distance distance), h, ⟨hbranching, _⟩ =>
    exact hbranch h (hnoSwitch (hop h).1 hbranching)
  | .jump opcode (.label label), ⟨found, hbound, h⟩, ⟨hbranching, _⟩ =>
    obtain ⟨pending, hbinding⟩ := binding_of_boundAt hbound
    refine ⟨found, pending, hbinding, ?_⟩
    rw [hbranch h (hnoSwitch (hop h).1 hbranching)]
    omega
  | .reserveSwitch .., ⟨hswitch, table, htable, _, _, _, harms⟩, _ =>
    rcases htarget with ⟨hbranching, _⟩ | ⟨_, table', arm, distance, htable', harm, rfl⟩
    · rw [Opcode.flow_tableswitch ((hop hswitch).1 ▸ htraits)] at hbranching
      cases hbranching
    · rw [htable] at htable'
      cases htable'
      obtain ⟨found, hlast, rfl⟩ := harms arm distance harm
      exact ⟨arm, found, hlast, by omega⟩

lemma LeadsTo.mem_jumps {target : Int} (h : LeadsTo b done start target op)
    (hnoted : Noted b done start op) : (start, target) ∈ b.facts.jumps := by
  match op, h, hnoted with
  | .emit .., ⟨⟨_, htraits, hbranch⟩, distance, hoperands, htarget⟩, ⟨_, htraits', _, hjump⟩
  | .emitWithEffect .., ⟨⟨_, htraits, hbranch⟩, distance, hoperands, htarget⟩,
      ⟨_, htraits', _, hjump⟩ =>
    rw [htraits] at htraits'
    cases htraits'
    obtain ⟨given, hgiven, hmem⟩ := hjump hbranch
    rw [hoperands] at hgiven
    cases hgiven
    rwa [htarget]
  | .jump _ (.distance _), htarget, ⟨_, hmem⟩ =>
    rwa [show target = _ from htarget]
  | .jump _ (.label _), ⟨found, pending, hbinding, htarget⟩, ⟨_, hnoted⟩ =>
    rw [htarget]
    exact hnoted found pending hbinding
  | .reserveSwitch .., ⟨arm, found, hlast, htarget⟩, hnoted =>
    rw [htarget]
    exact hnoted arm found hlast

/-- The facts recorded by a run are complete once the draft is finished. -/
theorem complete_facts {ops : List DraftOperation} (hrange : ∀ op ∈ ops, op.InRange)
    (hrun : (ops.forM DraftOperation.run).outcome .empty = (.ok (), b))
    (hresolved : b.checkResolved = .ok ()) :
    ∃ starts, Code.Tiles b.code 0 starts b.code.size ∧ b.facts.Complete b.code starts := by
  have hreflects : Reflects ops (DraftOperation.emissions .empty ops) b :=
    Reflects.empty.run hrange hrun
  have hrecorded : Recorded ops (DraftOperation.emissions .empty ops) b :=
    Recorded.empty.run Reflects.empty hrange hrun
  have hreads := fun start op hitem => (hreflects.mirrors start op hitem).readsBack hresolved
  refine ⟨_, hreflects.tiles, ?_, ?_⟩
  · intro pc hpc target hjumps
    obtain ⟨⟨start, op⟩, hitem, rfl⟩ := List.mem_map.mp hpc
    have hnoted := hrecorded.noted start op hitem
    exact (leadsTo_of_readsBack (hreads start op hitem) hnoted hjumps).mem_jumps hnoted
  · rw [hrecorded.ends]
    apply DraftOperation.transferEnds_eq hreflects.tiles
    intro start op hitem
    exact flow_of_readsBack (hreads start op hitem) (hrecorded.noted start op hitem)

end CodeDraft
end ClassAssembly
